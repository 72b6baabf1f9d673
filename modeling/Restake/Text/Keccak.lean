import Restake.Bytes

/-!
The sponge hash Keccak with 256 bits of output: twenty five lanes of 64 bits, twenty four rounds,
blocks of 136 bytes padded by a bit at either end.
-/
namespace Restake.Keccak

abbrev Lanes := Array UInt64

def lane (a : Lanes) (x y : Nat) : UInt64 := a.getD (x % 5 + 5 * (y % 5)) 0

def tabulate (f : Nat → Nat → UInt64) : Lanes := Array.ofFn fun i : Fin 25 => f (i % 5) (i / 5)

def rotate (w : UInt64) (n : Nat) : UInt64 :=
  if n % 64 = 0 then w else w <<< .ofNat (n % 64) ||| w >>> .ofNat (64 - n % 64)

/-- How far each lane turns, the lane at `(x, y)` standing at `x + 5 * y`. -/
def turns : Array Nat :=
  #[0, 1, 62, 28, 27, 36, 44, 6, 55, 20, 3, 10, 43, 25, 39, 41, 45, 15, 21, 8, 18, 2, 61, 56, 14]

def roundWords : List UInt64 :=
  [0x0000000000000001, 0x0000000000008082, 0x800000000000808a, 0x8000000080008000,
   0x000000000000808b, 0x0000000080000001, 0x8000000080008081, 0x8000000000008009,
   0x000000000000008a, 0x0000000000000088, 0x0000000080008009, 0x000000008000000a,
   0x000000008000808b, 0x800000000000008b, 0x8000000000008089, 0x8000000000008003,
   0x8000000000008002, 0x8000000000000080, 0x000000000000800a, 0x800000008000000a,
   0x8000000080008081, 0x8000000000008080, 0x0000000080000001, 0x8000000080008008]

/-- Each lane takes in the parity of two neighbouring columns. -/
def spread (a : Lanes) : Lanes :=
  let column (x : Nat) : UInt64 := (List.range 5).foldl (fun w y => w ^^^ lane a x y) 0
  let columns := Array.ofFn fun i : Fin 5 => column i
  tabulate fun x y =>
    lane a x y ^^^ columns.getD ((x + 4) % 5) 0 ^^^ rotate (columns.getD ((x + 1) % 5) 0) 1

/-- Lanes turn and change places. -/
def shuffle (a : Lanes) : Lanes :=
  tabulate fun x y =>
    let from_x := x + 3 * y
    rotate (lane a from_x x) (turns.getD (from_x % 5 + 5 * x) 0)

/-- Each lane is mixed with the two that follow it in its row. -/
def mix (a : Lanes) : Lanes :=
  tabulate fun x y => lane a x y ^^^ (~~~ lane a (x + 1) y &&& lane a (x + 2) y)

def permute (a : Lanes) : Lanes :=
  roundWords.foldl (fun a w => (mix (shuffle (spread a))).modify 0 (· ^^^ w)) a

def blockSize : Nat := 136

/-- The message with its closing bits, a whole number of blocks long. -/
def pad (message : Bytes) : Bytes :=
  let gap := blockSize - message.length % blockSize
  if gap = 1 then message ++ [0x81] else message ++ 0x01 :: List.replicate (gap - 2) 0 ++ [0x80]

/-- A lane from eight bytes, least significant first. -/
def laneOf (bs : Bytes) : UInt64 := .ofNat (Bytes.toNat bs.reverse)

def absorb (a : Lanes) (block : Bytes) : Lanes :=
  permute (a.mapIdx fun i w => w ^^^ laneOf ((block.drop (8 * i)).take 8))

/-- The first 32 bytes of the state after every block. -/
def hash (message : Bytes) : Bytes :=
  let padded := pad message
  let blocks := (List.range (padded.length / blockSize)).map fun i =>
    (padded.drop (blockSize * i)).take blockSize
  let final := blocks.foldl absorb (Array.replicate 25 0)
  (List.range 4).flatMap fun i => (Bytes.ofNat 8 (final.getD i 0).toNat).reverse

end Restake.Keccak
