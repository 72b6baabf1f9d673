import Restake.Text.Hex
import Restake.Text.Keccak

/-!
Addresses of twenty bytes, ordered as their bytes are. They are written in lower case as data and
with a checksum in messages, where the case of a letter is a bit of the hash of the plain digits.
-/
namespace Restake

structure Address where
  word : BitVec 160
deriving DecidableEq, Inhabited

namespace Address

instance : Ord Address := ⟨compareOn word⟩

instance : Std.TransOrd Address := inferInstanceAs (Std.TransCmp (compareOn word))

instance : Std.LawfulEqOrd Address where
  eq_of_compare {a b} h := by
    cases a; cases b
    exact congrArg _ (Std.LawfulEqOrd.eq_of_compare h)

def bytes (a : Address) : Bytes := .ofNat 20 a.word.toNat

/-- An address from exactly twenty bytes. -/
def ofBytes? (bs : Bytes) : Option Address :=
  if bs.length = 20 then some ⟨.ofNat 160 bs.toNat⟩ else none

def render (a : Address) : String := Hex.render a.bytes

/-- A letter is written large when its digit of the hash is eight or more. -/
def raise (c : Char) (nibble : Nat) : Char := if 8 ≤ nibble then c.toUpper else c

def checksummed (a : Address) : String :=
  let digits := Hex.digits a.bytes
  let marks := (Keccak.hash (digits.map fun c => .ofNat c.toNat)).flatMap fun b =>
    [b.toNat / 16, b.toNat % 16]
  String.ofList ('0' :: 'x' :: digits.zipWith raise marks)

theorem ofBytes?_bytes (a : Address) : ofBytes? a.bytes = some a := by
  have ha : a.word.toNat < 1 <<< (8 * 20) := Nat.lt_of_lt_of_le a.word.isLt (by decide)
  simp [ofBytes?, bytes, Bytes.toNat_ofNat ha]

end Address

end Restake
