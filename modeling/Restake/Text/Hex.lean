import Restake.Bytes

/-!
Hexadecimal text: two digits a byte, lower case when written, either case when read, and an
optional `0x` or `0X` in front. `ofDigits?_digits` says that what is written reads back.
-/
namespace Restake.Hex

def digit (n : Nat) : Char := Nat.digitChar (n % 16)

/-- The value of a digit of either case. -/
def digit? (c : Char) : Option Nat :=
  if '0' ≤ c ∧ c ≤ '9' then some (c.toNat - '0'.toNat)
  else if 'a' ≤ c ∧ c ≤ 'f' then some (c.toNat - 'a'.toNat + 10)
  else if 'A' ≤ c ∧ c ≤ 'F' then some (c.toNat - 'A'.toNat + 10)
  else none

def digits (bs : Bytes) : List Char :=
  bs.flatMap fun b => [digit (b.toNat / 16), digit b.toNat]

/-- Bytes from pairs of digits; a digit left over is refused. -/
def ofDigits? : List Char → Option Bytes
  | [] => some []
  | [_] => none
  | hi :: lo :: rest => do
    let h ← digit? hi
    let l ← digit? lo
    return .ofNat (h * 16 + l) :: (← ofDigits? rest)

def unmarked : List Char → List Char
  | '0' :: 'x' :: rest => rest
  | '0' :: 'X' :: rest => rest
  | cs => cs

def render (bs : Bytes) : String := String.ofList ('0' :: 'x' :: digits bs)

def read? (s : String) : Option Bytes := ofDigits? (unmarked s.toList)

/-- A number in as few digits as it needs, with the mark in front. -/
def renderNat (n : Nat) : String := String.ofList ('0' :: 'x' :: Nat.toDigits 16 n)

theorem digit?_digit (n : Nat) : digit? (digit n) = some (n % 16) := by
  have h : ∀ k < 16, digit? (Nat.digitChar k) = some k := by decide
  exact h _ (Nat.mod_lt _ (by decide))

theorem ofDigits?_digits (bs : Bytes) : ofDigits? (digits bs) = some bs := by
  induction bs with
  | nil => rfl
  | cons b bs ih =>
    have hb := b.toNat_lt
    have hv : UInt8.ofNat (b.toNat / 16 % 16 * 16 + b.toNat % 16) = b := by
      rw [show b.toNat / 16 % 16 * 16 + b.toNat % 16 = b.toNat by omega]
      exact UInt8.ofNat_toNat
    have hd : digits (b :: bs) = digit (b.toNat / 16) :: digit b.toNat :: digits bs := rfl
    rw [hd, ofDigits?, digit?_digit, digit?_digit, ih]
    exact congrArg (fun c => some (c :: bs)) hv

theorem read?_render (bs : Bytes) : read? (render bs) = some bs := by
  simp [read?, render, unmarked, ofDigits?_digits]

end Restake.Hex
