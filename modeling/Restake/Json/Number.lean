import Restake.Json.Basic
import Restake.Text.Double

/-!
Numbers as JSON writes them. A number has a value if it can be approximated, which is done by its
leading digits, as many as fit in 64 bits, times a power of ten; the two are taken as doubles, and
their product has to round to one. The digits of an integer are kept beyond that.
-/
namespace Restake.Json.Number

/-- The digits in front of a text. -/
def digits (cs : List Char) : List Char := cs.takeWhile Char.isDigit

def pastDigits (cs : List Char) : List Char := cs.dropWhile Char.isDigit

/-- The digits after a point, if there is one; a point alone is refused. -/
def decimals? : List Char → Option (Option (List Char) × List Char)
  | '.' :: rest => if digits rest = [] then none else some (some (digits rest), pastDigits rest)
  | cs => some (none, cs)

def unsigned : List Char → List Char
  | '-' :: rest => rest
  | '+' :: rest => rest
  | cs => cs

/-- The exponent that a text starts with, with its sign. -/
def power (cs : List Char) : Int :=
  let n := Nat.ofDigitChars 10 (digits (unsigned cs)) 0
  if cs.head? = some '-' then -n else n

/-- The exponent after a letter `e`, if there is one. -/
def exponent? : List Char → Option (Option Int × List Char)
  | 'e' :: rest | 'E' :: rest =>
    if digits (unsigned rest) = [] then none
    else some (some (power rest), pastDigits (unsigned rest))
  | cs => some (none, cs)

/-- Takes digits into `n` for as long as it fits in 64 bits, and counts those taken. -/
def lead (n : Nat) : List Char → Nat × Nat
  | [] => (n, 0)
  | c :: rest =>
    let next := Nat.ofDigitChars 10 [c] n
    if next < UInt64.size then
      let (taken, count) := lead next rest
      (taken, count + 1)
    else (n, 0)

/-- Whether a number has no approximation; no power of ten above the 308th is a double. -/
def isHuge (whole decimals : List Char) (power : Int) : Bool :=
  let (front, counted) := lead 0 whole
  let (front, places) := lead front decimals
  let power := power + (whole.length - counted : Nat) - places
  front ≠ 0 && 0 ≤ power && (308 < power ||
    Double.overflows ((Double.ofNat front).value * (Double.ofNat (Nat.pow 10 power.toNat)).value))

/-- The value of a number from its parts. -/
def ofParts (negative : Bool) (whole : List Char) (places : Option (List Char)) (power : Option Int) :
    Json :=
  if isHuge whole (places.getD []) (power.getD 0) then unreadable
  else if places.isNone && power.isNone then int negative (Nat.ofDigitChars 10 whole 0)
  else fraction

/-- Reads a number; one that starts with zero has no second digit before the point. -/
def read? (negative : Bool) (cs : List Char) : Option (Json × List Char) :=
  let whole := digits cs
  if whole = [] ∨ (whole.head? = some '0' ∧ whole.length ≠ 1) then none
  else
    (decimals? (pastDigits cs)).bind fun d =>
      (exponent? d.2).map fun e => (ofParts negative whole d.1 e.1, e.2)

theorem length_pastDigits_le (cs : List Char) : (pastDigits cs).length ≤ cs.length :=
  (List.dropWhile_suffix _).length_le

theorem length_pastDigits_lt {cs : List Char} (h : digits cs ≠ []) :
    (pastDigits cs).length < cs.length := by
  have hsplit : (digits cs).length + (pastDigits cs).length = cs.length := by
    rw [digits, pastDigits, ← List.length_append, List.takeWhile_append_dropWhile]
  have := List.length_pos_iff.2 h
  omega

theorem length_unsigned (cs : List Char) : (unsigned cs).length ≤ cs.length := by
  unfold unsigned
  split <;> simp

theorem length_decimals {cs : List Char} {d : Option (List Char) × List Char}
    (h : decimals? cs = some d) : d.2.length ≤ cs.length := by
  unfold decimals? at h
  split at h
  next after =>
    split at h
    · contradiction
    · cases h
      exact Nat.le_succ_of_le (length_pastDigits_le after)
  · cases h
    exact Nat.le_refl _

theorem length_exponent {cs : List Char} {e : Option Int × List Char}
    (h : exponent? cs = some e) : e.2.length ≤ cs.length := by
  have step (after : List Char) : (pastDigits (unsigned after)).length ≤ after.length + 1 :=
    Nat.le_succ_of_le (Nat.le_trans (length_pastDigits_le _) (length_unsigned after))
  unfold exponent? at h
  split at h
  case h_3 =>
    cases h
    exact Nat.le_refl _
  all_goals
    split at h
    · contradiction
    · cases h
      exact step _

theorem length_read {cs : List Char} {negative : Bool} {r : Json × List Char}
    (h : read? negative cs = some r) : r.2.length < cs.length := by
  simp only [read?] at h
  split at h
  · contradiction
  next hwhole =>
    obtain ⟨d, hd, h⟩ := Option.bind_eq_some_iff.1 h
    obtain ⟨e, he, rfl⟩ := Option.map_eq_some_iff.1 h
    have hnil : digits cs ≠ [] := fun hnil => hwhole (Or.inl hnil)
    have := length_pastDigits_lt hnil
    have := length_decimals hd
    have := length_exponent he
    show e.2.length < cs.length
    omega

end Restake.Json.Number
