import Restake.Json.Printer
import Restake.Json.Token
import Mathlib.Data.List.Basic
import Mathlib.Tactic.Ring

/-!
What the reader of tokens finds in front of a text that was printed: the text of a string is one
token with the string as its value, and so is the text of an integer of at most 128 bits, as long as
what follows does not go on with it.
-/
namespace Restake

/-- Rounding to a mantissa of 53 bits doubles a number at most. -/
theorem Double.value_ofNat_le (n : Nat) : (Double.ofNat n).value ≤ 2 * n := by
  obtain rfl | hn := Nat.eq_zero_or_pos n
  · decide
  have hunit : 2 ^ (n.log2 - 52) ≤ n :=
    (Nat.pow_le_pow_right Nat.two_pos (Nat.sub_le _ _)).trans (Nat.log2_self_le hn.ne')
  have hdown : n / 2 ^ (n.log2 - 52) * 2 ^ (n.log2 - 52) ≤ n := Nat.div_mul_le_self _ _
  simp only [value, ofNat, Nat.shiftLeft_eq, Nat.one_mul]
  split
  · rw [Nat.succ_mul]
    omega
  · omega

theorem Double.overflows_eq_false {n : Nat} (h : n < 2 ^ 130) : overflows n = false := by
  have hroom : 2 ^ 130 ≤ 1 <<< 1024 - 1 <<< 970 := by decide
  exact decide_eq_false (by omega)

namespace Json

namespace Number

/-- Whether a text goes on after a number with something that is no part of it. -/
def Stops (rest : List Char) : Prop :=
  ∀ c ∈ rest.head?, c.isDigit = false ∧ c ≠ '.' ∧ c ≠ 'e' ∧ c ≠ 'E'

/-- The leading digits and the power of ten that they leave never exceed the number. -/
theorem lead_mul_pow_le (ds : List Char) (n : Nat) :
    (lead n ds).1 * 10 ^ (ds.length - (lead n ds).2) ≤ Nat.ofDigitChars 10 ds n := by
  induction ds generalizing n with
  | nil => simp [lead]
  | cons c rest ih =>
    simp only [lead]
    split
    · have hrest := ih (Nat.ofDigitChars 10 [c] n)
      rwa [← Nat.ofDigitChars_append, List.singleton_append, ← Nat.add_sub_add_right _ 1]
        at hrest
    · have hwhole := @Nat.ofDigitChars_eq_ofDigitChars_zero (c :: rest) n
      rw [Nat.sub_zero, hwhole, Nat.mul_comm]
      exact Nat.le_add_right _ _

theorem isHuge_eq_false {whole : List Char} (h : Nat.ofDigitChars 10 whole 0 ≤ 2 ^ 127) :
    isHuge whole [] 0 = false := by
  have hle := (lead_mul_pow_le whole 0).trans h
  simp only [isHuge, lead]
  generalize (lead 0 whole).1 = front at hle ⊢
  generalize whole.length - (lead 0 whole).2 = power at hle ⊢
  obtain rfl | hfront := Nat.eq_zero_or_pos front
  · rfl
  -- The power that is left stands for digits of the number itself, so it is small with the number.
  have hpow : 10 ^ power ≤ 2 ^ 127 := (Nat.le_mul_of_pos_left _ hfront).trans hle
  have hpower : power < 40 := by
    by_contra hge
    exact absurd ((Nat.pow_le_pow_right (by decide : 0 < 10) (Nat.le_of_not_lt hge)).trans hpow)
      (by decide)
  have hvalue : (Double.ofNat front).value * (Double.ofNat (10 ^ power)).value < 2 ^ 130 :=
    calc (Double.ofNat front).value * (Double.ofNat (10 ^ power)).value
      _ ≤ 2 * front * (2 * 10 ^ power) :=
        Nat.mul_le_mul (Double.value_ofNat_le _) (Double.value_ofNat_le _)
      _ = 4 * (front * 10 ^ power) := by ring
      _ ≤ 4 * 2 ^ 127 := Nat.mul_le_mul_left 4 hle
      _ < 2 ^ 130 := by decide
  have hlow : ¬ (308 : Int) < 0 + power - (0 : Nat) := by omega
  simp only [hlow, decide_false, Bool.false_or]
  have hnat : (0 + (power : Int) - (0 : Nat)).toNat = power := by omega
  rw [hnat, show Nat.pow 10 power = 10 ^ power from rfl, Double.overflows_eq_false hvalue,
    Bool.and_false]

theorem digits_append {ds rest : List Char} (h : ∀ c ∈ ds, c.isDigit) (hrest : Stops rest) :
    digits (ds ++ rest) = ds := by
  have hnil : rest.takeWhile Char.isDigit = [] := by
    cases rest with
    | nil => rfl
    | cons c _ => simp [(hrest c rfl).1]
  rw [digits, List.takeWhile_append_of_pos h, hnil, List.append_nil]

theorem pastDigits_append {ds rest : List Char} (h : ∀ c ∈ ds, c.isDigit) (hrest : Stops rest) :
    pastDigits (ds ++ rest) = rest := by
  have hnil : rest.dropWhile Char.isDigit = rest := by
    cases rest with
    | nil => rfl
    | cons c _ => simp [(hrest c rfl).1]
  rw [pastDigits, List.dropWhile_append_of_pos h, hnil]

/-- No number but zero is written with a zero in front. -/
theorem head?_toDigits_ne {n : Nat} (hn : 0 < n) : (Nat.toDigits 10 n).head? ≠ some '0' := by
  have hdigit : ∀ k < 10, 0 < k → Nat.digitChar k ≠ '0' := by decide
  induction n using Nat.strongRecOn with
  | ind n ih =>
    rw [Nat.toDigits_eq_if (by decide)]
    split
    · exact fun h => hdigit n ‹_› hn (Option.some.inj h)
    · rw [List.head?_append_of_ne_nil _ Nat.toDigits_ne_nil]
      exact ih (n / 10) (by omega) (by omega)

theorem decimals?_of_stops {rest : List Char} (h : Stops rest) :
    decimals? rest = some (none, rest) := by
  unfold decimals?
  split
  · exact absurd rfl (h '.' rfl).2.1
  · rfl

theorem exponent?_of_stops {rest : List Char} (h : Stops rest) :
    exponent? rest = some (none, rest) := by
  unfold exponent?
  split
  · exact absurd rfl (h 'e' rfl).2.2.1
  · exact absurd rfl (h 'E' rfl).2.2.2
  · rfl

theorem read?_toDigits (negative : Bool) {n : Nat} (hn : n ≤ 2 ^ 127) {rest : List Char}
    (hrest : Stops rest) :
    read? negative (Nat.toDigits 10 n ++ rest) = some (int negative n, rest) := by
  have hdigits : ∀ c ∈ Nat.toDigits 10 n, c.isDigit :=
    fun _ hc => Nat.isDigit_of_mem_toDigits (by decide) (by decide) hc
  have hzero : (Nat.toDigits 10 n).head? = some '0' → (Nat.toDigits 10 n).length = 1 := by
    obtain rfl | hpos := Nat.eq_zero_or_pos n
    · exact fun _ => rfl
    · exact fun h => absurd h (head?_toDigits_ne hpos)
  have hhuge : isHuge (Nat.toDigits 10 n) [] 0 = false :=
    isHuge_eq_false (Nat.ofDigitChars_ten_toDigits.trans_le hn)
  have hvalue : ofParts negative (Nat.toDigits 10 n) none none = int negative n := by
    simp [ofParts, hhuge, Nat.ofDigitChars_ten_toDigits]
  simp only [read?, digits_append hdigits hrest, pastDigits_append hdigits hrest]
  rw [if_neg (fun h => h.elim Nat.toDigits_ne_nil fun h => h.2 (hzero h.1)),
    decimals?_of_stops hrest]
  show (exponent? rest).map _ = _
  rw [exponent?_of_stops hrest, Option.map_some, hvalue]

end Number

/-- How a character of quoted text reads back: by its number if that is how it was written. -/
def Piece.of (c : Char) : Piece := if (escape c).length = 6 then .unit c.toNat else .char c

theorem Piece.join_unit {n : Nat} (hn : n < 0xD800) (rest : List Piece) :
    join (.unit n :: rest) = (join rest).map (Char.ofNat n :: ·) := by
  have hhigh : isHigh n = false := by simp [isHigh]; omega
  have hlow : isLow n = false := by simp [isLow]; omega
  rcases rest with _ | ⟨c | m, rest⟩ <;> simp [join, hhigh, hlow]

namespace Token

theorem unit?_zero_zero {n : Nat} (hn : n < 0x100) :
    unit? '0' '0' (Hex.digit (n / 16)) (Hex.digit n) = some n := by
  have hzero : Hex.digit? '0' = some 0 := by decide
  simp [unit?, hzero, Hex.digit?_digit]
  omega

theorem quoted_cons {c : Char} (hquote : c ≠ '"') (hslash : c ≠ '\\') (hplain : ¬ c.toNat < 0x20)
    (cs : List Char) :
    quoted (c :: cs) = (quoted cs).map fun r => (.char c :: r.1, r.2) := by
  rw [quoted]
  · simp [hplain, hslash]
  · exact hquote
  · exact fun _ _ _ _ _ h _ => hslash h
  · exact fun _ _ h _ => hslash h

theorem quoted_escape (c : Char) (cs : List Char) :
    quoted (escape c ++ cs) = (quoted cs).map fun r => (Piece.of c :: r.1, r.2) := by
  unfold Piece.of escape
  split
  -- Characters with an escape of their own are read by computing; what is left is the others.
  case h_8 hquote hslash _ _ _ _ _ =>
    split
    next hcontrol =>
      have hunit := unit?_zero_zero (Nat.lt_trans hcontrol (by decide))
      simp [quoted, hunit]
    next hcontrol =>
      rw [if_neg (by simp), List.singleton_append, quoted_cons hquote hslash hcontrol]
  all_goals rfl

theorem quoted_flatMap (cs rest : List Char) :
    quoted (cs.flatMap escape ++ '"' :: rest) = some (cs.map Piece.of, rest) := by
  induction cs with
  | nil => rfl
  | cons c cs ih => rw [List.flatMap_cons, List.append_assoc, quoted_escape, ih]; rfl

end Token

/-- Only control characters are written by their numbers, so no surrogate arises. -/
theorem Piece.join_of_cons (c : Char) (rest : List Piece) :
    join (Piece.of c :: rest) = (join rest).map (c :: ·) := by
  unfold Piece.of
  split
  next hlong =>
    have hcontrol : c.toNat < 0x20 := by
      unfold escape at hlong
      split at hlong
      case h_8 =>
        split at hlong
        · assumption
        · cases hlong
      all_goals cases hlong
    rw [join_unit (by omega), Char.ofNat_toNat]
  · rfl

theorem Piece.join_map_of (cs : List Char) : join (cs.map Piece.of) = some cs := by
  induction cs with
  | nil => rfl
  | cons c cs ih => rw [List.map_cons, join_of_cons, ih]; rfl

namespace Token

theorem next_quote (s : String) (rest : List Char) :
    next (quote s ++ rest) = some (text (some s), rest) := by
  have hpieces := quoted_flatMap s.toList rest
  rw [quote, List.cons_append, List.append_assoc]
  simp only [next, List.singleton_append, hpieces, Piece.join_map_of, Option.map_some,
    String.ofList_toList]

theorem next_of_isDigit {c : Char} (h : c.isDigit) (cs : List Char) :
    next (c :: cs) = (Number.read? false (c :: cs)).map fun r => (literal r.1, r.2) := by
  unfold next
  split
  case h_12 => rfl
  -- Every other pattern starts with a character that is no digit.
  all_goals
    rename_i heq
    cases heq
    exact absurd h (by decide)

theorem next_int (negative : Bool) {n : Nat} (hn : n ≤ 2 ^ 127) {rest : List Char}
    (hrest : Number.Stops rest) :
    next ((int negative n).atom ++ rest) = some (literal (int negative n), rest) := by
  have hread := Number.read?_toDigits negative hn hrest
  cases negative with
  | true => simp [atom, next, hread]
  | false =>
    obtain ⟨c, ds, hds⟩ := List.exists_cons_of_ne_nil (Nat.toDigits_ne_nil (n := n) (b := 10))
    have hc : c.isDigit :=
      Nat.isDigit_of_mem_toDigits (n := n) (b := 10) (by decide) (by decide) (by simp [hds])
    rw [atom, if_neg Bool.false_ne_true, List.nil_append, hds, List.cons_append, next_of_isDigit hc,
      ← List.cons_append, ← hds, hread, Option.map_some]

end Token
end Json
end Restake
