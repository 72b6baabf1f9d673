import Restake.Json.Token

/-!
What may stand in a list of bytes after its last byte: a comma, or one thing that is tried as a
byte and is none. It need not be well formed. What counts is where the attempt to read it stops,
at its end or at its first fault, since the list has to be closed from there.
-/
namespace Restake.Json.Stray

def skipBlanks (cs : List Char) : List Char := cs.dropWhile Token.isBlank

/-- Skips bytes of text; a cut inside of a character leaves nothing that could close a list. -/
def skipBytes : Nat → List Char → Option (List Char)
  | 0, cs => some cs
  | _ + 1, [] => none
  | n + 1, c :: rest => if c.utf8Size ≤ n + 1 then skipBytes (n + 1 - c.utf8Size) rest else none

/-- Goes on after a letter as long as a word does, and past the character that breaks it. -/
def pastWord : List Char → List Char → Option (List Char)
  | [], cs => some cs
  | _ :: _, [] => none
  | w :: word, c :: rest => if c = w then pastWord word rest else skipBytes 1 (c :: rest)

/-- Goes on after the first quote. The first fault is a control character, an unknown escape, or
an escape that breaks a surrogate pair. -/
def pastQuoted : List Char → Option (List Char)
  | [] => none
  | '"' :: rest => some rest
  | '\\' :: 'u' :: a :: b :: c :: d :: rest =>
    match Token.unit? a b c d with
    | none => skipBytes 4 (a :: b :: c :: d :: rest)
    | some n =>
      if Piece.isLow n then some rest
      else if Piece.isHigh n then
        match rest with
        | '\\' :: 'u' :: a :: b :: c :: d :: rest =>
          match Token.unit? a b c d with
          | none => skipBytes 4 (a :: b :: c :: d :: rest)
          | some n => if Piece.isLow n then pastQuoted rest else some rest
        | '\\' :: 'u' :: rest => skipBytes 4 rest
        | '\\' :: rest => skipBytes 1 rest
        | rest => skipBytes 1 rest
      else pastQuoted rest
  | '\\' :: 'u' :: rest => skipBytes 4 rest
  | '\\' :: e :: rest => if (Token.simpleEscape? e).isSome then pastQuoted rest else skipBytes 1 (e :: rest)
  | c :: rest => if c.toNat < 0x20 then some rest else pastQuoted rest

/-- Goes on after the letter of an exponent. A number that is too large by its exponent alone is
given up at the digit that takes the exponent out of 32 bits. -/
def pastExponent (isZero : Bool) (cs : List Char) : Option (List Char) :=
  let ds := Number.digits (Number.unsigned cs)
  if ds = [] then skipBytes 1 (Number.unsigned cs)
  else if !isZero && cs.head? ≠ some '-' && 1 <<< 31 ≤ Nat.ofDigitChars 10 ds.dropLast 0 then none
  else some (Number.pastDigits (Number.unsigned cs))

/-- Goes on after the sign of a number. -/
def pastNumber (negative : Bool) (cs : List Char) : Option (List Char) :=
  let whole := Number.digits cs
  let isZero (ds : List Char) : Bool := ds.all (· = '0')
  if whole = [] then skipBytes 1 cs
  else if whole.head? = some '0' ∧ whole.length ≠ 1 then none
  else
    match Number.pastDigits cs with
    | '.' :: rest =>
      if Number.digits rest = [] then some rest
      else
        match Number.pastDigits rest with
        | 'e' :: after | 'E' :: after => pastExponent (isZero (whole ++ Number.digits rest)) after
        | after => some after
    | 'e' :: rest | 'E' :: rest => pastExponent (isZero whole) rest
    | rest => if !negative && Nat.ofDigitChars 10 whole 0 < UInt8.size then none else some rest

/-- Where an attempt to read a byte stops, if there is none and something was read at all. -/
def past : List Char → Option (List Char)
  | '"' :: rest => pastQuoted rest
  | 'n' :: rest => pastWord ['u', 'l', 'l'] rest
  | 't' :: rest => pastWord ['r', 'u', 'e'] rest
  | 'f' :: rest => pastWord ['a', 'l', 's', 'e'] rest
  | '-' :: rest => pastNumber true rest
  | c :: rest => if c.isDigit then pastNumber false (c :: rest) else none
  | [] => none

/-- What follows the end of a list of bytes that has all its bytes. -/
def close? : List Char → Option (List Char)
  | ']' :: rest => some rest
  | ',' :: rest =>
    match skipBlanks rest with
    | ']' :: rest => some rest
    | rest =>
      match (past rest).map skipBlanks with
      | some (']' :: rest) => some rest
      | _ => none
  | _ => none

theorem length_skipBytes {n : Nat} {cs rest : List Char} (h : skipBytes n cs = some rest) :
    rest.length ≤ cs.length := by
  fun_induction skipBytes n cs with
  | case1 => simp_all
  | case3 =>
    rename_i ih
    exact Nat.le_succ_of_le (ih h)
  | case2 | case4 => simp at h

theorem length_pastWord {word cs rest : List Char} (h : pastWord word cs = some rest) :
    rest.length ≤ cs.length := by
  fun_induction pastWord word cs with
  | case1 => simp_all
  | case2 => simp at h
  | case3 =>
    rename_i ih
    exact Nat.le_succ_of_le (ih h)
  | case4 => exact length_skipBytes h

theorem length_pastQuoted {cs rest : List Char} (h : pastQuoted cs = some rest) :
    rest.length ≤ cs.length := by
  fun_induction pastQuoted cs with
  | case1 => simp at h
  | case2 | case4 | case7 | case15 =>
    cases h
    simp only [List.length_cons]
    omega
  | case3 | case5 | case8 | case9 | case10 | case12 | case14 =>
    have := length_skipBytes h
    simp only [List.length_cons] at this ⊢
    omega
  | case6 | case11 | case13 | case16 =>
    rename_i ih
    have := ih h
    simp only [List.length_cons]
    omega

theorem length_pastExponent {isZero : Bool} {cs rest : List Char}
    (h : pastExponent isZero cs = some rest) : rest.length ≤ cs.length := by
  have hsign := Number.length_unsigned cs
  have hdigits := Number.length_pastDigits_le (Number.unsigned cs)
  simp only [pastExponent] at h
  split at h
  · exact Nat.le_trans (length_skipBytes h) hsign
  · split at h
    · contradiction
    · cases h
      omega

theorem length_pastNumber {negative : Bool} {cs rest : List Char}
    (h : pastNumber negative cs = some rest) : rest.length ≤ cs.length := by
  have hwhole := Number.length_pastDigits_le cs
  simp only [pastNumber] at h
  split at h
  · exact length_skipBytes h
  split at h
  · contradiction
  split at h
  next after heq =>
    rw [heq, List.length_cons] at hwhole
    have hplaces := Number.length_pastDigits_le after
    split at h
    · cases h
      omega
    split at h
    case h_3 =>
      cases h
      omega
    all_goals
      have := length_pastExponent h
      simp only [*, List.length_cons] at hplaces
      omega
  case h_4 =>
    split at h
    · contradiction
    · cases h
      exact hwhole
  all_goals
    have := length_pastExponent h
    simp only [*, List.length_cons] at hwhole
    omega

theorem length_past {cs rest : List Char} (h : past cs = some rest) : rest.length ≤ cs.length := by
  unfold past at h
  split at h
  · exact Nat.le_succ_of_le (length_pastQuoted h)
  · exact Nat.le_succ_of_le (length_pastWord h)
  · exact Nat.le_succ_of_le (length_pastWord h)
  · exact Nat.le_succ_of_le (length_pastWord h)
  · exact Nat.le_succ_of_le (length_pastNumber h)
  · split at h
    · exact length_pastNumber h
    · contradiction
  · contradiction

theorem length_skipBlanks (cs : List Char) : (skipBlanks cs).length ≤ cs.length :=
  (List.dropWhile_suffix _).length_le

theorem length_close {cs rest : List Char} (h : close? cs = some rest) :
    rest.length < cs.length := by
  unfold close? at h
  split at h
  · cases h
    exact Nat.lt_succ_self _
  next after =>
    have hblanks := length_skipBlanks after
    split at h
    next heq =>
      cases h
      rw [heq, List.length_cons] at hblanks
      exact Nat.lt_succ_of_lt hblanks
    · split at h
      next heq =>
        cases h
        obtain ⟨stop, hstop, hclose⟩ := Option.map_eq_some_iff.1 heq
        have hstray := length_past hstop
        have hlast := length_skipBlanks stop
        rw [hclose, List.length_cons] at hlast
        rw [List.length_cons]
        omega
      · contradiction
  · contradiction

end Restake.Json.Stray
