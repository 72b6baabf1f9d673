import Restake.Json.Number
import Restake.Text.Hex

/-!
JSON text as a sequence of tokens: marks, quoted text, and literals that are values by themselves.
Escaped UTF-16 surrogates are joined in pairs, and text with one left over has no value.
-/
namespace Restake.Json

inductive Token where
  | openArray
  | closeArray
  | openObject
  | closeObject
  | colon
  | comma
  /-- Quoted text, with its value if it has one. -/
  | text (value : Option String)
  | literal (value : Json)

/-- Part of a quoted text: a character, or a UTF-16 unit given by its number. -/
inductive Piece where
  | char (c : Char)
  | unit (n : Nat)

namespace Piece

def isHigh (n : Nat) : Bool := 0xD800 ≤ n && n < 0xDC00

def isLow (n : Nat) : Bool := 0xDC00 ≤ n && n < 0xE000

/-- The characters that pieces stand for, unless half of a surrogate pair is missing. -/
def join : List Piece → Option (List Char)
  | [] => some []
  | .char c :: rest => (join rest).map (c :: ·)
  | .unit high :: .unit low :: rest =>
    if isHigh high && isLow low then
      (join rest).map (.ofNat (0x10000 + (high - 0xD800) * 0x400 + (low - 0xDC00)) :: ·)
    else if isHigh high || isLow high then none
    else (join (.unit low :: rest)).map (.ofNat high :: ·)
  | .unit n :: rest => if isHigh n || isLow n then none else (join rest).map (.ofNat n :: ·)

end Piece

namespace Token

def simpleEscape? : Char → Option Char
  | '"' => some '"'
  | '\\' => some '\\'
  | '/' => some '/'
  | 'b' => some '\x08'
  | 'f' => some '\x0c'
  | 'n' => some '\n'
  | 'r' => some '\r'
  | 't' => some '\t'
  | _ => none

/-- The number that four hexadecimal digits write. -/
def unit? (a b c d : Char) : Option Nat := do
  return (((← Hex.digit? a) * 16 + (← Hex.digit? b)) * 16 + (← Hex.digit? c)) * 16 + (← Hex.digit? d)

/-- Reads quoted text up to its closing quote, and gives what follows. -/
def quoted : List Char → Option (List Piece × List Char)
  | [] => none
  | '"' :: rest => some ([], rest)
  | '\\' :: 'u' :: a :: b :: c :: d :: rest =>
    (unit? a b c d).bind fun n => (quoted rest).map fun r => (.unit n :: r.1, r.2)
  | '\\' :: e :: rest =>
    (simpleEscape? e).bind fun c => (quoted rest).map fun r => (.char c :: r.1, r.2)
  | c :: rest =>
    if c.toNat < 0x20 || c = '\\' then none
    else (quoted rest).map fun r => (.char c :: r.1, r.2)

/-- The first token of a text that starts with one, and what follows. -/
def next : List Char → Option (Token × List Char)
  | '[' :: rest => some (openArray, rest)
  | ']' :: rest => some (closeArray, rest)
  | '{' :: rest => some (openObject, rest)
  | '}' :: rest => some (closeObject, rest)
  | ':' :: rest => some (colon, rest)
  | ',' :: rest => some (comma, rest)
  | '"' :: rest =>
    (quoted rest).map fun r => (text ((Piece.join r.1).map String.ofList), r.2)
  | 'n' :: 'u' :: 'l' :: 'l' :: rest => some (literal null, rest)
  | 't' :: 'r' :: 'u' :: 'e' :: rest => some (literal (bool true), rest)
  | 'f' :: 'a' :: 'l' :: 's' :: 'e' :: rest => some (literal (bool false), rest)
  | '-' :: rest => (Number.read? true rest).map fun r => (literal r.1, r.2)
  | cs => (Number.read? false cs).map fun r => (literal r.1, r.2)

def isBlank (c : Char) : Bool := c = ' ' || c = '\t' || c = '\n' || c = '\r'

theorem length_quoted {cs rest : List Char} {pieces : List Piece}
    (h : quoted cs = some (pieces, rest)) : rest.length < cs.length := by
  fun_induction quoted cs generalizing pieces with
  | case1 => simp at h
  | case2 => simp_all
  | case3 a b c d after ih =>
    simp only [Option.bind_eq_some_iff, Option.map_eq_some_iff, Prod.mk.injEq] at h
    obtain ⟨_, _, r, hr, _, rfl⟩ := h
    have := ih hr
    simp only [List.length_cons]
    omega
  | case4 e after _ ih =>
    simp only [Option.bind_eq_some_iff, Option.map_eq_some_iff, Prod.mk.injEq] at h
    obtain ⟨_, _, r, hr, _, rfl⟩ := h
    have := ih hr
    simp only [List.length_cons]
    omega
  | case5 => simp at h
  | case6 c after _ _ _ _ ih =>
    simp only [Option.map_eq_some_iff, Prod.mk.injEq] at h
    obtain ⟨r, hr, _, rfl⟩ := h
    have := ih hr
    simp only [List.length_cons]
    omega

theorem length_next {cs rest : List Char} {t : Token} (h : next cs = some (t, rest)) :
    rest.length < cs.length := by
  unfold next at h
  split at h
  case h_7 after =>
    obtain ⟨r, hr, h⟩ := Option.map_eq_some_iff.1 h
    have := length_quoted (show quoted after = some (r.1, r.2) from hr)
    simp_all
    omega
  case h_11 after =>
    obtain ⟨r, hr, h⟩ := Option.map_eq_some_iff.1 h
    have := Number.length_read hr
    simp_all
    omega
  case h_12 =>
    obtain ⟨r, hr, h⟩ := Option.map_eq_some_iff.1 h
    have := Number.length_read hr
    simp_all
  all_goals
    simp only [Option.some.injEq, Prod.mk.injEq] at h
    simp only [← h.2, List.length_cons]
    omega

end Token

end Restake.Json
