import Restake.Json.Token

/-!
JSON text without blanks, and JSON text laid out over lines with two blanks for each level. In
quoted text only the quote, the backslash and control characters are escaped.
-/
namespace Restake.Json

def escape (c : Char) : List Char :=
  match c with
  | '"' => ['\\', '"']
  | '\\' => ['\\', '\\']
  | '\x08' => ['\\', 'b']
  | '\x0c' => ['\\', 'f']
  | '\n' => ['\\', 'n']
  | '\r' => ['\\', 'r']
  | '\t' => ['\\', 't']
  | c =>
    if c.toNat < 0x20 then ['\\', 'u', '0', '0', Hex.digit (c.toNat / 16), Hex.digit c.toNat]
    else [c]

def quote (s : String) : List Char := '"' :: (s.toList.flatMap escape ++ ['"'])

/-- The text of a value that is neither an array nor an object. -/
def atom : Json → List Char
  | bool true => ['t', 'r', 'u', 'e']
  | bool false => ['f', 'a', 'l', 's', 'e']
  | int negative size => (if negative then ['-'] else []) ++ Nat.toDigits 10 size
  | str s => quote s
  | _ => ['n', 'u', 'l', 'l']

mutual

def chars : Json → List Char
  | arr [] => ['[', ']']
  | arr (item :: rest) => '[' :: (chars item ++ itemChars rest)
  | obj [] => ['{', '}']
  | obj ((key, value) :: rest) => '{' :: (quote key ++ ':' :: (chars value ++ memberChars rest))
  | v => atom v

def itemChars : List Json → List Char
  | [] => [']']
  | item :: rest => ',' :: (chars item ++ itemChars rest)

def memberChars : List (String × Json) → List Char
  | [] => ['}']
  | (key, value) :: rest => ',' :: (quote key ++ ':' :: (chars value ++ memberChars rest))

end

def compact (v : Json) : String := String.ofList v.chars

/-- The start of a line at a level. -/
def newLine (level : Nat) : List Char := '\n' :: List.replicate (2 * level) ' '

mutual

def lines (level : Nat) : Json → List Char
  | arr [] => ['[', ']']
  | arr (item :: rest) =>
    '[' :: (newLine (level + 1) ++ lines (level + 1) item ++ itemLines level rest)
  | obj [] => ['{', '}']
  | obj ((key, value) :: rest) =>
    '{' :: (newLine (level + 1) ++ quote key ++ ':' :: ' ' :: lines (level + 1) value
      ++ memberLines level rest)
  | v => atom v

def itemLines (level : Nat) : List Json → List Char
  | [] => newLine level ++ [']']
  | item :: rest => ',' :: (newLine (level + 1) ++ lines (level + 1) item ++ itemLines level rest)

def memberLines (level : Nat) : List (String × Json) → List Char
  | [] => newLine level ++ ['}']
  | (key, value) :: rest =>
    ',' :: (newLine (level + 1) ++ quote key ++ ':' :: ' ' :: lines (level + 1) value
      ++ memberLines level rest)

end

def pretty (v : Json) : String := String.ofList (v.lines 0)

end Restake.Json
