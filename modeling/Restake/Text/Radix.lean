import Restake.Text.Hex

/-!
Numbers written with digits of a radix up to sixteen. A mark in front chooses the radix, which is
ten without one, and underscores among the digits are passed over.
-/
namespace Restake.Radix

/-- Takes one more digit into `n`, or passes over an underscore. -/
def push (radix n : Nat) (c : Char) : Option Nat :=
  if c = '_' then some n
  else (Hex.digit? c).bind fun d => if d < radix then some (n * radix + d) else none

def marked : List Char → Nat × List Char
  | '0' :: 'x' :: rest | '0' :: 'X' :: rest => (16, rest)
  | '0' :: 'o' :: rest | '0' :: 'O' :: rest => (8, rest)
  | '0' :: 'b' :: rest | '0' :: 'B' :: rest => (2, rest)
  | cs => (10, cs)

/-- The number that a text writes; a text without digits writes zero. -/
def read? (s : String) : Option Nat :=
  let (radix, digits) := marked s.toList
  digits.foldlM (push radix) 0

end Restake.Radix
