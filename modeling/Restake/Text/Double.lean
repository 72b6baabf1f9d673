/-!
Whole numbers held as doubles: a number is rounded to a mantissa of 53 bits, half to even.
-/
namespace Restake

structure Double where
  mantissa : Nat
  exponent : Nat

namespace Double

/-- The double nearest to a number; a tie goes to the even mantissa. -/
def ofNat (n : Nat) : Double :=
  let exponent := n.log2 - 52
  let unit := 1 <<< exponent
  let mantissa := n / unit
  let rest := n % unit
  let up := unit < 2 * rest || (unit = 2 * rest && mantissa % 2 = 1)
  { mantissa := if up then mantissa + 1 else mantissa, exponent }

def value (d : Double) : Nat := d.mantissa <<< d.exponent

/-- Whether a number rounds to no double: it lies at least half a gap above the largest. -/
def overflows (n : Nat) : Bool := 1 <<< 1024 - 1 <<< 970 ≤ n

end Double

end Restake
