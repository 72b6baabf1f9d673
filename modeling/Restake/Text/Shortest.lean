import Restake.Text.Double

/-!
The shortest text of a whole number held as a double: the shortest digits, filled up with zeros,
that round to the same double. Among digits of one length the nearest are taken, and a tie goes up.
-/
namespace Restake

namespace Double

/-- Whether a number rounds to the double. The gap below a power of two is half as wide. -/
def holds (d : Double) (n : Nat) : Bool :=
  let gap := 1 <<< d.exponent
  let even : Bool := d.mantissa % 2 = 0
  let least := 4 * d.value - (if d.mantissa = 1 <<< 52 then gap else 2 * gap)
  let most := 4 * d.value + 2 * gap
  (least < 4 * n && 4 * n < most) || (even && (least = 4 * n || 4 * n = most))

/-- The multiple of `step` nearest to the double that rounds to it. -/
def onGrid? (d : Double) (step : Nat) : Option Nat :=
  let down := d.value / step * step
  let up := down + step
  match d.holds down, d.holds up with
  | true, true => some (if d.value - down < up - d.value then down else up)
  | true, false => some down
  | false, true => some up
  | false, false => none

/-- The coarsest of the grids below `10 ^ places` that has a number for the double. -/
def shortest (d : Double) : (places : Nat) → Nat
  | 0 => d.value
  | places + 1 => (d.onGrid? (Nat.pow 10 places)).getD (d.shortest places)

end Double

/-- The number that is written for `n`, which has at most twenty digits. -/
def Shortest.render (n : UInt64) : String :=
  let d := Double.ofNat n.toNat
  toString (if d.exponent = 0 then d.value else d.shortest 20)

end Restake
