import Restake.Magnitude

/-!
Shares are 256 bit words. A part of them is taken by a wrapping product and a floored quotient, as
`toNat_portion_eq_mod` says; by `toNat_portion` the result is exact as long as the product fits.
-/
namespace Restake

abbrev Shares := BitVec 256

namespace Shares

/-- The shares that stand behind `part` out of `whole`, rounded down; none if `whole` is zero. -/
def portion (shares : Shares) (part whole : Magnitude) : Shares :=
  if whole = 0 then 0 else shares * .ofNat 256 part.toNat / .ofNat 256 whole.toNat

theorem toNat_portion_eq_mod (shares : Shares) (part whole : Magnitude) :
    (shares.portion part whole).toNat = shares.toNat * part.toNat % (1 <<< 256) / whole.toNat := by
  have hp := part.toNat_lt
  have hw := whole.toNat_lt
  unfold portion
  split
  next hzero => simp [hzero]
  next =>
    rw [Nat.shiftLeft_eq, Nat.one_mul, BitVec.toNat_udiv, BitVec.toNat_mul, BitVec.toNat_ofNat,
      BitVec.toNat_ofNat, Nat.mod_eq_of_lt (show part.toNat < 2 ^ 256 by omega),
      Nat.mod_eq_of_lt (show whole.toNat < 2 ^ 256 by omega)]

theorem toNat_portion {shares : Shares} {part whole : Magnitude}
    (h : shares.toNat * part.toNat < 1 <<< 256) :
    (shares.portion part whole).toNat = shares.toNat * part.toNat / whole.toNat := by
  rw [toNat_portion_eq_mod, Nat.mod_eq_of_lt h]

end Shares

end Restake
