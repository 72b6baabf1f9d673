/-!
Magnitudes count an operator's slashable capacity in one strategy; `wad` of them make the whole.
A change of magnitude is an integer, a magnitude itself a 64 bit word, so adding a change can
leave the range, and `shift?` says when it does.
-/
namespace Restake

abbrev Magnitude := UInt64

abbrev BlockNumber := UInt32

/-- All of an operator's capacity in one strategy. -/
def wad : Magnitude := 1000000000000000000

namespace Magnitude

/-- The fraction `w / wad` of `m`, rounded down and held at the largest word. -/
def scale (m w : UInt64) : Magnitude :=
  .ofNat (min (m.toNat * w.toNat / wad.toNat) (UInt64.size - 1))

/-- The magnitude `m` changed by `d`, if that is one. -/
def shift? (m : Magnitude) (d : Int) : Option Magnitude :=
  let n : Int := m.toNat + d
  if 0 ≤ n ∧ n < UInt64.size then some (.ofNat n.toNat) else none

/-- The change that leads from `m` to `n`. -/
def changeTo (m n : Magnitude) : Int := n.toNat - m.toNat

/-- What is left of `m` once `n` is taken away, nothing if `n` is the larger. -/
def monus (m n : Magnitude) : Magnitude := if n ≤ m then m - n else 0

theorem toNat_scale (m w : UInt64) :
    (scale m w).toNat = min (m.toNat * w.toNat / wad.toNat) (UInt64.size - 1) := by
  have hlt : min (m.toNat * w.toNat / wad.toNat) (UInt64.size - 1) < UInt64.size :=
    Nat.lt_of_le_of_lt (Nat.min_le_right _ _) (by decide)
  exact UInt64.toNat_ofNat'.trans (Nat.mod_eq_of_lt hlt)

theorem shift?_eq_some_iff {m n : Magnitude} {d : Int} :
    shift? m d = some n ↔ (n.toNat : Int) = m.toNat + d := by
  have hn := n.toNat_lt
  unfold shift?
  simp only [UInt64.size]
  constructor
  · intro h
    split at h
    · cases h
      simp only [UInt64.toNat_ofNat']
      omega
    · contradiction
  · intro h
    rw [← h, if_pos (by omega)]
    simp

theorem shift?_changeTo (m n : Magnitude) : shift? m (changeTo m n) = some n := by
  rw [shift?_eq_some_iff, changeTo]
  omega

theorem toNat_monus (m n : Magnitude) : (monus m n).toNat = m.toNat - n.toNat := by
  unfold monus
  split <;> rename_i h <;> rw [UInt64.le_iff_toNat_le] at h
  · exact UInt64.toNat_sub_of_le _ _ (UInt64.le_iff_toNat_le.2 h)
  · simp
    omega

end Magnitude

/-- The block `delay` blocks after `block`, if there is one. -/
def BlockNumber.after? (block delay : BlockNumber) : Option BlockNumber :=
  if block.toNat + delay.toNat < UInt32.size then some (block + delay) else none

theorem BlockNumber.after?_eq_some_iff {block delay b : BlockNumber} :
    after? block delay = some b ↔ b.toNat = block.toNat + delay.toNat := by
  have hb := b.toNat_lt
  unfold after?
  simp only [UInt32.size]
  constructor
  · intro h
    split at h
    · cases h
      rw [UInt32.toNat_add]
      omega
    · contradiction
  · intro h
    rw [if_pos (by omega), Option.some_inj, ← UInt32.toNat_inj, UInt32.toNat_add]
    omega

end Restake
