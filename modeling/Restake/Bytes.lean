/-!
Byte strings and numbers written in bytes, most significant first. `toNat_ofNat` says that a
number comes back from its bytes when they are wide enough for it.
-/
namespace Restake

abbrev Bytes := List UInt8

namespace Bytes

/-- The last `width` bytes of a number. -/
def ofNat : (width : Nat) → Nat → Bytes
  | 0, _ => []
  | width + 1, n => .ofNat (n >>> (8 * width)) :: ofNat width n

/-- The number that a byte string writes. -/
def toNat (bs : Bytes) : Nat := bs.foldl (fun n b => n * 256 + b.toNat) 0

@[simp] theorem length_ofNat (width n : Nat) : (ofNat width n).length = width := by
  induction width with
  | zero => rfl
  | succ width ih => simp [ofNat, ih]

theorem foldl_ofNat (width n a : Nat) :
    (ofNat width n).foldl (fun n b => n * 256 + b.toNat) a =
      a <<< (8 * width) + n % 1 <<< (8 * width) := by
  simp only [Nat.shiftLeft_eq, Nat.one_mul]
  induction width generalizing a with
  | zero => simp [ofNat, Nat.mod_one]
  | succ width ih =>
    have hwide : 2 ^ (8 * (width + 1)) = 2 ^ (8 * width) * 256 := by
      rw [Nat.mul_succ, Nat.pow_add]
    have hsplit : n % (2 ^ (8 * width) * 256) =
        2 ^ (8 * width) * (n / 2 ^ (8 * width) % 256) + n % 2 ^ (8 * width) := by
      rw [Nat.mod_mul, Nat.add_comm]
    rw [ofNat, List.foldl_cons, ih, UInt8.toNat_ofNat', Nat.shiftRight_eq_div_pow, hwide, hsplit,
      Nat.add_mul, Nat.mul_assoc, Nat.mul_comm 256, Nat.mul_comm _ (2 ^ (8 * width)), Nat.add_assoc]

theorem toNat_ofNat {width n : Nat} (h : n < 1 <<< (8 * width)) : toNat (ofNat width n) = n := by
  rw [toNat, foldl_ofNat, Nat.zero_shiftLeft, Nat.zero_add, Nat.mod_eq_of_lt h]

end Bytes

end Restake
