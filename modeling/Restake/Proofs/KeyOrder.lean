import Mathlib.Data.UInt
import Restake.OperatorSet

/-!
Operator sets through their packed keys. Numbers written most significant byte first compare as
their bytes do, and strings of parts of fixed lengths compare part by part. So keys tell operator
sets apart, are ordered as the sets are, and sort them alike.
-/
namespace Restake

namespace Bytes

/-- What stands in front of one more byte counts before it. -/
theorem compare_mul_add (m n : ℕ) (a b : UInt8) :
    compare (m * 256 + a.toNat) (n * 256 + b.toNat) = (compare m n).then (compare a b) := by
  have ha := a.toNat_lt
  have hb := b.toNat_lt
  rw [UInt8.compare_eq_toNat_compare_toNat]
  rcases Nat.lt_trichotomy m n with hless | rfl | hmore
  · rw [Nat.compare_eq_lt.2 hless, Nat.compare_eq_lt.2 (by omega)]
    rfl
  · rw [Std.ReflOrd.compare_self, Ordering.eq_then]
    simp only [Nat.compare_eq_ite_lt, Nat.add_lt_add_iff_left]
  · rw [Nat.compare_eq_gt.2 hmore, Nat.compare_eq_gt.2 (by omega)]
    rfl

/-- Bytes are read from the front, so what has been read before them decides first. -/
theorem compare_foldl {as bs : Bytes} (h : as.length = bs.length) (m n : ℕ) :
    compare (as.foldl (fun n b => n * 256 + b.toNat) m)
        (bs.foldl (fun n b => n * 256 + b.toNat) n) =
      (compare m n).then (compare as bs) := by
  induction as generalizing bs m n with
  | nil =>
    obtain rfl := List.length_eq_zero_iff.1 h.symm
    simp
  | cons a as ih =>
    obtain _ | ⟨b, bs⟩ := bs
    · cases h
    · rw [List.foldl_cons, List.foldl_cons, ih (Nat.succ.inj h), compare_mul_add,
        List.compare_cons_cons, Ordering.then_assoc]

theorem compare_toNat {as bs : Bytes} (h : as.length = bs.length) :
    compare as.toNat bs.toNat = compare as bs :=
  compare_foldl h 0 0

theorem compare_ofNat {width m n : ℕ} (hm : m < 1 <<< (8 * width)) (hn : n < 1 <<< (8 * width)) :
    compare (ofNat width m) (ofNat width n) = compare m n := by
  have hlength : (ofNat width m).length = (ofNat width n).length := by simp only [length_ofNat]
  rw [← compare_toNat hlength, toNat_ofNat hm, toNat_ofNat hn]

/-- Of strings in two parts the parts in front decide first, if they are of one length. -/
theorem compare_append {as bs : Bytes} (h : as.length = bs.length) (cs ds : Bytes) :
    compare (as ++ cs) (bs ++ ds) = (compare as bs).then (compare cs ds) := by
  induction as generalizing bs with
  | nil =>
    obtain rfl := List.length_eq_zero_iff.1 h.symm
    simp
  | cons a as ih =>
    obtain _ | ⟨b, bs⟩ := bs
    · cases h
    · rw [List.cons_append, List.cons_append, List.compare_cons_cons, ih (Nat.succ.inj h),
        List.compare_cons_cons, Ordering.then_assoc]

theorem compare_append_left (as cs ds : Bytes) : compare (as ++ cs) (as ++ ds) = compare cs ds := by
  rw [compare_append rfl, Std.ReflOrd.compare_self, Ordering.eq_then]

end Bytes

namespace Address

theorem length_bytes (a : Address) : a.bytes.length = 20 := Bytes.length_ofNat 20 _

theorem compare_bytes (a b : Address) : compare a.bytes b.bytes = compare a b := by
  have hwide (c : Address) : c.word.toNat < 1 <<< (8 * 20) :=
    Nat.lt_of_lt_of_le c.word.isLt (by decide)
  calc compare a.bytes b.bytes
      = compare a.word.toNat b.word.toNat := Bytes.compare_ofNat (hwide a) (hwide b)
    _ = compare a.word b.word := by
      simp only [compare, compareOfLessAndEq, BitVec.lt_def, BitVec.toNat_inj]

end Address

namespace OperatorSet

theorem compare_eq_then (s t : OperatorSet) :
    compare s t = (compare s.avs t.avs).then (compare s.id t.id) := rfl

theorem compare_key (s t : OperatorSet) : compare s.key t.key = compare s t := by
  have hlength : s.avs.bytes.length = t.avs.bytes.length := by simp only [Address.length_bytes]
  have hwide (u : OperatorSet) : u.id.toNat < 1 <<< (8 * 4) := u.id.toNat_lt
  rw [key, key, Bytes.compare_append hlength, Bytes.compare_append_left, Address.compare_bytes,
    Bytes.compare_ofNat (hwide s) (hwide t), compare_eq_then,
    UInt32.compare_eq_toNat_compare_toNat]

theorem key_inj {s t : OperatorSet} : s.key = t.key ↔ s = t := by
  rw [← Std.compare_eq_iff_eq (a := s.key), compare_key, Std.compare_eq_iff_eq]

/-- Sorting gives the only arrangement of the sets in which none stands before a smaller one. -/
theorem eq_sort_iff {sets sorted : List OperatorSet} :
    sorted = sort sets ↔ sorted.Perm sets ∧ sorted.Pairwise fun s t => (compare s t).isLE := by
  have hperm : (sort sets).Perm sets := List.mergeSort_perm sets _
  have htotal (s t : OperatorSet) : ((compare s t).isLE || (compare t s).isLE) = true := by
    rw [Std.OrientedOrd.eq_swap (a := t)]
    cases compare s t <;> rfl
  have hordered : (sort sets).Pairwise fun s t => (compare s t).isLE :=
    List.pairwise_mergeSort (fun _ _ _ => Std.TransCmp.isLE_trans) htotal sets
  constructor
  · rintro rfl
    exact ⟨hperm, hordered⟩
  · rintro ⟨hsorted, hpairwise⟩
    refine List.Perm.eq_of_pairwise ?_ hpairwise hordered (hsorted.trans hperm.symm)
    intro s t _ _ hst hts
    exact Std.LawfulEqOrd.eq_of_compare (Std.OrientedCmp.isLE_antisymm hst hts)

/-- A key has 32 bytes and belongs to one set only. Keys compare byte by byte as their sets do, first
by the bytes of the AVS and then by number, so to arrange sets in the order of their keys is to sort
them. -/
theorem key_embeds_order (s t : OperatorSet) (sets sorted : List OperatorSet) :
    s.key.length = 32 ∧ (s.key = t.key ↔ s = t) ∧ compare s.key t.key = compare s t ∧
      compare s t = (compare s.avs.bytes t.avs.bytes).then (compare s.id.toNat t.id.toNat) ∧
      (sorted.Perm sets ∧ (sorted.Pairwise fun u v => (compare u.key v.key).isLE) ↔
        sorted = sort sets) := by
  refine ⟨length_key s, key_inj, compare_key s t, ?_, ?_⟩
  · rw [Address.compare_bytes, ← UInt32.compare_eq_toNat_compare_toNat, compare_eq_then]
  · simp only [compare_key]
    exact eq_sort_iff.symm

/-- The greater number has the smaller last byte here. -/
example : compare (⟨⟨0xaa⟩, 255⟩ : OperatorSet).key (⟨⟨0xaa⟩, 256⟩ : OperatorSet).key = .lt := by
  decide

end OperatorSet

end Restake
