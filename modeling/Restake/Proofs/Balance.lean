import Mathlib.Algebra.BigOperators.Fin
import Mathlib.Algebra.Order.BigOperators.Group.Finset
import Mathlib.Data.Fintype.EquivFin
import Mathlib.Data.Fintype.Prod
import Restake.Proofs.Runs

/-!
The balance of an account: what its positions hold, over all operator sets, is what is encumbered,
and no more than its max. A posting moves what one position holds and what is encumbered by the
same amount, whether it takes up new magnitude, completes a change or cuts one.
-/
namespace Restake

namespace Magnitude

variable {m n w : Magnitude}

theorem toNat_scale_of_le (hw : w ≤ wad) : (scale m w).toNat = m.toNat * w.toNat / wad.toNat := by
  have hm := m.toNat_lt
  have hle : m.toNat * w.toNat / wad.toNat ≤ m.toNat :=
    Nat.div_le_of_le_mul (Nat.mul_comm wad.toNat m.toNat ▸
      Nat.mul_le_mul_left _ (UInt64.le_iff_toNat_le.1 hw))
  rw [toNat_scale, Nat.min_eq_left]
  exact Nat.le_sub_one_of_lt (Nat.lt_of_le_of_lt hle hm)

theorem scale_le (hw : w ≤ wad) : scale m w ≤ m := by
  rw [UInt64.le_iff_toNat_le, toNat_scale_of_le hw]
  exact Nat.div_le_of_le_mul (Nat.mul_comm wad.toNat m.toNat ▸
    Nat.mul_le_mul_left _ (UInt64.le_iff_toNat_le.1 hw))

theorem scale_lt (hw : w < wad) (hm : 0 < m.toNat) : (scale m w).toNat < m.toNat := by
  rw [toNat_scale_of_le (UInt64.le_of_lt hw)]
  apply Nat.div_lt_of_lt_mul
  rw [Nat.mul_comm wad.toNat]
  exact Nat.mul_lt_mul_of_pos_left (UInt64.lt_iff_toNat_lt.1 hw) hm

/-- The more there is, the more is left of it. -/
theorem sub_scale_mono (hw : w ≤ wad) (h : n ≤ m) :
    n.toNat - (scale n w).toNat ≤ m.toNat - (scale m w).toNat := by
  obtain ⟨k, hk⟩ := Nat.exists_eq_add_of_le (UInt64.le_iff_toNat_le.1 h)
  have hpart : (n.toNat + k) * w.toNat / wad.toNat ≤ n.toNat * w.toNat / wad.toNat + k := by
    rw [← Nat.add_mul_div_right _ _ (by decide : 0 < wad.toNat), Nat.add_mul]
    exact Nat.div_le_div_right
      (Nat.add_le_add_left (Nat.mul_le_mul_left k (UInt64.le_iff_toNat_le.1 hw)) _)
  rw [toNat_scale_of_le hw, toNat_scale_of_le hw, hk]
  omega

end Magnitude

namespace Allocation

variable {a : Allocation} {block block' : BlockNumber}

theorem asOf_of_idle (h : a.pending = 0) : a.asOf block = a := by
  unfold asOf
  rw [if_neg (by simp [isMatured, isPending, h])]

theorem asOf_of_lt (h : block < a.effectBlock) : a.asOf block = a := by
  unfold asOf
  rw [if_neg]
  simp only [isMatured, Bool.and_eq_true, decide_eq_true_eq, not_and, UInt32.not_le]
  exact fun _ => h

theorem pending_asOf (h : a.effectBlock ≤ block) : (a.asOf block).pending = 0 := by
  by_cases hidle : a.pending = 0
  · rw [asOf_of_idle hidle, hidle]
  · have hdue : a.isMatured block := by
      simp [isMatured, isPending, hidle, h]
    unfold asOf
    rw [if_pos hdue]

/-- To look at a block and later at another is to look at the later one. -/
theorem asOf_asOf (h : block ≤ block') : (a.asOf block).asOf block' = a.asOf block' := by
  by_cases hdue : a.isMatured block
  · have hdue' : a.isMatured block' := by
      simp only [isMatured, Bool.and_eq_true, decide_eq_true_eq] at hdue ⊢
      exact ⟨hdue.1, UInt32.le_trans hdue.2 h⟩
    unfold asOf
    rw [if_pos hdue, if_pos hdue', if_neg (by simp [isMatured, isPending])]
  · rw [show a.asOf block = a from if_neg hdue]

end Allocation

/-- What an allocation holds of the capacity of its account: what is in force and what will be. -/
def Allocation.held (a : Allocation) : Nat := a.current.toNat + a.pending.toNat

/-- The change that waits leads to a magnitude. -/
structure Allocation.Sound (a : Allocation) : Prop where
  covered : 0 ≤ a.current.toNat + a.pending
  bounded : a.held < 2 ^ 64

namespace Allocation.Sound

variable {a : Allocation} (h : a.Sound)
include h

theorem toNat_target : (a.target.toNat : Int) = a.current.toNat + a.pending := by
  have hcovered := h.covered
  have hbounded := h.bounded
  unfold held at hbounded
  have htarget : Magnitude.shift? a.current a.pending =
      some (.ofNat (a.current.toNat + a.pending).toNat) := by
    unfold Magnitude.shift?
    rw [if_pos (by simp only [UInt64.size]; omega)]
  unfold target
  rw [htarget, Option.getD_some, UInt64.toNat_ofNat']
  omega

theorem held_asOf (block : BlockNumber) :
    ((a.asOf block).held : Int) = a.held + min ((a.due? block).getD 0) 0 := by
  have htarget := h.toNat_target
  unfold asOf due?
  split
  · simp only [held, Option.getD_some]
    omega
  · simp [held]

theorem asOf (block : BlockNumber) : (a.asOf block).Sound := by
  have hheld := h.held_asOf block
  have hbounded := h.bounded
  refine ⟨?_, by omega⟩
  unfold Allocation.asOf
  split
  · simp
  · exact h.covered

end Allocation.Sound

theorem OperatorSet.toFin_injective : Function.Injective fun s : OperatorSet =>
    (s.avs.word.toFin, s.id.toFin) := by
  intro s s' h
  rcases s with ⟨⟨w⟩, i⟩
  rcases s' with ⟨⟨w'⟩, i'⟩
  obtain ⟨hw, hi⟩ := Prod.ext_iff.1 h
  obtain rfl : w = w' := BitVec.eq_of_toFin_eq hw
  obtain rfl : i = i' := UInt32.toFin_inj.1 hi
  rfl

noncomputable instance : Fintype OperatorSet :=
  Fintype.ofInjective _ OperatorSet.toFin_injective

namespace Books

/-- What the positions of an account hold in all sets together. -/
noncomputable def totalHeld (b : Books) (a : Account) : Nat :=
  ∑ s : OperatorSet, (b.allocation (a.position s)).held

/-- What is held is what is encumbered, and it fits. -/
structure Balanced (b : Books) : Prop where
  conserved : ∀ a, (b.encumberedMagnitude a).toNat = b.totalHeld a
  fits : ∀ a, b.encumberedMagnitude a ≤ b.maxMagnitude a
  ceiling : ∀ a, b.maxMagnitude a ≤ wad
  covered : ∀ p, 0 ≤ (b.allocation p).current.toNat + (b.allocation p).pending

theorem position_eq_iff {a : Account} {s : OperatorSet} {p : Position} :
    a.position s = p ↔ a = p.account ∧ s = p.set := by
  constructor
  · intro heq
    subst heq
    exact ⟨rfl, rfl⟩
  · intro hparts
    rcases hparts with ⟨rfl, rfl⟩
    rfl

variable {b b' : Books} {config : Config} {block : BlockNumber}

/-- A write moves a sum over the sets of an account as it moves the part of the position. -/
theorem sum_allocation_store (f : Allocation → Nat) (b : Books) (p : Position) (c : Capacity)
    (al : Allocation) :
    ∑ s, f ((b.store p c al).allocation (p.account.position s)) + f (b.allocation p) =
      ∑ s, f (b.allocation (p.account.position s)) + f al := by
  have hwrite : (fun s => f ((b.store p c al).allocation (p.account.position s))) =
      Function.update (fun s => f (b.allocation (p.account.position s))) p.set (f al) := by
    funext s
    rw [allocation_store, Function.update_apply]
    by_cases hs : s = p.set
    · subst s
      rw [if_pos (position_eq_iff.2 ⟨rfl, rfl⟩).symm, if_pos rfl]
    · rw [if_neg fun h => hs (position_eq_iff.1 h.symm).2, if_neg hs]
  have hold : f (b.allocation (p.account.position p.set)) = f (b.allocation p) := rfl
  rw [hwrite, Finset.sum_update_of_mem (Finset.mem_univ _), Finset.sdiff_singleton_eq_erase,
    ← Finset.add_sum_erase Finset.univ _ (Finset.mem_univ p.set), hold]
  omega

/-- A write moves what the sets hold together as it moves what the position holds. -/
theorem totalHeld_store (b : Books) (p : Position) (c : Capacity) (al : Allocation) :
    (b.store p c al).totalHeld p.account + (b.allocation p).held =
      b.totalHeld p.account + al.held := sum_allocation_store Allocation.held b p c al

theorem totalHeld_store_of_ne {p : Position} {a : Account} (h : p.account ≠ a) (c : Capacity)
    (al : Allocation) : (b.store p c al).totalHeld a = b.totalHeld a := by
  apply Finset.sum_congr rfl
  intro s _
  rw [allocation_store, if_neg fun hp => h (position_eq_iff.1 hp.symm).1.symm]

theorem held_le_totalHeld (b : Books) (p : Position) :
    (b.allocation p).held ≤ b.totalHeld p.account :=
  Finset.single_le_sum (f := fun s => (b.allocation (p.account.position s)).held)
    (fun _ _ => Nat.zero_le _) (Finset.mem_univ p.set)

theorem balanced_empty : ({} : Books).Balanced where
  conserved a := by
    have hheld : ∀ s, (({} : Books).allocation (a.position s)).held = 0 := fun s => by
      rw [allocation, UndoMap.find?_empty]
      rfl
    rw [totalHeld, Finset.sum_eq_zero fun s _ => hheld s, encumberedMagnitude, UndoMap.find?_empty]
    rfl
  fits a := by
    rw [encumberedMagnitude, UndoMap.find?_empty]
    exact UInt64.zero_le
  ceiling a := by
    rw [maxMagnitude, history, UndoMap.find?_empty]
    exact UInt64.le_refl wad
  covered p := by
    rw [allocation, UndoMap.find?_empty]
    decide

theorem Balanced.of_reads (h : b.Balanced) (hallocation : b'.allocation = b.allocation)
    (hencumbered : b'.encumberedMagnitude = b.encumberedMagnitude)
    (hmax : b'.maxMagnitude = b.maxMagnitude) : b'.Balanced := by
  constructor
  · intro a
    have hconserved := h.conserved a
    rwa [totalHeld, hallocation, hencumbered]
  · intro a
    have hfits := h.fits a
    rwa [hencumbered, hmax]
  · intro a
    have hceiling := h.ceiling a
    rwa [hmax]
  · intro p
    have hcovered := h.covered p
    rwa [hallocation]

namespace Balanced

variable (h : b.Balanced)
include h

theorem sound (p : Position) : (b.allocation p).Sound := by
  have hheld := b.held_le_totalHeld p
  have hconserved := h.conserved p.account
  have hlt := (b.encumberedMagnitude p.account).toNat_lt
  exact ⟨h.covered p, by omega⟩

theorem held_le (p : Position) :
    (b.allocation p).held ≤ (b.encumberedMagnitude p.account).toNat := by
  rw [h.conserved]
  exact b.held_le_totalHeld p

/-- What is read as of a block is in balance as the books are. -/
theorem of_settled {p : Position} {c : Capacity} {al : Allocation}
    (hsettled : b.settled p block = .ok (c, al)) :
    al.Sound ∧ c.encumbered ≤ b.encumberedMagnitude p.account ∧ c.max = b.maxMagnitude p.account ∧
      c.encumbered.toNat + (b.allocation p).held =
        (b.encumberedMagnitude p.account).toNat + al.held := by
  obtain ⟨rfl, hmax, hencumbered⟩ := b.settled_eq_ok.1 hsettled
  have hheld := (h.sound p).held_asOf block
  refine ⟨(h.sound p).asOf block, ?_, hmax, by omega⟩
  rw [UInt64.le_iff_toNat_le]
  omega

/-- In balance, an account can be read as of any block. -/
theorem settled_ok (p : Position) (block : BlockNumber) :
    ∃ c, b.settled p block = .ok (c, (b.allocation p).asOf block) := by
  have hheld := (h.sound p).held_asOf block
  have hle := h.held_le p
  have hlt := (b.encumberedMagnitude p.account).toNat_lt
  refine ⟨⟨b.maxMagnitude p.account, .ofNat ((b.encumberedMagnitude p.account).toNat +
    min (((b.allocation p).due? block).getD 0) 0).toNat⟩, b.settled_eq_ok.2 ⟨rfl, rfl, ?_⟩⟩
  rw [UInt64.toNat_ofNat']
  omega

/-- A write keeps the balance if it moves what is encumbered as it moves what is held. -/
theorem store {p : Position} {c : Capacity} {al : Allocation}
    (hheld : c.encumbered.toNat + (b.allocation p).held =
      (b.encumberedMagnitude p.account).toNat + al.held)
    (hfits : c.encumbered ≤ b.maxMagnitude p.account)
    (hcovered : 0 ≤ al.current.toNat + al.pending) : (b.store p c al).Balanced where
  conserved a := by
    rw [encumberedMagnitude_store]
    split
    next ha =>
      subst a
      have htotal := b.totalHeld_store p c al
      have hconserved := h.conserved p.account
      omega
    next ha => rw [totalHeld_store_of_ne ha, h.conserved]
  fits a := by
    rw [encumberedMagnitude_store, (store_frame b p c al).1]
    split
    next ha => exact ha ▸ hfits
    next ha => exact h.fits a
  ceiling a := by
    rw [(store_frame b p c al).1]
    exact h.ceiling a
  covered q := by
    rw [allocation_store]
    split
    · exact hcovered
    · exact h.covered q

theorem reduceMax {a : Account} {m : Magnitude} (hfits :
    (b.encumberedMagnitude a).toNat + m.toNat ≤ (b.maxMagnitude a).toNat) :
    (b.reduceMax a m block).Balanced where
  conserved := h.conserved
  fits x := by
    have hx := h.fits x
    rw [maxMagnitude_reduceMax]
    split
    next hax =>
      subst x
      rw [UInt64.le_iff_toNat_le, Magnitude.toNat_monus]
      show (b.encumberedMagnitude a).toNat ≤ _
      omega
    next hax => exact hx
  ceiling x := by
    have hx := h.ceiling x
    rw [maxMagnitude_reduceMax]
    split
    next hax =>
      subst x
      rw [UInt64.le_iff_toNat_le] at hx ⊢
      rw [Magnitude.toNat_monus]
      omega
    next hax => exact hx
  covered := h.covered

end Balanced

theorem settled_enqueue (b : Books) (a : Account) (s : OperatorSet) :
    (b.enqueue a s).settled = b.settled := rfl

theorem toNat_free {c : Capacity} : c.free.toNat = c.max.toNat - c.encumbered.toNat :=
  Magnitude.toNat_monus _ _

theorem pending_eq_zero {al : Allocation} (h : ¬al.isPending) : al.pending = 0 := by
  simpa [Allocation.isPending] using h

/-- After a cut a deallocation gives up less by the same part, anything else what it did before. -/
theorem cutPending_ok {al : Allocation} {w : UInt64} {pending : Int}
    (h : cutPending al w = .ok pending) :
    (0 ≤ al.pending ∧ pending = al.pending) ∨ (al.pending < 0 ∧ ∃ q : Magnitude,
      (q.toNat : Int) = -al.pending ∧ pending = (Magnitude.scale q w).toNat - q.toNat) := by
  unfold cutPending at h
  split at h
  next hdown =>
    cases hshift : Magnitude.shift? 0 (-al.pending) with
    | none =>
      rw [hshift] at h
      cases h
    | some q =>
      rw [hshift] at h
      cases h
      have hq := Magnitude.shift?_eq_some_iff.1 hshift
      simp only [UInt64.toNat_zero] at hq
      have hdown : al.pending < 0 := by simpa [Allocation.isDeallocating] using hdown
      exact .inr ⟨hdown, q, by omega, by omega⟩
  next hdown =>
    cases h
    exact .inl ⟨by simpa [Allocation.isDeallocating] using hdown, rfl⟩

theorem cutPending_succeeds {al : Allocation} (h : al.Sound) (left : Magnitude) (w : UInt64) :
    ∃ pending, cutPending { al with current := left } w = .ok pending := by
  have hcovered := h.covered
  have hlt := al.current.toNat_lt
  unfold cutPending
  by_cases hdown : al.pending < 0
  · have hshift : Magnitude.shift? 0 (-al.pending) = some (.ofNat (-al.pending).toNat) := by
      rw [Magnitude.shift?_eq_some_iff, UInt64.toNat_ofNat', UInt64.toNat_zero]
      omega
    rw [if_pos (by simpa [Allocation.isDeallocating] using hdown)]
    dsimp only
    rw [hshift]
    exact ⟨_, rfl⟩
  · rw [if_neg (by simpa [Allocation.isDeallocating] using hdown)]
    exact ⟨_, rfl⟩

theorem Balanced.store_allocation (h : b.Balanced) {p : Position} {m : Magnitude} {c : Capacity}
    {al : Allocation} {effectBlock : BlockNumber} (hsettled : b.settled p block = .ok (c, al))
    (hidle : al.pending = 0) (hup : al.current < m) (hfree : m - al.current ≤ c.free) :
    (b.store p { c with encumbered := c.encumbered + (m - al.current) }
      { al with pending := Magnitude.changeTo al.current m, effectBlock }).Balanced := by
  obtain ⟨-, hle, hmax, hheld⟩ := h.of_settled hsettled
  have hfits := h.fits p.account
  have hchange := UInt64.toNat_sub_of_le m al.current (UInt64.le_of_lt hup)
  have hlt := (b.maxMagnitude p.account).toNat_lt
  rw [UInt64.le_iff_toNat_le, toNat_free, hmax] at hfree
  rw [UInt64.le_iff_toNat_le] at hle hfits
  rw [UInt64.lt_iff_toNat_lt] at hup
  have hsum : (c.encumbered + (m - al.current)).toNat =
      c.encumbered.toNat + (m - al.current).toNat := by
    rw [UInt64.toNat_add]
    omega
  apply h.store
  · simp only [Allocation.held, Magnitude.changeTo] at hheld ⊢
    omega
  · rw [UInt64.le_iff_toNat_le]
    dsimp only
    omega
  · simp only [Magnitude.changeTo]
    omega

theorem Balanced.store_deallocation (h : b.Balanced) {p : Position} {m : Magnitude} {c : Capacity}
    {al : Allocation} {effectBlock : BlockNumber} (hsettled : b.settled p block = .ok (c, al))
    (hidle : al.pending = 0) (hdown : m < al.current) :
    (b.store p c { al with pending := Magnitude.changeTo al.current m, effectBlock }).Balanced := by
  obtain ⟨-, hle, -, hheld⟩ := h.of_settled hsettled
  rw [UInt64.lt_iff_toNat_lt] at hdown
  refine h.store ?_ (UInt64.le_trans hle (h.fits p.account)) ?_
  · simp only [Allocation.held, Magnitude.changeTo] at hheld ⊢
    omega
  · simp only [Magnitude.changeTo]
    omega

theorem Balanced.store_release (h : b.Balanced) {p : Position} {m : Magnitude} {c : Capacity}
    {al : Allocation} {encumbered : Magnitude} (hsettled : b.settled p block = .ok (c, al))
    (hidle : al.pending = 0) (hdown : m < al.current)
    (hshift : Magnitude.shift? c.encumbered (Magnitude.changeTo al.current m) = some encumbered) :
    (b.store p { c with encumbered } { al with current := m, effectBlock := block }).Balanced := by
  obtain ⟨-, hle, -, hheld⟩ := h.of_settled hsettled
  have hfits := h.fits p.account
  have hshift := Magnitude.shift?_eq_some_iff.1 hshift
  rw [UInt64.le_iff_toNat_le] at hle hfits
  rw [UInt64.lt_iff_toNat_lt] at hdown
  simp only [Magnitude.changeTo] at hshift
  apply h.store
  · simp only [Allocation.held] at hheld ⊢
    omega
  · rw [UInt64.le_iff_toNat_le]
    dsimp only
    omega
  · dsimp only
    omega

theorem Balanced.cut (h : b.Balanced) {p : Position} {w : UInt64} {c : Capacity} {al : Allocation}
    {encumbered : Magnitude} {pending : Int} (hw : w ≤ wad)
    (hsettled : b.settled p block = .ok (c, al))
    (hshift : Magnitude.shift? c.encumbered (-(Magnitude.scale al.current w).toNat) =
      some encumbered)
    (hpending : cutPending { al with current := al.current - Magnitude.scale al.current w } w =
      .ok pending) :
    ((b.store p { c with encumbered }
      { al with current := al.current - Magnitude.scale al.current w, pending }).reduceMax p.account
        (Magnitude.scale al.current w) block).Balanced := by
  obtain ⟨hsound, hle, -, hheld⟩ := h.of_settled hsettled
  have hfits := h.fits p.account
  have hpart := Magnitude.scale_le (m := al.current) hw
  have hleft := UInt64.toNat_sub_of_le _ _ hpart
  have hshift := Magnitude.shift?_eq_some_iff.1 hshift
  have hcovered := hsound.covered
  rw [UInt64.le_iff_toNat_le] at hle hfits hpart
  have hnext : 0 ≤ ((al.current - Magnitude.scale al.current w).toNat : Int) + pending ∧
      pending.toNat = al.pending.toNat := by
    rcases cutPending_ok hpending with ⟨hup, rfl⟩ | ⟨-, q, hq, rfl⟩
    · dsimp only at hup ⊢
      omega
    · have hqpart := UInt64.le_iff_toNat_le.1 (Magnitude.scale_le (m := q) hw)
      dsimp only at hq
      have hmono := Magnitude.sub_scale_mono (m := al.current) (n := q) hw
        (UInt64.le_iff_toNat_le.2 (by omega))
      omega
  refine Balanced.reduceMax (h.store ?_ ?_ hnext.1) ?_
  · simp only [Allocation.held] at hheld ⊢
    omega
  · rw [UInt64.le_iff_toNat_le]
    dsimp only
    omega
  · rw [encumberedMagnitude_store, if_pos rfl, (store_frame b _ _ _).1]
    dsimp only
    omega

theorem Balanced.enqueue (h : b.Balanced) (a : Account) (s : OperatorSet) :
    (b.enqueue a s).Balanced := h.of_reads rfl rfl rfl

theorem Balanced.dequeue (h : b.Balanced) (a : Account) : (b.dequeue a).Balanced :=
  h.of_reads rfl rfl rfl

/-- Every posting keeps the balance. -/
theorem Balanced.posts {e : Entry} (h : b.Balanced) (hpost : Posts config block e b b') :
    b'.Balanced := by
  cases hpost with
  | delay => exact h.of_reads rfl rfl rfl
  | create => exact h.of_reads rfl rfl rfl
  | addStrategy => exact h.of_reads rfl rfl rfl
  | removeStrategy => exact h.of_reads rfl rfl rfl
  | join => exact h.of_reads rfl rfl rfl
  | depart => exact h.of_reads rfl rfl rfl
  | countSlash => exact h.of_reads rfl rfl rfl
  | logSlash => exact h.of_reads rfl rfl rfl
  | clear _ _ hsettled =>
    obtain ⟨hsound, hle, -, hheld⟩ := h.of_settled hsettled
    exact (h.store hheld (UInt64.le_trans hle (h.fits _)) hsound.covered).dequeue _
  | mature _ _ hsettled =>
    obtain ⟨hsound, hle, -, hheld⟩ := h.of_settled hsettled
    exact h.store hheld (UInt64.le_trans hle (h.fits _)) hsound.covered
  | allocate _ hsettled hidle _ hup hfree _ =>
    exact h.store_allocation hsettled (pending_eq_zero hidle) hup hfree
  | @deallocate b p m c al _ _ hsettled hidle hdown _ _ _ =>
    rw [← settled_enqueue b p.account p.set] at hsettled
    exact (h.enqueue p.account p.set).store_deallocation hsettled (pending_eq_zero hidle) hdown
  | release _ hsettled hidle hdown _ hshift =>
    exact h.store_release hsettled (pending_eq_zero hidle) hdown hshift
  | cut hwad _ _ hsettled _ hshift hpending =>
    exact h.cut (UInt64.le_of_lt hwad.2) hsettled hshift hpending

theorem lasts_balanced : Lasts fun _ b => b.Balanced where
  reads hreads h := h.of_reads hreads.allocation hreads.encumberedMagnitude hreads.maxMagnitude
  later _ h := h

/-- Only cuts lower a max. -/
theorem maxMagnitude_posts_eq {e : Entry} (hpost : Posts config block e b b')
    (hcut : ∀ p w, e ≠ .cut p w) (a : Account) : b'.maxMagnitude a = b.maxMagnitude a := by
  cases hpost with
  | mature => exact congrFun (store_frame _ _ _ _).1 a
  | allocate => exact congrFun (store_frame _ _ _ _).1 a
  | deallocate => rw [(store_frame _ _ _ _).1, maxMagnitude_enqueue]
  | release => exact congrFun (store_frame _ _ _ _).1 a
  | clear => rw [maxMagnitude_dequeue, (store_frame _ _ _ _).1]
  | cut => exact absurd rfl (hcut _ _)
  | _ => rfl

theorem maxMagnitude_posts_le {e : Entry} (hpost : Posts config block e b b') (a : Account) :
    b'.maxMagnitude a ≤ b.maxMagnitude a := by
  by_cases hcut : ∃ p w, e = .cut p w
  · obtain ⟨p, w, rfl⟩ := hcut
    cases hpost
    rw [maxMagnitude_reduceMax, (store_frame _ _ _ _).1]
    split
    next ha =>
      subst a
      rw [UInt64.le_iff_toNat_le, Magnitude.toNat_monus]
      omega
    next ha => exact UInt64.le_refl _
  · exact UInt64.le_of_eq (maxMagnitude_posts_eq hpost (fun p w he => hcut ⟨p, w, he⟩) a)

end Books

namespace Manager

open Books

variable {δ ρ π : Type} [DelegationLedger δ] [SetRegistrar ρ] [PermissionController π]
variable {m : Manager δ ρ π}

theorem Reachable.balanced (h : m.Reachable) : m.books.Balanced :=
  h.keeps (fun _ _ => balanced_empty) (fun _ => lasts_balanced.persists) fun hpost hb => hb.posts hpost

/-- Only slashes lower a max. -/
theorem maxMagnitude_after (hidle : m.books.Idle) {move : Move δ ρ π}
    (hslash : ∀ caller avs r, move ≠ .call caller (.slashOperator avs r)) (a : Account) :
    (m.after move).books.maxMagnitude a = m.books.maxMagnitude a := by
  have hlasts : Lasts fun _ b => b.maxMagnitude a = m.books.maxMagnitude a :=
    { reads := fun hreads h => by rwa [hreads.maxMagnitude], later := fun _ h => h }
  have hposts : ∀ {block e b b'}, (∀ p w, e ≠ Entry.cut p w) → Posts m.config block e b b' →
      b.maxMagnitude a = m.books.maxMagnitude a → b'.maxMagnitude a = m.books.maxMagnitude a :=
    fun he hpost h => (maxMagnitude_posts_eq hpost he a).trans h
  refine after_keeps hidle hlasts.persists hposts ?_ rfl
  rintro caller c rfl - e he p w rfl
  cases c with
  | slashOperator avs r => exact hslash caller avs r rfl
  | _ => exact he.elim

theorem Reachable.maxMagnitude_after_le (h : m.Reachable) (move : Move δ ρ π) (a : Account) :
    (m.after move).books.maxMagnitude a ≤ m.books.maxMagnitude a := by
  have hlasts : Lasts fun _ b => b.maxMagnitude a ≤ m.books.maxMagnitude a :=
    { reads := fun hreads h => by rwa [hreads.maxMagnitude], later := fun _ h => h }
  exact after_keeps h.idle hlasts.persists
    (fun (_ : True) hpost hle => UInt64.le_trans (maxMagnitude_posts_le hpost a) hle)
    (fun _ _ _ _ _ _ => trivial) (UInt64.le_refl _)

/-- In every reachable state what is encumbered is what the positions hold together, it is never
more than the max, nor the max more than `wad`, and no move raises the max. -/
theorem Reachable.capacity_conserved (h : m.Reachable) (a : Account) :
    (m.books.encumberedMagnitude a).toNat =
        ∑ s : OperatorSet, ((m.books.allocation (a.position s)).current.toNat +
          (m.books.allocation (a.position s)).pending.toNat) ∧
      m.books.encumberedMagnitude a ≤ m.books.maxMagnitude a ∧ m.books.maxMagnitude a ≤ wad ∧
      ∀ move : Move δ ρ π, (m.after move).books.maxMagnitude a ≤ m.books.maxMagnitude a :=
  ⟨h.balanced.conserved a, h.balanced.fits a, h.balanced.ceiling a,
    fun move => h.maxMagnitude_after_le move a⟩

theorem capacity_conserved_sample :
    600 = ∑ s : OperatorSet,
        (((Sample.start.run Sample.moves).books.allocation
            (Sample.position.account.position s)).current.toNat +
          ((Sample.start.run Sample.moves).books.allocation
            (Sample.position.account.position s)).pending.toNat) := by
  have hencumbered : (Sample.start.run Sample.moves).books.encumberedMagnitude
      Sample.position.account = 600 := by decide +kernel
  have hconserved := (Sample.reachable.capacity_conserved Sample.position.account).1
  rw [hencumbered] at hconserved
  exact hconserved

end Manager

end Restake
