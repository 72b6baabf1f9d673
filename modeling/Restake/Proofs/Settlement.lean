import Restake.Proofs.Order

/-!
Settlement writes down what is due. On books that are well kept it always goes through, and it
changes nothing that is read as of the block: neither an allocation nor, once the deallocations of
an account that are due have been completed, what is encumbered there.
-/
namespace Restake

open Steps

namespace Books

variable {b b' : Books} {config : Config} {block : BlockNumber} {a : Account}

/-- The two read alike as of the block. They may differ in what of it has been written down. -/
structure Alike (block : BlockNumber) (b b' : Books) : Prop where
  terms : SameTerms b b'
  slashCount : b'.slashCount = b.slashCount
  maxMagnitude : b'.maxMagnitude = b.maxMagnitude
  allocation : ∀ p, (b'.allocation p).asOf block = (b.allocation p).asOf block

namespace Alike

theorem refl (block : BlockNumber) (b : Books) : Alike block b b :=
  ⟨.refl b, rfl, rfl, fun _ => rfl⟩

theorem symm (h : Alike block b b') : Alike block b' b where
  terms := ⟨h.terms.1.symm, h.terms.2.symm, h.terms.3.symm, h.terms.4.symm⟩
  slashCount := h.slashCount.symm
  maxMagnitude := h.maxMagnitude.symm
  allocation p := (h.allocation p).symm

theorem trans {b'' : Books} (h : Alike block b b') (h' : Alike block b' b'') :
    Alike block b b'' where
  terms := h.terms.trans h'.terms
  slashCount := h'.slashCount.trans h.slashCount
  maxMagnitude := h'.maxMagnitude.trans h.maxMagnitude
  allocation p := (h'.allocation p).trans (h.allocation p)

theorem later (h : Alike block b b') {block' : BlockNumber} (hblock : block ≤ block') :
    Alike block' b b' := by
  refine { h with allocation := fun p => ?_ }
  rw [← Allocation.asOf_asOf hblock, h.allocation, Allocation.asOf_asOf hblock]

theorem settledAt (b : Books) (p : Position) (c : Capacity) :
    Alike block b (b.store p c ((b.allocation p).asOf block)) := by
  refine ⟨sameTerms_store b p c _, slashCount_store b p c _, (store_frame b p c _).1, fun q => ?_⟩
  rw [allocation_store]
  by_cases hq : p = q
  · subst q
    rw [if_pos rfl, Allocation.asOf_asOf (UInt32.le_refl block)]
  · rw [if_neg hq]

theorem dequeued (b : Books) (a : Account) : Alike block b (b.dequeue a) :=
  ⟨⟨rfl, rfl, rfl, rfl⟩, rfl, rfl, fun _ => rfl⟩

end Alike

/-- What settlement at a block leads to. -/
structure Settlement (config : Config) (block : BlockNumber) (b b' : Books) : Prop where
  wellKept : WellKept config block b'
  alike : Alike block b b'

theorem Settlement.trans {b'' : Books} (h : Settlement config block b b')
    (h' : Settlement config block b' b'') : Settlement config block b b'' :=
  ⟨h'.wellKept, h.alike.trans h'.alike⟩

namespace WellKept

variable (h : WellKept config block b)
include h

theorem settlement_refl : Settlement config block b b := ⟨h, .refl block b⟩

theorem settle_succeeds (p : Position) :
    ∃ b', settle p block b = .ok () b' ∧ Settlement config block b b' := by
  obtain ⟨c, hsettled⟩ := h.balanced.settled_ok p block
  obtain ⟨hsound, hle, -, hheld⟩ := h.balanced.of_settled hsettled
  refine ⟨_, settle_eq_ok.2 ⟨c, _, hsettled, rfl⟩, ⟨?_, fun a => ?_⟩, .settledAt b p c⟩
  · exact h.balanced.store hheld (UInt64.le_trans hle (h.balanced.fits _)) hsound.covered
  · exact (h.orderly a).store_settled hsettled c

theorem clearFront_succeeds {sets rest : List OperatorSet} (hqueue : b.queued a = sets ++ rest) :
    ∃ k b', clearFront a block sets b = .ok k b' ∧ Settlement config block b b' := by
  induction sets generalizing b with
  | nil => exact ⟨0, b, rfl, h.settlement_refl⟩
  | cons s sets ih =>
    by_cases hdue : block < (b.allocation (a.position s)).effectBlock
    · refine ⟨0, b, ?_, h.settlement_refl⟩
      rw [clearFront, get_bind_apply, if_apply, if_pos hdue]
      rfl
    · obtain ⟨c, hsettled⟩ := h.balanced.settled_ok (a.position s) block
      have hclear : Settlement config block b
          ((b.store (a.position s) c ((b.allocation (a.position s)).asOf block)).dequeue a) := by
        refine ⟨h.posts (.clear hqueue (UInt32.not_lt.1 hdue) hsettled), ?_⟩
        exact (Alike.settledAt b (a.position s) c).trans (.dequeued _ a)
      have hrest : ((b.store (a.position s) c ((b.allocation (a.position s)).asOf block)).dequeue
          a).queued a = sets ++ rest := by
        rw [queued_dequeue, if_pos rfl, queued_store, hqueue]
        rfl
      obtain ⟨k, b', hclearFront, hsettlement⟩ := ih hclear.wellKept hrest
      refine ⟨k + 1, b', ?_, hclear.trans hsettlement⟩
      rw [clearFront, get_bind_apply, if_apply, if_neg hdue]
      exact bind_eq_ok.2 ⟨(), _, settle_eq_ok.2 ⟨c, _, hsettled, rfl⟩,
        bind_eq_ok.2 ⟨⟨⟩, _, rfl, bind_eq_ok.2 ⟨k, b', hclearFront, rfl⟩⟩⟩

theorem clearMatured_succeeds (a : Account) (limit : Nat) :
    ∃ k b', clearMatured a limit block b = .ok k b' ∧ Settlement config block b b' := by
  rw [clearMatured, get_bind_apply]
  exact h.clearFront_succeeds (List.take_append_drop limit _).symm

theorem clearings_succeed {α : Type} (account : α → Account) (limit : α → Nat) (l : List α) :
    ∃ ks b', (l.mapM fun x => clearMatured (account x) (limit x) block) b = .ok ks b' ∧
      Settlement config block b b' := by
  induction l generalizing b with
  | nil => exact ⟨[], b, rfl, h.settlement_refl⟩
  | cons x l ih =>
    obtain ⟨k, b₁, hclear, hsettlement⟩ := h.clearMatured_succeeds (account x) (limit x)
    obtain ⟨ks, b', hrest, hsettlement'⟩ := ih hsettlement.wellKept
    refine ⟨k :: ks, b', ?_, hsettlement.trans hsettlement'⟩
    rw [List.mapM_cons]
    exact bind_eq_ok.2 ⟨k, b₁, hclear, bind_eq_ok.2 ⟨ks, b', hrest, rfl⟩⟩

theorem settles_succeed {α : Type} (position : α → Position) (l : List α) :
    ∃ b', (l.forM fun x => settle (position x) block) b = .ok () b' ∧
      Settlement config block b b' := by
  induction l generalizing b with
  | nil => exact ⟨b, rfl, h.settlement_refl⟩
  | cons x l ih =>
    obtain ⟨b₁, hsettle, hsettlement⟩ := h.settle_succeeds (position x)
    obtain ⟨b', hrest, hsettlement'⟩ := ih hsettlement.wellKept
    exact ⟨b', bind_eq_ok.2 ⟨(), b₁, hsettle, hrest⟩, hsettlement.trans hsettlement'⟩

theorem settleAccount_succeeds (a : Account) :
    ∃ b', settleAccount a block b = .ok () b' ∧ Settlement config block b b' ∧
      b'.Cleared a block := by
  obtain ⟨k, b₁, hfront, hsettlement⟩ := h.clearFront_succeeds (List.append_nil (b.queued a)).symm
  obtain ⟨b', hincreases, hsettlement'⟩ := hsettlement.wellKept.settles_succeed
    (fun s : OperatorSet × Allocation => a.position s.1)
    ((b₁.accountAllocations a).filter fun s => s.2.isMatured block && !s.2.isDeallocating)
  have hok : settleAccount a block b = .ok () b' := by
    rw [settleAccount, get_bind_apply]
    exact bind_eq_ok.2 ⟨k, b₁, hfront, hincreases⟩
  have hpost : Postings config block (fun _ => True) b b' ∧ SameTerms b b' ∧ b'.Cleared a block :=
    settleAccount_ok (fun _ => trivial) (fun _ => trivial) hok
  exact ⟨b', hok, hsettlement.trans hsettlement', hpost.2.2⟩

/-- Once the front of a queue is not due no deallocation of the account is. -/
theorem min_due_of_cleared (hcleared : b.Cleared a block) (s : OperatorSet) :
    min (((b.allocation (a.position s)).due? block).getD 0) 0 = 0 := by
  unfold Allocation.due?
  by_cases hdue : (b.allocation (a.position s)).isMatured block
  · rw [if_pos hdue, Option.getD_some]
    have hup : 0 ≤ (b.allocation (a.position s)).pending := by
      by_contra hdown
      have hlt := (h.orderly a).lt_effectBlock hcleared ((h.orderly a).waiting s (by omega))
      simp only [Allocation.isMatured, Bool.and_eq_true, decide_eq_true_eq] at hdue
      exact absurd hdue.2 (UInt32.not_le.2 hlt)
    omega
  · rw [if_neg hdue]
    rfl

/-- What is encumbered is what is held as of the block, once the front of the queue is not due. -/
theorem encumbered_of_cleared (hcleared : b.Cleared a block) :
    (b.encumberedMagnitude a).toNat =
      ∑ s : OperatorSet, ((b.allocation (a.position s)).asOf block).held := by
  rw [h.balanced.conserved, totalHeld]
  apply Finset.sum_congr rfl
  intro s _
  have hheld := (h.balanced.sound (a.position s)).held_asOf block
  rw [h.min_due_of_cleared hcleared] at hheld
  omega

theorem settled_of_cleared {p : Position} (hcleared : b.Cleared p.account block) :
    b.settled p block = .ok (b.capacity p.account, (b.allocation p).asOf block) := by
  refine b.settled_eq_ok.2 ⟨rfl, rfl, ?_⟩
  have hmin : min (((b.allocation p).due? block).getD 0) 0 = 0 :=
    h.min_due_of_cleared hcleared p.set
  rw [hmin]
  exact (Int.add_zero _).symm

end WellKept

/-- What is encumbered once a change that is due is written down. -/
theorem encumbered_settled {p : Position} {c : Capacity} {al : Allocation}
    (hsettled : b.settled p block = .ok (c, al)) (hdue : ¬block < (b.allocation p).effectBlock) :
    (if (b.allocation p).isDeallocating then
      Magnitude.shift? (b.encumberedMagnitude p.account) (b.allocation p).pending
      else some (b.encumberedMagnitude p.account)) = some c.encumbered := by
  obtain ⟨-, -, hencumbered⟩ := b.settled_eq_ok.1 hsettled
  have heffect := UInt32.not_lt.1 hdue
  by_cases hdown : (b.allocation p).pending < 0
  · have hmatured : (b.allocation p).isMatured block := by
      have hne : (b.allocation p).pending ≠ 0 := by omega
      simp [Allocation.isMatured, Allocation.isPending, hne, heffect]
    rw [Allocation.due?, if_pos hmatured, Option.getD_some,
      Int.min_eq_left (by omega)] at hencumbered
    rw [if_pos (by simpa [Allocation.isDeallocating] using hdown),
      Magnitude.shift?_eq_some_iff.2 hencumbered]
  · rw [if_neg (by simpa [Allocation.isDeallocating] using hdown), Option.some_inj,
      ← UInt64.toNat_inj]
    have hmin : min (((b.allocation p).due? block).getD 0) 0 = 0 := by
      unfold Allocation.due?
      split
      · rw [Option.getD_some]
        omega
      · rfl
    omega

/-- Books that read alike have the same capacity if the front of the queue is not due in either. -/
theorem Alike.capacity_eq (h : Alike block b b') (hb : WellKept config block b)
    (hb' : WellKept config block b') (hcleared : b.Cleared a block) (hcleared' : b'.Cleared a block) :
    b'.capacity a = b.capacity a := by
  have hencumbered : b'.encumberedMagnitude a = b.encumberedMagnitude a := by
    rw [← UInt64.toNat_inj, hb'.encumbered_of_cleared hcleared', hb.encumbered_of_cleared hcleared]
    exact Finset.sum_congr rfl fun s _ => by rw [h.allocation]
  rw [capacity, capacity, h.maxMagnitude, hencumbered]

end Books

namespace Manager

open Books

variable {δ ρ π : Type} {m : Manager δ ρ π} {a : Account}

/-- What is still encumbered once the matured front of a queue has given up its magnitude, if there
is enough of it to give up. -/
def encumberedAfter? (m : Manager δ ρ π) (a : Account) :
    Magnitude → List OperatorSet → Option Magnitude
  | encumbered, [] => some encumbered
  | encumbered, s :: rest =>
    let stored := m.books.allocation (a.position s)
    if m.block < stored.effectBlock then some encumbered
    else if stored.isDeallocating then
      (Magnitude.shift? encumbered stored.pending).bind fun left => m.encumberedAfter? a left rest
    else m.encumberedAfter? a encumbered rest

theorem encumberedAfter_of_eq_some {encumbered left : Magnitude} {sets : List OperatorSet}
    (h : m.encumberedAfter? a encumbered sets = some left) :
    m.encumberedAfter a encumbered sets = left := by
  induction sets generalizing encumbered with
  | nil => exact Option.some.inj h
  | cons s rest ih =>
    rw [encumberedAfter?] at h
    rw [encumberedAfter]
    split at h
    next hdue =>
      rw [if_pos hdue]
      exact Option.some.inj h
    next hdue =>
      rw [if_neg hdue]
      split at h
      next hdown =>
        obtain ⟨given, hshift, h⟩ := Option.bind_eq_some_iff.1 h
        rw [if_pos hdown, hshift, Option.getD_some]
        exact ih h
      next hdown =>
        rw [if_neg hdown]
        exact ih h

/-- The view foresees what clearing the front of the queue will leave encumbered. -/
theorem encumberedAfter?_eq {sets : List OperatorSet} {b b' : Books} {k : Nat} (hnodup : sets.Nodup)
    (hreads : ∀ s ∈ sets, b.allocation (a.position s) = m.books.allocation (a.position s))
    (h : clearFront a m.block sets b = .ok k b') :
    m.encumberedAfter? a (b.encumberedMagnitude a) sets = some (b'.encumberedMagnitude a) := by
  induction sets generalizing b k with
  | nil =>
    cases h
    rfl
  | cons s sets ih =>
    obtain ⟨hnew, hnodup⟩ := List.nodup_cons.1 hnodup
    have hself := hreads s List.mem_cons_self
    rw [clearFront, get_bind_apply, if_apply, hself] at h
    rw [encumberedAfter?]
    by_cases hdue : m.block < (m.books.allocation (a.position s)).effectBlock
    · rw [if_pos hdue] at h ⊢
      cases h
      rfl
    · rw [if_neg hdue] at h ⊢
      obtain ⟨_, _, hsettle, h⟩ := bind_eq_ok.1 h
      obtain ⟨c, al, hsettled, rfl⟩ := settle_eq_ok.1 hsettle
      obtain ⟨_, _, hpop, h⟩ := bind_eq_ok.1 h
      cases hpop
      obtain ⟨k', _, hrest, hk⟩ := bind_eq_ok.1 h
      cases hk
      have hnext := ih hnodup (fun t ht => ?_) hrest
      · have hcapacity : ((b.store (a.position s) c al).dequeue a).encumberedMagnitude a =
            c.encumbered := by
          show (b.store (a.position s) c al).encumberedMagnitude a = c.encumbered
          rw [encumberedMagnitude_store]
          exact if_pos rfl
        rw [hcapacity] at hnext
        have hleft := encumbered_settled hsettled (hself ▸ hdue)
        have haccount : (a.position s).account = a := rfl
        rw [hself, haccount] at hleft
        rw [← hnext]
        split at hleft
        next hdown => rw [if_pos hdown, hleft, Option.bind_some]
        next hdown => rw [if_neg hdown, Option.some.inj hleft]
      · have hne : a.position s ≠ a.position t := by
          intro heq
          obtain rfl : s = t := congrArg Position.set heq
          exact hnew ht
        rw [allocation_dequeue, allocation_store, if_neg hne]
        exact hreads t (List.mem_cons_of_mem s ht)

end Manager

end Restake
