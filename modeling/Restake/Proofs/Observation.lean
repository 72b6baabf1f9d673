import Restake.Proofs.Lockstep

/-!
What is observed of clearing a queue, which anyone may do for anyone and at any time: nothing. The
manager in which a queue was cleared and the one in which it was not run in lockstep from there on,
and two managers in lockstep show the same views and give the same answers.
-/
namespace Restake

namespace Manager

open Books

variable {δ ρ π : Type} {m m' : Manager δ ρ π}

/-- The view of what is encumbered counts what is held as of the block. -/
theorem encumberedAfter_toNat (h : WellKept m.config m.block m.books) (a : Account) :
    (m.encumberedAfter a (m.books.encumberedMagnitude a) (m.books.queued a)).toNat =
      ∑ s : OperatorSet, (m.allocation (a.position s)).held := by
  obtain ⟨k, b, hfront, hsettlement⟩ :=
    h.clearFront_succeeds (List.append_nil (m.books.queued a)).symm
  have hcleared : b.Cleared a m.block := cleared_of_clearFront hfront
  have hforeseen := encumberedAfter?_eq (h.orderly a).nodup (fun _ _ => rfl) hfront
  rw [encumberedAfter_of_eq_some hforeseen, hsettlement.wellKept.encumbered_of_cleared hcleared]
  apply Finset.sum_congr rfl
  intro s _
  rw [hsettlement.alike.allocation, Manager.allocation]

/-- The two show the same. What is stored of it, and what waits in the queues, may differ. -/
structure SameViews [DelegationLedger δ] (m m' : Manager δ ρ π) : Prop where
  allocation : ∀ p, m'.allocation p = m.allocation p
  allocatableMagnitude : ∀ a, m'.allocatableMagnitude a = m.allocatableMagnitude a
  maxMagnitude : ∀ a, m'.books.maxMagnitude a = m.books.maxMagnitude a
  allocatedStake : ∀ p, m'.allocatedStake p = m.allocatedStake p
  minimumSlashableStake : ∀ p future,
    m'.minimumSlashableStake p future = m.minimumSlashableStake p future
  allocationDelay : ∀ operator, m'.allocationDelay operator = m.allocationDelay operator
  registration : ∀ member, m'.books.registration member = m.books.registration member
  strategiesOf : ∀ s, m'.books.strategiesOf s = m.books.strategiesOf s
  slashCount : ∀ s, m'.books.slashCount s = m.books.slashCount s

variable [DelegationLedger δ]

theorem Lockstep.sameViews (h : Lockstep m m') : SameViews m m' := by
  have hterms := h.matched.alike.terms
  have hallocation : m'.allocation = m.allocation := by
    funext p
    rw [Manager.allocation, Manager.allocation, h.same.block, h.matched.alike.allocation]
  have hstake : ∀ a x, m'.stakeOf a x = m.stakeOf a x := by
    intro a x
    rw [stakeOf, stakeOf, h.same.delegation, h.matched.alike.maxMagnitude]
  constructor
  · exact congrFun hallocation
  · intro a
    have hencumbered : m'.encumberedAfter a (m'.books.encumberedMagnitude a) (m'.books.queued a) =
        m.encumberedAfter a (m.books.encumberedMagnitude a) (m.books.queued a) := by
      rw [← UInt64.toNat_inj, encumberedAfter_toNat h.wellKept', hallocation,
        encumberedAfter_toNat h.matched.left]
    rw [Manager.allocatableMagnitude, Manager.allocatableMagnitude, hencumbered,
      h.matched.alike.maxMagnitude]
  · exact congrFun h.matched.alike.maxMagnitude
  · intro p
    rw [Manager.allocatedStake, Manager.allocatedStake, hallocation, hstake]
  · intro p future
    rw [Manager.minimumSlashableStake, Manager.minimumSlashableStake, isSlashable, isSlashable,
      Books.isSlashable, Books.isSlashable, hterms.registration, h.same.block, lastingMagnitude,
      lastingMagnitude, hallocation, hstake]
  · intro operator
    rw [Manager.allocationDelay, Manager.allocationDelay, hterms.delaySetting, h.same.block]
  · exact congrFun hterms.registration
  · exact congrFun hterms.strategiesOf
  · exact congrFun h.matched.alike.slashCount

variable [SetRegistrar ρ] [PermissionController π]

/-- The two show the same and answer every call alike, but for how much of a queue they clear. -/
structure Indistinguishable (m m' : Manager δ ρ π) : Prop where
  views : SameViews m m'
  setBlock : ∀ block, (m'.attempt (Manager.setBlock block)).1 =
    (m.attempt (Manager.setBlock block)).1
  call : ∀ caller c,
    (∀ operator strategies limits, c ≠ .clearDeallocationQueue operator strategies limits) →
      (m'.attempt (perform caller c)).1 = (m.attempt (perform caller c)).1
  clearing : ∀ caller operator strategies limits,
    ((m.attempt (perform caller (.clearDeallocationQueue operator strategies limits))).1.isOk ∧
      (m'.attempt (perform caller (.clearDeallocationQueue operator strategies limits))).1.isOk) ∨
    ∃ e, (m.attempt (perform caller (.clearDeallocationQueue operator strategies limits))).1 =
        .error e ∧
      (m'.attempt (perform caller (.clearDeallocationQueue operator strategies limits))).1 = .error e

theorem Lockstep.indistinguishable (h : Lockstep m m') : Indistinguishable m m' := by
  refine ⟨h.sameViews, h.attempt_setBlock_eq, fun caller c hc => h.attempt_perform_eq caller hc, ?_⟩
  intro caller operator strategies limits
  rcases h.attempt_clear caller operator strategies limits rfl with
    ⟨counts, counts', b, b', tally, tally', hm, hm', -⟩ | ⟨e, hm, hm'⟩
  · rw [hm, hm']
    exact .inl ⟨rfl, rfl⟩
  · rw [hm, hm']
    exact .inr ⟨e, rfl, rfl⟩

/-- Settling what is due leaves a manager in lockstep with the one that has not settled it. -/
theorem Reachable.lockstep_clear (h : m.Reachable) {operator : Address} {strategies : List Address}
    {limits : List UInt64} {counts : List Nat}
    (hclear : m.attempt (clearDeallocationQueue operator strategies limits) = (.ok counts, m')) :
    Lockstep m m' := by
  rw [attempt] at hclear
  rcases clearDeallocationQueue_apply h.wellKept operator strategies limits with
    ⟨-, hm⟩ | ⟨-, counts', b, tally, hm, hidle, hsettlement⟩
  · rw [hm] at hclear
    cases hclear
  · rw [hm] at hclear
    cases hclear
    exact ⟨h.idle, hidle, ⟨rfl, rfl, rfl, rfl, rfl⟩, h.wellKept, hsettlement.wellKept,
      hsettlement.alike⟩

/-- Clearing a queue is never observed, whatever happens afterwards. -/
theorem Reachable.clearing_unobservable (h : m.Reachable) {operator : Address}
    {strategies : List Address} {limits : List UInt64} {counts : List Nat}
    (hclear : m.attempt (clearDeallocationQueue operator strategies limits) = (.ok counts, m'))
    (moves : List (Move δ ρ π)) : Indistinguishable (m.run moves) (m'.run moves) :=
  ((h.lockstep_clear hclear).run moves).indistinguishable

end Manager

namespace Sample

/-- The sample run has come to where its deallocation is due. -/
def matured : LocalManager := (start.run moves).run [.setBlock 17]

def cleared : LocalManager :=
  (matured.attempt (Manager.clearDeallocationQueue operator [position.strategy] [5])).2

def slash : List (Move LocalDelegation LocalRegistrar LocalPermissions) :=
  [.call avs (.slashOperator avs ⟨operator, 1, [position.strategy], [500000000000000000], ""⟩)]

end Sample

namespace Manager

/-- The slash completes the deallocation in the one manager and finds it completed in the other. -/
theorem clearing_unobservable_slash :
    Sample.matured.attempt
        (clearDeallocationQueue Sample.operator [Sample.position.strategy] [5]) =
      (.ok [1], Sample.cleared) ∧
    Indistinguishable (Sample.matured.run Sample.slash) (Sample.cleared.run Sample.slash) := by
  have hcounts : (Sample.matured.attempt
      (clearDeallocationQueue Sample.operator [Sample.position.strategy] [5])).1 = .ok [1] := by
    decide +kernel
  have hclear : Sample.matured.attempt
      (clearDeallocationQueue Sample.operator [Sample.position.strategy] [5]) =
        (.ok [1], Sample.cleared) := by
    rw [← hcounts, Sample.cleared]
  exact ⟨hclear, (Sample.reachable.run [.setBlock 17]).clearing_unobservable hclear Sample.slash⟩

end Manager

end Restake
