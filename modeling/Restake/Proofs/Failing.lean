import Restake.Proofs.Proportion

/-!
What calls that fail leave behind. The books, the clock, the grants and the counters are as they
were before the call, wherever it failed and whatever the collaborators did in it. What these keep
to themselves is theirs: a slash that its share ledger refuses has burnt the shares of the legs
before, and the ledger keeps these burns.
-/
namespace Restake

namespace Sample

/-- A second strategy, whose shares a guard refuses to slash. -/
def paused : Address := ⟨4⟩

def guarded : Manager (Guarded LocalDelegation) LocalRegistrar LocalPermissions :=
  .fresh config (({ ledger := Manager.opening [⟨operator,
    [⟨position.strategy, 1000000000000000000⟩, ⟨paused, 1000000000000000000⟩]⟩] } :
      Guarded LocalDelegation).close paused "paused") {} {}

/-- The operator allocates to both strategies of a set. -/
def allocating {δ ρ π : Type} : List (Move δ ρ π) :=
  [.call operator (.setAllocationDelay operator 2),
    .call avs (.createOperatorSets avs [⟨1, [position.strategy, paused]⟩]),
    .call operator (.registerForOperatorSets operator ⟨avs, [1], []⟩),
    .setBlock 5,
    .call operator (.modifyAllocations operator [⟨position.set, [position.strategy, paused],
      [500000000000000000, 500000000000000000]⟩]),
    .setBlock 7]

/-- A request whose second part is larger than the whole capacity. -/
def overdrawn : Call := .modifyAllocations operator
  [⟨position.set, [position.strategy, paused], [600, 1000000000000000001]⟩]

/-- A slash of half of both. -/
def halving : SlashRequest :=
  ⟨operator, 1, [position.strategy, paused], [500000000000000000, 500000000000000000], ""⟩

theorem reachable_guarded (moves : List (Move (Guarded LocalDelegation) LocalRegistrar
    LocalPermissions)) : (guarded.run moves).Reachable := (Manager.Reachable.fresh _ _ _ _).run moves

end Sample

namespace Manager

open Steps Books

section Calls

variable {δ ρ π : Type} {m : Manager δ ρ π} [DelegationLedger δ] [SetRegistrar ρ]
  [PermissionController π]

/-- A call that fails changes nothing but what the collaborators keep to themselves. -/
theorem Reachable.failure_undone (h : m.Reachable) :
    (∀ block e, (m.attempt (Manager.setBlock block)).1 = .error e → m.after (.setBlock block) = m) ∧
      ∀ caller c e, (m.attempt (perform caller c)).1 = .error e →
        ∃ delegation registrar,
          m.after (.call caller c) = { m with delegation, registrar } := by
  refine ⟨fun block e hfails => ?_, fun caller c e hfails => ?_⟩
  · have hafter : m.after (.setBlock block) = (m.attempt (Manager.setBlock block)).2 := rfl
    rw [attempt_setBlock] at hfails hafter
    split at hfails
    next h => rw [hafter, if_pos h]
    next => cases hfails
  · rcases after_call h.idle caller c with ⟨hok, -⟩ | habandoned
    · rw [hfails] at hok
      cases hok
    · exact habandoned

/-- The first part of the request would have gone through. -/
theorem failure_undone_overdrawn :
    ((Sample.guarded.run (Sample.allocating.take 4)).attempt
        (perform Sample.operator Sample.overdrawn)).1 =
      .error (.insufficientMagnitude ⟨Sample.operator, Sample.paused⟩ wad 1000000000000000001) ∧
    ∃ delegation registrar, (Sample.guarded.run (Sample.allocating.take 4)).after
        (.call Sample.operator Sample.overdrawn) =
      { Sample.guarded.run (Sample.allocating.take 4) with delegation, registrar } := by
  have hfails : ((Sample.guarded.run (Sample.allocating.take 4)).attempt
      (perform Sample.operator Sample.overdrawn)).1 =
        .error (.insufficientMagnitude ⟨Sample.operator, Sample.paused⟩ wad 1000000000000000001) := by
    decide +kernel
  exact ⟨hfails, (Sample.reachable_guarded _).failure_undone.2 _ _ _ hfails⟩

end Calls

variable {ρ π : Type} {m : Manager (Guarded LocalDelegation) ρ π} [SetRegistrar ρ]
  [PermissionController π]

/-- A slash that fails changes nothing but balances, and these only if the ledger refused a leg: the
balances that it burnt from before that stay burnt. -/
theorem Reachable.failed_slash (h : m.Reachable) {caller avs : Address} {r : SlashRequest}
    {e : Failure} (hfails : (m.attempt (perform caller (.slashOperator avs r))).1 = .error e) :
    ∃ d, m.after (.call caller (.slashOperator avs r)) = { m with delegation := d } ∧
      ((¬m.Admits caller avs r ∧ d = m.delegation) ∨
        m.Admits caller avs r ∧
          (firstRefusal m.delegation r.operator (m.cuts avs r)).map Failure.delegation = some e ∧
          ∀ a, DelegationLedger.shares d a = DelegationLedger.shares m.delegation a -
            lostTo r.operator ((acceptedCuts m.delegation r.operator (m.cuts avs r)).map
              (legOf m.delegation r.operator)) a) := by
  have hafter : m.after (.call caller (.slashOperator avs r)) =
    (m.attempt (perform caller (.slashOperator avs r))).2 := rfl
  rw [hafter]
  rcases slash_cases h.idle h.wellKept caller avs r with
    ⟨hrefused, e', hslash⟩ | ⟨hadmits, d, hburnt, hslash⟩
  · rw [hslash]
    exact ⟨m.delegation, rfl, .inl ⟨hrefused, rfl⟩⟩
  · cases hrefusal : firstRefusal m.delegation r.operator (m.cuts avs r) with
    | none =>
      rw [hrefusal] at hslash
      obtain ⟨b, tally, hslash, -⟩ := hslash
      rw [hslash] at hfails
      cases hfails
    | some cause =>
      rw [hrefusal] at hslash
      dsimp only at hslash
      rw [hslash] at hfails ⊢
      cases hfails
      exact ⟨d, rfl, .inr ⟨hadmits, rfl, hburnt.balances⟩⟩

/-- A slash of two strategies, the second of them paused, leaves the burn in the first. -/
theorem failed_slash_paused : ∃ d,
    (Sample.guarded.run Sample.allocating).after (.call Sample.avs (.slashOperator Sample.avs
      Sample.halving)) = { Sample.guarded.run Sample.allocating with delegation := d } ∧
    DelegationLedger.shares d Sample.position.account = 750000000000000000 := by
  have hfails : ((Sample.guarded.run Sample.allocating).attempt (perform Sample.avs
      (.slashOperator Sample.avs Sample.halving))).1 =
        .error (.delegation (.slashFailed "paused")) := by
    decide +kernel
  obtain ⟨d, hafter, ⟨hrefused, -⟩ | ⟨-, -, hbalances⟩⟩ :=
    (Sample.reachable_guarded Sample.allocating).failed_slash hfails
  · exact absurd ⟨by decide +kernel, by decide +kernel⟩ hrefused
  · refine ⟨d, hafter, ?_⟩
    rw [hbalances]
    decide +kernel

/-- Not every slash that fails leaves every balance as it was. -/
theorem failed_slash_keeps_burns :
    ¬∀ (m : Manager (Guarded LocalDelegation) LocalRegistrar LocalPermissions) (caller avs : Address)
      (r : SlashRequest) (e : Failure), m.Reachable →
      (m.attempt (perform caller (.slashOperator avs r))).1 = .error e →
      ∀ a, DelegationLedger.shares (m.after (.call caller (.slashOperator avs r))).delegation a =
        DelegationLedger.shares m.delegation a := by
  intro hall
  have hkept := hall (Sample.guarded.run Sample.allocating) Sample.avs Sample.avs Sample.halving
    (.delegation (.slashFailed "paused")) (Sample.reachable_guarded _) (by decide +kernel)
    Sample.position.account
  exact absurd hkept (by decide +kernel)

end Manager

end Restake
