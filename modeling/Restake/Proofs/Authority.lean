import Restake.Proofs.Observation
import Restake.Proofs.Places

/-!
Who may change what. A call that goes through is made by someone entitled to it: the operator or the
AVS that it is made for, or another whom they let make this very call. So what a call changes of an
operator was changed on behalf of the operator, or of the AVS that slashed it or took it out of its
sets. Only clearing a queue is open to everyone, and that shows in no view.
-/
namespace Restake

open Steps Books

/-- The name under which others are let make a call. There is none for clearing a queue. -/
def Call.entrypoint? : Call → Option Entrypoint
  | .setAllocationDelay _ _ => some .setAllocationDelay
  | .modifyAllocations _ _ => some .modifyAllocations
  | .clearDeallocationQueue _ _ _ => none
  | .registerForOperatorSets _ _ => some .registerForOperatorSets
  | .deregisterFromOperatorSets _ => some .deregisterFromOperatorSets
  | .createOperatorSets _ _ => some .createOperatorSets
  | .addStrategies _ _ _ => some .addStrategiesToOperatorSet
  | .removeStrategies _ _ _ => some .removeStrategiesFromOperatorSet
  | .slashOperator _ _ => some .slashOperator

/-- Those on whose behalf a call can be made. -/
def Call.principals : Call → List Address
  | .setAllocationDelay operator _ => [operator]
  | .modifyAllocations operator _ => [operator]
  | .clearDeallocationQueue _ _ _ => []
  | .registerForOperatorSets operator _ => [operator]
  | .deregisterFromOperatorSets r => [r.operator, r.avs]
  | .createOperatorSets avs _ => [avs]
  | .addStrategies avs _ _ => [avs]
  | .removeStrategies avs _ _ => [avs]
  | .slashOperator avs _ => [avs]

namespace Manager

variable {δ ρ π : Type} [PermissionController π] {m m' : Manager δ ρ π}
variable {caller : Address} {c : Call}

/-- The caller is the principal, or the principal lets it make this very call. -/
def Entitled (m : Manager δ ρ π) (caller : Address) (c : Call) (principal : Address) : Prop :=
  ∃ e, c.entrypoint? = some e ∧ m.mayCall principal caller e

/-- Whatever differs in `m'`, the caller was entitled to change it by the call. -/
structure ChangesAuthorised (m m' : Manager δ ρ π) (caller : Address) (c : Call) : Prop where
  allocation : ∀ p, m'.allocation p ≠ m.allocation p →
    m.Entitled caller c p.operator ∨ ∃ avs r, c = .slashOperator avs r ∧
      p.membership = ⟨r.operator, ⟨avs, r.setId⟩⟩ ∧ p.strategy ∈ r.strategies ∧
      m.Entitled caller c avs
  magnitudes : ∀ a, m'.allocatableMagnitude a ≠ m.allocatableMagnitude a ∨
      m'.books.maxMagnitude a ≠ m.books.maxMagnitude a →
    m.Entitled caller c a.operator ∨ ∃ avs r, c = .slashOperator avs r ∧
      a.operator = r.operator ∧ a.strategy ∈ r.strategies ∧ m.Entitled caller c avs
  delaySetting : ∀ operator, m'.books.delaySetting operator ≠ m.books.delaySetting operator →
    m.Entitled caller c operator
  standing : ∀ member, m'.books.registration member ≠ m.books.registration member ∨
      m'.isSlashable member ≠ m.isSlashable member →
    m.Entitled caller c member.operator ∨ ∃ r, c = .deregisterFromOperatorSets r ∧
      member.operator = r.operator ∧ member.set.avs = r.avs ∧ m.Entitled caller c r.avs
  sets : ∀ s, m'.books.setExists s ≠ m.books.setExists s ∨
      m'.books.strategiesOf s ≠ m.books.strategiesOf s →
    m.Entitled caller c s.avs

/-- Where a queue was cleared, all that is read has stayed the same. -/
theorem Lockstep.changesAuthorised [DelegationLedger δ] (h : Lockstep m m') (caller : Address)
    (c : Call) :
    ChangesAuthorised m m' caller c := by
  have hviews := h.sameViews
  have hterms := h.matched.alike.terms
  constructor
  · exact fun p hchange => absurd (hviews.allocation p) hchange
  · rintro a (hchange | hchange)
    · exact absurd (hviews.allocatableMagnitude a) hchange
    · exact absurd (hviews.maxMagnitude a) hchange
  · exact fun operator hchange => absurd (congrFun hterms.delaySetting operator) hchange
  · rintro member (hchange | hchange)
    · exact absurd (hviews.registration member) hchange
    · refine absurd ?_ hchange
      rw [Manager.isSlashable, Manager.isSlashable, h.same.block, hterms.isSlashable_eq]
  · rintro s (hchange | hchange)
    · exact absurd (congrFun hterms.setExists s) hchange
    · exact absurd (hviews.strategiesOf s) hchange

theorem mayCall_of_ok {α : Type} {principal : Address} {e : Entrypoint}
    {f : Unit → Managing δ ρ π α} {a : α}
    (h : (requireCaller principal caller e >>= f) m = .ok a m') :
    m.mayCall principal caller e := by
  obtain ⟨_, _, h, -⟩ := bind_eq_ok.1 h
  rw [requireCaller, get_bind_apply, if_apply] at h
  split at h
  · assumption
  · cases h

variable [DelegationLedger δ] [SetRegistrar ρ]

/-- A call that goes through has found its caller entitled. -/
theorem entitled_of_ok {r : Reply} (h : perform caller c m = .ok r m') (hc : c.principals ≠ []) :
    ∃ principal ∈ c.principals, m.Entitled caller c principal := by
  cases c with
  | setAllocationDelay operator delay =>
    obtain ⟨_, h, -⟩ := map_eq_ok.1 h
    exact ⟨operator, .head _, _, rfl, mayCall_of_ok h⟩
  | modifyAllocations operator requests =>
    obtain ⟨_, _, h, -⟩ := bind_eq_ok.1 h
    exact ⟨operator, .head _, _, rfl, mayCall_of_ok h⟩
  | clearDeallocationQueue operator strategies limits => exact absurd rfl hc
  | registerForOperatorSets operator r =>
    obtain ⟨_, _, h, -⟩ := bind_eq_ok.1 h
    exact ⟨operator, .head _, _, rfl, mayCall_of_ok h⟩
  | deregisterFromOperatorSets r =>
    obtain ⟨_, _, h, -⟩ := bind_eq_ok.1 h
    rw [deregisterFromOperatorSets, get_bind_apply, if_apply] at h
    split at h
    next hoperator => exact ⟨r.operator, .head _, _, rfl, hoperator⟩
    next =>
        exact ⟨r.avs, .tail _ (.head _), _, rfl, mayCall_of_ok h⟩
  | createOperatorSets avs sets =>
    obtain ⟨_, _, h, -⟩ := bind_eq_ok.1 h
    exact ⟨avs, .head _, _, rfl, mayCall_of_ok h⟩
  | addStrategies avs id strategies =>
    obtain ⟨_, _, h, -⟩ := bind_eq_ok.1 h
    exact ⟨avs, .head _, _, rfl, mayCall_of_ok h⟩
  | removeStrategies avs id strategies =>
    obtain ⟨_, _, h, -⟩ := bind_eq_ok.1 h
    exact ⟨avs, .head _, _, rfl, mayCall_of_ok h⟩
  | slashOperator avs r =>
    obtain ⟨_, h, -⟩ := map_eq_ok.1 h
    exact ⟨avs, .head _, _, rfl, mayCall_of_ok h⟩

theorem entitled_of_principal {r : Reply} (h : perform caller c m = .ok r m') {principal : Address}
    (hc : c.principals = [principal]) : m.Entitled caller c principal := by
  obtain ⟨_, hmem, hentitled⟩ := entitled_of_ok h (by simp [hc])
  rw [hc, List.mem_singleton] at hmem
  rwa [hmem] at hentitled

section Touches

variable {r : Reply} (hok : perform caller c m = .ok r m')

include hok

/-- Magnitude is touched on behalf of its operator, or of the AVS that slashes it. -/
theorem entitled_of_touches_allocation (hc : c.entrypoint? ≠ none) {p : Position}
    (htouches : c.Touches (.allocation p)) :
    m.Entitled caller c p.operator ∨ ∃ avs r, c = .slashOperator avs r ∧
      p.membership = ⟨r.operator, ⟨avs, r.setId⟩⟩ ∧ p.strategy ∈ r.strategies ∧
      m.Entitled caller c avs := by
  cases c with
  | modifyAllocations operator requests =>
    obtain rfl : p.operator = operator := htouches
    exact .inl (entitled_of_principal hok rfl)
  | clearDeallocationQueue operator strategies limits => exact absurd rfl hc
  | slashOperator avs r =>
    exact .inr ⟨avs, r, rfl, htouches.1, htouches.2, entitled_of_principal hok rfl⟩
  | _ => exact htouches.elim

theorem entitled_of_touches_account (hc : c.entrypoint? ≠ none) {a : Account}
    (htouches : c.Touches (.account a)) :
    m.Entitled caller c a.operator ∨ ∃ avs r, c = .slashOperator avs r ∧
      a.operator = r.operator ∧ a.strategy ∈ r.strategies ∧ m.Entitled caller c avs := by
  cases c with
  | modifyAllocations operator requests =>
    obtain rfl : a.operator = operator := htouches
    exact .inl (entitled_of_principal hok rfl)
  | clearDeallocationQueue operator strategies limits => exact absurd rfl hc
  | slashOperator avs r =>
    exact .inr ⟨avs, r, rfl, htouches.1, htouches.2, entitled_of_principal hok rfl⟩
  | _ => exact htouches.elim

theorem entitled_of_touches_delay {operator : Address} (htouches : c.Touches (.delay operator)) :
    m.Entitled caller c operator := by
  cases c with
  | setAllocationDelay o delay =>
    obtain rfl : operator = o := htouches
    exact entitled_of_principal hok rfl
  | _ => exact htouches.elim

/-- A registration is touched on behalf of the operator, or of the AVS that takes it out. -/
theorem entitled_of_touches_registration {member : Membership}
    (htouches : c.Touches (.registration member)) :
    m.Entitled caller c member.operator ∨ ∃ r, c = .deregisterFromOperatorSets r ∧
      member.operator = r.operator ∧ member.set.avs = r.avs ∧ m.Entitled caller c r.avs := by
  cases c with
  | registerForOperatorSets operator r =>
    obtain rfl : member.operator = operator := htouches.1
    exact .inl (entitled_of_principal hok rfl)
  | deregisterFromOperatorSets r =>
    obtain ⟨hoperator, havs⟩ : member.operator = r.operator ∧ member.set.avs = r.avs := htouches
    -- which of the two has made or granted the call is not known
    obtain ⟨principal, hmem, hentitled⟩ := entitled_of_ok hok (List.cons_ne_nil _ _)
    simp only [Call.principals, List.mem_cons, List.not_mem_nil, or_false] at hmem
    rcases hmem with rfl | rfl
    · exact .inl (hoperator ▸ hentitled)
    · exact .inr ⟨r, rfl, hoperator, havs, hentitled⟩
  | _ => exact htouches.elim

theorem entitled_of_touches_set {s : OperatorSet} (htouches : c.Touches (.set s)) :
    m.Entitled caller c s.avs := by
  cases c with
  | createOperatorSets avs sets =>
    obtain rfl : s.avs = avs := htouches
    exact entitled_of_principal hok rfl
  | addStrategies avs id strategies =>
    obtain rfl : s = ⟨avs, id⟩ := htouches
    exact entitled_of_principal hok rfl
  | removeStrategies avs id strategies =>
    obtain rfl : s = ⟨avs, id⟩ := htouches
    exact entitled_of_principal hok rfl
  | _ => exact htouches.elim

end Touches

/-- Where something changes, a call went through that can touch it. -/
theorem touched_of_changed (hidle : m.books.Idle) {scope : Place → Prop}
    (h : ¬SameAt scope m.books (m.after (.call caller c)).books) :
    ∃ k, scope k ∧ c.Touches k ∧ ∃ r m', perform caller c m = .ok r m' := by
  by_contra hnone
  refine h (sameAt_after hidle fun _ _ hmove hok k htouches hk => hnone ⟨k, hk, ?_⟩)
  cases hmove
  obtain ⟨r, m', hperform, -⟩ := attempt_eq_ok_of_isOk hok
  exact ⟨htouches, r, m', hperform⟩

/-- Clearing a queue leaves the manager in lockstep with what it was, whether it goes through or
not. -/
theorem Reachable.lockstep_after_clear (h : m.Reachable) (caller operator : Address)
    (strategies : List Address) (limits : List UInt64) :
    Lockstep m (m.after (.call caller (.clearDeallocationQueue operator strategies limits))) := by
  have hafter : m.after (.call caller (.clearDeallocationQueue operator strategies limits)) =
      (m.attempt (clearDeallocationQueue operator strategies limits)).2 := by
    show (m.attempt (perform caller (.clearDeallocationQueue operator strategies limits))).2 = _
    rw [attempt, attempt, perform, map_apply]
    cases clearDeallocationQueue operator strategies limits m <;> rfl
  rw [hafter]
  rcases clearDeallocationQueue_apply h.wellKept operator strategies limits with
    ⟨-, hm⟩ | ⟨-, counts, b, tally, hm, -⟩
  · rw [attempt, hm]
    exact ⟨h.idle, h.idle, ⟨rfl, rfl, rfl, rfl, rfl⟩, h.wellKept, h.wellKept, .refl _ _⟩
  · exact h.lockstep_clear (by rw [attempt, hm])

theorem changesAuthorised_of_entrypoint (hidle : m.books.Idle) (hc : c.entrypoint? ≠ none) :
    ChangesAuthorised m (m.after (.call caller c)) caller c := by
  have hblock : (m.after (.call caller c)).block = m.block := block_after_call hidle
  constructor
  · intro p hchange
    obtain ⟨_, rfl, htouches, r, m', hok⟩ := touched_of_changed hidle
      fun hsame => hchange (allocation_eq hblock hsame rfl)
    exact entitled_of_touches_allocation hok hc htouches
  · intro a hchange
    have hchanged : ¬SameAt (fun k => k = .account a ∨ ∃ s, k = .allocation (a.position s))
        m.books (m.after (.call caller c)).books := by
      intro hsame
      rcases hchange with hchange | hchange
      · exact hchange (allocatableMagnitude_eq hblock hsame (.inl rfl) fun s => .inr ⟨s, rfl⟩)
      · exact hchange (hsame.maxMagnitude (.inl rfl))
    obtain ⟨_, rfl | ⟨s, rfl⟩, htouches, r, m', hok⟩ := touched_of_changed hidle hchanged
    · exact entitled_of_touches_account hok hc htouches
    · rcases entitled_of_touches_allocation hok hc htouches with
        hentitled | ⟨avs, r, hslash, hmember, hstrategy, hentitled⟩
      · exact .inl hentitled
      · exact .inr ⟨avs, r, hslash, congrArg Membership.operator hmember, hstrategy, hentitled⟩
  · intro operator hchange
    obtain ⟨_, rfl, htouches, r, m', hok⟩ := touched_of_changed hidle
      fun hsame => hchange (hsame.delaySetting rfl)
    exact entitled_of_touches_delay hok htouches
  · intro member hchange
    have hchanged :
        ¬SameAt (· = .registration member) m.books (m.after (.call caller c)).books := by
      intro hsame
      rcases hchange with hchange | hchange
      · exact hchange (hsame.registration rfl)
      · exact hchange (isSlashable_eq hblock hsame rfl)
    obtain ⟨_, rfl, htouches, r, m', hok⟩ := touched_of_changed hidle hchanged
    exact entitled_of_touches_registration hok htouches
  · intro s hchange
    have hchanged : ¬SameAt (· = .set s) m.books (m.after (.call caller c)).books := by
      intro hsame
      rcases hchange with hchange | hchange
      · exact hchange (hsame.setExists rfl)
      · exact hchange (hsame.strategiesOf rfl)
    obtain ⟨_, rfl, htouches, r, m', hok⟩ := touched_of_changed hidle hchanged
    exact entitled_of_touches_set hok htouches

/-- A call changes nothing of an operator or a set that its caller was not entitled to change. -/
theorem Reachable.changes_authorised (h : m.Reachable) (caller : Address) (c : Call) :
    ChangesAuthorised m (m.after (.call caller c)) caller c := by
  by_cases hc : c.entrypoint? = none
  · cases c with
    | clearDeallocationQueue operator strategies limits =>
      exact (h.lockstep_after_clear caller operator strategies limits).changesAuthorised _ _
    | _ => cases hc
  · exact changesAuthorised_of_entrypoint h.idle hc

/-- An AVS slashes an operator that has granted it nothing. -/
theorem changes_authorised_slash :
    (Sample.start.run Sample.moves).Reachable ∧
      ChangesAuthorised (Sample.start.run Sample.moves) ((Sample.start.run Sample.moves).run
        Sample.slash) Sample.avs (.slashOperator Sample.avs
          ⟨Sample.operator, 1, [Sample.position.strategy], [500000000000000000], ""⟩) ∧
      ((Sample.start.run Sample.moves).run Sample.slash).allocation Sample.position ≠
        (Sample.start.run Sample.moves).allocation Sample.position := by
  refine ⟨Sample.reachable, Sample.reachable.changes_authorised Sample.avs _, ?_⟩
  decide +kernel

end Manager

end Restake
