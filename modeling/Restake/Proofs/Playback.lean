import Restake.Proofs.Failing
import Restake.Proofs.Hooks
import Restake.Proofs.Making
import Restake.Proofs.Places
import Restake.Proofs.Tenure

/-!
Playing on after a failure. The collaborators kept in memory refuse a call only before they have
changed anything, so a step that fails leaves all of the manager as it was but for the clock. To play
it is to let the clock tick, which an empty request to clear does too, and no step looks at what that
request counts.
-/
namespace Restake

open Steps

/-- The registrar takes everyone. -/
structure LocalRegistrar.Accepting (g : LocalRegistrar) : Prop where
  rejected : g.rejected = ∅
  available : g.unavailable = false

namespace LocalRegistrar

variable {g : LocalRegistrar} (h : g.Accepting) (operator avs : Address) (ids : List UInt32)
include h

theorem register_accepted : ∃ g', register operator avs ids g = .ok () g' ∧ g'.Accepting := by
  refine ⟨{ g with calls := g.calls.push (.register operator avs ids) }, ?_, ⟨h.1, h.2⟩⟩
  have hfree : g.rejected.contains operator = false := by
    rw [h.rejected]
    exact Std.ExtTreeSet.contains_empty
  simp only [register, requireAvailable, bind_apply, modify_apply, get_apply, if_apply, pure_apply,
    h.available, hfree, Bool.false_eq_true, if_false]

theorem deregister_accepted : ∃ g', deregister operator avs ids g = .ok () g' ∧ g'.Accepting := by
  refine ⟨{ g with calls := g.calls.push (.deregister operator avs ids) }, ?_, ⟨h.1, h.2⟩⟩
  simp only [deregister, requireAvailable, bind_apply, modify_apply, get_apply, if_apply, pure_apply,
    h.available, Bool.false_eq_true, if_false]

end LocalRegistrar

namespace LocalDelegation

variable {d d' : LocalDelegation} {operator : Address}

theorem burns_succeed (h : d.isOperator operator) (cuts : List (Address × Cut)) :
    ∃ legs d', burns operator cuts d = .ok legs d' := by
  induction cuts generalizing d with
  | nil => exact ⟨[], d, rfl⟩
  | cons c cuts ih =>
    obtain ⟨d₁, hburnt, hoperators, -⟩ :=
      @slashShares_known d ⟨operator, c.1⟩ c.2.maxBefore c.2.maxAfter h
    obtain ⟨legs, d₂, hrest⟩ := ih (d := d₁) (by rwa [hoperators])
    rw [burns_cons]
    exact ⟨_, d₂, bind_eq_ok.2 ⟨_, d₁, hburnt, bind_eq_ok.2 ⟨legs, d₂, hrest, rfl⟩⟩⟩

/-- Only an operator without a table is refused, at the first burn. -/
theorem burns_refused {cuts : List (Address × Cut)} {e : DelegationFailure}
    (h : burns operator cuts d = .error e d') : d' = d := by
  by_cases hknown : d.isOperator operator
  · obtain ⟨legs, d₁, hok⟩ := burns_succeed hknown cuts
    rw [hok] at h
    cases h
  · cases cuts with
    | nil => cases h
    | cons c cuts =>
      have hunknown : DelegationLedger.slashShares ⟨operator, c.1⟩ c.2.maxBefore c.2.maxAfter d =
        .error (.unknownOperator operator) d := slashShares_unknown hknown
      rw [burns_cons, bind_apply, hunknown] at h
      cases h
      rfl

end LocalDelegation

namespace Manager

open Books

variable {m m' : LocalManager} {caller : Address} {e : Failure}

/-- What leaves the collaborators alone if it fails does so in a transaction too. -/
theorem spared_atomically {α : Type} {C : LocalDelegation → LocalRegistrar → Prop}
    {x : Managing LocalDelegation LocalRegistrar LocalPermissions α}
    (h : Leads (fun m => C m.delegation m.registrar) x (fun _ _ => True)
      fun m => C m.delegation m.registrar) :
    Leads (fun m => C m.delegation m.registrar) (atomically x) (fun _ _ => True)
      fun m => C m.delegation m.registrar := by
  intro m hm
  unfold atomically
  cases hrun : x { m with books := m.books.checkpoint } with
  | ok a m' => trivial
  | error e m' =>
    have hends := h.of_error (s := { m with books := m.books.checkpoint }) hm hrun
    exact hends

/-- The registrar is asked last. -/
theorem registerForOperatorSets_error (hopen : m.registrar.Accepting) {operator : Address}
    {r : RegisterRequest} (h : registerForOperatorSets caller operator r m = .error e m') :
    m'.delegation = m.delegation ∧ m'.registrar = m.registrar := by
  let C (d : LocalDelegation) (g : LocalRegistrar) : Prop := d = m.delegation ∧ g = m.registrar
  have hcall : Leads (fun t : LocalManager => C t.delegation t.registrar)
      (registerForOperatorSets caller operator r) (fun _ _ => True)
      fun t => C t.delegation t.registrar := by
    refine Leads.bind (Keeps.requireCaller (C := C) _ _ _) fun _ =>
      Leads.bind (Keeps.requireOperator (C := C) _) fun _ =>
        Leads.bind (spared_atomically (C := C) ?_) fun _ => Leads.modify fun _ _ => trivial
    refine Leads.bind (Keeps.onBooks _) fun _ t ht => ?_
    obtain ⟨g', hhook, -⟩ : ∃ g',
        SetRegistrar.register operator r.avs r.ids r.data t.registrar = .ok () g' ∧ g'.Accepting :=
      LocalRegistrar.register_accepted (ht.2 ▸ hopen) operator r.avs r.ids
    unfold onRegistrar
    rw [hhook]
    trivial
  exact hcall.of_error (s := m) ⟨rfl, rfl⟩ h

/-- Over collaborators kept in memory a call that fails leaves everything as it was. -/
theorem perform_error (hidle : m.books.Idle) (hkept : WellKept m.config m.block m.books)
    (hopen : m.registrar.Accepting) {c : Call} (h : perform caller c m = .error e m') : m' = m := by
  obtain ⟨delegation, registrar, hm'⟩ := (leads_perform hidle caller c).of_error rfl h
  suffices hsame : m'.delegation = m.delegation ∧ m'.registrar = m.registrar by
    subst hm'
    obtain ⟨hdelegation, hregistrar⟩ := hsame
    dsimp only at hdelegation hregistrar
    rw [hdelegation, hregistrar]
  clear hm' delegation registrar
  cases c with
  | registerForOperatorSets operator r =>
    rcases bind_eq_error.1 h with h | ⟨_, _, -, h⟩
    · exact registerForOperatorSets_error hopen h
    · cases h
  | deregisterFromOperatorSets r =>
    rcases bind_eq_error.1 h with h | ⟨_, _, -, h⟩
    · rw [deregisterFromOperatorSets_apply] at h
      split at h
      next books hdeparture =>
        obtain ⟨g, tally, hhook, -⟩ := tolerating_apply
          (SetRegistrar.deregister r.operator r.avs r.ids)
          { m with books, tally := m.tally.deregistered r.ids.length }
        rw [hhook] at h
        cases h
      · cases h
        exact ⟨rfl, rfl⟩
    · cases h
  | slashOperator avs r =>
    have h := map_eq_error.1 h
    by_cases hadmits : m.Admits caller avs r
    · have hends := slashOperator_admitted hadmits hidle hkept
      split at hends
      · obtain ⟨b, tally, hok, -⟩ := hends
        rw [hok] at h
        cases h
      next e' d hburns =>
        rw [hends] at h
        cases h
        exact ⟨LocalDelegation.burns_refused hburns, rfl⟩
    · obtain ⟨e', hrefused⟩ := slashOperator_refused hadmits hidle
      rw [hrefused] at h
      cases h
      exact ⟨rfl, rfl⟩
  | _ =>
    refine (keeps_perform (C := fun d g => d = m.delegation ∧ g = m.registrar) caller ?_ ?_
      ?_).of_error ⟨rfl, rfl⟩ h <;>
    · intros
      contradiction

section Counts

variable {δ ρ π : Type}

/-- The two differ in what they counted at most. -/
def Recounted (m m' : Manager δ ρ π) : Prop := ∃ tally, m' = { m with tally }

/-- What is counted has no bearing on what happens. -/
theorem Made.respects_recounted {α : Type} {counts : (Tally → Tally) → Prop} {x : Managing δ ρ π α}
    (hx : Made counts x) : Respects Recounted x := by
  induction hx with
  | pure a => exact Agree.pure fun _ _ h => h
  | throw e => exact Agree.throw fun _ _ h => h
  | bind _ _ ihx ihf => exact Agree.bind ihx ihf
  | read hblind _ ih =>
    apply Agree.read_bind
    rintro m _ ⟨tally, rfl⟩
    rw [hblind m tally]
    exact ih m
  | onBooks step =>
    rintro m _ ⟨tally, rfl⟩
    unfold Manager.onBooks
    cases step m.books <;> exact ⟨rfl, tally, rfl⟩
  | onDelegation step =>
    rintro m _ ⟨tally, rfl⟩
    unfold Manager.onDelegation
    cases step m.delegation <;> exact ⟨rfl, tally, rfl⟩
  | onRegistrar step =>
    rintro m _ ⟨tally, rfl⟩
    unfold Manager.onRegistrar
    cases step m.registrar <;> exact ⟨rfl, tally, rfl⟩
  | tolerating hook =>
    rintro m _ ⟨tally, rfl⟩
    unfold Manager.tolerating
    cases hook m.registrar with
    | ok _ g => exact ⟨rfl, tally, rfl⟩
    | error _ g => exact ⟨rfl, tally.hookFailed, rfl⟩
  | atomically _ ih =>
    rintro m _ ⟨tally, rfl⟩
    have hstart : Recounted { m with books := m.books.checkpoint }
      { m with books := m.books.checkpoint, tally } := ⟨tally, rfl⟩
    unfold Manager.atomically
    rcases (ih _ _ hstart).cases with
      ⟨a, t, _, hx, hy, tally', rfl⟩ | ⟨e, t, _, hx, hy, tally', rfl⟩
    · rw [hx, hy]
      exact ⟨rfl, tally', rfl⟩
    · rw [hx, hy]
      exact ⟨rfl, tally', rfl⟩
  | count _ =>
    apply Agree.modify
    rintro m _ ⟨tally, rfl⟩
    exact ⟨_, rfl⟩

end Counts

theorem act_recounted (h : Recounted m m') (caller : Address) (a : Action) :
    (m'.act caller a).1 = (m.act caller a).1 ∧
      Recounted (m.act caller a).2 (m'.act caller a).2 := by
  cases a with
  | appoint g =>
    obtain ⟨tally, rfl⟩ := h
    exact ⟨rfl, tally, rfl⟩
  | call c =>
    show (m'.attempt (perform caller c)).1 = (m.attempt (perform caller c)).1 ∧
      Recounted (m.attempt (perform caller c)).2 (m'.attempt (perform caller c)).2
    unfold attempt
    rcases ((made_perform caller c).respects_recounted m m' h).cases with
      ⟨r, t, t', hx, hy, hend⟩ | ⟨e, t, t', hx, hy, hend⟩
    · rw [hx, hy]
      exact ⟨rfl, hend⟩
    · rw [hx, hy]
      exact ⟨rfl, hend⟩

/-- An empty request to clear does nothing but count that nothing was cleared. -/
theorem act_clear_nothing (hidle : m.books.Idle) (caller operator : Address) :
    m.act caller (.call (.clearDeallocationQueue operator [] [])) =
      (.ok (.cleared []), { m with tally := m.tally.clearedEntries 0 }) := by
  have hperform : perform caller (.clearDeallocationQueue operator [] []) m = .ok (.cleared [])
      { m with books := m.books.checkpoint.commit, tally := m.tally.clearedEntries 0 } := rfl
  rw [hidle.commit_checkpoint] at hperform
  exact attempt_of_ok hperform

/-- What holds of a manager on which a scenario is played. -/
structure Playable (m : LocalManager) : Prop where
  reachable : m.Reachable
  accepting : m.registrar.Accepting

theorem playable_opened (config : Config) (operators : List OperatorSpec) :
    Playable (opened config operators) :=
  ⟨.fresh _ _ _ _, rfl, rfl⟩

namespace Playable

variable (h : Playable m)
include h

theorem clocked {block : BlockNumber} (hblock : m.block ≤ block) : Playable { m with block } := by
  have hreachable := h.reachable.after (.setBlock block)
  have hafter : m.after (.setBlock block) = (m.attempt (Manager.setBlock block)).2 := rfl
  rw [hafter, attempt_setBlock, if_neg (UInt32.not_lt.2 hblock)] at hreachable
  exact ⟨hreachable, h.accepting⟩

theorem act (caller : Address) (a : Action) : Playable (m.act caller a).2 := by
  cases a with
  | appoint g =>
    exact ⟨h.reachable.after (.meanwhile m.delegation m.registrar (m.permissions.grant g)),
      h.accepting⟩
  | call c =>
    refine ⟨h.reachable.after (.call caller c),
      collaborators_after (C := fun _ (g : LocalRegistrar) => g.Accepting) (keeps_perform caller ?_ ?_ ?_) h.accepting⟩
    · exact fun _ _ _ _ _ _ _ => Leads.const _ _
    · intro operator r _ _ g hg
      obtain ⟨g', hhook, hg'⟩ : ∃ g',
          SetRegistrar.register operator r.avs r.ids r.data g = .ok () g' ∧ g'.Accepting :=
        LocalRegistrar.register_accepted hg operator r.avs r.ids
      rw [hhook]
      exact hg'
    · intro r _ _ g hg
      obtain ⟨g', hhook, hg'⟩ : ∃ g',
          SetRegistrar.deregister r.operator r.avs r.ids g = .ok () g' ∧ g'.Accepting :=
        LocalRegistrar.deregister_accepted hg r.operator r.avs r.ids
      rw [hhook]
      exact hg'

/-- An action that fails leaves no trace. -/
theorem act_error {a : Action} (hfails : (m.act caller a).1 = .error e) :
    (m.act caller a).2 = m := by
  cases a with
  | appoint g => cases hfails
  | call c =>
    have hact : m.act caller (.call c) = m.attempt (perform caller c) := rfl
    rw [hact] at hfails ⊢
    unfold attempt at hfails ⊢
    cases hperform : perform caller c m with
    | ok r m' =>
      rw [hperform] at hfails
      cases hfails
    | error e' m' => exact perform_error h.reachable.idle h.reachable.wellKept h.accepting hperform

theorem block_act (caller : Address) (a : Action) : (m.act caller a).2.block = m.block := by
  cases a with
  | appoint g => rfl
  | call c => exact block_after_call h.reachable.idle

end Playable

end Manager

/-- The step with an empty request to clear in place of what it does: the clock ticks, no more. -/
def Step.tick (operator : Address) (s : Step) : Step :=
  { s with action := .call (.clearDeallocationQueue operator [] []) }

/-- The scenario with ticks in place of the steps that are reported to have failed. -/
def Scenario.withTicks (s : Scenario) (operator : Address) (reports : List StepReport) : Scenario :=
  { s with steps := s.steps.zipWith (fun step t => if t.ok then step else step.tick operator) reports }

namespace Manager

variable {m m' : LocalManager} {failFast : Bool} {index : Nat} {s : Step} {t : StepReport}
  {steps : List Step} {reports : List StepReport}

/-- What a step answers once the clock is set, and the manager that it leaves. -/
def stepped (m : LocalManager) (s : Step) : Except Failure Reply × LocalManager :=
  ({ m with block := s.block } : LocalManager).act s.caller s.action

theorem playStep_eq_ok : m.playStep failFast index s = .ok (t, m') ↔ m.block ≤ s.block ∧
    t = ⟨index, s.block, s.action.name, (m.stepped s).1⟩ ∧ m' = (m.stepped s).2 ∧
      (failFast = false ∨ t.ok) := by
  rw [playStep, attempt_setBlock]
  by_cases hblock : s.block < m.block
  · rw [if_pos hblock]
    constructor
    · intro h
      cases h
    · intro h
      exact absurd hblock (UInt32.not_lt.2 h.1)
  · have hle : m.block ≤ s.block := UInt32.not_lt.1 hblock
    obtain ⟨outcome, m₁, hstepped⟩ : ∃ outcome m₁, m.stepped s = (outcome, m₁) := ⟨_, _, rfl⟩
    have hact : ({ m with block := s.block } : LocalManager).act s.caller s.action =
      (outcome, m₁) := hstepped
    rw [if_neg hblock, hstepped]
    dsimp only
    rw [hact]
    cases outcome with
    | ok r =>
      simp only [Except.ok.injEq, Prod.mk.injEq]
      constructor
      · rintro ⟨rfl, rfl⟩
        exact ⟨hle, rfl, rfl, .inr rfl⟩
      · rintro ⟨-, rfl, rfl, -⟩
        exact ⟨rfl, rfl⟩
    | error cause =>
      cases failFast with
      | false =>
        simp only [Except.ok.injEq, Prod.mk.injEq]
        constructor
        · rintro ⟨rfl, rfl⟩
          exact ⟨hle, rfl, rfl, .inl trivial⟩
        · rintro ⟨-, rfl, rfl, -⟩
          exact ⟨rfl, rfl⟩
      | true =>
        constructor
        · intro h
          cases h
        · rintro ⟨-, rfl, -, hok⟩
          cases hok.resolve_left (by decide)

theorem playSteps_cons_eq_ok : m.playSteps failFast index (s :: steps) = .ok (reports, m') ↔
    ∃ t m₁ ts, m.playStep failFast index s = .ok (t, m₁) ∧
      m₁.playSteps failFast (index + 1) steps = .ok (ts, m') ∧ reports = t :: ts := by
  rw [playSteps]
  cases hstep : m.playStep failFast index s with
  | error e =>
    constructor
    · intro h
      cases h
    · rintro ⟨_, _, _, heq, -⟩
      cases heq
  | ok x =>
    obtain ⟨t, m₁⟩ := x
    show (m₁.playSteps failFast (index + 1) steps >>= fun y =>
      Except.ok (t :: y.1, y.2)) = _ ↔ _
    cases hrest : m₁.playSteps failFast (index + 1) steps with
    | error e =>
      constructor
      · intro h
        cases h
      · rintro ⟨_, _, ts, heq, hrest', -⟩
        cases heq
        rw [hrest] at hrest'
        cases hrest'
    | ok y =>
      constructor
      · intro h
        cases h
        exact ⟨t, m₁, y.1, rfl, hrest, rfl⟩
      · rintro ⟨_, _, ts, heq, hrest', rfl⟩
        cases heq
        rw [hrest] at hrest'
        cases hrest'
        rfl

/-- Steps are played to their end just if no block lies before the one that comes before it. -/
theorem Playable.playSteps_succeed (h : Playable m) :
    (∃ x, m.playSteps false index steps = .ok x) ↔
      (m.block :: steps.map Step.block).IsChain (· ≤ ·) := by
  induction steps generalizing m index with
  | nil => exact ⟨fun _ => .singleton _, fun _ => ⟨_, rfl⟩⟩
  | cons s steps ih =>
    rw [List.map_cons, List.isChain_cons_cons]
    have hstep (hle : m.block ≤ s.block) :
        Playable (m.stepped s).2 ∧ (m.stepped s).2.block = s.block :=
      ⟨(h.clocked hle).act _ _, (h.clocked hle).block_act _ _⟩
    constructor
    · rintro ⟨⟨reports, m'⟩, hplay⟩
      obtain ⟨t, m₁, ts, hfirst, hrest, -⟩ := playSteps_cons_eq_ok.1 hplay
      obtain ⟨hle, -, rfl, -⟩ := playStep_eq_ok.1 hfirst
      obtain ⟨hplayable, hblock⟩ := hstep hle
      have hchain := (ih hplayable).1 ⟨_, hrest⟩
      rw [hblock] at hchain
      exact ⟨hle, hchain⟩
    · rintro ⟨hle, hchain⟩
      obtain ⟨hplayable, hblock⟩ := hstep hle
      rw [← hblock] at hchain
      obtain ⟨⟨ts, m'⟩, hrest⟩ :
          ∃ x, (m.stepped s).2.playSteps false (index + 1) steps = .ok x :=
        (ih hplayable).2 hchain
      exact ⟨_, playSteps_cons_eq_ok.2
        ⟨_, _, ts, playStep_eq_ok.2 ⟨hle, rfl, rfl, .inl rfl⟩, hrest, rfl⟩⟩

/-- Each step is reported in its turn. -/
theorem playSteps_reports (h : m.playSteps failFast index steps = .ok (reports, m')) :
    reports.map (fun t => (t.index, t.block, t.action)) =
      (steps.zipIdx index).map fun (s, i) => (i, s.block, s.action.name) := by
  induction steps generalizing m index reports with
  | nil =>
    cases h
    rfl
  | cons s steps ih =>
    obtain ⟨t, m₁, ts, hfirst, hrest, rfl⟩ := playSteps_cons_eq_ok.1 h
    obtain ⟨-, rfl, -, -⟩ := playStep_eq_ok.1 hfirst
    rw [List.map_cons, ih hrest, List.zipIdx_cons, List.map_cons]

/-- The first failure stops the steps, or there is none. -/
theorem playSteps_failFast : m.playSteps true index steps = .ok (reports, m') ↔
    m.playSteps false index steps = .ok (reports, m') ∧ ∀ t ∈ reports, t.ok := by
  induction steps generalizing m index reports with
  | nil =>
    refine ⟨fun h => ⟨h, ?_⟩, fun h => h.1⟩
    cases h
    exact List.forall_mem_nil _
  | cons s steps ih =>
    simp only [playSteps_cons_eq_ok, playStep_eq_ok, ih]
    constructor
    · rintro ⟨t, m₁, ts, ⟨hle, ht, hm₁, hok⟩, ⟨hrest, hoks⟩, rfl⟩
      exact ⟨⟨t, m₁, ts, ⟨hle, ht, hm₁, .inl trivial⟩, hrest, rfl⟩,
        List.forall_mem_cons.2 ⟨hok.resolve_left (by decide), hoks⟩⟩
    · rintro ⟨⟨t, m₁, ts, ⟨hle, ht, hm₁, -⟩, hrest, rfl⟩, hoks⟩
      obtain ⟨hok, hoks⟩ := List.forall_mem_cons.1 hoks
      exact ⟨t, m₁, ts, ⟨hle, ht, hm₁, .inr hok⟩, ⟨hrest, hoks⟩, rfl⟩

theorem stepped_recounted {m₁ : LocalManager} (hm : Recounted m m₁) (s : Step) :
    (m₁.stepped s).1 = (m.stepped s).1 ∧ Recounted (m.stepped s).2 (m₁.stepped s).2 := by
  obtain ⟨tally, rfl⟩ := hm
  have hclocked : Recounted { m with block := s.block } { m with block := s.block, tally } :=
    ⟨tally, rfl⟩
  exact act_recounted hclocked s.caller s.action

/-- A tick leaves what a step leaves that fails. -/
theorem Playable.stepped_tick {m₁ : LocalManager} (h : Playable m) (hm : Recounted m m₁)
    (hle : m.block ≤ s.block) {e : Failure} (hfails : (m.stepped s).1 = .error e)
    (operator : Address) : (m₁.stepped (s.tick operator)).1 = .ok (.cleared []) ∧
      Recounted (m.stepped s).2 (m₁.stepped (s.tick operator)).2 := by
  obtain ⟨tally, rfl⟩ := hm
  have hidle : ({ m with block := s.block, tally } : LocalManager).books.Idle := h.reachable.idle
  have htick : stepped { m with tally } (s.tick operator) =
    (.ok (.cleared []), { m with block := s.block, tally := tally.clearedEntries 0 }) :=
      act_clear_nothing hidle s.caller operator
  have hleft : (m.stepped s).2 = { m with block := s.block } := (h.clocked hle).act_error hfails
  rw [htick, hleft]
  exact ⟨rfl, _, rfl⟩

/-- Steps with ticks in place of those that fail lead to the same end, and none of them fails. -/
theorem Playable.playSteps_ticks {m₁ : LocalManager} (h : Playable m) (hm : Recounted m m₁)
    (operator : Address) (hplay : m.playSteps false index steps = .ok (reports, m')) :
    ∃ reports' m₁', m₁.playSteps false index
        (steps.zipWith (fun s t => if t.ok then s else s.tick operator) reports) =
          .ok (reports', m₁') ∧
      (∀ t ∈ reports', t.ok) ∧ Recounted m' m₁' := by
  induction steps generalizing m m₁ index reports with
  | nil =>
    cases hplay
    exact ⟨[], m₁, rfl, List.forall_mem_nil _, hm⟩
  | cons s steps ih =>
    obtain ⟨t, m₂, ts, hfirst, hrest, rfl⟩ := playSteps_cons_eq_ok.1 hplay
    obtain ⟨hle, rfl, rfl, -⟩ := playStep_eq_ok.1 hfirst
    have hblock : m₁.block = m.block := by
      obtain ⟨tally, rfl⟩ := hm
      rfl
    -- the step that is played in its place, its answer and what it leaves
    obtain ⟨played, hplayed, hat, hok, hafter⟩ : ∃ played,
        (if StepReport.ok ⟨index, s.block, s.action.name, (m.stepped s).1⟩ then s
          else s.tick operator) = played ∧ played.block = s.block ∧
        (m₁.stepped played).1.isOk ∧ Recounted (m.stepped s).2 (m₁.stepped played).2 := by
      cases hact : (m.stepped s).1 with
      | ok r =>
        obtain ⟨hsame, hafter⟩ := stepped_recounted hm s
        exact ⟨s, if_pos rfl, rfl, by rw [hsame, hact]; rfl, hafter⟩
      | error e =>
        obtain ⟨hcleared, hafter⟩ := h.stepped_tick hm hle hact operator
        exact ⟨s.tick operator, if_neg Bool.false_ne_true, rfl, by rw [hcleared]; rfl, hafter⟩
    obtain ⟨ts', m₁', hrest', hoks, hend⟩ := ih ((h.clocked hle).act _ _) hafter hrest
    rw [List.zipWith_cons_cons, hplayed]
    refine ⟨_, m₁', playSteps_cons_eq_ok.2 ⟨_, _, ts', playStep_eq_ok.2 ⟨?_, rfl, rfl, .inl rfl⟩,
      hrest', rfl⟩, List.forall_mem_cons.2 ⟨hok, hoks⟩, hend⟩
    rw [hblock, hat]
    exact hle

theorem play_eq_ok {config : Config} {s : Scenario} {withEvents : Bool} {r : Report} :
    play config s failFast withEvents = .ok (r, m) ↔
      (opened config s.operators).playSteps failFast 0 s.steps = .ok (r.steps, m) ∧
        r.finalBlock = m.block ∧ r.accounts = s.report.map m.accountReport ∧
        r.events = if withEvents then some m.books.log.committed.toList else none := by
  unfold play
  cases hplay : (opened config s.operators).playSteps failFast 0 s.steps with
  | error e =>
    constructor
    · intro h
      cases h
    · rintro ⟨h, -⟩
      cases h
  | ok x =>
    obtain ⟨steps, m₁⟩ := x
    constructor
    · intro h
      cases h
      exact ⟨rfl, rfl, rfl, rfl⟩
    · rintro ⟨h, hblock, haccounts, hevents⟩
      cases h
      cases r
      cases hblock
      cases haccounts
      cases hevents
      rfl

theorem play_succeeds (config : Config) (s : Scenario) (withEvents : Bool) :
    (∃ x, play config s false withEvents = .ok x) ↔
      ∀ i, (h : i + 1 < s.steps.length) → s.steps[i].block ≤ s.steps[i + 1].block := by
  have hsteps : (∃ x, play config s false withEvents = .ok x) ↔
      ∃ x, (opened config s.operators).playSteps false 0 s.steps = .ok x := by
    constructor
    · rintro ⟨⟨r, m⟩, h⟩
      exact ⟨_, (play_eq_ok.1 h).1⟩
    · rintro ⟨⟨steps, m⟩, h⟩
      exact ⟨(⟨m.block, steps, _, _⟩, m), play_eq_ok.2 ⟨h, rfl, rfl, rfl⟩⟩
  have hstart : (opened config s.operators).block = 0 := rfl
  rw [hsteps, (playable_opened config s.operators).playSteps_succeed, hstart, List.isChain_cons,
    List.isChain_iff_getElem]
  simp only [List.getElem_map, List.length_map]
  exact ⟨fun h => h.2, fun h => ⟨fun _ _ => UInt32.zero_le, h⟩⟩

theorem accountReport_recounted (hm : Recounted m m') : m'.accountReport = m.accountReport := by
  have hblock : m'.block = m.block := by
    obtain ⟨tally, rfl⟩ := hm
    rfl
  have hsame : Books.SameAt (fun _ => True) m.books m'.books := by
    obtain ⟨tally, rfl⟩ := hm
    exact .refl _ _
  funext a
  have hallocatable : m'.allocatableMagnitude a = m.allocatableMagnitude a :=
    allocatableMagnitude_eq hblock hsame trivial fun _ => trivial
  unfold accountReport
  rw [hallocatable]
  obtain ⟨tally, rfl⟩ := hm
  rfl

/-- A scenario is played to its end unless a block in it lies before the last one, and reports on each
step. Its end is that of the same scenario with ticks in place of the steps that failed. To stop at
the first failure gives the same report where there is none, and nothing else. -/
theorem playing_isolates_failures (config : Config) (s : Scenario) (withEvents : Bool) :
    ((∃ abort, play config s false withEvents = .error abort) ↔
        ∃ i, ∃ h : i + 1 < s.steps.length, s.steps[i + 1].block < s.steps[i].block) ∧
      (∀ r m, play config s false withEvents = .ok (r, m) →
        r.steps.map (fun t => (t.index, t.block, t.action)) =
            (s.steps.zipIdx).map (fun (s, i) => (i, s.block, s.action.name)) ∧
          ∀ operator, ∃ r' m', play config (s.withTicks operator r.steps) false withEvents =
              .ok (r', m') ∧
            r'.failedSteps = 0 ∧ r'.finalBlock = r.finalBlock ∧ r'.accounts = r.accounts ∧
            r'.events = r.events) ∧
      ∀ r m, play config s true withEvents = .ok (r, m) ↔
        play config s false withEvents = .ok (r, m) ∧ r.failedSteps = 0 := by
  refine ⟨?_, fun r m hplay => ⟨playSteps_reports (play_eq_ok.1 hplay).1, fun operator => ?_⟩,
    fun r m => ?_⟩
  · have hsucceeds := play_succeeds config s withEvents
    constructor
    · rintro ⟨abort, herror⟩
      by_contra hchain
      obtain ⟨x, hok⟩ := hsucceeds.2 fun i h => UInt32.not_lt.1 fun hlt => hchain ⟨i, h, hlt⟩
      rw [herror] at hok
      cases hok
    · rintro ⟨i, h, hlt⟩
      cases hplay : play config s false withEvents with
      | error abort => exact ⟨abort, rfl⟩
      | ok x => exact absurd (hsucceeds.1 ⟨x, hplay⟩ i h) (UInt32.not_le.2 hlt)
  · obtain ⟨hsteps, hblock, haccounts, hevents⟩ := play_eq_ok.1 hplay
    obtain ⟨reports', m', hsteps', hoks, hend⟩ :=
      (playable_opened config s.operators).playSteps_ticks ⟨_, rfl⟩ operator hsteps
    have haccounts' : r.accounts = s.report.map m'.accountReport := by
      rw [accountReport_recounted hend, haccounts]
    obtain ⟨tally, rfl⟩ := hend
    refine ⟨⟨r.finalBlock, reports', r.accounts, r.events⟩, _,
      play_eq_ok.2 ⟨hsteps', hblock, haccounts', hevents⟩, ?_, rfl, rfl, rfl⟩
    rw [Report.failedSteps, List.countP_eq_zero]
    intro t ht
    simp [hoks t ht]
  · rw [play_eq_ok, play_eq_ok, playSteps_failFast, Report.failedSteps, List.countP_eq_zero]
    simp only [Bool.not_eq_true', Bool.not_eq_false]
    tauto

end Manager

/-- A small scenario, in which the AVS asks for an allocation that is the operator's to ask for. -/
def Sample.stumbling : Scenario where
  config := none
  operators := [⟨operator, [⟨position.strategy, 1000000000000000000⟩]⟩]
  steps :=
    [⟨0, operator, .call (.setAllocationDelay operator 2)⟩,
      ⟨0, avs, .call (.createOperatorSets avs [⟨1, [position.strategy]⟩])⟩,
      ⟨0, operator, .call (.registerForOperatorSets operator ⟨avs, [1], []⟩)⟩,
      ⟨5, avs, .call (.modifyAllocations operator [⟨position.set, [position.strategy], [500]⟩])⟩,
      ⟨6, operator, .call (.modifyAllocations operator [⟨position.set, [position.strategy], [600]⟩])⟩]
  report := [position.account]

theorem Manager.playing_isolates_failures_stumbling : ∃ r m,
    play Sample.config Sample.stumbling false true = .ok (r, m) ∧ r.failedSteps = 1 ∧
      ∃ r' m', play Sample.config (Sample.stumbling.withTicks Sample.operator r.steps) false true =
        .ok (r', m') ∧ r'.failedSteps = 0 ∧ r'.finalBlock = 6 ∧ r'.accounts = r.accounts ∧
        r'.events = r.events := by
  have hreport : (play Sample.config Sample.stumbling false true).toOption.map
      (fun x => (x.1.failedSteps, x.1.finalBlock)) = some (1, 6) := by decide +kernel
  cases hplay : play Sample.config Sample.stumbling false true with
  | error abort =>
    rw [hplay] at hreport
    cases hreport
  | ok x =>
    obtain ⟨r, m⟩ := x
    rw [hplay] at hreport
    obtain ⟨hfailed, hblock⟩ := Prod.ext_iff.1 (Option.some.inj hreport)
    obtain ⟨-, hticks⟩ :=
      (playing_isolates_failures Sample.config Sample.stumbling true).2.1 r m hplay
    obtain ⟨r', m', hplay', hnone, hfinal, haccounts, hevents⟩ := hticks Sample.operator
    exact ⟨r, m, rfl, hfailed, r', m', hplay', hnone, hfinal.trans hblock, haccounts, hevents⟩

end Restake
