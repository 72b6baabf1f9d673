import Restake.Proofs.Matching

/-!
Managers side by side whose collaborators are alike in some respect and whose books are related. A
call agrees on the two as soon as its bookkeeping agrees on the books and the hooks that it calls
agree on the collaborators; the number that a slash gets may differ.
-/
namespace Restake

open Steps

theorem Steps.Agree.bind_of_map {ε σ α β γ : Type} {R : σ → σ → Prop} {x y : EStateM ε σ α}
    {f g : α → EStateM ε σ β} {k : α → γ} {M : γ → σ → σ → Prop} {Q : β → σ → σ → Prop}
    {E : σ → σ → Prop} (h : Agree R (k <$> x) (k <$> y) M E)
    (hfg : ∀ a a', k a' = k a → Agree (M (k a)) (f a) (g a') Q E) :
    Agree R (x >>= f) (y >>= g) Q E := by
  intro s s' hs
  have hends := h s s' hs
  rw [map_apply, map_apply] at hends
  rw [bind_apply, bind_apply]
  cases hx : x s with
  | ok a t =>
    cases hy : y s' with
    | ok a' t' =>
      rw [hx, hy] at hends
      exact hfg a a' hends.1 t t' hends.2
    | error e' t' =>
      rw [hx, hy] at hends
      exact hends.elim
  | error e t =>
    cases hy : y s' with
    | ok a' t' =>
      rw [hx, hy] at hends
      exact hends.elim
    | error e' t' =>
      rw [hx, hy] at hends
      exact hends

/-- On related states the step answers the same, or it fails for the same reason, and either way it
leaves related states. -/
def Steps.Respects {ε σ α : Type} (R : σ → σ → Prop) (x : EStateM ε σ α) : Prop :=
  Agree R x x (fun _ => R) R

theorem Steps.respects_eq {ε σ α : Type} (x : EStateM ε σ α) : Respects (· = ·) x := by
  rintro s _ rfl
  cases x s with
  | ok a t => exact ⟨rfl, rfl⟩
  | error e t => exact ⟨rfl, rfl⟩

/-- The outcome of a slash but for its number. -/
def SlashOutcome.unnumbered (o : SlashOutcome) : SlashOutcome := { o with id := 0 }

def Reply.unnumbered : Reply → Reply
  | .slashed outcome => .slashed outcome.unnumbered
  | reply => reply

/-- On related books the step answers the same, or it fails for the same reason, and it leaves
related books if it goes through. -/
def Books.Respects {α : Type} (R : Books → Books → Prop) (x : Bookkeeping α) : Prop :=
  Agree R x x (fun _ => R) fun _ _ => True

/-- Books stay related as a checkpoint is opened or committed, and whatever events are left. -/
structure Books.Bracketed (R : Books → Books → Prop) : Prop where
  checkpoint : ∀ {b b'}, R b b' → R b.checkpoint b'.checkpoint
  commit : ∀ {b b'}, R b b' → R b.commit b'.commit
  emit : ∀ {b b'} e e', R b b' → R (b.emit e) (b'.emit e')

theorem Books.bracketed_matched {config : Config} {block : BlockNumber} :
    Bracketed (Matched config block) where
  checkpoint h := h.of_reads (sameReads_checkpoint _) (sameReads_checkpoint _) rfl rfl
  commit h := h.of_reads (sameReads_commit _) (sameReads_commit _) rfl rfl
  emit _ _ h := h.of_reads ⟨⟨rfl, rfl, rfl, rfl⟩, ⟨rfl, rfl, rfl, rfl⟩⟩
    ⟨⟨rfl, rfl, rfl, rfl⟩, ⟨rfl, rfl, rfl, rfl⟩⟩ rfl rfl

namespace Manager

open Books

variable {δ ρ π α β : Type} {D : δ → δ → Prop} {G : ρ → ρ → Prop} {R : Books → Books → Prop}
variable {config : Config} {block : BlockNumber} {m m' : Manager δ ρ π}

/-- Two managers under the same terms, with related ledgers and registrars. -/
structure Alongside (D : δ → δ → Prop) (G : ρ → ρ → Prop) (m m' : Manager δ ρ π) : Prop where
  config : m'.config = m.config
  block : m'.block = m.block
  delegation : D m.delegation m'.delegation
  registrar : G m.registrar m'.registrar
  permissions : m'.permissions = m.permissions

/-- Two managers side by side, at one block, with their books related as well. -/
def Abreast (D : δ → δ → Prop) (G : ρ → ρ → Prop) (R : Books → Books → Prop) (config : Config)
    (block : BlockNumber) (m m' : Manager δ ρ π) : Prop :=
  m.config = config ∧ m.block = block ∧ Alongside D G m m' ∧ R m.books m'.books

/-- The step agrees on managers that are abreast, and leaves them abreast if it goes through. -/
def Steady (D : δ → δ → Prop) (G : ρ → ρ → Prop) (R : Books → Books → Prop) (config : Config)
    (block : BlockNumber) (x : Managing δ ρ π α) : Prop :=
  Agree (Abreast D G R config block) x x (fun _ => Abreast D G R config block) (Alongside D G)

namespace Steady

theorem pure (a : α) : Steady D G R config block (pure a : Managing δ ρ π α) :=
  Agree.pure fun _ _ h => h

theorem bind {x : Managing δ ρ π α} {f : α → Managing δ ρ π β} (hx : Steady D G R config block x)
    (hf : ∀ a, Steady D G R config block (f a)) : Steady D G R config block (x >>= f) :=
  Agree.bind hx hf

section Rules

theorem onBooks {x y : Bookkeeping α} (h : Agree R x y (fun _ => R) fun _ _ => True) :
    Agree (Abreast D G R config block) (onBooks x : Managing δ ρ π α) (onBooks y)
      (fun _ => Abreast D G R config block) (Alongside D G) := by
  intro m m' hm
  rcases hm with ⟨hconfig, hblock, hsame, hbooks⟩
  unfold Manager.onBooks
  rcases (h m.books m'.books hbooks).cases with ⟨a, b, b', hx, hy, hend⟩ | ⟨e, b, b', hx, hy, -⟩
  · rw [hx, hy]
    exact ⟨rfl, hconfig, hblock, { hsame with }, hend⟩
  · rw [hx, hy]
    exact ⟨rfl, { hsame with }⟩

theorem onDelegation {step : EStateM DelegationFailure δ α} (h : Respects D step) :
    Steady D G R config block (onDelegation step : Managing δ ρ π α) := by
  intro m m' hm
  rcases hm with ⟨hconfig, hblock, hsame, hbooks⟩
  unfold Manager.onDelegation
  rcases (h _ _ hsame.delegation).cases with ⟨a, d, d', hx, hy, hend⟩ | ⟨e, d, d', hx, hy, hend⟩
  · rw [hx, hy]
    exact ⟨rfl, hconfig, hblock, { hsame with delegation := hend }, hbooks⟩
  · rw [hx, hy]
    exact ⟨rfl, { hsame with delegation := hend }⟩

theorem onRegistrar {step : EStateM RegistrarFailure ρ α} (h : Respects G step) :
    Steady D G R config block (onRegistrar step : Managing δ ρ π α) := by
  intro m m' hm
  rcases hm with ⟨hconfig, hblock, hsame, hbooks⟩
  unfold Manager.onRegistrar
  rcases (h _ _ hsame.registrar).cases with ⟨a, r, r', hx, hy, hend⟩ | ⟨e, r, r', hx, hy, hend⟩
  · rw [hx, hy]
    exact ⟨rfl, hconfig, hblock, { hsame with registrar := hend }, hbooks⟩
  · rw [hx, hy]
    exact ⟨rfl, { hsame with registrar := hend }⟩

theorem tolerating {hook : EStateM RegistrarFailure ρ Unit} (h : Respects G hook) :
    Steady D G R config block (tolerating hook : Managing δ ρ π Unit) := by
  intro m m' hm
  rcases hm with ⟨hconfig, hblock, hsame, hbooks⟩
  unfold Manager.tolerating
  rcases (h _ _ hsame.registrar).cases with ⟨a, r, r', hx, hy, hend⟩ | ⟨e, r, r', hx, hy, hend⟩
  · rw [hx, hy]
    exact ⟨rfl, hconfig, hblock, { hsame with registrar := hend }, hbooks⟩
  · rw [hx, hy]
    exact ⟨rfl, hconfig, hblock, { hsame with registrar := hend }, hbooks⟩

theorem count (f : Tally → Tally) : Steady D G R config block (count f : Managing δ ρ π Unit) := by
  apply Agree.modify
  intro m m' hm
  rcases hm with ⟨hconfig, hblock, hsame, hbooks⟩
  exact ⟨hconfig, hblock, { hsame with }, hbooks⟩

theorem mayCall_eq [PermissionController π] (h : Alongside D G m m') (principal caller : Address)
    (e : Entrypoint) : m'.mayCall principal caller e = m.mayCall principal caller e := by
  rw [mayCall, mayCall, h.permissions]

theorem requireCaller [PermissionController π] (principal caller : Address) (e : Entrypoint) :
    Steady D G R config block (requireCaller principal caller e : Managing δ ρ π Unit) := by
  apply Agree.read_bind
  intro m m' hm
  rcases hm with ⟨-, -, hsame, -⟩
  rw [mayCall_eq hsame]
  exact Agree.ite (fun _ => Agree.pure fun _ _ h => h) fun _ => Agree.throw fun _ _ h => h.2.2.1

theorem requireOperator [DelegationLedger δ] {operator : Address}
    (h : ∀ d d', D d d' →
      DelegationLedger.isOperator d' operator = DelegationLedger.isOperator d operator) :
    Steady D G R config block (requireOperator operator : Managing δ ρ π Unit) := by
  apply Agree.read_bind
  intro m m' hm
  rcases hm with ⟨-, -, hsame, -⟩
  rw [h _ _ hsame.delegation]
  exact Agree.ite (fun _ => Agree.pure fun _ _ h => h) fun _ => Agree.throw fun _ _ h => h.2.2.1

theorem atomically (hR : Bracketed R) {x : Managing δ ρ π α} (h : Steady D G R config block x) :
    Steady D G R config block (atomically x) := by
  intro m m' hm
  rcases hm with ⟨hconfig, hblock, hsame, hbooks⟩
  have hstart : Abreast D G R config block { m with books := m.books.checkpoint }
      { m' with books := m'.books.checkpoint } :=
    ⟨hconfig, hblock, { hsame with }, hR.checkpoint hbooks⟩
  unfold Manager.atomically
  rcases (h _ _ hstart).cases with
    ⟨a, t, t', hx, hy, hconfig, hblock, hsame, hbooks⟩ | ⟨e, t, t', hx, hy, hsame⟩
  · rw [hx, hy]
    exact ⟨rfl, hconfig, hblock, { hsame with }, hR.commit hbooks⟩
  · rw [hx, hy]
    exact ⟨rfl, { hsame with }⟩

end Rules

end Steady

theorem map_atomically (k : α → β) (x : Managing δ ρ π α) :
    k <$> atomically x = atomically (k <$> x) := by
  funext m
  rw [map_apply, atomically, atomically, map_apply]
  cases x { m with books := m.books.checkpoint } <;> rfl

theorem map_onBooks (k : α → β) (step : Bookkeeping α) :
    (k <$> onBooks step : Managing δ ρ π β) = onBooks (k <$> step) := by
  funext m
  rw [map_apply, onBooks, onBooks, map_apply]
  cases step m.books <;> rfl

namespace Steady

section Calls

variable [PermissionController π] (hR : Bracketed R) (caller : Address)
include hR

theorem setAllocationDelay [DelegationLedger δ] {operator : Address} {delay : BlockNumber}
    (hoperator : ∀ d d', D d d' →
      DelegationLedger.isOperator d' operator = DelegationLedger.isOperator d operator)
    (h : Books.Respects R (requestDelay config.configurationDelay operator delay block)) :
    Steady D G R config block
      (setAllocationDelay caller operator delay : Managing δ ρ π DelaySetting) := by
  refine (requireCaller _ _ _).bind fun _ => (requireOperator hoperator).bind fun _ =>
    Agree.read_bind ?_
  intro m m' hm
  rcases hm with ⟨rfl, rfl, hsame, -⟩
  rw [hsame.config, hsame.block]
  exact atomically hR (onBooks h)

theorem modifyAllocations {operator : Address} {requests : List AllocateRequest}
    (h : Books.Respects R (Books.modifyAllocations config block operator requests)) :
    Steady D G R config block
      (modifyAllocations caller operator requests : Managing δ ρ π Unit) := by
  refine (requireCaller _ _ _).bind fun _ => Agree.read_bind ?_
  intro m m' hm
  rcases hm with ⟨rfl, rfl, hsame, -⟩
  rw [hsame.config, hsame.block]
  exact (atomically hR (onBooks h)).bind fun _ => count _

omit [PermissionController π] in
theorem clearDeallocationQueue {operator : Address} {strategies : List Address}
    {limits : List UInt64}
    (h : ∀ x limit, Books.Respects R (clearMatured ⟨operator, x⟩ limit block)) :
    Steady D G R config block
      (clearDeallocationQueue operator strategies limits : Managing δ ρ π (List Nat)) := by
  refine Agree.ite (fun _ => Agree.read_bind ?_) fun _ => Agree.throw_bind fun _ _ h => h.2.2.1
  intro m m' hm
  rcases hm with ⟨rfl, rfl, hsame, -⟩
  have hclear : Books.Respects R ((strategies.zip limits).mapM fun x =>
      clearMatured ⟨operator, x.1⟩ x.2.toNat m.block) := Agree.mapM fun x _ => h x.1 x.2.toNat
  dsimp only
  rw [hsame.block]
  exact (atomically hR (onBooks hclear)).bind fun _ => (count _).bind fun _ => pure _

theorem registerForOperatorSets [DelegationLedger δ] [SetRegistrar ρ] {operator : Address}
    {r : RegisterRequest}
    (hoperator : ∀ d d', D d d' →
      DelegationLedger.isOperator d' operator = DelegationLedger.isOperator d operator)
    (h : ∀ id ∈ r.ids, Books.Respects R (Books.register ⟨operator, ⟨r.avs, id⟩⟩))
    (hhook : Steps.Respects G (SetRegistrar.register operator r.avs r.ids r.data)) :
    Steady D G R config block
      (registerForOperatorSets caller operator r : Managing δ ρ π Unit) := by
  refine (requireCaller _ _ _).bind fun _ => (requireOperator hoperator).bind fun _ =>
    (atomically hR ?_).bind fun _ => count _
  exact (onBooks (Agree.forM h)).bind fun _ => onRegistrar hhook

theorem deregisterFromOperatorSets [SetRegistrar ρ] {r : DeregisterRequest}
    (h : ∀ id ∈ r.ids, ∀ slashableUntil,
      Books.Respects R (Books.deregister slashableUntil ⟨r.operator, ⟨r.avs, id⟩⟩))
    (hhook : Steps.Respects G (SetRegistrar.deregister r.operator r.avs r.ids)) :
    Steady D G R config block (deregisterFromOperatorSets caller r : Managing δ ρ π Unit) := by
  apply Agree.read_bind
  intro m m' hm
  rcases hm with ⟨rfl, rfl, hsame, -⟩
  have hwork : Steady D G R m.config m.block (do
      let slashableUntil ← Manager.onBooks (effectAfter m.block m.config.deallocationDelay)
      Manager.atomically (Manager.onBooks
        (r.ids.forM fun id => Books.deregister slashableUntil ⟨r.operator, ⟨r.avs, id⟩⟩))
      Manager.count (·.deregistered r.ids.length)
      Manager.tolerating (SetRegistrar.deregister r.operator r.avs r.ids) :
        Managing δ ρ π Unit) := by
    refine (onBooks ((agree_effectAfter _).weaken (fun _ _ h => h) (fun _ _ _ h => h.2)
      fun _ _ h => h)).bind fun slashableUntil => ?_
    refine (atomically hR (onBooks (Agree.forM fun id hid => h id hid slashableUntil))).bind
      fun _ => ?_
    exact (count _).bind fun _ => tolerating hhook
  rw [mayCall_eq hsame, hsame.config, hsame.block]
  exact Agree.ite (fun _ => hwork) fun _ => (requireCaller _ _ _).bind fun _ => hwork

theorem createOperatorSets {avs : Address} {sets : List CreateSetRequest}
    (h : ∀ r ∈ sets,
      Books.Respects R (createSet ⟨avs, r.id⟩ config.maxSetStrategies r.strategies)) :
    Steady D G R config block (createOperatorSets caller avs sets : Managing δ ρ π Unit) := by
  refine (requireCaller _ _ _).bind fun _ => Agree.read_bind ?_
  intro m m' hm
  rcases hm with ⟨rfl, rfl, hsame, -⟩
  rw [hsame.config]
  exact atomically hR (onBooks (Agree.forM h))

theorem addStrategies {avs : Address} {id : UInt32} {strategies : List Address}
    (h : Books.Respects R (Books.addStrategies ⟨avs, id⟩ config.maxSetStrategies strategies)) :
    Steady D G R config block (addStrategies caller avs id strategies : Managing δ ρ π Unit) := by
  refine (requireCaller _ _ _).bind fun _ => Agree.read_bind ?_
  intro m m' hm
  rcases hm with ⟨rfl, rfl, hsame, -⟩
  rw [hsame.config]
  exact atomically hR (onBooks h)

theorem removeStrategies {avs : Address} {id : UInt32} {strategies : List Address}
    (h : Books.Respects R (Books.removeStrategies ⟨avs, id⟩ strategies)) :
    Steady D G R config block (removeStrategies caller avs id strategies : Managing δ ρ π Unit) :=
  (requireCaller _ _ _).bind fun _ => atomically hR (onBooks h)

omit hR [PermissionController π] in
theorem slashLeg [DelegationLedger δ] {p : Position} {w : UInt64}
    (hcut : Books.Respects R (cut p w block))
    (hburn : ∀ before after,
      Steps.Respects D (DelegationLedger.slashShares p.account before after)) :
    Steady D G R config block (slashLeg p w : Managing δ ρ π (Option SlashLeg)) := by
  apply Agree.read_bind
  intro m m' hm
  rcases hm with ⟨rfl, rfl, hsame, -⟩
  rw [hsame.block]
  refine (onBooks hcut).bind fun cut => ?_
  cases cut with
  | none => exact pure _
  | some cut => exact (onDelegation (hburn _ _)).bind fun _ => pure _

theorem slashOperator [DelegationLedger δ] {avs : Address} {r : SlashRequest}
    (hcheck : ∀ b b', R b b' →
      b'.checkSlash ⟨avs, r.setId⟩ r block = b.checkSlash ⟨avs, r.setId⟩ r block)
    (hcount : ∀ b b', R b b' →
      R (b.slashCounted ⟨avs, r.setId⟩) (b'.slashCounted ⟨avs, r.setId⟩))
    (hcut : ∀ x w, Books.Respects R (cut ⟨⟨r.operator, ⟨avs, r.setId⟩⟩, x⟩ w block))
    (hburn : ∀ x before after,
      Steps.Respects D (DelegationLedger.slashShares ⟨r.operator, x⟩ before after)) :
    Steady D G R config block
      (SlashOutcome.unnumbered <$> slashOperator caller avs r : Managing δ ρ π SlashOutcome) := by
  unfold Manager.slashOperator
  rw [map_bind]
  refine (requireCaller _ _ _).bind fun _ => ?_
  dsimp only
  rw [map_bind]
  refine Agree.bind_of_map (k := SlashOutcome.unnumbered) (M := fun _ => Abreast D G R config block)
    ?_ fun outcome outcome' heq => ?_
  · rw [map_atomically]
    refine atomically hR ?_
    simp only [map_bind, map_pure]
    apply Agree.read_bind
    intro m m' hm
    rcases hm with ⟨rfl, rfl, hsame, hbooks⟩
    rw [hsame.block, hcheck _ _ hbooks]
    refine Agree.bind (Agree.ofExcept (fun _ _ _ _ h => h) fun _ _ h => h.2.2.1) fun _ => ?_
    -- the two may get different numbers, which are in the event and in the outcome only
    refine Agree.bind_of_map (k := fun _ => ()) (M := fun _ => Abreast D G R m.config m.block)
      ?_ fun id id' _ => ?_
    · rw [map_onBooks]
      refine onBooks fun b b' h => ?_
      exact ⟨rfl, hcount b b' h⟩
    · refine Agree.bind (Agree.mapM fun x _ => slashLeg (hcut x.1 x.2) (hburn x.1)) fun legs => ?_
      refine Agree.bind (M := fun _ => Abreast D G R m.config m.block) (onBooks ?_) fun _ =>
        Agree.pure fun _ _ h => h
      exact Agree.modify fun _ _ h => hR.emit _ _ h
  · obtain ⟨id, legs⟩ := outcome
    obtain ⟨id', legs'⟩ := outcome'
    obtain rfl : legs' = legs := congrArg SlashOutcome.legs heq
    simp only [map_bind, map_pure]
    exact Agree.bind (count _) fun _ => Agree.pure fun _ _ h => h

end Calls

end Steady

/-- A call that is steady but for what `k` leaves out of its reply is answered alike by two managers
between calls, and leaves them abreast: where it fails, both keep their books. -/
theorem Abreast.after_call [DelegationLedger δ] [SetRegistrar ρ] [PermissionController π]
    {k : Reply → α} {caller : Address} {c : Call} (hidle : m.books.Idle) (hidle' : m'.books.Idle)
    (hm : Abreast D G R config block m m')
    (h : Steady D G R config block (k <$> perform caller c : Managing δ ρ π α)) :
    (m'.attempt (perform caller c)).1.map k = (m.attempt (perform caller c)).1.map k ∧
      Abreast D G R config block (m.after (.call caller c)) (m'.after (.call caller c)) := by
  have hafter : m.after (.call caller c) = (m.attempt (perform caller c)).2 := rfl
  have hafter' : m'.after (.call caller c) = (m'.attempt (perform caller c)).2 := rfl
  have hperform := leads_perform hidle caller c m rfl
  have hperform' := leads_perform hidle' caller c m' rfl
  have hends := h m m' hm
  rw [map_apply, map_apply] at hends
  rw [hafter, hafter']
  unfold attempt
  cases hx : perform caller c m with
  | ok r t =>
    cases hy : perform caller c m' with
    | ok r' t' =>
      rw [hx, hy] at hends
      exact ⟨congrArg Except.ok hends.1, hends.2⟩
    | error e' t' =>
      rw [hx, hy] at hends
      exact hends.elim
  | error e t =>
    cases hy : perform caller c m' with
    | ok r' t' =>
      rw [hx, hy] at hends
      exact hends.elim
    | error e' t' =>
      rw [hx] at hends hperform
      rw [hy] at hends hperform'
      obtain ⟨delegation, registrar, rfl⟩ := hperform
      obtain ⟨delegation', registrar', rfl⟩ := hperform'
      obtain ⟨hconfig, hblock, -, hbooks⟩ := hm
      exact ⟨congrArg Except.error hends.1, hconfig, hblock, hends.2, hbooks⟩

end Manager

end Restake
