import Restake.Proofs.Runs

/-!
What a call does to the collaborators. It reaches them through their hooks alone: a slash has shares
burnt, and a change of membership is told to the registrar. What holds of the ledger and the
registrar and the hooks of a call keep, the call keeps, whether it goes through or not.
-/
namespace Restake.Manager

open Steps

variable {δ ρ π α β : Type} {C : δ → ρ → Prop}

/-- Whether the step goes through or not, it keeps what holds of the collaborators. -/
def Keeps (C : δ → ρ → Prop) (x : Managing δ ρ π α) : Prop :=
  Leads (fun m => C m.delegation m.registrar) x (fun _ m => C m.delegation m.registrar)
    fun m => C m.delegation m.registrar

namespace Keeps

variable {x : Managing δ ρ π α} {f : α → Managing δ ρ π β}

theorem pure (a : α) : Keeps C (pure a : Managing δ ρ π α) := Leads.pure fun _ h => h

theorem throw (e : Failure) : Keeps C (throw e : Managing δ ρ π α) := Leads.throw fun _ h => h

theorem bind (hx : Keeps C x) (hf : ∀ a, Keeps C (f a)) : Keeps C (x >>= f) := Leads.bind hx hf

theorem throw_bind (e : Failure) (f : α → Managing δ ρ π β) :
    Keeps C ((MonadExcept.throw e : Managing δ ρ π α) >>= f) :=
  Leads.throw_bind fun _ h => h

theorem map {g : α → β} (hx : Keeps C x) : Keeps C (g <$> x) := Leads.map hx

theorem read_bind {f : Manager δ ρ π → Managing δ ρ π β} (hf : ∀ m, Keeps C (f m)) :
    Keeps C (get >>= f) :=
  Leads.read_bind hf

theorem ite {c : Prop} [Decidable c] {y : Managing δ ρ π α} (hx : Keeps C x) (hy : Keeps C y) :
    Keeps C (if c then x else y) :=
  Leads.ite (fun _ => hx) fun _ => hy

theorem ofExcept (y : Except Failure α) :
    Keeps C (MonadExcept.ofExcept y : Managing δ ρ π α) :=
  Leads.ofExcept (fun _ _ h _ => h) fun _ h => h

theorem onBooks (step : Bookkeeping α) : Keeps C (onBooks step : Managing δ ρ π α) := by
  intro m hm
  unfold Manager.onBooks
  cases step m.books <;> exact hm

theorem onDelegation {step : EStateM DelegationFailure δ α}
    (h : ∀ g, Leads (C · g) step (fun _ d => C d g) (C · g)) :
    Keeps C (onDelegation step : Managing δ ρ π α) := by
  intro m hm
  have hends := h m.registrar m.delegation hm
  unfold Manager.onDelegation
  cases hstep : step m.delegation <;> rw [hstep] at hends <;> exact hends

theorem onRegistrar {step : EStateM RegistrarFailure ρ α}
    (h : ∀ d, Leads (C d) step (fun _ => C d) (C d)) :
    Keeps C (onRegistrar step : Managing δ ρ π α) := by
  intro m hm
  have hends := h m.delegation m.registrar hm
  unfold Manager.onRegistrar
  cases hstep : step m.registrar <;> rw [hstep] at hends <;> exact hends

theorem tolerating {hook : EStateM RegistrarFailure ρ Unit}
    (h : ∀ d, Leads (C d) hook (fun _ => C d) (C d)) :
    Keeps C (tolerating hook : Managing δ ρ π Unit) := by
  intro m hm
  have hends := h m.delegation m.registrar hm
  unfold Manager.tolerating
  cases hhook : hook m.registrar <;> rw [hhook] at hends <;> exact hends

theorem count (g : Tally → Tally) : Keeps C (count g : Managing δ ρ π Unit) :=
  Leads.modify fun _ h => h

theorem atomically (hx : Keeps C x) : Keeps C (atomically x) := by
  intro m hm
  have hends := hx { m with books := m.books.checkpoint } hm
  unfold Manager.atomically
  cases hrun : x { m with books := m.books.checkpoint } <;> rw [hrun] at hends <;> exact hends

theorem requireCaller [PermissionController π] (principal caller : Address) (e : Entrypoint) :
    Keeps C (requireCaller principal caller e : Managing δ ρ π Unit) :=
  .read_bind fun _ => .ite (.pure _) (.throw _)

theorem requireOperator [DelegationLedger δ] (operator : Address) :
    Keeps C (requireOperator operator : Managing δ ρ π Unit) :=
  .read_bind fun _ => .ite (.pure _) (.throw _)

theorem slashOperator [DelegationLedger δ] [PermissionController π] {r : SlashRequest}
    (h : ∀ x before after g, Leads (C · g)
      (DelegationLedger.slashShares ⟨r.operator, x⟩ before after) (fun _ d => C d g) (C · g))
    (caller avs : Address) :
    Keeps C (slashOperator caller avs r : Managing δ ρ π SlashOutcome) := by
  refine (requireCaller _ _ _).bind fun _ => (atomically (.read_bind fun m => ?_)).bind fun _ =>
    (count _).bind fun _ => .pure _
  refine (ofExcept _).bind fun _ => (onBooks _).bind fun id => bind (Leads.mapM fun x _ => ?_)
    fun legs => (onBooks _).bind fun _ => .pure _
  refine .read_bind fun m => (onBooks _).bind fun cut => ?_
  cases cut with
  | none => exact .pure _
  | some cut => exact (onDelegation (h x.1 _ _)).bind fun _ => .pure _

end Keeps

/-- What the hooks of a call keep, the call keeps. -/
theorem keeps_perform [DelegationLedger δ] [SetRegistrar ρ] [PermissionController π]
    (caller : Address) {c : Call}
    (hburn : ∀ avs r, c = .slashOperator avs r → ∀ x before after g,
      Leads (C · g) (DelegationLedger.slashShares ⟨r.operator, x⟩ before after) (fun _ d => C d g)
        (C · g))
    (hregister : ∀ operator r, c = .registerForOperatorSets operator r → ∀ d,
      Leads (C d) (SetRegistrar.register operator r.avs r.ids r.data) (fun _ => C d) (C d))
    (hderegister : ∀ r, c = .deregisterFromOperatorSets r → ∀ d,
      Leads (C d) (SetRegistrar.deregister r.operator r.avs r.ids) (fun _ => C d) (C d)) :
    Keeps C (perform caller c : Managing δ ρ π Reply) := by
  cases c with
  | setAllocationDelay operator delay =>
    exact .map <| (Keeps.requireCaller _ _ _).bind fun _ => (Keeps.requireOperator _).bind fun _ =>
      .read_bind fun _ => .atomically (.onBooks _)
  | modifyAllocations operator requests =>
    refine .bind ((Keeps.requireCaller _ _ _).bind fun _ => .read_bind fun _ => ?_) fun _ => .pure _
    exact (Keeps.atomically (.onBooks _)).bind fun _ => .count _
  | clearDeallocationQueue operator strategies limits =>
    refine .map (.ite (.read_bind fun _ => ?_) (.throw_bind _ _))
    exact (Keeps.atomically (.onBooks _)).bind fun _ => (Keeps.count _).bind fun _ => .pure _
  | registerForOperatorSets operator request =>
    refine .bind ((Keeps.requireCaller _ _ _).bind fun _ =>
      (Keeps.requireOperator _).bind fun _ => ?_) fun _ => .pure _
    exact (Keeps.atomically ((Keeps.onBooks _).bind fun _ =>
      .onRegistrar (hregister operator request rfl))).bind fun _ => .count _
  | deregisterFromOperatorSets request =>
    refine .bind (.read_bind fun m => .ite ?_ ((Keeps.requireCaller _ _ _).bind fun _ => ?_))
      fun _ => .pure _
    all_goals
      exact (Keeps.onBooks _).bind fun _ => (Keeps.atomically (.onBooks _)).bind fun _ =>
        (Keeps.count _).bind fun _ => .tolerating (hderegister request rfl)
  | createOperatorSets avs sets =>
    exact .bind ((Keeps.requireCaller _ _ _).bind fun _ => .read_bind fun _ =>
      .atomically (.onBooks _)) fun _ => .pure _
  | addStrategies avs id strategies =>
    exact .bind ((Keeps.requireCaller _ _ _).bind fun _ => .read_bind fun _ =>
      .atomically (.onBooks _)) fun _ => .pure _
  | removeStrategies avs id strategies =>
    exact .bind ((Keeps.requireCaller _ _ _).bind fun _ => .atomically (.onBooks _))
      fun _ => .pure _
  | slashOperator avs request =>
    exact .map (.slashOperator (hburn avs request rfl) caller avs)

theorem collaborators_after [DelegationLedger δ] [SetRegistrar ρ] [PermissionController π]
    {m : Manager δ ρ π} {caller : Address} {c : Call}
    (h : Keeps C (perform caller c : Managing δ ρ π Reply)) (hm : C m.delegation m.registrar) :
    C (m.after (.call caller c)).delegation (m.after (.call caller c)).registrar := by
  have hends := h m hm
  show C (m.attempt (perform caller c)).2.delegation (m.attempt (perform caller c)).2.registrar
  unfold attempt
  cases hrun : perform caller c m <;> rw [hrun] at hends <;> exact hends

end Restake.Manager
