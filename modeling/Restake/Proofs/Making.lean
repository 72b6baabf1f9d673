import Restake.Proofs.Calls

/-!
What the calls are made of: bookkeeping, hooks, questions to the manager and counts. They are taken
apart here once, so that what all the parts keep every call keeps. None of the questions is how often
something has happened.
-/
namespace Restake

/-- What a call may count. -/
def Call.MayCount : Call → (Tally → Tally) → Prop
  | .modifyAllocations _ _, f =>
    ∃ kinds : List ModificationKind, f = fun t => kinds.foldl Tally.modified t
  | .clearDeallocationQueue _ _ _, f => ∃ n, f = (·.clearedEntries n)
  | .registerForOperatorSets _ r, f => f = (·.registered r.ids.length)
  | .deregisterFromOperatorSets r, f => f = (·.deregistered r.ids.length)
  | .slashOperator _ _, f => ∃ total, f = (·.slashed total)
  | _, _ => False

namespace Manager

open Steps Books

variable {δ ρ π : Type} {counts : (Tally → Tally) → Prop}

/-- Steps that are made of the parts of calls, with only certain counts among them. -/
inductive Made (counts : (Tally → Tally) → Prop) : {α : Type} → Managing δ ρ π α → Prop where
  | pure {α : Type} (a : α) : Made counts (pure a : Managing δ ρ π α)
  | throw {α : Type} (e : Failure) : Made counts (throw e : Managing δ ρ π α)
  | bind {α β : Type} {x : Managing δ ρ π α} {f : α → Managing δ ρ π β} (hx : Made counts x)
      (hf : ∀ a, Made counts (f a)) : Made counts (x >>= f)
  | read {α : Type} {f : Manager δ ρ π → Managing δ ρ π α}
      (hblind : ∀ m t, f { m with tally := t } = f m) (hf : ∀ m, Made counts (f m)) :
      Made counts (get >>= f)
  | onBooks {α : Type} (step : Bookkeeping α) : Made counts (onBooks step : Managing δ ρ π α)
  | onDelegation {α : Type} (step : EStateM DelegationFailure δ α) :
      Made counts (onDelegation step : Managing δ ρ π α)
  | onRegistrar {α : Type} (step : EStateM RegistrarFailure ρ α) :
      Made counts (onRegistrar step : Managing δ ρ π α)
  | tolerating (hook : EStateM RegistrarFailure ρ Unit) :
      Made counts (tolerating hook : Managing δ ρ π Unit)
  | atomically {α : Type} {x : Managing δ ρ π α} (hx : Made counts x) : Made counts (atomically x)
  | count {f : Tally → Tally} (hf : counts f) : Made counts (count f : Managing δ ρ π Unit)

namespace Made

variable {α β : Type} {x y : Managing δ ρ π α}

theorem map {f : α → β} (hx : Made counts x) : Made counts (f <$> x) := by
  rw [map_eq_pure_bind]
  exact hx.bind fun _ => .pure _

theorem ite {c : Prop} [Decidable c] (hx : Made counts x) (hy : Made counts y) :
    Made counts (if c then x else y) := by
  split
  · exact hx
  · exact hy

theorem ofExcept (y : Except Failure α) :
    Made counts (MonadExcept.ofExcept y : Managing δ ρ π α) := by
  cases y with
  | ok a => exact .pure a
  | error e => exact .throw e

theorem mapM {f : α → Managing δ ρ π β} (h : ∀ a, Made counts (f a)) (l : List α) :
    Made counts (l.mapM f) := by
  induction l with
  | nil => exact .pure []
  | cons a l ih =>
    rw [List.mapM_cons]
    exact (h a).bind fun _ => ih.bind fun _ => .pure _

theorem requireCaller [PermissionController π] (principal caller : Address) (e : Entrypoint) :
    Made counts (requireCaller principal caller e : Managing δ ρ π Unit) :=
  .read (fun _ _ => rfl) fun _ => .ite (.pure _) (.throw _)

theorem requireOperator [DelegationLedger δ] (operator : Address) :
    Made counts (requireOperator operator : Managing δ ρ π Unit) :=
  .read (fun _ _ => rfl) fun _ => .ite (.pure _) (.throw _)

theorem slashLeg [DelegationLedger δ] (p : Position) (w : UInt64) :
    Made counts (slashLeg p w : Managing δ ρ π (Option SlashLeg)) := by
  refine .read (fun _ _ => rfl) fun m => .bind (.onBooks _) fun cut => ?_
  cases cut with
  | none => exact .pure _
  | some cut => exact .bind (.onDelegation _) fun _ => .pure _

end Made

variable [DelegationLedger δ] [SetRegistrar ρ] [PermissionController π]

theorem made_perform (caller : Address) (c : Call) :
    Made c.MayCount (perform caller c : Managing δ ρ π Reply) := by
  cases c with
  | setAllocationDelay operator delay =>
    exact .map (.bind (.requireCaller _ _ _) fun _ => .bind (.requireOperator _) fun _ =>
      .read (fun _ _ => rfl) fun _ => .atomically (.onBooks _))
  | modifyAllocations operator requests =>
    exact .bind (.bind (.requireCaller _ _ _) fun _ => .read (fun _ _ => rfl) fun _ =>
      .bind (.atomically (.onBooks _)) fun kinds => .count ⟨kinds, rfl⟩) fun _ => .pure _
  | clearDeallocationQueue operator strategies limits =>
    refine .map (.ite ?_ (.bind (.throw _) fun _ => ?_)) <;>
    exact .read (fun _ _ => rfl) fun _ => .bind (.atomically (.onBooks _)) fun cleared =>
      .bind (.count ⟨_, rfl⟩) fun _ => .pure _
  | registerForOperatorSets operator r =>
    refine .bind (.bind (.requireCaller _ _ _) fun _ => .bind (.requireOperator _) fun _ =>
      .bind (.atomically ?_) fun _ => .count rfl) fun _ => .pure _
    exact .bind (.onBooks _) fun _ => .onRegistrar _
  | deregisterFromOperatorSets r =>
    have hwork (m : Manager δ ρ π) : Made (Call.deregisterFromOperatorSets r).MayCount (do
        let slashableUntil ← onBooks (Books.effectAfter m.block m.config.deallocationDelay)
        Manager.atomically (onBooks
          (r.ids.forM fun id => Books.deregister slashableUntil ⟨r.operator, ⟨r.avs, id⟩⟩))
        Manager.count (·.deregistered r.ids.length)
        Manager.tolerating (SetRegistrar.deregister r.operator r.avs r.ids) :
          Managing δ ρ π Unit) :=
      .bind (.onBooks _) fun _ => .bind (.atomically (.onBooks _)) fun _ => .bind (.count rfl)
        fun _ => .tolerating _
    exact .bind (.read (fun _ _ => rfl) fun m => .ite (hwork m)
      (.bind (.requireCaller _ _ _) fun _ => hwork m)) fun _ => .pure _
  | createOperatorSets avs sets =>
    exact .bind (.bind (.requireCaller _ _ _) fun _ => .read (fun _ _ => rfl) fun _ =>
      .atomically (.onBooks _)) fun _ => .pure _
  | addStrategies avs id strategies =>
    exact .bind (.bind (.requireCaller _ _ _) fun _ => .read (fun _ _ => rfl) fun _ =>
      .atomically (.onBooks _)) fun _ => .pure _
  | removeStrategies avs id strategies =>
    exact .bind (.bind (.requireCaller _ _ _) fun _ => .atomically (.onBooks _)) fun _ => .pure _
  | slashOperator avs r =>
    refine .map (.bind (.requireCaller _ _ _) fun _ => .bind (.atomically
      (.read (fun _ _ => rfl) fun m => ?_)) fun outcome => .bind (.count ⟨outcome.total, rfl⟩)
        fun _ => .pure _)
    exact .bind (.ofExcept _) fun _ => .bind (.onBooks _) fun _ =>
      .bind (.mapM (fun _ => .slashLeg _ _) _) fun _ => .bind (.onBooks _) fun _ => .pure _

end Manager

end Restake
