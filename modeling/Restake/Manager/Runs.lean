import Restake.Manager.Calls

/-!
Runs of a manager, move by move. A move never fails: a call that does leaves behind the manager
that it leaves. Between the calls the collaborators may change in any way of their own.
-/
namespace Restake

/-- What can happen to a manager. -/
inductive Move (δ ρ π : Type) where
  | setBlock (block : BlockNumber)
  | call (caller : Address) (c : Call)
  | takeEvents
  /-- The collaborators have changed by themselves. -/
  | meanwhile (delegation : δ) (registrar : ρ) (permissions : π)

namespace Manager

variable {δ ρ π : Type} [DelegationLedger δ] [SetRegistrar ρ] [PermissionController π]

def after (m : Manager δ ρ π) : Move δ ρ π → Manager δ ρ π
  | .setBlock block => (m.attempt (Manager.setBlock block)).2
  | .call caller c => (m.attempt (perform caller c)).2
  | .takeEvents => (m.attempt Manager.takeEvents).2
  | .meanwhile delegation registrar permissions => { m with delegation, registrar, permissions }

def run (m : Manager δ ρ π) (moves : List (Move δ ρ π)) : Manager δ ρ π := moves.foldl after m

/-- The managers that some run from the start leads to. -/
inductive Reachable : Manager δ ρ π → Prop where
  | fresh (config : Config) (delegation : δ) (registrar : ρ) (permissions : π) :
    Reachable (fresh config delegation registrar permissions)
  | after {m : Manager δ ρ π} (h : Reachable m) (move : Move δ ρ π) : Reachable (m.after move)

theorem run_append (m : Manager δ ρ π) (before rest : List (Move δ ρ π)) :
    m.run (before ++ rest) = (m.run before).run rest := List.foldl_append

theorem Reachable.run {m : Manager δ ρ π} (h : m.Reachable) (moves : List (Move δ ρ π)) :
    (m.run moves).Reachable := by
  induction moves generalizing m with
  | nil => exact h
  | cons move rest ih => exact ih (h.after move)

/-- A manager is reachable just if it stands at the end of a run from the start. -/
theorem reachable_iff_run {m : Manager δ ρ π} :
    m.Reachable ↔ ∃ config delegation registrar permissions moves,
      m = (Manager.fresh config delegation registrar permissions).run moves := by
  constructor
  · intro h
    induction h with
    | fresh config delegation registrar permissions =>
      exact ⟨config, delegation, registrar, permissions, [], rfl⟩
    | after _ move ih =>
      obtain ⟨config, delegation, registrar, permissions, moves, rfl⟩ := ih
      exact ⟨config, delegation, registrar, permissions, moves ++ [move],
        (run_append _ moves [move]).symm⟩
  · rintro ⟨config, delegation, registrar, permissions, moves, rfl⟩
    exact (Reachable.fresh config delegation registrar permissions).run moves

end Manager

end Restake
