import Restake.Local.Delegation
import Restake.Local.Registrar
import Restake.Manager.Views
import Restake.Scenario

/-!
Playing a scenario on a manager whose collaborators are kept in memory. A step that fails is
reported and leaves the books as they were, so the rest goes on, unless the first failure is to end
it; a step whose block lies before that of an earlier one always ends it.
-/
namespace Restake

abbrev LocalManager := Manager LocalDelegation LocalRegistrar LocalPermissions

structure StepReport where
  index : Nat
  block : BlockNumber
  action : String
  /-- What the step answered, or why it failed. -/
  outcome : Except Failure Reply

def StepReport.ok (s : StepReport) : Bool := s.outcome.isOk

structure AccountReport where
  account : Account
  shares : Shares
  capacity : Capacity
  allocatable : Magnitude
  allocations : List (OperatorSet × Allocation)
  queue : List OperatorSet
  registeredSets : List OperatorSet
deriving DecidableEq

structure Report where
  finalBlock : BlockNumber
  steps : List StepReport
  accounts : List AccountReport
  /-- The events of every call that committed, if they were asked for. -/
  events : Option (List Event)

def Report.failedSteps (r : Report) : Nat := r.steps.countP fun s => !s.ok

/-- Why a scenario was not played to its end. -/
inductive Abort where
  | clock (cause : Failure)
  | step (index : Nat) (action : String) (block : BlockNumber) (cause : Failure)

def Abort.message : Abort → String
  | clock cause => cause.message
  | step index action block cause =>
    "step " ++ toString index ++ " (" ++ action ++ ") at block " ++ toString block.toNat
      ++ " failed: " ++ cause.message

namespace Manager

def opening (operators : List OperatorSpec) : LocalDelegation :=
  operators.foldl (fun d o =>
    o.balances.foldl (fun d b => d.setShares ⟨o.operator, b.strategy⟩ b.shares)
      (d.registerOperator o.operator)) {}

def opened (config : Config) (operators : List OperatorSpec) : LocalManager :=
  fresh config (opening operators) {} {}

def act (m : LocalManager) (caller : Address) : Action → Except Failure Reply × LocalManager
  | .call c => m.attempt (perform caller c)
  | .appoint g => (.ok .done, { m with permissions := m.permissions.grant g })

def playStep (m : LocalManager) (failFast : Bool) (index : Nat) (s : Step) :
    Except Abort (StepReport × LocalManager) :=
  match m.attempt (setBlock s.block) with
  | (.error cause, _) => .error (.clock cause)
  | (.ok _, m) =>
    let (outcome, m) := m.act s.caller s.action
    match outcome, failFast with
    | .error cause, true => .error (.step index s.action.name s.block cause)
    | outcome, _ => .ok (⟨index, s.block, s.action.name, outcome⟩, m)

def playSteps (m : LocalManager) (failFast : Bool) (index : Nat) :
    List Step → Except Abort (List StepReport × LocalManager)
  | [] => .ok ([], m)
  | s :: rest => do
    let (report, m) ← m.playStep failFast index s
    let (reports, m) ← playSteps m failFast (index + 1) rest
    return (report :: reports, m)

def accountReport (m : LocalManager) (a : Account) : AccountReport where
  account := a
  shares := m.delegation.shares a
  capacity := m.books.capacity a
  allocatable := m.allocatableMagnitude a
  allocations := m.accountAllocations a
  queue := m.books.queued a
  registeredSets := (m.books.setsJoinedBy a.operator).toList

/-- The report on a scenario, with the manager as its last step left it. -/
def play (config : Config) (s : Scenario) (failFast withEvents : Bool) :
    Except Abort (Report × LocalManager) := do
  let (steps, m) ← (opened config s.operators).playSteps failFast 0 s.steps
  return ({ finalBlock := m.block
            steps
            accounts := s.report.map m.accountReport
            events := if withEvents then some m.books.log.committed.toList else none }, m)

end Manager

end Restake
