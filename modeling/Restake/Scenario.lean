import Restake.Config
import Restake.Local.Permissions
import Restake.Manager.Calls

/-!
A scenario is a run of calls that can be played again: the operators and their shares at the
start, the steps with the block and the caller of each, and the accounts to report on at the end.
-/
namespace Restake

structure Balance where
  strategy : Address
  shares : Shares
deriving DecidableEq

structure OperatorSpec where
  operator : Address
  balances : List Balance
deriving DecidableEq

inductive Action where
  | call (c : Call)
  /-- Gives the appointee the right to make a call for the principal. -/
  | appoint (g : Grant)
deriving DecidableEq

def Call.name : Call → String
  | setAllocationDelay .. => "setAllocationDelay"
  | modifyAllocations .. => "modifyAllocations"
  | clearDeallocationQueue .. => "clearDeallocationQueue"
  | registerForOperatorSets .. => "registerForOperatorSets"
  | deregisterFromOperatorSets .. => "deregisterFromOperatorSets"
  | createOperatorSets .. => "createOperatorSets"
  | addStrategies .. => "addStrategiesToOperatorSet"
  | removeStrategies .. => "removeStrategiesFromOperatorSet"
  | slashOperator .. => "slashOperator"

def Action.name : Action → String
  | call c => c.name
  | appoint _ => "setAppointee"

structure Step where
  /-- The block that the clock is set to before the action. -/
  block : BlockNumber
  caller : Address
  action : Action
deriving DecidableEq

structure Scenario where
  config : Option Config
  operators : List OperatorSpec
  steps : List Step
  report : List Account
deriving DecidableEq

end Restake
