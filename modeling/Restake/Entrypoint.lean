/-!
The calls that an account may let another make on its behalf, under the names that they are
written with.
-/
namespace Restake

inductive Entrypoint where
  | setAllocationDelay
  | modifyAllocations
  | registerForOperatorSets
  | deregisterFromOperatorSets
  | createOperatorSets
  | addStrategiesToOperatorSet
  | removeStrategiesFromOperatorSet
  | slashOperator
deriving DecidableEq, Ord

namespace Entrypoint

def name : Entrypoint → String
  | setAllocationDelay => "setAllocationDelay"
  | modifyAllocations => "modifyAllocations"
  | registerForOperatorSets => "registerForOperatorSets"
  | deregisterFromOperatorSets => "deregisterFromOperatorSets"
  | createOperatorSets => "createOperatorSets"
  | addStrategiesToOperatorSet => "addStrategiesToOperatorSet"
  | removeStrategiesFromOperatorSet => "removeStrategiesFromOperatorSet"
  | slashOperator => "slashOperator"

def ofName? : String → Option Entrypoint
  | "setAllocationDelay" => some setAllocationDelay
  | "modifyAllocations" => some modifyAllocations
  | "registerForOperatorSets" => some registerForOperatorSets
  | "deregisterFromOperatorSets" => some deregisterFromOperatorSets
  | "createOperatorSets" => some createOperatorSets
  | "addStrategiesToOperatorSet" => some addStrategiesToOperatorSet
  | "removeStrategiesFromOperatorSet" => some removeStrategiesFromOperatorSet
  | "slashOperator" => some slashOperator
  | _ => none

theorem ofName?_name (e : Entrypoint) : ofName? e.name = some e := by cases e <;> rfl

end Entrypoint

end Restake
