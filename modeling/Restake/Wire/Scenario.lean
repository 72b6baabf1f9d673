import Restake.Json.Printer
import Restake.Json.Reader
import Restake.Scenario
import Restake.Wire.Requests

/-!
Scenarios as JSON. An action is an object whose `type` is its name; it stands three levels deep in
a scenario, which bounds how deep its own parts may go. It is read as a whole before its parts are,
so its shape is free.
-/
namespace Restake

open Json (required withDefault list? uint32? uint64?)

namespace Action

def ofJson? (v : Json) : Option Action := do
  match ← v.tagged? 123 "type" with
  | ("setAllocationDelay", rest) =>
    match ← rest.fields? ["operator", "delay"] with
    | [operator, delay] =>
      return .call (.setAllocationDelay (← required Address.ofJson? operator) (← required uint32? delay))
    | _ => none
  | ("modifyAllocations", rest) =>
    match ← rest.fields? ["operator", "allocations"] with
    | [operator, allocations] =>
      return .call (.modifyAllocations (← required Address.ofJson? operator)
        (← required (list? AllocateRequest.ofJson?) allocations))
    | _ => none
  | ("clearDeallocationQueue", rest) =>
    match ← rest.fields? ["operator", "strategies", "numsToClear"] with
    | [operator, strategies, limits] =>
      return .call (.clearDeallocationQueue (← required Address.ofJson? operator)
        (← required (list? Address.ofJson?) strategies) (← required (list? uint64?) limits))
    | _ => none
  | ("registerForOperatorSets", rest) =>
    match ← rest.fields? ["operator", "avs", "operatorSetIds", "data"] with
    | [operator, avs, ids, data] =>
      return .call (.registerForOperatorSets (← required Address.ofJson? operator)
        ⟨← required Address.ofJson? avs, ← required (list? uint32?) ids,
          ← withDefault [] Bytes.ofJson? data⟩)
    | _ => none
  | ("deregisterFromOperatorSets", rest) =>
    return .call (.deregisterFromOperatorSets (← DeregisterRequest.ofJson? rest))
  | ("createOperatorSets", rest) =>
    match ← rest.fields? ["avs", "sets"] with
    | [avs, sets] =>
      return .call (.createOperatorSets (← required Address.ofJson? avs)
        (← required (list? CreateSetRequest.ofJson?) sets))
    | _ => none
  | ("addStrategiesToOperatorSet", rest) =>
    match ← rest.fields? ["avs", "operatorSetId", "strategies"] with
    | [avs, id, strategies] =>
      return .call (.addStrategies (← required Address.ofJson? avs) (← required uint32? id)
        (← required (list? Address.ofJson?) strategies))
    | _ => none
  | ("removeStrategiesFromOperatorSet", rest) =>
    match ← rest.fields? ["avs", "operatorSetId", "strategies"] with
    | [avs, id, strategies] =>
      return .call (.removeStrategies (← required Address.ofJson? avs) (← required uint32? id)
        (← required (list? Address.ofJson?) strategies))
    | _ => none
  | ("slashOperator", rest) =>
    match ← rest.fields?
      ["avs", "operator", "operatorSetId", "strategies", "wadsToSlash", "description"] with
    | [avs, operator, id, strategies, wads, description] =>
      return .call (.slashOperator (← required Address.ofJson? avs)
        ⟨← required Address.ofJson? operator, ← required uint32? id,
          ← required (list? Address.ofJson?) strategies, ← required (list? uint64?) wads,
          ← withDefault "" Json.str? description⟩)
    | _ => none
  | ("setAppointee", rest) =>
    match ← rest.fields? ["principal", "appointee", "entrypoint"] with
    | [principal, appointee, entrypoint] =>
      return .appoint ⟨← required Address.ofJson? principal, ← required Address.ofJson? appointee,
        ← required Entrypoint.ofInnerJson? entrypoint⟩
    | _ => none
  | _ => none

def fields : Action → List (String × Json)
  | call (.setAllocationDelay operator delay) =>
    [("operator", operator.toJson), ("delay", .ofUInt32 delay)]
  | call (.modifyAllocations operator requests) =>
    [("operator", operator.toJson), ("allocations", .ofList AllocateRequest.toJson requests)]
  | call (.clearDeallocationQueue operator strategies limits) =>
    [("operator", operator.toJson), ("strategies", .ofList Address.toJson strategies),
      ("numsToClear", .ofList .ofUInt64 limits)]
  | call (.registerForOperatorSets operator r) =>
    [("operator", operator.toJson), ("avs", r.avs.toJson), ("operatorSetIds", .ofList .ofUInt32 r.ids),
      ("data", r.data.toJson)]
  | call (.deregisterFromOperatorSets r) =>
    [("operator", r.operator.toJson), ("avs", r.avs.toJson),
      ("operatorSetIds", .ofList .ofUInt32 r.ids)]
  | call (.createOperatorSets avs sets) =>
    [("avs", avs.toJson), ("sets", .ofList CreateSetRequest.toJson sets)]
  | call (.addStrategies avs id strategies) =>
    [("avs", avs.toJson), ("operatorSetId", .ofUInt32 id),
      ("strategies", .ofList Address.toJson strategies)]
  | call (.removeStrategies avs id strategies) =>
    [("avs", avs.toJson), ("operatorSetId", .ofUInt32 id),
      ("strategies", .ofList Address.toJson strategies)]
  | call (.slashOperator avs r) =>
    [("avs", avs.toJson), ("operator", r.operator.toJson), ("operatorSetId", .ofUInt32 r.setId),
      ("strategies", .ofList Address.toJson r.strategies), ("wadsToSlash", .ofList .ofUInt64 r.wads),
      ("description", .str r.description)]
  | appoint g =>
    [("principal", g.principal.toJson), ("appointee", g.appointee.toJson),
      ("entrypoint", g.entrypoint.toJson)]

def toJson (a : Action) : Json := .obj (("type", .str a.name) :: a.fields)

end Action

namespace Step

def shape : Json.Shape :=
  .record [("block", .free), ("caller", Address.shape), ("action", .free)]

def ofJson? (v : Json) : Option Step := do
  match ← v.fields? shape.names with
  | [block, caller, action] =>
    return ⟨← required uint32? block, ← required Address.ofJson? caller, ← required Action.ofJson? action⟩
  | _ => none

def toJson (s : Step) : Json :=
  .obj [("block", .ofUInt32 s.block), ("caller", s.caller.toJson), ("action", s.action.toJson)]

end Step

namespace Balance

def shape : Json.Shape := .record [("strategy", Address.shape), ("shares", .free)]

def ofJson? (v : Json) : Option Balance := do
  match ← v.fields? shape.names with
  | [strategy, shares] =>
    return ⟨← required Address.ofJson? strategy, ← required Shares.ofJson? shares⟩
  | _ => none

def toJson (b : Balance) : Json :=
  .obj [("strategy", b.strategy.toJson), ("shares", Shares.toJson b.shares)]

end Balance

namespace OperatorSpec

def shape : Json.Shape := .record [("address", Address.shape), ("shares", .list Balance.shape)]

def ofJson? (v : Json) : Option OperatorSpec := do
  match ← v.fields? shape.names with
  | [operator, balances] =>
    return ⟨← required Address.ofJson? operator, ← withDefault [] (list? Balance.ofJson?) balances⟩
  | _ => none

def toJson (o : OperatorSpec) : Json :=
  .obj [("address", o.operator.toJson), ("shares", .ofList Balance.toJson o.balances)]

end OperatorSpec

namespace Account

def shape : Json.Shape := .record [("operator", Address.shape), ("strategy", Address.shape)]

def ofJson? (v : Json) : Option Account := do
  match ← v.fields? shape.names with
  | [operator, strategy] =>
    return ⟨← required Address.ofJson? operator, ← required Address.ofJson? strategy⟩
  | _ => none

def toJson (a : Account) : Json :=
  .obj [("operator", a.operator.toJson), ("strategy", a.strategy.toJson)]

end Account

namespace Scenario

/-- Settings may be given as nothing. -/
def config? : Json → Option (Option Config)
  | .null => some none
  | v => (Config.ofJson? v).map some

def shape : Json.Shape :=
  .record [("config", .free), ("operators", .list OperatorSpec.shape), ("steps", .list Step.shape),
    ("report", .list Account.shape)]

def ofJson? (v : Json) : Option Scenario := do
  match ← v.fields? shape.names with
  | [config, operators, steps, report] =>
    return ⟨← withDefault none config? config, ← withDefault [] (list? OperatorSpec.ofJson?) operators,
      ← required (list? Step.ofJson?) steps, ← withDefault [] (list? Account.ofJson?) report⟩
  | _ => none

def toJson (s : Scenario) : Json :=
  .obj [("config", .ofOption Config.toJson s.config),
    ("operators", .ofList OperatorSpec.toJson s.operators), ("steps", .ofList Step.toJson s.steps),
    ("report", .ofList Account.toJson s.report)]

def ofText? (text : String) : Option Scenario := (Json.parse? shape text).bind ofJson?

def text (s : Scenario) : String := s.toJson.compact

end Scenario

end Restake
