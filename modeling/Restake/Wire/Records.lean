import Restake.Event
import Restake.Local.Registrar
import Restake.Wire.Requests

/-!
Events and recorded hook calls as JSON: objects whose tag says which they are.
-/
namespace Restake

open Json (required list? uint32? uint64? str?)

namespace Event

def ofJson? (v : Json) : Option Event := do
  match ← v.tagged? 126 "event" with
  | ("allocationDelaySet", rest) =>
    match ← rest.fields? ["operator", "delay", "effectBlock"] with
    | [operator, delay, effectBlock] =>
      return .allocationDelaySet (← required Address.ofJson? operator) (← required uint32? delay)
        (← required uint32? effectBlock)
    | _ => none
  | ("allocationUpdated", rest) =>
    match ← rest.fields? ["operator", "operatorSet", "strategy", "magnitude", "effectBlock"] with
    | [operator, set, strategy, magnitude, effectBlock] =>
      return .allocationUpdated
        ⟨⟨← required Address.ofJson? operator, ← required OperatorSet.ofJson? set⟩,
          ← required Address.ofJson? strategy⟩
        (← required uint64? magnitude) (← required uint32? effectBlock)
    | _ => none
  | ("encumberedMagnitudeUpdated", rest) =>
    match ← rest.fields? ["operator", "strategy", "encumberedMagnitude"] with
    | [operator, strategy, encumbered] =>
      return .encumberedMagnitudeUpdated
        ⟨← required Address.ofJson? operator, ← required Address.ofJson? strategy⟩
        (← required uint64? encumbered)
    | _ => none
  | ("maxMagnitudeUpdated", rest) =>
    match ← rest.fields? ["operator", "strategy", "maxMagnitude"] with
    | [operator, strategy, max] =>
      return .maxMagnitudeUpdated
        ⟨← required Address.ofJson? operator, ← required Address.ofJson? strategy⟩
        (← required uint64? max)
    | _ => none
  | ("operatorSlashed", rest) =>
    match ← rest.fields?
      ["operator", "operatorSet", "strategies", "wadsSlashed", "description", "slashId"] with
    | [operator, set, strategies, wads, description, id] =>
      return .operatorSlashed
        ⟨← required Address.ofJson? operator, ← required OperatorSet.ofJson? set⟩
        (← required (list? Address.ofJson?) strategies) (← required (list? uint64?) wads)
        (← required str? description) (← required uint64? id)
    | _ => none
  | ("operatorSetCreated", rest) =>
    match ← rest.fields? ["operatorSet"] with
    | [set] => return .operatorSetCreated (← required OperatorSet.ofJson? set)
    | _ => none
  | ("strategyAddedToOperatorSet", rest) =>
    match ← rest.fields? ["operatorSet", "strategy"] with
    | [set, strategy] =>
      return .strategyAddedToOperatorSet (← required OperatorSet.ofJson? set)
        (← required Address.ofJson? strategy)
    | _ => none
  | ("strategyRemovedFromOperatorSet", rest) =>
    match ← rest.fields? ["operatorSet", "strategy"] with
    | [set, strategy] =>
      return .strategyRemovedFromOperatorSet (← required OperatorSet.ofJson? set)
        (← required Address.ofJson? strategy)
    | _ => none
  | ("operatorAddedToOperatorSet", rest) =>
    match ← rest.fields? ["operator", "operatorSet"] with
    | [operator, set] =>
      return .operatorAddedToOperatorSet
        ⟨← required Address.ofJson? operator, ← required OperatorSet.ofJson? set⟩
    | _ => none
  | ("operatorRemovedFromOperatorSet", rest) =>
    match ← rest.fields? ["operator", "operatorSet"] with
    | [operator, set] =>
      return .operatorRemovedFromOperatorSet
        ⟨← required Address.ofJson? operator, ← required OperatorSet.ofJson? set⟩
    | _ => none
  | _ => none

/-- An event with its tag in front of its fields. -/
def tagged (name : String) (fields : List (String × Json)) : Json := .obj (("event", .str name) :: fields)

def toJson : Event → Json
  | allocationDelaySet operator delay effectBlock =>
    tagged "allocationDelaySet"
      [("operator", operator.toJson), ("delay", .ofUInt32 delay), ("effectBlock", .ofUInt32 effectBlock)]
  | allocationUpdated p magnitude effectBlock =>
    tagged "allocationUpdated"
      [("operator", p.operator.toJson), ("operatorSet", p.set.toJson), ("strategy", p.strategy.toJson),
        ("magnitude", .ofUInt64 magnitude), ("effectBlock", .ofUInt32 effectBlock)]
  | encumberedMagnitudeUpdated a encumbered =>
    tagged "encumberedMagnitudeUpdated"
      [("operator", a.operator.toJson), ("strategy", a.strategy.toJson),
        ("encumberedMagnitude", .ofUInt64 encumbered)]
  | maxMagnitudeUpdated a max =>
    tagged "maxMagnitudeUpdated"
      [("operator", a.operator.toJson), ("strategy", a.strategy.toJson), ("maxMagnitude", .ofUInt64 max)]
  | operatorSlashed m strategies wads description id =>
    tagged "operatorSlashed"
      [("operator", m.operator.toJson), ("operatorSet", m.set.toJson),
        ("strategies", .ofList Address.toJson strategies), ("wadsSlashed", .ofList .ofUInt64 wads),
        ("description", .str description), ("slashId", .ofUInt64 id)]
  | operatorSetCreated set => tagged "operatorSetCreated" [("operatorSet", set.toJson)]
  | strategyAddedToOperatorSet set strategy =>
    tagged "strategyAddedToOperatorSet" [("operatorSet", set.toJson), ("strategy", strategy.toJson)]
  | strategyRemovedFromOperatorSet set strategy =>
    tagged "strategyRemovedFromOperatorSet" [("operatorSet", set.toJson), ("strategy", strategy.toJson)]
  | operatorAddedToOperatorSet m =>
    tagged "operatorAddedToOperatorSet" [("operator", m.operator.toJson), ("operatorSet", m.set.toJson)]
  | operatorRemovedFromOperatorSet m =>
    tagged "operatorRemovedFromOperatorSet"
      [("operator", m.operator.toJson), ("operatorSet", m.set.toJson)]

end Event

namespace RegistrarCall

def ofJson? (v : Json) : Option RegistrarCall := do
  let (name, rest) ← v.tagged? 126 "call"
  let make ← match name with
    | "register" => some register
    | "deregister" => some deregister
    | _ => none
  match ← rest.fields? ["operator", "avs", "operatorSetIds"] with
  | [operator, avs, ids] =>
    return make (← required Address.ofJson? operator) (← required Address.ofJson? avs)
      (← required (list? uint32?) ids)
  | _ => none

def toJson : RegistrarCall → Json
  | register operator avs ids =>
    .obj [("call", .str "register"), ("operator", operator.toJson), ("avs", avs.toJson),
      ("operatorSetIds", .ofList .ofUInt32 ids)]
  | deregister operator avs ids =>
    .obj [("call", .str "deregister"), ("operator", operator.toJson), ("avs", avs.toJson),
      ("operatorSetIds", .ofList .ofUInt32 ids)]

end RegistrarCall

end Restake
