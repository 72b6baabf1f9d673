import Restake.Allocation
import Restake.Config
import Restake.Entrypoint
import Restake.Registration
import Restake.Slash
import Restake.Wire.Words

/-!
The records that calls take and give, as JSON, with the names and the order of their fields.
-/
namespace Restake

open Json (required withDefault list? uint32? uint64?)

namespace CreateSetRequest

def shape : Json.Shape := .record [("operatorSetId", .free), ("strategies", .list Address.shape)]

def ofJson? (v : Json) : Option CreateSetRequest := do
  match ← v.fields? shape.names with
  | [id, strategies] =>
    return ⟨← required uint32? id, ← withDefault [] (list? Address.ofJson?) strategies⟩
  | _ => none

def toJson (r : CreateSetRequest) : Json :=
  .obj [("operatorSetId", .ofUInt32 r.id), ("strategies", .ofList Address.toJson r.strategies)]

end CreateSetRequest

/-- Changes of magnitude stand for words of 128 bits when they are read. -/
def change? : Json → Option Int
  | .int false n => if n < 1 <<< 127 then some n else none
  | .int true n => if n ≤ 1 <<< 127 then some (-n) else none
  | _ => none

namespace Allocation

def ofJson? (v : Json) : Option Allocation := do
  match ← v.fields? ["currentMagnitude", "pendingDiff", "effectBlock"] with
  | [current, pending, effectBlock] =>
    return ⟨← required uint64? current, ← required change? pending, ← required uint32? effectBlock⟩
  | _ => none

def toJson (a : Allocation) : Json :=
  .obj [("currentMagnitude", .ofUInt64 a.current), ("pendingDiff", .ofInt a.pending),
    ("effectBlock", .ofUInt32 a.effectBlock)]

end Allocation

namespace Capacity

def ofJson? (v : Json) : Option Capacity := do
  match ← v.fields? ["maxMagnitude", "encumberedMagnitude"] with
  | [max, encumbered] => return ⟨← required uint64? max, ← required uint64? encumbered⟩
  | _ => none

def toJson (c : Capacity) : Json :=
  .obj [("maxMagnitude", .ofUInt64 c.max), ("encumberedMagnitude", .ofUInt64 c.encumbered)]

end Capacity

namespace AllocateRequest

def shape : Json.Shape :=
  .record [("operatorSet", OperatorSet.shape), ("strategies", .list Address.shape),
    ("newMagnitudes", .free)]

def ofJson? (v : Json) : Option AllocateRequest := do
  match ← v.fields? shape.names with
  | [set, strategies, magnitudes] =>
    return ⟨← required OperatorSet.ofJson? set, ← required (list? Address.ofJson?) strategies,
      ← required (list? uint64?) magnitudes⟩
  | _ => none

def toJson (r : AllocateRequest) : Json :=
  .obj [("operatorSet", r.set.toJson), ("strategies", .ofList Address.toJson r.strategies),
    ("newMagnitudes", .ofList .ofUInt64 r.magnitudes)]

end AllocateRequest

namespace DelaySetting

def ofJson? (v : Json) : Option DelaySetting := do
  match ← v.fields? ["delay", "pendingDelay", "effectBlock", "isSet"] with
  | [delay, pendingDelay, effectBlock, isSet] =>
    return ⟨← required uint32? delay, ← required uint32? pendingDelay,
      ← required uint32? effectBlock, ← required Json.bool? isSet⟩
  | _ => none

def toJson (d : DelaySetting) : Json :=
  .obj [("delay", .ofUInt32 d.delay), ("pendingDelay", .ofUInt32 d.pendingDelay),
    ("effectBlock", .ofUInt32 d.effectBlock), ("isSet", .bool d.isSet)]

end DelaySetting

namespace Entrypoint

/-- An entrypoint is its name, or an object with nothing under its name. -/
def ofJson? : Json → Option Entrypoint
  | .str name => ofName? name
  | .obj [(name, .null)] => ofName? name
  | _ => none

/-- Within a variant an empty object counts as nothing, too. -/
def ofInnerJson? : Json → Option Entrypoint
  | .obj [(name, .obj [])] => ofName? name
  | v => ofJson? v

def toJson (e : Entrypoint) : Json := .str e.name

end Entrypoint

namespace RegistrationStatus

def ofJson? (v : Json) : Option RegistrationStatus := do
  match ← v.tagged? 126 "status" with
  | ("unregistered", rest) => if rest.isUnit then some unregistered else none
  | ("registered", rest) => if rest.isUnit then some registered else none
  | ("deregistered", rest) =>
    match ← rest.fields? ["slashableUntil"] with
    | [slashableUntil] => return deregistered (← required uint32? slashableUntil)
    | _ => none
  | _ => none

def toJson : RegistrationStatus → Json
  | unregistered => .obj [("status", .str "unregistered")]
  | registered => .obj [("status", .str "registered")]
  | deregistered slashableUntil =>
    .obj [("status", .str "deregistered"), ("slashableUntil", .ofUInt32 slashableUntil)]

end RegistrationStatus

namespace RegisterRequest

def shape : Json.Shape :=
  .record [("avs", Address.shape), ("operatorSetIds", .free), ("data", .free)]

def ofJson? (v : Json) : Option RegisterRequest := do
  match ← v.fields? shape.names with
  | [avs, ids, data] =>
    return ⟨← required Address.ofJson? avs, ← required (list? uint32?) ids,
      ← withDefault [] Bytes.ofJson? data⟩
  | _ => none

def toJson (r : RegisterRequest) : Json :=
  .obj [("avs", r.avs.toJson), ("operatorSetIds", .ofList .ofUInt32 r.ids), ("data", r.data.toJson)]

end RegisterRequest

namespace DeregisterRequest

def shape : Json.Shape :=
  .record [("operator", Address.shape), ("avs", Address.shape), ("operatorSetIds", .free)]

def ofJson? (v : Json) : Option DeregisterRequest := do
  match ← v.fields? shape.names with
  | [operator, avs, ids] =>
    return ⟨← required Address.ofJson? operator, ← required Address.ofJson? avs,
      ← required (list? uint32?) ids⟩
  | _ => none

def toJson (r : DeregisterRequest) : Json :=
  .obj [("operator", r.operator.toJson), ("avs", r.avs.toJson),
    ("operatorSetIds", .ofList .ofUInt32 r.ids)]

end DeregisterRequest

namespace SlashRequest

def shape : Json.Shape :=
  .record [("operator", Address.shape), ("operatorSetId", .free), ("strategies", .list Address.shape),
    ("wadsToSlash", .free), ("description", .free)]

def ofJson? (v : Json) : Option SlashRequest := do
  match ← v.fields? shape.names with
  | [operator, id, strategies, wads, description] =>
    return ⟨← required Address.ofJson? operator, ← required uint32? id,
      ← required (list? Address.ofJson?) strategies, ← required (list? uint64?) wads,
      ← withDefault "" Json.str? description⟩
  | _ => none

def toJson (r : SlashRequest) : Json :=
  .obj [("operator", r.operator.toJson), ("operatorSetId", .ofUInt32 r.setId),
    ("strategies", .ofList Address.toJson r.strategies), ("wadsToSlash", .ofList .ofUInt64 r.wads),
    ("description", .str r.description)]

end SlashRequest

namespace SlashLeg

def shape : Json.Shape :=
  .record [("strategy", Address.shape), ("slashedMagnitude", .free), ("slashedShares", .free)]

def ofJson? (v : Json) : Option SlashLeg := do
  match ← v.fields? shape.names with
  | [strategy, magnitude, shares] =>
    return ⟨← required Address.ofJson? strategy, ← required uint64? magnitude,
      ← required Shares.ofJson? shares⟩
  | _ => none

def toJson (l : SlashLeg) : Json :=
  .obj [("strategy", l.strategy.toJson), ("slashedMagnitude", .ofUInt64 l.magnitude),
    ("slashedShares", Shares.toJson l.shares)]

end SlashLeg

namespace SlashOutcome

def shape : Json.Shape := .record [("slashId", .free), ("slashes", .list SlashLeg.shape)]

def ofJson? (v : Json) : Option SlashOutcome := do
  match ← v.fields? shape.names with
  | [id, legs] => return ⟨← required uint64? id, ← required (list? SlashLeg.ofJson?) legs⟩
  | _ => none

def toJson (o : SlashOutcome) : Json :=
  .obj [("slashId", .ofUInt64 o.id), ("slashes", .ofList SlashLeg.toJson o.legs)]

end SlashOutcome

namespace Config

/-- Fields that are not given have their usual values. -/
def ofJson? (v : Json) : Option Config := do
  match ← v.fields? ["deallocationDelay", "allocationConfigurationDelay", "maxOperatorSetStrategies"] with
  | [deallocationDelay, configurationDelay, maxSetStrategies] =>
    let usual : Config := {}
    return ⟨← withDefault usual.deallocationDelay uint32? deallocationDelay,
      ← withDefault usual.configurationDelay uint32? configurationDelay,
      ← withDefault usual.maxSetStrategies uint64? maxSetStrategies⟩
  | _ => none

def toJson (c : Config) : Json :=
  .obj [("deallocationDelay", .ofUInt32 c.deallocationDelay),
    ("allocationConfigurationDelay", .ofUInt32 c.configurationDelay),
    ("maxOperatorSetStrategies", .ofUInt64 c.maxSetStrategies)]

end Config

end Restake
