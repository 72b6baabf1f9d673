import Restake.Replay
import Restake.Wire.Records

/-!
Reports as JSON. What a report does not have is left out of it.
-/
namespace Restake

def SetAllocation.toJson (entry : OperatorSet × Allocation) : Json :=
  .obj [("operatorSet", entry.1.toJson), ("allocation", entry.2.toJson)]

/-- A field that is written only if it has a value. -/
def Json.optional {α : Type} (name : String) (write : α → Json) (value : Option α) :
    List (String × Json) :=
  value.toList.map fun a => (name, write a)

namespace StepReport

def error? (s : StepReport) : Option String :=
  match s.outcome with
  | .error cause => some cause.message
  | .ok _ => none

def slash? (s : StepReport) : Option SlashOutcome :=
  match s.outcome with
  | .ok (.slashed outcome) => some outcome
  | _ => none

def toJson (s : StepReport) : Json :=
  .obj ([("index", .ofNat s.index), ("block", .ofUInt32 s.block), ("action", .str s.action),
      ("ok", .bool s.ok)]
    ++ Json.optional "error" .str s.error? ++ Json.optional "slash" SlashOutcome.toJson s.slash?)

end StepReport

def AccountReport.toJson (r : AccountReport) : Json :=
  .obj [("operator", r.account.operator.toJson), ("strategy", r.account.strategy.toJson),
    ("shares", Shares.toJson r.shares), ("maxMagnitude", .ofUInt64 r.capacity.max),
    ("encumberedMagnitude", .ofUInt64 r.capacity.encumbered),
    ("allocatableMagnitude", .ofUInt64 r.allocatable),
    ("allocations", .ofList SetAllocation.toJson r.allocations),
    ("deallocationQueue", .ofList OperatorSet.toJson r.queue),
    ("registeredSets", .ofList OperatorSet.toJson r.registeredSets)]

def Report.toJson (r : Report) : Json :=
  .obj ([("finalBlock", .ofUInt32 r.finalBlock), ("steps", .ofList StepReport.toJson r.steps),
      ("operators", .ofList AccountReport.toJson r.accounts)]
    ++ Json.optional "events" (Json.ofList Event.toJson) r.events)

end Restake
