import Restake.Manager.Basic

/-!
The calls that change the books. Each first asks whether the caller may make it, then does its
work atomically, and counts what it did once that has gone through.
-/
namespace Restake

namespace Manager

variable {δ ρ π : Type} [DelegationLedger δ] [SetRegistrar ρ] [PermissionController π]

def setAllocationDelay (caller operator : Address) (delay : BlockNumber) :
    Managing δ ρ π DelaySetting := do
  requireCaller operator caller .setAllocationDelay
  requireOperator operator
  let m ← get
  atomically (onBooks (Books.requestDelay m.config.configurationDelay operator delay m.block))

def modifyAllocations (caller operator : Address) (requests : List AllocateRequest) :
    Managing δ ρ π Unit := do
  requireCaller operator caller .modifyAllocations
  let m ← get
  let kinds ← atomically (onBooks (Books.modifyAllocations m.config m.block operator requests))
  count fun t => kinds.foldl Tally.modified t

/-- Completes matured deallocations, at most so many for each strategy; anyone may ask for it. -/
def clearDeallocationQueue (operator : Address) (strategies : List Address) (limits : List UInt64) :
    Managing δ ρ π (List Nat) := do
  unless strategies.length = limits.length do throw (.lengthMismatch strategies.length limits.length)
  let block := (← get).block
  let cleared ← atomically (onBooks ((strategies.zip limits).mapM fun (x, limit) =>
    Books.clearMatured ⟨operator, x⟩ limit.toNat block))
  count (·.clearedEntries (cleared.foldl (· + ·) 0))
  return cleared

/-- Registers an operator for sets of one AVS, whose registrar is asked last and may refuse. -/
def registerForOperatorSets (caller operator : Address) (r : RegisterRequest) :
    Managing δ ρ π Unit := do
  requireCaller operator caller .registerForOperatorSets
  requireOperator operator
  atomically do
    onBooks (r.ids.forM fun id => Books.register ⟨operator, ⟨r.avs, id⟩⟩)
    onRegistrar (SetRegistrar.register operator r.avs r.ids r.data)
  count (·.registered r.ids.length)

/-- Takes an operator out of sets, at its own or the AVS's wish. It stays slashable for the
deallocation delay, and the registrar is told but cannot refuse. -/
def deregisterFromOperatorSets (caller : Address) (r : DeregisterRequest) : Managing δ ρ π Unit := do
  let m ← get
  unless m.mayCall r.operator caller .deregisterFromOperatorSets do
    requireCaller r.avs caller .deregisterFromOperatorSets
  let slashableUntil ← onBooks (Books.effectAfter m.block m.config.deallocationDelay)
  atomically (onBooks (r.ids.forM fun id => Books.deregister slashableUntil ⟨r.operator, ⟨r.avs, id⟩⟩))
  count (·.deregistered r.ids.length)
  tolerating (SetRegistrar.deregister r.operator r.avs r.ids)

def createOperatorSets (caller avs : Address) (sets : List CreateSetRequest) :
    Managing δ ρ π Unit := do
  requireCaller avs caller .createOperatorSets
  let maxStrategies := (← get).config.maxSetStrategies
  atomically (onBooks (sets.forM fun r => Books.createSet ⟨avs, r.id⟩ maxStrategies r.strategies))

def addStrategies (caller avs : Address) (id : UInt32) (strategies : List Address) :
    Managing δ ρ π Unit := do
  requireCaller avs caller .addStrategiesToOperatorSet
  let maxStrategies := (← get).config.maxSetStrategies
  atomically (onBooks (Books.addStrategies ⟨avs, id⟩ maxStrategies strategies))

def removeStrategies (caller avs : Address) (id : UInt32) (strategies : List Address) :
    Managing δ ρ π Unit := do
  requireCaller avs caller .removeStrategiesFromOperatorSet
  atomically (onBooks (Books.removeStrategies ⟨avs, id⟩ strategies))

/-- Slashes one position and burns the shares that its account loses by it. -/
def slashLeg (p : Position) (w : UInt64) : Managing δ ρ π (Option SlashLeg) := do
  match ← onBooks (Books.cut p w (← get).block) with
  | none => return none
  | some cut =>
    let shares ← onDelegation (DelegationLedger.slashShares p.account cut.maxBefore cut.maxAfter)
    return some ⟨p.strategy, cut.magnitude, shares⟩

/-- Slashes an operator in a set of the AVS, strategy by strategy. -/
def slashOperator (caller avs : Address) (r : SlashRequest) : Managing δ ρ π SlashOutcome := do
  requireCaller avs caller .slashOperator
  let member : Membership := ⟨r.operator, ⟨avs, r.setId⟩⟩
  let outcome ← atomically do
    let m ← get
    MonadExcept.ofExcept (m.books.checkSlash member.set r m.block)
    let id ← onBooks (Books.nextSlashId member.set)
    let legs ← (r.strategies.zip r.wads).mapM fun (x, w) => slashLeg ⟨member, x⟩ w
    onBooks (modify (·.emit (.operatorSlashed member r.strategies r.wads r.description id)))
    return { id, legs := legs.filterMap fun leg => leg : SlashOutcome }
  count (·.slashed outcome.total)
  return outcome

end Manager

/-- A call on the books, apart from who makes it. -/
inductive Call where
  | setAllocationDelay (operator : Address) (delay : BlockNumber)
  | modifyAllocations (operator : Address) (requests : List AllocateRequest)
  | clearDeallocationQueue (operator : Address) (strategies : List Address) (limits : List UInt64)
  | registerForOperatorSets (operator : Address) (request : RegisterRequest)
  | deregisterFromOperatorSets (request : DeregisterRequest)
  | createOperatorSets (avs : Address) (sets : List CreateSetRequest)
  | addStrategies (avs : Address) (id : UInt32) (strategies : List Address)
  | removeStrategies (avs : Address) (id : UInt32) (strategies : List Address)
  | slashOperator (avs : Address) (request : SlashRequest)
deriving DecidableEq

/-- What a call that went through answers. -/
inductive Reply where
  | done
  | delay (setting : DelaySetting)
  | cleared (counts : List Nat)
  | slashed (outcome : SlashOutcome)
deriving DecidableEq

def Manager.perform {δ ρ π : Type} [DelegationLedger δ] [SetRegistrar ρ] [PermissionController π]
    (caller : Address) : Call → Managing δ ρ π Reply
  | .setAllocationDelay operator delay => .delay <$> setAllocationDelay caller operator delay
  | .modifyAllocations operator requests => do
    modifyAllocations caller operator requests
    return .done
  | .clearDeallocationQueue operator strategies limits =>
    .cleared <$> clearDeallocationQueue operator strategies limits
  | .registerForOperatorSets operator request => do
    registerForOperatorSets caller operator request
    return .done
  | .deregisterFromOperatorSets request => do
    deregisterFromOperatorSets caller request
    return .done
  | .createOperatorSets avs sets => do
    createOperatorSets caller avs sets
    return .done
  | .addStrategies avs id strategies => do
    addStrategies caller avs id strategies
    return .done
  | .removeStrategies avs id strategies => do
    removeStrategies caller avs id strategies
    return .done
  | .slashOperator avs request => .slashed <$> slashOperator caller avs request

end Restake
