import Restake.Books.Basic

/-!
Operator sets in the books: the strategies that they hold, their members and how often they have
slashed. A set exists once it has an entry for its strategies.
-/
namespace Restake.Books

def setExists (b : Books) (s : OperatorSet) : Bool := b.strategies.contains s

def strategiesOf (b : Books) (s : OperatorSet) : AddressSet := (b.strategies.find? s).getD ∅

def membersOf (b : Books) (s : OperatorSet) : AddressSet := (b.members.find? s).getD ∅

def setIdsOf (b : Books) (avs : Address) : Std.ExtTreeSet UInt32 := (b.setIds.find? avs).getD ∅

def setsOf (b : Books) (avs : Address) : List OperatorSet := (b.setIdsOf avs).toList.map (⟨avs, ·⟩)

def setsJoinedBy (b : Books) (operator : Address) : Std.ExtTreeSet OperatorSet :=
  (b.registeredSets.find? operator).getD ∅

def registration (b : Books) (m : Membership) : RegistrationStatus := (b.registrations.find? m).getD default

def isSlashable (b : Books) (m : Membership) (block : BlockNumber) : Bool :=
  (b.registration m).isSlashable block

def slashCount (b : Books) (s : OperatorSet) : UInt64 := (b.slashCounts.find? s).getD 0

def requireSet (s : OperatorSet) : Bookkeeping Unit := do
  unless (← get).setExists s do throw (.invalidOperatorSet s)

def addStrategy (s : OperatorSet) (maxStrategies : UInt64) (strategy : Address) : Bookkeeping Unit := do
  let before := (← get).strategiesOf s
  if before.contains strategy then throw (.strategyAlreadyInSet s strategy)
  let after := before.insert strategy
  modify fun b => { b with strategies := b.strategies.insert s after }
  if maxStrategies.toNat < after.size then throw (.maxStrategiesExceeded s maxStrategies)
  modify (·.emit (.strategyAddedToOperatorSet s strategy))

def addStrategies (s : OperatorSet) (maxStrategies : UInt64) (strategies : List Address) :
    Bookkeeping Unit := do
  requireSet s
  strategies.forM (addStrategy s maxStrategies)

def createSet (s : OperatorSet) (maxStrategies : UInt64) (strategies : List Address) :
    Bookkeeping Unit := do
  if (← get).setExists s then throw (.operatorSetAlreadyExists s)
  modify fun b =>
    { b with
      setIds := b.setIds.update s.avs (·.insert s.id)
      strategies := b.strategies.insert s ∅ }.emit (.operatorSetCreated s)
  addStrategies s maxStrategies strategies

def removeStrategy (s : OperatorSet) (strategy : Address) : Bookkeeping Unit := do
  let before := (← get).strategiesOf s
  unless before.contains strategy do throw (.strategyNotInSet s strategy)
  modify fun b => { b with strategies := b.strategies.insert s (before.erase strategy) }.emit
    (.strategyRemovedFromOperatorSet s strategy)

def removeStrategies (s : OperatorSet) (strategies : List Address) : Bookkeeping Unit := do
  requireSet s
  strategies.forM (removeStrategy s)

def register (m : Membership) : Bookkeeping Unit := do
  requireSet m.set
  if ((← get).registration m).isRegistered then throw (.alreadyMember m)
  modify fun b =>
    { b with
      registrations := b.registrations.insert m .registered
      members := b.members.update m.set (·.insert m.operator)
      registeredSets := b.registeredSets.update m.operator (·.insert m.set) }.emit
    (.operatorAddedToOperatorSet m)

def deregister (slashableUntil : BlockNumber) (m : Membership) : Bookkeeping Unit := do
  requireSet m.set
  unless ((← get).registration m).isRegistered do throw (.notMember m)
  modify fun b =>
    { b with
      registrations := b.registrations.insert m (.deregistered slashableUntil)
      members := b.members.update m.set (·.erase m.operator)
      registeredSets := b.registeredSets.update m.operator (·.erase m.set) }.emit
    (.operatorRemovedFromOperatorSet m)

/-- Counts one more slash of a set. -/
def nextSlashId (s : OperatorSet) : Bookkeeping UInt64 := do
  modify fun b => { b with slashCounts := b.slashCounts.update s (· + 1) }
  return (← get).slashCount s

end Restake.Books
