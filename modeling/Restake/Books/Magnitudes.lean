import Restake.Books.Basic

/-!
Capacity and allocations in the books. Writes here check nothing: they record what the calls have
worked out, keep the index of allocations that are not empty, and leave an event for each change.
-/
namespace Restake.Books

def encumberedMagnitude (b : Books) (a : Account) : Magnitude := (b.encumbered.find? a).getD 0

def history (b : Books) (a : Account) : History := (b.maxima.find? a).getD {}

def maxMagnitude (b : Books) (a : Account) : Magnitude := (b.history a).latest

def maxMagnitudeAt (b : Books) (a : Account) (block : BlockNumber) : Magnitude :=
  (b.history a).valueAt block

def capacity (b : Books) (a : Account) : Capacity := ⟨b.maxMagnitude a, b.encumberedMagnitude a⟩

/-- The allocation as it was last written, whether its change is due or not. -/
def allocation (b : Books) (p : Position) : Allocation := (b.allocations.find? p).getD {}

/-- Capacity and allocation as `block` sees them: a change that is due is made, and magnitude that
it gives up is no longer encumbered. -/
def settled (b : Books) (p : Position) (block : BlockNumber) :
    Except Failure (Capacity × Allocation) :=
  let stored := b.allocation p
  let capacity := b.capacity p.account
  let given := min ((stored.due? block).getD 0) 0
  match Magnitude.shift? capacity.encumbered given with
  | some encumbered => .ok ({ capacity with encumbered }, stored.asOf block)
  | none => .error (.magnitudeOutOfRange capacity.encumbered given)

def setEncumbered (b : Books) (a : Account) (m : Magnitude) : Books :=
  { b with encumbered := b.encumbered.insert a m }.emit (.encumberedMagnitudeUpdated a m)

/-- Lowers the max of an account as of `block`, to zero at the least. -/
def reduceMax (b : Books) (a : Account) (amount : Magnitude) (block : BlockNumber) : Books :=
  let lowered := Magnitude.monus (b.maxMagnitude a) amount
  { b with maxima := b.maxima.update a (·.push block lowered) }.emit (.maxMagnitudeUpdated a lowered)

/-- Enters a position in the index of allocations. -/
def index (b : Books) (p : Position) : Books :=
  { b with
    allocatedSets := b.allocatedSets.update p.operator (·.insert p.set)
    allocatedStrategies := b.allocatedStrategies.update p.membership (·.insert p.strategy) }

/-- Takes a position out of the index, and its set with it if no other strategy holds it there. -/
def unindex (b : Books) (p : Position) : Books :=
  let rest := ((b.allocatedStrategies.find? p.membership).getD ∅).erase p.strategy
  if rest.isEmpty then
    { b with
      allocatedSets := b.allocatedSets.update p.operator (·.erase p.set)
      allocatedStrategies := b.allocatedStrategies.erase p.membership }
  else { b with allocatedStrategies := b.allocatedStrategies.insert p.membership rest }

def setAllocation (b : Books) (p : Position) (a : Allocation) : Books :=
  let b := { b with allocations := b.allocations.insert p a }
  (if a.isEmpty then b.unindex p else b.index p).emit (.allocationUpdated p a.target a.effectBlock)

/-- Writes an allocation and the encumbered magnitude of its account where they differ. -/
def store (b : Books) (p : Position) (capacity : Capacity) (a : Allocation) : Books :=
  let b := if b.allocation p = a then b else b.setAllocation p a
  if b.encumberedMagnitude p.account = capacity.encumbered then b
  else b.setEncumbered p.account capacity.encumbered

/-- Writes the allocation of a position as `block` sees it. -/
def settle (p : Position) (block : BlockNumber) : Bookkeeping Unit := do
  let (capacity, a) ← MonadExcept.ofExcept ((← get).settled p block)
  modify (·.store p capacity a)

def setsAllocatedTo (b : Books) (operator : Address) : List OperatorSet :=
  ((b.allocatedSets.find? operator).getD ∅).toList

def strategiesAllocatedTo (b : Books) (m : Membership) : List Address :=
  ((b.allocatedStrategies.find? m).getD ∅).toList

/-- The allocations of an account that are not empty, by set. -/
def accountAllocations (b : Books) (a : Account) : List (OperatorSet × Allocation) :=
  ((b.setsAllocatedTo a.operator).filter fun s =>
      ((b.allocatedStrategies.find? ⟨a.operator, s⟩).getD ∅).contains a.strategy).map
    fun s => (s, b.allocation (a.position s))

end Restake.Books
