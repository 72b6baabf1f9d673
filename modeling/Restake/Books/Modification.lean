import Restake.Books.Delays
import Restake.Books.Queues
import Restake.Books.Sets
import Restake.Config

/-!
Moving magnitudes towards what an operator asks for. More magnitude waits for the operator's
allocation delay and is encumbered at once. Less magnitude waits in the queue as long as the set
could slash it, and is given up at once otherwise.
-/
namespace Restake

inductive ModificationKind where
  | allocation
  | queuedDeallocation
  | instantDeallocation
deriving DecidableEq

/-- The block and the delays that a modification is made under. -/
structure Terms where
  block : BlockNumber
  allocationDelay : BlockNumber
  deallocationDelay : BlockNumber

namespace Books

/-- The block at which what is asked for at `block` takes effect. -/
def effectAfter (block delay : BlockNumber) : Bookkeeping BlockNumber :=
  match BlockNumber.after? block delay with
  | some effectBlock => return effectBlock
  | none => throw (.blockOverflow block delay)

def modifyAllocation (t : Terms) (slashable : Bool) (p : Position) (m : Magnitude) :
    Bookkeeping ModificationKind := do
  settleAccount p.account t.block
  let (capacity, a) ← MonadExcept.ofExcept ((← get).settled p t.block)
  if a.isPending then throw (.modificationAlreadyPending p)
  if m = a.current then throw (.sameMagnitude p m)
  let change := Magnitude.changeTo a.current m
  if a.current < m then
    let requested := m - a.current
    if capacity.free < requested then
      throw (.insufficientMagnitude p.account capacity.free requested)
    let effectBlock ← effectAfter t.block t.allocationDelay
    modify (·.store p { capacity with encumbered := capacity.encumbered + requested }
      { a with pending := change, effectBlock })
    return .allocation
  else if slashable && ((← get).strategiesOf p.set).contains p.strategy then
    let effectBlock ← effectAfter t.block t.deallocationDelay
    modify fun b => (b.enqueue p.account p.set).store p capacity { a with pending := change, effectBlock }
    return .queuedDeallocation
  else
    match Magnitude.shift? capacity.encumbered change with
    | none => throw (.magnitudeOutOfRange capacity.encumbered change)
    | some encumbered =>
      modify (·.store p { capacity with encumbered } { a with current := m, effectBlock := t.block })
      return .instantDeallocation

/-- Carries out one request, strategy by strategy. -/
def applyRequest (t : Terms) (operator : Address) (r : AllocateRequest) :
    Bookkeeping (List ModificationKind) := do
  unless r.strategies.length = r.magnitudes.length do
    throw (.lengthMismatch r.strategies.length r.magnitudes.length)
  requireSet r.set
  let slashable := (← get).isSlashable ⟨operator, r.set⟩ t.block
  (r.strategies.zip r.magnitudes).mapM fun (x, m) =>
    modifyAllocation t slashable ⟨⟨operator, r.set⟩, x⟩ m

def modifyAllocations (config : Config) (block : BlockNumber) (operator : Address)
    (requests : List AllocateRequest) : Bookkeeping (List ModificationKind) := do
  let allocationDelay ← MonadExcept.ofExcept ((← get).effectiveDelay operator block)
  let kinds ← requests.mapM
    (applyRequest { block, allocationDelay, deallocationDelay := config.deallocationDelay } operator)
  return kinds.flatten

end Books

end Restake
