import Restake.Books.Magnitudes

/-!
Deallocations that wait, in one queue for each account, oldest first. The queue names the sets;
when they mature is read from their allocations.
-/
namespace Restake.Books

def queue (b : Books) (a : Account) : Fifo OperatorSet := (b.queues.find? a).getD {}

def queued (b : Books) (a : Account) : List OperatorSet := (b.queue a).toList

def enqueue (b : Books) (a : Account) (s : OperatorSet) : Books :=
  { b with queues := b.queues.update a (·.push s) }

def dequeue (b : Books) (a : Account) : Books := { b with queues := b.queues.update a (·.pop) }

/-- Completes the deallocations of `sets`, the front of the queue, up to the first that has not
matured, and counts them. -/
def clearFront (a : Account) (block : BlockNumber) : List OperatorSet → Bookkeeping Nat
  | [] => return 0
  | s :: rest => do
    if block < ((← get).allocation (a.position s)).effectBlock then return 0
    settle (a.position s) block
    modify (·.dequeue a)
    return (← clearFront a block rest) + 1

/-- Completes at most `limit` matured deallocations from the front of the queue. -/
def clearMatured (a : Account) (limit : Nat) (block : BlockNumber) : Bookkeeping Nat := do
  clearFront a block (((← get).queued a).take limit)

/-- Completes every change of the account that is due: deallocations through the queue, then
allocations in any set. -/
def settleAccount (a : Account) (block : BlockNumber) : Bookkeeping Unit := do
  let _ ← clearFront a block ((← get).queued a)
  let increases := ((← get).accountAllocations a).filter fun (_, allocation) =>
    allocation.isMatured block && !allocation.isDeallocating
  increases.forM fun (s, _) => settle (a.position s) block

end Restake.Books
