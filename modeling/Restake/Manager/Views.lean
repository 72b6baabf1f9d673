import Restake.Manager.Basic

/-!
What can be read off a manager at its current block. Views see changes that are due as made, even
where nobody has written them to the books yet, and change nothing themselves.
-/
namespace Restake.Manager

variable {δ ρ π : Type}

def allocation (m : Manager δ ρ π) (p : Position) : Allocation := (m.books.allocation p).asOf m.block

/-- What is still encumbered once the matured front of a queue has given up its magnitude. -/
def encumberedAfter (m : Manager δ ρ π) (a : Account) : Magnitude → List OperatorSet → Magnitude
  | encumbered, [] => encumbered
  | encumbered, s :: rest =>
    let stored := m.books.allocation (a.position s)
    if m.block < stored.effectBlock then encumbered
    else if stored.isDeallocating then
      m.encumberedAfter a ((Magnitude.shift? encumbered stored.pending).getD 0) rest
    else m.encumberedAfter a encumbered rest

/-- Magnitude that is free to allocate. -/
def allocatableMagnitude (m : Manager δ ρ π) (a : Account) : Magnitude :=
  Magnitude.monus (m.books.maxMagnitude a)
    (m.encumberedAfter a (m.books.encumberedMagnitude a) (m.books.queued a))

def accountAllocations (m : Manager δ ρ π) (a : Account) : List (OperatorSet × Allocation) :=
  (m.books.accountAllocations a).map fun (s, allocation) => (s, allocation.asOf m.block)

/-- Whether the operator has a delay in force, and which. -/
def allocationDelay (m : Manager δ ρ π) (operator : Address) : Bool × BlockNumber :=
  (m.books.delaySetting operator).resolve m.block

def isSlashable (m : Manager δ ρ π) (member : Membership) : Bool := m.books.isSlashable member m.block

def isMember (m : Manager δ ρ π) (member : Membership) : Bool :=
  (m.books.registration member).isRegistered

def memberCount (m : Manager δ ρ π) (s : OperatorSet) : Nat := (m.books.membersOf s).size

/-- How many sets an AVS has. -/
def setCount (m : Manager δ ρ π) (avs : Address) : Nat := (m.books.setIdsOf avs).size

variable [DelegationLedger δ]

/-- The shares of an account that a magnitude of it stands for. -/
def stakeOf (m : Manager δ ρ π) (a : Account) (magnitude : Magnitude) : Shares :=
  (DelegationLedger.shares m.delegation a).portion magnitude (m.books.maxMagnitude a)

/-- The stake behind an operator's current allocation. -/
def allocatedStake (m : Manager δ ρ π) (p : Position) : Shares :=
  m.stakeOf p.account (m.allocation p).current

/-- The magnitude that is sure to stay until `future`: what a deallocation takes by then is gone,
what an allocation brings does not count. -/
def lastingMagnitude (m : Manager δ ρ π) (p : Position) (future : BlockNumber) : Magnitude :=
  let a := m.allocation p
  if a.isDeallocating && a.effectBlock ≤ future then a.target else a.current

/-- The stake that stays slashable until `future`, none for an operator that is not slashable. -/
def minimumSlashableStake (m : Manager δ ρ π) (p : Position) (future : BlockNumber) : Shares :=
  if m.isSlashable p.membership then m.stakeOf p.account (m.lastingMagnitude p future) else 0

end Restake.Manager
