import Restake.Books.Modification

/-!
How often things happened, counted in 64 bit words when a call has gone through.
-/
namespace Restake

structure Tally where
  allocations : UInt64 := 0
  queuedDeallocations : UInt64 := 0
  instantDeallocations : UInt64 := 0
  /-- Queue entries cleared, once any call to clear has gone through. -/
  cleared : Option UInt64 := none
  slashes : UInt64 := 0
  slashedMagnitude : UInt64 := 0
  registrations : UInt64 := 0
  deregistrations : UInt64 := 0
  /-- Hooks whose failure was let pass. -/
  hookFailures : UInt64 := 0
deriving DecidableEq, Inhabited

namespace Tally

def modified (t : Tally) : ModificationKind → Tally
  | .allocation => { t with allocations := t.allocations + 1 }
  | .queuedDeallocation => { t with queuedDeallocations := t.queuedDeallocations + 1 }
  | .instantDeallocation => { t with instantDeallocations := t.instantDeallocations + 1 }

def clearedEntries (t : Tally) (count : Nat) : Tally :=
  { t with cleared := some (t.cleared.getD 0 + .ofNat count) }

def slashed (t : Tally) (magnitude : UInt64) : Tally :=
  { t with slashes := t.slashes + 1, slashedMagnitude := t.slashedMagnitude + magnitude }

def registered (t : Tally) (count : Nat) : Tally :=
  { t with registrations := t.registrations + .ofNat count }

def deregistered (t : Tally) (count : Nat) : Tally :=
  { t with deregistrations := t.deregistrations + .ofNat count }

def hookFailed (t : Tally) : Tally := { t with hookFailures := t.hookFailures + 1 }

end Tally

end Restake
