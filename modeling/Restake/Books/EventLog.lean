import Restake.Event

/-!
The log holds an event back until the call that made it commits.
-/
namespace Restake

structure EventLog where
  pending : Array Event := #[]
  committed : Array Event := #[]
  /-- Whether a checkpoint is open. -/
  isOpen : Bool := false
deriving Inhabited

namespace EventLog

def emit (l : EventLog) (e : Event) : EventLog :=
  if l.isOpen then { l with pending := l.pending.push e } else { l with committed := l.committed.push e }

def checkpoint (l : EventLog) : EventLog := { l with pending := #[], isOpen := true }

def commit (l : EventLog) : EventLog := { pending := #[], committed := l.committed ++ l.pending }

def revert (l : EventLog) : EventLog := { l with pending := #[], isOpen := false }

/-- The log without its committed events. -/
def drained (l : EventLog) : EventLog := { l with committed := #[] }

theorem revert_emit {l : EventLog} (h : l.isOpen) (e : Event) : (l.emit e).revert = l.revert := by
  simp [emit, revert, h]

end EventLog

end Restake
