import Restake.Collaborators
import Std.Data.ExtTreeSet

/-!
A registrar kept in memory. It takes everyone but the operators that it was told to reject, fails
throughout while it is unavailable, and keeps a record of the hooks called.
-/
namespace Restake

inductive RegistrarCall where
  | register (operator avs : Address) (ids : List UInt32)
  | deregister (operator avs : Address) (ids : List UInt32)
deriving DecidableEq

structure LocalRegistrar where
  rejected : Std.ExtTreeSet Address := ∅
  unavailable : Bool := false
  calls : Array RegistrarCall := #[]
deriving Inhabited

namespace LocalRegistrar

def reject (r : LocalRegistrar) (operator : Address) : LocalRegistrar :=
  { r with rejected := r.rejected.insert operator }

def accept (r : LocalRegistrar) (operator : Address) : LocalRegistrar :=
  { r with rejected := r.rejected.erase operator }

def requireAvailable (avs : Address) : EStateM RegistrarFailure LocalRegistrar Unit := do
  if (← get).unavailable then
    throw (.unavailable ("registrar for " ++ avs.checksummed ++ " is down"))

/-- The call is recorded whether it succeeds or not. -/
def register (operator avs : Address) (ids : List UInt32) :
    EStateM RegistrarFailure LocalRegistrar Unit := do
  modify fun r => { r with calls := r.calls.push (.register operator avs ids) }
  requireAvailable avs
  if (← get).rejected.contains operator then throw (.rejected operator "operator not allowed")

def deregister (operator avs : Address) (ids : List UInt32) :
    EStateM RegistrarFailure LocalRegistrar Unit := do
  modify fun r => { r with calls := r.calls.push (.deregister operator avs ids) }
  requireAvailable avs

instance : SetRegistrar LocalRegistrar where
  register operator avs ids _ := register operator avs ids
  deregister := deregister

end LocalRegistrar

end Restake
