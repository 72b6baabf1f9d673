import Restake.OperatorSet

/-!
Membership of an operator in an operator set. An operator that has left stays slashable through
the last block of its grace period.
-/
namespace Restake

inductive RegistrationStatus where
  | unregistered
  | registered
  | deregistered (slashableUntil : BlockNumber)
deriving DecidableEq

namespace RegistrationStatus

instance : Inhabited RegistrationStatus := ⟨unregistered⟩

def isRegistered : RegistrationStatus → Bool
  | registered => true
  | _ => false

def isSlashable (block : BlockNumber) : RegistrationStatus → Bool
  | unregistered => false
  | registered => true
  | deregistered slashableUntil => block ≤ slashableUntil

end RegistrationStatus

structure RegisterRequest where
  avs : Address
  ids : List UInt32
  /-- Passed on to the registrar unread. -/
  data : Bytes
deriving DecidableEq

structure DeregisterRequest where
  operator : Address
  avs : Address
  ids : List UInt32
deriving DecidableEq

end Restake
