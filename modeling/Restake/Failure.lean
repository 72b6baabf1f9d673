import Restake.Entrypoint
import Restake.OperatorSet

/-!
Why a call is refused, and the words for it.
-/
namespace Restake

inductive DelegationFailure where
  | unknownOperator (operator : Address)
  | slashFailed (reason : String)
deriving DecidableEq

def DelegationFailure.message : DelegationFailure → String
  | unknownOperator operator => "unknown operator " ++ operator.checksummed
  | slashFailed reason => "share slashing failed: " ++ reason

inductive RegistrarFailure where
  | rejected (operator : Address) (reason : String)
  | unavailable (reason : String)
deriving DecidableEq

def RegistrarFailure.message : RegistrarFailure → String
  | rejected operator reason =>
    "registrar rejected operator " ++ operator.checksummed ++ ": " ++ reason
  | unavailable reason => "registrar unavailable: " ++ reason

inductive Failure where
  | unauthorized (principal caller : Address) (entrypoint : Entrypoint)
  | invalidOperator (operator : Address)
  | uninitializedAllocationDelay (operator : Address)
  | lengthMismatch (strategies values : Nat)
  | invalidOperatorSet (set : OperatorSet)
  | operatorSetAlreadyExists (set : OperatorSet)
  | strategyAlreadyInSet (set : OperatorSet) (strategy : Address)
  | strategyNotInSet (set : OperatorSet) (strategy : Address)
  | maxStrategiesExceeded (set : OperatorSet) (max : UInt64)
  | alreadyMember (membership : Membership)
  | notMember (membership : Membership)
  | modificationAlreadyPending (position : Position)
  | sameMagnitude (position : Position) (magnitude : Magnitude)
  | insufficientMagnitude (account : Account) (allocatable requested : Magnitude)
  | operatorNotSlashable (membership : Membership)
  | strategiesNotAscending
  | invalidWad (wad : UInt64)
  | magnitudeOutOfRange (magnitude : Magnitude) (change : Int)
  | blockRegression (current requested : BlockNumber)
  | blockOverflow (block delay : BlockNumber)
  | registrar (cause : RegistrarFailure)
  | delegation (cause : DelegationFailure)
deriving DecidableEq

def Failure.message : Failure → String
  | unauthorized principal caller entrypoint =>
    caller.checksummed ++ " cannot call " ++ entrypoint.name ++ " on behalf of "
      ++ principal.checksummed
  | invalidOperator operator => operator.checksummed ++ " is not a registered operator"
  | uninitializedAllocationDelay operator =>
    "Allocation delay not set for operator " ++ operator.checksummed
  | lengthMismatch strategies values =>
    "Input array length mismatch (strategies=" ++ toString strategies ++ ", values="
      ++ toString values ++ ")"
  | invalidOperatorSet set => "Operator set " ++ set.label ++ " does not exist"
  | operatorSetAlreadyExists set => "Operator set " ++ set.label ++ " already exists"
  | strategyAlreadyInSet set strategy =>
    "Strategy " ++ strategy.checksummed ++ " already in operator set " ++ set.label
  | strategyNotInSet set strategy =>
    "Strategy " ++ strategy.checksummed ++ " not in operator set " ++ set.label
  | maxStrategiesExceeded set max =>
    "Operator set " ++ set.label ++ " cannot hold more than " ++ toString max.toNat ++ " strategies"
  | alreadyMember m =>
    "Operator " ++ m.operator.checksummed ++ " already registered for " ++ m.set.label
  | notMember m => "Operator " ++ m.operator.checksummed ++ " not registered for " ++ m.set.label
  | modificationAlreadyPending p =>
    "Modification already pending for " ++ p.operator.checksummed ++ " in " ++ p.set.label
      ++ " (strategy=" ++ p.strategy.checksummed ++ ")"
  | sameMagnitude p magnitude =>
    "Magnitude of " ++ p.operator.checksummed ++ " in " ++ p.set.label ++ " is already "
      ++ toString magnitude.toNat ++ " (strategy=" ++ p.strategy.checksummed ++ ")"
  | insufficientMagnitude a allocatable requested =>
    "Insufficient allocatable magnitude for " ++ a.operator.checksummed ++ " (strategy="
      ++ a.strategy.checksummed ++ ", allocatable=" ++ toString allocatable.toNat
      ++ ", requested=" ++ toString requested.toNat ++ ")"
  | operatorNotSlashable m =>
    "Operator " ++ m.operator.checksummed ++ " is not slashable for " ++ m.set.label
  | strategiesNotAscending => "Strategies must be in strictly ascending order"
  | invalidWad wad => "Invalid wad to slash: " ++ toString wad.toNat
  | magnitudeOutOfRange magnitude change =>
    "Magnitude " ++ toString magnitude.toNat ++ " cannot absorb diff " ++ toString change
  | blockRegression current requested =>
    "Block number cannot go back (current=" ++ toString current.toNat ++ ", requested="
      ++ toString requested.toNat ++ ")"
  | blockOverflow block delay =>
    "Block " ++ toString block.toNat ++ " plus delay " ++ toString delay.toNat ++ " overflows"
  | registrar cause => "Registrar error: " ++ cause.message
  | delegation cause => "Delegation error: " ++ cause.message

end Restake
