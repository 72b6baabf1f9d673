import Restake.Shares
import Restake.OperatorSet

/-!
The audit trail: one event for every change that a committed call made to the books.
-/
namespace Restake

inductive Event where
  | allocationDelaySet (operator : Address) (delay effectBlock : BlockNumber)
  /-- The magnitude is what the position holds once its change is made. -/
  | allocationUpdated (position : Position) (magnitude : Magnitude) (effectBlock : BlockNumber)
  | encumberedMagnitudeUpdated (account : Account) (encumbered : Magnitude)
  | maxMagnitudeUpdated (account : Account) (max : Magnitude)
  | operatorSlashed (membership : Membership) (strategies : List Address) (wads : List UInt64)
      (description : String) (slashId : UInt64)
  | operatorSetCreated (set : OperatorSet)
  | strategyAddedToOperatorSet (set : OperatorSet) (strategy : Address)
  | strategyRemovedFromOperatorSet (set : OperatorSet) (strategy : Address)
  | operatorAddedToOperatorSet (membership : Membership)
  | operatorRemovedFromOperatorSet (membership : Membership)
deriving DecidableEq

end Restake
