import Restake.Failure
import Restake.Shares

/-!
What the books rely on but do not own: the ledger of delegated shares, the registrars of the AVSs
and the grants that let one account act for another. Their state is theirs: what a hook did to it
stays done even if the hook or the call around it fails.
-/
namespace Restake

class DelegationLedger (δ : Type) where
  isOperator : δ → Address → Bool
  shares : δ → Account → Shares
  /-- Burns what the fall of a max magnitude from `before` to `after` costs, and says how much. -/
  slashShares (a : Account) (before after : Magnitude) : EStateM DelegationFailure δ Shares

class SetRegistrar (ρ : Type) where
  register (operator avs : Address) (ids : List UInt32) (data : Bytes) : EStateM RegistrarFailure ρ Unit
  deregister (operator avs : Address) (ids : List UInt32) : EStateM RegistrarFailure ρ Unit

class PermissionController (π : Type) where
  /-- Whether `caller` may make the call for `principal`; not asked if they are the same. -/
  canCall : π → (principal caller : Address) → Entrypoint → Bool

end Restake
