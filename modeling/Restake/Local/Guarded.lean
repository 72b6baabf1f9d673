import Restake.Collaborators
import Std.Data.ExtTreeMap
import Std.Data.ExtTreeSet

/-!
A guard in front of a share ledger: it refuses to slash shares of chosen strategies, and does not
know chosen operators when asked to slash theirs. All else passes through.
-/
namespace Restake

structure Guarded (δ : Type) where
  ledger : δ
  /-- The strategies whose shares are not slashed, and the reasons given. -/
  closed : Std.ExtTreeMap Address String := ∅
  hidden : Std.ExtTreeSet Address := ∅

namespace Guarded

variable {δ : Type}

def close (g : Guarded δ) (strategy : Address) (reason : String) : Guarded δ :=
  { g with closed := g.closed.insert strategy reason }

def hide (g : Guarded δ) (operator : Address) : Guarded δ :=
  { g with hidden := g.hidden.insert operator }

/-- A closed strategy is noticed before a hidden operator. -/
def slashShares [DelegationLedger δ] (a : Account) (before after : Magnitude) :
    EStateM DelegationFailure (Guarded δ) Shares := fun g =>
  match g.closed[a.strategy]? with
  | some reason => .error (.slashFailed reason) g
  | none =>
    if g.hidden.contains a.operator then .error (.unknownOperator a.operator) g
    else
      match DelegationLedger.slashShares a before after g.ledger with
      | .ok shares ledger => .ok shares { g with ledger }
      | .error e ledger => .error e { g with ledger }

instance [DelegationLedger δ] : DelegationLedger (Guarded δ) where
  isOperator g := DelegationLedger.isOperator g.ledger
  shares g := DelegationLedger.shares g.ledger
  slashShares := slashShares

end Guarded

end Restake
