import Restake.Collaborators
import Std.Data.ExtTreeMap

/-!
A share ledger kept in memory. An operator is known once it has a table of shares, be it empty.
-/
namespace Restake

structure LocalDelegation where
  table : Std.ExtTreeMap Address (Std.ExtTreeMap Address Shares) := ∅
deriving Inhabited

namespace LocalDelegation

def sharesOf (d : LocalDelegation) (operator : Address) : Std.ExtTreeMap Address Shares :=
  (d.table[operator]?).getD ∅

def isOperator (d : LocalDelegation) (operator : Address) : Bool := d.table.contains operator

def shares (d : LocalDelegation) (a : Account) : Shares := ((d.sharesOf a.operator)[a.strategy]?).getD 0

def registerOperator (d : LocalDelegation) (operator : Address) : LocalDelegation :=
  ⟨d.table.insert operator (d.sharesOf operator)⟩

/-- Sets a balance; the operator becomes known if it was not. -/
def setShares (d : LocalDelegation) (a : Account) (shares : Shares) : LocalDelegation :=
  ⟨d.table.insert a.operator ((d.sharesOf a.operator).insert a.strategy shares)⟩

/-- What the fall of a max from `before` to `after` costs a balance. -/
def burn (shares : Shares) (before after : Magnitude) : Shares :=
  shares.portion (Magnitude.monus before after) before

def slashShares (a : Account) (before after : Magnitude) :
    EStateM DelegationFailure LocalDelegation Shares := do
  match (← get).table[a.operator]? with
  | none => throw (.unknownOperator a.operator)
  | some balances =>
    match balances[a.strategy]? with
    | none => return 0
    | some shares =>
      let burnt := burn shares before after
      modify (·.setShares a (shares - burnt))
      return burnt

instance : DelegationLedger LocalDelegation where
  isOperator := isOperator
  shares := shares
  slashShares := slashShares

end LocalDelegation

end Restake
