import Restake.Books.Slashing
import Restake.Collaborators
import Restake.Tally

/-!
A manager holds the books, the clock and the collaborators. What it does to the books inside
`atomically` takes place as a whole or not at all.
-/
namespace Restake

structure Manager (δ ρ π : Type) where
  config : Config := {}
  block : BlockNumber := 0
  books : Books := {}
  delegation : δ
  registrar : ρ
  permissions : π
  tally : Tally := {}

abbrev Managing (δ ρ π : Type) := EStateM Failure (Manager δ ρ π)

namespace Manager

variable {δ ρ π α : Type}

/-- A manager before its first call. -/
def fresh (config : Config) (delegation : δ) (registrar : ρ) (permissions : π) : Manager δ ρ π :=
  { config, delegation, registrar, permissions }

/-- What a step answers, and the manager that it leaves behind whether it went through or not. -/
def attempt (m : Manager δ ρ π) (step : Managing δ ρ π α) : Except Failure α × Manager δ ρ π :=
  match step m with
  | .ok a m => (.ok a, m)
  | .error e m => (.error e, m)

/-- A step of bookkeeping, as part of a call. -/
def onBooks (step : Bookkeeping α) : Managing δ ρ π α := fun m =>
  match step m.books with
  | .ok a books => .ok a { m with books }
  | .error e books => .error e { m with books }

def onDelegation (step : EStateM DelegationFailure δ α) : Managing δ ρ π α := fun m =>
  match step m.delegation with
  | .ok a delegation => .ok a { m with delegation }
  | .error e delegation => .error (.delegation e) { m with delegation }

def onRegistrar (step : EStateM RegistrarFailure ρ α) : Managing δ ρ π α := fun m =>
  match step m.registrar with
  | .ok a registrar => .ok a { m with registrar }
  | .error e registrar => .error (.registrar e) { m with registrar }

/-- Calls a hook and goes on if it fails. -/
def tolerating (hook : EStateM RegistrarFailure ρ Unit) : Managing δ ρ π Unit := fun m =>
  match hook m.registrar with
  | .ok _ registrar => .ok () { m with registrar }
  | .error _ registrar => .ok () { m with registrar, tally := m.tally.hookFailed }

/-- Takes back every write to the books if `body` fails. -/
def atomically (body : Managing δ ρ π α) : Managing δ ρ π α := fun m =>
  match body { m with books := m.books.checkpoint } with
  | .ok a m => .ok a { m with books := m.books.commit }
  | .error e m => .error e { m with books := m.books.revert }

def count (f : Tally → Tally) : Managing δ ρ π Unit := modify fun m => { m with tally := f m.tally }

def mayCall [PermissionController π] (m : Manager δ ρ π) (principal caller : Address)
    (e : Entrypoint) : Bool :=
  principal = caller || PermissionController.canCall m.permissions principal caller e

def requireCaller [PermissionController π] (principal caller : Address) (e : Entrypoint) :
    Managing δ ρ π Unit := do
  unless (← get).mayCall principal caller e do throw (.unauthorized principal caller e)

def requireOperator [DelegationLedger δ] (operator : Address) : Managing δ ρ π Unit := do
  unless DelegationLedger.isOperator (← get).delegation operator do throw (.invalidOperator operator)

/-- Sets the clock, which never goes back. -/
def setBlock (block : BlockNumber) : Managing δ ρ π Unit := do
  let m ← get
  if block < m.block then throw (.blockRegression m.block block)
  set { m with block }

/-- Hands over the events of the calls that have committed. -/
def takeEvents : Managing δ ρ π (List Event) := do
  let m ← get
  set { m with books := { m.books with log := m.books.log.drained } }
  return m.books.log.committed.toList

end Manager

end Restake
