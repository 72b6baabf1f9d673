import Restake.Collaborators

/-!
Grants kept in memory: who may make which call for whom.
-/
namespace Restake

structure Grant where
  principal : Address
  appointee : Address
  entrypoint : Entrypoint
deriving DecidableEq

structure LocalPermissions where
  grants : List Grant := []
deriving Inhabited

namespace LocalPermissions

def canCall (p : LocalPermissions) (principal caller : Address) (e : Entrypoint) : Bool :=
  p.grants.contains ⟨principal, caller, e⟩

def grant (p : LocalPermissions) (g : Grant) : LocalPermissions := ⟨p.grants.insert g⟩

def withdraw (p : LocalPermissions) (g : Grant) : LocalPermissions := ⟨p.grants.filter (· ≠ g)⟩

instance : PermissionController LocalPermissions where
  canCall := canCall

end LocalPermissions

end Restake
