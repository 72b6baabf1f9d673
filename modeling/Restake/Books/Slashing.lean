import Restake.Books.Magnitudes
import Restake.Books.Sets
import Restake.Slash

/-!
The part of a slash that the books see. Slashed magnitude leaves the allocation, the encumbered
magnitude and the max alike, and a deallocation that waits shrinks in the same proportion.
-/
namespace Restake

/-- What a slash took from one position, and how the max of its account moved. -/
structure Cut where
  magnitude : Magnitude
  maxBefore : Magnitude
  maxAfter : Magnitude
deriving DecidableEq

namespace Books

/-- Whether a request to slash may go ahead, or the first reason why not. -/
def checkSlash (b : Books) (s : OperatorSet) (r : SlashRequest) (block : BlockNumber) :
    Except Failure Unit := do
  unless b.setExists s do throw (.invalidOperatorSet s)
  unless b.isSlashable ⟨r.operator, s⟩ block do throw (.operatorNotSlashable ⟨r.operator, s⟩)
  unless r.strategies.length = r.wads.length do
    throw (.lengthMismatch r.strategies.length r.wads.length)
  unless r.strategies.Pairwise fun x y => compare x y = .lt do throw .strategiesNotAscending
  match r.wads.find? fun w => w = 0 || wad ≤ w with
  | some w => throw (.invalidWad w)
  | none => return

/-- The pending change after a slash of `w`; a deallocation gives up that much less. -/
def cutPending (a : Allocation) (w : UInt64) : Except Failure Int :=
  if a.isDeallocating then
    match Magnitude.shift? 0 (-a.pending) with
    | some p => .ok (a.pending + (Magnitude.scale p w).toNat)
    | none => .error (.magnitudeOutOfRange a.current a.pending)
  else .ok a.pending

/-- Slashes the part `w` of a position, unless its set lacks the strategy or nothing is allocated. -/
def cut (p : Position) (w : UInt64) (block : BlockNumber) : Bookkeeping (Option Cut) := do
  unless ((← get).strategiesOf p.set).contains p.strategy do return none
  let (capacity, a) ← MonadExcept.ofExcept ((← get).settled p block)
  if a.current = 0 then return none
  let magnitude := Magnitude.scale a.current w
  let a := { a with current := a.current - magnitude }
  match Magnitude.shift? capacity.encumbered (-magnitude.toNat) with
  | none => throw (.magnitudeOutOfRange capacity.encumbered (-magnitude.toNat))
  | some encumbered =>
    let pending ← MonadExcept.ofExcept (cutPending a w)
    modify fun b => (b.store p { capacity with encumbered } { a with pending }).reduceMax p.account
      magnitude block
    return some ⟨magnitude, capacity.max, (← get).maxMagnitude p.account⟩

end Books

end Restake
