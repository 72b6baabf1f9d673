import Restake.OperatorSet

/-!
What an operator has allocated to one strategy of one operator set: a magnitude in force and a
change of it that waits for its block. `asOf` is the allocation as a block sees it, with a change
that is due carried out.
-/
namespace Restake

structure Allocation where
  current : Magnitude := 0
  pending : Int := 0
  effectBlock : BlockNumber := 0
deriving DecidableEq, Inhabited

namespace Allocation

def isPending (a : Allocation) : Bool := a.pending ≠ 0

def isDeallocating (a : Allocation) : Bool := a.pending < 0

def isMatured (a : Allocation) (block : BlockNumber) : Bool := a.isPending && a.effectBlock ≤ block

/-- Nothing is in force and nothing is on its way. -/
def isEmpty (a : Allocation) : Bool := a.current = 0 && a.pending = 0

/-- The magnitude once the pending change is made; zero if the change leaves the range. -/
def target (a : Allocation) : Magnitude := (Magnitude.shift? a.current a.pending).getD 0

/-- The change that is due at `block`. -/
def due? (a : Allocation) (block : BlockNumber) : Option Int :=
  if a.isMatured block then some a.pending else none

def asOf (a : Allocation) (block : BlockNumber) : Allocation :=
  if a.isMatured block then { a with current := a.target, pending := 0 } else a

@[simp] theorem effectBlock_asOf (a : Allocation) (block : BlockNumber) :
    (a.asOf block).effectBlock = a.effectBlock := by
  unfold asOf
  split <;> rfl

end Allocation

/-- The capacity of one strategy of one operator, and how much of it is spoken for. -/
structure Capacity where
  max : Magnitude := wad
  encumbered : Magnitude := 0
deriving DecidableEq

instance : Inhabited Capacity := ⟨{}⟩

def Capacity.free (c : Capacity) : Magnitude := Magnitude.monus c.max c.encumbered

/-- Magnitudes that an operator wants for strategies of one operator set. -/
structure AllocateRequest where
  set : OperatorSet
  strategies : List Address
  magnitudes : List Magnitude
deriving DecidableEq

/-- How long new allocations of an operator wait, and the delay that will replace it. -/
structure DelaySetting where
  delay : BlockNumber := 0
  pendingDelay : BlockNumber := 0
  effectBlock : BlockNumber := 0
  isSet : Bool := false
deriving DecidableEq, Inhabited

namespace DelaySetting

def hasMatured (d : DelaySetting) (block : BlockNumber) : Bool :=
  d.effectBlock ≠ 0 && d.effectBlock ≤ block

/-- Whether a delay is in force at `block`, and which. -/
def resolve (d : DelaySetting) (block : BlockNumber) : Bool × BlockNumber :=
  if d.hasMatured block then (true, d.pendingDelay) else (d.isSet, d.delay)

/-- The setting once `delay` is asked for at `block` and will take effect at `effectBlock`. -/
def request (d : DelaySetting) (delay block effectBlock : BlockNumber) : DelaySetting :=
  let (isSet, inForce) := d.resolve block
  { delay := inForce, pendingDelay := delay, effectBlock, isSet }

end DelaySetting

end Restake
