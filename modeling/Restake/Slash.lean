import Restake.OperatorSet
import Restake.Shares

/-!
Requests to slash and what a slash removed, strategy by strategy.
-/
namespace Restake

structure SlashRequest where
  operator : Address
  setId : UInt32
  strategies : List Address
  /-- The part of the current allocation to slash, in units of `wad`, one for each strategy. -/
  wads : List UInt64
  description : String
deriving DecidableEq

structure SlashLeg where
  strategy : Address
  magnitude : Magnitude
  shares : Shares
deriving DecidableEq

structure SlashOutcome where
  id : UInt64 := 0
  legs : List SlashLeg := []
deriving DecidableEq, Inhabited

def SlashOutcome.total (o : SlashOutcome) : UInt64 := o.legs.foldl (fun n leg => n + leg.magnitude) 0

end Restake
