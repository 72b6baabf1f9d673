import Restake.Magnitude

/-!
Settings of the books, with the delays counted in blocks of twelve seconds.
-/
namespace Restake

structure Config where
  /-- How long a deallocation stays encumbered, and an operator that left stays slashable. -/
  deallocationDelay : BlockNumber := 100800
  /-- How long a newly asked allocation delay waits. -/
  configurationDelay : BlockNumber := 126000
  maxSetStrategies : UInt64 := 32
deriving DecidableEq

instance : Inhabited Config := ⟨{}⟩

end Restake
