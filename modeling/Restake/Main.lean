import Restake.CommandLine

/-!
The program: arguments and environment in, a report out.
-/
open Restake

/-- The text of a file, if it can be read. -/
def fileText (path : String) : IO (Option String) := do
  try
    return some (← IO.FS.readFile path)
  catch _ => return none

def main (args : List String) : IO UInt32 := do
  let env : Environment :=
    { deallocationDelay := ← IO.getEnv "DEALLOCATION_DELAY"
      configurationDelay := ← IO.getEnv "ALLOCATION_CONFIGURATION_DELAY" }
  let exit ← match CommandLine.command? args env with
    | none => pure Exit.usage
    | some .version => pure (Exit.success CommandLine.versionText)
    | some (.replay c) => do pure (Exit.ofReplay c (← fileText c.scenario))
  IO.print exit.output
  return exit.code
