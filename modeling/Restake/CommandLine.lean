import Restake.Exposition
import Restake.Wire.Report
import Restake.Wire.Scenario

/-!
The command line: `replay` plays a scenario from a file and prints its report. A delay given as an
option beats one in the environment, which beats the one in the scenario; the environment is not
looked at for a delay given as an option.
-/
namespace Restake

/-- Environment variables that stand in for options. -/
structure Environment where
  deallocationDelay : Option String := none
  configurationDelay : Option String := none

inductive ReplayOption where
  | scenario
  | deallocationDelay
  | configurationDelay
deriving DecidableEq

inductive ReplayFlag where
  | printEvents
  | printMetrics
  | failFast
deriving DecidableEq

/-- The arguments of `replay` as they were given. -/
structure ReplayArgs where
  options : List (ReplayOption × String) := []
  flags : List ReplayFlag := []

structure ReplayCommand where
  scenario : String
  deallocationDelay : Option BlockNumber
  configurationDelay : Option BlockNumber
  printEvents : Bool
  printMetrics : Bool
  failFast : Bool

inductive Command where
  | version
  | replay (command : ReplayCommand)

namespace CommandLine

def optionNamed? : String → Option ReplayOption
  | "--scenario" => some .scenario
  | "--deallocation-delay" => some .deallocationDelay
  | "--allocation-configuration-delay" => some .configurationDelay
  | _ => none

def flagNamed? : String → Option ReplayFlag
  | "--print-events" => some .printEvents
  | "--print-metrics" => some .printMetrics
  | "--fail-fast" => some .failFast
  | _ => none

/-- An argument cut at its first equals sign. -/
def cut (arg : String) : String × Option String :=
  let cs := arg.toList
  let name := cs.takeWhile (· ≠ '=')
  match cs.dropWhile (· ≠ '=') with
  | [] => (arg, none)
  | _ :: value => (String.ofList name, some (String.ofList value))

/-- Whether an argument may be the value of the option before it. -/
def isValue (arg : String) : Bool := arg = "-" || arg.toList.head? ≠ some '-'

namespace ReplayArgs

def addOption (a : ReplayArgs) (o : ReplayOption) (value : String) : Option ReplayArgs :=
  if a.options.any (·.1 = o) then none else some { a with options := (o, value) :: a.options }

def addFlag (a : ReplayArgs) (f : ReplayFlag) : Option ReplayArgs :=
  if a.flags.contains f then none else some { a with flags := f :: a.flags }

end ReplayArgs

/-- Sorts the arguments of `replay`; an argument that it does not know, or that comes twice, or an
option without a value, is refused. Two dashes end the options, and nothing may come after. -/
def replayArgs? (given : ReplayArgs) : List String → Option ReplayArgs
  | [] | ["--"] => some given
  | arg :: rest =>
    match flagNamed? arg with
    | some flag => (ReplayArgs.addFlag given flag).bind (replayArgs? · rest)
    | none =>
      match cut arg, rest with
      | (name, some value), rest =>
        (optionNamed? name).bind fun o =>
          (ReplayArgs.addOption given o value).bind (replayArgs? · rest)
      | (name, none), value :: rest =>
        if isValue value then
          (optionNamed? name).bind fun o =>
            (ReplayArgs.addOption given o value).bind (replayArgs? · rest)
        else none
      | (_, none), [] => none

/-- A decimal number with an optional sign that is a block number. -/
def blockNumber? (text : String) : Option BlockNumber :=
  let (negative, digits) := match text.toList with
    | '-' :: rest => (true, rest)
    | '+' :: rest => (false, rest)
    | cs => (false, cs)
  if digits = [] || !digits.all Char.isDigit then none
  else
    let n := Nat.ofDigitChars 10 digits 0
    if n < UInt32.size && (!negative || n = 0) then some (.ofNat n) else none

/-- The value of a delay from its option, else from the environment; a value that is there must be
a block number. -/
def delay? (given : ReplayArgs) (o : ReplayOption) (inherited : Option String) :
    Option (Option BlockNumber) :=
  match (given.options.find? (·.1 = o)).map Prod.snd <|> inherited with
  | none => some none
  | some text => (blockNumber? text).map some

def replayCommand? (given : ReplayArgs) (env : Environment) : Option ReplayCommand := do
  let (_, scenario) ← given.options.find? (·.1 = .scenario)
  if scenario.isEmpty then none
  return {
    scenario
    deallocationDelay := ← delay? given .deallocationDelay env.deallocationDelay
    configurationDelay := ← delay? given .configurationDelay env.configurationDelay
    printEvents := given.flags.contains .printEvents
    printMetrics := given.flags.contains .printMetrics
    failFast := given.flags.contains .failFast }

/-- Whether an argument asks for the version; what is written on behind the short form is not read. -/
def asksVersion (arg : String) : Bool := arg = "--version" || arg.startsWith "-V"

/-- The command that arguments and environment ask for. -/
def command? (args : List String) (env : Environment) : Option Command :=
  match args with
  | [] => none
  | first :: rest =>
    if asksVersion first then some .version
    else if first = "replay" then ((replayArgs? {} rest).bind (replayCommand? · env)).map .replay
    else none

def versionText : String := "kunlun-cmd 0.1.0\n"

end CommandLine

namespace ReplayCommand

/-- The settings of a scenario with those of the command in their place. -/
def config (c : ReplayCommand) (s : Scenario) : Config :=
  let own := s.config.getD {}
  { own with
    deallocationDelay := c.deallocationDelay.getD own.deallocationDelay
    configurationDelay := c.configurationDelay.getD own.configurationDelay }

/-- What is printed for a scenario text, if it can be read and played. -/
def output? (c : ReplayCommand) (text : String) : Option String := do
  let scenario ← Scenario.ofText? text
  let (report, m) ← (Manager.play (c.config scenario) scenario c.failFast c.printEvents).toOption
  let metrics := if c.printMetrics then m.tally.exposition ++ "\n" else ""
  return report.toJson.pretty ++ "\n" ++ metrics

end ReplayCommand

/-- How the program ends, and what it has printed by then. -/
structure Exit where
  code : UInt32
  output : String

namespace Exit

def usage : Exit := ⟨2, ""⟩

def failure : Exit := ⟨1, ""⟩

def success (output : String) : Exit := ⟨0, output⟩

/-- The end of a command, given the text of its scenario file if that can be read. -/
def ofReplay (c : ReplayCommand) (text : Option String) : Exit :=
  ((text.bind c.output?).map success).getD failure

end Exit

end Restake
