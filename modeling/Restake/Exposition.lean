import Restake.Tally
import Restake.Text.Shortest

/-!
The tally in the text format that metrics are scraped in: families of counters sorted by name,
each with its help, its type and its samples sorted by label. A counter appears once it has been
counted on.
-/
namespace Restake

structure Sample where
  /-- The label that tells the samples of a family apart, and its value. -/
  label : Option (String × String)
  value : UInt64

structure Family where
  name : String
  help : String
  samples : List Sample

/-- What the name of every metric starts with. -/
def metricSpace : String := "kunlun_allocation_"

namespace Sample

def series (name : String) (s : Sample) : String :=
  match s.label with
  | none => metricSpace ++ name
  | some (label, value) => metricSpace ++ name ++ "\x7b" ++ label ++ "=\"" ++ value ++ "\"\x7d"

def line (name : String) (s : Sample) : String := s.series name ++ " " ++ Shortest.render s.value ++ "\n"

/-- The sample of a counter that appears with its first count. -/
def counted (label : Option (String × String)) (value : UInt64) : List Sample :=
  if value = 0 then [] else [⟨label, value⟩]

end Sample

def Family.text (f : Family) : String :=
  if f.samples.isEmpty then ""
  else
    "# HELP " ++ metricSpace ++ f.name ++ " " ++ f.help ++ "\n"
      ++ "# TYPE " ++ metricSpace ++ f.name ++ " counter\n"
      ++ String.join (f.samples.map (·.line f.name))

namespace Tally

def families (t : Tally) : List Family :=
  [{ name := "allocation_modifications_total"
     help := "Count of allocation modifications"
     samples := Sample.counted (some ("kind", "allocate")) t.allocations
       ++ Sample.counted (some ("kind", "instant_deallocation")) t.instantDeallocations
       ++ Sample.counted (some ("kind", "queued_deallocation")) t.queuedDeallocations },
   { name := "deallocations_cleared_total"
     help := "Count of deallocation queue entries cleared"
     samples := t.cleared.toList.map (⟨none, ·⟩) },
   { name := "magnitude_slashed_total"
     help := "Magnitude removed by slashing"
     samples := if t.slashes = 0 then [] else [⟨none, t.slashedMagnitude⟩] },
   { name := "registrar_failures_ignored_total"
     help := "Count of deregistration hook failures that were ignored"
     samples := Sample.counted none t.hookFailures },
   { name := "registrations_total"
     help := "Count of operator set registration changes"
     samples := Sample.counted (some ("action", "deregister")) t.deregistrations
       ++ Sample.counted (some ("action", "register")) t.registrations },
   { name := "slashes_total"
     help := "Count of slashes"
     samples := Sample.counted none t.slashes }]

def exposition (t : Tally) : String := String.join (t.families.map Family.text)

end Tally

end Restake
