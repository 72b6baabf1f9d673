import Restake.Allocation
import Restake.Books.EventLog
import Restake.Books.History
import Restake.Failure
import Restake.Fifo
import Restake.Registration
import Restake.UndoMap
import Std.Data.ExtTreeSet

/-!
The books: everything that calls read and write, under one checkpoint. A step of bookkeeping that
fails keeps what it wrote before; it is the checkpoint that makes a whole call take place or not.
-/
namespace Restake

abbrev AddressSet := Std.ExtTreeSet Address

structure Books where
  allocations : UndoMap Position Allocation := {}
  encumbered : UndoMap Account Magnitude := {}
  maxima : UndoMap Account History := {}
  /-- The sets in which an operator has an allocation that is not empty. -/
  allocatedSets : UndoMap Address (Std.ExtTreeSet OperatorSet) := {}
  /-- The strategies of an operator in a set whose allocation is not empty. -/
  allocatedStrategies : UndoMap Membership AddressSet := {}
  delays : UndoMap Address DelaySetting := {}
  queues : UndoMap Account (Fifo OperatorSet) := {}
  setIds : UndoMap Address (Std.ExtTreeSet UInt32) := {}
  /-- The strategies of every set there is. -/
  strategies : UndoMap OperatorSet AddressSet := {}
  members : UndoMap OperatorSet AddressSet := {}
  registrations : UndoMap Membership RegistrationStatus := {}
  registeredSets : UndoMap Address (Std.ExtTreeSet OperatorSet) := {}
  slashCounts : UndoMap OperatorSet UInt64 := {}
  log : EventLog := {}
deriving Inhabited

abbrev Bookkeeping := EStateM Failure Books

namespace Books

def emit (b : Books) (e : Event) : Books := { b with log := b.log.emit e }

def checkpoint (b : Books) : Books where
  allocations := b.allocations.checkpoint
  encumbered := b.encumbered.checkpoint
  maxima := b.maxima.checkpoint
  allocatedSets := b.allocatedSets.checkpoint
  allocatedStrategies := b.allocatedStrategies.checkpoint
  delays := b.delays.checkpoint
  queues := b.queues.checkpoint
  setIds := b.setIds.checkpoint
  strategies := b.strategies.checkpoint
  members := b.members.checkpoint
  registrations := b.registrations.checkpoint
  registeredSets := b.registeredSets.checkpoint
  slashCounts := b.slashCounts.checkpoint
  log := b.log.checkpoint

def commit (b : Books) : Books where
  allocations := b.allocations.commit
  encumbered := b.encumbered.commit
  maxima := b.maxima.commit
  allocatedSets := b.allocatedSets.commit
  allocatedStrategies := b.allocatedStrategies.commit
  delays := b.delays.commit
  queues := b.queues.commit
  setIds := b.setIds.commit
  strategies := b.strategies.commit
  members := b.members.commit
  registrations := b.registrations.commit
  registeredSets := b.registeredSets.commit
  slashCounts := b.slashCounts.commit
  log := b.log.commit

def revert (b : Books) : Books where
  allocations := b.allocations.revert
  encumbered := b.encumbered.revert
  maxima := b.maxima.revert
  allocatedSets := b.allocatedSets.revert
  allocatedStrategies := b.allocatedStrategies.revert
  delays := b.delays.revert
  queues := b.queues.revert
  setIds := b.setIds.revert
  strategies := b.strategies.revert
  members := b.members.revert
  registrations := b.registrations.revert
  registeredSets := b.registeredSets.revert
  slashCounts := b.slashCounts.revert
  log := b.log.revert

end Books

end Restake
