import Restake.Proofs.Writes

/-!
A call that fails leaves no trace in the books. From the checkpoint on every write rewinds to the
same books, whichever step of the call it belongs to, and going back yields just those. What is
left of a failed call is what its collaborators did to themselves.
-/
namespace Restake

open Steps

namespace UndoMap

variable {κ α : Type} [Ord κ] [Std.TransOrd κ]

/-- A checkpoint is open, and going back to it gives `m₀`. -/
def Rewinds (m m₀ : UndoMap κ α) : Prop := m.undo.isSome ∧ m.revert = m₀

theorem undo_revert (m : UndoMap κ α) : m.revert.undo = none := by
  unfold revert
  split
  · assumption
  · rfl

variable [Std.LawfulEqOrd κ]

theorem eq_of_find? {m m' : UndoMap κ α} (hundo : m.undo = m'.undo)
    (hfind : ∀ k, m.find? k = m'.find? k) : m = m' := by
  obtain ⟨entries, undo⟩ := m
  obtain ⟨entries', undo'⟩ := m'
  obtain rfl : undo = undo' := hundo
  obtain rfl : entries = entries' := Std.ExtTreeMap.ext_getElem? fun k => hfind k
  rfl

variable [DecidableEq κ]

theorem revert_eq_of_origin {m m' : UndoMap κ α} (h : ∀ k, m.origin k = m'.origin k) :
    m.revert = m'.revert := by
  apply eq_of_find?
  · rw [undo_revert, undo_revert]
  · intro k
    rw [find?_revert, find?_revert, h]

omit [Std.TransOrd κ] [Std.LawfulEqOrd κ] [DecidableEq κ] in
theorem commit_checkpoint {m : UndoMap κ α} (h : m.undo = none) : m.checkpoint.commit = m := by
  cases m
  cases h
  rfl

theorem rewinds_checkpoint {m : UndoMap κ α} (h : m.undo = none) : m.checkpoint.Rewinds m := by
  refine ⟨rfl, eq_of_find? ?_ fun k => ?_⟩
  · rw [undo_revert, h]
  · rw [find?_revert, origin_checkpoint]

namespace Rewinds

variable {m m₀ : UndoMap κ α}

theorem insert (h : m.Rewinds m₀) (k : κ) (v : α) : (m.insert k v).Rewinds m₀ := by
  refine ⟨?_, ?_⟩
  · simpa [UndoMap.insert, note] using h.1
  · rw [← h.2]
    exact revert_eq_of_origin fun j => origin_insert h.1 k j v

theorem erase (h : m.Rewinds m₀) (k : κ) : (m.erase k).Rewinds m₀ := by
  refine ⟨?_, ?_⟩
  · simpa [UndoMap.erase, note] using h.1
  · rw [← h.2]
    exact revert_eq_of_origin fun j => origin_erase h.1 k j

theorem update [Inhabited α] (h : m.Rewinds m₀) (k : κ) (f : α → α) :
    (m.update k f).Rewinds m₀ := h.insert k _

end Rewinds

end UndoMap

namespace EventLog

def Rewinds (l l₀ : EventLog) : Prop := l.isOpen ∧ l.revert = l₀

theorem commit_checkpoint {l : EventLog} (hopen : l.isOpen = false) (hpending : l.pending = #[]) :
    l.checkpoint.commit = l := by
  cases l
  cases hopen
  cases hpending
  rfl

theorem rewinds_checkpoint {l : EventLog} (hopen : l.isOpen = false) (hpending : l.pending = #[]) :
    l.checkpoint.Rewinds l := by
  refine ⟨rfl, ?_⟩
  obtain ⟨pending, committed, isOpen⟩ := l
  obtain rfl : pending = #[] := hpending
  obtain rfl : isOpen = false := hopen
  rfl

theorem Rewinds.emit {l l₀ : EventLog} (h : l.Rewinds l₀) (e : Event) : (l.emit e).Rewinds l₀ := by
  refine ⟨?_, ?_⟩
  · simp [EventLog.emit, h.1]
  · rw [revert_emit h.1]
    exact h.2

end EventLog

namespace Books

/-- No checkpoint is open. -/
structure Idle (b : Books) : Prop where
  allocations : b.allocations.undo = none
  encumbered : b.encumbered.undo = none
  maxima : b.maxima.undo = none
  allocatedSets : b.allocatedSets.undo = none
  allocatedStrategies : b.allocatedStrategies.undo = none
  delays : b.delays.undo = none
  queues : b.queues.undo = none
  setIds : b.setIds.undo = none
  strategies : b.strategies.undo = none
  members : b.members.undo = none
  registrations : b.registrations.undo = none
  registeredSets : b.registeredSets.undo = none
  slashCounts : b.slashCounts.undo = none
  log : b.log.isOpen = false
  pending : b.log.pending = #[]

/-- A checkpoint is open, and going back to it gives `b₀`. -/
structure Rewinds (b₀ b : Books) : Prop where
  allocations : b.allocations.Rewinds b₀.allocations
  encumbered : b.encumbered.Rewinds b₀.encumbered
  maxima : b.maxima.Rewinds b₀.maxima
  allocatedSets : b.allocatedSets.Rewinds b₀.allocatedSets
  allocatedStrategies : b.allocatedStrategies.Rewinds b₀.allocatedStrategies
  delays : b.delays.Rewinds b₀.delays
  queues : b.queues.Rewinds b₀.queues
  setIds : b.setIds.Rewinds b₀.setIds
  strategies : b.strategies.Rewinds b₀.strategies
  members : b.members.Rewinds b₀.members
  registrations : b.registrations.Rewinds b₀.registrations
  registeredSets : b.registeredSets.Rewinds b₀.registeredSets
  slashCounts : b.slashCounts.Rewinds b₀.slashCounts
  log : b.log.Rewinds b₀.log

theorem idle_empty : ({} : Books).Idle := by constructor <;> rfl

theorem idle_commit (b : Books) : b.commit.Idle := by constructor <;> rfl

theorem Idle.drained {b : Books} (h : b.Idle) : b.drained.Idle := { h with }

/-- A checkpoint that nothing is written under leaves no trace. -/
theorem Idle.commit_checkpoint {b : Books} (h : b.Idle) : b.checkpoint.commit = b := by
  simp only [checkpoint, commit, UndoMap.commit_checkpoint, EventLog.commit_checkpoint, h.allocations,
    h.encumbered, h.maxima, h.allocatedSets, h.allocatedStrategies, h.delays, h.queues, h.setIds,
    h.strategies, h.members, h.registrations, h.registeredSets, h.slashCounts, h.log, h.pending]

theorem rewinds_checkpoint {b : Books} (h : b.Idle) : Rewinds b b.checkpoint where
  allocations := UndoMap.rewinds_checkpoint h.allocations
  encumbered := UndoMap.rewinds_checkpoint h.encumbered
  maxima := UndoMap.rewinds_checkpoint h.maxima
  allocatedSets := UndoMap.rewinds_checkpoint h.allocatedSets
  allocatedStrategies := UndoMap.rewinds_checkpoint h.allocatedStrategies
  delays := UndoMap.rewinds_checkpoint h.delays
  queues := UndoMap.rewinds_checkpoint h.queues
  setIds := UndoMap.rewinds_checkpoint h.setIds
  strategies := UndoMap.rewinds_checkpoint h.strategies
  members := UndoMap.rewinds_checkpoint h.members
  registrations := UndoMap.rewinds_checkpoint h.registrations
  registeredSets := UndoMap.rewinds_checkpoint h.registeredSets
  slashCounts := UndoMap.rewinds_checkpoint h.slashCounts
  log := EventLog.rewinds_checkpoint h.log h.pending

namespace Rewinds

variable {b₀ b : Books} (h : Rewinds b₀ b)

include h

theorem revert_eq : b.revert = b₀ := by
  simp only [revert, h.allocations.2, h.encumbered.2, h.maxima.2, h.allocatedSets.2,
    h.allocatedStrategies.2, h.delays.2, h.queues.2, h.setIds.2, h.strategies.2, h.members.2,
    h.registrations.2, h.registeredSets.2, h.slashCounts.2, h.log.2]

theorem emit (e : Event) : Rewinds b₀ (b.emit e) := { h with log := h.log.emit e }

theorem setEncumbered (a : Account) (m : Magnitude) : Rewinds b₀ (b.setEncumbered a m) := by
  have hinsert : Rewinds b₀ { b with encumbered := b.encumbered.insert a m } :=
    { h with encumbered := h.encumbered.insert a m }
  exact hinsert.emit _

theorem reduceMax (a : Account) (m : Magnitude) (block : BlockNumber) :
    Rewinds b₀ (b.reduceMax a m block) := by
  have hpush : Rewinds b₀ { b with
      maxima := b.maxima.update a (·.push block (Magnitude.monus (b.maxMagnitude a) m)) } :=
    { h with maxima := h.maxima.update a _ }
  exact hpush.emit _

theorem index (p : Position) : Rewinds b₀ (b.index p) :=
  { h with
    allocatedSets := h.allocatedSets.update p.operator _
    allocatedStrategies := h.allocatedStrategies.update p.membership _ }

theorem unindex (p : Position) : Rewinds b₀ (b.unindex p) := by
  unfold Books.unindex
  dsimp only
  split
  · exact { h with
      allocatedSets := h.allocatedSets.update p.operator _
      allocatedStrategies := h.allocatedStrategies.erase p.membership }
  · exact { h with allocatedStrategies := h.allocatedStrategies.insert p.membership _ }

theorem setAllocation (p : Position) (a : Allocation) : Rewinds b₀ (b.setAllocation p a) := by
  have hinsert : Rewinds b₀ { b with allocations := b.allocations.insert p a } :=
    { h with allocations := h.allocations.insert p a }
  unfold Books.setAllocation
  dsimp only
  split
  · exact (hinsert.unindex p).emit _
  · exact (hinsert.index p).emit _

theorem store (p : Position) (c : Capacity) (a : Allocation) : Rewinds b₀ (b.store p c a) := by
  unfold Books.store
  dsimp only
  split <;> split
  · exact h
  · exact h.setEncumbered _ _
  · exact h.setAllocation p a
  · exact (h.setAllocation p a).setEncumbered _ _

theorem enqueue (a : Account) (s : OperatorSet) : Rewinds b₀ (b.enqueue a s) :=
  { h with queues := h.queues.update a _ }

theorem dequeue (a : Account) : Rewinds b₀ (b.dequeue a) :=
  { h with queues := h.queues.update a _ }

end Rewinds

/-- Whichever way the step ends, what it wrote rewinds. -/
abbrev Reversible {α : Type} (x : Bookkeeping α) : Prop :=
  ∀ b₀, Leads (Rewinds b₀) x (fun _ => Rewinds b₀) (Rewinds b₀)

theorem reversible_requireSet (s : OperatorSet) : Reversible (requireSet s) := by
  intro b₀ b h
  rw [requireSet_apply]
  split <;> exact h

theorem reversible_effectAfter (block delay : BlockNumber) : Reversible (effectAfter block delay) := by
  intro b₀ b h
  rw [effectAfter_apply]
  cases BlockNumber.after? block delay <;> exact h

theorem reversible_requestDelay (configurationDelay : BlockNumber) (operator : Address)
    (delay block : BlockNumber) :
    Reversible (requestDelay configurationDelay operator delay block) := by
  intro b₀ b h
  rw [requestDelay_apply]
  cases BlockNumber.after? block configurationDelay with
  | none => exact h
  | some effectBlock =>
    have hinsert : Rewinds b₀ { b with
        delays := b.delays.insert operator
          ((b.delaySetting operator).request delay block effectBlock) } :=
      { h with delays := h.delays.insert operator _ }
    exact hinsert.emit _

theorem reversible_addStrategy (s : OperatorSet) (maxStrategies : UInt64) (x : Address) :
    Reversible (addStrategy s maxStrategies x) := by
  intro b₀ b h
  have hinsert : Rewinds b₀
      { b with strategies := b.strategies.insert s ((b.strategiesOf s).insert x) } :=
    { h with strategies := h.strategies.insert s _ }
  rw [addStrategy_apply]
  split
  · exact h
  · split
    · exact hinsert
    · exact hinsert.emit _

theorem reversible_addStrategies (s : OperatorSet) (maxStrategies : UInt64) (xs : List Address) :
    Reversible (addStrategies s maxStrategies xs) := fun b₀ =>
  Leads.bind (reversible_requireSet s b₀) fun _ =>
    Leads.forM fun x _ => reversible_addStrategy s maxStrategies x b₀

theorem reversible_createSet (s : OperatorSet) (maxStrategies : UInt64) (xs : List Address) :
    Reversible (createSet s maxStrategies xs) := by
  intro b₀
  have hcreated : ∀ b, Rewinds b₀ b → Rewinds b₀ (b.created s) := by
    intro b h
    have hinsert : Rewinds b₀ { b with
        setIds := b.setIds.update s.avs (·.insert s.id)
        strategies := b.strategies.insert s ∅ } :=
      { h with
        setIds := h.setIds.update s.avs _
        strategies := h.strategies.insert s ∅ }
    exact hinsert.emit _
  refine Leads.read_bind fun b => Leads.ite (fun _ => Leads.throw_bind fun _ h => h) fun _ => ?_
  exact Leads.bind (Leads.modify hcreated) fun _ => reversible_addStrategies s _ xs b₀

theorem reversible_removeStrategies (s : OperatorSet) (xs : List Address) :
    Reversible (removeStrategies s xs) := by
  refine fun b₀ => Leads.bind (reversible_requireSet s b₀) fun _ => Leads.forM fun x _ b h => ?_
  rw [removeStrategy_apply]
  split
  · have hinsert : Rewinds b₀
        { b with strategies := b.strategies.insert s ((b.strategiesOf s).erase x) } :=
      { h with strategies := h.strategies.insert s _ }
    exact hinsert.emit _
  · exact h

theorem reversible_register (m : Membership) : Reversible (register m) := by
  intro b₀ b h
  rw [register_apply]
  split
  · split
    · exact h
    · have hinsert : Rewinds b₀ { b with
          registrations := b.registrations.insert m .registered
          members := b.members.update m.set (·.insert m.operator)
          registeredSets := b.registeredSets.update m.operator (·.insert m.set) } :=
        { h with
          registrations := h.registrations.insert m _
          members := h.members.update m.set _
          registeredSets := h.registeredSets.update m.operator _ }
      exact hinsert.emit _
  · exact h

theorem reversible_deregister (slashableUntil : BlockNumber) (m : Membership) :
    Reversible (deregister slashableUntil m) := by
  intro b₀ b h
  rw [deregister_apply]
  split
  · split
    · have hinsert : Rewinds b₀ { b with
          registrations := b.registrations.insert m (.deregistered slashableUntil)
          members := b.members.update m.set (·.erase m.operator)
          registeredSets := b.registeredSets.update m.operator (·.erase m.set) } :=
        { h with
          registrations := h.registrations.insert m _
          members := h.members.update m.set _
          registeredSets := h.registeredSets.update m.operator _ }
      exact hinsert.emit _
    · exact h
  · exact h

theorem reversible_nextSlashId (s : OperatorSet) : Reversible (nextSlashId s) :=
  fun _ _ h => { h with slashCounts := h.slashCounts.update s _ }

theorem reversible_settle (p : Position) (block : BlockNumber) : Reversible (settle p block) := by
  intro b₀ b h
  rw [settle_apply]
  cases b.settled p block with
  | ok r => exact h.store p r.1 r.2
  | error e => exact h

theorem reversible_clearFront (a : Account) (block : BlockNumber) (sets : List OperatorSet) :
    Reversible (clearFront a block sets) := by
  intro b₀
  induction sets with
  | nil => exact Leads.pure fun _ h => h
  | cons s rest ih =>
    have hclear : Leads (Rewinds b₀) (do
        settle (a.position s) block
        modify (·.dequeue a)
        return (← clearFront a block rest) + 1) (fun _ => Rewinds b₀) (Rewinds b₀) :=
      Leads.bind (reversible_settle _ block b₀) fun _ =>
        Leads.bind (Leads.modify fun b h => h.dequeue a) fun _ =>
          Leads.bind ih fun _ => Leads.pure fun _ h => h
    exact Leads.read_bind fun b => Leads.ite (fun _ => Leads.pure fun _ h => h) fun _ => hclear

theorem reversible_clearMatured (a : Account) (limit : Nat) (block : BlockNumber) :
    Reversible (clearMatured a limit block) :=
  fun _ => Leads.read_bind fun _ => reversible_clearFront a block _ _

theorem reversible_settleAccount (a : Account) (block : BlockNumber) :
    Reversible (settleAccount a block) := fun b₀ =>
  Leads.read_bind fun _ => Leads.bind (reversible_clearFront a block _ b₀) fun _ =>
    Leads.read_bind fun _ => Leads.forM fun _ _ => reversible_settle _ block b₀

theorem reversible_modifyAllocation (t : Terms) (slashable : Bool) (p : Position) (m : Magnitude) :
    Reversible (modifyAllocation t slashable p m) := by
  intro b₀
  have hstore : ∀ c a k, Leads (Rewinds b₀)
      (do modify (·.store p c a); return k : Bookkeeping ModificationKind)
      (fun _ => Rewinds b₀) (Rewinds b₀) := fun c a k =>
    Leads.bind (Leads.modify fun b h => h.store p c a) fun _ => Leads.pure fun _ h => h
  refine Leads.bind (reversible_settleAccount p.account t.block b₀) fun _ => ?_
  refine Leads.read_bind fun b => Leads.bind (M := fun _ => Rewinds b₀)
    (Leads.ofExcept (fun _ _ h _ => h) fun _ h => h) ?_
  intro settled
  rcases settled with ⟨capacity, a⟩
  refine Leads.ite (fun _ => Leads.throw_bind fun _ h => h) fun _ => ?_
  refine Leads.ite (fun _ => Leads.throw_bind fun _ h => h) fun _ => ?_
  refine Leads.ite (fun _ => ?_) fun _ => Leads.read_bind fun b' =>
    Leads.ite (fun _ => ?_) fun _ => ?_
  · refine Leads.ite (fun _ => Leads.throw_bind fun _ h => h) fun _ => ?_
    exact Leads.bind (reversible_effectAfter _ _ b₀) fun _ => hstore _ _ _
  · refine Leads.bind (reversible_effectAfter _ _ b₀) fun _ => Leads.bind (M := fun _ => Rewinds b₀)
      (Leads.modify fun b h => ?_) fun _ => Leads.pure fun _ h => h
    exact (h.enqueue p.account p.set).store p _ _
  · cases Magnitude.shift? capacity.encumbered (Magnitude.changeTo a.current m) with
    | none => exact Leads.throw fun _ h => h
    | some encumbered => exact hstore _ _ _

theorem reversible_applyRequest (t : Terms) (operator : Address) (r : AllocateRequest) :
    Reversible (applyRequest t operator r) := by
  intro b₀
  refine Leads.ite (fun _ => ?_) fun _ => Leads.throw_bind fun _ h => h
  refine Leads.bind (reversible_requireSet r.set b₀) fun _ => Leads.read_bind fun b => ?_
  exact Leads.mapM fun _ _ => reversible_modifyAllocation t _ _ _ b₀

theorem reversible_modifyAllocations (config : Config) (block : BlockNumber) (operator : Address)
    (requests : List AllocateRequest) :
    Reversible (modifyAllocations config block operator requests) := by
  intro b₀
  refine Leads.read_bind fun b => Leads.bind (M := fun _ => Rewinds b₀)
    (Leads.ofExcept (fun _ _ h _ => h) fun _ h => h) fun allocationDelay => ?_
  exact Leads.bind (Leads.mapM fun r _ => reversible_applyRequest _ operator r b₀) fun _ =>
    Leads.pure fun _ h => h

theorem reversible_cut (p : Position) (w : UInt64) (block : BlockNumber) :
    Reversible (cut p w block) := by
  intro b₀
  refine Leads.read_bind fun b => Leads.ite (fun _ => ?_) fun _ => Leads.pure fun _ h => h
  refine Leads.read_bind fun b => Leads.bind (M := fun _ => Rewinds b₀)
    (Leads.ofExcept (fun _ _ h _ => h) fun _ h => h) ?_
  intro settled
  rcases settled with ⟨capacity, a⟩
  refine Leads.ite (fun _ => Leads.pure fun _ h => h) fun _ => ?_
  dsimp only
  cases Magnitude.shift? capacity.encumbered (-(Magnitude.scale a.current w).toNat) with
  | none => exact Leads.throw fun _ h => h
  | some encumbered =>
    refine Leads.bind (M := fun _ => Rewinds b₀) (Leads.ofExcept (fun _ _ h _ => h) fun _ h => h) ?_
    intro pending
    refine Leads.bind (M := fun _ => Rewinds b₀) (Leads.modify fun b h => ?_) fun _ =>
      Leads.read_bind fun _ => Leads.pure fun _ h => h
    exact (h.store p _ _).reduceMax _ _ _

end Books

namespace Manager

variable {δ ρ π α : Type}

/-- The manager `m` in the course of a call: its books are in `P` and the collaborators that it
talks to may have changed. -/
def Amid (m : Manager δ ρ π) (P : Books → Prop) (m' : Manager δ ρ π) : Prop :=
  ∃ books delegation registrar, m' = { m with books, delegation, registrar } ∧ P books

theorem leads_onBooks {m : Manager δ ρ π} {P : Books → Prop} {step : Bookkeeping α}
    {Q : α → Books → Prop} {E : Books → Prop} (h : Leads P step Q E) :
    Leads (m.Amid P) (onBooks step) (fun a => m.Amid (Q a)) (m.Amid E) := by
  intro m' hm
  rcases hm with ⟨books, delegation, registrar, rfl, hP⟩
  unfold onBooks
  cases hs : step books with
  | ok a b => exact ⟨b, delegation, registrar, rfl, h.of_ok hP hs⟩
  | error e b => exact ⟨b, delegation, registrar, rfl, h.of_error hP hs⟩

theorem leads_onDelegation {m : Manager δ ρ π} {P : Books → Prop}
    {step : EStateM DelegationFailure δ α} :
    Leads (m.Amid P) (onDelegation step) (fun _ => m.Amid P) (m.Amid P) := by
  intro m' hm
  rcases hm with ⟨books, delegation, registrar, rfl, hP⟩
  unfold onDelegation
  cases hs : step delegation with
  | ok a d => exact ⟨books, d, registrar, rfl, hP⟩
  | error e d => exact ⟨books, d, registrar, rfl, hP⟩

theorem leads_onRegistrar {m : Manager δ ρ π} {P : Books → Prop}
    {step : EStateM RegistrarFailure ρ α} :
    Leads (m.Amid P) (onRegistrar step) (fun _ => m.Amid P) (m.Amid P) := by
  intro m' hm
  rcases hm with ⟨books, delegation, registrar, rfl, hP⟩
  unfold onRegistrar
  cases hs : step registrar with
  | ok a r => exact ⟨books, delegation, r, rfl, hP⟩
  | error e r => exact ⟨books, delegation, r, rfl, hP⟩

end Manager

end Restake
