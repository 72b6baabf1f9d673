import Restake.Proofs.Steps

/-!
What each step of bookkeeping writes, apart from when it may. A step is then its conditions, in
the order in which they are tried, with its write at their end. What is read after a write is
what was read before, but for the place that was written.
-/
namespace Restake

namespace UndoMap

variable {κ α : Type} [Ord κ] [Std.TransOrd κ] [Std.LawfulEqOrd κ] [DecidableEq κ]
variable [Ord α] [Std.TransOrd α] [Std.LawfulEqOrd α]

/-- What is in the sets of a map after one of them is given a new element. -/
theorem mem_update_insert (m : UndoMap κ (Std.ExtTreeSet α)) (k j : κ) (a x : α) :
    x ∈ ((m.update k (·.insert a)).find? j).getD ∅ ↔
      (k = j ∧ a = x) ∨ x ∈ (m.find? j).getD ∅ := by
  rw [find?_update]
  by_cases h : k = j
  · subst j
    rw [if_pos rfl, Option.getD_some, Std.ExtTreeSet.mem_insert, Std.LawfulEqCmp.compare_eq_iff_eq]
    simp only [true_and]
    rfl
  · rw [if_neg h]
    simp only [h, false_and, false_or]

/-- What is in the sets of a map after one of them has lost an element. -/
theorem mem_update_erase (m : UndoMap κ (Std.ExtTreeSet α)) (k j : κ) (a x : α) :
    x ∈ ((m.update k (·.erase a)).find? j).getD ∅ ↔
      ¬(k = j ∧ a = x) ∧ x ∈ (m.find? j).getD ∅ := by
  rw [find?_update]
  by_cases h : k = j
  · subst j
    rw [if_pos rfl, Option.getD_some, Std.ExtTreeSet.mem_erase, Ne,
      Std.LawfulEqCmp.compare_eq_iff_eq]
    simp only [true_and]
    rfl
  · rw [if_neg h]
    simp only [h, false_and, not_false_eq_true, true_and]

end UndoMap

namespace Books

open Steps

def delayAsked (b : Books) (operator : Address) (delay block effectBlock : BlockNumber) : Books :=
  { b with
    delays := b.delays.insert operator
      ((b.delaySetting operator).request delay block effectBlock) }.emit
    (.allocationDelaySet operator delay effectBlock)

def created (b : Books) (s : OperatorSet) : Books :=
  { b with
    setIds := b.setIds.update s.avs (·.insert s.id)
    strategies := b.strategies.insert s ∅ }.emit (.operatorSetCreated s)

def strategyAdded (b : Books) (s : OperatorSet) (x : Address) : Books :=
  { b with strategies := b.strategies.insert s ((b.strategiesOf s).insert x) }.emit
    (.strategyAddedToOperatorSet s x)

def strategyRemoved (b : Books) (s : OperatorSet) (x : Address) : Books :=
  { b with strategies := b.strategies.insert s ((b.strategiesOf s).erase x) }.emit
    (.strategyRemovedFromOperatorSet s x)

def joined (b : Books) (m : Membership) : Books :=
  { b with
    registrations := b.registrations.insert m .registered
    members := b.members.update m.set (·.insert m.operator)
    registeredSets := b.registeredSets.update m.operator (·.insert m.set) }.emit
    (.operatorAddedToOperatorSet m)

def departed (b : Books) (m : Membership) (slashableUntil : BlockNumber) : Books :=
  { b with
    registrations := b.registrations.insert m (.deregistered slashableUntil)
    members := b.members.update m.set (·.erase m.operator)
    registeredSets := b.registeredSets.update m.operator (·.erase m.set) }.emit
    (.operatorRemovedFromOperatorSet m)

def slashCounted (b : Books) (s : OperatorSet) : Books :=
  { b with slashCounts := b.slashCounts.update s (· + 1) }

/-- The books once their committed events have been handed over. -/
def drained (b : Books) : Books := { b with log := b.log.drained }

variable (b : Books)

theorem requireSet_apply (s : OperatorSet) :
    requireSet s b = if b.setExists s then .ok () b else .error (.invalidOperatorSet s) b := by
  simp only [requireSet, bind_apply, get_apply, if_apply, pure_apply, throw_apply]

theorem effectAfter_apply (block delay : BlockNumber) :
    effectAfter block delay b = match BlockNumber.after? block delay with
      | some effectBlock => .ok effectBlock b
      | none => .error (.blockOverflow block delay) b := by
  unfold effectAfter
  cases BlockNumber.after? block delay <;> rfl

theorem requestDelay_apply (configurationDelay : BlockNumber) (operator : Address)
    (delay block : BlockNumber) :
    requestDelay configurationDelay operator delay block b =
      match BlockNumber.after? block configurationDelay with
      | none => .error (.blockOverflow block configurationDelay) b
      | some effectBlock => .ok ((b.delaySetting operator).request delay block effectBlock)
        (b.delayAsked operator delay block effectBlock) := by
  unfold requestDelay
  cases BlockNumber.after? block configurationDelay <;> rfl

theorem addStrategy_apply (s : OperatorSet) (maxStrategies : UInt64) (x : Address) :
    addStrategy s maxStrategies x b =
      if (b.strategiesOf s).contains x then .error (.strategyAlreadyInSet s x) b
      else if maxStrategies.toNat < ((b.strategiesOf s).insert x).size then
        .error (.maxStrategiesExceeded s maxStrategies)
          { b with strategies := b.strategies.insert s ((b.strategiesOf s).insert x) }
      else .ok () (b.strategyAdded s x) := by
  simp only [addStrategy, bind_apply, get_apply, if_apply, throw_apply, modify_apply]
  rfl

theorem removeStrategy_apply (s : OperatorSet) (x : Address) :
    removeStrategy s x b =
      if (b.strategiesOf s).contains x then .ok () (b.strategyRemoved s x)
      else .error (.strategyNotInSet s x) b := by
  simp only [removeStrategy, bind_apply, get_apply, if_apply, throw_apply, modify_apply]
  rfl

theorem register_apply (m : Membership) :
    register m b =
      if b.setExists m.set then
        if (b.registration m).isRegistered then .error (.alreadyMember m) b
        else .ok () (b.joined m)
      else .error (.invalidOperatorSet m.set) b := by
  simp only [register, bind_apply, requireSet_apply, get_apply, if_apply, throw_apply, modify_apply]
  by_cases hs : b.setExists m.set
  · simp only [if_pos hs]
    rfl
  · simp only [if_neg hs]

theorem deregister_apply (slashableUntil : BlockNumber) (m : Membership) :
    deregister slashableUntil m b =
      if b.setExists m.set then
        if (b.registration m).isRegistered then .ok () (b.departed m slashableUntil)
        else .error (.notMember m) b
      else .error (.invalidOperatorSet m.set) b := by
  simp only [deregister, bind_apply, requireSet_apply, get_apply, if_apply, throw_apply,
    modify_apply]
  by_cases hs : b.setExists m.set
  · simp only [if_pos hs]
    rfl
  · simp only [if_neg hs]

theorem nextSlashId_apply (s : OperatorSet) :
    nextSlashId s b = .ok ((b.slashCounted s).slashCount s) (b.slashCounted s) := rfl

theorem settle_apply (p : Position) (block : BlockNumber) :
    settle p block b = match b.settled p block with
      | .ok (capacity, a) => .ok () (b.store p capacity a)
      | .error e => .error e b := by
  simp only [settle, bind_apply, get_apply, ofExcept_apply]
  cases b.settled p block <;> rfl

theorem settled_eq_ok {p : Position} {block : BlockNumber} {c : Capacity} {a : Allocation} :
    b.settled p block = .ok (c, a) ↔ a = (b.allocation p).asOf block ∧
      c.max = b.maxMagnitude p.account ∧ (c.encumbered.toNat : Int) =
        (b.encumberedMagnitude p.account).toNat + min (((b.allocation p).due? block).getD 0) 0 := by
  rw [← Magnitude.shift?_eq_some_iff]
  unfold settled
  dsimp only [capacity]
  cases Magnitude.shift? (b.encumberedMagnitude p.account)
      (min (((b.allocation p).due? block).getD 0) 0) with
  | some encumbered =>
    obtain ⟨max, encumbered'⟩ := c
    constructor
    · intro h
      cases h
      exact ⟨rfl, rfl, rfl⟩
    · intro hread
      rcases hread with ⟨rfl, rfl, h⟩
      cases h
      rfl
  | none => simp

theorem effectiveDelay_eq_ok {operator : Address} {block delay : BlockNumber} :
    b.effectiveDelay operator block = .ok delay ↔
      (b.delaySetting operator).resolve block = (true, delay) := by
  unfold effectiveDelay
  rcases (b.delaySetting operator).resolve block with ⟨_ | _, d⟩ <;> simp

theorem setAllocation_eq (p : Position) (a : Allocation) : ∃ allocatedSets allocatedStrategies log,
    b.setAllocation p a = { b with
      allocations := b.allocations.insert p a, allocatedSets, allocatedStrategies, log } := by
  unfold setAllocation index unindex emit
  dsimp only
  split
  · split <;> exact ⟨_, _, _, rfl⟩
  · exact ⟨_, _, _, rfl⟩

theorem store_eq (p : Position) (c : Capacity) (a : Allocation) :
    ∃ allocatedSets allocatedStrategies log, b.store p c a = { b with
      allocations := if b.allocation p = a then b.allocations else b.allocations.insert p a
      encumbered := if b.encumberedMagnitude p.account = c.encumbered then b.encumbered
        else b.encumbered.insert p.account c.encumbered
      allocatedSets, allocatedStrategies, log } := by
  unfold store
  dsimp only
  obtain ⟨sets, strategies, log, hset⟩ := b.setAllocation_eq p a
  by_cases ha : b.allocation p = a
  · simp only [if_pos ha]
    split <;> exact ⟨_, _, _, rfl⟩
  · have he : (b.setAllocation p a).encumberedMagnitude = b.encumberedMagnitude := by
      rw [hset]
      rfl
    simp only [if_neg ha, he]
    split
    · exact ⟨_, _, _, hset⟩
    · rw [hset]
      exact ⟨_, _, _, rfl⟩

/-- What writing an allocation leaves as it was. -/
@[simp] theorem store_frame (p : Position) (c : Capacity) (a : Allocation) :
    (b.store p c a).maxMagnitude = b.maxMagnitude ∧
      (b.store p c a).delaySetting = b.delaySetting ∧ (b.store p c a).queue = b.queue ∧
      (b.store p c a).setExists = b.setExists ∧ (b.store p c a).strategiesOf = b.strategiesOf ∧
      (b.store p c a).registration = b.registration := by
  obtain ⟨_, _, _, h⟩ := b.store_eq p c a
  rw [h]
  exact ⟨rfl, rfl, rfl, rfl, rfl, rfl⟩

theorem slashCount_store (p : Position) (c : Capacity) (a : Allocation) :
    (b.store p c a).slashCount = b.slashCount := by
  obtain ⟨_, _, _, h⟩ := b.store_eq p c a
  rw [h]
  rfl

@[simp] theorem allocation_store (p q : Position) (c : Capacity) (a : Allocation) :
    (b.store p c a).allocation q = if p = q then a else b.allocation q := by
  obtain ⟨_, _, _, h⟩ := b.store_eq p c a
  rw [h, allocation]
  dsimp only
  split
  · split
    · subst a q
      rfl
    · rfl
  · rw [UndoMap.find?_insert]
    split <;> rfl

@[simp] theorem encumberedMagnitude_store (p : Position) (x : Account) (c : Capacity) (a : Allocation) :
    (b.store p c a).encumberedMagnitude x =
      if p.account = x then c.encumbered else b.encumberedMagnitude x := by
  obtain ⟨_, _, _, h⟩ := b.store_eq p c a
  rw [h, encumberedMagnitude]
  dsimp only
  split
  · split
    · subst x
      assumption
    · rfl
  · rw [UndoMap.find?_insert]
    split <;> rfl

@[simp] theorem maxMagnitude_reduceMax (a x : Account) (m : Magnitude) (block : BlockNumber) :
    (b.reduceMax a m block).maxMagnitude x =
      if a = x then Magnitude.monus (b.maxMagnitude a) m else b.maxMagnitude x := by
  simp only [reduceMax, emit, maxMagnitude, history, UndoMap.find?_update]
  split
  · exact History.latest_push _ _ _
  · rfl

@[simp] theorem allocation_reduceMax (a : Account) (m : Magnitude) (block : BlockNumber) :
    (b.reduceMax a m block).allocation = b.allocation := rfl

@[simp] theorem allocation_enqueue (a : Account) (s : OperatorSet) :
    (b.enqueue a s).allocation = b.allocation := rfl

@[simp] theorem allocation_dequeue (a : Account) : (b.dequeue a).allocation = b.allocation := rfl

@[simp] theorem maxMagnitude_enqueue (a : Account) (s : OperatorSet) :
    (b.enqueue a s).maxMagnitude = b.maxMagnitude := rfl

@[simp] theorem maxMagnitude_dequeue (a : Account) :
    (b.dequeue a).maxMagnitude = b.maxMagnitude := rfl

@[simp] theorem queue_enqueue (a x : Account) (s : OperatorSet) :
    (b.enqueue a s).queue x = if a = x then (b.queue a).push s else b.queue x := by
  simp only [enqueue, queue, UndoMap.find?_update]
  split <;> rfl

@[simp] theorem queue_dequeue (a x : Account) :
    (b.dequeue a).queue x = if a = x then (b.queue a).pop else b.queue x := by
  simp only [dequeue, queue, UndoMap.find?_update]
  split <;> rfl

@[simp] theorem queued_store (p : Position) (c : Capacity) (a : Allocation) (x : Account) :
    (b.store p c a).queued x = b.queued x := by
  simp only [queued, store_frame]

theorem queued_dequeue (a x : Account) :
    (b.dequeue a).queued x = if a = x then (b.queued a).tail else b.queued x := by
  simp only [queued, queue_dequeue]
  split
  · exact Fifo.toList_pop _
  · rfl

theorem queued_enqueue {a : Account} (h : (b.queue a).WellFormed) (s : OperatorSet) (x : Account) :
    (b.enqueue a s).queued x = if a = x then b.queued a ++ [s] else b.queued x := by
  simp only [queued, queue_enqueue]
  split
  · exact Fifo.toList_push h s
  · rfl

theorem registration_joined (m m' : Membership) :
    (b.joined m).registration m' = if m = m' then .registered else b.registration m' := by
  simp only [registration, joined, emit, UndoMap.find?_insert]
  split <;> rfl

theorem registration_departed (m m' : Membership) (slashableUntil : BlockNumber) :
    (b.departed m slashableUntil).registration m' =
      if m = m' then .deregistered slashableUntil else b.registration m' := by
  simp only [registration, departed, emit, UndoMap.find?_insert]
  split <;> rfl

theorem mem_membersOf_joined (m : Membership) (o : Address) (s : OperatorSet) :
    o ∈ (b.joined m).membersOf s ↔ m = ⟨o, s⟩ ∨ o ∈ b.membersOf s := by
  obtain ⟨o', s'⟩ := m
  unfold membersOf joined
  rw [emit, UndoMap.mem_update_insert, Membership.mk.injEq, and_comm]

theorem mem_membersOf_departed (m : Membership) (slashableUntil : BlockNumber) (o : Address)
    (s : OperatorSet) :
    o ∈ (b.departed m slashableUntil).membersOf s ↔ m ≠ ⟨o, s⟩ ∧ o ∈ b.membersOf s := by
  obtain ⟨o', s'⟩ := m
  unfold membersOf departed
  rw [emit, UndoMap.mem_update_erase, Ne, Membership.mk.injEq, and_comm (a := o' = o)]

theorem mem_setsJoinedBy_joined (m : Membership) (o : Address) (s : OperatorSet) :
    s ∈ (b.joined m).setsJoinedBy o ↔ m = ⟨o, s⟩ ∨ s ∈ b.setsJoinedBy o := by
  obtain ⟨o', s'⟩ := m
  unfold setsJoinedBy joined
  rw [emit, UndoMap.mem_update_insert, Membership.mk.injEq]

theorem mem_setsJoinedBy_departed (m : Membership) (slashableUntil : BlockNumber) (o : Address)
    (s : OperatorSet) :
    s ∈ (b.departed m slashableUntil).setsJoinedBy o ↔ m ≠ ⟨o, s⟩ ∧ s ∈ b.setsJoinedBy o := by
  obtain ⟨o', s'⟩ := m
  unfold setsJoinedBy departed
  rw [emit, UndoMap.mem_update_erase, Ne, Membership.mk.injEq]

theorem mem_setIdsOf_created (s t : OperatorSet) :
    t.id ∈ (b.created s).setIdsOf t.avs ↔ s = t ∨ t.id ∈ b.setIdsOf t.avs := by
  obtain ⟨avs, id⟩ := s
  obtain ⟨avs', id'⟩ := t
  unfold setIdsOf created
  rw [emit, UndoMap.mem_update_insert, OperatorSet.mk.injEq]

theorem strategiesOf_created (s t : OperatorSet) :
    (b.created s).strategiesOf t = if s = t then ∅ else b.strategiesOf t := by
  simp only [strategiesOf, created, emit, UndoMap.find?_insert]
  split <;> rfl

theorem strategiesOf_strategyAdded (s t : OperatorSet) (x : Address) :
    (b.strategyAdded s x).strategiesOf t =
      if s = t then (b.strategiesOf s).insert x else b.strategiesOf t := by
  simp only [strategiesOf, strategyAdded, emit, UndoMap.find?_insert]
  split <;> rfl

theorem strategiesOf_strategyRemoved (s t : OperatorSet) (x : Address) :
    (b.strategyRemoved s x).strategiesOf t =
      if s = t then (b.strategiesOf s).erase x else b.strategiesOf t := by
  simp only [strategiesOf, strategyRemoved, emit, UndoMap.find?_insert]
  split <;> rfl

theorem setExists_strategyAdded (s t : OperatorSet) (x : Address) :
    (b.strategyAdded s x).setExists t = (decide (s = t) || b.setExists t) := by
  simp only [setExists, strategyAdded, emit, UndoMap.contains_eq_isSome, UndoMap.find?_insert]
  split <;> simp_all

theorem setExists_strategyRemoved (s t : OperatorSet) (x : Address) :
    (b.strategyRemoved s x).setExists t = (decide (s = t) || b.setExists t) := by
  simp only [setExists, strategyRemoved, emit, UndoMap.contains_eq_isSome, UndoMap.find?_insert]
  split <;> simp_all

theorem setExists_created (s t : OperatorSet) :
    (b.created s).setExists t = (decide (s = t) || b.setExists t) := by
  simp only [setExists, created, emit, UndoMap.contains_eq_isSome, UndoMap.find?_insert]
  split <;> simp_all

theorem delaySetting_delayAsked (operator o : Address) (delay block effectBlock : BlockNumber) :
    (b.delayAsked operator delay block effectBlock).delaySetting o =
      if operator = o then (b.delaySetting operator).request delay block effectBlock
      else b.delaySetting o := by
  simp only [delaySetting, delayAsked, emit, UndoMap.find?_insert]
  split <;> rfl

theorem slashCount_slashCounted (s t : OperatorSet) :
    (b.slashCounted s).slashCount t = if s = t then b.slashCount s + 1 else b.slashCount t := by
  simp only [slashCount, slashCounted, UndoMap.find?_update]
  split <;> rfl

theorem strategiesOf_eq_empty {s : OperatorSet} (h : b.setExists s = false) :
    b.strategiesOf s = ∅ := by
  rw [setExists, UndoMap.contains_eq_isSome, Option.isSome_eq_false_iff, Option.isNone_iff_eq_none] at h
  rw [strategiesOf, h, Option.getD_none]

end Books

end Restake
