import Mathlib.Algebra.Group.Nat.Defs
import Mathlib.Logic.Function.Basic
import Restake.Proofs.Postings

/-!
The books as the events tell them. A reader who enters one event after the other has every figure
and every operator set as the books have them, since each write to these leaves the events that say
so. A figure is the one in the last event about it. Slashes are told by their numbers.
-/
namespace Restake

theorem UndoMap.getD_find?_insert {κ α : Type} [Ord κ] [Std.TransOrd κ] [Std.LawfulEqOrd κ]
    [DecidableEq κ] (m : UndoMap κ α) (k : κ) (v d : α) :
    (fun j => ((m.insert k v).find? j).getD d) =
      Function.update (fun j => (m.find? j).getD d) k v := by
  funext j
  rw [find?_insert, Function.update_apply]
  by_cases hk : k = j
  · rw [if_pos hk, if_pos hk.symm, Option.getD_some]
  · rw [if_neg hk, if_neg (Ne.symm hk)]

namespace Event

/-- The account whose encumbered magnitude the event is about, and that magnitude. -/
def encumbered? : Event → Option (Account × Magnitude)
  | .encumberedMagnitudeUpdated a m => some (a, m)
  | _ => none

def max? : Event → Option (Account × Magnitude)
  | .maxMagnitudeUpdated a m => some (a, m)
  | _ => none

/-- What a position will hold, and from which block on. -/
def target? : Event → Option (Position × Magnitude × BlockNumber)
  | .allocationUpdated p m effectBlock => some (p, m, effectBlock)
  | _ => none

def delay? : Event → Option (Address × BlockNumber × BlockNumber)
  | .allocationDelaySet operator delay effectBlock => some (operator, delay, effectBlock)
  | _ => none

/-- The set that has slashed, and the number of the slash. -/
def slash? : Event → Option (OperatorSet × UInt64)
  | .operatorSlashed m _ _ _ id => some (m.set, id)
  | _ => none

/-- What the events say about `k`, one after the other. -/
def told {κ α : Type} [DecidableEq κ] (about? : Event → Option (κ × α)) (k : κ)
    (events : List Event) : List α :=
  events.filterMap fun e => (about? e).bind fun (j, v) => if j = k then some v else none

/-- What the last event about `k` says. -/
def last? {κ α : Type} [DecidableEq κ] (about? : Event → Option (κ × α)) (k : κ)
    (events : List Event) : Option α :=
  (told about? k events).getLast?

section Told

variable {κ α : Type} [DecidableEq κ] {about? : Event → Option (κ × α)} {k : κ}

theorem told_append (events events' : List Event) :
    told about? k (events ++ events') = told about? k events ++ told about? k events' :=
  List.filterMap_append

theorem told_cons_of_none {e : Event} (h : about? e = none) (events : List Event) :
    told about? k (e :: events) = told about? k events :=
  List.filterMap_cons_none (by rw [h]; rfl)

theorem told_cons_of_some {e : Event} {j : κ} {v : α} (h : about? e = some (j, v))
    (events : List Event) : told about? k (e :: events) =
      if j = k then v :: told about? k events else told about? k events := by
  rw [told, List.filterMap_cons, h]
  split <;> simp_all [told]

end Told

end Event

/-- What the events tell of the books. -/
@[ext]
structure Replica where
  encumbered : Account → Magnitude := fun _ => 0
  max : Account → Magnitude := fun _ => wad
  target : Position → Magnitude × BlockNumber := fun _ => (0, 0)
  delay : Address → BlockNumber × BlockNumber := fun _ => (0, 0)
  exists? : OperatorSet → Bool := fun _ => false
  setIds : Address → Std.ExtTreeSet UInt32 := fun _ => ∅
  strategies : OperatorSet → AddressSet := fun _ => ∅
  members : OperatorSet → AddressSet := fun _ => ∅
  joined : Address → Std.ExtTreeSet OperatorSet := fun _ => ∅

namespace Replica

open Function (update)

def enter (r : Replica) : Event → Replica
  | .allocationDelaySet operator delay effectBlock =>
    { r with delay := update r.delay operator (delay, effectBlock) }
  | .allocationUpdated p m effectBlock => { r with target := update r.target p (m, effectBlock) }
  | .encumberedMagnitudeUpdated a m => { r with encumbered := update r.encumbered a m }
  | .maxMagnitudeUpdated a m => { r with max := update r.max a m }
  | .operatorSlashed .. => r
  | .operatorSetCreated s =>
    { r with
      exists? := update r.exists? s true
      setIds := update r.setIds s.avs ((r.setIds s.avs).insert s.id)
      strategies := update r.strategies s ∅ }
  | .strategyAddedToOperatorSet s x =>
    { r with strategies := update r.strategies s ((r.strategies s).insert x) }
  | .strategyRemovedFromOperatorSet s x =>
    { r with strategies := update r.strategies s ((r.strategies s).erase x) }
  | .operatorAddedToOperatorSet m =>
    { r with
      members := update r.members m.set ((r.members m.set).insert m.operator)
      joined := update r.joined m.operator ((r.joined m.operator).insert m.set) }
  | .operatorRemovedFromOperatorSet m =>
    { r with
      members := update r.members m.set ((r.members m.set).erase m.operator)
      joined := update r.joined m.operator ((r.joined m.operator).erase m.set) }

/-- The books as a list of events tells them. -/
def ofEvents (events : List Event) : Replica := events.foldl enter {}

/-- A figure that an event sets or leaves alone is the one that the last event about it has set. -/
theorem foldl_enter_eq_last {κ α : Type} [DecidableEq κ] {figure : Replica → κ → α}
    {about? : Event → Option (κ × α)} (hfigure : ∀ r e, figure (r.enter e) =
      (about? e).elim (figure r) fun told => update (figure r) told.1 told.2)
    (events : List Event) (r : Replica) (k : κ) :
    figure (events.foldl enter r) k = (Event.last? about? k events).getD (figure r k) := by
  induction events generalizing r with
  | nil => rfl
  | cons e events ih =>
    rw [List.foldl_cons, ih, hfigure, Event.last?, Event.last?]
    cases habout : about? e with
    | none => rw [Event.told_cons_of_none habout, Option.elim_none]
    | some said =>
      obtain ⟨j, v⟩ := said
      rw [Event.told_cons_of_some habout, Option.elim_some, Function.update_apply]
      by_cases hk : j = k
      · rw [if_pos hk, if_pos hk.symm, List.getLast?_cons]
        rfl
      · rw [if_neg hk, if_neg (Ne.symm hk)]

theorem encumbered_ofEvents (events : List Event) (a : Account) :
    (ofEvents events).encumbered a = (Event.last? Event.encumbered? a events).getD 0 :=
  foldl_enter_eq_last (fun _ e => by cases e <;> rfl) events {} a

theorem max_ofEvents (events : List Event) (a : Account) :
    (ofEvents events).max a = (Event.last? Event.max? a events).getD wad :=
  foldl_enter_eq_last (fun _ e => by cases e <;> rfl) events {} a

theorem target_ofEvents (events : List Event) (p : Position) :
    (ofEvents events).target p = (Event.last? Event.target? p events).getD (0, 0) :=
  foldl_enter_eq_last (fun _ e => by cases e <;> rfl) events {} p

theorem delay_ofEvents (events : List Event) (operator : Address) :
    (ofEvents events).delay operator = (Event.last? Event.delay? operator events).getD (0, 0) :=
  foldl_enter_eq_last (fun _ e => by cases e <;> rfl) events {} operator

end Replica

namespace Books

open Function (update)

/-- What the books have of all that events tell. -/
def replica (b : Books) : Replica where
  encumbered := b.encumberedMagnitude
  max := b.maxMagnitude
  target p := ((b.allocation p).target, (b.allocation p).effectBlock)
  delay operator := ((b.delaySetting operator).pendingDelay, (b.delaySetting operator).effectBlock)
  exists? := b.setExists
  setIds := b.setIdsOf
  strategies := b.strategiesOf
  members := b.membersOf
  joined := b.setsJoinedBy

theorem replica_empty : ({} : Books).replica = {} := by
  have htarget : ({} : Allocation).target = 0 := by decide
  ext1 <;> funext k <;>
    simp [replica, encumberedMagnitude, maxMagnitude, history, allocation, delaySetting, setExists,
      setIdsOf, strategiesOf, membersOf, setsJoinedBy, UndoMap.find?_empty,
      UndoMap.contains_eq_isSome, htarget]

variable (b : Books)

theorem replica_setEncumbered (a : Account) (m : Magnitude) : (b.setEncumbered a m).replica =
    b.replica.enter (.encumberedMagnitudeUpdated a m) := by
  have hencumbered : (b.setEncumbered a m).encumberedMagnitude = update b.encumberedMagnitude a m :=
    UndoMap.getD_find?_insert _ _ _ _
  rw [replica, hencumbered]
  rfl

theorem replica_reduceMax (a : Account) (m : Magnitude) (block : BlockNumber) :
    (b.reduceMax a m block).replica =
      b.replica.enter (.maxMagnitudeUpdated a (Magnitude.monus (b.maxMagnitude a) m)) := by
  have hmax : (b.reduceMax a m block).maxMagnitude =
      update b.maxMagnitude a (Magnitude.monus (b.maxMagnitude a) m) := by
    funext x
    rw [maxMagnitude_reduceMax, Function.update_apply]
    exact if_congr eq_comm rfl rfl
  rw [replica, hmax]
  rfl

theorem replica_setAllocation (p : Position) (a : Allocation) : (b.setAllocation p a).replica =
    b.replica.enter (.allocationUpdated p a.target a.effectBlock) := by
  obtain ⟨_, _, _, hset⟩ := b.setAllocation_eq p a
  have hallocation : (b.setAllocation p a).allocation = update b.allocation p a := by
    rw [hset]
    exact UndoMap.getD_find?_insert _ _ _ _
  have htarget : (b.setAllocation p a).replica.target =
      update b.replica.target p (a.target, a.effectBlock) := by
    funext q
    simp only [replica, hallocation, Function.update_apply]
    split <;> rfl
  have hframe : (b.setAllocation p a).replica =
      { b.replica with target := (b.setAllocation p a).replica.target } := by
    rw [hset]
    rfl
  rw [hframe, htarget]
  rfl

theorem replica_delayAsked (operator : Address) (delay block effectBlock : BlockNumber) :
    (b.delayAsked operator delay block effectBlock).replica =
      b.replica.enter (.allocationDelaySet operator delay effectBlock) := by
  have hdelay : (b.delayAsked operator delay block effectBlock).replica.delay =
      update b.replica.delay operator (delay, effectBlock) := by
    funext o
    simp only [replica, delaySetting_delayAsked, Function.update_apply, eq_comm]
    split <;> rfl
  exact congrArg (fun delay => { b.replica with delay }) hdelay

theorem replica_created (s : OperatorSet) :
    (b.created s).replica = b.replica.enter (.operatorSetCreated s) := by
  have hexists : (b.created s).setExists = update b.setExists s true := by
    funext t
    rw [setExists_created, Function.update_apply]
    by_cases ht : s = t
    · simp [ht]
    · simp [ht, Ne.symm ht]
  have hids : (b.created s).setIdsOf =
      update b.setIdsOf s.avs ((b.setIdsOf s.avs).insert s.id) :=
    UndoMap.getD_find?_insert _ _ _ _
  have hstrategies : (b.created s).strategiesOf = update b.strategiesOf s ∅ :=
    UndoMap.getD_find?_insert _ _ _ _
  rw [replica, hexists, hids, hstrategies]
  rfl

/-- Giving a set that there is other strategies makes no new set. -/
theorem replica_setStrategies {s : OperatorSet} (hset : b.setExists s) (xs : AddressSet) :
    { b with strategies := b.strategies.insert s xs }.replica =
      { b.replica with strategies := update b.strategiesOf s xs } := by
  have hexists : { b with strategies := b.strategies.insert s xs }.setExists = b.setExists := by
    funext t
    rw [setExists, UndoMap.contains_eq_isSome, UndoMap.find?_insert]
    by_cases ht : s = t
    · rw [if_pos ht, ← ht, hset]
      rfl
    · rw [if_neg ht, setExists, UndoMap.contains_eq_isSome]
  have hstrategies : { b with strategies := b.strategies.insert s xs }.strategiesOf =
      update b.strategiesOf s xs :=
    UndoMap.getD_find?_insert _ _ _ _
  rw [replica, hexists, hstrategies]
  rfl

theorem replica_strategyAdded {s : OperatorSet} (hset : b.setExists s) (x : Address) :
    (b.strategyAdded s x).replica = b.replica.enter (.strategyAddedToOperatorSet s x) :=
  b.replica_setStrategies hset _

theorem replica_strategyRemoved {s : OperatorSet} (hset : b.setExists s) (x : Address) :
    (b.strategyRemoved s x).replica = b.replica.enter (.strategyRemovedFromOperatorSet s x) :=
  b.replica_setStrategies hset _

theorem replica_setMembers (s : OperatorSet) (operator : Address) (xs : AddressSet)
    (sets : Std.ExtTreeSet OperatorSet) :
    { b with
      members := b.members.insert s xs
      registeredSets := b.registeredSets.insert operator sets }.replica =
      { b.replica with
        members := update b.membersOf s xs
        joined := update b.setsJoinedBy operator sets } := by
  have hmembers : { b with members := b.members.insert s xs }.membersOf = update b.membersOf s xs :=
    UndoMap.getD_find?_insert _ _ _ _
  have hjoined : { b with registeredSets := b.registeredSets.insert operator sets }.setsJoinedBy =
      update b.setsJoinedBy operator sets :=
    UndoMap.getD_find?_insert _ _ _ _
  rw [← hmembers, ← hjoined]
  rfl

theorem replica_joined (m : Membership) :
    (b.joined m).replica = b.replica.enter (.operatorAddedToOperatorSet m) :=
  b.replica_setMembers _ _ _ _

theorem replica_departed (m : Membership) (slashableUntil : BlockNumber) :
    (b.departed m slashableUntil).replica =
      b.replica.enter (.operatorRemovedFromOperatorSet m) :=
  b.replica_setMembers _ _ _ _

end Books

/-- The numbers of `k` slashes after the slash `n`. -/
def slashIds (n : UInt64) (k : Nat) : List UInt64 := (List.range k).map fun i => n + .ofNat (i + 1)

theorem slashIds_add (n : UInt64) (j k : Nat) :
    slashIds n (j + k) = slashIds n j ++ slashIds (n + .ofNat j) k := by
  rw [slashIds, List.range_add, List.map_append, List.map_map]
  refine congrArg (slashIds n j ++ ·) (List.map_congr_left fun i _ => ?_)
  simp only [Function.comp_apply, UInt64.add_assoc, ← UInt64.ofNat_add, Nat.add_assoc]

theorem length_slashIds (n : UInt64) (k : Nat) : (slashIds n k).length = k := by
  rw [slashIds, List.length_map, List.length_range]

/-- As long as the numbers do not run over, they are one, two, and so on. -/
theorem toNat_slashIds {k : Nat} (hk : k < 2 ^ 64) :
    (slashIds 0 k).map UInt64.toNat = List.range' 1 k := by
  rw [slashIds, List.map_map, List.range'_eq_map_range]
  refine List.map_congr_left fun i hi => ?_
  have hlt : i + 1 < 2 ^ 64 := by
    have hmem := List.mem_range.1 hi
    omega
  rw [Function.comp_apply, UInt64.zero_add, UInt64.toNat_ofNat_of_lt' hlt, Nat.add_comm]

/-- No slash of any set. -/
def noSlash (_ : OperatorSet) : Nat := 0

/-- A posting that has no part in counting a slash. -/
def Entry.Quiet : Entry → Prop
  | .countSlash _ | .logSlash _ => False
  | _ => True

namespace Books

/-- The events tell what has changed from `b` to `b'`, and number so many slashes of each set. -/
structure Recounts (slashes : OperatorSet → Nat) (events : List Event) (b b' : Books) : Prop where
  entered : b'.replica = events.foldl .enter b.replica
  numbered : ∀ s, Event.told Event.slash? s events = slashIds (b.slashCount s) (slashes s)
  counted : ∀ s, b'.slashCount s = b.slashCount s + .ofNat (slashes s)

/-- The log of `b'` is that of `b` with events that tell what has changed. -/
def Tells (slashes : OperatorSet → Nat) (b b' : Books) : Prop :=
  ∃ events, b'.log = events.foldl .emit b.log ∧ Recounts slashes events b b'

variable {b b' b'' : Books} {slashes slashes' : OperatorSet → Nat} {events events' : List Event}

theorem Recounts.nil (hreplica : b'.replica = b.replica) (hcount : b'.slashCount = b.slashCount) :
    Recounts noSlash [] b b' :=
  ⟨hreplica, fun _ => rfl, fun s => by rw [hcount]; exact (UInt64.add_zero _).symm⟩

theorem Recounts.trans (h : Recounts slashes events b b') (h' : Recounts slashes' events' b' b'') :
    Recounts (fun s => slashes s + slashes' s) (events ++ events') b b'' where
  entered := by rw [List.foldl_append, ← h.entered, h'.entered]
  numbered s := by
    rw [Event.told_append, h.numbered, h'.numbered, h.counted, ← slashIds_add]
  counted s := by
    rw [h'.counted, h.counted, UInt64.add_assoc, ← UInt64.ofNat_add]

/-- Events that recount all since the beginning tell the books by themselves. -/
theorem Recounts.replica_eq (h : Recounts slashes events {} b) :
    Replica.ofEvents events = b.replica := by
  rw [h.entered, replica_empty]
  rfl

theorem Recounts.slashes_eq (h : Recounts slashes events {} b) (s : OperatorSet) :
    (Event.told Event.slash? s events).length = slashes s ∧
      (slashes s < 2 ^ 64 → (Event.told Event.slash? s events).map UInt64.toNat =
        List.range' 1 (b.slashCount s).toNat) := by
  have hnone : ({} : Books).slashCount s = 0 := by
    rw [slashCount, UndoMap.find?_empty]
    rfl
  have hnumbered := h.numbered s
  have hcounted := h.counted s
  rw [hnone] at hnumbered hcounted
  refine ⟨by rw [hnumbered, length_slashIds], fun hfew => ?_⟩
  rw [hnumbered, toNat_slashIds hfew, hcounted, UInt64.zero_add, UInt64.toNat_ofNat_of_lt' hfew]

theorem Tells.trans (h : Tells slashes b b') (h' : Tells slashes' b' b'') :
    Tells (fun s => slashes s + slashes' s) b b'' := by
  obtain ⟨events, hlog, hrecounts⟩ := h
  obtain ⟨events', hlog', hrecounts'⟩ := h'
  exact ⟨events ++ events', by rw [List.foldl_append, ← hlog, hlog'], hrecounts.trans hrecounts'⟩

theorem Tells.trans_quiet (h : Tells noSlash b b') (h' : Tells noSlash b' b'') :
    Tells noSlash b b'' :=
  h.trans h'

theorem Tells.silent (hlog : b'.log = b.log) (hreplica : b'.replica = b.replica)
    (hcount : b'.slashCount = b.slashCount) : Tells noSlash b b' :=
  ⟨[], hlog, .nil hreplica hcount⟩

theorem Tells.event {e : Event} (hlog : b'.log = b.log.emit e)
    (hreplica : b'.replica = b.replica.enter e) (hquiet : e.slash? = none)
    (hcount : b'.slashCount = b.slashCount) : Tells noSlash b b' := by
  refine ⟨[e], hlog, hreplica, fun s => ?_, fun s => ?_⟩
  · rw [Event.told_cons_of_none hquiet]
    rfl
  · rw [hcount]
    exact (UInt64.add_zero _).symm

theorem tells_setAllocation (b : Books) (p : Position) (a : Allocation) :
    Tells noSlash b (b.setAllocation p a) := by
  have hlog : (b.setAllocation p a).log =
      b.log.emit (.allocationUpdated p a.target a.effectBlock) := by
    unfold setAllocation index unindex emit
    dsimp only
    split
    · split <;> rfl
    · rfl
  refine .event hlog (replica_setAllocation b p a) rfl ?_
  obtain ⟨_, _, _, hset⟩ := b.setAllocation_eq p a
  rw [hset]
  rfl

theorem tells_setEncumbered (b : Books) (a : Account) (m : Magnitude) :
    Tells noSlash b (b.setEncumbered a m) :=
  .event rfl (replica_setEncumbered b a m) rfl rfl

theorem tells_store (b : Books) (p : Position) (c : Capacity) (a : Allocation) :
    Tells noSlash b (b.store p c a) := by
  have hallocation : Tells noSlash b (if b.allocation p = a then b else b.setAllocation p a) := by
    split
    · exact .silent rfl rfl rfl
    · exact tells_setAllocation b p a
  have hencumbered (b : Books) : Tells noSlash b
      (if b.encumberedMagnitude p.account = c.encumbered then b
        else b.setEncumbered p.account c.encumbered) := by
    split
    · exact .silent rfl rfl rfl
    · exact tells_setEncumbered b _ _
  exact hallocation.trans_quiet (hencumbered _)

theorem tells_reduceMax (b : Books) (a : Account) (m : Magnitude) (block : BlockNumber) :
    Tells noSlash b (b.reduceMax a m block) :=
  .event rfl (replica_reduceMax b a m block) rfl rfl

theorem tells_enqueue (b : Books) (a : Account) (s : OperatorSet) :
    Tells noSlash b (b.enqueue a s) :=
  .silent rfl rfl rfl

theorem tells_dequeue (b : Books) (a : Account) : Tells noSlash b (b.dequeue a) :=
  .silent rfl rfl rfl

theorem tells_posts {config : Config} {block : BlockNumber} {e : Entry} (hquiet : e.Quiet)
    (hpost : Posts config block e b b') : Tells noSlash b b' := by
  cases hpost with
  | delay => exact .event rfl (replica_delayAsked _ _ _ _ _) rfl rfl
  | create => exact .event rfl (replica_created _ _) rfl rfl
  | addStrategy hset => exact .event rfl (replica_strategyAdded _ hset _) rfl rfl
  | removeStrategy hset => exact .event rfl (replica_strategyRemoved _ hset _) rfl rfl
  | join => exact .event rfl (replica_joined _ _) rfl rfl
  | depart => exact .event rfl (replica_departed _ _ _) rfl rfl
  | countSlash => exact hquiet.elim
  | logSlash => exact hquiet.elim
  | clear => exact (tells_store _ _ _ _).trans_quiet (tells_dequeue _ _)
  | mature => exact tells_store _ _ _ _
  | allocate => exact tells_store _ _ _ _
  | deallocate => exact (tells_enqueue _ _ _).trans_quiet (tells_store _ _ _ _)
  | release => exact tells_store _ _ _ _
  | cut => exact (tells_store _ _ _ _).trans_quiet (tells_reduceMax _ _ _ _)

theorem tells_cut {p : Position} {w : UInt64} {block : BlockNumber} {r : Option Cut}
    (h : cut p w block b = .ok r b') : Tells noSlash b b' := by
  rcases cut_ok h with ⟨-, rfl, -⟩ | ⟨c, al, encumbered, pending, -, -, -, -, -, rfl, -⟩
  · exact .silent rfl rfl rfl
  · exact (tells_store _ _ _ _).trans_quiet (tells_reduceMax _ _ _ _)

/-- A slash is told once all that it does is done, under the number that was drawn for it first. -/
theorem tells_slash {m : Membership} (h : Tells noSlash (b.slashCounted m.set) b')
    (strategies : List Address) (wads : List UInt64) (description : String) :
    Tells (fun s => if m.set = s then 1 else 0) b (b'.emit
      (.operatorSlashed m strategies wads description (b.slashCount m.set + 1))) := by
  let event : Event := .operatorSlashed m strategies wads description (b.slashCount m.set + 1)
  obtain ⟨events, hlog, hentered, hnumbered, hcounted⟩ := h
  have hlog' : b'.log = events.foldl .emit b.log := hlog
  have hentered' : b'.replica = events.foldl .enter b.replica := hentered
  refine ⟨events ++ [event], ?_, ?_, fun s => ?_, fun s => ?_⟩
  · rw [List.foldl_append, ← hlog']
    rfl
  · rw [List.foldl_append, ← hentered']
    rfl
  · have hevent : event.slash? = some (m.set, b.slashCount m.set + 1) := rfl
    rw [Event.told_append, hnumbered, Event.told_cons_of_some hevent]
    by_cases hs : m.set = s
    · rw [if_pos hs, if_pos hs, ← hs]
      rfl
    · rw [if_neg hs, if_neg hs]
      rfl
  · have hemit : (b'.emit event).slashCount s = b'.slashCount s := rfl
    rw [hemit, hcounted, slashCount_slashCounted]
    by_cases hs : m.set = s
    · rw [if_pos hs, if_pos hs, ← hs]
      exact UInt64.add_zero _
    · rw [if_neg hs, if_neg hs]
      rfl

end Books

namespace EventLog

/-- What is told under a checkpoint is committed behind what was committed before. -/
theorem commit_foldl_emit {l : EventLog} (hopen : l.isOpen) (events : List Event) :
    (events.foldl emit l).commit.committed.toList =
      l.committed.toList ++ (l.pending.toList ++ events) := by
  induction events generalizing l with
  | nil => simp [commit]
  | cons e events ih =>
    have hemit : l.emit e = { l with pending := l.pending.push e } := if_pos hopen
    rw [List.foldl_cons, ih (by rw [hemit]; exact hopen), hemit, Array.toList_push,
      List.append_assoc]
    rfl

end EventLog

end Restake
