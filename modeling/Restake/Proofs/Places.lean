import Restake.Proofs.Runs

/-!
Where the books keep what. Each posting writes to a few places, named after the position, account,
operator or set that they belong to, and what is kept at other places stays as it is. Books that
agree at some places read alike there, and still do once the same has been written to both.
-/
namespace Restake

open Steps

/-- A place in the books. -/
inductive Place where
  | allocation (p : Position)
  /-- The capacity of an account, the history of its max and its queue. -/
  | account (a : Account)
  /-- The index of what an operator has allocated. -/
  | index (operator : Address)
  | delay (operator : Address)
  | registration (m : Membership)
  | joined (operator : Address)
  | members (s : OperatorSet)
  /-- Whether a set exists, and its strategies. -/
  | set (s : OperatorSet)
  | ids (avs : Address)
  | slashCount (s : OperatorSet)

/-- The places that writing an allocation can touch. -/
def Position.places (p : Position) : List Place :=
  [.allocation p, .account p.account, .index p.operator]

/-- The places that a posting can touch. -/
def Entry.places : Entry → List Place
  | .delay operator => [.delay operator]
  | .create s => [.set s, .ids s.avs]
  | .addStrategy s _ => [.set s]
  | .removeStrategy s _ => [.set s]
  | .join m => [.registration m, .joined m.operator, .members m.set]
  | .depart m => [.registration m, .joined m.operator, .members m.set]
  | .countSlash s => [.slashCount s]
  | .logSlash _ => []
  | .clear a s => (a.position s).places
  | .mature p => p.places
  | .allocate p _ => p.places
  | .deallocate p _ => p.places
  | .release p _ => p.places
  | .cut p _ => p.places

namespace UndoMap

variable {κ α : Type} [Ord κ] [Std.TransOrd κ] {keys : κ → Prop} {m m' : UndoMap κ α}

/-- The two give the same value to each of the keys. -/
def SameAt (keys : κ → Prop) (m m' : UndoMap κ α) : Prop := ∀ k, keys k → m'.find? k = m.find? k

namespace SameAt

theorem refl (keys : κ → Prop) (m : UndoMap κ α) : SameAt keys m m := fun _ _ => rfl

theorem symm (h : SameAt keys m m') : SameAt keys m' m := fun k hk => (h k hk).symm

theorem trans {m'' : UndoMap κ α} (h : SameAt keys m m') (h' : SameAt keys m' m'') :
    SameAt keys m m'' := fun k hk => (h' k hk).trans (h k hk)

variable [Std.LawfulEqOrd κ] [DecidableEq κ]

theorem insert (h : SameAt keys m m') (k : κ) (v : α) :
    SameAt keys (m.insert k v) (m'.insert k v) := by
  intro j hj
  rw [find?_insert, find?_insert, h j hj]

theorem erase (h : SameAt keys m m') (k : κ) : SameAt keys (m.erase k) (m'.erase k) := by
  intro j hj
  rw [find?_erase, find?_erase, h j hj]

theorem update [Inhabited α] (h : SameAt keys m m') (k : κ) (f : α → α) :
    SameAt keys (m.update k f) (m'.update k f) := by
  intro j hj
  rw [find?_update, find?_update, h j hj]
  split
  next heq => rw [heq, h j hj]
  next => rfl

/-- What is written to another key does not matter. -/
theorem insert_right (h : SameAt keys m m') {k : κ} (hk : ¬keys k) (v : α) :
    SameAt keys m (m'.insert k v) := by
  intro j hj
  rw [find?_insert, if_neg, h j hj]
  intro heq
  exact hk (heq ▸ hj)

theorem erase_right (h : SameAt keys m m') {k : κ} (hk : ¬keys k) : SameAt keys m (m'.erase k) := by
  intro j hj
  rw [find?_erase, if_neg, h j hj]
  intro heq
  exact hk (heq ▸ hj)

theorem update_right [Inhabited α] (h : SameAt keys m m') {k : κ} (hk : ¬keys k) (f : α → α) :
    SameAt keys m (m'.update k f) := h.insert_right hk _

end SameAt

end UndoMap

namespace Books

/-- The two agree at the places in question. -/
structure SameAt (scope : Place → Prop) (b b' : Books) : Prop where
  allocations : b.allocations.SameAt (fun p => scope (.allocation p)) b'.allocations
  encumbered : b.encumbered.SameAt (fun a => scope (.account a)) b'.encumbered
  maxima : b.maxima.SameAt (fun a => scope (.account a)) b'.maxima
  queues : b.queues.SameAt (fun a => scope (.account a)) b'.queues
  allocatedSets : b.allocatedSets.SameAt (fun o => scope (.index o)) b'.allocatedSets
  allocatedStrategies :
    b.allocatedStrategies.SameAt (fun m => scope (.index m.operator)) b'.allocatedStrategies
  delays : b.delays.SameAt (fun o => scope (.delay o)) b'.delays
  registrations : b.registrations.SameAt (fun m => scope (.registration m)) b'.registrations
  registeredSets : b.registeredSets.SameAt (fun o => scope (.joined o)) b'.registeredSets
  members : b.members.SameAt (fun s => scope (.members s)) b'.members
  strategies : b.strategies.SameAt (fun s => scope (.set s)) b'.strategies
  setIds : b.setIds.SameAt (fun avs => scope (.ids avs)) b'.setIds
  slashCounts : b.slashCounts.SameAt (fun s => scope (.slashCount s)) b'.slashCounts

namespace SameAt

variable {scope : Place → Prop} {b b' : Books}

theorem refl (scope : Place → Prop) (b : Books) : SameAt scope b b := by
  constructor <;> exact UndoMap.SameAt.refl _ _

theorem of_checkpoint (scope : Place → Prop) (b : Books) : SameAt scope b b.checkpoint := by
  constructor <;> exact fun _ _ => rfl

theorem of_commit (scope : Place → Prop) (b : Books) : SameAt scope b b.commit := by
  constructor <;> exact fun _ _ => rfl

theorem of_drained (scope : Place → Prop) (b : Books) : SameAt scope b b.drained := by
  constructor <;> exact fun _ _ => rfl

variable (h : SameAt scope b b')

include h

theorem symm : SameAt scope b' b where
  allocations := h.allocations.symm
  encumbered := h.encumbered.symm
  maxima := h.maxima.symm
  queues := h.queues.symm
  allocatedSets := h.allocatedSets.symm
  allocatedStrategies := h.allocatedStrategies.symm
  delays := h.delays.symm
  registrations := h.registrations.symm
  registeredSets := h.registeredSets.symm
  members := h.members.symm
  strategies := h.strategies.symm
  setIds := h.setIds.symm
  slashCounts := h.slashCounts.symm

theorem trans {b'' : Books} (h' : SameAt scope b' b'') : SameAt scope b b'' where
  allocations := h.allocations.trans h'.allocations
  encumbered := h.encumbered.trans h'.encumbered
  maxima := h.maxima.trans h'.maxima
  queues := h.queues.trans h'.queues
  allocatedSets := h.allocatedSets.trans h'.allocatedSets
  allocatedStrategies := h.allocatedStrategies.trans h'.allocatedStrategies
  delays := h.delays.trans h'.delays
  registrations := h.registrations.trans h'.registrations
  registeredSets := h.registeredSets.trans h'.registeredSets
  members := h.members.trans h'.members
  strategies := h.strategies.trans h'.strategies
  setIds := h.setIds.trans h'.setIds
  slashCounts := h.slashCounts.trans h'.slashCounts

theorem mono {scope' : Place → Prop} (hscope : ∀ k, scope' k → scope k) : SameAt scope' b b' where
  allocations k hk := h.allocations k (hscope _ hk)
  encumbered k hk := h.encumbered k (hscope _ hk)
  maxima k hk := h.maxima k (hscope _ hk)
  queues k hk := h.queues k (hscope _ hk)
  allocatedSets k hk := h.allocatedSets k (hscope _ hk)
  allocatedStrategies k hk := h.allocatedStrategies k (hscope _ hk)
  delays k hk := h.delays k (hscope _ hk)
  registrations k hk := h.registrations k (hscope _ hk)
  registeredSets k hk := h.registeredSets k (hscope _ hk)
  members k hk := h.members k (hscope _ hk)
  strategies k hk := h.strategies k (hscope _ hk)
  setIds k hk := h.setIds k (hscope _ hk)
  slashCounts k hk := h.slashCounts k (hscope _ hk)

section Reads

theorem allocation {p : Position} (hp : scope (.allocation p)) :
    b'.allocation p = b.allocation p := by
  rw [Books.allocation, Books.allocation, h.allocations p hp]

theorem encumberedMagnitude {a : Account} (ha : scope (.account a)) :
    b'.encumberedMagnitude a = b.encumberedMagnitude a := by
  rw [Books.encumberedMagnitude, Books.encumberedMagnitude, h.encumbered a ha]

theorem history {a : Account} (ha : scope (.account a)) : b'.history a = b.history a := by
  rw [Books.history, Books.history, h.maxima a ha]

theorem maxMagnitude {a : Account} (ha : scope (.account a)) :
    b'.maxMagnitude a = b.maxMagnitude a := by
  rw [Books.maxMagnitude, Books.maxMagnitude, h.history ha]

theorem queued {a : Account} (ha : scope (.account a)) : b'.queued a = b.queued a := by
  rw [Books.queued, Books.queued, queue, queue, h.queues a ha]

theorem settled {p : Position} (hp : scope (.allocation p)) (ha : scope (.account p.account))
    (block : BlockNumber) : b'.settled p block = b.settled p block := by
  unfold Books.settled capacity
  rw [h.allocation hp, h.maxMagnitude ha, h.encumberedMagnitude ha]

theorem setsAllocatedTo {operator : Address} (ho : scope (.index operator)) :
    b'.setsAllocatedTo operator = b.setsAllocatedTo operator := by
  rw [Books.setsAllocatedTo, Books.setsAllocatedTo, h.allocatedSets operator ho]

theorem strategiesAllocatedTo {m : Membership} (ho : scope (.index m.operator)) :
    b'.strategiesAllocatedTo m = b.strategiesAllocatedTo m := by
  rw [Books.strategiesAllocatedTo, Books.strategiesAllocatedTo, h.allocatedStrategies m ho]

theorem accountAllocations {a : Account} (ho : scope (.index a.operator))
    (hp : ∀ s, scope (.allocation (a.position s))) :
    b'.accountAllocations a = b.accountAllocations a := by
  have hstrategies : ∀ s, b'.allocatedStrategies.find? ⟨a.operator, s⟩ =
      b.allocatedStrategies.find? ⟨a.operator, s⟩ := fun s => h.allocatedStrategies _ ho
  have hallocations : ∀ s, b'.allocation (a.position s) = b.allocation (a.position s) :=
    fun s => h.allocation (hp s)
  simp only [Books.accountAllocations, h.setsAllocatedTo ho, hstrategies, hallocations]

theorem delaySetting {operator : Address} (ho : scope (.delay operator)) :
    b'.delaySetting operator = b.delaySetting operator := by
  rw [Books.delaySetting, Books.delaySetting, h.delays operator ho]

theorem registration {m : Membership} (hm : scope (.registration m)) :
    b'.registration m = b.registration m := by
  rw [Books.registration, Books.registration, h.registrations m hm]

theorem isSlashable {m : Membership} (hm : scope (.registration m)) (block : BlockNumber) :
    b'.isSlashable m block = b.isSlashable m block := by
  rw [Books.isSlashable, Books.isSlashable, h.registration hm]

theorem setsJoinedBy {operator : Address} (ho : scope (.joined operator)) :
    b'.setsJoinedBy operator = b.setsJoinedBy operator := by
  rw [Books.setsJoinedBy, Books.setsJoinedBy, h.registeredSets operator ho]

theorem strategiesOf {s : OperatorSet} (hs : scope (.set s)) :
    b'.strategiesOf s = b.strategiesOf s := by
  rw [Books.strategiesOf, Books.strategiesOf, h.strategies s hs]

theorem setExists {s : OperatorSet} (hs : scope (.set s)) : b'.setExists s = b.setExists s := by
  rw [Books.setExists, Books.setExists, UndoMap.contains_eq_isSome, UndoMap.contains_eq_isSome,
    h.strategies s hs]

end Reads

section Writes

variable {p : Position}

theorem emit_right (e : Event) : SameAt scope b (b'.emit e) := { h with }

theorem index_right (hp : ¬scope (.index p.operator)) : SameAt scope b (b'.index p) :=
  { h with
    allocatedSets := h.allocatedSets.update_right hp _
    allocatedStrategies := h.allocatedStrategies.update_right (k := p.membership) hp _ }

theorem unindex_right (hp : ¬scope (.index p.operator)) : SameAt scope b (b'.unindex p) := by
  unfold unindex
  dsimp only
  split
  · exact { h with
      allocatedSets := h.allocatedSets.update_right hp _
      allocatedStrategies := h.allocatedStrategies.erase_right (k := p.membership) hp }
  · exact { h with
      allocatedStrategies := h.allocatedStrategies.insert_right (k := p.membership) hp _ }

theorem setAllocation_right (hp : ∀ k ∈ p.places, ¬scope k) (al : Allocation) :
    SameAt scope b (b'.setAllocation p al) := by
  simp only [Position.places, List.forall_mem_cons] at hp
  obtain ⟨hallocation, -, hindex, -⟩ := hp
  have hinsert : SameAt scope b { b' with allocations := b'.allocations.insert p al } :=
    { h with allocations := h.allocations.insert_right hallocation al }
  unfold setAllocation
  dsimp only
  split
  · exact (hinsert.unindex_right hindex).emit_right _
  · exact (hinsert.index_right hindex).emit_right _

theorem setEncumbered_right {a : Account} (ha : ¬scope (.account a)) (m : Magnitude) :
    SameAt scope b (b'.setEncumbered a m) := by
  have hinsert : SameAt scope b { b' with encumbered := b'.encumbered.insert a m } :=
    { h with encumbered := h.encumbered.insert_right ha m }
  exact hinsert.emit_right _

theorem store_right (hp : ∀ k ∈ p.places, ¬scope k) (c : Capacity) (al : Allocation) :
    SameAt scope b (b'.store p c al) := by
  have haccount : ¬scope (.account p.account) := hp _ (by simp [Position.places])
  unfold store
  dsimp only
  split <;> split
  · exact h
  · exact h.setEncumbered_right haccount _
  · exact h.setAllocation_right hp al
  · exact (h.setAllocation_right hp al).setEncumbered_right haccount _

theorem reduceMax_right {a : Account} (ha : ¬scope (.account a)) (m : Magnitude)
    (block : BlockNumber) : SameAt scope b (b'.reduceMax a m block) := by
  have hpush : SameAt scope b { b' with
      maxima := b'.maxima.update a (·.push block (Magnitude.monus (b'.maxMagnitude a) m)) } :=
    { h with maxima := h.maxima.update_right ha _ }
  exact hpush.emit_right _

theorem enqueue_right {a : Account} (ha : ¬scope (.account a)) (s : OperatorSet) :
    SameAt scope b (b'.enqueue a s) :=
  { h with queues := h.queues.update_right ha _ }

theorem dequeue_right {a : Account} (ha : ¬scope (.account a)) : SameAt scope b (b'.dequeue a) :=
  { h with queues := h.queues.update_right ha _ }

end Writes

end SameAt

/-- A posting leaves alone what it does not touch. -/
theorem Posts.sameAt {config : Config} {block : BlockNumber} {e : Entry} {b b' : Books}
    (h : Posts config block e b b') : SameAt (· ∉ e.places) b b' := by
  have hrefl : SameAt (· ∉ e.places) b b := .refl _ b
  have htouched : ∀ k ∈ e.places, ¬k ∉ e.places := fun k hk hnot => hnot hk
  cases h with
  | delay heffect =>
    exact { hrefl with delays := hrefl.delays.insert_right (by simp [Entry.places]) _ }
  | create hnew =>
    exact { hrefl with
      setIds := hrefl.setIds.update_right (by simp [Entry.places]) _
      strategies := hrefl.strategies.insert_right (by simp [Entry.places]) _ }
  | addStrategy hset hnew hsize =>
    exact { hrefl with strategies := hrefl.strategies.insert_right (by simp [Entry.places]) _ }
  | removeStrategy hset hold =>
    exact { hrefl with strategies := hrefl.strategies.insert_right (by simp [Entry.places]) _ }
  | join hset hnew =>
    exact { hrefl with
      registrations := hrefl.registrations.insert_right (by simp [Entry.places]) _
      members := hrefl.members.update_right (by simp [Entry.places]) _
      registeredSets := hrefl.registeredSets.update_right (by simp [Entry.places]) _ }
  | depart hset hold huntil =>
    exact { hrefl with
      registrations := hrefl.registrations.insert_right (by simp [Entry.places]) _
      members := hrefl.members.update_right (by simp [Entry.places]) _
      registeredSets := hrefl.registeredSets.update_right (by simp [Entry.places]) _ }
  | countSlash hset =>
    exact { hrefl with slashCounts := hrefl.slashCounts.update_right (by simp [Entry.places]) _ }
  | logSlash => exact hrefl.emit_right _
  | @clear _ a s _ c al hfront hdue hsettled =>
    have haccount : Place.account a ∈ (a.position s).places := .tail _ (.head _)
    exact (hrefl.store_right htouched c al).dequeue_right (htouched _ haccount)
  | mature hdue hup hsettled => exact hrefl.store_right htouched _ _
  | allocate hcleared hsettled hidle hdelay hup hfree heffect =>
    exact hrefl.store_right htouched _ _
  | @deallocate _ p m c al effectBlock hcleared hsettled hidle hdown hslash hstrategy heffect =>
    have haccount : Place.account p.account ∈ p.places := .tail _ (.head _)
    exact (hrefl.enqueue_right (htouched _ haccount) p.set).store_right htouched c _
  | release hcleared hsettled hidle hdown hfree hshift => exact hrefl.store_right htouched _ _
  | @cut _ p w c al encumbered pending hwad hslash hstrategy hsettled hcurrent hshift hpending =>
    have haccount : Place.account p.account ∈ p.places := .tail _ (.head _)
    exact (hrefl.store_right htouched _ _).reduceMax_right (htouched _ haccount) _ block

/-- A run of postings leaves alone what none of them may touch. -/
theorem Postings.sameAt {config : Config} {block : BlockNumber} {may : Entry → Prop}
    {b b' : Books} {scope : Place → Prop} (h : Postings config block may b b')
    (hscope : ∀ e, may e → ∀ k ∈ e.places, ¬scope k) : SameAt scope b b' := by
  refine h.keeps (P := SameAt scope b) (fun e b₁ b₂ hmay hpost hsame => ?_) (.refl scope b)
  exact hsame.trans (hpost.sameAt.mono fun k hk hplace => hscope e hmay k hplace hk)

end Books

/-- The places that a call can touch. -/
def Call.Touches : Call → Place → Prop
  | .setAllocationDelay operator _, .delay o => o = operator
  | .modifyAllocations operator _, .allocation p => p.operator = operator
  | .modifyAllocations operator _, .account a => a.operator = operator
  | .modifyAllocations operator _, .index o => o = operator
  | .clearDeallocationQueue operator _ _, .allocation p => p.operator = operator
  | .clearDeallocationQueue operator _ _, .account a => a.operator = operator
  | .clearDeallocationQueue operator _ _, .index o => o = operator
  | .registerForOperatorSets operator r, .registration m =>
    m.operator = operator ∧ m.set.avs = r.avs
  | .registerForOperatorSets operator _, .joined o => o = operator
  | .registerForOperatorSets _ r, .members s => s.avs = r.avs
  | .deregisterFromOperatorSets r, .registration m => m.operator = r.operator ∧ m.set.avs = r.avs
  | .deregisterFromOperatorSets r, .joined o => o = r.operator
  | .deregisterFromOperatorSets r, .members s => s.avs = r.avs
  | .createOperatorSets avs _, .set s => s.avs = avs
  | .createOperatorSets avs _, .ids v => v = avs
  | .addStrategies avs id _, .set s => s = ⟨avs, id⟩
  | .removeStrategies avs id _, .set s => s = ⟨avs, id⟩
  | .slashOperator avs r, .allocation p =>
    p.membership = ⟨r.operator, ⟨avs, r.setId⟩⟩ ∧ p.strategy ∈ r.strategies
  | .slashOperator _ r, .account a => a.operator = r.operator ∧ a.strategy ∈ r.strategies
  | .slashOperator _ r, .index o => o = r.operator
  | .slashOperator avs r, .slashCount s => s = ⟨avs, r.setId⟩
  | _, _ => False

theorem Call.touches_position {c : Call} {p : Position} {k : Place}
    (hallocation : c.Touches (.allocation p)) (haccount : c.Touches (.account p.account))
    (hindex : c.Touches (.index p.operator)) (hk : k ∈ p.places) : c.Touches k := by
  simp only [Position.places, List.mem_cons, List.not_mem_nil, or_false] at hk
  rcases hk with rfl | rfl | rfl
  · exact hallocation
  · exact haccount
  · exact hindex

/-- What a call may post touches nothing but what the call may touch. -/
theorem Call.touches_of_mayPost {c : Call} {e : Entry} {k : Place} (hmay : c.mayPost e)
    (hk : k ∈ e.places) : c.Touches k := by
  cases c with
  | setAllocationDelay operator delay =>
    cases e with
    | delay o =>
      obtain rfl := List.mem_singleton.1 hk
      exact hmay
    | _ => exact hmay.elim
  | modifyAllocations operator requests =>
    cases e with
    | clear a s => exact touches_position (p := a.position s) hmay.1 hmay.1 hmay.1 hk
    | mature p => exact touches_position hmay.1 hmay.1 hmay.1 hk
    | allocate p m => exact touches_position hmay.1 hmay.1 hmay.1 hk
    | deallocate p m => exact touches_position hmay.1 hmay.1 hmay.1 hk
    | release p m => exact touches_position hmay.1 hmay.1 hmay.1 hk
    | _ => exact hmay.elim
  | clearDeallocationQueue operator strategies limits =>
    cases e with
    | clear a s => exact touches_position (p := a.position s) hmay.1 hmay.1 hmay.1 hk
    | _ => exact hmay.elim
  | registerForOperatorSets operator r =>
    cases e with
    | join m =>
      simp only [Entry.places, List.mem_cons, List.not_mem_nil, or_false] at hk
      rcases hk with rfl | rfl | rfl
      · exact ⟨hmay.1, hmay.2.1⟩
      · exact hmay.1
      · exact hmay.2.1
    | _ => exact hmay.elim
  | deregisterFromOperatorSets r =>
    cases e with
    | depart m =>
      simp only [Entry.places, List.mem_cons, List.not_mem_nil, or_false] at hk
      rcases hk with rfl | rfl | rfl
      · exact ⟨hmay.1, hmay.2.1⟩
      · exact hmay.1
      · exact hmay.2.1
    | _ => exact hmay.elim
  | createOperatorSets avs sets =>
    cases e with
    | create s =>
      simp only [Entry.places, List.mem_cons, List.not_mem_nil, or_false] at hk
      rcases hk with rfl | rfl
      · exact hmay.1
      · exact hmay.1
    | addStrategy s x =>
      obtain rfl := List.mem_singleton.1 hk
      exact hmay.1
    | _ => exact hmay.elim
  | addStrategies avs id strategies =>
    cases e with
    | addStrategy s x =>
      obtain rfl := List.mem_singleton.1 hk
      exact hmay.1
    | _ => exact hmay.elim
  | removeStrategies avs id strategies =>
    cases e with
    | removeStrategy s x =>
      obtain rfl := List.mem_singleton.1 hk
      exact hmay.1
    | _ => exact hmay.elim
  | slashOperator avs r =>
    cases e with
    | countSlash s =>
      obtain rfl := List.mem_singleton.1 hk
      exact hmay
    | logSlash m => exact absurd hk List.not_mem_nil
    | cut p w =>
      have hoperator : p.operator = r.operator := congrArg Membership.operator hmay.1
      have hstrategy : p.strategy ∈ r.strategies := (List.of_mem_zip hmay.2).1
      exact touches_position ⟨hmay.1, hstrategy⟩ ⟨hoperator, hstrategy⟩ hoperator hk
    | _ => exact hmay.elim

namespace Manager

open Books

section Views

variable {δ ρ π : Type} {m m' : Manager δ ρ π} {scope : Place → Prop}
variable (hblock : m'.block = m.block) (h : SameAt scope m.books m'.books)

include hblock h

theorem allocation_eq {p : Position} (hp : scope (.allocation p)) :
    m'.allocation p = m.allocation p := by
  rw [Manager.allocation, Manager.allocation, hblock, h.allocation hp]

theorem encumberedAfter_eq_of_sameAt {a : Account} (hp : ∀ s, scope (.allocation (a.position s)))
    (encumbered : Magnitude) (sets : List OperatorSet) :
    m'.encumberedAfter a encumbered sets = m.encumberedAfter a encumbered sets := by
  induction sets generalizing encumbered with
  | nil => rfl
  | cons s rest ih => simp only [encumberedAfter, hblock, h.allocation (hp s), ih]

theorem allocatableMagnitude_eq {a : Account} (ha : scope (.account a))
    (hp : ∀ s, scope (.allocation (a.position s))) :
    m'.allocatableMagnitude a = m.allocatableMagnitude a := by
  rw [allocatableMagnitude, allocatableMagnitude, h.maxMagnitude ha, h.encumberedMagnitude ha,
    h.queued ha, encumberedAfter_eq_of_sameAt hblock h hp]

theorem isSlashable_eq {member : Membership} (hm : scope (.registration member)) :
    m'.isSlashable member = m.isSlashable member := by
  rw [Manager.isSlashable, Manager.isSlashable, hblock, h.isSlashable hm]

end Views

variable {δ ρ π : Type} [DelegationLedger δ] [SetRegistrar ρ] [PermissionController π]
variable {m : Manager δ ρ π} {scope : Place → Prop}

/-- A move leaves alone what no call of it that goes through can touch. -/
theorem sameAt_after (hidle : m.books.Idle) {move : Move δ ρ π}
    (hscope : ∀ caller c, move = .call caller c → (m.attempt (perform caller c)).1.isOk →
      ∀ k, c.Touches k → ¬scope k) : SameAt scope m.books (m.after move).books := by
  obtain ⟨-, -, hbooks | hbooks | ⟨caller, c, b, hmove, hok, -, hbooks, hpost⟩⟩ :=
    after_cases hidle move
  · rw [hbooks]
    exact .refl _ _
  · rw [hbooks]
    exact .of_drained scope m.books
  · rw [hbooks]
    refine .trans (.of_checkpoint scope m.books) (.trans ?_ (.of_commit scope b))
    exact hpost.sameAt fun e hmay k hk =>
      hscope caller c hmove hok k (Call.touches_of_mayPost hmay hk)

end Manager

end Restake
