import Restake.Proofs.Registry
import Restake.Proofs.Settlement

/-!
The index of allocations. Every write of an allocation enters its position in the index or takes it
out, and the set goes with its last strategy. So wherever a run leads the index names the
allocations that are not empty, those and no others, and settling an account, which looks for
allocations that are due by the index, finds all of them.
-/
namespace Restake

open Steps

namespace Books

variable {b b' : Books} {config : Config} {block : BlockNumber}

theorem mem_strategiesAllocatedTo {m : Membership} {x : Address} :
    x ∈ b.strategiesAllocatedTo m ↔ x ∈ (b.allocatedStrategies.find? m).getD ∅ :=
  Std.ExtTreeSet.mem_toList

theorem mem_setsAllocatedTo {o : Address} {s : OperatorSet} :
    s ∈ b.setsAllocatedTo o ↔ s ∈ (b.allocatedSets.find? o).getD ∅ :=
  Std.ExtTreeSet.mem_toList

/-- The books with an allocation written and the index not yet. -/
def allotted (b : Books) (p : Position) (a : Allocation) : Books :=
  { b with allocations := b.allocations.insert p a }

theorem allocation_allotted (b : Books) (p q : Position) (a : Allocation) :
    (b.allotted p a).allocation q = if p = q then a else b.allocation q := by
  rw [allocation, allotted, UndoMap.find?_insert]
  split <;> rfl

theorem allocation_index (b : Books) (p : Position) : (b.index p).allocation = b.allocation := rfl

theorem allocation_unindex (b : Books) (p : Position) : (b.unindex p).allocation = b.allocation := by
  unfold unindex
  dsimp only
  split <;> rfl

theorem mem_strategiesAllocatedTo_index (b : Books) (p : Position) (m : Membership) (x : Address) :
    x ∈ (b.index p).strategiesAllocatedTo m ↔
      (p.membership = m ∧ p.strategy = x) ∨ x ∈ b.strategiesAllocatedTo m := by
  rw [mem_strategiesAllocatedTo, mem_strategiesAllocatedTo, index, UndoMap.mem_update_insert]

theorem mem_setsAllocatedTo_index (b : Books) (p : Position) (m : Membership) :
    m.set ∈ (b.index p).setsAllocatedTo m.operator ↔
      p.membership = m ∨ m.set ∈ b.setsAllocatedTo m.operator := by
  obtain ⟨o, s⟩ := m
  obtain ⟨⟨o', s'⟩, x⟩ := p
  rw [mem_setsAllocatedTo, mem_setsAllocatedTo, index, UndoMap.mem_update_insert,
    Membership.mk.injEq]
  rfl

theorem mem_strategiesAllocatedTo_unindex (b : Books) (p : Position) (m : Membership) (x : Address) :
    x ∈ (b.unindex p).strategiesAllocatedTo m ↔
      ¬(p.membership = m ∧ p.strategy = x) ∧ x ∈ b.strategiesAllocatedTo m := by
  simp only [mem_strategiesAllocatedTo]
  have herase : ∀ y, y ∈ ((b.allocatedStrategies.find? p.membership).getD ∅).erase p.strategy ↔
      p.strategy ≠ y ∧ y ∈ (b.allocatedStrategies.find? p.membership).getD ∅ := by
    intro y
    rw [Std.ExtTreeSet.mem_erase, Ne, Std.LawfulEqCmp.compare_eq_iff_eq]
  unfold unindex
  dsimp only
  by_cases hm : p.membership = m
  · subst m
    split
    next hempty =>
      rw [Std.ExtTreeSet.isEmpty_iff] at hempty
      rw [UndoMap.find?_erase, if_pos rfl, Option.getD_none]
      have hnot := herase x
      rw [hempty] at hnot
      simpa using hnot
    next =>
      rw [UndoMap.find?_insert, if_pos rfl, Option.getD_some, herase]
      simp only [true_and]
  · split
    · rw [UndoMap.find?_erase, if_neg hm]
      simp only [hm, false_and, not_false_eq_true, true_and]
    · rw [UndoMap.find?_insert, if_neg hm]
      simp only [hm, false_and, not_false_eq_true, true_and]

/-- A set leaves the index with the last strategy that holds it there. -/
theorem mem_setsAllocatedTo_unindex (b : Books) (p : Position) (m : Membership) :
    m.set ∈ (b.unindex p).setsAllocatedTo m.operator ↔
      ¬(p.membership = m ∧ (b.unindex p).strategiesAllocatedTo p.membership = []) ∧
        m.set ∈ b.setsAllocatedTo m.operator := by
  obtain ⟨o, s⟩ := m
  obtain ⟨⟨o', s'⟩, x⟩ := p
  simp only [mem_setsAllocatedTo, ← List.isEmpty_iff, strategiesAllocatedTo,
    Std.ExtTreeSet.isEmpty_toList]
  unfold unindex
  dsimp only
  split
  next hempty =>
    rw [UndoMap.mem_update_erase, UndoMap.find?_erase, if_pos rfl, Membership.mk.injEq]
    simp [Position.operator, Position.set]
  next hne =>
    rw [UndoMap.find?_insert, if_pos rfl, Option.getD_some]
    simp [hne]

/-- The sets that the index names are those in which it names a strategy. -/
def SetsIndexed (b : Books) : Prop := ∀ m : Membership,
  m.set ∈ b.setsAllocatedTo m.operator ↔ ∃ x, x ∈ b.strategiesAllocatedTo m

theorem SetsIndexed.index (h : SetsIndexed b) (p : Position) : SetsIndexed (b.index p) := by
  intro m
  rw [mem_setsAllocatedTo_index]
  constructor
  · rintro (rfl | hset)
    · exact ⟨p.strategy, (b.mem_strategiesAllocatedTo_index p _ _).2 (.inl ⟨rfl, rfl⟩)⟩
    · obtain ⟨x, hx⟩ := (h m).1 hset
      exact ⟨x, (b.mem_strategiesAllocatedTo_index p m x).2 (.inr hx)⟩
  · rintro ⟨x, hx⟩
    rcases (b.mem_strategiesAllocatedTo_index p m x).1 hx with ⟨hm, -⟩ | hx
    · exact .inl hm
    · exact .inr ((h m).2 ⟨x, hx⟩)

theorem SetsIndexed.unindex (h : SetsIndexed b) (p : Position) : SetsIndexed (b.unindex p) := by
  intro m
  rw [mem_setsAllocatedTo_unindex]
  constructor
  · rintro ⟨hkept, hset⟩
    by_cases hm : p.membership = m
    · have hne : (b.unindex p).strategiesAllocatedTo m ≠ [] := by
        subst m
        exact fun hnil => hkept ⟨rfl, hnil⟩
      exact List.exists_mem_of_ne_nil _ hne
    · obtain ⟨x, hx⟩ := (h m).1 hset
      exact ⟨x, (b.mem_strategiesAllocatedTo_unindex p m x).2 ⟨fun hp => hm hp.1, hx⟩⟩
  · rintro ⟨x, hx⟩
    refine ⟨?_, (h m).2 ⟨x, ((b.mem_strategiesAllocatedTo_unindex p m x).1 hx).2⟩⟩
    rintro ⟨rfl, hnil⟩
    rw [hnil] at hx
    exact List.not_mem_nil hx

/-- The index names the allocations that are not empty, and their sets. -/
structure Indexed (b : Books) : Prop where
  strategy : ∀ p : Position,
    p.strategy ∈ b.strategiesAllocatedTo p.membership ↔ ¬(b.allocation p).isEmpty
  set : SetsIndexed b

theorem indexed_empty : Indexed {} := by
  constructor
  · intro p
    rw [mem_strategiesAllocatedTo, UndoMap.find?_empty, allocation, UndoMap.find?_empty]
    simp [Allocation.isEmpty]
  · intro m
    simp only [mem_setsAllocatedTo, mem_strategiesAllocatedTo, UndoMap.find?_empty]
    simp

/-- The two agree in allocations and their index. -/
structure SameIndex (b b' : Books) : Prop where
  allocation : b'.allocation = b.allocation
  strategies : b'.strategiesAllocatedTo = b.strategiesAllocatedTo
  sets : b'.setsAllocatedTo = b.setsAllocatedTo

namespace Indexed

theorem of_reads (h : Indexed b) (hsame : SameIndex b b') : Indexed b' := by
  constructor
  · rw [hsame.allocation, hsame.strategies]
    exact h.strategy
  · unfold SetsIndexed
    rw [hsame.strategies, hsame.sets]
    exact h.set

theorem setAllocation (h : Indexed b) (p : Position) (a : Allocation) :
    Indexed (b.setAllocation p a) := by
  have hposition (q : Position) : p.membership = q.membership ∧ p.strategy = q.strategy ↔ p = q := by
    obtain ⟨m, x⟩ := p
    obtain ⟨m', x'⟩ := q
    rw [Position.mk.injEq]
  have hsets : SetsIndexed (b.allotted p a) := h.set
  have hstrategies : (b.allotted p a).strategiesAllocatedTo = b.strategiesAllocatedTo := rfl
  suffices hindexed : Indexed (if a.isEmpty then (b.allotted p a).unindex p
      else (b.allotted p a).index p) from hindexed.of_reads ⟨rfl, rfl, rfl⟩
  split
  next hempty =>
    refine ⟨fun q => ?_, hsets.unindex p⟩
    rw [mem_strategiesAllocatedTo_unindex, hposition, allocation_unindex, allocation_allotted,
      hstrategies, h.strategy]
    by_cases hq : p = q
    · simp [hq, hempty]
    · simp [hq]
  next hfull =>
    refine ⟨fun q => ?_, hsets.index p⟩
    rw [mem_strategiesAllocatedTo_index, hposition, allocation_index, allocation_allotted,
      hstrategies, h.strategy]
    by_cases hq : p = q
    · simp [hq, hfull]
    · simp [hq]

theorem store (h : Indexed b) (p : Position) (c : Capacity) (a : Allocation) :
    Indexed (b.store p c a) := by
  have hwritten : Indexed (if b.allocation p = a then b else b.setAllocation p a) := by
    split
    · exact h
    · exact h.setAllocation p a
  unfold Books.store
  dsimp only
  generalize (if b.allocation p = a then b else b.setAllocation p a) = b₁ at hwritten
  split
  · exact hwritten
  · exact hwritten.of_reads ⟨rfl, rfl, rfl⟩

theorem enqueue (h : Indexed b) (a : Account) (s : OperatorSet) : Indexed (b.enqueue a s) :=
  h.of_reads ⟨rfl, rfl, rfl⟩

theorem dequeue (h : Indexed b) (a : Account) : Indexed (b.dequeue a) :=
  h.of_reads ⟨rfl, rfl, rfl⟩

theorem reduceMax (h : Indexed b) (a : Account) (amount : Magnitude) (block : BlockNumber) :
    Indexed (b.reduceMax a amount block) := h.of_reads ⟨rfl, rfl, rfl⟩

/-- Every posting keeps the index exact. -/
theorem posts {e : Entry} (h : Indexed b) (hpost : Posts config block e b b') : Indexed b' := by
  cases hpost with
  | clear => exact (h.store _ _ _).dequeue _
  | mature => exact h.store _ _ _
  | allocate => exact h.store _ _ _
  | deallocate => exact (h.enqueue _ _).store _ _ _
  | release => exact h.store _ _ _
  | cut => exact (h.store _ _ _).reduceMax _ _ _
  | _ => exact h.of_reads ⟨rfl, rfl, rfl⟩

theorem persists : Persists fun _ b => Indexed b where
  checkpoint h := h.of_reads ⟨rfl, rfl, rfl⟩
  commit h := h.of_reads ⟨rfl, rfl, rfl⟩
  drained h := h.of_reads ⟨rfl, rfl, rfl⟩
  later _ h := h

/-- The allocations of an account are those that are not empty. -/
theorem mem_accountAllocations (h : Indexed b) {a : Account} {s : OperatorSet} {al : Allocation} :
    (s, al) ∈ b.accountAllocations a ↔
      al = b.allocation (a.position s) ∧ ¬(b.allocation (a.position s)).isEmpty := by
  have hstrategy : ((b.allocatedStrategies.find? ⟨a.operator, s⟩).getD ∅).contains a.strategy ↔
      ¬(b.allocation (a.position s)).isEmpty := by
    rw [← Std.ExtTreeSet.mem_iff_contains, ← mem_strategiesAllocatedTo]
    exact h.strategy (a.position s)
  simp only [accountAllocations, List.mem_map, List.mem_filter, Prod.mk.injEq]
  constructor
  · rintro ⟨_, ⟨-, hx⟩, rfl, rfl⟩
    exact ⟨rfl, hstrategy.1 hx⟩
  · rintro ⟨rfl, hfull⟩
    have hlisted := (h.strategy (a.position s)).2 hfull
    exact ⟨s, ⟨(h.set ⟨a.operator, s⟩).2 ⟨_, hlisted⟩, hstrategy.2 hfull⟩, rfl, rfl⟩

end Indexed

/-- Writing allocations down as the block sees them does so for the positions named. -/
theorem allocation_forM_settle {a : Account} {sets : List (OperatorSet × Allocation)} {u : Unit}
    (h : (sets.forM fun (s, _) => settle (a.position s) block) b = .ok u b') (s : OperatorSet) :
    b'.allocation (a.position s) = if s ∈ sets.map Prod.fst
      then (b.allocation (a.position s)).asOf block else b.allocation (a.position s) := by
  induction sets generalizing b with
  | nil =>
    cases h
    rfl
  | cons t sets ih =>
    obtain ⟨_, _, hsettle, hrest⟩ := bind_eq_ok.1 h
    obtain ⟨c, al, hsettled, rfl⟩ := settle_eq_ok.1 hsettle
    obtain ⟨rfl, -⟩ := b.settled_eq_ok.1 hsettled
    rw [ih hrest, allocation_store]
    by_cases ht : t.1 = s
    · subst s
      simp [Allocation.asOf_asOf (UInt32.le_refl block)]
    · have hp : ¬a.position t.1 = a.position s := fun heq => ht (congrArg Position.set heq)
      rw [if_neg hp, List.map_cons]
      simp only [List.mem_cons, Ne.symm ht, false_or]

/-- Settling an account writes down whatever of it is due. -/
theorem WellKept.settleAccount_completes (h : WellKept config block b) (hindexed : Indexed b)
    (a : Account) : ∃ b', settleAccount a block b = .ok () b' ∧
      ∀ s, b'.allocation (a.position s) = (b.allocation (a.position s)).asOf block := by
  obtain ⟨b', hok, -, -⟩ := h.settleAccount_succeeds a
  refine ⟨b', hok, fun s => ?_⟩
  rw [settleAccount, get_bind_apply] at hok
  obtain ⟨k, b₁, hfront, hok⟩ := bind_eq_ok.1 hok
  rw [get_bind_apply] at hok
  obtain ⟨k', b₂, hfront', hkept⟩ := h.clearFront_succeeds (List.append_nil (b.queued a)).symm
  obtain ⟨-, rfl⟩ := EStateM.Result.ok.inj (hfront.symm.trans hfront')
  have hpost : Postings config block (fun _ => True) b b₁ :=
    (clearFront_ok (fun _ => trivial) (List.append_nil _).symm hfront).1
  have hindexed₁ : Indexed b₁ := hpost.keeps (fun _ _ _ _ hpost h => h.posts hpost) hindexed
  have hcleared := cleared_of_clearFront hfront
  rw [allocation_forM_settle hok s, ← hkept.alike.allocation]
  split
  · rfl
  next hnot =>
    -- what was not brought into force is not due: no deallocation is, once the queue is cleared,
    -- and an increase that is due is not empty, so the index names it
    refine (if_neg fun hdue => ?_ : _ = b₁.allocation (a.position s)).symm
    by_cases hdown : (b₁.allocation (a.position s)).isDeallocating
    · have hqueued := (hkept.wellKept.orderly a).waiting s (by simpa [Allocation.isDeallocating] using hdown)
      have hlater := (hkept.wellKept.orderly a).lt_effectBlock hcleared hqueued
      rw [Allocation.isMatured, Bool.and_eq_true, decide_eq_true_eq] at hdue
      exact absurd hdue.2 (UInt32.not_le.2 hlater)
    · have hfull : ¬(b₁.allocation (a.position s)).isEmpty := by
        simp_all [Allocation.isMatured, Allocation.isEmpty, Allocation.isPending]
      have hlisted := hindexed₁.mem_accountAllocations.2 ⟨rfl, hfull⟩
      refine hnot (List.mem_map.2 ⟨_, List.mem_filter.2 ⟨hlisted, ?_⟩, rfl⟩)
      simp [hdue, hdown]

end Books

namespace Manager

open Books

variable {δ ρ π : Type} [DelegationLedger δ] [SetRegistrar ρ] [PermissionController π]
variable {m : Manager δ ρ π}

theorem Reachable.indexed (h : m.Reachable) : Indexed m.books :=
  h.keeps (P := fun _ _ b => Indexed b) (fun _ _ => indexed_empty) (fun _ => Indexed.persists)
    fun hpost hb => hb.posts hpost

/-- In every reachable state the index is exact. It names the strategies whose allocation is not
empty and the sets that have one, in ascending lists; the allocations of an account are those that
are not empty, each once; and wherever a call settles an account, what of it is due is written
down, in every set. -/
theorem Reachable.index_exact (h : m.Reachable) :
    (∀ o s x, x ∈ m.books.strategiesAllocatedTo ⟨o, s⟩ ↔
        (m.books.allocation ⟨⟨o, s⟩, x⟩).current ≠ 0 ∨ (m.books.allocation ⟨⟨o, s⟩, x⟩).pending ≠ 0) ∧
      (∀ o s, s ∈ m.books.setsAllocatedTo o ↔ m.books.strategiesAllocatedTo ⟨o, s⟩ ≠ []) ∧
      (∀ o s, Ascending (m.books.setsAllocatedTo o) ∧
        Ascending (m.books.strategiesAllocatedTo ⟨o, s⟩)) ∧
      (∀ a : Account, ((m.books.accountAllocations a).map Prod.fst).Nodup ∧
        ∀ s al, (s, al) ∈ m.books.accountAllocations a ↔
          al = m.books.allocation (a.position s) ∧ (al.current ≠ 0 ∨ al.pending ≠ 0)) ∧
      ∀ (a : Account) (b : Books),
        Postings m.config m.block (fun _ => True) m.books.checkpoint b →
          ∃ b', settleAccount a m.block b = .ok () b' ∧
            ∀ s, b'.allocation (a.position s) = (b.allocation (a.position s)).asOf m.block := by
  have hindexed := h.indexed
  have hfull (al : Allocation) : ¬al.isEmpty ↔ al.current ≠ 0 ∨ al.pending ≠ 0 := by
    rw [Allocation.isEmpty, Bool.and_eq_true, decide_eq_true_eq, decide_eq_true_eq, not_and_or]
  refine ⟨fun o s x => ?_, fun o s => ?_, fun o s => ?_, fun a => ⟨?_, fun s al => ?_⟩,
    fun a b hpost => ?_⟩
  · rw [← hfull]
    exact hindexed.strategy ⟨⟨o, s⟩, x⟩
  · exact (hindexed.set ⟨o, s⟩).trans
      ⟨fun hlisted => List.ne_nil_of_mem hlisted.choose_spec, List.exists_mem_of_ne_nil _⟩
  · exact ⟨Std.ExtTreeSet.ordered_toList, Std.ExtTreeSet.ordered_toList⟩
  · exact nodup_accountAllocations m.books a
  · rw [hindexed.mem_accountAllocations, ← hfull]
    constructor
    · rintro ⟨rfl, hne⟩
      exact ⟨rfl, hne⟩
    · rintro ⟨rfl, hne⟩
      exact ⟨rfl, hne⟩
  · have hkept : WellKept m.config m.block b :=
      hpost.keeps (fun _ _ _ _ hpost hb => hb.posts hpost)
        (lasts_wellKept.persists.checkpoint h.wellKept)
    have hexact : Indexed b :=
      hpost.keeps (fun _ _ _ _ hpost hb => hb.posts hpost) (hindexed.of_reads ⟨rfl, rfl, rfl⟩)
    exact hkept.settleAccount_completes hexact a

/-- The index names what the operator of the small run has allocated, and settling its account goes
through at the end of the run. -/
theorem index_exact_allocated :
    Sample.position.strategy ∈
        (Sample.start.run Sample.moves).books.strategiesAllocatedTo Sample.position.membership ∧
      ∃ b', settleAccount Sample.position.account (Sample.start.run Sample.moves).block
          (Sample.start.run Sample.moves).books.checkpoint = .ok () b' ∧
        ∀ s, b'.allocation (Sample.position.account.position s) =
          ((Sample.start.run Sample.moves).books.checkpoint.allocation
            (Sample.position.account.position s)).asOf (Sample.start.run Sample.moves).block := by
  obtain ⟨hnamed, -, -, -, hsettles⟩ := Sample.reachable.index_exact
  refine ⟨(hnamed Sample.operator Sample.position.set Sample.position.strategy).2 (.inl ?_),
    hsettles Sample.position.account _ .refl⟩
  decide +kernel

end Manager

end Restake
