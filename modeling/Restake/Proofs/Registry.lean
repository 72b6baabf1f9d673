import Restake.Proofs.Runs

/-!
The registry of operator sets. Who is in which set is recorded three times: with the set, with the
operator and as the status of the two; that a set exists is recorded with its AVS and by its
strategies. Postings write them together, so they agree wherever a run leads.
-/
namespace Restake

/-- Every entry of the list comes before those that follow it. -/
def Ascending {α : Type} [Ord α] (l : List α) : Prop := l.Pairwise fun x y => compare x y = .lt

namespace Books

variable {b b' : Books} {config : Config} {block : BlockNumber}

theorem ascending_setsOf (b : Books) (avs : Address) : Ascending (b.setsOf avs) := by
  refine List.pairwise_map.2 (Std.ExtTreeSet.ordered_toList.imp fun {i j} hlt => ?_)
  have hself : compare avs avs = .eq := Std.ReflCmp.compare_self
  show (compare avs avs).then (compare i j) = .lt
  rw [hself]
  exact hlt

theorem mem_setsOf {avs : Address} {s : OperatorSet} :
    s ∈ b.setsOf avs ↔ s.avs = avs ∧ s.id ∈ b.setIdsOf avs := by
  obtain ⟨avs', id⟩ := s
  simp only [setsOf, List.mem_map, Std.ExtTreeSet.mem_toList, OperatorSet.mk.injEq]
  constructor
  · rintro ⟨_, hid, rfl, rfl⟩
    exact ⟨rfl, hid⟩
  · rintro ⟨rfl, hid⟩
    exact ⟨id, hid, rfl, rfl⟩

theorem length_setsOf (b : Books) (avs : Address) : (b.setsOf avs).length = (b.setIdsOf avs).size := by
  rw [setsOf, List.length_map, Std.ExtTreeSet.length_toList]

/-- The two agree in what is recorded of operator sets, apart from their strategies. -/
structure SameRolls (b b' : Books) : Prop where
  membersOf : b'.membersOf = b.membersOf
  setsJoinedBy : b'.setsJoinedBy = b.setsJoinedBy
  registration : b'.registration = b.registration
  setIdsOf : b'.setIdsOf = b.setIdsOf
  setExists : b'.setExists = b.setExists
  slashCount : b'.slashCount = b.slashCount

theorem sameRolls_store (b : Books) (p : Position) (c : Capacity) (a : Allocation) :
    SameRolls b (b.store p c a) := by
  obtain ⟨_, _, _, h⟩ := b.store_eq p c a
  rw [h]
  exact ⟨rfl, rfl, rfl, rfl, rfl, rfl⟩

/-- The records of operator sets agree with each other. -/
structure Registry (config : Config) (b : Books) : Prop where
  member : ∀ m : Membership, m.operator ∈ b.membersOf m.set ↔ b.registration m = .registered
  joined : ∀ m : Membership, m.set ∈ b.setsJoinedBy m.operator ↔ b.registration m = .registered
  known : ∀ m, b.registration m ≠ .unregistered → b.setExists m.set
  numbered : ∀ s, s.id ∈ b.setIdsOf s.avs ↔ b.setExists s
  counted : ∀ s, b.slashCount s ≠ 0 → b.setExists s
  bounded : ∀ s, (b.strategiesOf s).size ≤ config.maxSetStrategies.toNat

theorem registry_empty (config : Config) : Registry config {} := by
  have hregistration (m : Membership) : ({} : Books).registration m = .unregistered := by
    rw [registration, UndoMap.find?_empty]
    rfl
  have hsets (s : OperatorSet) : ({} : Books).setExists s = false := by
    rw [setExists, UndoMap.contains_eq_isSome, UndoMap.find?_empty]
    rfl
  constructor
  · intro m
    simp [hregistration, membersOf, UndoMap.find?_empty]
  · intro m
    simp [hregistration, setsJoinedBy, UndoMap.find?_empty]
  · intro m hm
    exact absurd (hregistration m) hm
  · intro s
    simp [hsets, setIdsOf, UndoMap.find?_empty]
  · intro s hs
    rw [slashCount, UndoMap.find?_empty] at hs
    exact absurd rfl hs
  · intro s
    rw [strategiesOf_eq_empty _ (hsets s), Std.ExtTreeSet.size_empty]
    exact Nat.zero_le _

namespace Registry

theorem of_rolls (h : Registry config b) (hsame : SameRolls b b')
    (hsize : ∀ s, (b'.strategiesOf s).size ≤ config.maxSetStrategies.toNat) :
    Registry config b' := by
  refine ⟨?_, ?_, ?_, ?_, ?_, hsize⟩
  · rw [hsame.membersOf, hsame.registration]
    exact h.member
  · rw [hsame.setsJoinedBy, hsame.registration]
    exact h.joined
  · rw [hsame.registration, hsame.setExists]
    exact h.known
  · rw [hsame.setIdsOf, hsame.setExists]
    exact h.numbered
  · rw [hsame.slashCount, hsame.setExists]
    exact h.counted

theorem store (h : Registry config b) (p : Position) (c : Capacity) (a : Allocation) :
    Registry config (b.store p c a) := by
  refine h.of_rolls (sameRolls_store b p c a) ?_
  rw [(store_frame b p c a).2.2.2.2.1]
  exact h.bounded

theorem enqueue (h : Registry config b) (a : Account) (s : OperatorSet) :
    Registry config (b.enqueue a s) := h.of_rolls ⟨rfl, rfl, rfl, rfl, rfl, rfl⟩ h.bounded

theorem dequeue (h : Registry config b) (a : Account) : Registry config (b.dequeue a) :=
  h.of_rolls ⟨rfl, rfl, rfl, rfl, rfl, rfl⟩ h.bounded

theorem reduceMax (h : Registry config b) (a : Account) (amount : Magnitude)
    (block : BlockNumber) : Registry config (b.reduceMax a amount block) :=
  h.of_rolls ⟨rfl, rfl, rfl, rfl, rfl, rfl⟩ h.bounded

theorem join (h : Registry config b) {m : Membership} (hset : b.setExists m.set) :
    Registry config (b.joined m) := by
  refine { h with member := fun m' => ?_, joined := fun m' => ?_, known := fun m' hm' => ?_ }
  · rw [mem_membersOf_joined, registration_joined]
    by_cases hm : m = m'
    · simp only [hm, if_true, true_or]
    · rw [if_neg hm, ← h.member m']
      simp only [hm, false_or]
  · rw [mem_setsJoinedBy_joined, registration_joined]
    by_cases hm : m = m'
    · simp only [hm, if_true, true_or]
    · rw [if_neg hm, ← h.joined m']
      simp only [hm, false_or]
  · rw [registration_joined] at hm'
    by_cases hm : m = m'
    · exact hm ▸ hset
    · rw [if_neg hm] at hm'
      exact h.known m' hm'

theorem depart (h : Registry config b) {m : Membership} (hset : b.setExists m.set)
    (slashableUntil : BlockNumber) : Registry config (b.departed m slashableUntil) := by
  refine { h with member := fun m' => ?_, joined := fun m' => ?_, known := fun m' hm' => ?_ }
  · rw [mem_membersOf_departed, registration_departed]
    by_cases hm : m = m'
    · simp [hm]
    · rw [if_neg hm, ← h.member m']
      simp only [hm, ne_eq, not_false_eq_true, true_and]
  · rw [mem_setsJoinedBy_departed, registration_departed]
    by_cases hm : m = m'
    · simp [hm]
    · rw [if_neg hm, ← h.joined m']
      simp only [hm, ne_eq, not_false_eq_true, true_and]
  · rw [registration_departed] at hm'
    by_cases hm : m = m'
    · exact hm ▸ hset
    · rw [if_neg hm] at hm'
      exact h.known m' hm'

theorem create (h : Registry config b) (s : OperatorSet) : Registry config (b.created s) := by
  have hexists (t : OperatorSet) : (b.created s).setExists t ↔ s = t ∨ b.setExists t := by
    rw [setExists_created, Bool.or_eq_true, decide_eq_true_eq]
  constructor
  · exact h.member
  · exact h.joined
  · exact fun m hm => (hexists m.set).2 (.inr (h.known m hm))
  · intro t
    rw [mem_setIdsOf_created, hexists, h.numbered]
  · exact fun t ht => (hexists t).2 (.inr (h.counted t ht))
  · intro t
    rw [strategiesOf_created]
    split
    · exact Nat.zero_le _
    · exact h.bounded t

theorem addStrategy (h : Registry config b) {s : OperatorSet} {x : Address} (hset : b.setExists s)
    (hsize : ((b.strategiesOf s).insert x).size ≤ config.maxSetStrategies.toNat) :
    Registry config (b.strategyAdded s x) := by
  refine h.of_rolls ⟨rfl, rfl, rfl, rfl, funext fun t => ?_, rfl⟩ fun t => ?_
  · rw [setExists_strategyAdded]
    by_cases ht : s = t
    · rw [← ht, hset, Bool.or_true]
    · rw [decide_eq_false ht, Bool.false_or]
  · rw [strategiesOf_strategyAdded]
    split
    · exact hsize
    · exact h.bounded t

theorem removeStrategy (h : Registry config b) {s : OperatorSet} (hset : b.setExists s)
    (x : Address) : Registry config (b.strategyRemoved s x) := by
  refine h.of_rolls ⟨rfl, rfl, rfl, rfl, funext fun t => ?_, rfl⟩ fun t => ?_
  · rw [setExists_strategyRemoved]
    by_cases ht : s = t
    · rw [← ht, hset, Bool.or_true]
    · rw [decide_eq_false ht, Bool.false_or]
  · rw [strategiesOf_strategyRemoved]
    split
    · exact Nat.le_trans Std.ExtTreeSet.size_erase_le (h.bounded s)
    · exact h.bounded t

theorem countSlash (h : Registry config b) {s : OperatorSet} (hset : b.setExists s) :
    Registry config (b.slashCounted s) := by
  refine { h with counted := fun t ht => ?_ }
  rw [slashCount_slashCounted] at ht
  by_cases hs : s = t
  · exact hs ▸ hset
  · rw [if_neg hs] at ht
    exact h.counted t ht

/-- Every posting keeps the registry consistent. -/
theorem posts {e : Entry} (h : Registry config b) (hpost : Posts config block e b b') :
    Registry config b' := by
  cases hpost with
  | create hnew => exact h.create _
  | addStrategy hset _ hsize => exact h.addStrategy hset hsize
  | removeStrategy hset _ => exact h.removeStrategy hset _
  | join hset _ => exact h.join hset
  | depart hset _ _ => exact h.depart hset _
  | countSlash hset => exact h.countSlash hset
  | delay _ => exact h.of_rolls ⟨rfl, rfl, rfl, rfl, rfl, rfl⟩ h.bounded
  | logSlash => exact h.of_rolls ⟨rfl, rfl, rfl, rfl, rfl, rfl⟩ h.bounded
  | clear _ _ _ => exact (h.store _ _ _).dequeue _
  | mature _ _ _ => exact h.store _ _ _
  | allocate => exact h.store _ _ _
  | deallocate => exact (h.enqueue _ _).store _ _ _
  | release => exact h.store _ _ _
  | cut => exact (h.store _ _ _).reduceMax _ _ _

theorem persists : Persists fun _ b => Registry config b where
  checkpoint h := h.of_rolls ⟨rfl, rfl, rfl, rfl, rfl, rfl⟩ h.bounded
  commit h := h.of_rolls ⟨rfl, rfl, rfl, rfl, rfl, rfl⟩ h.bounded
  drained h := h.of_rolls ⟨rfl, rfl, rfl, rfl, rfl, rfl⟩ h.bounded
  later _ h := h

end Registry

end Books

namespace Manager

open Books

variable {δ ρ π : Type} [DelegationLedger δ] [SetRegistrar ρ] [PermissionController π]
variable {m : Manager δ ρ π}

theorem Reachable.registry (h : m.Reachable) : Registry m.config m.books :=
  h.keeps (P := fun config _ b => Registry config b) (fun config _ => registry_empty config)
    (fun _ => Registry.persists) fun hpost hb => hb.posts hpost

/-- In every reachable state the records of operator sets agree. Who is a member reads the same from
the set, from the operator, from the status of the two and from the view. Only sets that exist have
members, past members or slashes. The sets of an AVS that exist are those listed for it, no set has
more strategies than allowed, counts are lengths, and every list is ascending. -/
theorem Reachable.registry_consistent (h : m.Reachable) :
    (∀ o s, (o ∈ (m.books.membersOf s).toList ↔ m.books.registration ⟨o, s⟩ = .registered) ∧
        (s ∈ (m.books.setsJoinedBy o).toList ↔ m.books.registration ⟨o, s⟩ = .registered) ∧
        (m.isMember ⟨o, s⟩ ↔ m.books.registration ⟨o, s⟩ = .registered) ∧
        (m.books.registration ⟨o, s⟩ ≠ .unregistered → m.books.setExists s)) ∧
      (∀ s, ((m.books.membersOf s).toList ≠ [] → m.books.setExists s) ∧
        (0 < m.books.slashCount s → m.books.setExists s) ∧
        (s ∈ m.books.setsOf s.avs ↔ m.books.setExists s) ∧
        m.memberCount s = (m.books.membersOf s).toList.length ∧
        (m.books.strategiesOf s).toList.length ≤ m.config.maxSetStrategies.toNat) ∧
      (∀ avs, m.setCount avs = (m.books.setsOf avs).length) ∧
      (∀ s, Ascending (m.books.membersOf s).toList ∧ Ascending (m.books.strategiesOf s).toList) ∧
      (∀ o, Ascending (m.books.setsJoinedBy o).toList) ∧ ∀ avs, Ascending (m.books.setsOf avs) := by
  have hregistry := h.registry
  have hmember (o : Address) (s : OperatorSet) :
      o ∈ (m.books.membersOf s).toList ↔ m.books.registration ⟨o, s⟩ = .registered := by
    rw [Std.ExtTreeSet.mem_toList]
    exact hregistry.member ⟨o, s⟩
  refine ⟨fun o s => ⟨hmember o s, ?_, ?_, hregistry.known ⟨o, s⟩⟩, fun s => ⟨?_, ?_, ?_, ?_, ?_⟩,
    fun avs => (length_setsOf m.books avs).symm,
    fun s => ⟨Std.ExtTreeSet.ordered_toList, Std.ExtTreeSet.ordered_toList⟩,
    fun o => Std.ExtTreeSet.ordered_toList, ascending_setsOf m.books⟩
  · rw [Std.ExtTreeSet.mem_toList]
    exact hregistry.joined ⟨o, s⟩
  · unfold isMember
    cases m.books.registration ⟨o, s⟩ <;> simp [RegistrationStatus.isRegistered]
  · intro hne
    obtain ⟨o, ho⟩ := List.exists_mem_of_ne_nil _ hne
    apply hregistry.known ⟨o, s⟩
    rw [(hmember o s).1 ho]
    exact nofun
  · intro hpos
    exact hregistry.counted s (UInt64.pos_iff_ne_zero.1 hpos)
  · rw [mem_setsOf, ← hregistry.numbered]
    simp only [true_and]
  · exact Std.ExtTreeSet.length_toList.symm
  · rw [Std.ExtTreeSet.length_toList]
    exact hregistry.bounded s

/-- The operator of the small run is listed by the set that it has registered for. -/
theorem registry_consistent_registered :
    Sample.operator ∈
      ((Sample.start.run Sample.moves).books.membersOf Sample.position.set).toList := by
  obtain ⟨hmembers, -⟩ := Sample.reachable.registry_consistent
  obtain ⟨hlisted, -⟩ := hmembers Sample.operator Sample.position.set
  exact hlisted.2 (by decide +kernel)

end Manager

end Restake
