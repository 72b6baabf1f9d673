import Restake.Proofs.Observation
import Restake.Proofs.Traffic

/-!
What a call to clear a queue does, entry by entry. A round takes the entries off the front that are
due, as far as its limit goes, and as the queue is sorted no entry that is due stands behind one
that is not. Each entry that leaves has its allocation written down as of the block; of what was
encumbered just its deallocation is given up, which is nothing if a slash has completed it before.
-/
namespace Restake

open Steps

/-- What a deallocation that waits will give up. -/
def Allocation.leaving (a : Allocation) : Nat := (-a.pending).toNat

/-- Where what satisfies `p` never stands behind what does not, it is found from the front. -/
theorem length_takeWhile_take {α : Type} {p : α → Bool} {l : List α}
    (h : l.Pairwise fun a b => p b → p a) (n : Nat) :
    ((l.take n).takeWhile p).length = min n (l.countP p) := by
  induction l generalizing n with
  | nil => simp
  | cons a l ih =>
    obtain ⟨hfront, hrest⟩ := List.pairwise_cons.1 h
    cases n with
    | zero => simp
    | succ n =>
      rw [List.take_succ_cons]
      by_cases ha : p a
      · rw [List.takeWhile_cons_of_pos ha, List.length_cons, ih hrest, List.countP_cons_of_pos ha]
        omega
      · have hnone : l.countP p = 0 :=
          List.countP_eq_zero.2 fun b hb hpb => ha (hfront b hb hpb)
        rw [List.takeWhile_cons_of_neg ha, List.countP_cons_of_neg ha, hnone]
        rfl

namespace Books

variable {b b' b'' : Books} {config : Config} {block : BlockNumber} {a : Account}

/-- How many entries of a queue are due, wherever in it they stand. -/
def maturedEntries (b : Books) (a : Account) (block : BlockNumber) : Nat :=
  (b.queued a).countP fun s => (b.allocation (a.position s)).effectBlock ≤ block

/-- From `b` to `b'` the first `k` entries of the queue have left it, each with its allocation
written down as of the block, and nothing else of the account has changed. -/
structure Released (block : BlockNumber) (a : Account) (k : Nat) (b b' : Books) : Prop where
  queued : b'.queued a = (b.queued a).drop k
  allocation : ∀ s, b'.allocation (a.position s) = if s ∈ (b.queued a).take k
    then (b.allocation (a.position s)).asOf block else b.allocation (a.position s)
  encumbered : (b'.encumberedMagnitude a).toNat +
    (((b.queued a).take k).map fun s => (b.allocation (a.position s)).leaving).sum =
      (b.encumberedMagnitude a).toNat
  maxMagnitude : b'.maxMagnitude a = b.maxMagnitude a

namespace Released

variable {k k' : Nat}

theorem of_reads (hqueue : b'.queue a = b.queue a)
    (hallocation : ∀ s, b'.allocation (a.position s) = b.allocation (a.position s))
    (hencumbered : b'.encumberedMagnitude a = b.encumberedMagnitude a)
    (hmax : b'.maxMagnitude a = b.maxMagnitude a) : Released block a 0 b b' where
  queued := by rw [Books.queued, Books.queued, hqueue, List.drop_zero]
  allocation s := by rw [List.take_zero, if_neg List.not_mem_nil, hallocation]
  encumbered := by rw [hencumbered, List.take_zero, List.map_nil, List.sum_nil, Nat.add_zero]
  maxMagnitude := hmax

theorem nodup (h : Released block a k b b') (hnodup : (b.queued a).Nodup) :
    (b'.queued a).Nodup := by
  rw [h.queued]
  exact hnodup.sublist (List.drop_sublist k _)

theorem trans (h : Released block a k b b') (h' : Released block a k' b' b'')
    (hnodup : (b.queued a).Nodup) : Released block a (k + k') b b'' := by
  have htake : (b.queued a).take (k + k') = (b.queued a).take k ++ (b'.queued a).take k' := by
    rw [List.take_add, h.queued]
  -- an entry that leaves later has not left before, so its allocation is still the one it had
  have hlater : ∀ s ∈ (b'.queued a).take k',
      b'.allocation (a.position s) = b.allocation (a.position s) := by
    intro s hs
    rw [h.queued] at hs
    have hdistinct := hnodup
    rw [← List.take_append_drop k (b.queued a), List.nodup_append] at hdistinct
    rw [h.allocation, if_neg fun hfront => ?_]
    exact hdistinct.2.2 s hfront s (List.mem_of_mem_take hs) rfl
  constructor
  · rw [h'.queued, h.queued, List.drop_drop]
  · intro s
    rw [h'.allocation, htake]
    by_cases hs : s ∈ (b'.queued a).take k'
    · rw [if_pos hs, if_pos (List.mem_append_right _ hs), hlater s hs]
    · rw [if_neg hs, h.allocation]
      simp only [List.mem_append, hs, or_false]
  · have hsum : ((b'.queued a).take k').map (fun s => (b'.allocation (a.position s)).leaving) =
        ((b'.queued a).take k').map fun s => (b.allocation (a.position s)).leaving :=
      List.map_congr_left fun s hs => by rw [hlater s hs]
    have hfirst := h.encumbered
    have hsecond := h'.encumbered
    rw [hsum] at hsecond
    rw [htake, List.map_append, List.sum_append]
    omega
  · rw [h'.maxMagnitude, h.maxMagnitude]

/-- The front of a queue leaves it, and no other account changes. -/
theorem front {s : OperatorSet} {rest : List OperatorSet} {c : Capacity} {al : Allocation}
    (hfront : b.queued a = s :: rest) (hdue : (b.allocation (a.position s)).effectBlock ≤ block)
    (hsettled : b.settled (a.position s) block = .ok (c, al)) (x : Account) :
    Released block x (if a = x then 1 else 0) b ((b.store (a.position s) c al).dequeue a) := by
  obtain ⟨rfl, -, hencumbered⟩ := b.settled_eq_ok.1 hsettled
  by_cases hx : a = x
  · subst x
    have htake : (b.queued a).take 1 = [s] := by rw [hfront, List.take_succ_cons, List.take_zero]
    rw [if_pos rfl]
    constructor
    · rw [queued_dequeue, if_pos rfl, queued_store, List.drop_one]
    · intro t
      rw [allocation_dequeue, allocation_store, htake]
      by_cases ht : t = s
      · subst t
        rw [if_pos rfl, if_pos (List.mem_singleton_self _)]
      · have hne : a.position s ≠ a.position t := fun hp => ht (congrArg Position.set hp).symm
        rw [if_neg hne, if_neg fun hmem => ht (List.mem_singleton.1 hmem)]
    · have hstored : ((b.store (a.position s) c ((b.allocation (a.position s)).asOf block)).dequeue
          a).encumberedMagnitude a = c.encumbered :=
        (encumberedMagnitude_store b _ _ _ _).trans (if_pos rfl)
      have hgiven : min (((b.allocation (a.position s)).due? block).getD 0) 0 =
          min (b.allocation (a.position s)).pending 0 := by
        unfold Allocation.due? Allocation.isMatured Allocation.isPending
        by_cases hidle : (b.allocation (a.position s)).pending = 0
        · simp [hidle]
        · simp [hidle, hdue]
      have haccount : (a.position s).account = a := rfl
      rw [hgiven, haccount] at hencumbered
      rw [hstored, htake, List.map_singleton, List.sum_singleton, Allocation.leaving]
      omega
    · rw [maxMagnitude_dequeue, (store_frame b _ _ _).1]
  · rw [if_neg hx]
    refine of_reads ?_ (fun t => ?_) ?_ ?_
    · rw [queue_dequeue, if_neg hx, (store_frame b _ _ _).2.2.1]
    · rw [allocation_dequeue, allocation_store, if_neg]
      exact fun hp => hx (position_eq_iff.1 hp.symm).1.symm
    · exact (encumberedMagnitude_store b _ _ _ _).trans (if_neg hx)
    · rw [maxMagnitude_dequeue, (store_frame b _ _ _).1]

theorem clearFront {sets rest : List OperatorSet} (hnodup : ∀ x, (b.queued x).Nodup)
    (hqueue : b.queued a = sets ++ rest) (h : Books.clearFront a block sets b = .ok k b')
    (x : Account) : Released block x (if a = x then k else 0) b b' := by
  induction sets generalizing b k with
  | nil =>
    cases h
    rw [ite_self]
    exact of_reads rfl (fun _ => rfl) rfl rfl
  | cons s sets ih =>
    rw [Books.clearFront, get_bind_apply, if_apply] at h
    split at h
    next hearly =>
      cases h
      rw [ite_self]
      exact of_reads rfl (fun _ => rfl) rfl rfl
    next hearly =>
      obtain ⟨_, _, hsettle, h⟩ := bind_eq_ok.1 h
      obtain ⟨c, al, hsettled, rfl⟩ := settle_eq_ok.1 hsettle
      obtain ⟨_, _, hpop, h⟩ := bind_eq_ok.1 h
      cases hpop
      obtain ⟨k', _, hrest, hk⟩ := bind_eq_ok.1 h
      cases hk
      have hfirst := front hqueue (UInt32.not_lt.1 hearly) hsettled
      have htail : ((b.store (a.position s) c al).dequeue a).queued a = sets ++ rest := by
        rw [queued_dequeue, if_pos rfl, queued_store, hqueue]
        rfl
      have hall := (hfirst x).trans (ih (fun y => (hfirst y).nodup (hnodup y)) htail hrest) (hnodup x)
      have hcount : (if a = x then k' + 1 else 0) =
          (if a = x then 1 else 0) + if a = x then k' else 0 := by
        split <;> omega
      rw [hcount]
      exact hall

end Released

/-- No entry of a queue that is due stands behind one that is not. -/
theorem WellKept.due_first (h : WellKept config block b) (a : Account) :
    (b.queued a).Pairwise fun s t =>
      decide ((b.allocation (a.position t)).effectBlock ≤ block) →
        decide ((b.allocation (a.position s)).effectBlock ≤ block) := by
  refine (h.orderly a).sorted.imp fun hle hdue => ?_
  rw [decide_eq_true_eq] at hdue ⊢
  exact UInt32.le_trans hle hdue

/-- In each round the count is the limit or all that is due, whichever is less. -/
theorem WellKept.clearMatured_exact (h : WellKept config block b) (a : Account) (limit : Nat) :
    ∃ b', clearMatured a limit block b = .ok (min limit (b.maturedEntries a block)) b' ∧
      WellKept config block b' ∧
      ∀ x, Released block x (if a = x then min limit (b.maturedEntries a block) else 0) b b' := by
  obtain ⟨k, b', hclear, hsettlement⟩ := h.clearMatured_succeeds a limit
  have hfront : clearFront a block ((b.queued a).take limit) b = .ok k b' := hclear
  have hqueue : b.queued a = (b.queued a).take limit ++ (b.queued a).drop limit :=
    (List.take_append_drop limit _).symm
  have hk : k = min limit (b.maturedEntries a block) := by
    rw [(clearFront_flow (fun x => (h.orderly x).wellFormed) hqueue hfront).2]
    exact length_takeWhile_take (h.due_first a) limit
  subst hk
  exact ⟨b', hclear, hsettlement.wellKept,
    Released.clearFront (fun x => (h.orderly x).nodup) hqueue hfront⟩

/-- There is magnitude behind every entry of the queue. -/
def Backed (b : Books) (a : Account) : Prop :=
  ∀ s ∈ b.queued a, (b.allocation (a.position s)).current ≠ 0

theorem Backed.store (h : b.Backed a) {p : Position} {al : Allocation}
    (hp : p.account = a → p.set ∈ b.queued a → al.current ≠ 0) (c : Capacity) :
    (b.store p c al).Backed a := by
  intro s hs
  rw [queued_store] at hs
  rw [allocation_store]
  split
  next hq =>
    obtain ⟨rfl, rfl⟩ := position_eq_iff.1 hq.symm
    exact hp rfl hs
  next hq => exact h s hs

/-- The books are well kept, and there is magnitude behind every entry of a queue. -/
structure FullyKept (config : Config) (block : BlockNumber) (b : Books) : Prop extends
  WellKept config block b where
  backed : ∀ a, b.Backed a

namespace FullyKept

theorem empty : FullyKept config block {} where
  toWellKept := wellKept_empty
  backed a s hs := by
    rw [queued, queue, UndoMap.find?_empty] at hs
    cases hs

theorem lasts : Lasts (FullyKept config) where
  reads hreads h := by
    refine ⟨h.toWellKept.of_magnitudes hreads.toSameMagnitudes, fun a s hs => ?_⟩
    rw [queued, hreads.queue] at hs
    rw [hreads.allocation]
    exact h.backed a s hs
  later hblock h := ⟨lasts_wellKept.later hblock h.toWellKept, h.backed⟩

variable (h : FullyKept config block b)
include h

theorem not_queued {p : Position} {c : Capacity} {al : Allocation}
    (hcleared : b.Cleared p.account block) (hsettled : b.settled p block = .ok (c, al))
    (hidle : ¬al.isPending) (hp : p.account = a) : p.set ∉ b.queued a := by
  subst hp
  obtain ⟨rfl, -⟩ := b.settled_eq_ok.1 hsettled
  exact (h.orderly p.account).not_queued hcleared (pending_eq_zero hidle)

/-- Every posting keeps magnitude behind the entries: a slash never takes all there is, and before
an operator gives up the rest what is due has left the queue. -/
theorem posts {e : Entry} (hpost : Posts config block e b b') : FullyKept config block b' := by
  refine ⟨h.toWellKept.posts hpost, fun a => ?_⟩
  have hbacked := h.backed a
  cases hpost with
  | @clear _ x s rest c al hfront hdue hsettled =>
    have hreleased := Released.front hfront hdue hsettled a
    intro t ht
    have hnodup := (h.orderly a).nodup
    rw [hreleased.queued] at ht
    rw [← List.take_append_drop (if x = a then 1 else 0) (b.queued a), List.nodup_append] at hnodup
    rw [hreleased.allocation, if_neg fun htaken => hnodup.2.2 t htaken t ht rfl]
    exact hbacked t (List.mem_of_mem_drop ht)
  | @mature _ p c al hdue hup hsettled =>
    refine hbacked.store (fun hp hs => ?_) c
    subst a
    rw [Allocation.isMatured, Bool.and_eq_true, Allocation.isPending, decide_eq_true_eq] at hdue
    have hnot : 0 ≤ (b.allocation p).pending := by simpa [Allocation.isDeallocating] using hup
    exact absurd ((h.orderly p.account).spent p.set hs hnot).1 hdue.1
  | allocate hcleared hsettled hidle =>
    exact hbacked.store (fun hp hs => absurd hs (h.not_queued hcleared hsettled hidle hp)) _
  | @deallocate _ p m c al _ hcleared hsettled hidle hdown =>
    have hcurrent : al.current ≠ 0 := by
      intro hzero
      rw [hzero] at hdown
      exact UInt64.not_lt_zero hdown
    intro s hs
    rw [queued_store, queued_enqueue _ (h.orderly _).wellFormed] at hs
    rw [allocation_store]
    split
    next => exact hcurrent
    next hq =>
      refine hbacked s ?_
      split at hs
      next hp =>
        rcases List.mem_append.1 hs with hs | hs
        · exact hp ▸ hs
        · exact absurd (position_eq_iff.2 ⟨hp.symm, List.mem_singleton.1 hs⟩).symm hq
      next hp => exact hs
  | release hcleared hsettled hidle =>
    exact hbacked.store (fun hp hs => absurd hs (h.not_queued hcleared hsettled hidle hp)) _
  | @cut _ p w c al _ _ hwad _ _ hsettled hcurrent =>
    refine hbacked.store (b := b) (fun _ _ => ?_) _
    have hpos : 0 < al.current.toNat := UInt64.lt_iff_toNat_lt.1 (UInt64.pos_iff_ne_zero.2 hcurrent)
    have hless := Magnitude.scale_lt hwad.2 hpos
    have hleft := UInt64.toNat_sub_of_le _ _
      (Magnitude.scale_le (UInt64.le_of_lt hwad.2) (m := al.current))
    dsimp only
    rw [Ne, ← UInt64.toNat_inj, hleft, UInt64.toNat_zero]
    omega
  | _ => exact hbacked

theorem of_clearMatured {limit k : Nat} (hclear : clearMatured a limit block b = .ok k b') :
    FullyKept config block b' := by
  have hpost : Postings config block (fun _ => True) b b' :=
    (clearMatured_ok (fun _ => trivial) hclear).1
  exact hpost.keeps (fun _ _ _ _ hpost h => h.posts hpost) h

/-- A queue is never longer than the capacity of its account is large. -/
theorem length_queued_le (a : Account) : (b.queued a).length ≤ wad.toNat := by
  have hone : ∀ s ∈ (b.queued a).toFinset, 1 ≤ (b.allocation (a.position s)).held := by
    intro s hs
    have hcurrent := h.backed a s (List.mem_toFinset.1 hs)
    rw [Ne, ← UInt64.toNat_inj, UInt64.toNat_zero] at hcurrent
    unfold Allocation.held
    omega
  have hsum : (b.queued a).toFinset.card ≤
      ∑ s ∈ (b.queued a).toFinset, (b.allocation (a.position s)).held := by
    rw [Finset.card_eq_sum_ones]
    exact Finset.sum_le_sum hone
  have hall : ∑ s ∈ (b.queued a).toFinset, (b.allocation (a.position s)).held ≤ b.totalHeld a :=
    Finset.sum_le_univ_sum_of_nonneg fun _ => Nat.zero_le _
  have hfits := UInt64.le_iff_toNat_le.1 (h.balanced.fits a)
  have hceiling := UInt64.le_iff_toNat_le.1 (h.balanced.ceiling a)
  rw [h.balanced.conserved] at hfits
  rw [← List.toFinset_card_of_nodup (h.orderly a).nodup]
  omega

end FullyKept

/-- What the rounds for an account have cleared together. -/
def clearedFrom (operator : Address) (a : Account) (rounds : List (Address × Nat)) : Nat :=
  ((rounds.filter fun round => (⟨operator, round.1⟩ : Account) = a).map Prod.snd).sum

theorem clearedFrom_cons (operator : Address) (a : Account) (x : Address) (k : Nat)
    (rounds : List (Address × Nat)) : clearedFrom operator a ((x, k) :: rounds) =
      (if (⟨operator, x⟩ : Account) = a then k else 0) + clearedFrom operator a rounds := by
  unfold clearedFrom
  rw [List.filter_cons]
  split <;> simp_all

/-- The rounds of a call, each from the books that the ones before it lead to. -/
theorem WellKept.clearings_exact (h : WellKept config block b) (operator : Address)
    (legs : List (Address × UInt64)) : ∃ counts b',
      (legs.mapM fun leg => clearMatured ⟨operator, leg.1⟩ leg.2.toNat block) b = .ok counts b' ∧
      counts.length = legs.length ∧
      (∀ a, Released block a (clearedFrom operator a ((legs.map Prod.fst).zip counts)) b b') ∧
      ∀ i leg, legs[i]? = some leg → ∃ bᵢ,
        ((legs.take i).mapM fun leg => clearMatured ⟨operator, leg.1⟩ leg.2.toNat block) b =
          .ok (counts.take i) bᵢ ∧
        counts[i]? = some (min leg.2.toNat (bᵢ.maturedEntries ⟨operator, leg.1⟩ block)) := by
  induction legs generalizing b with
  | nil => exact ⟨[], b, rfl, rfl, fun a => .of_reads rfl (fun _ => rfl) rfl rfl, nofun⟩
  | cons leg legs ih =>
    obtain ⟨b₁, hfirst, hkept, hone⟩ := h.clearMatured_exact ⟨operator, leg.1⟩ leg.2.toNat
    obtain ⟨counts, b', hrest, hlength, hreleased, hrounds⟩ := ih hkept
    refine ⟨min leg.2.toNat (b.maturedEntries ⟨operator, leg.1⟩ block) :: counts, b', ?_,
      congrArg Nat.succ hlength, fun a => ?_, fun i leg' hleg => ?_⟩
    · rw [List.mapM_cons]
      exact bind_eq_ok.2 ⟨_, b₁, hfirst, bind_eq_ok.2 ⟨counts, b', hrest, rfl⟩⟩
    · rw [List.map_cons, List.zip_cons_cons, clearedFrom_cons]
      exact (hone a).trans (hreleased a) (h.orderly a).nodup
    · cases i with
      | zero =>
        cases hleg
        exact ⟨b, rfl, rfl⟩
      | succ i =>
        obtain ⟨bᵢ, hbefore, hcount⟩ := hrounds i leg' hleg
        refine ⟨bᵢ, ?_, hcount⟩
        rw [List.take_succ_cons, List.mapM_cons]
        exact bind_eq_ok.2 ⟨_, b₁, hfirst, bind_eq_ok.2 ⟨_, bᵢ, hbefore, rfl⟩⟩

/-- Where nothing at the front of a queue is due, nothing is cleared. -/
theorem clearMatured_of_cleared (h : b.Cleared a block) (limit : Nat) :
    clearMatured a limit block b = .ok 0 b := by
  rw [clearMatured, get_bind_apply]
  cases hfront : (b.queued a).take limit with
  | nil => rfl
  | cons s rest =>
    have hqueue : b.queued a = s :: (rest ++ (b.queued a).drop limit) := by
      rw [← List.cons_append, ← hfront, List.take_append_drop]
    rw [clearFront, get_bind_apply, if_apply, if_pos (h s _ hqueue)]
    rfl

theorem clearings_of_cleared {operator : Address} {legs : List (Address × UInt64)}
    (h : ∀ leg ∈ legs, b.Cleared ⟨operator, leg.1⟩ block) :
    (legs.mapM fun leg => clearMatured ⟨operator, leg.1⟩ leg.2.toNat block) b =
      .ok (List.replicate legs.length 0) b := by
  induction legs with
  | nil => rfl
  | cons leg legs ih =>
    rw [List.mapM_cons]
    exact bind_eq_ok.2 ⟨0, b, clearMatured_of_cleared (h leg List.mem_cons_self) _, bind_eq_ok.2
      ⟨_, b, ih fun leg' hleg => h leg' (List.mem_cons_of_mem leg hleg), rfl⟩⟩

/-- Nothing becomes due in a queue by what leaves it. -/
theorem Released.cleared {k : Nat} (h : Released block a k b b') (horderly : Orderly config block b a)
    (hcleared : b.Cleared a block) : b'.Cleared a block := by
  intro s rest hs
  have hmem : s ∈ b.queued a := by
    have hleft : s ∈ (b.queued a).drop k := by
      rw [← h.queued, hs]
      exact List.mem_cons_self
    exact List.mem_of_mem_drop hleft
  have heffect : (b'.allocation (a.position s)).effectBlock =
      (b.allocation (a.position s)).effectBlock := by
    rw [h.allocation]
    split
    · exact Allocation.effectBlock_asOf _ _
    · rfl
  rw [heffect]
  exact horderly.lt_effectBlock hcleared hmem

/-- A round without a limit empties the front of its queue for good. -/
theorem FullyKept.clearings_leave_cleared (h : FullyKept config block b) {operator : Address}
    {legs : List (Address × UInt64)} (hlimits : ∀ leg ∈ legs, wad ≤ leg.2) {counts : List Nat}
    (hrun : (legs.mapM fun leg => clearMatured ⟨operator, leg.1⟩ leg.2.toNat block) b =
      .ok counts b') : ∀ leg ∈ legs, b'.Cleared ⟨operator, leg.1⟩ block := by
  intro leg hleg
  have hall : Leads (FullyKept config block)
      (legs.mapM fun leg => clearMatured ⟨operator, leg.1⟩ leg.2.toNat block)
      (fun _ b => FullyKept config block b ∧ b.Cleared ⟨operator, leg.1⟩ block)
      (fun _ => True) := by
    refine Leads.mapM_of_mem hleg (fun other _ b hb => ?_) (fun b hb => ?_) fun other _ b hb => ?_
    · cases hclear : clearMatured ⟨operator, other.1⟩ other.2.toNat block b with
      | error => trivial
      | ok k b' => exact hb.of_clearMatured hclear
    · cases hclear : clearMatured ⟨operator, leg.1⟩ leg.2.toNat block b with
      | error => trivial
      | ok k b' =>
        have hlong : (b.queued ⟨operator, leg.1⟩).length ≤ leg.2.toNat :=
          Nat.le_trans (hb.length_queued_le _) (UInt64.le_iff_toNat_le.1 (hlimits leg hleg))
        have hfront : clearFront ⟨operator, leg.1⟩ block (b.queued ⟨operator, leg.1⟩) b =
            .ok k b' := by
          rw [clearMatured, get_bind_apply, List.take_of_length_le hlong] at hclear
          exact hclear
        exact ⟨hb.of_clearMatured hclear, cleared_of_clearFront hfront⟩
    · obtain ⟨hkept, hcleared⟩ := hb
      obtain ⟨b', hclear, -, hreleased⟩ :=
        hkept.clearMatured_exact ⟨operator, other.1⟩ other.2.toNat
      rw [hclear]
      exact ⟨hkept.of_clearMatured hclear, (hreleased _).cleared (hkept.orderly _) hcleared⟩
  exact (hall.of_ok h hrun).2

end Books

namespace Manager

open Books

variable {δ ρ π : Type} [DelegationLedger δ] [SetRegistrar ρ] [PermissionController π]
variable {m : Manager δ ρ π}

theorem Reachable.fullyKept (h : m.Reachable) : FullyKept m.config m.block m.books :=
  h.keeps (fun _ _ => .empty) (fun _ => FullyKept.lasts.persists) fun hpost hb => hb.posts hpost

theorem attempt_clear_of_ok (caller : Address) {operator : Address} {strategies : List Address}
    {limits : List UInt64} {counts : List Nat} {b : Books}
    (hlength : strategies.length = limits.length)
    (hrun : ((strategies.zip limits).mapM fun leg =>
      clearMatured ⟨operator, leg.1⟩ leg.2.toNat m.block) m.books.checkpoint = .ok counts b) :
    m.attempt (perform caller (.clearDeallocationQueue operator strategies limits)) =
      (.ok (.cleared counts), { m with
        books := b.commit
        tally := m.tally.clearedEntries counts.sum }) := by
  have hwork : (atomically (onBooks ((strategies.zip limits).mapM fun leg =>
      clearMatured ⟨operator, leg.1⟩ leg.2.toNat m.block)) : Managing δ ρ π (List Nat)) m =
        .ok counts { m with books := b.commit } := atomically_onBooks_ok hrun
  have hclear : clearDeallocationQueue operator strategies limits m =
      .ok counts { m with
        books := b.commit
        tally := m.tally.clearedEntries counts.sum } := by
    rw [clearDeallocationQueue, if_apply, if_pos hlength, List.sum_eq_foldl]
    exact bind_eq_ok.2 ⟨m, m, rfl, bind_eq_ok.2 ⟨counts, _, hwork, rfl⟩⟩
  exact attempt_of_ok (map_eq_ok.2 ⟨counts, hclear, rfl⟩)

/-- Clearing the queues of an operator does just what is due. The call goes through; each round
counts the limit or all that is due in its queue when its turn comes, whichever is less; so many
entries leave the front of the queue, with their allocations written down and their deallocations
given up, and nothing else changes. A limit of `wad` or more is none: to make the call again then
clears nothing. -/
theorem Reachable.clearing_exact (h : m.Reachable) (caller operator : Address)
    {strategies : List Address} {limits : List UInt64}
    (hlength : strategies.length = limits.length) :
    let clear (strategies : List Address) (limits : List UInt64) : Call :=
      .clearDeallocationQueue operator strategies limits
    let m' := m.after (.call caller (clear strategies limits))
    ∃ counts,
      (m.attempt (perform caller (clear strategies limits))).1 = .ok (.cleared counts) ∧
      counts.length = strategies.length ∧
      (∀ i x limit, strategies[i]? = some x → limits[i]? = some limit →
        let before := clear (strategies.take i) (limits.take i)
        (m.attempt (perform caller before)).1 = .ok (.cleared (counts.take i)) ∧
          counts[i]? = some (min limit.toNat
            ((m.after (.call caller before)).books.maturedEntries ⟨operator, x⟩ m.block))) ∧
      (∀ a, Released m.block a (clearedFrom operator a (strategies.zip counts)) m.books m'.books) ∧
      ((∀ limit ∈ limits, wad ≤ limit) →
        (m'.attempt (perform caller (clear strategies limits))).1 =
            .ok (.cleared (List.replicate strategies.length 0)) ∧
          (m'.after (.call caller (clear strategies limits))).books = m'.books) := by
  intro clear m'
  have hopen : FullyKept m.config m.block m.books.checkpoint :=
    FullyKept.lasts.reads (sameReads_checkpoint m.books) h.fullyKept
  obtain ⟨counts, b, hrun, hcounts, hreleased, hrounds⟩ :=
    hopen.clearings_exact operator (strategies.zip limits)
  have hattempt := attempt_clear_of_ok caller hlength hrun
  have hm' : m' = { m with
      books := b.commit
      tally := m.tally.clearedEntries counts.sum } := congrArg Prod.snd hattempt
  have hfirst : (strategies.zip limits).map Prod.fst = strategies :=
    List.map_fst_zip (Nat.le_of_eq hlength)
  have hsize : (strategies.zip limits).length = strategies.length := by
    rw [List.length_zip, ← hlength, Nat.min_self]
  refine ⟨counts, congrArg Prod.fst hattempt, hcounts.trans hsize, ?_, fun a => ?_, fun hlimits => ?_⟩
  · intro i x limit hx hlimit before
    obtain ⟨bᵢ, hbefore, hcount⟩ := hrounds i (x, limit) (List.getElem?_zip_eq_some.2 ⟨hx, hlimit⟩)
    rw [List.zip_eq_zipWith, List.take_zipWith, ← List.zip_eq_zipWith] at hbefore
    have hshort := attempt_clear_of_ok caller
      (by rw [List.length_take, List.length_take, hlength]) hbefore
    have hbooks : (m.after (.call caller before)).books = bᵢ.commit :=
      congrArg (fun result => result.2.books) hshort
    rw [hbooks]
    exact ⟨congrArg Prod.fst hshort, hcount⟩
  · have hrounds := hreleased a
    rw [hfirst] at hrounds
    rw [hm']
    exact ⟨hrounds.queued, hrounds.allocation, hrounds.encumbered, hrounds.maxMagnitude⟩
  · have hcleared := hopen.clearings_leave_cleared
      (fun leg hleg => hlimits leg.2 (List.of_mem_zip hleg).2) hrun
    have hagain := attempt_clear_of_ok (m := m') caller hlength
      (clearings_of_cleared (b := m'.books.checkpoint) fun leg hleg => by
        rw [hm']
        exact hcleared leg hleg)
    rw [hsize] at hagain
    have hidle : m'.books.Idle := (h.after _).idle
    refine ⟨congrArg Prod.fst hagain, ?_⟩
    exact (congrArg (fun result => result.2.books) hagain).trans hidle.commit_checkpoint

end Manager

namespace Sample

/-- The operator takes magnitude back from two sets, and the first slashes it once that is due, so
that its entry in the queue has nothing to give up any more. -/
def twoSets : List (Move LocalDelegation LocalRegistrar LocalPermissions) :=
  [.call operator (.setAllocationDelay operator 2),
    .call avs (.createOperatorSets avs [⟨1, [position.strategy]⟩, ⟨2, [position.strategy]⟩]),
    .call operator (.registerForOperatorSets operator ⟨avs, [1, 2], []⟩),
    .setBlock 5,
    .call operator (.modifyAllocations operator
      [⟨position.set, [position.strategy], [600]⟩, ⟨⟨avs, 2⟩, [position.strategy], [300]⟩]),
    .setBlock 7,
    .call operator (.modifyAllocations operator
      [⟨position.set, [position.strategy], [400]⟩, ⟨⟨avs, 2⟩, [position.strategy], [100]⟩]),
    .setBlock 17] ++ slash

end Sample

namespace Manager

open Books

/-- The first round takes the entry that the slash has completed, the second the other one, and of
what is encumbered just the 200 of that are given up. -/
theorem clearing_exact_two_sets :
    let m := Sample.start.run Sample.twoSets
    let clear : Call := .clearDeallocationQueue Sample.operator
      [Sample.position.strategy, Sample.position.strategy] [1, 5]
    (m.attempt (perform Sample.avs clear)).1 = .ok (.cleared [1, 1]) ∧
      Released 17 Sample.position.account 2 m.books (m.after (.call Sample.avs clear)).books ∧
      m.books.encumberedMagnitude Sample.position.account = 500 ∧
      (m.after (.call Sample.avs clear)).books.encumberedMagnitude Sample.position.account = 300 := by
  intro m clear
  have hreachable : m.Reachable := (Reachable.fresh _ _ _ _).run _
  have hlength : [Sample.position.strategy, Sample.position.strategy].length =
      ([1, 5] : List UInt64).length := rfl
  obtain ⟨counts, hanswer, -, -, hreleased, -⟩ :=
    hreachable.clearing_exact Sample.avs Sample.operator hlength
  have hcounts : (m.attempt (perform Sample.avs clear)).1 = .ok (.cleared [1, 1]) := by
    decide +kernel
  obtain rfl : [1, 1] = counts := by
    rw [hcounts] at hanswer
    cases hanswer
    rfl
  have hblock : m.block = 17 := by decide +kernel
  refine ⟨hcounts, hblock ▸ hreleased Sample.position.account, ?_, ?_⟩ <;> decide +kernel

end Manager

end Restake
