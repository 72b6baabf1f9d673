import Restake.Proofs.Balance

/-!
The order of a queue. Every deallocation waits in the queue of its account, once, and the queue is
sorted by the blocks at which they are due. An entry whose deallocation a slash has completed stays
behind until it is cleared. Once no deallocation at the front is due none in the queue is.
-/
namespace Restake

namespace Books

variable {b b' : Books} {config : Config} {block : BlockNumber} {a : Account}

structure Orderly (config : Config) (block : BlockNumber) (b : Books) (a : Account) : Prop where
  wellFormed : (b.queue a).WellFormed
  nodup : (b.queued a).Nodup
  sorted : (b.queued a).Pairwise fun s t =>
    (b.allocation (a.position s)).effectBlock ≤ (b.allocation (a.position t)).effectBlock
  waiting : ∀ s, (b.allocation (a.position s)).pending < 0 → s ∈ b.queued a
  /-- What waits in the queue and is no deallocation was one that is due. -/
  spent : ∀ s ∈ b.queued a, 0 ≤ (b.allocation (a.position s)).pending →
    (b.allocation (a.position s)).pending = 0 ∧ (b.allocation (a.position s)).effectBlock ≤ block
  bounded : ∀ s ∈ b.queued a, (b.allocation (a.position s)).effectBlock.toNat ≤
    block.toNat + config.deallocationDelay.toNat

theorem orderly_empty : Orderly config block {} a := by
  have hqueue : ({} : Books).queue a = {} := by
    rw [queue, UndoMap.find?_empty]
    rfl
  have hqueued : ({} : Books).queued a = [] := by
    rw [queued, hqueue]
    rfl
  constructor
  · rw [hqueue]
    exact Fifo.wellFormed_empty
  · rw [hqueued]
    exact List.nodup_nil
  · rw [hqueued]
    exact List.Pairwise.nil
  · intro s hs
    rw [allocation, UndoMap.find?_empty] at hs
    cases hs
  · intro s hs
    rw [hqueued] at hs
    cases hs
  · intro s hs
    rw [hqueued] at hs
    cases hs

namespace Orderly

theorem of_reads (h : Orderly config block b a)
    (hallocation : ∀ s, b'.allocation (a.position s) = b.allocation (a.position s))
    (hqueue : b'.queue a = b.queue a) : Orderly config block b' a := by
  have hqueued : b'.queued a = b.queued a := by rw [queued, queued, hqueue]
  constructor
  · rw [hqueue]
    exact h.wellFormed
  · rw [hqueued]
    exact h.nodup
  · rw [hqueued]
    simpa only [hallocation] using h.sorted
  · intro s hs
    rw [hallocation] at hs
    rw [hqueued]
    exact h.waiting s hs
  · intro s hs
    rw [hqueued] at hs
    rw [hallocation]
    exact h.spent s hs
  · intro s hs
    rw [hqueued] at hs
    rw [hallocation]
    exact h.bounded s hs

theorem later (h : Orderly config block b a) {block' : BlockNumber} (hblock : block ≤ block') :
    Orderly config block' b a := by
  refine { h with spent := ?_, bounded := ?_ }
  · intro s hs hup
    have hspent := h.spent s hs hup
    exact ⟨hspent.1, UInt32.le_trans hspent.2 hblock⟩
  · intro s hs
    have hbounded := h.bounded s hs
    rw [UInt32.le_iff_toNat_le] at hblock
    omega

/-- A write at a position keeps the order if the position keeps its place in it. -/
theorem store (h : Orderly config block b a) {p : Position} {c : Capacity} {al : Allocation}
    (hdown : p.account = a → al.pending < 0 → p.set ∈ b.queued a)
    (hplace : p.account = a → p.set ∈ b.queued a →
      al.effectBlock = (b.allocation p).effectBlock ∧
        (0 ≤ al.pending → al.pending = 0 ∧ al.effectBlock ≤ block)) :
    Orderly config block (b.store p c al) a := by
  by_cases ha : p.account = a
  · subst a
    have hqueue : (b.store p c al).queue p.account = b.queue p.account := by
      rw [(store_frame b p c al).2.2.1]
    have heffect : ∀ s ∈ b.queued p.account,
        ((b.store p c al).allocation (p.account.position s)).effectBlock =
          (b.allocation (p.account.position s)).effectBlock := by
      intro s hs
      rw [allocation_store]
      by_cases hp : p = p.account.position s
      · obtain ⟨-, rfl⟩ := position_eq_iff.1 hp.symm
        rw [if_pos hp]
        exact (hplace rfl hs).1
      · rw [if_neg hp]
    constructor
    · rw [hqueue]
      exact h.wellFormed
    · rw [queued_store]
      exact h.nodup
    · rw [queued_store]
      refine h.sorted.imp_of_mem fun {s t} hs ht hle => ?_
      rw [heffect s hs, heffect t ht]
      exact hle
    · intro s hs
      rw [allocation_store] at hs
      rw [queued_store]
      by_cases hp : p = p.account.position s
      · obtain ⟨-, rfl⟩ := position_eq_iff.1 hp.symm
        rw [if_pos hp] at hs
        exact hdown rfl hs
      · rw [if_neg hp] at hs
        exact h.waiting s hs
    · intro s hs hup
      rw [queued_store] at hs
      rw [allocation_store] at hup ⊢
      by_cases hp : p = p.account.position s
      · obtain ⟨-, rfl⟩ := position_eq_iff.1 hp.symm
        rw [if_pos hp] at hup ⊢
        exact (hplace rfl hs).2 hup
      · rw [if_neg hp] at hup ⊢
        exact h.spent s hs hup
    · intro s hs
      rw [queued_store] at hs
      rw [heffect s hs]
      exact h.bounded s hs
  · refine h.of_reads (fun s => ?_) (by rw [(store_frame b p c al).2.2.1])
    rw [allocation_store, if_neg fun hp => ha (position_eq_iff.1 hp.symm).1.symm]

/-- The front of the queue may leave once it is no deallocation any more. -/
theorem dequeue (h : Orderly config block b a) {s : OperatorSet} {rest : List OperatorSet}
    (hfront : b.queued a = s :: rest) (hdone : 0 ≤ (b.allocation (a.position s)).pending) :
    Orderly config block (b.dequeue a) a := by
  have hrest : (b.dequeue a).queued a = rest := by
    rw [queued_dequeue, if_pos rfl, hfront]
    rfl
  have hmem : ∀ t ∈ (b.dequeue a).queued a, t ∈ b.queued a := by
    intro t ht
    rw [hfront]
    exact List.mem_cons_of_mem s (hrest ▸ ht)
  have hnodup := h.nodup
  have hsorted := h.sorted
  rw [hfront] at hnodup hsorted
  constructor
  · rw [queue_dequeue, if_pos rfl]
    exact h.wellFormed.pop
  · rw [hrest]
    exact (List.nodup_cons.1 hnodup).2
  · rw [hrest]
    exact (List.pairwise_cons.1 hsorted).2
  · intro t ht
    have hqueued := h.waiting t ht
    rw [hfront] at hqueued
    rw [hrest]
    rcases List.mem_cons.1 hqueued with rfl | hmem
    · exact absurd ht (Int.not_lt.2 hdone)
    · exact hmem
  · intro t ht
    exact h.spent t (hmem t ht)
  · intro t ht
    exact h.bounded t (hmem t ht)

/-- Once the front of the queue is not due the rest is not either. -/
theorem lt_effectBlock (h : Orderly config block b a) (hcleared : b.Cleared a block)
    {s : OperatorSet} (hs : s ∈ b.queued a) : block < (b.allocation (a.position s)).effectBlock := by
  cases hqueue : b.queued a with
  | nil =>
    rw [hqueue] at hs
    cases hs
  | cons t rest =>
    have hsorted := h.sorted
    have hfront := hcleared t rest hqueue
    rw [hqueue] at hs hsorted
    rcases List.mem_cons.1 hs with rfl | hmem
    · exact hfront
    · exact UInt32.lt_of_lt_of_le hfront ((List.pairwise_cons.1 hsorted).1 s hmem)

theorem not_queued (h : Orderly config block b a) (hcleared : b.Cleared a block) {s : OperatorSet}
    (hidle : ((b.allocation (a.position s)).asOf block).pending = 0) : s ∉ b.queued a := by
  intro hs
  have hlt := h.lt_effectBlock hcleared hs
  rw [Allocation.asOf_of_lt hlt] at hidle
  have hspent := h.spent s hs (Int.le_of_eq hidle.symm)
  exact absurd hspent.2 (UInt32.not_le.2 hlt)

/-- A deallocation made now goes to the end of the queue. -/
theorem store_enqueue {p : Position} (h : Orderly config block b p.account) {c : Capacity}
    {al : Allocation} (hnew : p.set ∉ b.queued p.account) (hdown : al.pending < 0)
    (heffect : al.effectBlock.toNat = block.toNat + config.deallocationDelay.toNat) :
    Orderly config block ((b.enqueue p.account p.set).store p c al) p.account := by
  have hqueued : ((b.enqueue p.account p.set).store p c al).queued p.account =
      b.queued p.account ++ [p.set] := by
    rw [queued_store, queued_enqueue b h.wellFormed, if_pos rfl]
  have hother : ∀ s ∈ b.queued p.account,
      ((b.enqueue p.account p.set).store p c al).allocation (p.account.position s) =
        b.allocation (p.account.position s) := by
    intro s hs
    rw [allocation_store, if_neg]
    · rfl
    · intro hp
      obtain ⟨-, rfl⟩ := position_eq_iff.1 hp.symm
      exact hnew hs
  have hself : ((b.enqueue p.account p.set).store p c al).allocation
      (p.account.position p.set) = al := by
    rw [allocation_store]
    exact if_pos rfl
  constructor
  · rw [(store_frame _ p c al).2.2.1, queue_enqueue, if_pos rfl]
    exact h.wellFormed.push _
  · rw [hqueued]
    exact List.nodup_append.2 ⟨h.nodup, List.nodup_singleton _, fun s hs t ht => by
      rw [List.mem_singleton.1 ht]
      intro ha
      subst ha
      exact hnew hs⟩
  · rw [hqueued, List.pairwise_append]
    refine ⟨h.sorted.imp_of_mem fun {s t} hs ht hle => ?_, List.pairwise_singleton _ _, ?_⟩
    · rw [hother s hs, hother t ht]
      exact hle
    · intro s hs t ht
      have hbounded := h.bounded s hs
      rw [List.mem_singleton.1 ht, hother s hs, hself, UInt32.le_iff_toNat_le]
      omega
  · intro s hs
    rw [hqueued, List.mem_append]
    by_cases hp : s = p.set
    · exact .inr (List.mem_singleton.2 hp)
    · rw [allocation_store, if_neg fun hps => hp (position_eq_iff.1 hps.symm).2] at hs
      exact .inl (h.waiting s hs)
  · intro s hs hup
    rw [hqueued] at hs
    rcases List.mem_append.1 hs with hs | hs
    · rw [hother s hs] at hup ⊢
      exact h.spent s hs hup
    · rw [List.mem_singleton.1 hs, hself] at hup
      omega
  · intro s hs
    rw [hqueued] at hs
    rcases List.mem_append.1 hs with hs | hs
    · rw [hother s hs]
      exact h.bounded s hs
    · rw [List.mem_singleton.1 hs, hself]
      omega

/-- To write down what is due moves no entry of the queue. -/
theorem store_settled (h : Orderly config block b a) {p : Position} {c : Capacity}
    {al : Allocation} (hsettled : b.settled p block = .ok (c, al)) (c' : Capacity) :
    Orderly config block (b.store p c' al) a := by
  obtain ⟨rfl, -⟩ := b.settled_eq_ok.1 hsettled
  by_cases hdue : (b.allocation p).isMatured block
  · have hasOf : (b.allocation p).asOf block =
        { b.allocation p with current := (b.allocation p).target, pending := 0 } := if_pos hdue
    have heffect : (b.allocation p).effectBlock ≤ block := by
      simp only [Allocation.isMatured, Bool.and_eq_true, decide_eq_true_eq] at hdue
      exact hdue.2
    rw [hasOf]
    apply h.store
    · intro _ hdown
      cases hdown
    · intro _ _
      exact ⟨rfl, fun _ => ⟨rfl, heffect⟩⟩
  · have hasOf : (b.allocation p).asOf block = b.allocation p := if_neg hdue
    rw [hasOf]
    apply h.store
    · intro ha hdown
      subst ha
      exact h.waiting p.set hdown
    · intro ha hs
      subst ha
      exact ⟨rfl, h.spent p.set hs⟩

/-- What is not in the queue can be written without regard to it, unless it is a deallocation. -/
theorem store_of_not_queued (h : Orderly config block b a) {p : Position} {c : Capacity}
    {al : Allocation} (hnew : p.account = a → p.set ∉ b.queued a) (hup : 0 ≤ al.pending) :
    Orderly config block (b.store p c al) a := by
  apply h.store
  · intro _ hdown
    exact absurd hdown (Int.not_lt.2 hup)
  · intro ha hs
    exact absurd hs (hnew ha)

end Orderly

namespace Orderly

variable {p : Position} {m : Magnitude} {c c' : Capacity} {al : Allocation}
variable {effectBlock : BlockNumber}

theorem store_allocation (h : Orderly config block b a) (hcleared : b.Cleared p.account block)
    (hsettled : b.settled p block = .ok (c, al)) (hidle : ¬al.isPending) (hup : al.current < m) :
    Orderly config block
      (b.store p c' { al with pending := Magnitude.changeTo al.current m, effectBlock }) a := by
  obtain ⟨rfl, -⟩ := b.settled_eq_ok.1 hsettled
  rw [UInt64.lt_iff_toNat_lt] at hup
  apply h.store_of_not_queued
  · intro ha
    subst ha
    exact h.not_queued hcleared (pending_eq_zero hidle)
  · simp only [Magnitude.changeTo]
    omega

theorem store_deallocation (h : Orderly config block b a) (hcleared : b.Cleared p.account block)
    (hsettled : b.settled p block = .ok (c, al)) (hidle : ¬al.isPending) (hdown : m < al.current)
    (heffect : BlockNumber.after? block config.deallocationDelay = some effectBlock) :
    Orderly config block ((b.enqueue p.account p.set).store p c'
      { al with pending := Magnitude.changeTo al.current m, effectBlock }) a := by
  obtain ⟨rfl, -⟩ := b.settled_eq_ok.1 hsettled
  rw [UInt64.lt_iff_toNat_lt] at hdown
  by_cases hp : p.account = a
  · subst a
    apply h.store_enqueue (h.not_queued hcleared (pending_eq_zero hidle))
    · simp only [Magnitude.changeTo]
      omega
    · exact BlockNumber.after?_eq_some_iff.1 heffect
  · refine h.of_reads (fun s => ?_) ?_
    · rw [allocation_store, if_neg fun hps => hp (position_eq_iff.1 hps.symm).1.symm]
      rfl
    · rw [(store_frame _ _ _ _).2.2.1, queue_enqueue, if_neg hp]

theorem store_release (h : Orderly config block b a) (hcleared : b.Cleared p.account block)
    (hsettled : b.settled p block = .ok (c, al)) (hidle : ¬al.isPending) :
    Orderly config block (b.store p c' { al with current := m, effectBlock }) a := by
  obtain ⟨rfl, -⟩ := b.settled_eq_ok.1 hsettled
  have hidle := pending_eq_zero hidle
  apply h.store_of_not_queued
  · intro ha
    subst ha
    exact h.not_queued hcleared hidle
  · exact Int.le_of_eq hidle.symm

end Orderly

/-- A cut leaves a deallocation one, and anything else what it was. -/
theorem cutPending_neg_iff {al : Allocation} {w : UInt64} {pending : Int} (hw : w < wad)
    (h : cutPending al w = .ok pending) :
    (pending < 0 ↔ al.pending < 0) ∧ (pending = 0 ↔ al.pending = 0) := by
  rcases cutPending_ok h with ⟨hup, rfl⟩ | ⟨hdown, q, hq, rfl⟩
  · exact ⟨Iff.rfl, Iff.rfl⟩
  · have hlt := Magnitude.scale_lt (m := q) hw (by omega)
    omega

theorem Orderly.cut (h : Orderly config block b a) {p : Position} {w : UInt64} {c c' : Capacity}
    {al : Allocation} {left lost : Magnitude} {pending : Int} (hw : w < wad)
    (hsettled : b.settled p block = .ok (c, al))
    (hpending : cutPending { al with current := left } w = .ok pending) :
    Orderly config block ((b.store p c' { al with current := left, pending }).reduceMax p.account
      lost block) a := by
  obtain ⟨hneg, hzero⟩ := cutPending_neg_iff hw hpending
  have hsettle := h.store_settled hsettled c'
  have hself : (b.store p c' al).allocation (p.account.position p.set) = al := by
    rw [allocation_store]
    exact if_pos rfl
  have hwrite : Orderly config block
      ((b.store p c' al).store p c' { al with current := left, pending }) a := by
    apply hsettle.store
    · intro ha hdown
      subst ha
      have hwait := hsettle.waiting p.set
      rw [hself] at hwait
      exact hwait (hneg.1 hdown)
    · intro ha hs
      subst ha
      have hspent := hsettle.spent p.set hs
      have heffect : ((b.store p c' al).allocation p).effectBlock = al.effectBlock :=
        congrArg Allocation.effectBlock hself
      rw [hself] at hspent
      refine ⟨heffect.symm, fun hup => ?_⟩
      have hup' : 0 ≤ al.pending := Int.not_lt.1 fun hdown => Int.not_lt.2 hup (hneg.2 hdown)
      exact ⟨hzero.2 (hspent hup').1, (hspent hup').2⟩
  refine hwrite.of_reads (fun s => ?_) ?_
  · rw [allocation_reduceMax, allocation_store, allocation_store, allocation_store]
    split <;> rfl
  · show (b.store p c' { al with current := left, pending }).queue a = _
    simp only [store_frame]

/-- Every posting keeps the order of every queue. -/
theorem Orderly.posts {e : Entry} (h : ∀ a, Orderly config block b a)
    (hpost : Posts config block e b b') (a : Account) : Orderly config block b' a := by
  have ha := h a
  cases hpost with
  | @clear b x s rest c al hfront hdue hsettled =>
    have hstore := ha.store_settled hsettled c
    by_cases hx : x = a
    · subst x
      obtain ⟨rfl, -⟩ := b.settled_eq_ok.1 hsettled
      apply hstore.dequeue ((b.queued_store _ _ _ a).trans hfront)
      rw [allocation_store, if_pos rfl, Allocation.pending_asOf hdue]
    · refine hstore.of_reads (fun _ => rfl) ?_
      rw [queue_dequeue, if_neg hx]
  | mature _ _ hsettled => exact ha.store_settled hsettled _
  | allocate hcleared hsettled hidle _ hup _ _ =>
    exact ha.store_allocation hcleared hsettled hidle hup
  | deallocate hcleared hsettled hidle hdown _ _ heffect =>
    exact ha.store_deallocation hcleared hsettled hidle hdown heffect
  | release hcleared hsettled hidle _ _ _ => exact ha.store_release hcleared hsettled hidle
  | cut hwad _ _ hsettled _ _ hpending => exact ha.cut hwad.2 hsettled hpending
  | _ => exact ha.of_reads (fun _ => rfl) rfl

/-- The accounts are in balance and the queues in order. -/
structure WellKept (config : Config) (block : BlockNumber) (b : Books) : Prop where
  balanced : b.Balanced
  orderly : ∀ a, Orderly config block b a

theorem wellKept_empty : WellKept config block {} := ⟨balanced_empty, fun _ => orderly_empty⟩

theorem WellKept.of_magnitudes (h : WellKept config block b) (hsame : SameMagnitudes b b') :
    WellKept config block b' where
  balanced := h.balanced.of_reads hsame.allocation hsame.encumberedMagnitude hsame.maxMagnitude
  orderly a := (h.orderly a).of_reads (fun _ => congrFun hsame.allocation _) (congrFun hsame.queue a)

theorem lasts_wellKept : Lasts (WellKept config) where
  reads hreads h := h.of_magnitudes hreads.toSameMagnitudes
  later hblock h := ⟨h.balanced, fun a => (h.orderly a).later hblock⟩

theorem WellKept.posts {e : Entry} (h : WellKept config block b)
    (hpost : Posts config block e b b') : WellKept config block b' :=
  ⟨h.balanced.posts hpost, Orderly.posts h.orderly hpost⟩

section Modification

variable {p : Position} {m encumbered : Magnitude} {c : Capacity} {al : Allocation}
variable {effectBlock : BlockNumber}

theorem WellKept.store_allocation (h : WellKept config block b)
    (hcleared : b.Cleared p.account block) (hsettled : b.settled p block = .ok (c, al))
    (hidle : ¬al.isPending) (hup : al.current < m) (hfree : m - al.current ≤ c.free) :
    WellKept config block (b.store p { c with encumbered := c.encumbered + (m - al.current) }
      { al with pending := Magnitude.changeTo al.current m, effectBlock }) where
  balanced := h.balanced.store_allocation hsettled (pending_eq_zero hidle) hup hfree
  orderly a := (h.orderly a).store_allocation hcleared hsettled hidle hup

theorem WellKept.store_deallocation (h : WellKept config block b)
    (hcleared : b.Cleared p.account block) (hsettled : b.settled p block = .ok (c, al))
    (hidle : ¬al.isPending) (hdown : m < al.current)
    (heffect : BlockNumber.after? block config.deallocationDelay = some effectBlock) :
    WellKept config block ((b.enqueue p.account p.set).store p c
      { al with pending := Magnitude.changeTo al.current m, effectBlock }) where
  balanced := by
    rw [← settled_enqueue b p.account p.set] at hsettled
    exact (h.balanced.enqueue p.account p.set).store_deallocation hsettled (pending_eq_zero hidle)
      hdown
  orderly a := (h.orderly a).store_deallocation hcleared hsettled hidle hdown heffect

theorem WellKept.store_release (h : WellKept config block b)
    (hcleared : b.Cleared p.account block) (hsettled : b.settled p block = .ok (c, al))
    (hidle : ¬al.isPending) (hdown : m < al.current)
    (hshift : Magnitude.shift? c.encumbered (Magnitude.changeTo al.current m) = some encumbered) :
    WellKept config block
      (b.store p { c with encumbered } { al with current := m, effectBlock := block }) where
  balanced := h.balanced.store_release hsettled (pending_eq_zero hidle) hdown hshift
  orderly a := (h.orderly a).store_release hcleared hsettled hidle

theorem WellKept.cut (h : WellKept config block b) {w : UInt64} {pending : Int} (hw : w < wad)
    (hsettled : b.settled p block = .ok (c, al))
    (hshift : Magnitude.shift? c.encumbered (-(Magnitude.scale al.current w).toNat) =
      some encumbered)
    (hpending : cutPending { al with current := al.current - Magnitude.scale al.current w } w =
      .ok pending) :
    WellKept config block ((b.store p { c with encumbered }
      { al with current := al.current - Magnitude.scale al.current w, pending }).reduceMax p.account
        (Magnitude.scale al.current w) block) where
  balanced := h.balanced.cut (UInt64.le_of_lt hw) hsettled hshift hpending
  orderly a := (h.orderly a).cut hw hsettled hpending

end Modification

end Books

theorem Manager.Reachable.wellKept {δ ρ π : Type} [DelegationLedger δ] [SetRegistrar ρ]
    [PermissionController π] {m : Manager δ ρ π} (h : m.Reachable) :
    Books.WellKept m.config m.block m.books :=
  h.keeps (fun _ _ => Books.wellKept_empty) (fun _ => Books.lasts_wellKept.persists)
    fun hpost hb => hb.posts hpost

/-- Where what satisfies `p` never stands behind what does not, it stands at the front. -/
theorem filter_isPrefix {α : Type} {p : α → Bool} {l : List α}
    (h : l.Pairwise fun a b => p b → p a) : l.filter p <+: l := by
  induction l with
  | nil => exact List.prefix_refl _
  | cons a l ih =>
    obtain ⟨hfront, hrest⟩ := List.pairwise_cons.1 h
    by_cases ha : p a
    · rw [List.filter_cons_of_pos ha, List.cons_prefix_cons]
      exact ⟨rfl, ih hrest⟩
    · have hnone : (a :: l).filter p = [] := by
        rw [List.filter_eq_nil_iff]
        intro b hb hpb
        rcases List.mem_cons.1 hb with rfl | hmem
        · exact ha hpb
        · exact ha (hfront b hmem hpb)
      rw [hnone]
      exact List.nil_prefix

namespace Manager

variable {δ ρ π : Type} [DelegationLedger δ] [SetRegistrar ρ] [PermissionController π]
variable {m : Manager δ ρ π}

/-- In every reachable state the entries of a queue are distinct and sorted by the blocks at which
they are due, so those that are due stand at the front. Every deallocation that waits is in the queue
once, and whatever else is in it is a deallocation that was due and is completed. -/
theorem Reachable.queue_ordered (h : m.Reachable) (a : Account) :
    (m.books.queued a).Nodup ∧
      ((m.books.queued a).Pairwise fun s t =>
        (m.books.allocation (a.position s)).effectBlock ≤
          (m.books.allocation (a.position t)).effectBlock) ∧
      ((m.books.queued a).filter fun s =>
        (m.books.allocation (a.position s)).effectBlock ≤ m.block) <+: m.books.queued a ∧
      (∀ s, (m.books.allocation (a.position s)).pending < 0 → (m.books.queued a).count s = 1) ∧
      ∀ s ∈ m.books.queued a, (m.books.allocation (a.position s)).pending < 0 ∨
        (m.books.allocation (a.position s)).pending = 0 ∧
          (m.books.allocation (a.position s)).effectBlock ≤ m.block := by
  have horderly := h.wellKept.orderly a
  refine ⟨horderly.nodup, horderly.sorted, ?_, ?_, ?_⟩
  · apply filter_isPrefix
    refine horderly.sorted.imp fun hle hdue => ?_
    rw [decide_eq_true_eq] at hdue ⊢
    exact UInt32.le_trans hle hdue
  · intro s hs
    exact List.count_eq_one_of_mem horderly.nodup (horderly.waiting s hs)
  · intro s hs
    by_cases hdown : (m.books.allocation (a.position s)).pending < 0
    · exact .inl hdown
    · exact .inr (horderly.spent s hs (Int.not_lt.1 hdown))

/-- The operator of the small run waits for the one deallocation that it asked for. -/
theorem queue_ordered_waiting :
    ((Sample.start.run Sample.moves).books.queued Sample.position.account).count
      Sample.position.set = 1 := by
  obtain ⟨-, -, -, hwaiting, -⟩ := Sample.reachable.queue_ordered Sample.position.account
  exact hwaiting Sample.position.set (by decide +kernel)

end Manager

end Restake
