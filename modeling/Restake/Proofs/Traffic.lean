import Restake.Proofs.Balance
import Restake.Proofs.Making

/-!
What comes into the queues and what leaves them. An entry is counted when a call that queued it has
gone through, and again when a call to clear has. The modifications settle an account before they
change it, and the entries that leave its queue there are not counted: the counts fall behind the
queues by just these.
-/
namespace Restake

theorem Account.toFin_injective : Function.Injective fun a : Account =>
    (a.operator.word.toFin, a.strategy.word.toFin) := by
  intro a a' h
  rcases a with ⟨⟨v⟩, ⟨w⟩⟩
  rcases a' with ⟨⟨v'⟩, ⟨w'⟩⟩
  obtain ⟨hv, hw⟩ := Prod.ext_iff.1 h
  obtain rfl : v = v' := BitVec.eq_of_toFin_eq hv
  obtain rfl : w = w' := BitVec.eq_of_toFin_eq hw
  rfl

noncomputable instance : Fintype Account := Fintype.ofInjective _ Account.toFin_injective

/-- How many queue entries a modification of the kind adds. -/
def ModificationKind.entries : ModificationKind → Nat
  | .queuedDeallocation => 1
  | .allocation => 0
  | .instantDeallocation => 0

theorem ModificationKind.entries_le_one (kind : ModificationKind) : kind.entries ≤ 1 := by
  cases kind <;> decide

theorem Tally.foldl_modified (kinds : List ModificationKind) (t : Tally) :
    (kinds.foldl modified t).queuedDeallocations =
        t.queuedDeallocations + .ofNat (kinds.map ModificationKind.entries).sum ∧
      (kinds.foldl modified t).cleared = t.cleared := by
  induction kinds generalizing t with
  | nil => exact ⟨(UInt64.add_zero _).symm, rfl⟩
  | cons kind kinds ih =>
    obtain ⟨hqueued, hcleared⟩ := ih (t.modified kind)
    have hone : (t.modified kind).queuedDeallocations =
        t.queuedDeallocations + .ofNat kind.entries := by
      cases kind with
      | queuedDeallocation => rfl
      | allocation => exact (UInt64.add_zero _).symm
      | instantDeallocation => exact (UInt64.add_zero _).symm
    refine ⟨?_, hcleared.trans (by cases kind <;> rfl)⟩
    rw [List.foldl_cons, hqueued, hone, List.map_cons, List.sum_cons, UInt64.ofNat_add,
      UInt64.add_assoc]

/-- What the rounds of a loop find, added up; each measures the state it starts from. -/
def Steps.measured {ε σ α β : Type} (measure : α → σ → Nat) (round : α → EStateM ε σ β) :
    List α → σ → Nat
  | [], _ => 0
  | a :: rest, s => measure a s + match round a s with
    | .ok _ s' => measured measure round rest s'
    | .error _ _ => 0

open Steps

namespace Books

variable {b b' b'' : Books} {block : BlockNumber} {a : Account}

/-- All entries in the queues. -/
noncomputable def waitingEntries (b : Books) : Nat := ∑ a : Account, (b.queued a).length

/-- How many entries at the front of a queue are due. -/
def dueEntries (b : Books) (a : Account) (block : BlockNumber) : Nat :=
  ((b.queued a).takeWhile fun s => (b.allocation (a.position s)).effectBlock ≤ block).length

theorem waitingEntries_of_queued (h : ∀ x, a ≠ x → b'.queued x = b.queued x) :
    b'.waitingEntries + (b.queued a).length = b.waitingEntries + (b'.queued a).length := by
  have hothers : ∑ x ∈ Finset.univ.erase a, (b'.queued x).length =
      ∑ x ∈ Finset.univ.erase a, (b.queued x).length :=
    Finset.sum_congr rfl fun x hx => by rw [h x (Finset.ne_of_mem_erase hx).symm]
  rw [waitingEntries, waitingEntries, ← Finset.add_sum_erase Finset.univ _ (Finset.mem_univ a),
    ← Finset.add_sum_erase Finset.univ _ (Finset.mem_univ a), hothers]
  omega

theorem waitingEntries_of_queue (h : b'.queue = b.queue) : b'.waitingEntries = b.waitingEntries := by
  unfold waitingEntries queued
  rw [h]

/-- From `b` to `b'` so many entries came into the queues, and so many left them. -/
structure Flow (entered left : Nat) (b b' : Books) : Prop where
  wellFormed : ∀ a, (b'.queue a).WellFormed
  balance : b'.waitingEntries + left = b.waitingEntries + entered

namespace Flow

variable {entered left entered' left' : Nat}

theorem trans (h : Flow entered left b b') (h' : Flow entered' left' b' b'') :
    Flow (entered + entered') (left + left') b b'' where
  wellFormed := h'.wellFormed
  balance := by
    have hbefore := h.balance
    have hafter := h'.balance
    omega

theorem of_queue (hwell : ∀ a, (b.queue a).WellFormed) (h : b'.queue = b.queue) : Flow 0 0 b b' where
  wellFormed := h ▸ hwell
  balance := by rw [waitingEntries_of_queue h]

theorem dequeue (hwell : ∀ a, (b.queue a).WellFormed) (hfront : b.queued a ≠ []) :
    Flow 0 1 b (b.dequeue a) where
  wellFormed x := by
    rw [queue_dequeue]
    split
    · exact (hwell a).pop
    · exact hwell x
  balance := by
    have hothers : ∀ x, a ≠ x → (b.dequeue a).queued x = b.queued x := fun x hx => by
      rw [queued_dequeue, if_neg hx]
    have hqueued : (b.dequeue a).queued a = (b.queued a).tail := by rw [queued_dequeue, if_pos rfl]
    have hsum := waitingEntries_of_queued hothers
    rw [hqueued, List.length_tail] at hsum
    have hlength := List.length_pos_iff.2 hfront
    omega

theorem enqueue (hwell : ∀ a, (b.queue a).WellFormed) (a : Account) (s : OperatorSet) :
    Flow 1 0 b (b.enqueue a s) where
  wellFormed x := by
    rw [queue_enqueue]
    split
    · exact (hwell a).push s
    · exact hwell x
  balance := by
    have hothers : ∀ x, a ≠ x → (b.enqueue a s).queued x = b.queued x := fun x hx => by
      rw [queued_enqueue _ (hwell a), if_neg hx]
    have hsum := waitingEntries_of_queued hothers
    rw [queued_enqueue _ (hwell a), if_pos rfl, List.length_append, List.length_singleton] at hsum
    omega

end Flow

/-- A loop moves what its rounds move, and what leaves is what they find. -/
theorem mapM_flow {α β : Type} {f : α → Bookkeeping β} (asked : α → Nat) (entered : β → Nat)
    (settled : α → Books → Nat) (hround : ∀ a b r b', (∀ x, (b.queue x).WellFormed) →
      f a b = .ok r b' → entered r ≤ asked a ∧ Flow (entered r) (settled a b) b b')
    {l : List α} {rs : List β} (hwell : ∀ x, (b.queue x).WellFormed) (h : l.mapM f b = .ok rs b') :
    (rs.map entered).sum ≤ (l.map asked).sum ∧
      Flow (rs.map entered).sum (measured settled f l b) b b' := by
  induction l generalizing b rs with
  | nil =>
    cases h
    exact ⟨Nat.le_refl _, .of_queue hwell rfl⟩
  | cons a l ih =>
    rw [List.mapM_cons] at h
    obtain ⟨r, b₁, hfirst, h⟩ := bind_eq_ok.1 h
    obtain ⟨rs', b₂, hrest, h⟩ := bind_eq_ok.1 h
    cases h
    obtain ⟨hle, hflow⟩ := hround a b r b₁ hwell hfirst
    obtain ⟨hles, hflows⟩ := ih hflow.wellFormed hrest
    rw [measured, hfirst, List.map_cons, List.sum_cons, List.map_cons, List.sum_cons]
    exact ⟨Nat.add_le_add hle hles, hflow.trans hflows⟩

/-- What is cleared from the front of a queue is what is due there. -/
theorem clearFront_flow {sets rest : List OperatorSet} {k : Nat}
    (hwell : ∀ x, (b.queue x).WellFormed) (hqueue : b.queued a = sets ++ rest)
    (h : clearFront a block sets b = .ok k b') :
    Flow 0 k b b' ∧
      k = (sets.takeWhile fun s => (b.allocation (a.position s)).effectBlock ≤ block).length := by
  induction sets generalizing b k with
  | nil =>
    cases h
    exact ⟨.of_queue hwell rfl, rfl⟩
  | cons s sets ih =>
    rw [clearFront, get_bind_apply, if_apply] at h
    split at h
    next hearly =>
      cases h
      refine ⟨.of_queue hwell rfl, ?_⟩
      rw [List.takeWhile_cons_of_neg (by simpa using hearly)]
      rfl
    next hearly =>
      have hdue : (b.allocation (a.position s)).effectBlock ≤ block := UInt32.not_lt.1 hearly
      obtain ⟨_, _, hsettle, h⟩ := bind_eq_ok.1 h
      obtain ⟨c, al, hsettled, rfl⟩ := settle_eq_ok.1 hsettle
      obtain ⟨_, _, hpop, h⟩ := bind_eq_ok.1 h
      cases hpop
      obtain ⟨k', _, hrest, hk⟩ := bind_eq_ok.1 h
      cases hk
      have hstore : (b.store (a.position s) c al).queued a = s :: sets ++ rest := by
        rw [queued_store, hqueue]
      have hflow : Flow 0 1 b ((b.store (a.position s) c al).dequeue a) :=
        (Flow.of_queue hwell (store_frame b _ c al).2.2.1).trans
          (Flow.dequeue ((store_frame b _ c al).2.2.1 ▸ hwell) (hstore ▸ List.cons_ne_nil _ _))
      have htail : ((b.store (a.position s) c al).dequeue a).queued a = sets ++ rest := by
        rw [queued_dequeue, if_pos rfl, hstore]
        rfl
      obtain ⟨hflows, hcount⟩ := ih hflow.wellFormed htail hrest
      refine ⟨Nat.add_comm 1 k' ▸ hflow.trans hflows, ?_⟩
      rw [List.takeWhile_cons_of_pos (by simpa using hdue), List.length_cons, hcount]
      simp only [allocation_dequeue, effectBlock_store_settled hsettled]

theorem clearMatured_flow {limit k : Nat} (hwell : ∀ x, (b.queue x).WellFormed)
    (h : clearMatured a limit block b = .ok k b') : Flow 0 k b b' :=
  (clearFront_flow hwell (List.take_append_drop limit _).symm h).1

theorem settleAccount_flow {u : Unit} (hwell : ∀ x, (b.queue x).WellFormed)
    (h : settleAccount a block b = .ok u b') : Flow 0 (b.dueEntries a block) b b' := by
  rw [settleAccount, get_bind_apply] at h
  obtain ⟨k, b₁, hfront, h⟩ := bind_eq_ok.1 h
  obtain ⟨hflow, hk⟩ := clearFront_flow hwell (List.append_nil _).symm hfront
  rw [get_bind_apply] at h
  obtain ⟨hdistinct, hincreases⟩ := increases_due b₁ a block
  have hsettled : Postings {} block (fun _ => True) b₁ b' ∧ SameTerms b₁ b' ∧
      b'.queue = b₁.queue ∧ ∀ q, (b'.allocation q).effectBlock = (b₁.allocation q).effectBlock :=
    forM_settle_ok (fun _ => trivial) hdistinct hincreases h
  rw [dueEntries, ← hk]
  exact hflow.trans (.of_queue hflow.wellFormed hsettled.2.2.1)

theorem modifyAllocation_flow {t : Terms} {slashable : Bool} {p : Position} {m : Magnitude}
    {kind : ModificationKind} (hwell : ∀ x, (b.queue x).WellFormed)
    (h : modifyAllocation t slashable p m b = .ok kind b') :
    Flow kind.entries (b.dueEntries p.account t.block) b b' := by
  obtain ⟨b₁, c, al, hsettle, -, -, hwrite⟩ := modifyAllocation_ok h
  have hflow := settleAccount_flow hwell hsettle
  have hstored : ∀ (b₂ : Books) (c : Capacity) (al : Allocation),
      (∀ x, (b₂.queue x).WellFormed) → Flow 0 0 b₂ (b₂.store p c al) :=
    fun b₂ c al hwell => .of_queue hwell (store_frame b₂ p c al).2.2.1
  rcases hwrite with ⟨rfl, -, -, effectBlock, -, rfl⟩ | ⟨rfl, -, -, -, effectBlock, -, rfl⟩ |
    ⟨rfl, -, -, encumbered, -, rfl⟩
  · exact hflow.trans (hstored _ _ _ hflow.wellFormed)
  · have hqueued := Flow.enqueue hflow.wellFormed p.account p.set
    exact (hflow.trans hqueued).trans (hstored _ _ _ hqueued.wellFormed)
  · exact hflow.trans (hstored _ _ _ hflow.wellFormed)

/-- How many entries leave the queues uncounted as one request is carried out. -/
def settledByRequest (t : Terms) (operator : Address) (r : AllocateRequest) (b : Books) : Nat :=
  measured (fun (x, _) b => b.dueEntries ⟨operator, x⟩ t.block)
    (fun (x, m) => modifyAllocation t (b.isSlashable ⟨operator, r.set⟩ t.block)
      ⟨⟨operator, r.set⟩, x⟩ m)
    (r.strategies.zip r.magnitudes) b

/-- How many entries leave the queues uncounted as an operator's requests are carried out. -/
def settledByRequests (config : Config) (block : BlockNumber) (operator : Address)
    (requests : List AllocateRequest) (b : Books) : Nat :=
  match b.effectiveDelay operator block with
  | .ok allocationDelay =>
    let t : Terms := { block, allocationDelay, deallocationDelay := config.deallocationDelay }
    measured (settledByRequest t operator) (applyRequest t operator) requests b
  | .error _ => 0

theorem applyRequest_flow {t : Terms} {operator : Address} {r : AllocateRequest}
    {kinds : List ModificationKind} (hwell : ∀ x, (b.queue x).WellFormed)
    (h : applyRequest t operator r b = .ok kinds b') :
    (kinds.map ModificationKind.entries).sum ≤ (r.strategies.zip r.magnitudes).length ∧
      Flow (kinds.map ModificationKind.entries).sum (settledByRequest t operator r b) b b' := by
  rw [applyRequest, if_apply] at h
  split at h
  · obtain ⟨_, b₁, hset, h⟩ := bind_eq_ok.1 h
    rw [requireSet_apply] at hset
    split at hset
    · cases hset
      obtain ⟨hle, hflow⟩ := mapM_flow (fun _ => 1) ModificationKind.entries
        (fun (x, _) b => b.dueEntries ⟨operator, x⟩ t.block) (fun leg b kind b' hwell hround =>
          ⟨kind.entries_le_one, modifyAllocation_flow hwell hround⟩) hwell h
      rw [List.map_const', List.sum_replicate, Nat.nsmul_eq_mul, Nat.mul_one] at hle
      exact ⟨hle, hflow⟩
    · cases hset
  · cases h

theorem modifyAllocations_flow {config : Config} {operator : Address}
    {requests : List AllocateRequest} {kinds : List ModificationKind}
    (hwell : ∀ x, (b.queue x).WellFormed)
    (h : modifyAllocations config block operator requests b = .ok kinds b') :
    (kinds.map ModificationKind.entries).sum ≤
        (requests.map fun r => (r.strategies.zip r.magnitudes).length).sum ∧
      Flow (kinds.map ModificationKind.entries).sum
        (b.settledByRequests config block operator requests) b b' := by
  rw [modifyAllocations, get_bind_apply] at h
  obtain ⟨delay, _, hread, h⟩ := bind_eq_ok.1 h
  obtain ⟨hdelay, rfl⟩ := ofExcept_eq_ok.1 hread
  obtain ⟨kinds', _, hrun, h⟩ := bind_eq_ok.1 h
  cases h
  rw [List.map_flatten, List.sum_flatten, List.map_map, settledByRequests, hdelay]
  exact mapM_flow _ _ _ (fun r b kinds b' hwell hround => applyRequest_flow hwell hround) hwell hrun

theorem clearings_flow {operator : Address} {legs : List (Address × UInt64)} {counts : List Nat}
    (hwell : ∀ x, (b.queue x).WellFormed)
    (h : (legs.mapM fun leg => clearMatured ⟨operator, leg.1⟩ leg.2.toNat block) b =
      .ok counts b') : Flow 0 counts.sum b b' := by
  induction legs generalizing b counts with
  | nil =>
    cases h
    exact .of_queue hwell rfl
  | cons leg legs ih =>
    rw [List.mapM_cons] at h
    obtain ⟨k, b₁, hfirst, h⟩ := bind_eq_ok.1 h
    obtain ⟨counts', b₂, hrest, h⟩ := bind_eq_ok.1 h
    cases h
    have hflow := clearMatured_flow hwell hfirst
    rw [List.sum_cons]
    exact hflow.trans (ih hflow.wellFormed hrest)

/-- Nothing but a deallocation that is asked for or cleared moves a queue. -/
theorem Posts.queue_eq {config : Config} {e : Entry} (h : Posts config block e b b')
    (hclear : ∀ a s, e ≠ .clear a s) (hdeallocate : ∀ p m, e ≠ .deallocate p m) :
    b'.queue = b.queue := by
  cases h with
  | clear => exact absurd rfl (hclear _ _)
  | deallocate => exact absurd rfl (hdeallocate _ _)
  | mature => exact (store_frame b _ _ _).2.2.1
  | allocate => exact (store_frame b _ _ _).2.2.1
  | release => exact (store_frame b _ _ _).2.2.1
  | cut => exact (store_frame b _ _ _).2.2.1
  | _ => rfl

end Books

/-- How many changes of a position a move asks for. -/
def Move.asked {δ ρ π : Type} : Move δ ρ π → Nat
  | .call _ (.modifyAllocations _ requests) =>
    (requests.map fun r => (r.strategies.zip r.magnitudes).length).sum
  | _ => 0

/-- Whether a call is of a kind that queues entries or takes them out. -/
def Call.MovesEntries : Call → Prop
  | .modifyAllocations _ _ => True
  | .clearDeallocationQueue _ _ _ => True
  | _ => False

namespace Manager

open Books

variable {δ ρ π : Type} {m m' : Manager δ ρ π}

/-- What neither modifies nor clears counts no entries. -/
theorem Made.counts_no_entries {α : Type} {counts : (Tally → Tally) → Prop} {x : Managing δ ρ π α}
    (hx : Made counts x) (hcounts : ∀ f, counts f → ∀ t : Tally,
      (f t).queuedDeallocations = t.queuedDeallocations ∧ (f t).cleared = t.cleared) {a : α}
    (h : x m = .ok a m') : m'.tally.queuedDeallocations = m.tally.queuedDeallocations ∧
      m'.tally.cleared = m.tally.cleared := by
  induction hx generalizing m m' with
  | pure =>
    cases h
    exact ⟨rfl, rfl⟩
  | throw => cases h
  | bind _ _ ihx ihf =>
    obtain ⟨a, m₁, hfirst, hrest⟩ := bind_eq_ok.1 h
    obtain ⟨hqueued, hcleared⟩ := ihx hfirst
    obtain ⟨hqueued', hcleared'⟩ := ihf a hrest
    exact ⟨hqueued'.trans hqueued, hcleared'.trans hcleared⟩
  | read _ _ ih => exact ih m h
  | onBooks step =>
    obtain ⟨b, -, rfl⟩ := onBooks_eq_ok h
    exact ⟨rfl, rfl⟩
  | onDelegation step =>
    unfold Manager.onDelegation at h
    split at h
    · cases h
      exact ⟨rfl, rfl⟩
    · cases h
  | onRegistrar step =>
    unfold Manager.onRegistrar at h
    split at h
    · cases h
      exact ⟨rfl, rfl⟩
    · cases h
  | tolerating hook =>
    unfold Manager.tolerating at h
    split at h <;>
    · cases h
      exact ⟨rfl, rfl⟩
  | atomically _ ih =>
    obtain ⟨m₁, hbody, rfl⟩ := atomically_eq_ok h
    have hspares := ih hbody
    exact hspares
  | count hf =>
    cases h
    exact hcounts _ hf m.tally

theorem modifyAllocations_ok [PermissionController π] {caller operator : Address}
    {requests : List AllocateRequest} {u : Unit}
    (h : modifyAllocations caller operator requests m = .ok u m') : ∃ kinds b,
      Books.modifyAllocations m.config m.block operator requests m.books.checkpoint = .ok kinds b ∧
        m' = { m with books := b.commit, tally := kinds.foldl Tally.modified m.tally } := by
  obtain ⟨_, m₁, hcaller, h⟩ := bind_eq_ok.1 h
  obtain rfl : m = m₁ := (leads_requireCaller operator caller _).of_ok rfl hcaller
  rw [get_bind_apply] at h
  obtain ⟨kinds, m₁, hwork, hcount⟩ := bind_eq_ok.1 h
  obtain ⟨m₂, hbody, rfl⟩ := atomically_eq_ok hwork
  obtain ⟨b, hrun, rfl⟩ := onBooks_eq_ok hbody
  cases hcount
  exact ⟨kinds, b, hrun, rfl⟩

theorem clearDeallocationQueue_ok {operator : Address} {strategies : List Address}
    {limits : List UInt64} {counts : List Nat}
    (h : clearDeallocationQueue operator strategies limits m = .ok counts m') : ∃ b,
      ((strategies.zip limits).mapM fun leg => clearMatured ⟨operator, leg.1⟩ leg.2.toNat m.block)
          m.books.checkpoint = .ok counts b ∧
        m' = { m with books := b.commit, tally := m.tally.clearedEntries counts.sum } := by
  rw [clearDeallocationQueue, if_apply] at h
  split at h
  · dsimp only at h
    rw [get_bind_apply] at h
    obtain ⟨counts', m₁, hwork, h⟩ := bind_eq_ok.1 h
    obtain ⟨m₂, hbody, rfl⟩ := atomically_eq_ok hwork
    obtain ⟨b, hrun, rfl⟩ := onBooks_eq_ok hbody
    cases h
    exact ⟨b, hrun, by rw [List.sum_eq_foldl]⟩
  · cases h

/-- From `m` to `m'` no more entries came into the queues than were asked for, and each was counted;
so were those that left, but for so many. -/
def Traffic (asked uncounted : Nat) (m m' : Manager δ ρ π) : Prop :=
  ∃ entered cleared, entered ≤ asked ∧
    m'.tally.queuedDeallocations = m.tally.queuedDeallocations + .ofNat entered ∧
    m'.tally.cleared.getD 0 = m.tally.cleared.getD 0 + .ofNat cleared ∧
    Flow entered (cleared + uncounted) m.books m'.books

theorem Traffic.trans {asked asked' uncounted uncounted' : Nat} {m'' : Manager δ ρ π}
    (h : Traffic asked uncounted m m') (h' : Traffic asked' uncounted' m' m'') :
    Traffic (asked + asked') (uncounted + uncounted') m m'' := by
  obtain ⟨entered, cleared, hle, hqueued, hcleared, hflow⟩ := h
  obtain ⟨entered', cleared', hle', hqueued', hcleared', hflow'⟩ := h'
  refine ⟨entered + entered', cleared + cleared', Nat.add_le_add hle hle', ?_, ?_, ?_⟩
  · rw [hqueued', hqueued, UInt64.ofNat_add, UInt64.add_assoc]
  · rw [hcleared', hcleared, UInt64.ofNat_add, UInt64.add_assoc]
  · rw [Nat.add_add_add_comm]
    exact hflow.trans hflow'

theorem Traffic.still (hwell : ∀ x, (m.books.queue x).WellFormed)
    (hqueued : m'.tally.queuedDeallocations = m.tally.queuedDeallocations)
    (hcleared : m'.tally.cleared = m.tally.cleared) (hqueue : m'.books.queue = m.books.queue)
    (asked : Nat) : Traffic asked 0 m m' := by
  refine ⟨0, 0, Nat.zero_le _, ?_, ?_, .of_queue hwell hqueue⟩
  · rw [hqueued]
    exact (UInt64.add_zero _).symm
  · rw [hcleared]
    exact (UInt64.add_zero _).symm

variable [DelegationLedger δ] [SetRegistrar ρ] [PermissionController π]

/-- How many entries leave the queues uncounted in a move. -/
def settledBy (m : Manager δ ρ π) : Move δ ρ π → Nat
  | .call caller (.modifyAllocations operator requests) =>
    if (m.attempt (perform caller (.modifyAllocations operator requests))).1.isOk then
      m.books.checkpoint.settledByRequests m.config m.block operator requests
    else 0
  | _ => 0

def settledOver (m : Manager δ ρ π) : List (Move δ ρ π) → Nat
  | [] => 0
  | move :: rest => m.settledBy move + (m.after move).settledOver rest

/-- A call that neither modifies nor clears moves no queue and counts no entries. -/
theorem traffic_of_spared (hidle : m.books.Idle) (hwell : ∀ x, (m.books.queue x).WellFormed)
    {caller : Address} {c : Call} {r : Reply} (h : perform caller c m = .ok r m')
    (hc : ¬c.MovesEntries) : Traffic 0 0 m m' := by
  obtain ⟨hqueued, hcleared⟩ := (made_perform caller c).counts_no_entries (by
    intro f hf t
    cases c with
    | modifyAllocations operator requests => exact absurd trivial hc
    | clearDeallocationQueue operator strategies limits => exact absurd trivial hc
    | registerForOperatorSets operator r => exact hf ▸ ⟨rfl, rfl⟩
    | deregisterFromOperatorSets r => exact hf ▸ ⟨rfl, rfl⟩
    | slashOperator avs r =>
      obtain ⟨total, rfl⟩ := hf
      exact ⟨rfl, rfl⟩
    | _ => exact hf.elim) h
  obtain ⟨b, delegation, registrar, tally, rfl, hpost⟩ := (leads_perform hidle caller c).of_ok rfl h
  refine .still hwell hqueued hcleared ?_ 0
  refine hpost.keeps (P := fun b => b.queue = m.books.queue) ?_ rfl
  intro e b b' hmay hposts hb
  refine (hposts.queue_eq ?_ ?_).trans hb
  · rintro a s rfl
    cases c with
    | modifyAllocations operator requests => exact hc trivial
    | clearDeallocationQueue operator strategies limits => exact hc trivial
    | _ => exact hmay
  · rintro p magnitude rfl
    cases c with
    | modifyAllocations operator requests => exact hc trivial
    | _ => exact hmay

theorem traffic_after_call (hidle : m.books.Idle) (hwell : ∀ x, (m.books.queue x).WellFormed)
    (caller : Address) (c : Call) :
    Traffic (Move.asked (.call caller c : Move δ ρ π)) (m.settledBy (.call caller c)) m
      (m.after (.call caller c)) := by
  cases h : perform caller c m with
  | error e m' =>
    have hattempt : m.attempt (perform caller c) = (.error e, m') := attempt_of_error h
    have hafter : m.after (.call caller c) = m' := congrArg Prod.snd hattempt
    have hsettled : m.settledBy (.call caller c) = 0 := by
      cases c with
      | modifyAllocations operator requests =>
        rw [settledBy, hattempt]
        exact if_neg Bool.false_ne_true
      | _ => rfl
    obtain ⟨delegation, registrar, rfl⟩ := (leads_perform hidle caller c).of_error rfl h
    rw [hafter, hsettled]
    exact .still hwell rfl rfl rfl _
  | ok r m' =>
    have hattempt : m.attempt (perform caller c) = (.ok r, m') := attempt_of_ok h
    have hafter : m.after (.call caller c) = m' := congrArg Prod.snd hattempt
    rw [hafter]
    cases c with
    | modifyAllocations operator requests =>
      have hok : (m.attempt (perform caller (.modifyAllocations operator requests))).1.isOk := by
        rw [hattempt]
        rfl
      obtain ⟨_, m₁, hmodify, hdone⟩ := bind_eq_ok.1 h
      cases hdone
      obtain ⟨kinds, b, hrun, rfl⟩ := modifyAllocations_ok hmodify
      obtain ⟨hle, hflow⟩ := modifyAllocations_flow (b := m.books.checkpoint) hwell hrun
      obtain ⟨hqueued, hcleared⟩ := Tally.foldl_modified kinds m.tally
      refine ⟨_, 0, hle, hqueued, ?_, hflow.wellFormed, ?_⟩
      · rw [hcleared]
        exact (UInt64.add_zero _).symm
      · rw [settledBy, if_pos hok, Nat.zero_add]
        exact hflow.balance
    | clearDeallocationQueue operator strategies limits =>
      obtain ⟨counts, hclear, -⟩ := map_eq_ok.1 h
      obtain ⟨b, hrun, rfl⟩ := clearDeallocationQueue_ok hclear
      have hflow := clearings_flow (b := m.books.checkpoint) hwell hrun
      exact ⟨0, counts.sum, Nat.le_refl 0, (UInt64.add_zero _).symm, rfl, hflow.wellFormed,
        hflow.balance⟩
    | _ => exact traffic_of_spared hidle hwell h id

theorem traffic_after (hidle : m.books.Idle) (hwell : ∀ x, (m.books.queue x).WellFormed)
    (move : Move δ ρ π) : Traffic move.asked (m.settledBy move) m (m.after move) := by
  cases move with
  | call caller c => exact traffic_after_call hidle hwell caller c
  | setBlock block =>
    rw [after_setBlock]
    exact .still hwell rfl rfl rfl 0
  | takeEvents =>
    show Traffic 0 0 m { m with books := m.books.drained }
    refine .still hwell ?_ ?_ ?_ 0 <;> rfl
  | meanwhile delegation registrar permissions => exact .still hwell rfl rfl rfl 0

/-- The traffic of a run is that of its moves. -/
theorem traffic_run (hidle : m.books.Idle) (hwell : ∀ x, (m.books.queue x).WellFormed)
    (moves : List (Move δ ρ π)) :
    Traffic (moves.map Move.asked).sum (m.settledOver moves) m (m.run moves) := by
  induction moves generalizing m with
  | nil => exact .still hwell rfl rfl rfl 0
  | cons move rest ih =>
    have hmove := traffic_after hidle hwell move
    have hwell' : ∀ x, ((m.after move).books.queue x).WellFormed := by
      obtain ⟨_, _, -, -, -, hflow⟩ := hmove
      exact hflow.wellFormed
    exact hmove.trans (ih (idle_after hidle move) hwell')

/-- The traffic of a run from the start, in numbers that do not go round. -/
theorem traffic_of_fresh (config : Config) (delegation : δ) (registrar : ρ) (permissions : π)
    (moves : List (Move δ ρ π)) :
    let start := fresh config delegation registrar permissions
    let m := start.run moves
    ∃ entered cleared, entered ≤ (moves.map Move.asked).sum ∧
      m.tally.queuedDeallocations = .ofNat entered ∧ m.tally.cleared.getD 0 = .ofNat cleared ∧
      entered = cleared + start.settledOver moves + m.books.waitingEntries := by
  intro start m
  have hempty : ∀ a, start.books.queue a = {} := fun a => by
    rw [queue, show start.books = {} from rfl, UndoMap.find?_empty]
    rfl
  have hnone : start.books.waitingEntries = 0 := Finset.sum_eq_zero fun a _ => by
    rw [queued, hempty]
    rfl
  obtain ⟨entered, cleared, hle, hqueued, hcleared, hflow⟩ := traffic_run (m := start) idle_empty
    (fun a => hempty a ▸ Fifo.wellFormed_empty) moves
  have hbalance := hflow.balance
  rw [hnone] at hbalance
  refine ⟨entered, cleared, hle, hqueued.trans (UInt64.zero_add _),
    hcleared.trans (UInt64.zero_add _), ?_⟩
  show entered = cleared + start.settledOver moves + (start.run moves).books.waitingEntries
  omega

/-- What was queued has been cleared, or has been settled by a modification, or still waits. The
counts go round at their size, which a run that asks for fewer changes does not reach. -/
theorem queue_entries_reconcile (config : Config) (delegation : δ) (registrar : ρ)
    (permissions : π) (moves : List (Move δ ρ π)) :
    let start := fresh config delegation registrar permissions
    let m := start.run moves
    m.tally.queuedDeallocations = m.tally.cleared.getD 0 +
        .ofNat (start.settledOver moves + m.books.waitingEntries) ∧
      ((moves.map Move.asked).sum < 2 ^ 64 → m.tally.queuedDeallocations.toNat =
        (m.tally.cleared.getD 0).toNat + start.settledOver moves + m.books.waitingEntries) := by
  intro start m
  obtain ⟨entered, cleared, hle, hqueued, hcleared, hbalance⟩ :=
    traffic_of_fresh config delegation registrar permissions moves
  rw [hqueued, hcleared, ← UInt64.ofNat_add, ← Nat.add_assoc, ← hbalance]
  refine ⟨rfl, fun hshort => ?_⟩
  rw [UInt64.toNat_ofNat', UInt64.toNat_ofNat', Nat.mod_eq_of_lt (by omega),
    Nat.mod_eq_of_lt (by omega)]
  exact hbalance

end Manager

namespace Sample

/-- Once its deallocation is due, the operator gives up some more, and no call to clear is made. -/
def settling : List (Move LocalDelegation LocalRegistrar LocalPermissions) :=
  moves ++ [.setBlock 17,
    .call operator (.modifyAllocations operator [⟨position.set, [position.strategy], [500]⟩])]

end Sample

namespace Manager

/-- The modification settles the entry that the one before it queued. -/
theorem queue_entries_reconcile_settling :
    let m := Sample.start.run Sample.settling
    m.tally.queuedDeallocations.toNat = 1 ∧ (m.tally.cleared.getD 0).toNat = 0 ∧
      Sample.start.settledOver Sample.settling = 1 ∧ m.books.waitingEntries = 0 := by
  dsimp only
  have hreconcile := (queue_entries_reconcile Sample.config Sample.start.delegation
    Sample.start.registrar Sample.start.permissions Sample.settling).2 (by decide)
  have hstart : fresh Sample.config Sample.start.delegation Sample.start.registrar
    Sample.start.permissions = Sample.start := rfl
  rw [hstart] at hreconcile
  have hqueued : (Sample.start.run Sample.settling).tally.queuedDeallocations.toNat = 1 := by
    decide +kernel
  have hcleared : ((Sample.start.run Sample.settling).tally.cleared.getD 0).toNat = 0 := by
    decide +kernel
  have hsettled : Sample.start.settledOver Sample.settling = 1 := by decide +kernel
  exact ⟨hqueued, hcleared, hsettled, by omega⟩

/-- By the counts an entry still waits, but none does. -/
theorem settled_entry_uncounted :
    let m := Sample.start.run Sample.settling
    (Sample.settling.map Move.asked).sum < 2 ^ 64 ∧
      m.tally.queuedDeallocations.toNat - (m.tally.cleared.getD 0).toNat ≠
        m.books.waitingEntries := by
  dsimp only
  obtain ⟨entered, cleared, hle, hentered, -, hbalance⟩ := traffic_of_fresh Sample.config
    Sample.start.delegation Sample.start.registrar Sample.start.permissions Sample.settling
  have hstart : fresh Sample.config Sample.start.delegation Sample.start.registrar
    Sample.start.permissions = Sample.start := rfl
  rw [hstart] at hentered hbalance
  have hasked : (Sample.settling.map Move.asked).sum = 3 := by decide
  have hqueued : (Sample.start.run Sample.settling).tally.queuedDeallocations.toNat = 1 := by
    decide +kernel
  have hcleared : ((Sample.start.run Sample.settling).tally.cleared.getD 0).toNat = 0 := by
    decide +kernel
  have hsettled : Sample.start.settledOver Sample.settling = 1 := by decide +kernel
  have hone : entered % 2 ^ 64 = 1 := by
    rw [← UInt64.toNat_ofNat', ← hentered]
    exact hqueued
  rw [hasked] at hle ⊢
  rw [hqueued, hcleared]
  exact ⟨by decide, by omega⟩

end Manager

end Restake
