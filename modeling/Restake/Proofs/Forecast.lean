import Restake.Proofs.Capacity
import Restake.Proofs.Clearance
import Restake.Proofs.Reasons
import Restake.Proofs.Tuples

/-!
What the views tell of a modification before it is made. The view of what is free looks along the
queue without writing; the call settles the account first, the queue and the increases that are due,
and reads what is free then. Both count what the positions hold as of the block, so the call goes
through where the views say that it may, and leaves what they say.
-/
namespace Restake

open Steps

theorem BlockNumber.after?_of_lt {block delay : BlockNumber}
    (h : block.toNat + delay.toNat < 2 ^ 32) : after? block delay = some (block + delay) := if_pos h

theorem BlockNumber.after?_of_not_lt {block delay : BlockNumber}
    (h : ¬block.toNat + delay.toNat < 2 ^ 32) : after? block delay = none := if_neg h

/-- Where what satisfies `p` never stands behind what does not, the rest is what does not. -/
theorem drop_takeWhile {α : Type} {p : α → Bool} {l : List α}
    (h : l.Pairwise fun a b => p b → p a) :
    l.drop (l.takeWhile p).length = l.filter fun a => !p a := by
  induction l with
  | nil => rfl
  | cons a l ih =>
    obtain ⟨hfront, hrest⟩ := List.pairwise_cons.1 h
    by_cases ha : p a
    · rw [List.takeWhile_cons_of_pos ha, List.length_cons, List.drop_succ_cons, ih hrest,
        List.filter_cons_of_neg (by simp [ha])]
    · rw [List.takeWhile_cons_of_neg ha, List.length_nil, List.drop_zero, List.filter_eq_self.2]
      intro b hb
      rcases List.mem_cons.1 hb with rfl | hmem
      · simp [ha]
      · simpa using fun hpb => ha (hfront b hmem hpb)

namespace Books

variable {b b₁ b' : Books} {config : Config} {block : BlockNumber} {a : Account} {p : Position}

/-- The entries of a queue that are not due. -/
def undue (b : Books) (a : Account) (block : BlockNumber) : List OperatorSet :=
  (b.queued a).filter fun s => block < (b.allocation (a.position s)).effectBlock

/-- Settling an account leaves the entries of its queue that are not due. -/
theorem WellKept.queued_settleAccount (h : WellKept config block b) {u : Unit}
    (hsettle : settleAccount a block b = .ok u b') : b'.queued a = b.undue a block := by
  rw [settleAccount, get_bind_apply] at hsettle
  obtain ⟨k, b₁, hfront, hsettle⟩ := bind_eq_ok.1 hsettle
  rw [get_bind_apply] at hsettle
  obtain ⟨hdistinct, hincreases⟩ := increases_due b₁ a block
  have hrest : Postings {} block (fun _ => True) b₁ b' ∧ SameTerms b₁ b' ∧ b'.queue = b₁.queue ∧
      ∀ q, (b'.allocation q).effectBlock = (b₁.allocation q).effectBlock :=
    forM_settle_ok (fun _ => trivial) hdistinct hincreases hsettle
  have hall : b.queued a = b.queued a ++ [] := (List.append_nil _).symm
  have hcount := (clearFront_flow (fun x => (h.orderly x).wellFormed) hall hfront).2
  have hreleased := Released.clearFront (fun x => (h.orderly x).nodup) hall hfront a
  have hqueued : b'.queued a = b₁.queued a := by rw [queued, queued, hrest.2.2.1]
  rw [if_pos rfl] at hreleased
  rw [hqueued, hreleased.queued, hcount, drop_takeWhile (h.due_first a), undue]
  apply List.filter_congr
  intro s _
  rw [← decide_not, decide_eq_decide, UInt32.not_le]

/-- `b₁` are the books `b` with the account of a position settled. -/
structure Ready (config : Config) (block : BlockNumber) (p : Position) (b b₁ : Books) : Prop where
  settle : settleAccount p.account block b = .ok () b₁
  wellKept : WellKept config block b₁
  terms : SameTerms b b₁
  read : b₁.settled p block = .ok (b₁.capacity p.account, (b.allocation p).asOf block)
  maxMagnitude : b₁.maxMagnitude p.account = b.maxMagnitude p.account
  encumbered : (b₁.encumberedMagnitude p.account).toNat = b.heldAsOf p.account block
  queued : b₁.queued p.account = b.undue p.account block

theorem WellKept.ready (h : WellKept config block b) (p : Position) :
    ∃ b₁, Ready config block p b b₁ := by
  obtain ⟨b₁, hsettle, hsettlement, hcleared⟩ := h.settleAccount_succeeds p.account
  refine ⟨b₁, hsettle, hsettlement.wellKept, hsettlement.alike.terms, ?_,
    congrFun hsettlement.alike.maxMagnitude _, ?_, h.queued_settleAccount hsettle⟩
  · rw [hsettlement.wellKept.settled_of_cleared hcleared, hsettlement.alike.allocation]
  · rw [hsettlement.wellKept.encumbered_of_cleared hcleared]
    exact Finset.sum_congr rfl fun s _ => by rw [hsettlement.alike.allocation]

theorem WellKept.heldAsOf_le (h : WellKept config block b) (p : Position) :
    b.heldAsOf p.account block ≤ (b.maxMagnitude p.account).toNat := by
  obtain ⟨b₁, hready⟩ := h.ready p
  have hfits := UInt64.le_iff_toNat_le.1 (hready.wellKept.balanced.fits p.account)
  rwa [hready.encumbered, hready.maxMagnitude] at hfits

end Books

namespace Manager

open Books

variable {δ ρ π : Type} {m : Manager δ ρ π} {p : Position} {n : Magnitude}

/-- Whether magnitude that is taken back from a position has to wait, as its set can slash it. -/
def holdsBack (m : Manager δ ρ π) (p : Position) : Bool :=
  m.isSlashable p.membership && (m.books.strategiesOf p.set).contains p.strategy

/-- A magnitude may be asked for at a position, by what the views tell. -/
structure Allows (m : Manager δ ρ π) (p : Position) (n : Magnitude) : Prop where
  idle : (m.allocation p).pending = 0
  change : n ≠ (m.allocation p).current
  more : (m.allocation p).current < n →
    n - (m.allocation p).current ≤ m.allocatableMagnitude p.account ∧
      m.block.toNat + (m.allocationDelay p.operator).2.toNat < 2 ^ 32
  less : n < (m.allocation p).current → m.holdsBack p →
    m.block.toNat + m.config.deallocationDelay.toNat < 2 ^ 32

/-- What the views of `m` tell of the books once a magnitude was asked for at a position. -/
structure Foretells (m : Manager δ ρ π) (p : Position) (n : Magnitude) (b : Books) : Prop where
  allocation : b.allocation p =
    if (m.allocation p).current < n then
      ⟨(m.allocation p).current, Magnitude.changeTo (m.allocation p).current n,
        m.block + (m.allocationDelay p.operator).2⟩
    else if m.holdsBack p then
      ⟨(m.allocation p).current, Magnitude.changeTo (m.allocation p).current n,
        m.block + m.config.deallocationDelay⟩
    else ⟨n, 0, m.block⟩
  encumbered : ((b.encumberedMagnitude p.account).toNat : Int) =
    (m.books.maxMagnitude p.account).toNat - (m.allocatableMagnitude p.account).toNat +
      if n < (m.allocation p).current ∧ m.holdsBack p then 0
      else Magnitude.changeTo (m.allocation p).current n
  queued : b.queued p.account = m.books.undue p.account m.block ++
    if n < (m.allocation p).current ∧ m.holdsBack p then [p.set] else []

/-- Once the account is settled, its free capacity is what the view says. -/
theorem free_of_ready (h : WellKept m.config m.block m.books) {b : Books}
    (hready : Ready m.config m.block p m.books b) :
    (b.capacity p.account).free = m.allocatableMagnitude p.account := by
  rw [← UInt64.toNat_inj, toNat_free, toNat_allocatableMagnitude h, capacity, hready.encumbered,
    hready.maxMagnitude]

/-- What is encumbered and what is free make the max. -/
theorem encumbered_of_ready (h : WellKept m.config m.block m.books) {b : Books}
    (hready : Ready m.config m.block p m.books b) :
    ((b.encumberedMagnitude p.account).toNat : Int) =
      (m.books.maxMagnitude p.account).toNat - (m.allocatableMagnitude p.account).toNat := by
  have hle := h.heldAsOf_le p
  rw [toNat_allocatableMagnitude h, hready.encumbered]
  omega

section Writes

variable {b : Books} (h : WellKept m.config m.block m.books) (hready : Ready m.config m.block p m.books b)
include h hready

/-- More magnitude is encumbered at once and waits in the allocation. -/
theorem foretells_more (hup : (m.allocation p).current < n)
    (hroom : n - (m.allocation p).current ≤ m.allocatableMagnitude p.account) :
    m.Foretells p n (b.store p
      { b.capacity p.account with
        encumbered := (b.capacity p.account).encumbered + (n - (m.allocation p).current) }
      { m.allocation p with
        pending := Magnitude.changeTo (m.allocation p).current n
        effectBlock := m.block + (m.allocationDelay p.operator).2 }) := by
  have hnot : ¬(n < (m.allocation p).current ∧ m.holdsBack p) :=
    fun hdown => absurd hdown.1 (UInt64.lt_asymm hup)
  refine ⟨?_, ?_, ?_⟩
  · rw [allocation_store, if_pos rfl, if_pos hup]
  · have hencumbered := encumbered_of_ready h hready
    have hchange := UInt64.toNat_sub_of_le n _ (UInt64.le_of_lt hup)
    have hmax := (m.books.maxMagnitude p.account).toNat_lt
    rw [UInt64.le_iff_toNat_le] at hroom
    rw [UInt64.lt_iff_toNat_lt] at hup
    rw [encumberedMagnitude_store, if_pos rfl, if_neg hnot, UInt64.toNat_add, hchange,
      Magnitude.changeTo]
    dsimp only [capacity]
    omega
  · rw [queued_store, hready.queued, if_neg hnot, List.append_nil]

/-- Less magnitude waits in the queue where the set could slash it. -/
theorem foretells_held_back (hdown : n < (m.allocation p).current) (hholds : m.holdsBack p) :
    m.Foretells p n ((b.enqueue p.account p.set).store p (b.capacity p.account)
      { m.allocation p with
        pending := Magnitude.changeTo (m.allocation p).current n
        effectBlock := m.block + m.config.deallocationDelay }) := by
  have hboth : n < (m.allocation p).current ∧ m.holdsBack p := ⟨hdown, hholds⟩
  refine ⟨?_, ?_, ?_⟩
  · rw [allocation_store, if_pos rfl, if_neg (UInt64.lt_asymm hdown), if_pos hholds]
  · rw [encumberedMagnitude_store, if_pos rfl, if_pos hboth, Int.add_zero]
    exact encumbered_of_ready h hready
  · rw [queued_store, queued_enqueue b (hready.wellKept.orderly p.account).wellFormed, if_pos rfl,
      hready.queued, if_pos hboth]

/-- Otherwise it is given up at once. -/
theorem foretells_released (hdown : n < (m.allocation p).current) (hholds : ¬m.holdsBack p)
    (hidle : (m.allocation p).pending = 0) {encumbered : Magnitude}
    (hshift : Magnitude.shift? (b.capacity p.account).encumbered
      (Magnitude.changeTo (m.allocation p).current n) = some encumbered) :
    m.Foretells p n (b.store p { b.capacity p.account with encumbered }
      { m.allocation p with current := n, effectBlock := m.block }) := by
  have hnot : ¬(n < (m.allocation p).current ∧ m.holdsBack p) := fun hboth => hholds hboth.2
  refine ⟨?_, ?_, ?_⟩
  · rw [allocation_store, if_pos rfl, if_neg (UInt64.lt_asymm hdown), if_neg hholds]
    dsimp only
    rw [hidle]
  · rw [encumberedMagnitude_store, if_pos rfl, if_neg hnot, ← encumbered_of_ready h hready]
    exact Magnitude.shift?_eq_some_iff.1 hshift
  · rw [queued_store, hready.queued, if_neg hnot, List.append_nil]

end Writes

/-- A modification goes through just where the views allow it, and leaves what they foretell. -/
theorem modifyAllocation_ends (h : WellKept m.config m.block m.books) (p : Position)
    (n : Magnitude) :
    Ends (modifyAllocation ⟨m.block, (m.allocationDelay p.operator).2, m.config.deallocationDelay⟩
        (m.isSlashable p.membership) p n m.books)
      (fun _ b => m.Allows p n ∧ m.Foretells p n b) fun _ => ¬m.Allows p n := by
  obtain ⟨b, hready⟩ := h.ready p
  have hfree := free_of_ready h hready
  have hholds : (m.isSlashable p.membership && (b.strategiesOf p.set).contains p.strategy) =
      m.holdsBack p := by rw [hready.terms.strategiesOf, holdsBack]
  have hread : b.settled p m.block = .ok (b.capacity p.account, m.allocation p) := hready.read
  rw [modifyAllocation_apply (t := ⟨m.block, _, _⟩) hready.settle hread, hfree, hholds]
  by_cases hpending : (m.allocation p).isPending
  · rw [if_pos hpending]
    exact fun hallows => absurd hallows.idle (by simpa [Allocation.isPending] using hpending)
  have hidle := pending_eq_zero hpending
  rw [if_neg hpending]
  by_cases hsame : n = (m.allocation p).current
  · rw [if_pos hsame]
    exact fun hallows => hallows.change hsame
  rw [if_neg hsame]
  by_cases hup : (m.allocation p).current < n
  · rw [if_pos hup]
    by_cases hshort : m.allocatableMagnitude p.account < n - (m.allocation p).current
    · rw [if_pos hshort]
      exact fun hallows => absurd (hallows.more hup).1 (UInt64.not_le.2 hshort)
    have hroom := UInt64.not_lt.1 hshort
    rw [if_neg hshort]
    by_cases hlater : m.block.toNat + (m.allocationDelay p.operator).2.toNat < 2 ^ 32
    · rw [BlockNumber.after?_of_lt hlater]
      exact ⟨⟨hidle, hsame, fun _ => ⟨hroom, hlater⟩, fun hdown => absurd hdown (UInt64.lt_asymm hup)⟩,
        foretells_more h hready hup hroom⟩
    · rw [BlockNumber.after?_of_not_lt hlater]
      exact fun hallows => hlater (hallows.more hup).2
  have hdown : n < (m.allocation p).current :=
    UInt64.lt_of_le_of_ne (UInt64.not_lt.1 hup) hsame
  rw [if_neg hup]
  by_cases hholdsBack : m.holdsBack p
  · rw [if_pos hholdsBack]
    by_cases hlater : m.block.toNat + m.config.deallocationDelay.toNat < 2 ^ 32
    · rw [BlockNumber.after?_of_lt hlater]
      exact ⟨⟨hidle, hsame, fun hlt => absurd hlt hup, fun _ _ => hlater⟩,
        foretells_held_back h hready hdown hholdsBack⟩
    · rw [BlockNumber.after?_of_not_lt hlater]
      exact fun hallows => hlater (hallows.less hdown hholdsBack)
  · obtain ⟨encumbered, hshift⟩ := hready.wellKept.balanced.shift_down hread hdown
    rw [if_neg hholdsBack, hshift]
    exact ⟨⟨hidle, hsame, fun hlt => absurd hlt hup, fun _ hheld => absurd hheld hholdsBack⟩,
      foretells_released h hready hdown hholdsBack hidle hshift⟩

/-- The conditions under which a magnitude may be asked for in a call, by what the views tell. -/
structure MayModify [PermissionController π] (m : Manager δ ρ π) (caller : Address) (p : Position)
    (n : Magnitude) : Prop extends m.Allows p n where
  caller : caller = p.operator ∨
    PermissionController.canCall m.permissions p.operator caller .modifyAllocations
  delaySet : (m.allocationDelay p.operator).1
  setExists : m.books.setExists p.set

theorem effectiveDelay_eq (m : Manager δ ρ π) (operator : Address) :
    m.books.effectiveDelay operator m.block = if (m.allocationDelay operator).1 then
      .ok (m.allocationDelay operator).2 else .error (.uninitializedAllocationDelay operator) := by
  rw [effectiveDelay, allocationDelay]
  rcases (m.books.delaySetting operator).resolve m.block with ⟨isSet, delay⟩
  cases isSet <;> rfl

variable [DelegationLedger δ] [SetRegistrar ρ] [PermissionController π]

/-- A call for one magnitude is answered just where it may be made, and then leaves books that the
views foretell. -/
theorem attempt_tuple_cases (hidle : m.books.Idle) (h : WellKept m.config m.block m.books)
    (caller : Address) (p : Position) (n : Magnitude) :
    let modify : Call := .modifyAllocations p.operator [⟨p.set, [p.strategy], [n]⟩]
    (m.MayModify caller p n ∧ ∃ b tally, m.Foretells p n b ∧
        m.attempt (perform caller modify) = (.ok .done, { m with books := b, tally })) ∨
      ¬m.MayModify caller p n ∧ ∃ e, m.attempt (perform caller modify) = (.error e, m) := by
  intro modify
  rw [attempt_modifyAllocations hidle, modifyAllocations_tuple, effectiveDelay_eq]
  by_cases hmay : m.mayCall p.operator caller .modifyAllocations
  case neg =>
    rw [if_neg hmay]
    exact .inr ⟨fun hallowed => hmay (mayCall_iff.2 hallowed.caller), _, rfl⟩
  by_cases hdelay : (m.allocationDelay p.operator).1
  case neg =>
    rw [if_pos hmay, if_neg hdelay]
    exact .inr ⟨fun hallowed => hdelay hallowed.delaySet, _, rfl⟩
  by_cases hset : m.books.setExists p.set
  case neg =>
    rw [if_pos hmay, if_pos hdelay]
    dsimp only
    rw [if_neg hset]
    exact .inr ⟨fun hallowed => hset hallowed.setExists, _, rfl⟩
  have hends := modifyAllocation_ends h p n
  rw [if_pos hmay, if_pos hdelay]
  dsimp only
  rw [if_pos hset, map_apply, ← isSlashable]
  revert hends
  cases modifyAllocation ⟨m.block, (m.allocationDelay p.operator).2, m.config.deallocationDelay⟩
      (m.isSlashable p.membership) p n m.books with
  | ok kind b =>
    rintro ⟨hallows, hforetells⟩
    exact .inl ⟨⟨hallows, mayCall_iff.1 hmay, hdelay, hset⟩, b, _, hforetells, rfl⟩
  | error e b =>
    exact fun hrefused => .inr ⟨fun hallowed => hrefused hallowed.toAllows, e, rfl⟩

/-- The views foretell a call for one magnitude. It goes through just where they allow it to this
caller, up to the last magnitude that is free and the last block that there is, and what it leaves is
what they say, whatever was due in the account and not yet written down. -/
theorem Reachable.modification_foretold (h : m.Reachable) (caller : Address) (p : Position)
    (n : Magnitude) :
    let modify : Call := .modifyAllocations p.operator [⟨p.set, [p.strategy], [n]⟩]
    ((∃ answer, (m.attempt (perform caller modify)).1 = .ok answer) ↔ m.MayModify caller p n) ∧
      (m.MayModify caller p n → m.Foretells p n (m.after (.call caller modify)).books) := by
  intro modify
  rcases attempt_tuple_cases h.idle h.wellKept caller p n with
    ⟨hmay, b, tally, hforetells, hattempt⟩ | ⟨hrefused, e, hattempt⟩
  · have hafter : (m.after (.call caller modify)).books = b :=
      congrArg (fun result => result.2.books) hattempt
    rw [hafter]
    exact ⟨⟨fun _ => hmay, fun _ => ⟨.done, congrArg Prod.fst hattempt⟩⟩, fun _ => hforetells⟩
  · refine ⟨⟨?_, fun hmay => absurd hmay hrefused⟩, fun hmay => absurd hmay hrefused⟩
    rintro ⟨answer, hanswer⟩
    have herror : (m.attempt (perform caller modify)).1 = .error e := congrArg Prod.fst hattempt
    rw [herror] at hanswer
    cases hanswer

/-- A deallocation is due and not yet written down. All that is free then may be asked for, and not
one more. -/
theorem modification_foretold_matured :
    let modify (n : Magnitude) : Call :=
      .modifyAllocations Sample.operator [⟨Sample.position.set, [Sample.position.strategy], [n]⟩]
    let m' := Sample.matured.after (.call Sample.operator (modify wad))
    m'.books.allocation Sample.position = ⟨400, (wad - 400).toNat, 19⟩ ∧
      m'.books.encumberedMagnitude Sample.position.account = wad ∧
      m'.books.queued Sample.position.account = [] ∧
      ¬∃ answer,
        (Sample.matured.attempt (perform Sample.operator (modify (wad + 1)))).1 = .ok answer := by
  intro modify m'
  have hreachable : Sample.matured.Reachable := Sample.reachable.run _
  obtain ⟨hallowed, hleaves⟩ :=
    hreachable.modification_foretold Sample.operator Sample.position wad
  have hanswer : (Sample.matured.attempt (perform Sample.operator (modify wad))).1 = .ok .done := by
    decide +kernel
  have hforetells := hleaves (hallowed.1 ⟨.done, hanswer⟩)
  refine ⟨hforetells.allocation.trans (by decide +kernel), ?_,
    hforetells.queued.trans (by decide +kernel), ?_⟩
  · rw [← UInt64.toNat_inj, ← Int.ofNat_inj]
    exact hforetells.encumbered.trans (by decide +kernel)
  · intro hanswered
    have hmay := (hreachable.modification_foretold Sample.operator Sample.position (wad + 1)).1.1
      hanswered
    exact absurd (hmay.more (by decide +kernel)).1 (by decide +kernel)

end Manager

end Restake
