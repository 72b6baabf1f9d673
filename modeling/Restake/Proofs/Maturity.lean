import Restake.Proofs.Delays
import Restake.Proofs.Snapshots

/-!
A change comes into force once, at its effect block. Whether the queue writes it down, a settlement
that another set has called for, or nothing at all, a position reads at every block as the change
would have it, until it is slashed or modified again. As long as the change waits the position
cannot be modified.
-/
namespace Restake

open Steps

/-- Whether the posting changes a position as its operator has asked. -/
def Entry.Modifies (p : Position) : Entry → Prop
  | .allocate q _ => q = p
  | .deallocate q _ => q = p
  | .release q _ => q = p
  | _ => False

/-- Only a call that asks for a magnitude at a position modifies it. -/
theorem Entry.Modifies.of_mayPost {p : Position} {e : Entry} (h : e.Modifies p) {c : Call}
    (hmay : c.mayPost e) : ∃ requests magnitude, c = .modifyAllocations p.operator requests ∧
      AllocateRequest.Asked requests p magnitude := by
  have hasked : ∀ {operator requests q magnitude}, q = p →
      q.operator = operator ∧ AllocateRequest.Asked requests q magnitude →
        ∃ requests' magnitude', Call.modifyAllocations operator requests =
          .modifyAllocations p.operator requests' ∧
            AllocateRequest.Asked requests' p magnitude' := by
    rintro _ requests q magnitude rfl ⟨rfl, hasked⟩
    exact ⟨requests, magnitude, rfl, hasked⟩
  cases e with
  | allocate q magnitude =>
    cases c with
    | modifyAllocations operator requests => exact hasked h hmay
    | _ => exact hmay.elim
  | deallocate q magnitude =>
    cases c with
    | modifyAllocations operator requests => exact hasked h hmay
    | _ => exact hmay.elim
  | release q magnitude =>
    cases c with
    | modifyAllocations operator requests => exact hasked h hmay
    | _ => exact hmay.elim
  | _ => exact h.elim

/-- Only a slash in the set of a position cuts it. -/
theorem Call.slash_of_mayPost {p : Position} {w : UInt64} {c : Call} (hmay : c.mayPost (.cut p w)) :
    ∃ avs r, c = .slashOperator avs r ∧ ⟨r.operator, ⟨avs, r.setId⟩⟩ = p.membership := by
  cases c with
  | slashOperator avs r => exact ⟨avs, r, rfl, hmay.1.symm⟩
  | _ => exact hmay.elim

namespace Books

variable {b b' : Books} {config : Config} {block : BlockNumber} {p : Position}

/-- To write down what is due changes nothing that is read as of the block. -/
theorem asOf_store_settled {q : Position} {c c' : Capacity} {al : Allocation}
    (hsettled : b.settled q block = .ok (c, al)) (p : Position) :
    ((b.store q c' al).allocation p).asOf block = (b.allocation p).asOf block := by
  obtain ⟨rfl, -⟩ := b.settled_eq_ok.1 hsettled
  exact (Alike.settledAt b q c').allocation p

/-- Only a modification and a cut change what a position reads as of the block. -/
theorem Posts.asOf_eq {e : Entry} (hpost : Posts config block e b b') (hmodify : ¬e.Modifies p)
    (hcut : ∀ w, e ≠ .cut p w) : (b'.allocation p).asOf block = (b.allocation p).asOf block := by
  have hother : ∀ {b : Books} {q c al}, q ≠ p →
      ((b.store q c al).allocation p).asOf block = (b.allocation p).asOf block := by
    intro b q c al hq
    rw [allocation_store, if_neg hq]
  cases hpost with
  | clear _ _ hsettled =>
    rw [allocation_dequeue]
    exact asOf_store_settled hsettled p
  | mature _ _ hsettled => exact asOf_store_settled hsettled p
  | allocate => exact hother hmodify
  | deallocate => rw [hother hmodify, allocation_enqueue]
  | release => exact hother hmodify
  | cut =>
    rw [allocation_reduceMax]
    exact hother fun hp => hcut _ (congrArg (Entry.cut · _) hp)
  | _ => rfl

/-- A modification finds nothing that waits. -/
theorem Posts.pending_asOf_eq_zero {e : Entry} (hpost : Posts config block e b b')
    (hmodify : e.Modifies p) : ((b.allocation p).asOf block).pending = 0 := by
  have hidle : ∀ {c al}, b.settled p block = .ok (c, al) → ¬al.isPending →
      ((b.allocation p).asOf block).pending = 0 := by
    intro c al hsettled hidle
    obtain ⟨rfl, -⟩ := b.settled_eq_ok.1 hsettled
    exact pending_eq_zero hidle
  cases hpost with
  | allocate _ hsettled hnone => exact hidle (hmodify ▸ hsettled) hnone
  | deallocate _ hsettled hnone => exact hidle (hmodify ▸ hsettled) hnone
  | release _ hsettled hnone => exact hidle (hmodify ▸ hsettled) hnone
  | _ => exact hmodify.elim

/-- What a position reads as of the block follows from the allocation `a` before postings and after
them, if they do not cut it, and do not modify it once the change of `a` is due. -/
theorem Postings.asOf_eq {may : Entry → Prop} {a : Allocation}
    (hpost : Postings config block may b b') (hpending : a.pending ≠ 0)
    (hmodify : a.effectBlock ≤ block → ∀ e, may e → ¬e.Modifies p) (hcut : ∀ w, ¬may (.cut p w))
    (hread : (b.allocation p).asOf block = a.asOf block) :
    (b'.allocation p).asOf block = a.asOf block := by
  refine hpost.keeps (P := fun b => (b.allocation p).asOf block = a.asOf block) ?_ hread
  intro e b₁ b₂ hmay hpost hb₁
  have hmodifies : ¬e.Modifies p := by
    intro hmodifies
    by_cases hdue : a.effectBlock ≤ block
    · exact hmodify hdue e hmay hmodifies
    · have hzero := hpost.pending_asOf_eq_zero hmodifies
      rw [hb₁, Allocation.asOf_of_lt (UInt32.not_le.1 hdue)] at hzero
      exact hpending hzero
  rw [hpost.asOf_eq hmodifies fun w he => hcut w (he ▸ hmay), hb₁]

/-- The set of the position exists and its operator has a delay in force. -/
structure Founded (p : Position) (block : BlockNumber) (b : Books) : Prop where
  setExists : b.setExists p.set
  delay : ((b.delaySetting p.operator).resolve block).1

namespace Founded

theorem of_terms (h : Founded p block b) (hterms : SameTerms b b') : Founded p block b' where
  setExists := hterms.setExists ▸ h.setExists
  delay := hterms.delaySetting ▸ h.delay

theorem lasts : Lasts (Founded p) where
  reads hreads h := h.of_terms hreads.toSameTerms
  later hblock h := ⟨h.setExists, DelaySetting.fst_resolve_later hblock h.delay⟩

/-- No set ever goes, and no delay in force is taken back. -/
theorem posts {e : Entry} (h : Founded p block b) (hpost : Posts config block e b b') :
    Founded p block b' := by
  have hstore : ∀ {b : Books} {q c al}, Founded p block b → Founded p block (b.store q c al) :=
    fun h => h.of_terms (sameTerms_store _ _ _ _)
  cases hpost with
  | delay =>
    refine ⟨h.setExists, ?_⟩
    rw [delaySetting_delayAsked]
    split
    next ho =>
      rw [ho, DelaySetting.resolve_request]
      split
      · rfl
      · exact h.delay
    next ho => exact h.delay
  | create =>
    refine ⟨?_, h.delay⟩
    rw [setExists_created, h.setExists, Bool.or_true]
  | addStrategy =>
    refine ⟨?_, h.delay⟩
    rw [setExists_strategyAdded, h.setExists, Bool.or_true]
  | removeStrategy =>
    refine ⟨?_, h.delay⟩
    rw [setExists_strategyRemoved, h.setExists, Bool.or_true]
  | clear => exact (hstore h).of_terms (sameTerms_dequeue _ _)
  | mature => exact hstore h
  | allocate => exact hstore h
  | deallocate => exact hstore (h.of_terms (sameTerms_enqueue _ _ _))
  | release => exact hstore h
  | cut => exact (hstore h).of_terms (sameTerms_reduceMax _ _ _ _)
  | _ => exact ⟨h.setExists, h.delay⟩

end Founded

/-- Modifications that go through are of positions in sets that exist, under a delay in force. -/
theorem modifyAllocations_founded {operator x : Address} {requests : List AllocateRequest}
    {r : AllocateRequest} {kinds : List ModificationKind}
    (h : modifyAllocations config block operator requests b = .ok kinds b') (hr : r ∈ requests) :
    Founded ⟨⟨operator, r.set⟩, x⟩ block b := by
  rw [modifyAllocations, get_bind_apply] at h
  obtain ⟨delay, _, hread, h⟩ := bind_eq_ok.1 h
  obtain ⟨hdelay, rfl⟩ := ofExcept_eq_ok.1 hread
  obtain ⟨_, _, hrun, -⟩ := bind_eq_ok.1 h
  let underway := fun b' => Postings config block (fun _ => True) b b' ∧ SameTerms b b'
  have hrounds : ∀ r ∈ requests, Leads underway
      (applyRequest ⟨block, delay, config.deallocationDelay⟩ operator r) (fun _ => underway)
      (fun _ => True) := fun r hr => leads_applyRequest hr hdelay fun _ _ => trivial
  have hstays {α : Type} (x : Bookkeeping α) : Leads (fun _ => b.setExists r.set) x
      (fun _ _ => b.setExists r.set) (fun _ => True) :=
    (Leads.const _ x).weaken (fun _ h => h) (fun _ _ h => h) fun _ _ => trivial
  have hround : Leads underway
      (applyRequest ⟨block, delay, config.deallocationDelay⟩ operator r)
      (fun _ _ => b.setExists r.set) (fun _ => True) := by
    refine Leads.ite (fun _ => ?_) fun _ => Leads.throw_bind fun _ _ => trivial
    refine Leads.bind (M := fun _ _ => b.setExists r.set) ?_ fun _ => hstays _
    intro b' hb'
    rw [requireSet_apply, hb'.2.setExists]
    split
    · assumption
    · trivial
  have hset : b.setExists r.set :=
    (Leads.mapM_of_mem hr hrounds hround fun _ _ => hstays _).of_ok ⟨.refl, .refl b⟩ hrun
  exact ⟨hset, congrArg Prod.fst (b.effectiveDelay_eq_ok.1 hdelay)⟩

/-- A modification of a position where a change waits settles the account and fails. -/
theorem WellKept.modifyAllocation_pending (h : WellKept config block b)
    (hpending : ((b.allocation p).asOf block).pending ≠ 0) (t : Terms) (ht : t.block = block)
    (slashable : Bool) (magnitude : Magnitude) : ∃ b',
      modifyAllocation t slashable p magnitude b = .error (.modificationAlreadyPending p) b' := by
  subst ht
  obtain ⟨b₁, hsettle, hsettlement, hcleared⟩ := h.settleAccount_succeeds p.account
  have hwaits : (b₁.allocation p).asOf t.block = (b.allocation p).asOf t.block :=
    hsettlement.alike.allocation p
  have hread := hsettlement.wellKept.settled_of_cleared hcleared
  have hisPending : ((b₁.allocation p).asOf t.block).isPending := by
    rw [hwaits, Allocation.isPending, decide_eq_true_eq]
    exact hpending
  refine ⟨b₁, bind_eq_error.2 (.inr ⟨(), b₁, hsettle, ?_⟩)⟩
  rw [get_bind_apply, hread, ofExcept_bind_apply]
  dsimp only
  rw [if_pos hisPending, throw_bind_apply]

theorem WellKept.modifyAllocations_pending (h : WellKept config block b)
    (hfounded : Founded p block b) (hpending : ((b.allocation p).asOf block).pending ≠ 0)
    (magnitude : Magnitude) : ∃ b',
      modifyAllocations config block p.operator [⟨p.set, [p.strategy], [magnitude]⟩] b =
        .error (.modificationAlreadyPending p) b' := by
  obtain ⟨delay, hdelay⟩ : ∃ delay, b.effectiveDelay p.operator block = .ok delay :=
    ⟨_, b.effectiveDelay_eq_ok.2 (Prod.ext hfounded.delay rfl)⟩
  obtain ⟨b', hrefused⟩ := h.modifyAllocation_pending hpending
    ⟨block, delay, config.deallocationDelay⟩ rfl (b.isSlashable p.membership block) magnitude
  have hset : requireSet p.set b = .ok () b := by rw [requireSet_apply, if_pos hfounded.setExists]
  refine ⟨b', ?_⟩
  rw [modifyAllocations, get_bind_apply, hdelay, ofExcept_bind_apply]
  refine bind_eq_error.2 (.inl ?_)
  rw [List.mapM_cons]
  refine bind_eq_error.2 (.inl ?_)
  refine bind_eq_error.2 (.inr ⟨(), b, hset, ?_⟩)
  rw [get_bind_apply, List.zip_cons_cons, List.mapM_cons]
  exact bind_eq_error.2 (.inl hrefused)

end Books

namespace Manager

open Books

variable {δ ρ π : Type} [DelegationLedger δ] [SetRegistrar ρ] [PermissionController π]
variable {m : Manager δ ρ π} {p : Position} {a : Allocation}

/-- The move is a call that goes through and asks for a magnitude at the position. -/
def Modifies (m : Manager δ ρ π) (p : Position) (move : Move δ ρ π) : Prop :=
  ∃ caller requests magnitude, move = .call caller (.modifyAllocations p.operator requests) ∧
    (m.attempt (perform caller (.modifyAllocations p.operator requests))).1.isOk ∧
    AllocateRequest.Asked requests p magnitude

/-- The move is a slash of the operator in the set of the position that goes through and has a leg
on its strategy. -/
def Cuts (m : Manager δ ρ π) (p : Position) (move : Move δ ρ π) : Prop :=
  ∃ caller avs r outcome, move = .call caller (.slashOperator avs r) ∧
    (m.attempt (perform caller (.slashOperator avs r))).1 = .ok (.slashed outcome) ∧
    ⟨r.operator, ⟨avs, r.setId⟩⟩ = p.membership ∧
    p.strategy ∈ outcome.legs.map SlashLeg.strategy

/-- No move of the run slashes the position, and none from `effectBlock` on modifies it. -/
def Undisturbed (p : Position) (effectBlock : BlockNumber) :
    Manager δ ρ π → List (Move δ ρ π) → Prop
  | _, [] => True
  | m, move :: rest =>
    ¬m.Cuts p move ∧ (effectBlock ≤ m.block → ¬m.Modifies p move) ∧
      Undisturbed p effectBlock (m.after move) rest

/-- What a position reads goes on to follow from the allocation `a`. -/
theorem Reachable.allocation_after (h : m.Reachable) (hpending : a.pending ≠ 0)
    {move : Move δ ρ π} (hcuts : ¬m.Cuts p move)
    (hmodify : a.effectBlock ≤ m.block → ¬m.Modifies p move)
    (hread : m.allocation p = a.asOf m.block) :
    (m.after move).allocation p = a.asOf (m.after move).block := by
  have hsame : (m.after move).books.allocation p = m.books.allocation p →
      (m.after move).allocation p = a.asOf (m.after move).block := by
    intro hstored
    have hblock := (after_cases h.idle move).2.1
    calc (m.after move).allocation p
      _ = (m.books.allocation p).asOf (m.after move).block := by rw [allocation, hstored]
      _ = (m.allocation p).asOf (m.after move).block := (Allocation.asOf_asOf hblock).symm
      _ = a.asOf (m.after move).block := by rw [hread, Allocation.asOf_asOf hblock]
  obtain ⟨-, -, hbooks | hbooks | ⟨caller, c, b, rfl, hok, hclock, hbooks, hpost⟩⟩ :=
    after_cases h.idle move
  · exact hsame (by rw [hbooks])
  · exact hsame (by rw [hbooks]; rfl)
  · -- what a slash in the set may post does not say whether it has a leg here; its outcome does
    by_cases hslash : ∃ avs r, c = .slashOperator avs r ∧
        ⟨r.operator, ⟨avs, r.setId⟩⟩ = p.membership
    · obtain ⟨avs, r, rfl, hmember⟩ := hslash
      refine hsame ((h.sameAccount_after_slash (a := p.account) ?_).allocation p.set)
      rintro ⟨caller', avs', r', outcome, hmove, hslashed, -, hleg⟩
      cases hmove
      exact hcuts ⟨caller, avs, r, outcome, rfl, hslashed, hmember, hleg⟩
    · rw [allocation, hclock, hbooks]
      refine hpost.asOf_eq hpending (fun hdue e hmay hmodifies => ?_) (fun w hmay => ?_) hread
      · obtain ⟨requests, magnitude, rfl, hasked⟩ := hmodifies.of_mayPost hmay
        exact hmodify hdue ⟨caller, requests, magnitude, rfl, hok, hasked⟩
      · exact hslash (Call.slash_of_mayPost hmay)

theorem Reachable.allocation_run (h : m.Reachable) (hpending : a.pending ≠ 0)
    {moves : List (Move δ ρ π)} (hundisturbed : m.Undisturbed p a.effectBlock moves)
    (hread : m.allocation p = a.asOf m.block) :
    (m.run moves).allocation p = a.asOf (m.run moves).block := by
  induction moves generalizing m with
  | nil => exact hread
  | cons move rest ih =>
    obtain ⟨hcuts, hmodify, hrest⟩ := hundisturbed
    exact ih (h.after move) hrest (h.allocation_after hpending hcuts hmodify hread)

theorem Reachable.founded_run (h : m.Reachable) (hfounded : Founded p m.block m.books)
    (moves : List (Move δ ρ π)) : Founded p (m.run moves).block (m.run moves).books := by
  induction moves generalizing m with
  | nil => exact hfounded
  | cons move rest ih =>
    exact ih (h.after move) (after_keeps h.idle Founded.lasts.persists
      (fun _ : True => fun hpost hb => hb.posts hpost) (fun _ _ _ _ _ _ => trivial) hfounded)

/-- A call that modifies a position goes through only for a set that exists, under a delay. -/
theorem Modifies.founded {move : Move δ ρ π} (h : m.Modifies p move) :
    Founded p m.block m.books := by
  obtain ⟨caller, requests, magnitude, -, hok, r, hr, hset, -⟩ := h
  obtain ⟨_, _, hperform, -⟩ := attempt_eq_ok_of_isOk hok
  obtain ⟨_, _, hmodify, -⟩ := bind_eq_ok.1 hperform
  obtain ⟨_, m₁, hcaller, hwork⟩ := bind_eq_ok.1 hmodify
  obtain rfl : m = m₁ := (leads_requireCaller p.operator caller _).of_ok rfl hcaller
  rw [get_bind_apply] at hwork
  obtain ⟨kinds, _, hatomic, -⟩ := bind_eq_ok.1 hwork
  obtain ⟨_, hbody, -⟩ := atomically_eq_ok hatomic
  obtain ⟨b, hbooks, -⟩ := onBooks_eq_ok hbody
  have hfounded := modifyAllocations_founded (x := p.strategy) hbooks hr
  rw [← hset] at hfounded
  exact ⟨hfounded.setExists, hfounded.delay⟩

/-- As long as a change waits at a position no call can modify it. -/
theorem Reachable.modification_refused (h : m.Reachable) (hfounded : Founded p m.block m.books)
    (hpending : (m.allocation p).pending ≠ 0) {caller : Address}
    (hcaller : m.mayCall p.operator caller .modifyAllocations) (magnitude : Magnitude) :
    (m.attempt (perform caller
      (.modifyAllocations p.operator [⟨p.set, [p.strategy], [magnitude]⟩]))).1 =
        .error (.modificationAlreadyPending p) := by
  have hkept : WellKept m.config m.block m.books.checkpoint :=
    h.wellKept.of_magnitudes (sameReads_checkpoint m.books).toSameMagnitudes
  obtain ⟨b, hrefused⟩ := hkept.modifyAllocations_pending ⟨hfounded.setExists, hfounded.delay⟩
    hpending magnitude
  have hadmitted : requireCaller p.operator caller .modifyAllocations m = .ok () m := by
    rw [requireCaller, get_bind_apply, if_pos hcaller]
    rfl
  have hatomic : atomically (onBooks (Books.modifyAllocations m.config m.block p.operator
      [⟨p.set, [p.strategy], [magnitude]⟩])) m =
        .error (.modificationAlreadyPending p) { m with books := b.revert } :=
    atomically_error { m with books := b } (by rw [onBooks, hrefused])
  have hmodify : modifyAllocations caller p.operator [⟨p.set, [p.strategy], [magnitude]⟩] m =
      .error (.modificationAlreadyPending p) { m with books := b.revert } := by
    refine bind_eq_error.2 (.inr ⟨(), m, hadmitted, ?_⟩)
    rw [get_bind_apply]
    exact bind_eq_error.2 (.inl hatomic)
  have hperform : perform caller
      (.modifyAllocations p.operator [⟨p.set, [p.strategy], [magnitude]⟩]) m =
        .error (.modificationAlreadyPending p) { m with books := b.revert } :=
    bind_eq_error.2 (.inl hmodify)
  rw [attempt, hperform]

/-- A change that a call has asked for matures once, at its effect block. Before that the position
reads as the call has left it, and nobody can modify it; from then on, until it is modified again,
it reads as the change would have it. That holds whatever happens in between, except for a slash of
the position itself. -/
theorem Reachable.change_matures_once (h : m.Reachable) {move : Move δ ρ π}
    (hmove : m.Modifies p move) {c : Magnitude} {diff : Int} {e : BlockNumber}
    (hstored : (m.after move).books.allocation p = ⟨c, diff, e⟩) (hdiff : diff ≠ 0)
    {moves : List (Move δ ρ π)} (hundisturbed : (m.after move).Undisturbed p e moves) :
    let m' := (m.after move).run moves
    (m'.block < e → m'.allocation p = ⟨c, diff, e⟩ ∧
        ∀ caller magnitude, m'.mayCall p.operator caller .modifyAllocations →
          (m'.attempt (perform caller
            (.modifyAllocations p.operator [⟨p.set, [p.strategy], [magnitude]⟩]))).1 =
              .error (.modificationAlreadyPending p)) ∧
      (e ≤ m'.block → ∃ target : Magnitude, (target.toNat : Int) = c.toNat + diff ∧
        m'.allocation p = ⟨target, 0, e⟩) := by
  intro m'
  have hafter := h.after move
  have hm' : m'.Reachable := hafter.run moves
  have hread : m'.allocation p = Allocation.asOf ⟨c, diff, e⟩ m'.block :=
    hafter.allocation_run hdiff hundisturbed (by rw [allocation, hstored])
  refine ⟨fun hlt => ?_, fun hle => ?_⟩
  · have hwaits : m'.allocation p = ⟨c, diff, e⟩ := hread.trans (Allocation.asOf_of_lt hlt)
    refine ⟨hwaits, fun caller magnitude hcaller => ?_⟩
    have hfounded : Founded p m'.block m'.books := h.founded_run hmove.founded (move :: moves)
    exact hm'.modification_refused hfounded (by rw [hwaits]; exact hdiff) hcaller magnitude
  · have hsound : Allocation.Sound ⟨c, diff, e⟩ := hstored ▸ hafter.wellKept.balanced.sound p
    refine ⟨Allocation.target ⟨c, diff, e⟩, hsound.toNat_target, hread.trans (if_pos ?_)⟩
    simp [Allocation.isMatured, Allocation.isPending, hdiff, hle]

/-- A third of what the operator of the small run has in force is to be given up. It is in force
through block 16 and the operator is held to that; at block 17 it is gone. -/
theorem change_matures_once_deallocation :
    let m := Sample.start.run (Sample.moves.take 6)
    let asked := m.after (.call Sample.operator (.modifyAllocations Sample.operator
      [⟨Sample.position.set, [Sample.position.strategy], [400]⟩]))
    (asked.run [.setBlock 16]).allocation Sample.position = ⟨600, -200, 17⟩ ∧
      ((asked.run [.setBlock 16]).attempt (perform Sample.operator (.modifyAllocations
        Sample.operator [⟨Sample.position.set, [Sample.position.strategy], [500]⟩]))).1 =
          .error (.modificationAlreadyPending Sample.position) ∧
      ∃ target : Magnitude, (target.toNat : Int) = 600 + -200 ∧
        (asked.run [.setBlock 17]).allocation Sample.position = ⟨target, 0, 17⟩ := by
  intro m asked
  have hreachable : m.Reachable := (Reachable.fresh _ _ _ _).run _
  have hmodifies : m.Modifies Sample.position (.call Sample.operator (.modifyAllocations
      Sample.operator [⟨Sample.position.set, [Sample.position.strategy], [400]⟩])) := by
    refine ⟨_, _, 400, rfl, ?_, _, List.mem_cons_self, rfl, List.mem_cons_self⟩
    decide +kernel
  have hstored : asked.books.allocation Sample.position = ⟨600, -200, 17⟩ := by decide +kernel
  have hundisturbed (block : BlockNumber) :
      asked.Undisturbed Sample.position 17 [.setBlock block] := by
    refine ⟨?_, fun _ => ?_, trivial⟩
    · rintro ⟨_, _, _, _, hmove, -⟩
      cases hmove
    · rintro ⟨_, _, _, hmove, -⟩
      cases hmove
  obtain ⟨hbefore, -⟩ :=
    hreachable.change_matures_once hmodifies hstored (by decide) (hundisturbed 16)
  obtain ⟨-, hdue⟩ :=
    hreachable.change_matures_once hmodifies hstored (by decide) (hundisturbed 17)
  obtain ⟨hwaits, hrefused⟩ := hbefore (by decide +kernel)
  exact ⟨hwaits, hrefused Sample.operator 500 (by decide +kernel), hdue (by decide +kernel)⟩

end Manager

end Restake
