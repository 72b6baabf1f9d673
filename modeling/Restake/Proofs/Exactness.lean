import Restake.Proofs.Reasons

/-!
Arithmetic that never leaves its range. Wherever magnitudes are added, taken away or divided, in a
call or in a view, the books are well kept and no max is zero: so no sum is too large, no difference
is cut off at zero, no pending change falls back on a default and nothing is divided by zero.
-/
namespace Restake

open Steps

/-- Running `f` over a list, the rounds before it having gone through, comes to an element in a
state. -/
inductive Steps.Rounds {ε σ α β : Type} (f : α → EStateM ε σ β) : List α → σ → α → σ → Prop
  | here {a rest s} : Rounds f (a :: rest) s a s
  | next {a rest s r t x u} (hround : f a s = .ok r t) (hrest : Rounds f rest t x u) :
    Rounds f (a :: rest) s x u

namespace Steps.Rounds

variable {ε σ α β : Type}

theorem keeps {f : α → EStateM ε σ β} {l : List α} {s t : σ} {a : α} {I E : σ → Prop}
    (h : Rounds f l s a t) (hrounds : ∀ a ∈ l, Leads I (f a) (fun _ => I) E) (hs : I s) :
    a ∈ l ∧ I t := by
  induction h with
  | here => exact ⟨List.mem_cons_self, hs⟩
  | next hround _ ih =>
    obtain ⟨hmem, ht⟩ := ih (fun b hb => hrounds b (List.mem_cons_of_mem _ hb))
      ((hrounds _ List.mem_cons_self).of_ok hs hround)
    exact ⟨List.mem_cons_of_mem _ hmem, ht⟩

theorem forM_ok {f : α → EStateM ε σ PUnit} {l : List α} {s t : σ} {a : α} (h : Rounds f l s a t) :
    ∃ before rest, l = before ++ a :: rest ∧ before.forM f s = .ok ⟨⟩ t := by
  induction h with
  | here => exact ⟨[], _, rfl, rfl⟩
  | next hround _ ih =>
    obtain ⟨before, rest, rfl, hbefore⟩ := ih
    exact ⟨_ :: before, rest, rfl, bind_eq_ok.2 ⟨_, _, hround, hbefore⟩⟩

end Steps.Rounds

namespace Books

variable {config : Config} {block : BlockNumber} {b b' : Books} {a : Account}

/-- Clearing the front of a queue comes to a next entry in these books. -/
inductive Clearing (a : Account) (block : BlockNumber) : List OperatorSet → Books → Books → Prop
  | here {s rest b} : Clearing a block (s :: rest) b b
  | next {s rest b b₁ b'} (hdue : ¬block < (b.allocation (a.position s)).effectBlock)
      (hsettle : settle (a.position s) block b = .ok () b₁)
      (hrest : Clearing a block rest (b₁.dequeue a) b') : Clearing a block (s :: rest) b b'

/-- Settling an account comes to these books: on its way through the queue, on its way through the
allocations that are due, or at its end. -/
inductive Settling (a : Account) (block : BlockNumber) (b : Books) : Books → Prop
  | clearing {b' : Books} (h : Clearing a block (b.queued a) b b') : Settling a block b b'
  | maturing {k b₁ s} {b' : Books} (hclear : clearFront a block (b.queued a) b = .ok k b₁)
      (h : Rounds (fun s : OperatorSet × Allocation => settle (a.position s.1) block)
        ((b₁.accountAllocations a).filter fun s => s.2.isMatured block && !s.2.isDeallocating)
        b₁ s b') : Settling a block b b'
  | settled {b' : Books} (h : settleAccount a block b = .ok () b') : Settling a block b b'

/-- What is clear to come, is reached by postings. -/
theorem Clearing.postings {sets rest : List OperatorSet} (h : Clearing a block sets b b')
    (hqueue : b.queued a = sets ++ rest) : Postings config block (fun _ => True) b b' := by
  induction h with
  | here => exact .refl
  | @next s sets b b₁ b' hdue hsettle _ ih =>
    obtain ⟨c, al, hsettled, rfl⟩ := settle_eq_ok.1 hsettle
    have htail : ((b.store (a.position s) c al).dequeue a).queued a = sets ++ rest := by
      rw [queued_dequeue, if_pos rfl, queued_store, hqueue]
      rfl
    have hclear : Posts config block (.clear a s) b ((b.store (a.position s) c al).dequeue a) :=
      .clear hqueue (UInt32.not_lt.1 hdue) hsettled
    exact .head ⟨_, trivial, hclear⟩ (ih htail)

theorem Settling.postings (h : Settling a block b b') :
    Postings config block (fun _ => True) b b' := by
  have hqueue : b.queued a = b.queued a ++ [] := (List.append_nil _).symm
  cases h with
  | clearing h => exact h.postings hqueue
  | @maturing k b₁ s _ hclear h =>
    obtain ⟨hdistinct, hdue⟩ := increases_due b₁ a block
    -- the rounds before this one are a run of the loop over part of the list
    obtain ⟨before, rest, hsplit, hbefore⟩ := h.forM_ok
    rw [hsplit] at hdistinct hdue
    rw [List.map_append] at hdistinct
    have hpost : Postings config block (fun _ => True) b b₁ :=
      (clearFront_ok (fun _ => trivial) hqueue hclear).1
    have hmatured : Postings config block (fun _ => True) b₁ b' :=
      (forM_settle_ok (fun _ => trivial) (List.nodup_append.1 hdistinct).1
        (fun s hs => hdue s (List.mem_append_left _ hs)) hbefore).1
    exact Relation.ReflTransGen.trans hpost hmatured
  | settled h => exact (settleAccount_ok (fun _ => trivial) (fun _ => trivial) h).1

end Books

/-- The change that waits leads to a magnitude: the target is not what stands in for none. -/
def Allocation.Exact (a : Allocation) : Prop := Magnitude.shift? a.current a.pending = some a.target

theorem Allocation.Sound.exact {a : Allocation} (h : a.Sound) : a.Exact :=
  Magnitude.shift?_eq_some_iff.2 h.toNat_target

namespace Allocation

theorem exact_of_shift {a : Allocation} {m : Magnitude}
    (h : Magnitude.shift? a.current a.pending = some m) : a.Exact := by
  rw [Exact, target, h, Option.getD_some]

/-- A change asked for leads to what was asked for. -/
theorem exact_changed (a : Allocation) (m : Magnitude) (effectBlock : BlockNumber) :
    Exact { a with pending := Magnitude.changeTo a.current m, effectBlock } :=
  exact_of_shift (Magnitude.shift?_changeTo a.current m)

/-- Without a change that waits any magnitude is its own target. -/
theorem exact_replaced {a : Allocation} (h : a.pending = 0) (m : Magnitude)
    (effectBlock : BlockNumber) : Exact { a with current := m, effectBlock } := by
  refine exact_of_shift (Magnitude.shift?_eq_some_iff (n := m).2 ?_)
  dsimp only
  omega

end Allocation

namespace Books

/-- Whatever a call makes of an allocation, the capacity has room for it: no sum is too large, no
difference too small, and no change leads out of the range. -/
structure Ample (c : Capacity) (al : Allocation) : Prop where
  fits : c.encumbered ≤ c.max
  exact : al.Exact
  increase : ∀ m, al.current < m → m - al.current ≤ c.free →
    c.encumbered.toNat + (m - al.current).toNat < UInt64.size
  change : ∀ m effectBlock,
    Allocation.Exact { al with pending := Magnitude.changeTo al.current m, effectBlock }
  release : ∀ m, m < al.current →
    ∃ left, Magnitude.shift? c.encumbered (Magnitude.changeTo al.current m) = some left
  replace : al.pending = 0 → ∀ m effectBlock, Allocation.Exact { al with current := m, effectBlock }
  part : ∀ w < wad, (Magnitude.scale al.current w).toNat = al.current.toNat * w.toNat / wad.toNat ∧
    Magnitude.scale al.current w ≤ al.current ∧ Magnitude.scale al.current w ≤ c.encumbered ∧
    Magnitude.scale al.current w < c.max
  cut : ∀ w < wad, ∃ pending,
    cutPending { al with current := al.current - Magnitude.scale al.current w } w = .ok pending ∧
    Allocation.Exact { al with current := al.current - Magnitude.scale al.current w, pending }

/-- Books in which no magnitude that is read leaves its range, nor any that could be written. -/
structure Exact (block : BlockNumber) (b : Books) : Prop where
  positive : ∀ a, 0 < b.maxMagnitude a
  fits : ∀ a, b.encumberedMagnitude a ≤ b.maxMagnitude a
  /-- No deallocation that waits is of more than is in force. -/
  covered : ∀ p, -(b.allocation p).pending ≤ (b.allocation p).current.toNat
  exact : ∀ p, (b.allocation p).Exact
  ample : ∀ p, ∃ c, b.settled p block = .ok (c, (b.allocation p).asOf block) ∧
    Ample c ((b.allocation p).asOf block)
  /-- A cut takes from the max what it says, and leaves some of it. -/
  lowered : ∀ {p w r b'}, w < wad → Books.cut p w block b = .ok (some r) b' →
    0 < r.maxAfter ∧ r.maxAfter.toNat + r.magnitude.toNat = r.maxBefore.toNat

/-- In balance, with no max at zero. -/
structure Solvent (b : Books) : Prop extends Balanced b where
  positive : ∀ a, 0 < b.maxMagnitude a

variable {b b' : Books} {config : Config} {block : BlockNumber}

theorem solvent_empty : ({} : Books).Solvent where
  toBalanced := balanced_empty
  positive a := by
    rw [maxMagnitude, history, UndoMap.find?_empty]
    decide

theorem lasts_solvent : Lasts fun _ b => b.Solvent where
  reads hreads h := {
    h.toBalanced.of_reads hreads.allocation hreads.encumberedMagnitude hreads.maxMagnitude with
    positive := by
      rw [hreads.maxMagnitude]
      exact h.positive }
  later _ h := h

namespace Solvent

variable {p : Position} {c : Capacity} {al : Allocation}

/-- The part of an allocation that a cut takes is encumbered, and it is not all of the max. -/
theorem scale_settled (h : b.Solvent) (hsettled : b.settled p block = .ok (c, al)) {w : UInt64}
    (hw : w < wad) : Magnitude.scale al.current w ≤ al.current ∧
      Magnitude.scale al.current w ≤ c.encumbered ∧ Magnitude.scale al.current w < c.max := by
  have hpart := Magnitude.scale_le (m := al.current) (UInt64.le_of_lt hw)
  have hheld := h.held_settled_le hsettled
  have hfits := h.fits p.account
  have hpositive := h.positive p.account
  obtain ⟨-, hle, hmax, -⟩ := h.of_settled hsettled
  unfold Allocation.held at hheld
  simp only [UInt64.le_iff_toNat_le, UInt64.lt_iff_toNat_lt, UInt64.toNat_zero, hmax] at *
  refine ⟨hpart, by omega, ?_⟩
  rcases Nat.eq_zero_or_pos al.current.toNat with hzero | hcurrent
  · omega
  · have hless := Magnitude.scale_lt (UInt64.lt_iff_toNat_lt.2 hw) hcurrent
    omega

/-- Only a cut lowers a max, and it leaves some of it. -/
theorem posts {e : Entry} (h : b.Solvent) (hpost : Posts config block e b b') : b'.Solvent where
  toBalanced := h.toBalanced.posts hpost
  positive a := by
    by_cases hcut : ∃ p w, e = .cut p w
    · obtain ⟨p, w, rfl⟩ := hcut
      cases hpost with
      | cut hwad _ _ hsettled _ _ _ =>
        have hpart := (h.scale_settled hsettled hwad.2).2.2
        obtain ⟨-, -, hmax, -⟩ := h.of_settled hsettled
        rw [maxMagnitude_reduceMax, (store_frame _ _ _ _).1]
        split
        next ha =>
          subst a
          rw [hmax, UInt64.lt_iff_toNat_lt] at hpart
          rw [UInt64.lt_iff_toNat_lt, Magnitude.toNat_monus, UInt64.toNat_zero]
          omega
        next ha => exact h.positive a
    · rw [maxMagnitude_posts_eq hpost fun p w he => hcut ⟨p, w, he⟩]
      exact h.positive a

theorem shift_cut (h : b.Solvent) (hsettled : b.settled p block = .ok (c, al)) {w : UInt64}
    (hw : w < wad) :
    ∃ left, Magnitude.shift? c.encumbered (-(Magnitude.scale al.current w).toNat) = some left := by
  have hpart := (h.scale_settled hsettled hw).2.1
  refine ⟨c.encumbered - Magnitude.scale al.current w, Magnitude.shift?_eq_some_iff.2 ?_⟩
  rw [UInt64.toNat_sub_of_le _ _ hpart]
  rw [UInt64.le_iff_toNat_le] at hpart
  omega

theorem ample (h : b.Solvent) (hsettled : b.settled p block = .ok (c, al)) : Ample c al := by
  obtain ⟨hsound, hle, hmax, -⟩ := h.of_settled hsettled
  have hfits : c.encumbered ≤ c.max := hmax ▸ UInt64.le_trans hle (h.fits p.account)
  exact {
    fits := hfits
    exact := hsound.exact
    increase := by
      intro m hup hfree
      have hlt := c.max.toNat_lt
      rw [UInt64.le_iff_toNat_le] at hfits
      rw [UInt64.le_iff_toNat_le, toNat_free] at hfree
      unfold UInt64.size
      omega
    change := al.exact_changed
    release := fun m => h.shift_down hsettled
    replace := Allocation.exact_replaced
    part := fun w hw =>
      ⟨Magnitude.toNat_scale_of_le (UInt64.le_of_lt hw), h.scale_settled hsettled hw⟩
    cut := by
      intro w hw
      obtain ⟨left, hshift⟩ := h.shift_cut hsettled hw
      obtain ⟨pending, hpending⟩ :=
        cutPending_succeeds hsound (al.current - Magnitude.scale al.current w) w
      -- the allocation that is left stands in books that are in balance again
      have hcut := (h.toBalanced.cut (UInt64.le_of_lt hw) hsettled hshift hpending).sound p
      rw [allocation_reduceMax, allocation_store, if_pos rfl] at hcut
      exact ⟨pending, hpending, hcut.exact⟩ }

theorem exact (h : b.Solvent) (block : BlockNumber) : Exact block b where
  positive := h.positive
  fits := h.fits
  covered p := by
    have hcovered := h.covered p
    omega
  exact p := (h.sound p).exact
  ample p := by
    obtain ⟨c, hsettled⟩ := h.settled_ok p block
    exact ⟨c, hsettled, h.ample hsettled⟩
  lowered := by
    intro p w r b' hw hcut
    rcases cut_ok hcut with ⟨hnone, -⟩ | ⟨c, al, left, pending, -, hsettled, -, -, -, rfl, hsome⟩
    · cases hnone
    · cases hsome
      obtain ⟨-, -, hmax, -⟩ := h.of_settled hsettled
      have hpart := (h.scale_settled hsettled hw).2.2
      rw [maxMagnitude_reduceMax, if_pos rfl, (store_frame _ _ _ _).1, ← hmax]
      rw [UInt64.lt_iff_toNat_lt] at hpart ⊢
      rw [Magnitude.toNat_monus, UInt64.toNat_zero]
      dsimp only
      omega

end Solvent

end Books

namespace Manager

open Books

variable {δ ρ π : Type} {m : Manager δ ρ π}

/-- The view of what is free takes from what is encumbered what is there, and less than the max is
left. -/
theorem encumberedAfter_exact (h : WellKept m.config m.block m.books) (a : Account) :
    m.encumberedAfter? a (m.books.encumberedMagnitude a) (m.books.queued a) =
        some (m.encumberedAfter a (m.books.encumberedMagnitude a) (m.books.queued a)) ∧
      m.encumberedAfter a (m.books.encumberedMagnitude a) (m.books.queued a) ≤
        m.books.maxMagnitude a := by
  obtain ⟨k, b, hfront, hsettlement⟩ :=
    h.clearFront_succeeds (List.append_nil (m.books.queued a)).symm
  have hforeseen := encumberedAfter?_eq (h.orderly a).nodup (fun _ _ => rfl) hfront
  rw [encumberedAfter_of_eq_some hforeseen, ← hsettlement.alike.maxMagnitude]
  exact ⟨hforeseen, hsettlement.wellKept.balanced.fits a⟩

variable [DelegationLedger δ]

/-- The books that a call comes to where it works with magnitudes: as it settles a queue or an
account, at the change that it makes to an allocation then, and at each leg of a slash. -/
inductive ComesTo (m : Manager δ ρ π) : Call → Books → Prop
  | clear {operator strategies limits x b₁ b}
      (hround : Rounds (fun x : Address × UInt64 =>
        clearMatured ⟨operator, x.1⟩ x.2.toNat m.block) (strategies.zip limits)
        m.books.checkpoint x b₁)
      (h : Clearing ⟨operator, x.1⟩ m.block ((b₁.queued ⟨operator, x.1⟩).take x.2.toNat) b₁ b) :
    ComesTo m (.clearDeallocationQueue operator strategies limits) b
  | modify {operator requests delay r b₁ x b₂ b}
      (hdelay : m.books.checkpoint.effectiveDelay operator m.block = .ok delay)
      (hrequest : Rounds (applyRequest ⟨m.block, delay, m.config.deallocationDelay⟩ operator)
        requests m.books.checkpoint r b₁)
      (hround : Rounds (fun x : Address × Magnitude =>
        modifyAllocation ⟨m.block, delay, m.config.deallocationDelay⟩
          (b₁.isSlashable ⟨operator, r.set⟩ m.block) ⟨⟨operator, r.set⟩, x.1⟩ x.2)
        (r.strategies.zip r.magnitudes) b₁ x b₂)
      (h : Settling ⟨operator, x.1⟩ m.block b₂ b) :
      ComesTo m (.modifyAllocations operator requests) b
  | slash {avs r x} {t : Manager δ ρ π}
      (hcheck : m.books.checkpoint.checkSlash ⟨avs, r.setId⟩ r m.block = .ok ())
      (hround : Rounds (fun x : Address × UInt64 =>
        (slashLeg ⟨⟨r.operator, ⟨avs, r.setId⟩⟩, x.1⟩ x.2 : Managing δ ρ π (Option SlashLeg)))
        (r.strategies.zip r.wads)
        { m with books := m.books.checkpoint.slashCounted ⟨avs, r.setId⟩ } x t) :
    ComesTo m (.slashOperator avs r) t.books

/-- Wherever a call comes to, postings alone have led there. -/
theorem ComesTo.postings (hidle : m.books.Idle) {c : Call} {b : Books} (h : m.ComesTo c b) :
    Postings m.config m.block (fun _ => True) m.books.checkpoint b := by
  cases h with
  | clear hround h =>
    obtain ⟨-, hpost⟩ := hround.keeps
      (I := Postings m.config m.block (fun _ => True) m.books.checkpoint)
      (fun _ _ => leads_clearMatured fun _ => trivial) .refl
    exact Relation.ReflTransGen.trans hpost (h.postings (List.take_append_drop _ _).symm)
  | @modify operator requests delay r b₁ x b₂ _ hdelay hrequest hround h =>
    obtain ⟨-, hpost₁, hterms⟩ := hrequest.keeps
      (I := fun b => Postings m.config m.block (fun _ => True) m.books.checkpoint b ∧
        SameTerms m.books.checkpoint b)
      (fun r hr => leads_applyRequest hr hdelay fun _ _ => trivial) ⟨.refl, .refl _⟩
    rw [← hterms.effectiveDelay_eq] at hdelay
    obtain ⟨-, hpost₂, -⟩ := hround.keeps
      (I := fun b => Postings m.config m.block (fun _ => True) m.books.checkpoint b ∧
        SameTerms b₁ b)
      (fun _ _ => leads_modifyAllocation hdelay (fun _ => trivial) (fun _ => trivial)
        ⟨trivial, trivial, trivial⟩) ⟨hpost₁, .refl _⟩
    exact Relation.ReflTransGen.trans hpost₂ h.postings
  | @slash avs r x t hcheck hround =>
    obtain ⟨hset, hslashable, -, -, hwads⟩ := checkSlash_eq_ok.1 hcheck
    have hstart : m.Amid (m.Slashing (fun _ => True) m.books.checkpoint)
        { m with books := m.books.checkpoint.slashCounted ⟨avs, r.setId⟩ } := by
      have hrewinds := (reversible_nextSlashId ⟨avs, r.setId⟩ m.books).of_ok
        (rewinds_checkpoint hidle) (nextSlashId_apply _ _)
      exact ⟨_, _, _, rfl, hrewinds, Postings.tail .refl trivial (.countSlash hset),
        ⟨rfl, rfl, rfl, rfl⟩⟩
    obtain ⟨-, b, _, _, rfl, -, hpost, -⟩ := hround.keeps
      (I := m.Amid (m.Slashing (fun _ => True) m.books.checkpoint)) (fun x hx =>
        leads_slashLeg trivial (hwads x.2 (List.of_mem_zip hx).2) hslashable) hstart
    exact hpost

variable [SetRegistrar ρ] [PermissionController π]

theorem Reachable.solvent (h : m.Reachable) : m.books.Solvent :=
  h.keeps (fun _ _ => solvent_empty) (fun _ => lasts_solvent.persists) fun hpost hb => hb.posts hpost

theorem Reachable.solvent_comesTo (h : m.Reachable) {c : Call} {b : Books} (hb : m.ComesTo c b) :
    b.Solvent := by
  refine (hb.postings h.idle).keeps (fun _ _ _ _ hpost hb => hb.posts hpost) ?_
  exact @lasts_solvent.reads m.block _ _ (sameReads_checkpoint m.books) h.solvent

/-- No magnitude ever leaves its range. No call fails for it; wherever a call works with magnitudes,
and in what the views read, every sum, difference, part and change is exact and no max is zero. -/
theorem Reachable.magnitudes_exact (h : m.Reachable) :
    (∀ caller c magnitude change,
      (m.attempt (perform caller c)).1 ≠ .error (.magnitudeOutOfRange magnitude change)) ∧
    (∀ c b, m.ComesTo c b → b.Exact m.block) ∧ m.books.Exact m.block ∧
    ∀ a, m.encumberedAfter? a (m.books.encumberedMagnitude a) (m.books.queued a) =
        some (m.encumberedAfter a (m.books.encumberedMagnitude a) (m.books.queued a)) ∧
      m.encumberedAfter a (m.books.encumberedMagnitude a) (m.books.queued a) ≤
        m.books.maxMagnitude a := by
  refine ⟨fun caller c magnitude change herror => ?_,
    fun c b hb => (h.solvent_comesTo hb).exact m.block, h.solvent.exact m.block,
    encumberedAfter_exact h.wellKept⟩
  exact h.attempt_inRange caller c _ herror magnitude change rfl

/-- Half of what is in force is slashed while a third of it waits to be given up. -/
theorem magnitudes_exact_slash :
    let m := Sample.start.run Sample.moves
    let slash : SlashRequest :=
      ⟨Sample.operator, 1, [Sample.position.strategy], [500000000000000000], ""⟩
    m.Reachable ∧ m.ComesTo (.slashOperator Sample.avs slash)
        (m.books.checkpoint.slashCounted Sample.position.set) ∧
      (m.books.checkpoint.slashCounted Sample.position.set).Exact m.block := by
  intro m slash
  have hcheck : m.books.checkpoint.checkSlash Sample.position.set slash m.block = .ok () := by
    decide +kernel
  have hslash : m.ComesTo (.slashOperator Sample.avs slash)
      (m.books.checkpoint.slashCounted Sample.position.set) :=
    .slash (t := { m with books := m.books.checkpoint.slashCounted Sample.position.set })
      hcheck .here
  exact ⟨Sample.reachable, hslash, Sample.reachable.magnitudes_exact.2.1 _ _ hslash⟩

end Manager

end Restake
