import Restake.Proofs.Agreement
import Restake.Proofs.Settlement

/-!
Bookkeeping on books that read alike. Every step but the clearing of queues answers the same on
both, or fails on both for the same reason, and leaves books that read alike again. What one of them
has yet to write down a step settles before it matters.
-/
namespace Restake.Books

open Steps

variable {b b' : Books} {config : Config} {block : BlockNumber}

namespace SameTerms

variable (h : SameTerms b b')
include h

theorem delayAsked (operator : Address) (delay block effectBlock : BlockNumber) :
    SameTerms (b.delayAsked operator delay block effectBlock)
      (b'.delayAsked operator delay block effectBlock) where
  registration := h.registration
  strategiesOf := h.strategiesOf
  setExists := h.setExists
  delaySetting := by
    funext o
    rw [delaySetting_delayAsked, delaySetting_delayAsked, h.delaySetting]

theorem created (s : OperatorSet) : SameTerms (b.created s) (b'.created s) where
  registration := h.registration
  strategiesOf := by
    funext t
    rw [strategiesOf_created, strategiesOf_created, h.strategiesOf]
  setExists := by
    funext t
    rw [setExists_created, setExists_created, h.setExists]
  delaySetting := h.delaySetting

theorem strategyAdded (s : OperatorSet) (x : Address) :
    SameTerms (b.strategyAdded s x) (b'.strategyAdded s x) where
  registration := h.registration
  strategiesOf := by
    funext t
    rw [strategiesOf_strategyAdded, strategiesOf_strategyAdded, h.strategiesOf]
  setExists := by
    funext t
    rw [setExists_strategyAdded, setExists_strategyAdded, h.setExists]
  delaySetting := h.delaySetting

theorem strategyRemoved (s : OperatorSet) (x : Address) :
    SameTerms (b.strategyRemoved s x) (b'.strategyRemoved s x) where
  registration := h.registration
  strategiesOf := by
    funext t
    rw [strategiesOf_strategyRemoved, strategiesOf_strategyRemoved, h.strategiesOf]
  setExists := by
    funext t
    rw [setExists_strategyRemoved, setExists_strategyRemoved, h.setExists]
  delaySetting := h.delaySetting

theorem joined (m : Membership) : SameTerms (b.joined m) (b'.joined m) where
  registration := by
    funext m'
    rw [registration_joined, registration_joined, h.registration]
  strategiesOf := h.strategiesOf
  setExists := h.setExists
  delaySetting := h.delaySetting

theorem departed (m : Membership) (slashableUntil : BlockNumber) :
    SameTerms (b.departed m slashableUntil) (b'.departed m slashableUntil) where
  registration := by
    funext m'
    rw [registration_departed, registration_departed, h.registration]
  strategiesOf := h.strategiesOf
  setExists := h.setExists
  delaySetting := h.delaySetting

theorem checkSlash_eq (s : OperatorSet) (r : SlashRequest) :
    b'.checkSlash s r block = b.checkSlash s r block := by
  rw [checkSlash, checkSlash, h.setExists, h.isSlashable_eq]

end SameTerms

theorem Alike.store (h : Alike block b b') (p : Position) (c c' : Capacity) (al : Allocation) :
    Alike block (b.store p c al) (b'.store p c' al) := by
  have hterms : SameTerms b (b'.store p c' al) := h.terms.trans (sameTerms_store b' p c' al)
  refine ⟨?_, ?_, ?_, fun q => ?_⟩
  · have hback := sameTerms_store b p c al
    exact ⟨hterms.1.trans hback.1.symm, hterms.2.trans hback.2.symm, hterms.3.trans hback.3.symm,
      hterms.4.trans hback.4.symm⟩
  · rw [slashCount_store, slashCount_store, h.slashCount]
  · rw [(store_frame b' p c' al).1, (store_frame b p c al).1, h.maxMagnitude]
  · rw [allocation_store, allocation_store]
    by_cases hq : p = q
    · rw [if_pos hq, if_pos hq]
    · rw [if_neg hq, if_neg hq]
      exact h.allocation q

theorem Alike.enqueue (h : Alike block b b') (a : Account) (s : OperatorSet) :
    Alike block (b.enqueue a s) (b'.enqueue a s) :=
  ⟨⟨h.terms.1, h.terms.2, h.terms.3, h.terms.4⟩, h.slashCount, h.maxMagnitude, h.allocation⟩

theorem Alike.reduceMax (h : Alike block b b') (a : Account) (m : Magnitude) :
    Alike block (b.reduceMax a m block) (b'.reduceMax a m block) := by
  refine ⟨⟨h.terms.1, h.terms.2, h.terms.3, h.terms.4⟩, h.slashCount, ?_, h.allocation⟩
  funext x
  rw [maxMagnitude_reduceMax, maxMagnitude_reduceMax, h.maxMagnitude]

/-- Two books that are well kept and read alike. -/
structure Matched (config : Config) (block : BlockNumber) (b b' : Books) : Prop where
  left : WellKept config block b
  right : WellKept config block b'
  alike : Alike block b b'

/-- Writes that leave magnitudes and queues alone match if they are the same. -/
theorem Matched.write (h : Matched config block b b') {w w' : Books} (hw : SameMagnitudes b w)
    (hw' : SameMagnitudes b' w') (hterms : SameTerms w w') (hcount : w'.slashCount = w.slashCount) :
    Matched config block w w' := by
  refine ⟨h.left.of_magnitudes hw, h.right.of_magnitudes hw', hterms, hcount, ?_, fun p => ?_⟩
  · rw [hw'.maxMagnitude, hw.maxMagnitude, h.alike.maxMagnitude]
  · rw [hw'.allocation, hw.allocation, h.alike.allocation]

/-- Books that are read like matching ones match. -/
theorem Matched.of_reads (h : Matched config block b b') {w w' : Books} (hw : SameReads b w)
    (hw' : SameReads b' w') (hcount : w.slashCount = b.slashCount)
    (hcount' : w'.slashCount = b'.slashCount) : Matched config block w w' := by
  refine h.write hw.toSameMagnitudes hw'.toSameMagnitudes ⟨?_, ?_, ?_, ?_⟩ ?_
  · rw [hw'.registration, hw.registration, h.alike.terms.registration]
  · rw [hw'.strategiesOf, hw.strategiesOf, h.alike.terms.strategiesOf]
  · rw [hw'.setExists, hw.setExists, h.alike.terms.setExists]
  · rw [hw'.delaySetting, hw.delaySetting, h.alike.terms.delaySetting]
  · rw [hcount', hcount, h.alike.slashCount]

section Terms

theorem agree_requireSet (s : OperatorSet) :
    Agree (Matched config block) (requireSet s) (requireSet s) (fun _ => Matched config block)
      (fun _ _ => True) := by
  intro b b' h
  rw [requireSet_apply, requireSet_apply, h.alike.terms.setExists]
  split
  · exact ⟨rfl, h⟩
  · exact ⟨rfl, trivial⟩

theorem agree_requestDelay (configurationDelay : BlockNumber) (operator : Address)
    (delay : BlockNumber) :
    Agree (Matched config block) (requestDelay configurationDelay operator delay block)
      (requestDelay configurationDelay operator delay block) (fun _ => Matched config block)
      (fun _ _ => True) := by
  intro b b' h
  rw [requestDelay_apply, requestDelay_apply, h.alike.terms.delaySetting]
  cases BlockNumber.after? block configurationDelay with
  | none => exact ⟨rfl, trivial⟩
  | some effectBlock =>
    exact ⟨rfl, h.write ⟨rfl, rfl, rfl, rfl⟩ ⟨rfl, rfl, rfl, rfl⟩
      (h.alike.terms.delayAsked operator delay block effectBlock) h.alike.slashCount⟩

theorem agree_addStrategies (s : OperatorSet) (maxStrategies : UInt64) (xs : List Address) :
    Agree (Matched config block) (addStrategies s maxStrategies xs)
      (addStrategies s maxStrategies xs) (fun _ => Matched config block) (fun _ _ => True) := by
  refine Agree.bind (agree_requireSet s) fun _ => Agree.forM fun x _ => ?_
  intro b b' h
  rw [addStrategy_apply, addStrategy_apply, h.alike.terms.strategiesOf]
  split
  · exact ⟨rfl, trivial⟩
  · split
    · exact ⟨rfl, trivial⟩
    · exact ⟨rfl, h.write ⟨rfl, rfl, rfl, rfl⟩ ⟨rfl, rfl, rfl, rfl⟩
        (h.alike.terms.strategyAdded s x) h.alike.slashCount⟩

theorem agree_createSet (s : OperatorSet) (maxStrategies : UInt64) (xs : List Address) :
    Agree (Matched config block) (createSet s maxStrategies xs) (createSet s maxStrategies xs)
      (fun _ => Matched config block) (fun _ _ => True) := by
  refine Agree.read_bind fun b b' h => ?_
  rw [h.alike.terms.setExists]
  refine Agree.ite (fun _ => Agree.throw_bind fun _ _ _ => trivial) fun _ => ?_
  refine Agree.bind (Agree.modify fun b b' h => ?_) fun _ => agree_addStrategies s maxStrategies xs
  exact h.write ⟨rfl, rfl, rfl, rfl⟩ ⟨rfl, rfl, rfl, rfl⟩ (h.alike.terms.created s)
    h.alike.slashCount

theorem agree_removeStrategies (s : OperatorSet) (xs : List Address) :
    Agree (Matched config block) (removeStrategies s xs) (removeStrategies s xs)
      (fun _ => Matched config block) (fun _ _ => True) := by
  refine Agree.bind (agree_requireSet s) fun _ => Agree.forM fun x _ => ?_
  intro b b' h
  rw [removeStrategy_apply, removeStrategy_apply, h.alike.terms.strategiesOf]
  split
  · exact ⟨rfl, h.write ⟨rfl, rfl, rfl, rfl⟩ ⟨rfl, rfl, rfl, rfl⟩
      (h.alike.terms.strategyRemoved s x) h.alike.slashCount⟩
  · exact ⟨rfl, trivial⟩

theorem agree_register (m : Membership) :
    Agree (Matched config block) (register m) (register m) (fun _ => Matched config block)
      (fun _ _ => True) := by
  intro b b' h
  rw [register_apply, register_apply, h.alike.terms.setExists, h.alike.terms.registration]
  split
  · split
    · exact ⟨rfl, trivial⟩
    · exact ⟨rfl, h.write ⟨rfl, rfl, rfl, rfl⟩ ⟨rfl, rfl, rfl, rfl⟩ (h.alike.terms.joined m)
        h.alike.slashCount⟩
  · exact ⟨rfl, trivial⟩

theorem agree_deregister (slashableUntil : BlockNumber) (m : Membership) :
    Agree (Matched config block) (deregister slashableUntil m) (deregister slashableUntil m)
      (fun _ => Matched config block) (fun _ _ => True) := by
  intro b b' h
  rw [deregister_apply, deregister_apply, h.alike.terms.setExists, h.alike.terms.registration]
  split
  · split
    · exact ⟨rfl, h.write ⟨rfl, rfl, rfl, rfl⟩ ⟨rfl, rfl, rfl, rfl⟩
        (h.alike.terms.departed m slashableUntil) h.alike.slashCount⟩
    · exact ⟨rfl, trivial⟩
  · exact ⟨rfl, trivial⟩

theorem agree_nextSlashId (s : OperatorSet) :
    Agree (Matched config block) (nextSlashId s) (nextSlashId s) (fun _ => Matched config block)
      (fun _ _ => True) := by
  intro b b' h
  have hcount : (b'.slashCounted s).slashCount = (b.slashCounted s).slashCount := by
    funext t
    rw [slashCount_slashCounted, slashCount_slashCounted, h.alike.slashCount]
  have hterms := h.alike.terms
  rw [nextSlashId_apply, nextSlashId_apply, hcount]
  exact ⟨rfl, h.write ⟨rfl, rfl, rfl, rfl⟩ ⟨rfl, rfl, rfl, rfl⟩
    ⟨hterms.1, hterms.2, hterms.3, hterms.4⟩ hcount⟩

end Terms

section Magnitudes

theorem agree_settleAccount (a : Account) :
    Agree (Matched config block) (settleAccount a block) (settleAccount a block)
      (fun _ b b' => Matched config block b b' ∧ b.Cleared a block ∧ b'.Cleared a block)
      (fun _ _ => True) := by
  intro b b' h
  obtain ⟨b₁, hok, hsettlement, hcleared⟩ := h.left.settleAccount_succeeds a
  obtain ⟨b₁', hok', hsettlement', hcleared'⟩ := h.right.settleAccount_succeeds a
  rw [hok, hok']
  refine ⟨rfl, ⟨hsettlement.wellKept, hsettlement'.wellKept, ?_⟩, hcleared, hcleared'⟩
  exact hsettlement.alike.symm.trans (h.alike.trans hsettlement'.alike)

theorem agree_effectAfter {R : Books → Books → Prop} (delay : BlockNumber) :
    Agree R (effectAfter block delay) (effectAfter block delay)
      (fun effectBlock b b' => BlockNumber.after? block delay = some effectBlock ∧ R b b')
      (fun _ _ => True) := by
  intro b b' h
  rw [effectAfter_apply, effectAfter_apply]
  cases heffect : BlockNumber.after? block delay with
  | none => exact ⟨rfl, trivial⟩
  | some effectBlock => exact ⟨rfl, rfl, h⟩

/-- Once both accounts are settled the same capacity and allocation are read from them. -/
theorem agree_modifyAllocation (delay : BlockNumber) (slashable : Bool) (p : Position)
    (m : Magnitude) :
    Agree (Matched config block)
      (modifyAllocation ⟨block, delay, config.deallocationDelay⟩ slashable p m)
      (modifyAllocation ⟨block, delay, config.deallocationDelay⟩ slashable p m)
      (fun _ => Matched config block) (fun _ _ => True) := by
  refine Agree.bind (agree_settleAccount p.account) fun _ => Agree.get_bind ?_
  intro b b' hb
  rcases hb with ⟨h, hcleared, hcleared'⟩
  have hsettled := h.left.settled_of_cleared hcleared
  have hsettled' := h.right.settled_of_cleared hcleared'
  rw [h.alike.capacity_eq h.left h.right hcleared hcleared', h.alike.allocation] at hsettled'
  dsimp only
  rw [hsettled, hsettled']
  refine Agree.bind (M := fun r t t' => r = (b.capacity p.account, (b.allocation p).asOf block) ∧
    b = t ∧ b' = t') (Agree.ofExcept ?_ fun _ _ _ => trivial) ?_
  · rintro _ _ _ ⟨⟩ hread
    exact ⟨rfl, hread⟩
  intro settled
  rcases settled with ⟨c, al⟩
  refine Agree.given fun hread => ?_
  rw [← hread] at hsettled hsettled'
  refine Agree.ite (fun _ => Agree.throw_bind fun _ _ _ => trivial) fun hidle => ?_
  refine Agree.ite (fun _ => Agree.throw_bind fun _ _ _ => trivial) fun hne => ?_
  refine Agree.ite (fun hup => ?_) fun hup => ?_
  · refine Agree.ite (fun _ => Agree.throw_bind fun _ _ _ => trivial) fun hfree => ?_
    rw [UInt64.not_lt] at hfree
    refine Agree.bind (agree_effectAfter delay) fun effectBlock => Agree.given fun _ =>
      Agree.bind (Agree.modify ?_) fun _ => Agree.pure fun _ _ hstored => hstored
    intro w w' hw
    rcases hw with ⟨rfl, rfl⟩
    exact ⟨h.left.store_allocation hcleared hsettled hidle hup hfree,
      h.right.store_allocation hcleared' hsettled' hidle hup hfree, h.alike.store _ _ _ _⟩
  · have hdown : m < al.current := UInt64.lt_of_le_of_ne (UInt64.not_lt.1 hup) hne
    apply Agree.get_bind
    intro w w' hw
    rcases hw with ⟨rfl, rfl⟩
    rw [h.alike.terms.strategiesOf]
    refine Agree.ite (fun _ => ?_) fun _ => ?_
    · refine Agree.bind (agree_effectAfter config.deallocationDelay) fun effectBlock =>
        Agree.given fun heffect => Agree.bind (Agree.modify ?_) fun _ =>
          Agree.pure fun _ _ hstored => hstored
      intro w w' hw
      rcases hw with ⟨rfl, rfl⟩
      exact ⟨h.left.store_deallocation hcleared hsettled hidle hdown heffect,
        h.right.store_deallocation hcleared' hsettled' hidle hdown heffect,
        (h.alike.enqueue p.account p.set).store _ _ _ _⟩
    · cases hshift : Magnitude.shift? c.encumbered (Magnitude.changeTo al.current m) with
      | none => exact Agree.throw fun _ _ _ => trivial
      | some encumbered =>
        refine Agree.bind (Agree.modify ?_) fun _ => Agree.pure fun _ _ hstored => hstored
        intro w w' hw
        rcases hw with ⟨rfl, rfl⟩
        exact ⟨h.left.store_release hcleared hsettled hidle hdown hshift,
          h.right.store_release hcleared' hsettled' hidle hdown hshift, h.alike.store _ _ _ _⟩

theorem agree_applyRequest (delay : BlockNumber) (operator : Address) (r : AllocateRequest) :
    Agree (Matched config block)
      (applyRequest ⟨block, delay, config.deallocationDelay⟩ operator r)
      (applyRequest ⟨block, delay, config.deallocationDelay⟩ operator r)
      (fun _ => Matched config block) (fun _ _ => True) := by
  refine Agree.ite (fun _ => ?_) fun _ => Agree.throw_bind fun _ _ _ => trivial
  refine Agree.bind (agree_requireSet r.set) fun _ => Agree.read_bind fun b b' h => ?_
  have hslashable : b'.isSlashable ⟨operator, r.set⟩ block = b.isSlashable ⟨operator, r.set⟩ block :=
    h.alike.terms.isSlashable_eq _
  dsimp only
  rw [hslashable]
  exact Agree.mapM fun _ _ => agree_modifyAllocation delay _ _ _

theorem agree_modifyAllocations (operator : Address) (requests : List AllocateRequest) :
    Agree (Matched config block) (modifyAllocations config block operator requests)
      (modifyAllocations config block operator requests) (fun _ => Matched config block)
      (fun _ _ => True) := by
  refine Agree.read_bind fun b b' h => ?_
  have hdelay : b'.effectiveDelay operator block = b.effectiveDelay operator block :=
    h.alike.terms.effectiveDelay_eq operator
  rw [hdelay]
  refine Agree.bind (Agree.ofExcept (fun _ _ _ _ hb => hb) fun _ _ _ => trivial) fun delay => ?_
  exact Agree.bind (Agree.mapM fun r _ => agree_applyRequest delay operator r) fun _ =>
    Agree.pure fun _ _ hb => hb

/-- On well-kept books a cut always goes through. -/
theorem WellKept.cut_succeeds (h : WellKept config block b) (p : Position) {w : UInt64}
    (hw : w < wad) : ∃ r b', Books.cut p w block b = .ok r b' := by
  obtain ⟨c, hsettled⟩ := h.balanced.settled_ok p block
  obtain ⟨hsound, -, -, hheld⟩ := h.balanced.of_settled hsettled
  have hle := h.balanced.held_le p
  rw [Books.cut, get_bind_apply, if_apply]
  by_cases hstrategy : (b.strategiesOf p.set).contains p.strategy
  · rw [if_pos hstrategy, get_bind_apply, hsettled]
    generalize (b.allocation p).asOf block = al at hsound hheld
    rw [ofExcept_bind_apply]
    dsimp only
    rw [if_apply]
    by_cases hcurrent : al.current = 0
    · rw [if_pos hcurrent]
      exact ⟨none, b, rfl⟩
    · have hpart := UInt64.le_iff_toNat_le.1
        (Magnitude.scale_le (m := al.current) (UInt64.le_of_lt hw))
      have hlt := c.encumbered.toNat_lt
      have hshift : Magnitude.shift? c.encumbered (-(Magnitude.scale al.current w).toNat) =
          some (c.encumbered - Magnitude.scale al.current w) := by
        unfold Allocation.held at hle hheld
        rw [Magnitude.shift?_eq_some_iff, UInt64.toNat_sub_of_le]
        · omega
        · rw [UInt64.le_iff_toNat_le]
          omega
      obtain ⟨pending, hpending⟩ := cutPending_succeeds hsound
        (al.current - Magnitude.scale al.current w) w
      rw [if_neg hcurrent, hshift]
      dsimp only
      rw [hpending, ofExcept_bind_apply]
      exact ⟨_, _, rfl⟩
  · rw [if_neg hstrategy]
    exact ⟨none, b, rfl⟩

theorem agree_cut (p : Position) {w : UInt64} (hw : w < wad) :
    Agree (Matched config block) (cut p w block) (cut p w block) (fun _ => Matched config block)
      (fun _ _ => True) := by
  intro b b' h
  obtain ⟨r, b₁, hok⟩ := h.left.cut_succeeds p hw
  obtain ⟨r', b₁', hok'⟩ := h.right.cut_succeeds p hw
  rw [hok, hok']
  rcases cut_ok hok with
    ⟨rfl, rfl, hnone⟩ |
    ⟨c, al, encumbered, pending, hstrategy, hsettled, hcurrent, hshift, hpending, rfl, rfl⟩
  · rcases cut_ok hok' with ⟨rfl, rfl, -⟩ | ⟨c', al', _, _, hstrategy', hsettled', hcurrent', -⟩
    · exact ⟨rfl, h⟩
    · rw [h.alike.terms.strategiesOf] at hstrategy'
      rw [(b'.settled_eq_ok.1 hsettled').1, h.alike.allocation] at hcurrent'
      exact absurd ⟨hstrategy', hcurrent'⟩ hnone
  · rcases cut_ok hok' with
      ⟨rfl, rfl, hnone'⟩ |
      ⟨c', al', encumbered', pending', -, hsettled', -, hshift', hpending', rfl, rfl⟩
    · rw [(b.settled_eq_ok.1 hsettled).1, ← h.alike.allocation] at hcurrent
      rw [← h.alike.terms.strategiesOf] at hstrategy
      exact absurd ⟨hstrategy, hcurrent⟩ hnone'
    · obtain ⟨hal, hmax, -⟩ := b.settled_eq_ok.1 hsettled
      obtain ⟨hal', hmax', -⟩ := b'.settled_eq_ok.1 hsettled'
      obtain rfl : al' = al := by rw [hal, hal', h.alike.allocation]
      obtain rfl : pending' = pending := Except.ok.inj (hpending'.symm.trans hpending)
      have hmatched : Matched config block _ _ :=
        ⟨h.left.cut hw hsettled hshift hpending, h.right.cut hw hsettled' hshift' hpending,
          (h.alike.store p _ _ _).reduceMax _ _⟩
      refine ⟨?_, hmatched⟩
      rw [hmatched.alike.maxMagnitude, hmax, hmax', h.alike.maxMagnitude]

end Magnitudes

end Restake.Books
