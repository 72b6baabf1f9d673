import Restake.Proofs.Observation
import Restake.Proofs.Snapshots
import Restake.Proofs.Traffic

/-!
The capacity of an account that is free as of a block: its max without what its positions hold once
the changes that are due have been made. A slash takes as much off the max as off the position that
it cuts, and it frees nothing, whether a deallocation that is due has been written down before or
only the slash writes it down. The entry of such a deallocation stays in the queue, where nothing
is given up for it any more.
-/
namespace Restake

open Steps

namespace Books

variable {b b' b'' : Books} {config : Config} {block : BlockNumber} {p : Position} {w : UInt64}

/-- What the positions of an account hold as of a block in all sets together. -/
noncomputable def heldAsOf (b : Books) (a : Account) (block : BlockNumber) : Nat :=
  ∑ s : OperatorSet, ((b.allocation (a.position s)).asOf block).held

/-- From `b` to `b'` no other membership has lost anything, no queue has moved, and no capacity has
become free or been taken. -/
structure Spared (member : Membership) (block : BlockNumber) (b b' : Books) : Prop where
  queue : b'.queue = b.queue
  allocation : ∀ p, p.membership ≠ member → b'.allocation p = b.allocation p
  free : ∀ a, (b'.maxMagnitude a).toNat + b.heldAsOf a block =
    (b.maxMagnitude a).toNat + b'.heldAsOf a block

namespace Spared

variable {member : Membership}

theorem of_magnitudes (h : SameMagnitudes b b') : Spared member block b b' where
  queue := h.queue
  allocation p _ := congrFun h.allocation p
  free a := by rw [heldAsOf, heldAsOf, h.maxMagnitude, h.allocation]

theorem trans (h : Spared member block b b') (h' : Spared member block b' b'') :
    Spared member block b b'' where
  queue := h'.queue.trans h.queue
  allocation p hp := (h'.allocation p hp).trans (h.allocation p hp)
  free a := by
    have hfirst := h.free a
    have hsecond := h'.free a
    omega

end Spared

/-- What an account has encumbered follows from what is allocated to it. -/
theorem SameAccount.encumberedMagnitude_eq {a : Account} (hsame : SameAccount a b b')
    (h : b.Balanced) (h' : b'.Balanced) : b'.encumberedMagnitude a = b.encumberedMagnitude a := by
  rw [← UInt64.toNat_inj, h.conserved, h'.conserved]
  exact Finset.sum_congr rfl fun s _ => by rw [hsame.allocation]

section Cut

variable {c : Capacity} {al : Allocation} {encumbered : Magnitude} {pending : Int}

/-- What a cut leaves is not due, as what it found was read as of the block. -/
theorem asOf_cut (hsettled : b.settled p block = .ok (c, al)) {left : Magnitude}
    (hpending : cutPending { al with current := left } w = .ok pending) :
    Allocation.asOf { al with current := left, pending } block =
      { al with current := left, pending } := by
  obtain ⟨rfl, -⟩ := b.settled_eq_ok.1 hsettled
  by_cases hlater : block < ((b.allocation p).asOf block).effectBlock
  · exact Allocation.asOf_of_lt hlater
  · rw [Allocation.effectBlock_asOf] at hlater
    have hidle := Allocation.pending_asOf (UInt32.not_lt.1 hlater)
    apply Allocation.asOf_of_idle
    rcases cutPending_ok hpending with ⟨-, rfl⟩ | ⟨hdown, -⟩
    · exact hidle
    · exact absurd hidle (Int.ne_of_lt hdown)

/-- The position loses what the cut takes, and so does what is encumbered. -/
theorem WellKept.held_cut (h : WellKept config block b) (hw : w < wad)
    (hsettled : b.settled p block = .ok (c, al))
    (hshift : Magnitude.shift? c.encumbered (-(Magnitude.scale al.current w).toNat) =
      some encumbered)
    (hpending : cutPending { al with current := al.current - Magnitude.scale al.current w } w =
      .ok pending) :
    Allocation.held { al with current := al.current - Magnitude.scale al.current w, pending } +
      (Magnitude.scale al.current w).toNat = al.held := by
  obtain ⟨-, -, -, hheld⟩ := h.balanced.of_settled hsettled
  have hconserved := h.balanced.conserved p.account
  have htotal := b.totalHeld_store p { c with encumbered }
    { al with current := al.current - Magnitude.scale al.current w, pending }
  have hafter : ((b.store p { c with encumbered } { al with
      current := al.current - Magnitude.scale al.current w, pending }).encumberedMagnitude
        p.account).toNat = (b.store p { c with encumbered } { al with
      current := al.current - Magnitude.scale al.current w, pending }).totalHeld p.account :=
    (h.cut hw hsettled hshift hpending).balanced.conserved p.account
  rw [encumberedMagnitude_store, if_pos rfl] at hafter
  dsimp only at hafter
  have hshift := Magnitude.shift?_eq_some_iff.1 hshift
  omega

theorem WellKept.spared_cut (h : WellKept config block b) (hw : w < wad)
    (hsettled : b.settled p block = .ok (c, al))
    (hshift : Magnitude.shift? c.encumbered (-(Magnitude.scale al.current w).toNat) =
      some encumbered)
    (hpending : cutPending { al with current := al.current - Magnitude.scale al.current w } w =
      .ok pending) :
    Spared p.membership block b ((b.store p { c with encumbered }
      { al with current := al.current - Magnitude.scale al.current w, pending }).reduceMax p.account
        (Magnitude.scale al.current w) block) where
  queue := (store_frame b _ _ _).2.2.1
  allocation q hq := by
    rw [allocation_reduceMax, allocation_store, if_neg fun hp => hq (congrArg _ hp).symm]
  free a := by
    rw [maxMagnitude_reduceMax, (store_frame b _ _ _).1, heldAsOf, heldAsOf, allocation_reduceMax]
    by_cases ha : p.account = a
    · subst a
      have hheld := h.held_cut hw hsettled hshift hpending
      have hsum := sum_allocation_store (fun al => (al.asOf block).held) b p { c with encumbered }
        { al with current := al.current - Magnitude.scale al.current w, pending }
      rw [asOf_cut hsettled hpending, ← (b.settled_eq_ok.1 hsettled).1] at hsum
      have hle := UInt64.le_iff_toNat_le.1 (h.current_asOf_le p)
      have hpart := UInt64.le_iff_toNat_le.1
        (Magnitude.scale_le (m := al.current) (UInt64.le_of_lt hw))
      rw [← (b.settled_eq_ok.1 hsettled).1] at hle
      rw [if_pos rfl, Magnitude.toNat_monus]
      omega
    · rw [if_neg ha]
      congr 1
      refine (Finset.sum_congr rfl fun s _ => ?_).symm
      rw [allocation_store, if_neg fun hp => ha (position_eq_iff.1 hp.symm).1.symm]

end Cut

/-- What a slash posts spares the other memberships and frees nothing. -/
theorem WellKept.spared_posts (h : WellKept config block b) {avs : Address} {r : SlashRequest}
    {e : Entry} (hmay : (Call.slashOperator avs r).mayPost e) (hpost : Posts config block e b b') :
    Spared ⟨r.operator, ⟨avs, r.setId⟩⟩ block b b' := by
  cases hpost with
  | countSlash => exact .of_magnitudes ⟨rfl, rfl, rfl, rfl⟩
  | logSlash => exact .of_magnitudes ⟨rfl, rfl, rfl, rfl⟩
  | cut hwad _ _ hsettled _ hshift hpending =>
    rw [← hmay.1]
    exact h.spared_cut hwad.2 hsettled hshift hpending
  | _ => exact hmay.elim

end Books

namespace Manager

open Books

variable {δ ρ π : Type} {m : Manager δ ρ π}

/-- What is free is the max without what is held as of the block. -/
theorem toNat_allocatableMagnitude (h : WellKept m.config m.block m.books) (a : Account) :
    (m.allocatableMagnitude a).toNat =
      (m.books.maxMagnitude a).toNat - m.books.heldAsOf a m.block := by
  rw [allocatableMagnitude, Magnitude.toNat_monus, encumberedAfter_toNat h]
  rfl

variable [DelegationLedger δ] [SetRegistrar ρ] [PermissionController π]

/-- A call to slash spares the other memberships and frees nothing, also where it fails. -/
theorem Reachable.spared_after_slash (h : m.Reachable) (caller avs : Address) (r : SlashRequest) :
    Spared ⟨r.operator, ⟨avs, r.setId⟩⟩ m.block m.books
      (m.after (.call caller (.slashOperator avs r))).books := by
  rcases after_call h.idle caller (.slashOperator avs r) with
    ⟨-, b, delegation, registrar, tally, hafter, hpost⟩ | ⟨delegation, registrar, hafter⟩
  · rw [hafter]
    have hsame : SameMagnitudes m.books m.books.checkpoint :=
      (sameReads_checkpoint m.books).toSameMagnitudes
    have hall := hpost.keeps (P := fun b => WellKept m.config m.block b ∧
        Spared ⟨r.operator, ⟨avs, r.setId⟩⟩ m.block m.books b)
      (fun e b b' hmay hposts hb =>
        ⟨hb.1.posts hposts, hb.2.trans (hb.1.spared_posts hmay hposts)⟩)
      ⟨h.wellKept.of_magnitudes hsame, .of_magnitudes hsame⟩
    exact hall.2.trans (.of_magnitudes (sameReads_commit b).toSameMagnitudes)
  · rw [hafter]
    exact .of_magnitudes ⟨rfl, rfl, rfl, rfl⟩

/-- An account that a slash has no leg for is left as it was. -/
theorem Reachable.sameAccount_of_no_leg (h : m.Reachable) {caller avs : Address} {r : SlashRequest}
    {outcome : SlashOutcome} (hslash :
      (m.attempt (perform caller (.slashOperator avs r))).1 = .ok (.slashed outcome)) {a : Account}
    (ha : a.operator ≠ r.operator ∨ a.strategy ∉ outcome.legs.map SlashLeg.strategy) :
    SameAccount a m.books (m.after (.call caller (.slashOperator avs r))).books := by
  apply h.sameAccount_after_slash
  rintro ⟨caller', avs', r', outcome', hmove, hslash', hoperator, hstrategy⟩
  cases hmove
  rw [hslash] at hslash'
  cases hslash'
  exact ha.elim (fun hne => hne hoperator.symm) fun hnot => hnot hstrategy

/-- A slash reaches no further than its own legs and frees nothing. The allocations of another set,
of another operator or of a strategy that it takes nothing from stay as they are, and so do all
queues; max and encumbered magnitudes change on the accounts of its legs alone; and everywhere as
much is free to allocate as before, even where the slash completes a deallocation that was due. -/
theorem Reachable.slash_frees_nothing (h : m.Reachable) {caller avs : Address} {r : SlashRequest}
    {outcome : SlashOutcome} (hslash :
      (m.attempt (perform caller (.slashOperator avs r))).1 = .ok (.slashed outcome)) :
    let m' := m.after (.call caller (.slashOperator avs r))
    (∀ p, (p.membership ≠ ⟨r.operator, ⟨avs, r.setId⟩⟩ ∨
        p.strategy ∉ outcome.legs.map SlashLeg.strategy) →
      m'.books.allocation p = m.books.allocation p) ∧
      (∀ a, m'.books.queued a = m.books.queued a) ∧
      (∀ a, (a.operator ≠ r.operator ∨ a.strategy ∉ outcome.legs.map SlashLeg.strategy) →
        m'.books.maxMagnitude a = m.books.maxMagnitude a ∧
          m'.books.encumberedMagnitude a = m.books.encumberedMagnitude a) ∧
      ∀ a, m'.allocatableMagnitude a = m.allocatableMagnitude a := by
  intro m'
  have hreachable : m'.Reachable := h.after _
  have hspared : Spared ⟨r.operator, ⟨avs, r.setId⟩⟩ m.block m.books m'.books :=
    h.spared_after_slash caller avs r
  refine ⟨fun p hp => ?_, fun a => ?_, fun a ha => ?_, fun a => ?_⟩
  · by_cases hmember : p.membership = ⟨r.operator, ⟨avs, r.setId⟩⟩
    · have hsame : SameAccount p.account m.books m'.books :=
        h.sameAccount_of_no_leg hslash (.inr (hp.resolve_left fun hne => hne hmember))
      exact hsame.allocation p.set
    · exact hspared.allocation p hmember
  · rw [queued, queued, hspared.queue]
  · have hsame : SameAccount a m.books m'.books := h.sameAccount_of_no_leg hslash ha
    exact ⟨hsame.maxMagnitude, hsame.encumberedMagnitude_eq h.balanced hreachable.balanced⟩
  · have hblock : m'.block = m.block := block_after_call h.idle
    have hfree := hspared.free a
    rw [← UInt64.toNat_inj, toNat_allocatableMagnitude h.wellKept,
      toNat_allocatableMagnitude hreachable.wellKept, hblock]
    omega

/-- The slash completes the deallocation that is due, halves what is left and leaves its entry in
the queue; 200 less than before are encumbered and 200 less is the max. -/
theorem slash_frees_nothing_matured :
    let slash : Move LocalDelegation LocalRegistrar LocalPermissions :=
      .call Sample.avs (.slashOperator Sample.avs Sample.halving)
    (Sample.matured.after slash).books.queued Sample.position.account = [Sample.position.set] ∧
      Sample.matured.allocatableMagnitude Sample.position.account = wad - 400 ∧
      (Sample.matured.after slash).allocatableMagnitude Sample.position.account = wad - 400 ∧
      (Sample.matured.after slash).books.maxMagnitude Sample.position.account = wad - 200 := by
  intro slash
  have hreachable : Sample.matured.Reachable := Sample.reachable.run _
  have hslash : (Sample.matured.attempt
      (perform Sample.avs (.slashOperator Sample.avs Sample.halving))).1 =
        .ok (.slashed ⟨1, [⟨Sample.position.strategy, 200, 200⟩]⟩) := by decide +kernel
  obtain ⟨-, hqueued, -, hfree⟩ := hreachable.slash_frees_nothing hslash
  have hbefore : Sample.matured.allocatableMagnitude Sample.position.account = wad - 400 := by
    decide +kernel
  have hentry : Sample.matured.books.queued Sample.position.account = [Sample.position.set] := by
    decide +kernel
  exact ⟨(hqueued _).trans hentry, hbefore, (hfree _).trans hbefore, by decide +kernel⟩

end Manager

end Restake
