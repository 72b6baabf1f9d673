import Restake.Proofs.Drift

/-!
The stake behind allocations. The magnitudes that the sets of an account see in force fit under its
max together, so the stakes that they stand for fit into its shares, however large the products
are. A slash lowers the max of an account and its shares in proportion, up to rounding in favour of
the shares; so the stake behind the allocation to another set stays, or grows by one share.
-/
namespace Restake

theorem Allocation.Sound.current_asOf_le_held {a : Allocation} (h : a.Sound) (block : BlockNumber) :
    (a.asOf block).current.toNat ≤ a.held := by
  have hheld := h.held_asOf block
  unfold held at hheld ⊢
  omega

namespace Shares

variable {ι : Type} {part : ι → Magnitude} {whole : Magnitude}

theorem portion_zero_whole (s : Shares) (p : Magnitude) : s.portion p 0 = 0 := if_pos rfl

/-- Portions are rounded down, so together they are no more than the portion of all parts. -/
theorem sum_portion_mul_le (s : Shares) (l : List ι) :
    (l.map fun i => (s.portion (part i) whole).toNat).sum * whole.toNat ≤
      s.toNat * (l.map fun i => (part i).toNat).sum := by
  induction l with
  | nil => simp
  | cons i l ih =>
    have hi := s.toNat_portion_mul_le (part i) whole
    simp only [List.map_cons, List.sum_cons]
    linarith

theorem sum_portion_le (s : Shares) {l : List ι}
    (hparts : (l.map fun i => (part i).toNat).sum ≤ whole.toNat) :
    (l.map fun i => (s.portion (part i) whole).toNat).sum ≤ s.toNat := by
  rcases Nat.eq_zero_or_pos whole.toNat with hzero | hpos
  · have hwhole : whole = 0 := UInt64.toNat_inj.1 hzero
    simp [hwhole, portion_zero_whole]
  · refine Nat.le_of_mul_le_mul_right ?_ hpos
    exact (sum_portion_mul_le s l).trans (Nat.mul_le_mul_left _ hparts)

end Shares

/-- What is left of a balance ahead of its max is too little to lift the stake behind a part of the
max by more than one share. -/
theorem Drift.stake {legs s max s' max' part : ℕ} (h : Drift legs s max s' max') (hlegs : legs ≤ 1)
    (hfits : s * wad.toNat < 2 ^ 256) (hpart : part ≤ max') :
    s * part / max ≤ s' * part / max' ∧ s' * part / max' ≤ s * part / max + 1 := by
  rcases Nat.eq_zero_or_pos max with hzero | hpos
  · have hzero' : max' = 0 := Nat.le_zero.1 (hzero ▸ h.max_le)
    simp [hzero, hzero']
  · have hpos' := h.pos hpos
    constructor
    · rw [Nat.le_div_iff_mul_le hpos']
      refine Nat.le_of_mul_le_mul_right ?_ hpos
      calc s * part / max * max' * max = s * part / max * max * max' := by ring
        _ ≤ s * part * max' := Nat.mul_le_mul_right _ (Nat.div_mul_le_self _ _)
        _ = s * max' * part := by ring
        _ ≤ s' * max * part := Nat.mul_le_mul_right _ h.ahead
        _ = s' * part * max := by ring
    · rw [← Nat.add_div_right _ hpos, Nat.le_div_iff_mul_le hpos]
      refine Nat.le_of_mul_le_mul_right ?_ hpos'
      calc s' * part / max' * max * max' = s' * part / max' * max' * max := by ring
        _ ≤ s' * part * max := Nat.mul_le_mul_right _ (Nat.div_mul_le_self _ _)
        _ = s' * max * part := by ring
        _ ≤ (s * max' + legs * max) * part := Nat.mul_le_mul_right _ (h.near hfits)
        _ ≤ (s * max' + 1 * max) * part := by gcongr
        _ = s * part * max' + max * part := by ring
        _ ≤ s * part * max' + max * max' := by gcongr
        _ = (s * part + max) * max' := by ring

namespace Sample

/-- The same strategy in a second set. -/
def other : Position := ⟨⟨operator, ⟨avs, 2⟩⟩, position.strategy⟩

/-- The operator divides its capacity between two sets. -/
def sharing {δ ρ π : Type} : List (Move δ ρ π) :=
  [.call operator (.setAllocationDelay operator 2),
    .call avs (.createOperatorSets avs [⟨1, [position.strategy]⟩, ⟨2, [position.strategy]⟩]),
    .call operator (.registerForOperatorSets operator ⟨avs, [1, 2], []⟩),
    .setBlock 5,
    .call operator (.modifyAllocations operator
      [⟨position.set, [position.strategy], [500000000000000000]⟩,
        ⟨other.set, [position.strategy], [500000000000000000]⟩]),
    .setBlock 7]

/-- A slash of half of what the first set holds. -/
def quartering : SlashRequest := ⟨operator, 1, [position.strategy], [500000000000000000], ""⟩

/-- An operator with so many shares that no product with them fits in a word. -/
def vast : LocalManager := .opened config [⟨operator, [⟨position.strategy, .allOnes 256⟩]⟩]

theorem reachable_vast : vast.Reachable := Manager.Reachable.fresh _ _ _ _

end Sample

/-- Legs in distinct strategies fall on different accounts. -/
theorem length_legsAt_le {operator : Address} {legs : List SlashLeg}
    (hdistinct : (legs.map SlashLeg.strategy).Nodup) (a : Account) :
    (legsAt operator legs a).length ≤ 1 := by
  by_cases ha : a.operator = operator ∧ a.strategy ∈ legs.map SlashLeg.strategy
  · obtain ⟨hoperator, hstrategy⟩ := ha
    obtain ⟨leg, hleg, hx⟩ := List.mem_map.1 hstrategy
    obtain rfl : a = ⟨operator, leg.strategy⟩ := by rw [hx, ← hoperator]
    rw [legsAt_eq_singleton hdistinct hleg]
    exact le_rfl
  · rw [legsAt_eq_nil fun hoperator hstrategy => ha ⟨hoperator, hstrategy⟩]
    exact Nat.zero_le _

namespace Manager

open Books

section Promises

variable {δ ρ π : Type} {m : Manager δ ρ π} {a : Account} {sets : List OperatorSet}

/-- What distinct sets see in force is part of what is encumbered. -/
theorem sum_current_le (h : m.books.Balanced) (hdistinct : sets.Nodup) :
    (sets.map fun s => (m.allocation (a.position s)).current.toNat).sum ≤
      (m.books.maxMagnitude a).toNat := by
  calc (sets.map fun s => (m.allocation (a.position s)).current.toNat).sum
      ≤ (sets.map fun s => (m.books.allocation (a.position s)).held).sum :=
        List.sum_le_sum fun s _ => (h.sound (a.position s)).current_asOf_le_held m.block
    _ = ∑ s ∈ sets.toFinset, (m.books.allocation (a.position s)).held :=
        (List.sum_toFinset _ hdistinct).symm
    _ ≤ ∑ s : OperatorSet, (m.books.allocation (a.position s)).held :=
        Finset.sum_le_sum_of_subset (Finset.subset_univ _)
    _ = (m.books.encumberedMagnitude a).toNat := (h.conserved a).symm
    _ ≤ (m.books.maxMagnitude a).toNat := UInt64.le_iff_toNat_le.1 (h.fits a)

theorem lastingMagnitude_le_current (h : m.books.Balanced) (p : Position) (future : BlockNumber) :
    m.lastingMagnitude p future ≤ (m.allocation p).current := by
  have htarget := ((h.sound p).asOf m.block).toNat_target
  unfold lastingMagnitude allocation
  dsimp only
  split
  next hdown =>
    simp only [Allocation.isDeallocating, Bool.and_eq_true, decide_eq_true_eq] at hdown
    rw [UInt64.le_iff_toNat_le]
    omega
  next => exact UInt64.le_refl _

variable [DelegationLedger δ]

/-- Stakes that distinct sets are given for no more than they see in force fit into the shares. -/
theorem sum_stakeOf_le (h : m.books.Balanced) (hdistinct : sets.Nodup)
    {part : OperatorSet → Magnitude} (hpart : ∀ s, part s ≤ (m.allocation (a.position s)).current) :
    (sets.map fun s => (m.stakeOf a (part s)).toNat).sum ≤
      (DelegationLedger.shares m.delegation a).toNat := by
  refine Shares.sum_portion_le _ (le_trans ?_ (sum_current_le h hdistinct))
  exact List.sum_le_sum fun s _ => UInt64.le_iff_toNat_le.1 (hpart s)

theorem toNat_minimumSlashableStake_le (m : Manager δ ρ π) (p : Position) (future : BlockNumber) :
    (m.minimumSlashableStake p future).toNat ≤
      (m.stakeOf p.account (m.lastingMagnitude p future)).toNat := by
  unfold minimumSlashableStake
  split
  · exact le_rfl
  · exact Nat.zero_le _

variable [SetRegistrar ρ] [PermissionController π]

/-- The stakes allocated to distinct sets come to no more than the shares that there are, and so do
those that are sure to stay slashable. -/
theorem Reachable.stake_promised_once (h : m.Reachable) (a : Account) {sets : List OperatorSet}
    (hdistinct : sets.Nodup) :
    (sets.map fun s => (m.allocatedStake (a.position s)).toNat).sum ≤
        (DelegationLedger.shares m.delegation a).toNat ∧
      ∀ future, (sets.map fun s => (m.minimumSlashableStake (a.position s) future).toNat).sum ≤
        (DelegationLedger.shares m.delegation a).toNat := by
  have hallocated : (sets.map fun s => (m.stakeOf a (m.allocation (a.position s)).current).toNat).sum
      ≤ (DelegationLedger.shares m.delegation a).toNat :=
    sum_stakeOf_le h.balanced hdistinct fun _ => UInt64.le_refl _
  have hlasting (future : BlockNumber) :
      (sets.map fun s => (m.stakeOf a (m.lastingMagnitude (a.position s) future)).toNat).sum
        ≤ (DelegationLedger.shares m.delegation a).toNat :=
    sum_stakeOf_le h.balanced hdistinct fun s => lastingMagnitude_le_current h.balanced _ future
  refine ⟨hallocated, fun future => le_trans ?_ (hlasting future)⟩
  exact List.sum_le_sum fun s _ => toNat_minimumSlashableStake_le m (a.position s) future

/-- Two sets share the most shares that there can be. -/
theorem stake_promised_once_vast :
    ([1, 2].map fun id => ((Sample.vast.run Sample.sharing).allocatedStake
        (Sample.position.account.position ⟨Sample.avs, id⟩)).toNat).sum ≤ 2 ^ 256 - 1 := by
  have hdistinct : ([⟨Sample.avs, 1⟩, ⟨Sample.avs, 2⟩] : List OperatorSet).Nodup := by decide
  have hshares : DelegationLedger.shares (Sample.vast.run Sample.sharing).delegation
      Sample.position.account = .allOnes 256 := by decide +kernel
  have hpromised := ((Sample.reachable_vast.run Sample.sharing).stake_promised_once
    Sample.position.account hdistinct).1
  rwa [hshares, BitVec.toNat_allOnes] at hpromised

end Promises

section Bystanders

variable {ρ π : Type} [SetRegistrar ρ] [PermissionController π] {m : Manager LocalDelegation ρ π}

/-- A slash cuts no allocation to another set. -/
theorem allocation_after_slash (hidle : m.books.Idle) (caller : Address) {avs : Address}
    {r : SlashRequest} {p : Position} (hother : p.set ≠ ⟨avs, r.setId⟩) :
    (m.after (.call caller (.slashOperator avs r))).allocation p = m.allocation p := by
  have hlasts : Lasts fun _ b => b.allocation p = m.books.allocation p :=
    { reads := fun hreads h => by rwa [hreads.allocation], later := fun _ h => h }
  have hposts : ∀ {block e b b'}, (Call.slashOperator avs r).mayPost e →
      Posts m.config block e b b' → b.allocation p = m.books.allocation p →
        b'.allocation p = m.books.allocation p := by
    intro block e b b' hmay hpost h
    cases hpost with
    | countSlash => exact h
    | logSlash => exact h
    | @cut b q w _ _ _ _ _ _ _ _ _ _ _ =>
      have hq : q ≠ p := fun hq => hother (hq ▸ congrArg Membership.set hmay.1)
      rw [allocation_reduceMax, allocation_store, if_neg hq, h]
    | _ => exact hmay.elim
  have hbooks : (m.after (.call caller (.slashOperator avs r))).books.allocation p =
      m.books.allocation p := by
    refine after_keeps hidle hlasts.persists hposts ?_ rfl
    rintro caller c hmove - e hmay
    cases hmove
    exact hmay
  have hblock : (m.after (.call caller (.slashOperator avs r))).block = m.block := by
    rcases after_call hidle caller (.slashOperator avs r) with
      ⟨-, b, delegation, registrar, tally, hafter, -⟩ | ⟨delegation, registrar, hafter⟩ <;>
      rw [hafter]
  rw [allocation, allocation, hbooks, hblock]

/-- A slash makes one leg on an account at the most. -/
theorem length_legsOn_slash_le (h : m.Reachable) (caller avs : Address) (r : SlashRequest)
    (a : Account) : (m.legsOn a (.call caller (.slashOperator avs r))).length ≤ 1 := by
  rw [legsOn]
  rcases slash_shares_cases h caller avs r with
    ⟨e, m', hslash, -⟩ | ⟨id, m', hslash, -, hdistinct, -⟩
  · rw [hslash]
    exact Nat.zero_le _
  · rw [hslash]
    apply length_legsAt_le
    rwa [strategy_legOf]

/-- A slash in one set leaves the stake behind an allocation to another as it was, or adds one share
to it. -/
theorem Reachable.slash_spares_others (h : m.Reachable) (caller : Address) {avs : Address}
    {r : SlashRequest} {p : Position} (hother : p.set ≠ ⟨avs, r.setId⟩)
    (hfits : (m.delegation.shares p.account).toNat * wad.toNat < 2 ^ 256) :
    (m.allocatedStake p).toNat ≤
        ((m.after (.call caller (.slashOperator avs r))).allocatedStake p).toNat ∧
      ((m.after (.call caller (.slashOperator avs r))).allocatedStake p).toNat ≤
        (m.allocatedStake p).toNat + 1 := by
  have hafter := h.after (.call caller (.slashOperator avs r))
  have hdrift := (follows_slash h caller avs r p.account).drift
  have hlegs := length_legsOn_slash_le h caller avs r p.account
  have hallocation := allocation_after_slash h.idle caller hother
  generalize m.after (.call caller (.slashOperator avs r)) = m' at hafter hdrift hallocation ⊢
  have hpart : (m.allocation p).current.toNat ≤ (m'.books.maxMagnitude p.account).toNat := by
    rw [← hallocation]
    exact UInt64.le_iff_toNat_le.1 (hafter.wellKept.current_asOf_le p)
  have hwad : (m.allocation p).current.toNat ≤ wad.toNat :=
    UInt64.le_iff_toNat_le.1
      (UInt64.le_trans (h.wellKept.current_asOf_le p) (h.balanced.ceiling p.account))
  -- neither product leaves the range of a word
  have hproduct {s : Shares} (hs : s.toNat ≤ (m.delegation.shares p.account).toNat) :
      s.toNat * (m.allocation p).current.toNat < 1 <<< 256 := by
    rw [Nat.shiftLeft_eq, Nat.one_mul]
    exact (Nat.mul_le_mul hs hwad).trans_lt hfits
  have hstake : (m.allocatedStake p).toNat = (m.delegation.shares p.account).toNat *
      (m.allocation p).current.toNat / (m.books.maxMagnitude p.account).toNat :=
    Shares.toNat_portion (hproduct le_rfl)
  have hstake' : (m'.allocatedStake p).toNat = (m'.delegation.shares p.account).toNat *
      (m.allocation p).current.toNat / (m'.books.maxMagnitude p.account).toNat := by
    rw [allocatedStake, hallocation]
    exact Shares.toNat_portion (hproduct hdrift.shares_le)
  rw [hstake, hstake']
  exact hdrift.stake hlegs hfits hpart

/-- Of seven shares three stand behind half of the max; a quarter of the max is slashed for one
share, and four stand behind the same half. -/
theorem slash_spares_others_quartering :
    ((Sample.few.run Sample.sharing).allocatedStake Sample.other).toNat = 3 ∧
      3 ≤ (((Sample.few.run Sample.sharing).after (.call Sample.avs
        (.slashOperator Sample.avs Sample.quartering))).allocatedStake Sample.other).toNat ∧
      (((Sample.few.run Sample.sharing).after (.call Sample.avs
        (.slashOperator Sample.avs Sample.quartering))).allocatedStake Sample.other).toNat ≤ 4 := by
  have hstake : ((Sample.few.run Sample.sharing).allocatedStake Sample.other).toNat = 3 := by
    decide +kernel
  have hother : Sample.other.set ≠ ⟨Sample.avs, Sample.quartering.setId⟩ := by decide
  have hspared := (Sample.reachable_few.run Sample.sharing).slash_spares_others Sample.avs hother
    (by decide +kernel)
  rw [hstake] at hspared
  exact ⟨hstake, hspared⟩

end Bystanders

end Manager

end Restake
