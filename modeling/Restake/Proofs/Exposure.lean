import Restake.Proofs.Balance

/-!
An operator that can be slashed cannot get out of it in time. It stays slashable for the
deallocation delay at least, or for as long as its grace period lasts if it has left already, and
until then nothing it does lowers its magnitude below what it had asked for before.
-/
namespace Restake

namespace Books

variable {b b' : Books} {config : Config} {block : BlockNumber} {p : Position}

/-- Grace periods end a deallocation delay from now at the latest. -/
def Graced (config : Config) (block : BlockNumber) (b : Books) : Prop :=
  ∀ m slashableUntil, b.registration m = .deregistered slashableUntil →
    slashableUntil.toNat ≤ block.toNat + config.deallocationDelay.toNat

theorem graced_empty : Graced config block {} := by
  intro m slashableUntil h
  rw [registration, UndoMap.find?_empty] at h
  cases h

theorem Graced.of_terms (h : Graced config block b) (hterms : SameTerms b b') :
    Graced config block b' := by
  intro m slashableUntil hm
  rw [hterms.registration] at hm
  exact h m slashableUntil hm

theorem lasts_graced : Lasts (Graced config) where
  reads hreads h := h.of_terms hreads.toSameTerms
  later hblock h m slashableUntil hm := by
    have hgrace := h m slashableUntil hm
    rw [UInt32.le_iff_toNat_le] at hblock
    omega

theorem Graced.posts {e : Entry} (h : Graced config block b) (hpost : Posts config block e b b') :
    Graced config block b' := by
  have hstore : ∀ {b : Books} {q c al},
      Graced config block b → Graced config block (b.store q c al) :=
    fun h => h.of_terms (sameTerms_store _ _ _ _)
  cases hpost with
  | join =>
    intro m slashableUntil hm
    rw [registration_joined] at hm
    split at hm
    · cases hm
    · exact h m slashableUntil hm
  | depart _ _ huntil =>
    intro m slashableUntil hm
    rw [registration_departed] at hm
    split at hm
    · cases hm
      exact Nat.le_of_eq (BlockNumber.after?_eq_some_iff.1 huntil)
    · exact h m slashableUntil hm
  | mature => exact hstore h
  | allocate => exact hstore h
  | release => exact hstore h
  | deallocate => exact hstore (h.of_terms (sameTerms_enqueue _ _ _))
  | clear => exact (hstore h).of_terms (sameTerms_dequeue _ _)
  | cut => exact (hstore h).of_terms (sameTerms_reduceMax _ _ _ _)
  | _ => exact h

/-- Through the block `last` the operator can be slashed at the position, and in each block up to
then, before the deallocation delay has passed since `start`, its magnitude is not below `floor`. -/
structure Exposed (config : Config) (p : Position) (start : BlockNumber) (last : Nat)
    (floor : BlockNumber → Magnitude) (block : BlockNumber) (b : Books) : Prop where
  started : start ≤ block
  member : b.registration p.membership = .registered ∨ ∃ slashableUntil,
    b.registration p.membership = .deregistered slashableUntil ∧ last ≤ slashableUntil.toNat
  strategy : (b.strategiesOf p.set).contains p.strategy
  floor : ∀ f, block ≤ f → f.toNat ≤ last → f.toNat < start.toNat + config.deallocationDelay.toNat →
    floor f ≤ ((b.allocation p).asOf f).current

namespace Exposed

variable {start : BlockNumber} {last : Nat} {floor : BlockNumber → Magnitude}

theorem isSlashable (h : Exposed config p start last floor block b) (hlast : block.toNat ≤ last) :
    b.isSlashable p.membership block := by
  rw [Books.isSlashable]
  rcases h.member with hm | ⟨slashableUntil, hm, hle⟩
  · rw [hm]
    rfl
  · rw [hm, RegistrationStatus.isSlashable, decide_eq_true_eq, UInt32.le_iff_toNat_le]
    omega

theorem of_reads (h : Exposed config p start last floor block b)
    (hregistration : b'.registration = b.registration)
    (hstrategies : b'.strategiesOf = b.strategiesOf)
    (hallocation : b'.allocation = b.allocation) : Exposed config p start last floor block b' where
  started := h.started
  member := hregistration ▸ h.member
  strategy := hstrategies ▸ h.strategy
  floor := hallocation ▸ h.floor

theorem store (h : Exposed config p start last floor block b) {q : Position} {c : Capacity}
    {al : Allocation} (hfloor : q = p → ∀ f, block ≤ f → f.toNat ≤ last →
      f.toNat < start.toNat + config.deallocationDelay.toNat →
        ((b.allocation q).asOf f).current ≤ (al.asOf f).current) :
    Exposed config p start last floor block (b.store q c al) where
  started := h.started
  member := by
    rw [(sameTerms_store b q c al).registration]
    exact h.member
  strategy := by
    rw [(sameTerms_store b q c al).strategiesOf]
    exact h.strategy
  floor f hf hlast hdelay := by
    have hold := h.floor f hf hlast hdelay
    rw [allocation_store]
    split
    next hq =>
      subst q
      exact UInt64.le_trans hold (hfloor rfl f hf hlast hdelay)
    next hq => exact hold

/-- To write down what is due changes nothing from now on. -/
theorem store_settled (h : Exposed config p start last floor block b) {q : Position}
    {c c' : Capacity} {al : Allocation} (hsettled : b.settled q block = .ok (c, al)) :
    Exposed config p start last floor block (b.store q c' al) := by
  apply h.store
  intro _ f hf _ _
  rw [(b.settled_eq_ok.1 hsettled).1, Allocation.asOf_asOf hf]
  exact UInt64.le_refl _

/-- To ask for more takes nothing away, and to ask for less not yet. -/
theorem store_pending (h : Exposed config p start last floor block b) {q : Position}
    {c c' : Capacity} {al : Allocation} {m : Magnitude} {effectBlock : BlockNumber}
    (hsettled : b.settled q block = .ok (c, al)) (hidle : ¬al.isPending)
    (hchange : al.current < m ∨
      start.toNat + config.deallocationDelay.toNat ≤ effectBlock.toNat) :
    Exposed config p start last floor block
      (b.store q c' { al with pending := Magnitude.changeTo al.current m, effectBlock }) := by
  apply h.store
  intro _ f hf _ hdelay
  have hnow : (b.allocation q).asOf f = al := by
    obtain ⟨rfl, -⟩ := b.settled_eq_ok.1 hsettled
    rw [← Allocation.asOf_asOf hf]
    exact Allocation.asOf_of_idle (pending_eq_zero hidle)
  rw [hnow]
  by_cases hdue : f < effectBlock
  · rw [Allocation.asOf_of_lt (a := { al with
      pending := Magnitude.changeTo al.current m, effectBlock }) hdue]
    exact UInt64.le_refl _
  · rw [UInt32.lt_iff_toNat_lt] at hdue
    have hup : al.current < m := hchange.resolve_right (by omega)
    have htarget := Magnitude.shift?_changeTo al.current m
    unfold Allocation.asOf
    split
    · simpa only [Allocation.target, htarget, Option.getD_some] using UInt64.le_of_lt hup
    · exact UInt64.le_refl _

theorem joined (h : Exposed config p start last floor block b) (m : Membership) :
    Exposed config p start last floor block (b.joined m) := by
  refine { h with member := ?_ }
  rw [registration_joined]
  split
  · exact .inl rfl
  · exact h.member

/-- One who leaves can be slashed to the end of its grace period. -/
theorem departed (h : Exposed config p start last floor block b) (m : Membership)
    {slashableUntil : BlockNumber} (hgrace : last ≤ slashableUntil.toNat) :
    Exposed config p start last floor block (b.departed m slashableUntil) := by
  refine { h with member := ?_ }
  rw [registration_departed]
  split
  · exact .inr ⟨slashableUntil, rfl, hgrace⟩
  · exact h.member

theorem created (h : Exposed config p start last floor block b) {s : OperatorSet}
    (hnew : b.setExists s = false) : Exposed config p start last floor block (b.created s) := by
  refine { h with strategy := ?_ }
  have hold := h.strategy
  rw [strategiesOf_created]
  split
  next hs =>
    subst s
    rw [b.strategiesOf_eq_empty hnew] at hold
    simp at hold
  next hs => exact hold

theorem strategyAdded (h : Exposed config p start last floor block b) (s : OperatorSet)
    (x : Address) : Exposed config p start last floor block (b.strategyAdded s x) := by
  refine { h with strategy := ?_ }
  rw [strategiesOf_strategyAdded]
  split
  next hs =>
    subst s
    rw [Std.ExtTreeSet.contains_insert, h.strategy, Bool.or_true]
  next hs => exact h.strategy

theorem strategyRemoved (h : Exposed config p start last floor block b) {s : OperatorSet}
    {x : Address} (hspares : ¬(s = p.set ∧ x = p.strategy)) :
    Exposed config p start last floor block (b.strategyRemoved s x) := by
  refine { h with strategy := ?_ }
  rw [strategiesOf_strategyRemoved]
  split
  next hs =>
    subst s
    have hx : x ≠ p.strategy := fun hx => hspares ⟨rfl, hx⟩
    rw [Std.ExtTreeSet.contains_erase, h.strategy, Bool.and_true]
    simpa using hx
  next hs => exact h.strategy

theorem enqueue (h : Exposed config p start last floor block b) (a : Account) (s : OperatorSet) :
    Exposed config p start last floor block (b.enqueue a s) := h.of_reads rfl rfl rfl

theorem dequeue (h : Exposed config p start last floor block b) (a : Account) :
    Exposed config p start last floor block (b.dequeue a) := h.of_reads rfl rfl rfl

theorem reduceMax (h : Exposed config p start last floor block b) (a : Account)
    (amount : Magnitude) : Exposed config p start last floor block (b.reduceMax a amount block) :=
  h.of_reads rfl rfl rfl

/-- No posting but a slash of the operator in the set or the removal of the strategy from it ends
the exposure before its time. -/
theorem posts {e : Entry} (h : Exposed config p start last floor block b)
    (hlast : last ≤ start.toNat + config.deallocationDelay.toNat) (hspares : ¬e.Harms p)
    (hpost : Posts config block e b b') : Exposed config p start last floor block b' := by
  have hstarted := UInt32.le_iff_toNat_le.1 h.started
  cases hpost with
  | join => exact h.joined _
  | depart _ _ huntil =>
    have huntil := BlockNumber.after?_eq_some_iff.1 huntil
    exact h.departed _ (by omega)
  | create hnew => exact h.created hnew
  | addStrategy => exact h.strategyAdded _ _
  | removeStrategy => exact h.strategyRemoved hspares
  | clear _ _ hsettled => exact (h.store_settled hsettled).dequeue _
  | mature _ _ hsettled => exact h.store_settled hsettled
  | allocate _ hsettled hidle _ hup _ _ => exact h.store_pending hsettled hidle (.inl hup)
  | @deallocate b q m c al effectBlock _ hsettled hidle _ _ _ heffect =>
    rw [← settled_enqueue b q.account q.set] at hsettled
    have heffect := BlockNumber.after?_eq_some_iff.1 heffect
    exact (h.enqueue q.account q.set).store_pending hsettled hidle (.inr (by omega))
  | @release b q m c al encumbered _ hsettled _ _ hfree _ =>
    -- no magnitude is released at once while the operator can be slashed
    apply h.store
    intro hq f hf hflast _
    subst q
    rw [UInt32.le_iff_toNat_le] at hf
    exact absurd ⟨h.isSlashable (by omega), h.strategy⟩ hfree
  | @cut b q w c al encumbered pending _ _ _ _ _ _ _ =>
    refine (h.store fun hq => ?_).reduceMax _ _
    subst q
    exact absurd rfl hspares
  | _ => exact h.of_reads rfl rfl rfl

end Exposed

theorem lasts_exposed {start : BlockNumber} {last : Nat} {floor : BlockNumber → Magnitude} :
    Lasts (Exposed config p start last floor) where
  reads hreads h := h.of_reads hreads.registration hreads.strategiesOf hreads.allocation
  later hblock h := { h with
    started := UInt32.le_trans h.started hblock
    floor := fun f hf => h.floor f (UInt32.le_trans hblock hf) }

end Books

/-- As time goes by an allocation falls to the target of its deallocation at the lowest. -/
theorem Allocation.Sound.le_current_asOf {a : Allocation} (h : a.Sound) (f : BlockNumber) :
    (if a.isDeallocating && a.effectBlock ≤ f then a.target else a.current) ≤
      (a.asOf f).current := by
  have htarget := h.toNat_target
  by_cases hdown : a.pending < 0
  · have hdue : a.isMatured f = decide (a.effectBlock ≤ f) := by
      have hne : a.pending ≠ 0 := by omega
      simp [isMatured, isPending, hne]
    simp only [isDeallocating, decide_eq_true hdown, Bool.true_and, Allocation.asOf, hdue]
    split <;> exact UInt64.le_refl _
  · simp only [isDeallocating, decide_eq_false hdown, Bool.false_and, Allocation.asOf]
    rw [if_neg (by simp)]
    split
    · rw [UInt64.le_iff_toNat_le]
      dsimp only
      omega
    · exact UInt64.le_refl _

namespace Manager

open Books

variable {δ ρ π : Type} {m : Manager δ ρ π} {p : Position}

/-- The last block for which the operator is bound to stay slashable by the set. -/
def exposedUntil (m : Manager δ ρ π) (member : Membership) : Nat :=
  match m.books.registration member with
  | .unregistered => 0
  | .registered => m.block.toNat + m.config.deallocationDelay.toNat
  | .deregistered slashableUntil => slashableUntil.toNat

theorem le_exposedUntil {f : BlockNumber} (h : m.books.isSlashable p.membership f)
    (hf : f.toNat < m.block.toNat + m.config.deallocationDelay.toNat) :
    f.toNat ≤ m.exposedUntil p.membership := by
  rw [Books.isSlashable] at h
  unfold exposedUntil
  cases hm : m.books.registration p.membership with
  | unregistered =>
    rw [hm] at h
    cases h
  | registered => exact Nat.le_of_lt hf
  | deregistered slashableUntil =>
    rw [hm, RegistrationStatus.isSlashable, decide_eq_true_eq, UInt32.le_iff_toNat_le] at h
    exact h

/-- The longer one looks ahead the less is sure to be left. -/
theorem lastingMagnitude_anti (h : m.books.Balanced) {f f' : BlockNumber} (hle : f ≤ f') :
    m.lastingMagnitude p f' ≤ m.lastingMagnitude p f := by
  have htarget := ((h.sound p).asOf m.block).toNat_target
  unfold lastingMagnitude allocation
  dsimp only
  by_cases hdown : ((m.books.allocation p).asOf m.block).pending < 0
  · have htarget : ((m.books.allocation p).asOf m.block).target ≤
        ((m.books.allocation p).asOf m.block).current := by
      rw [UInt64.le_iff_toNat_le]
      omega
    simp only [Allocation.isDeallocating, decide_eq_true hdown, Bool.true_and, decide_eq_true_eq]
    split
    next hdue =>
      split
      · exact UInt64.le_refl _
      · exact htarget
    next hdue =>
      rw [if_neg fun hdue' => hdue (UInt32.le_trans hdue' hle)]
      exact UInt64.le_refl _
  · simp [Allocation.isDeallocating, hdown]

variable [DelegationLedger δ] [SetRegistrar ρ] [PermissionController π]

theorem Reachable.graced (h : m.Reachable) : Graced m.config m.block m.books :=
  h.keeps (fun _ _ => graced_empty) (fun _ => lasts_graced.persists) fun hpost hb => hb.posts hpost

theorem Reachable.exposedUntil_le (h : m.Reachable) (member : Membership) :
    m.exposedUntil member ≤ m.block.toNat + m.config.deallocationDelay.toNat := by
  unfold exposedUntil
  cases hm : m.books.registration member with
  | unregistered => exact Nat.zero_le _
  | registered => exact Nat.le_refl _
  | deregistered slashableUntil => exact h.graced member slashableUntil hm

theorem Reachable.exposed (h : m.Reachable) (hslashable : m.isSlashable p.membership)
    (hstrategy : (m.books.strategiesOf p.set).contains p.strategy) :
    Exposed m.config p m.block (m.exposedUntil p.membership) (m.lastingMagnitude p) m.block
      m.books where
  started := UInt32.le_refl _
  member := by
    unfold exposedUntil
    cases hm : m.books.registration p.membership with
    | unregistered =>
      rw [isSlashable, Books.isSlashable, hm] at hslashable
      cases hslashable
    | registered => exact .inl rfl
    | deregistered slashableUntil => exact .inr ⟨slashableUntil, rfl, Nat.le_refl _⟩
  strategy := hstrategy
  floor f hf _ _ := by
    have hle := ((h.balanced.sound p).asOf m.block).le_current_asOf f
    rwa [Allocation.asOf_asOf hf] at hle

/-- The exposure lasts to the end of any run that spares the position. -/
theorem Reachable.exposed_run (h : m.Reachable) (hslashable : m.isSlashable p.membership)
    (hstrategy : (m.books.strategiesOf p.set).contains p.strategy) {moves : List (Move δ ρ π)}
    (hspares : m.Spares p moves) :
    Exposed m.config p m.block (m.exposedUntil p.membership) (m.lastingMagnitude p)
      (m.run moves).block (m.run moves).books :=
  run_keeps h.idle lasts_exposed
    (fun hharms hpost hb => hb.posts (h.exposedUntil_le p.membership) hharms hpost) hspares
    (h.exposed hslashable hstrategy)

/-- An operator that can be slashed for a strategy of the set stays slashable to the end of its
exposure, whatever is done but to slash it or to remove the strategy. Before the deallocation delay
has passed its magnitude is no less than what the deallocation leaves that already waits. -/
theorem Reachable.no_escape (h : m.Reachable) (hslashable : m.isSlashable p.membership)
    (hstrategy : (m.books.strategiesOf p.set).contains p.strategy) {moves : List (Move δ ρ π)}
    (hspares : m.Spares p moves)
    (huntil : (m.run moves).block.toNat ≤ m.exposedUntil p.membership) :
    (m.run moves).isSlashable p.membership ∧
      ((m.run moves).block.toNat < m.block.toNat + m.config.deallocationDelay.toNat →
        m.lastingMagnitude p (m.run moves).block ≤ ((m.run moves).allocation p).current) := by
  have hend := h.exposed_run hslashable hstrategy hspares
  exact ⟨hend.isSlashable huntil, hend.floor _ (UInt32.le_refl _) huntil⟩

/-- The operator of the small run leaves the set at once and waits until `block`. -/
def leaving (block : BlockNumber) : List (Move LocalDelegation LocalRegistrar LocalPermissions) :=
  [.call Sample.operator (.deregisterFromOperatorSets ⟨Sample.operator, Sample.avs, [1]⟩),
    .setBlock block]

theorem spares_leaving (block : BlockNumber) :
    (Sample.start.run Sample.moves).Spares Sample.position (leaving block) := by
  refine ⟨?_, nofun, trivial⟩
  intro caller c hcall
  cases hcall
  exact False.elim

theorem no_escape_sample :
    ((Sample.start.run Sample.moves).run (leaving 16)).isSlashable Sample.position.membership ∧
      600 ≤ (((Sample.start.run Sample.moves).run (leaving 16)).allocation Sample.position).current := by
  obtain ⟨hslashable, hmagnitude⟩ := Sample.reachable.no_escape (p := Sample.position)
    (by decide +kernel) (by decide +kernel) (spares_leaving 16) (by decide +kernel)
  have hlasting : (Sample.start.run Sample.moves).lastingMagnitude Sample.position
      ((Sample.start.run Sample.moves).run (leaving 16)).block = 600 := by decide +kernel
  rw [hlasting] at hmagnitude
  exact ⟨hslashable, hmagnitude (by decide +kernel)⟩

/-- Up to the block `future`, a slash would find the strategy in the set, the operator slashable and
no less than the magnitude, whatever is done but to slash it or to remove the strategy. -/
def StaysSlashable (m : Manager δ ρ π) (p : Position) (future : BlockNumber) (magnitude : Magnitude) :
    Prop :=
  ∀ moves : List (Move δ ρ π), m.Spares p moves → (m.run moves).block ≤ future →
    (m.run moves).isSlashable p.membership ∧
      ((m.run moves).books.strategiesOf p.set).contains p.strategy ∧
      magnitude ≤ ((m.run moves).allocation p).current

/-- The magnitude behind the minimum slashable stake is sure to stay if and only if the operator, as
it is registered now, will still be slashable then, and the set holds the strategy now. -/
theorem Reachable.staysSlashable_iff (h : m.Reachable) {future : BlockNumber}
    (hfuture : m.block ≤ future)
    (hdelay : future.toNat < m.block.toNat + m.config.deallocationDelay.toNat) :
    m.StaysSlashable p future (m.lastingMagnitude p future) ↔
      m.books.isSlashable p.membership future ∧
        (m.books.strategiesOf p.set).contains p.strategy := by
  constructor
  · intro hstays
    have hrun : m.run [.setBlock future] = { m with block := future } := by
      show (m.attempt (Manager.setBlock future)).2 = _
      rw [attempt_setBlock, if_neg (UInt32.not_lt.2 hfuture)]
    obtain ⟨hslashable, hstrategy, -⟩ := hstays [.setBlock future] ⟨nofun, trivial⟩
      (hrun ▸ UInt32.le_refl _)
    rw [hrun] at hslashable hstrategy
    exact ⟨hslashable, hstrategy⟩
  · intro hlasting moves hspares hblock
    rcases hlasting with ⟨hslashable, hstrategy⟩
    have hnow : m.isSlashable p.membership := by
      rw [isSlashable, Books.isSlashable] at *
      cases hm : m.books.registration p.membership with
      | unregistered =>
        rw [hm] at hslashable
        cases hslashable
      | registered => rfl
      | deregistered slashableUntil =>
        rw [hm, RegistrationStatus.isSlashable, decide_eq_true_eq] at hslashable
        rw [RegistrationStatus.isSlashable, decide_eq_true_eq]
        exact UInt32.le_trans hfuture hslashable
    have hlast := le_exposedUntil hslashable hdelay
    rw [UInt32.le_iff_toNat_le] at hblock
    have hend := h.exposed_run hnow hstrategy hspares
    refine ⟨hend.isSlashable (by omega), hend.strategy, ?_⟩
    exact UInt64.le_trans (lastingMagnitude_anti h.balanced (UInt32.le_iff_toNat_le.2 hblock))
      (hend.floor _ (UInt32.le_refl _) (by omega) (by omega))

/-- An operator that has left, still in its grace period, whose strategy is still in the set: its
magnitude is sure to stay until the grace period ends. -/
theorem staysSlashable_leaving :
    ((Sample.start.run Sample.moves).run (leaving 10)).StaysSlashable Sample.position 17
      (((Sample.start.run Sample.moves).run (leaving 10)).lastingMagnitude Sample.position 17) :=
  ((Sample.reachable.run (leaving 10)).staysSlashable_iff (by decide +kernel)
    (by decide +kernel)).2 ⟨by decide +kernel, by decide +kernel⟩

/-- A stake can be given as the minimum up to a block at which the grace period of its operator will
have ended. -/
theorem minimumSlashableStake_outlasts_grace :
    ¬∀ (m : LocalManager) (p : Position) (future : BlockNumber), m.Reachable → m.block ≤ future →
      future.toNat < m.block.toNat + m.config.deallocationDelay.toNat →
      m.minimumSlashableStake p future ≠ 0 →
      m.StaysSlashable p future (m.lastingMagnitude p future) := by
  intro hall
  have hstays := hall ((Sample.start.run Sample.moves).run (leaving 10)) Sample.position 19
    (Sample.reachable.run (leaving 10)) (by decide +kernel) (by decide +kernel) (by decide +kernel)
  obtain ⟨hslashable, -⟩ := hstays [.setBlock 19] ⟨nofun, trivial⟩ (by decide +kernel)
  exact absurd hslashable (by decide +kernel)

end Manager

end Restake
