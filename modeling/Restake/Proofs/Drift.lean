import Mathlib.Algebra.Order.Ring.Nat
import Mathlib.Tactic.GCongr
import Mathlib.Tactic.Linarith
import Mathlib.Tactic.Ring
import Restake.Proofs.Failing
import Restake.Proofs.Hooks

/-!
Shares follow the max magnitude. Every leg of a slash burns the part of a balance by which the max
falls, rounded down, so a balance never falls behind its max. Where the products fit in a word, a
leg leaves it less than one share ahead; as the max only falls, what the legs of a whole run leave
over adds up to no more than one share for each of them. Calls that slash no one leave the share
ledger and every max alone.
-/
namespace Restake

open LocalDelegation (burn)

theorem Shares.toNat_portion_mul_le (s : Shares) (part whole : Magnitude) :
    (s.portion part whole).toNat * whole.toNat ≤ s.toNat * part.toNat := by
  rw [toNat_portion_eq_mod]
  exact (Nat.div_mul_le_self _ _).trans (Nat.mod_le _ _)

/-- A balance and a max have gone from `s` and `max` to `s'` and `max'` in `legs` legs, and the
balance is ahead of its max by what rounding left over. -/
structure Drift (legs s max s' max' : ℕ) : Prop where
  shares_le : s' ≤ s
  max_le : max' ≤ max
  pos : 0 < max → 0 < max'
  ahead : s * max' ≤ s' * max
  near : s * wad.toNat < 2 ^ 256 → s' * max ≤ s * max' + legs * max

namespace Drift

theorem refl (s max : ℕ) : Drift 0 s max s max :=
  ⟨le_rfl, le_rfl, id, le_rfl, fun _ => Nat.le_add_right _ _⟩

theorem trans {i j s max s₁ max₁ s₂ max₂ : ℕ} (h : Drift i s max s₁ max₁)
    (h' : Drift j s₁ max₁ s₂ max₂) : Drift (i + j) s max s₂ max₂ := by
  rcases Nat.eq_zero_or_pos max₁ with hzero | hpos
  · have hmax : max = 0 := by
      by_contra hne
      exact (h.pos (Nat.pos_of_ne_zero hne)).ne' hzero
    have hmax₂ : max₂ = 0 := Nat.le_zero.1 (hzero ▸ h'.max_le)
    subst hmax hmax₂
    exact ⟨h'.shares_le.trans h.shares_le, le_rfl, id, le_rfl, fun _ => Nat.le_add_right _ _⟩
  · refine ⟨h'.shares_le.trans h.shares_le, h'.max_le.trans h.max_le, fun _ => h'.pos hpos, ?_, ?_⟩
    · refine Nat.le_of_mul_le_mul_right ?_ hpos
      calc s * max₂ * max₁ = s * max₁ * max₂ := by ring
        _ ≤ s₁ * max * max₂ := Nat.mul_le_mul_right _ h.ahead
        _ = s₁ * max₂ * max := by ring
        _ ≤ s₂ * max₁ * max := Nat.mul_le_mul_right _ h'.ahead
        _ = s₂ * max * max₁ := by ring
    · intro hfits
      have hfits' : s₁ * wad.toNat < 2 ^ 256 :=
        (Nat.mul_le_mul_right _ h.shares_le).trans_lt hfits
      refine Nat.le_of_mul_le_mul_right ?_ hpos
      calc s₂ * max * max₁ = s₂ * max₁ * max := by ring
        _ ≤ (s₁ * max₂ + j * max₁) * max := Nat.mul_le_mul_right _ (h'.near hfits')
        _ = s₁ * max * max₂ + j * max₁ * max := by ring
        _ ≤ (s * max₁ + i * max) * max₂ + j * max₁ * max :=
          Nat.add_le_add_right (Nat.mul_le_mul_right _ (h.near hfits)) _
        _ = s * max₂ * max₁ + i * max * max₂ + j * max * max₁ := by ring
        _ ≤ s * max₂ * max₁ + i * max * max₁ + j * max * max₁ := by
          gcongr
          exact h'.max_le
        _ = (s * max₂ + (i + j) * max) * max₁ := by ring

/-- One leg burns what the fall of the max costs, and no more than there is. -/
theorem of_burn (s : Shares) {before after : Magnitude} (hpos : 0 < after) (hle : after ≤ before)
    (hwad : before ≤ wad) : burn s before after ≤ s ∧
      Drift 1 s.toNat before.toNat (s - burn s before after).toNat after.toNat := by
  rw [UInt64.le_iff_toNat_le] at hle hwad
  rw [UInt64.lt_iff_toNat_lt, UInt64.toNat_zero] at hpos
  have hlost : (Magnitude.monus before after).toNat + after.toNat = before.toNat := by
    rw [Magnitude.toNat_monus]
    omega
  have hle_portion : (burn s before after).toNat * before.toNat ≤
      s.toNat * (Magnitude.monus before after).toNat := s.toNat_portion_mul_le _ _
  have hburn : (burn s before after).toNat ≤ s.toNat := by
    refine Nat.le_of_mul_le_mul_right (hle_portion.trans ?_) (hpos.trans_le hle)
    exact Nat.mul_le_mul_left _ (by omega)
  have hfloor (hfits : s.toNat * wad.toNat < 2 ^ 256) :
      s.toNat * (Magnitude.monus before after).toNat <
        before.toNat * ((burn s before after).toNat + 1) := by
    have hexact : (burn s before after).toNat =
        s.toNat * (Magnitude.monus before after).toNat / before.toNat := by
      apply Shares.toNat_portion
      rw [Nat.shiftLeft_eq, Nat.one_mul]
      exact (Nat.mul_le_mul_left _ (by omega)).trans_lt hfits
    rw [hexact]
    exact Nat.lt_mul_div_succ _ (hpos.trans_le hle)
  -- in terms of what is burnt and what is left, the bounds are linear in the products
  obtain ⟨left, hleft⟩ := Nat.exists_eq_add_of_le hburn
  have hsub : (s - burn s before after).toNat = left := by
    rw [BitVec.toNat_sub_of_le hburn]
    omega
  rw [hsub]
  refine ⟨hburn, by omega, hle, fun _ => hpos, ?_, fun hfits => ?_⟩
  · rw [hleft, ← hlost] at hle_portion ⊢
    linarith
  · have hfloor := hfloor hfits
    rw [hleft, ← hlost] at hfloor ⊢
    linarith

end Drift

namespace Sample

/-- An operator with few shares to divide. -/
def few : LocalManager := .opened config [⟨operator, [⟨position.strategy, 7⟩]⟩]

theorem reachable_few : few.Reachable := Manager.Reachable.fresh _ _ _ _

/-- Half of what is allocated goes, and then half of what was left. -/
def halvings : List (Move LocalDelegation LocalRegistrar LocalPermissions) :=
  [.call avs (.slashOperator avs halving), .call avs (.slashOperator avs halving)]

end Sample

namespace Manager

open Steps Books

/-- No call but a slash touches the share ledger. -/
theorem delegation_after {δ ρ π : Type} [DelegationLedger δ] [SetRegistrar ρ]
    [PermissionController π] (m : Manager δ ρ π) (caller : Address) {c : Call}
    (hc : ∀ avs r, c ≠ .slashOperator avs r) :
    (m.after (.call caller c)).delegation = m.delegation := by
  have hkeeps : Keeps (fun d _ => d = m.delegation) (perform caller c : Managing δ ρ π Reply) :=
    keeps_perform caller (fun avs r heq => absurd heq (hc avs r))
      (fun _ _ _ d => Leads.const (d = m.delegation) _)
      (fun _ _ d => Leads.const (d = m.delegation) _)
  exact collaborators_after hkeeps rfl

section Following

variable {ρ π : Type} {m m' : Manager LocalDelegation ρ π} {a : Account}

/-- What legs on an account do to its balance and its max: each of them burns shares that are there,
and the two drift apart by no more than the legs allow. -/
structure Follows (m : Manager LocalDelegation ρ π) (a : Account) (legs : List SlashLeg)
    (m' : Manager LocalDelegation ρ π) : Prop where
  burnt : ∀ leg ∈ legs,
    (m'.delegation.shares a).toNat + leg.shares.toNat = (m.delegation.shares a).toNat
  drift : Drift legs.length (m.delegation.shares a).toNat (m.books.maxMagnitude a).toNat
    (m'.delegation.shares a).toNat (m'.books.maxMagnitude a).toNat

theorem Follows.of_same (hshares : m'.delegation.shares a = m.delegation.shares a)
    (hmax : m'.books.maxMagnitude a = m.books.maxMagnitude a) : m.Follows a [] m' := by
  refine ⟨fun leg hleg => absurd hleg List.not_mem_nil, ?_⟩
  rw [hshares, hmax]
  exact .refl _ _

/-- What a slash that goes through does to any account. -/
theorem follows_legs {config : Config} {r : SlashRequest} {avs : Address}
    (hkept : WellKept config m.block m.books) (hwads : ∀ leg ∈ r.strategies.zip r.wads, leg.2 < wad)
    (hdistinct : ((m.cuts avs r).map Prod.fst).Nodup)
    (hburnt : Burnt r.operator (m.cuts avs r) m.delegation m'.delegation)
    (hdown : CutDown config m.block ⟨r.operator, ⟨avs, r.setId⟩⟩ (r.strategies.zip r.wads) m.books
      m'.books) (a : Account) :
    m.Follows a (legsAt r.operator ((m.cuts avs r).map (legOf m.delegation r.operator)) a) m' := by
  by_cases ha : a.operator = r.operator ∧ a.strategy ∈ (m.cuts avs r).map Prod.fst
  · obtain ⟨hoperator, hstrategy⟩ := ha
    obtain ⟨c, hc, hx⟩ := List.mem_map.1 hstrategy
    obtain rfl : a = ⟨r.operator, c.1⟩ := by rw [hx, ← hoperator]
    have hlegs : legsAt r.operator ((m.cuts avs r).map (legOf m.delegation r.operator))
        ⟨r.operator, c.1⟩ = [legOf m.delegation r.operator c] :=
      legsAt_eq_singleton (by rwa [strategy_legOf]) (List.mem_map_of_mem hc)
    have hbalance : m'.delegation.shares ⟨r.operator, c.1⟩ = m.delegation.shares ⟨r.operator, c.1⟩ -
        burn (m.delegation.shares ⟨r.operator, c.1⟩) c.2.maxBefore c.2.maxAfter :=
      (hburnt.balances _).trans (by rw [lostTo_of_singleton hlegs]; rfl)
    obtain ⟨leg, hleg, hx, hcut⟩ := exists_leg_of_mem_cuts hc
    obtain ⟨hbefore, hpos, hle⟩ := hkept.cutOf_lowers (hwads leg hleg) hcut
    have hmax : c.2.maxBefore = m.books.maxMagnitude ⟨r.operator, c.1⟩ := hx ▸ hbefore
    obtain ⟨hburn, hdrift⟩ := Drift.of_burn (m.delegation.shares ⟨r.operator, c.1⟩) hpos hle
      (hmax ▸ hkept.balanced.ceiling _)
    rw [hlegs]
    refine ⟨fun leg hleg => ?_, ?_⟩
    · rw [List.mem_singleton.1 hleg, hbalance, BitVec.toNat_sub_of_le hburn]
      exact Nat.sub_add_cancel hburn
    · rw [hbalance, hdown.lowered c hc, ← hmax]
      exact hdrift
  · have hapart : a.operator = r.operator → a.strategy ∉ (m.cuts avs r).map Prod.fst :=
      fun hoperator hstrategy => ha ⟨hoperator, hstrategy⟩
    rw [legsAt_eq_nil (by rwa [strategy_legOf])]
    exact .of_same (hburnt.balance_eq hapart) (hdown.apart a hapart).maxMagnitude

variable [SetRegistrar ρ] [PermissionController π]

/-- The legs that a move makes on an account. -/
def legsOn (m : Manager LocalDelegation ρ π) (a : Account) : Move LocalDelegation ρ π → List SlashLeg
  | .call caller (.slashOperator avs r) =>
    match (m.attempt (perform caller (.slashOperator avs r))).1 with
    | .ok (.slashed outcome) => legsAt r.operator outcome.legs a
    | _ => []
  | _ => []

/-- The legs that the moves of a run make on an account. -/
def legsOver (m : Manager LocalDelegation ρ π) (a : Account) :
    List (Move LocalDelegation ρ π) → List SlashLeg
  | [] => []
  | move :: rest => m.legsOn a move ++ (m.after move).legsOver a rest

/-- No one but the manager changes the balance of an account in the run. -/
def OnlySlashes (a : Account) :
    Manager LocalDelegation ρ π → List (Move LocalDelegation ρ π) → Prop
  | _, [] => True
  | m, move :: rest =>
    (∀ d registrar permissions, move = .meanwhile d registrar permissions →
      d.shares a = m.delegation.shares a) ∧ OnlySlashes a (m.after move) rest

/-- Collaborators that do not change by themselves change no balance. -/
theorem onlySlashes_of_calls {moves : List (Move LocalDelegation ρ π)}
    (h : ∀ d registrar permissions, .meanwhile d registrar permissions ∉ moves) :
    m.OnlySlashes a moves := by
  induction moves generalizing m with
  | nil => trivial
  | cons move rest ih =>
    refine ⟨fun d registrar permissions hmove => ?_, ih fun d registrar permissions hrest => ?_⟩
    · exact absurd (hmove ▸ List.mem_cons_self) (h d registrar permissions)
    · exact h d registrar permissions (List.mem_cons_of_mem move hrest)

theorem onlySlashes_append {before rest : List (Move LocalDelegation ρ π)} :
    m.OnlySlashes a (before ++ rest) ↔
      m.OnlySlashes a before ∧ (m.run before).OnlySlashes a rest := by
  induction before generalizing m with
  | nil => exact ⟨fun h => ⟨trivial, h⟩, fun h => h.2⟩
  | cons move before ih =>
    rw [List.cons_append, OnlySlashes, OnlySlashes, ih, and_assoc]
    rfl

/-- A move that slashes no one leaves the account alone, unless its balance is changed by others. -/
theorem follows_idle (hidle : m.books.Idle) {move : Move LocalDelegation ρ π}
    (honly : ∀ d registrar permissions, move = .meanwhile d registrar permissions →
      d.shares a = m.delegation.shares a)
    (hslash : ∀ caller avs r, move ≠ .call caller (.slashOperator avs r)) :
    m.Follows a (m.legsOn a move) (m.after move) := by
  have hlegs : m.legsOn a move = [] := by
    cases move with
    | call caller c =>
      cases c with
      | slashOperator avs r => exact absurd rfl (hslash caller avs r)
      | _ => rfl
    | _ => rfl
  have hshares : (m.after move).delegation.shares a = m.delegation.shares a := by
    cases move with
    | setBlock block => rw [after_setBlock]
    | call caller c =>
      rw [delegation_after m caller fun avs r hc => hslash caller avs r (hc ▸ rfl)]
    | takeEvents => rfl
    | meanwhile d registrar permissions => exact honly d registrar permissions rfl
  rw [hlegs]
  exact .of_same hshares (maxMagnitude_after hidle hslash a)

/-- How a slash of shares ends: it fails and leaves the books and every balance alone, or it goes
through with a leg for each of its cuts. -/
theorem slash_shares_cases (h : m.Reachable) (caller avs : Address) (r : SlashRequest) :
    (∃ e m', m.attempt (perform caller (.slashOperator avs r)) = (.error e, m') ∧
        m'.books = m.books ∧ ∀ a, m'.delegation.shares a = m.delegation.shares a) ∨
      ∃ id m', m.attempt (perform caller (.slashOperator avs r)) =
          (.ok (.slashed ⟨id, (m.cuts avs r).map (legOf m.delegation r.operator)⟩), m') ∧
        m.Admits caller avs r ∧ ((m.cuts avs r).map Prod.fst).Nodup ∧
        Burnt r.operator (m.cuts avs r) m.delegation m'.delegation ∧
        CutDown m.config m.block ⟨r.operator, ⟨avs, r.setId⟩⟩ (r.strategies.zip r.wads) m.books
          m'.books := by
  rcases slash_cases h.idle h.wellKept caller avs r with
    ⟨-, e, hslash⟩ | ⟨hadmits, d, hburnt, hslash⟩
  · exact .inl ⟨e, m, hslash, rfl, fun _ => rfl⟩
  · cases hrefusal : firstRefusal m.delegation r.operator (m.cuts avs r) with
    | some e =>
      rw [hrefusal] at hslash
      rw [LocalDelegation.acceptedCuts_eq_nil hrefusal] at hburnt
      exact .inl ⟨_, _, hslash, rfl, fun _ => hburnt.balance_eq fun _ => List.not_mem_nil⟩
    | none =>
      rw [hrefusal] at hslash
      obtain ⟨b, tally, hslash, hdown⟩ := hslash
      rw [acceptedCuts_eq_self hrefusal] at hburnt
      exact .inr ⟨_, _, hslash, hadmits, (cuts_sublist _ _ _ _).nodup hadmits.nodup, hburnt, hdown⟩

theorem follows_slash (h : m.Reachable) (caller avs : Address) (r : SlashRequest) (a : Account) :
    m.Follows a (m.legsOn a (.call caller (.slashOperator avs r)))
      (m.after (.call caller (.slashOperator avs r))) := by
  have hafter : m.after (.call caller (.slashOperator avs r)) =
    (m.attempt (perform caller (.slashOperator avs r))).2 := rfl
  rw [hafter, legsOn]
  rcases slash_shares_cases h caller avs r with
    ⟨e, m', hslash, hbooks, hshares⟩ | ⟨id, m', hslash, hadmits, hdistinct, hburnt, hdown⟩
  · rw [hslash]
    exact .of_same (hshares a) (by rw [hbooks])
  · rw [hslash]
    exact follows_legs h.wellKept hadmits.wads_lt hdistinct hburnt hdown a

theorem follows_after (h : m.Reachable) {move : Move LocalDelegation ρ π}
    (honly : ∀ d registrar permissions, move = .meanwhile d registrar permissions →
      d.shares a = m.delegation.shares a) : m.Follows a (m.legsOn a move) (m.after move) := by
  by_cases hslash : ∃ caller avs r, move = .call caller (.slashOperator avs r)
  · obtain ⟨caller, avs, r, rfl⟩ := hslash
    exact follows_slash h caller avs r a
  · exact follows_idle h.idle honly fun caller avs r hmove => hslash ⟨caller, avs, r, hmove⟩

theorem drift_run (h : m.Reachable) {moves : List (Move LocalDelegation ρ π)}
    (honly : m.OnlySlashes a moves) :
    Drift (m.legsOver a moves).length (m.delegation.shares a).toNat
      (m.books.maxMagnitude a).toNat ((m.run moves).delegation.shares a).toNat
      ((m.run moves).books.maxMagnitude a).toNat := by
  induction moves generalizing m with
  | nil => exact .refl _ _
  | cons move rest ih =>
    rw [legsOver, List.length_append]
    exact (follows_after h honly.1).drift.trans (ih (h.after move) honly.2)

/-- Over a run in which only slashes change the balance of an account, every leg burns shares that
are there, and the balance stays with the max: never behind it, and ahead by at most one share
for each leg. -/
theorem Reachable.shares_follow_max (h : m.Reachable) {moves : List (Move LocalDelegation ρ π)}
    (honly : m.OnlySlashes a moves) :
    (∀ before move rest, moves = before ++ move :: rest →
      ∀ leg ∈ (m.run before).legsOn a move,
        ((m.run (before ++ [move])).delegation.shares a).toNat + leg.shares.toNat =
          ((m.run before).delegation.shares a).toNat) ∧
    (m.delegation.shares a).toNat * ((m.run moves).books.maxMagnitude a).toNat ≤
      ((m.run moves).delegation.shares a).toNat * (m.books.maxMagnitude a).toNat ∧
    ((m.delegation.shares a).toNat * wad.toNat < 2 ^ 256 →
      ((m.run moves).delegation.shares a).toNat * (m.books.maxMagnitude a).toNat ≤
        (m.delegation.shares a).toNat * ((m.run moves).books.maxMagnitude a).toNat +
          (m.legsOver a moves).length * (m.books.maxMagnitude a).toNat) := by
  refine ⟨?_, (drift_run h honly).ahead, (drift_run h honly).near⟩
  rintro before move rest rfl leg hleg
  obtain ⟨-, honly, -⟩ := onlySlashes_append.1 honly
  rw [run_append]
  exact (follows_after (h.run before) honly).burnt leg hleg

/-- Two slashes bring a max down to five eighths, and seven shares to no more than two above that. -/
theorem shares_follow_max_halvings :
    (Sample.few.run Sample.allocating).OnlySlashes Sample.position.account Sample.halvings ∧
    (((Sample.few.run Sample.allocating).run Sample.halvings).delegation.shares
      Sample.position.account).toNat * wad.toNat ≤ 7 * 625000000000000000 + 2 * wad.toNat := by
  have honly : (Sample.few.run Sample.allocating).OnlySlashes Sample.position.account
      Sample.halvings := onlySlashes_of_calls (by simp [Sample.halvings])
  obtain ⟨-, -, hnear⟩ := (Sample.reachable_few.run Sample.allocating).shares_follow_max honly
  have hshares : (Sample.few.run Sample.allocating).delegation.shares Sample.position.account = 7 := by
    decide +kernel
  have hlegs : ((Sample.few.run Sample.allocating).legsOver Sample.position.account
      Sample.halvings).length = 2 := by
    decide +kernel
  have hmax : (Sample.few.run Sample.allocating).books.maxMagnitude Sample.position.account = wad := by
    decide +kernel
  have hmax' : ((Sample.few.run Sample.allocating).run Sample.halvings).books.maxMagnitude
      Sample.position.account = 625000000000000000 := by
    decide +kernel
  rw [hshares, hlegs, hmax, hmax'] at hnear
  exact ⟨honly, hnear (by decide)⟩

end Following

end Manager

end Restake
