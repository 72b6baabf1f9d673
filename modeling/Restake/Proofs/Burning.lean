import Restake.Proofs.Stake

/-!
What a leg of a slash burns. The shares that it reports are the shares that its balance loses, and
they are the floored quotient of a product that is formed in a word. The quotient is that of the
exact product just where the product fits, so a balance that is too large for it loses less than the
part of it that its max loses.
-/
namespace Restake

theorem Shares.toNat_portion_eq_iff {s : Shares} {part whole : Magnitude} (hwhole : 0 < whole.toNat) :
    (s.portion part whole).toNat = s.toNat * part.toNat / whole.toNat ↔
      s.toNat * part.toNat < 2 ^ 256 := by
  rw [toNat_portion_eq_mod, Nat.shiftLeft_eq, Nat.one_mul]
  constructor
  · intro hexact
    by_contra hwraps
    have hword : whole.toNat < 2 ^ 256 := whole.toNat_lt.trans (by decide)
    -- what the product loses by wrapping is more than a share of the whole
    have hlost : s.toNat * part.toNat % 2 ^ 256 + whole.toNat ≤ s.toNat * part.toNat := by omega
    have hless : s.toNat * part.toNat % 2 ^ 256 / whole.toNat + 1 ≤
        s.toNat * part.toNat / whole.toNat := by
      rw [← Nat.add_div_right _ hwhole]
      exact Nat.div_le_div_right hlost
    omega
  · intro hfits
    rw [Nat.mod_eq_of_lt hfits]

namespace Books

/-- What a cut takes from a position its account loses from the max. -/
theorem WellKept.cutOf_maxAfter {b : Books} {config : Config} {block : BlockNumber} {p : Position}
    {w : UInt64} (h : WellKept config block b) (hw : w < wad) {cut : Cut}
    (hcut : b.cutOf block p w = some cut) :
    cut.maxAfter.toNat + cut.magnitude.toNat = cut.maxBefore.toNat := by
  unfold cutOf at hcut
  dsimp only at hcut
  split at hcut
  next =>
    cases hcut
    have hscale := UInt64.le_iff_toNat_le.1 (Magnitude.scale_le (UInt64.le_of_lt hw)
      (m := ((b.allocation p).asOf block).current))
    have hcurrent := UInt64.le_iff_toNat_le.1 (h.current_asOf_le p)
    dsimp only
    rw [Magnitude.toNat_monus]
    omega
  next => cases hcut

end Books

/-- What a leg does to its account: the max goes from `max` to `max'` and the balance from `s` to
`s'`. -/
structure SlashLeg.Burns (leg : SlashLeg) (s max s' max' : ℕ) : Prop where
  pos : 0 < max
  slashed : max' + leg.magnitude.toNat = max
  burnt : s' + leg.shares.toNat = s
  wrapped : leg.shares.toNat = s * (max - max') % 2 ^ 256 / max
  exact_iff : leg.shares.toNat = s * (max - max') / max ↔ s * (max - max') < 2 ^ 256

namespace Manager

open Books LocalDelegation

variable {ρ π : Type} [SetRegistrar ρ] [PermissionController π] {m : Manager LocalDelegation ρ π}

/-- Every leg of a slash that goes through reports the shares that it burns. They are the part of the
balance that the account loses of its max, rounded down, if and only if the product of the balance
and the loss is less than `2 ^ 256`. -/
theorem Reachable.burn_exact_iff (h : m.Reachable) {caller avs : Address} {r : SlashRequest}
    {outcome : SlashOutcome}
    (hok : (m.attempt (perform caller (.slashOperator avs r))).1 = .ok (.slashed outcome))
    {leg : SlashLeg} (hleg : leg ∈ outcome.legs) :
    let a : Account := ⟨r.operator, leg.strategy⟩
    let m' := m.after (.call caller (.slashOperator avs r))
    leg.Burns (m.delegation.shares a).toNat (m.books.maxMagnitude a).toNat
      (m'.delegation.shares a).toNat (m'.books.maxMagnitude a).toNat := by
  intro a m'
  rcases slash_shares_cases h caller avs r with
    ⟨e, m₁, hslash, -⟩ | ⟨id, m₁, hslash, hadmits, hdistinct, hburnt, hdown⟩
  · rw [hslash] at hok
    cases hok
  obtain rfl : m' = m₁ := congrArg Prod.snd hslash
  rw [hslash] at hok
  cases hok
  obtain ⟨c, hc, rfl⟩ := List.mem_map.1 hleg
  obtain ⟨request, hrequest, hx, hcut⟩ := exists_leg_of_mem_cuts hc
  have hw := hadmits.wads_lt request hrequest
  obtain ⟨hbefore, hpos, hle⟩ := h.wellKept.cutOf_lowers hw hcut
  have hfall := h.wellKept.cutOf_maxAfter hw hcut
  have hmax : c.2.maxBefore = m.books.maxMagnitude ⟨r.operator, c.1⟩ := hx ▸ hbefore
  have hmax' : m'.books.maxMagnitude ⟨r.operator, c.1⟩ = c.2.maxAfter := hdown.lowered c hc
  have hposBefore : 0 < c.2.maxBefore.toNat := by
    rw [UInt64.lt_iff_toNat_lt, UInt64.toNat_zero] at hpos
    omega
  have hlost : (Magnitude.monus c.2.maxBefore c.2.maxAfter).toNat =
      c.2.maxBefore.toNat - c.2.maxAfter.toNat := Magnitude.toNat_monus _ _
  have hfollows := follows_legs h.wellKept hadmits.wads_lt hdistinct hburnt hdown a
  have hself : legOf m.delegation r.operator c ∈ legsAt r.operator
      ((m.cuts avs r).map (legOf m.delegation r.operator)) a := by
    rw [legsAt_eq_singleton (by rwa [strategy_legOf]) hleg]
    exact List.mem_singleton_self _
  change SlashLeg.Burns _ _ (m.books.maxMagnitude ⟨r.operator, c.1⟩).toNat _
    (m'.books.maxMagnitude ⟨r.operator, c.1⟩).toNat
  rw [← hmax, hmax']
  refine ⟨hposBefore, hfall, hfollows.burnt _ hself, ?_, ?_⟩
  · rw [← hlost, ← Nat.one_mul (2 ^ 256), ← Nat.shiftLeft_eq]
    exact Shares.toNat_portion_eq_mod _ _ _
  · rw [← hlost]
    exact Shares.toNat_portion_eq_iff hposBefore

/-- A quarter of seven shares is one. -/
theorem burn_exact_iff_quartering :
    let m := Sample.few.run Sample.sharing
    let a := Sample.position.account
    let m' := m.after (.call Sample.avs (.slashOperator Sample.avs Sample.quartering))
    (m'.delegation.shares a).toNat + 7 * 250000000000000000 / wad.toNat = 7 := by
  intro m a m'
  have hok : (m.attempt (perform Sample.avs (.slashOperator Sample.avs Sample.quartering))).1 =
      .ok (.slashed ⟨1, [⟨Sample.position.strategy, 250000000000000000, 1⟩]⟩) := by decide +kernel
  have hburns : SlashLeg.Burns ⟨Sample.position.strategy, 250000000000000000, 1⟩
      (m.delegation.shares a).toNat (m.books.maxMagnitude a).toNat (m'.delegation.shares a).toNat
      (m'.books.maxMagnitude a).toNat :=
    (Sample.reachable_few.run Sample.sharing).burn_exact_iff hok List.mem_cons_self
  have hshares : (m.delegation.shares a).toNat = 7 := by decide +kernel
  have hmax : (m.books.maxMagnitude a).toNat = wad.toNat := by decide +kernel
  have hmax' : (m'.books.maxMagnitude a).toNat = wad.toNat - 250000000000000000 := by
    decide +kernel
  have hburnt := hburns.burnt
  have hexact := hburns.exact_iff.2 (by rw [hshares, hmax, hmax']; decide)
  rw [hshares, hmax, hmax'] at hexact
  rw [hexact, hshares] at hburnt
  exact hburnt

/-- Not every leg burns the part of the balance that its account loses of the max. -/
theorem burn_falls_short :
    ¬∀ (m : LocalManager) (caller avs : Address) (r : SlashRequest) (outcome : SlashOutcome)
      (leg : SlashLeg), m.Reachable →
      (m.attempt (perform caller (.slashOperator avs r))).1 = .ok (.slashed outcome) →
      leg ∈ outcome.legs →
      let a : Account := ⟨r.operator, leg.strategy⟩
      let lost := (m.books.maxMagnitude a).toNat -
        ((m.after (.call caller (.slashOperator avs r))).books.maxMagnitude a).toNat
      leg.shares.toNat = (m.delegation.shares a).toNat * lost / (m.books.maxMagnitude a).toNat := by
  intro hexact
  have hquarter := hexact (Sample.vast.run Sample.sharing) Sample.avs Sample.avs Sample.quartering
    ⟨1, [⟨Sample.position.strategy, 250000000000000000,
      BitVec.ofNat 256 ((2 ^ 256 - 1) * 250000000000000000 % 2 ^ 256 / wad.toNat)⟩]⟩
    _ (Sample.reachable_vast.run Sample.sharing) (by decide +kernel) List.mem_cons_self
  revert hquarter
  decide +kernel

end Manager

end Restake
