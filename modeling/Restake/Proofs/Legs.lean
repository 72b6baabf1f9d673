import Restake.Proofs.Lockstep

/-!
What a slash comes down to. Its legs cut positions of different accounts, so the books that it finds
decide what each leg takes, and no cut fails. What is left open is what the share ledger says to
the burns, one after the other: if it accepts them all they are the legs of the outcome, and if it
refuses one the slash fails for that reason, with the ledger as the burns before have left it.
-/
namespace Restake

open Steps

namespace Books

variable {b b' : Books} {config : Config} {block : BlockNumber} {p : Position} {w : UInt64}

/-- What a slash of `w` takes from a position, if its set has the strategy and anything is
allocated. -/
def cutOf (b : Books) (block : BlockNumber) (p : Position) (w : UInt64) : Option Cut :=
  let a := (b.allocation p).asOf block
  let magnitude := Magnitude.scale a.current w
  if (b.strategiesOf p.set).contains p.strategy ∧ a.current ≠ 0 then
    some ⟨magnitude, b.maxMagnitude p.account, Magnitude.monus (b.maxMagnitude p.account) magnitude⟩
  else none

/-- The legs of a slash that passes its checks are of different strategies. -/
theorem distinct_of_checkSlash {s : OperatorSet} {r : SlashRequest} {u : Unit}
    (h : b.checkSlash s r block = .ok u) : ((r.strategies.zip r.wads).map Prod.fst).Nodup := by
  obtain ⟨-, -, hlength, hascending, -⟩ := checkSlash_eq_ok.1 h
  rw [List.map_fst_zip hlength.le]
  refine hascending.imp fun {x y} hlt heq => ?_
  have hself : compare y y = .eq := Std.ReflCmp.compare_self
  rw [heq, hself] at hlt
  cases hlt

/-- What the legs of a slash take, strategy by strategy, as the books stand before it. -/
def cuts (b : Books) (block : BlockNumber) (member : Membership) (legs : List (Address × UInt64)) :
    List (Address × Cut) :=
  legs.filterMap fun leg => (b.cutOf block ⟨member, leg.1⟩ leg.2).map (leg.1, ·)

theorem cuts_cons (b : Books) (block : BlockNumber) (member : Membership) (leg : Address × UInt64)
    (legs : List (Address × UInt64)) :
    b.cuts block member (leg :: legs) =
      ((b.cutOf block ⟨member, leg.1⟩ leg.2).map (leg.1, ·)).toList ++ b.cuts block member legs := by
  rw [cuts, List.filterMap_cons]
  cases b.cutOf block ⟨member, leg.1⟩ leg.2 <;> rfl

/-- The two agree on what is allocated to an account and on its max. -/
structure SameAccount (a : Account) (b b' : Books) : Prop where
  allocation : ∀ s, b'.allocation (a.position s) = b.allocation (a.position s)
  maxMagnitude : b'.maxMagnitude a = b.maxMagnitude a

theorem SameAccount.refl (a : Account) (b : Books) : SameAccount a b b := ⟨fun _ => rfl, rfl⟩

theorem SameAccount.trans {a : Account} {b'' : Books} (h : SameAccount a b b')
    (h' : SameAccount a b' b'') : SameAccount a b b'' :=
  ⟨fun s => (h'.allocation s).trans (h.allocation s), h'.maxMagnitude.trans h.maxMagnitude⟩

theorem cutOf_congr (hterms : SameTerms b b') (h : SameAccount p.account b b') :
    b'.cutOf block p w = b.cutOf block p w := by
  have hallocation : b'.allocation p = b.allocation p := h.allocation p.set
  unfold cutOf
  rw [hallocation, h.maxMagnitude, hterms.strategiesOf]

theorem cuts_congr {member : Membership} {legs : List (Address × UInt64)} (hterms : SameTerms b b')
    (h : ∀ x ∈ legs.map Prod.fst, SameAccount ⟨member.operator, x⟩ b b') :
    b'.cuts block member legs = b.cuts block member legs := by
  apply List.filterMap_congr
  intro leg hleg
  have hcut : b'.cutOf block ⟨member, leg.1⟩ leg.2 = b.cutOf block ⟨member, leg.1⟩ leg.2 :=
    cutOf_congr hterms (h leg.1 (List.mem_map_of_mem hleg))
  rw [hcut]

theorem cuts_of_reads (h : SameReads b b') (block : BlockNumber) (member : Membership)
    (legs : List (Address × UInt64)) : b'.cuts block member legs = b.cuts block member legs :=
  cuts_congr h.toSameTerms fun _ _ =>
    ⟨fun _ => congrFun h.allocation _, congrFun h.maxMagnitude _⟩

theorem exists_leg_of_mem_cuts {member : Membership} {legs : List (Address × UInt64)}
    {c : Address × Cut} (hc : c ∈ b.cuts block member legs) :
    ∃ leg ∈ legs, leg.1 = c.1 ∧ b.cutOf block ⟨member, leg.1⟩ leg.2 = some c.2 := by
  obtain ⟨leg, hleg, hmap⟩ := List.mem_filterMap.1 hc
  obtain ⟨cut, hcut, rfl⟩ := Option.map_eq_some_iff.1 hmap
  exact ⟨leg, hleg, rfl, hcut⟩

/-- The strategies that are cut are strategies of legs. -/
theorem cuts_sublist (b : Books) (block : BlockNumber) (member : Membership)
    (legs : List (Address × UInt64)) :
    ((b.cuts block member legs).map Prod.fst).Sublist (legs.map Prod.fst) := by
  induction legs with
  | nil => exact List.Sublist.refl _
  | cons leg legs ih =>
    rw [cuts_cons]
    cases b.cutOf block ⟨member, leg.1⟩ leg.2 with
    | none => exact ih.cons _
    | some cut => exact ih.cons_cons _

/-- The magnitude in force as of a block is part of what is encumbered. -/
theorem WellKept.current_asOf_le (h : WellKept config block b) (p : Position) :
    ((b.allocation p).asOf block).current ≤ b.maxMagnitude p.account := by
  have hheld := (h.balanced.sound p).held_asOf block
  have hle := h.balanced.held_le p
  have hfits := UInt64.le_iff_toNat_le.1 (h.balanced.fits p.account)
  unfold Allocation.held at hheld hle
  rw [UInt64.le_iff_toNat_le]
  omega

/-- A cut lowers the max by what it takes, and never to zero. -/
theorem WellKept.cutOf_lowers (h : WellKept config block b) (hw : w < wad) {cut : Cut}
    (hcut : b.cutOf block p w = some cut) :
    cut.maxBefore = b.maxMagnitude p.account ∧ 0 < cut.maxAfter ∧ cut.maxAfter ≤ cut.maxBefore := by
  unfold cutOf at hcut
  dsimp only at hcut
  split at hcut
  next hcan =>
    cases hcut
    have hle := UInt64.le_iff_toNat_le.1 (h.current_asOf_le p)
    have hpos : 0 < ((b.allocation p).asOf block).current.toNat := by
      rw [← UInt64.toNat_zero, ← UInt64.lt_iff_toNat_lt, UInt64.pos_iff_ne_zero]
      exact hcan.2
    have hlt := Magnitude.scale_lt hw hpos
    refine ⟨rfl, ?_, ?_⟩
    · rw [UInt64.lt_iff_toNat_lt, Magnitude.toNat_monus, UInt64.toNat_zero]
      omega
    · rw [UInt64.le_iff_toNat_le, Magnitude.toNat_monus]
      exact Nat.sub_le _ _
  · cases hcut

/-- `b'` are the books `b` once the legs of a slash have been cut from them. -/
structure CutDown (config : Config) (block : BlockNumber) (member : Membership)
    (legs : List (Address × UInt64)) (b b' : Books) : Prop where
  wellKept : WellKept config block b'
  terms : SameTerms b b'
  apart : ∀ a, (a.operator = member.operator →
    a.strategy ∉ (b.cuts block member legs).map Prod.fst) → SameAccount a b b'
  lowered : ∀ c ∈ b.cuts block member legs, b'.maxMagnitude ⟨member.operator, c.1⟩ = c.2.maxAfter

namespace CutDown

variable {member : Membership} {legs : List (Address × UInt64)}

theorem nil (h : WellKept config block b) : CutDown config block member [] b b where
  wellKept := h
  terms := .refl b
  apart a _ := .refl a b
  lowered _ hc := absurd hc List.not_mem_nil

theorem of_reads {b₀ b₁ : Books} (h : CutDown config block member legs b b') (hstart : SameReads b₀ b)
    (hend : SameReads b' b₁) : CutDown config block member legs b₀ b₁ := by
  have hcuts := cuts_of_reads hstart block member legs
  refine ⟨h.wellKept.of_magnitudes hend.toSameMagnitudes,
    hstart.toSameTerms.trans (h.terms.trans hend.toSameTerms), fun a ha => ?_, fun c hc => ?_⟩
  · have hsame := h.apart a (hcuts.symm ▸ ha)
    refine ⟨fun s => ?_, ?_⟩
    · rw [hend.allocation, hsame.allocation, hstart.allocation]
    · rw [hend.maxMagnitude, hsame.maxMagnitude, hstart.maxMagnitude]
  · rw [hend.maxMagnitude]
    exact h.lowered c (hcuts.symm ▸ hc)

/-- Accounts whose strategies no leg has are left alone. -/
theorem apart_of_notMem (h : CutDown config block member legs b b') {x : Address}
    (hx : x ∉ legs.map Prod.fst) (operator : Address) : SameAccount ⟨operator, x⟩ b b' :=
  h.apart ⟨operator, x⟩ fun _ hcut => hx ((cuts_sublist b block member legs).subset hcut)

/-- The legs that follow a leg cut other accounts, so what they take is decided before it. -/
theorem cuts_eq {leg : Address × UInt64} (h : CutDown config block member [leg] b b')
    (hnew : leg.1 ∉ legs.map Prod.fst) : b'.cuts block member legs = b.cuts block member legs := by
  refine cuts_congr h.terms fun x hx => h.apart_of_notMem (fun hleg => hnew ?_) member.operator
  rw [List.map_singleton, List.mem_singleton] at hleg
  exact hleg ▸ hx

theorem cons {b'' : Books} {leg : Address × UInt64} (hfirst : CutDown config block member [leg] b b')
    (hrest : CutDown config block member legs b' b'') (hnew : leg.1 ∉ legs.map Prod.fst) :
    CutDown config block member (leg :: legs) b b'' := by
  have hcuts : b.cuts block member (leg :: legs) =
      b.cuts block member [leg] ++ b'.cuts block member legs := by
    rw [hfirst.cuts_eq hnew]
    exact List.filterMap_append (l := [leg])
  refine ⟨hrest.wellKept, hfirst.terms.trans hrest.terms, fun a ha => ?_, fun c hc => ?_⟩
  · rw [hcuts, List.map_append] at ha
    exact (hfirst.apart a fun ho hx => ha ho (List.mem_append_left _ hx)).trans
      (hrest.apart a fun ho hx => ha ho (List.mem_append_right _ hx))
  · rw [hcuts, List.mem_append] at hc
    rcases hc with hc | hc
    · have hx : c.1 = leg.1 := by
        have hmem := (cuts_sublist b block member [leg]).subset (List.mem_map_of_mem hc)
        simpa using hmem
      rw [(hrest.apart_of_notMem (hx ▸ hnew) member.operator).maxMagnitude]
      exact hfirst.lowered c hc
    · exact hrest.lowered c hc

end CutDown

/-- On well-kept books a cut goes through and takes what the books say. -/
theorem WellKept.cut_apply (h : WellKept config block b) (member : Membership)
    {leg : Address × UInt64} (hw : leg.2 < wad) :
    ∃ b', Books.cut ⟨member, leg.1⟩ leg.2 block b =
        .ok (b.cutOf block ⟨member, leg.1⟩ leg.2) b' ∧ CutDown config block member [leg] b b' := by
  obtain ⟨x, w⟩ := leg
  obtain ⟨r, b', hok⟩ := h.cut_succeeds ⟨member, x⟩ hw
  refine ⟨b', ?_⟩
  rcases cut_ok hok with
    ⟨rfl, rfl, hnone⟩ |
    ⟨c, al, encumbered, pending, hstrategy, hsettled, hcurrent, hshift, hpending, rfl, rfl⟩
  · have hcut : b'.cutOf block ⟨member, x⟩ w = none := if_neg hnone
    refine ⟨hok.trans (by rw [hcut]), h, .refl b', fun a _ => .refl a b', fun e he => ?_⟩
    rw [cuts_cons, hcut] at he
    cases he
  · have hkept := h.cut hw hsettled hshift hpending
    have hterms := sameTerms_store b ⟨member, x⟩ { c with encumbered }
      { al with current := al.current - Magnitude.scale al.current w, pending }
    have hmax : ∀ a, ((b.store ⟨member, x⟩ { c with encumbered }
        { al with current := al.current - Magnitude.scale al.current w, pending }).reduceMax
          (Position.account ⟨member, x⟩) (Magnitude.scale al.current w) block).maxMagnitude a =
        if Position.account ⟨member, x⟩ = a then
          Magnitude.monus (b.maxMagnitude a) (Magnitude.scale al.current w)
        else b.maxMagnitude a := by
      intro a
      rw [maxMagnitude_reduceMax, (store_frame _ _ _ _).1]
      split
      next ha => rw [ha]
      next ha => rfl
    obtain ⟨hal, hbefore, -⟩ := b.settled_eq_ok.1 hsettled
    have hcut : b.cutOf block ⟨member, x⟩ w = some ⟨Magnitude.scale al.current w,
        b.maxMagnitude (Position.account ⟨member, x⟩),
        Magnitude.monus (b.maxMagnitude (Position.account ⟨member, x⟩))
          (Magnitude.scale al.current w)⟩ := by
      unfold cutOf
      rw [← hal]
      exact if_pos ⟨hstrategy, hcurrent⟩
    refine ⟨?_, hkept, hterms.trans (sameTerms_reduceMax _ _ _ _), fun a ha => ?_, fun e he => ?_⟩
    · have hafter := (hmax (Position.account ⟨member, x⟩)).trans (if_pos rfl)
      rw [hok, hcut, ← hafter, hbefore]
    · have hne : Position.account ⟨member, x⟩ ≠ a := by
        intro heq
        subst heq
        rw [cuts_cons, hcut] at ha
        exact ha rfl List.mem_cons_self
      refine ⟨fun s => ?_, (hmax a).trans (if_neg hne)⟩
      rw [allocation_reduceMax, allocation_store,
        if_neg fun hp => hne (position_eq_iff.1 hp.symm).1.symm]
    · rw [cuts_cons, hcut] at he
      obtain rfl := List.mem_singleton.1 he
      exact (hmax _).trans (if_pos rfl)

end Books

/-- The burns that cuts of an operator's accounts call for, one after the other. -/
def burns {δ : Type} [DelegationLedger δ] (operator : Address) :
    List (Address × Cut) → EStateM DelegationFailure δ (List SlashLeg)
  | [] => return []
  | (x, cut) :: rest => do
    let shares ← DelegationLedger.slashShares ⟨operator, x⟩ cut.maxBefore cut.maxAfter
    return ⟨x, cut.magnitude, shares⟩ :: (← burns operator rest)

theorem burns_cons {δ : Type} [DelegationLedger δ] (operator : Address) (c : Address × Cut)
    (cuts : List (Address × Cut)) :
    (burns operator (c :: cuts) : EStateM DelegationFailure δ (List SlashLeg)) =
      DelegationLedger.slashShares ⟨operator, c.1⟩ c.2.maxBefore c.2.maxAfter >>= fun shares =>
        burns operator cuts >>= fun legs => pure (⟨c.1, c.2.magnitude, shares⟩ :: legs) := rfl

/-- What the burns answer, leg by leg, is for the magnitudes that were cut. -/
theorem legs_burns {δ : Type} [DelegationLedger δ] {operator : Address}
    {cuts : List (Address × Cut)} {d d' : δ} {legs : List SlashLeg}
    (h : burns operator cuts d = .ok legs d') :
    legs.map (fun leg => (leg.strategy, leg.magnitude)) =
      cuts.map fun c => (c.1, c.2.magnitude) := by
  induction cuts generalizing d legs with
  | nil =>
    cases h
    rfl
  | cons c cuts ih =>
    rw [burns_cons] at h
    obtain ⟨shares, d₁, -, h⟩ := bind_eq_ok.1 h
    obtain ⟨rest, d₂, hrest, h⟩ := bind_eq_ok.1 h
    cases h
    rw [List.map_cons, List.map_cons, ih hrest]

namespace Manager

open Books

variable {δ ρ π : Type} {m : Manager δ ρ π} {config : Config}

/-- Whether a slash gets as far as its legs. -/
def Admits [PermissionController π] (m : Manager δ ρ π) (caller avs : Address) (r : SlashRequest) :
    Prop :=
  m.mayCall avs caller .slashOperator ∧ m.books.checkSlash ⟨avs, r.setId⟩ r m.block = .ok ()

/-- What the legs of a slash would take. -/
def cuts (m : Manager δ ρ π) (avs : Address) (r : SlashRequest) : List (Address × Cut) :=
  m.books.cuts m.block ⟨r.operator, ⟨avs, r.setId⟩⟩ (r.strategies.zip r.wads)

theorem Admits.nodup [PermissionController π] {caller avs : Address} {r : SlashRequest}
    (h : m.Admits caller avs r) : ((r.strategies.zip r.wads).map Prod.fst).Nodup :=
  distinct_of_checkSlash h.2

theorem Admits.wads_lt [PermissionController π] {caller avs : Address} {r : SlashRequest}
    (h : m.Admits caller avs r) : ∀ leg ∈ r.strategies.zip r.wads, leg.2 < wad := by
  obtain ⟨-, -, -, -, hwads⟩ := checkSlash_eq_ok.1 h.2
  exact fun leg hleg => (hwads leg.2 (List.of_mem_zip hleg).2).2

variable [DelegationLedger δ]

/-- One leg of a slash is a cut of the books and the burn that it calls for. -/
theorem slashLeg_apply (h : WellKept config m.block m.books) (member : Membership)
    {leg : Address × UInt64} (hw : leg.2 < wad) :
    ∃ b, CutDown config m.block member [leg] m.books b ∧
      slashLeg ⟨member, leg.1⟩ leg.2 m = match m.books.cutOf m.block ⟨member, leg.1⟩ leg.2 with
        | none => .ok none { m with books := b }
        | some cut =>
          match DelegationLedger.slashShares ⟨member.operator, leg.1⟩ cut.maxBefore cut.maxAfter
              m.delegation with
          | .ok shares d =>
            .ok (some ⟨leg.1, cut.magnitude, shares⟩) { m with books := b, delegation := d }
          | .error e d => .error (.delegation e) { m with books := b, delegation := d } := by
  obtain ⟨b, hcut, hdown⟩ := h.cut_apply member hw
  refine ⟨b, hdown, ?_⟩
  have hbooks : (onBooks (cut ⟨member, leg.1⟩ leg.2 m.block) : Managing δ ρ π (Option Cut)) m =
      .ok (m.books.cutOf m.block ⟨member, leg.1⟩ leg.2) { m with books := b } := by
    rw [onBooks, hcut]
  rw [slashLeg, get_bind_apply, bind_apply, hbooks]
  cases m.books.cutOf m.block ⟨member, leg.1⟩ leg.2 with
  | none => rfl
  | some cut =>
    dsimp only
    rw [bind_apply]
    unfold onDelegation
    dsimp only [Position.account, Position.operator]
    cases DelegationLedger.slashShares ⟨member.operator, leg.1⟩ cut.maxBefore cut.maxAfter
      m.delegation <;> rfl

/-- The legs of a slash cut what the books say, and the ledger decides how far they come. -/
theorem slashLegs_apply (h : WellKept config m.block m.books) (member : Membership)
    {legs : List (Address × UInt64)} (hdistinct : (legs.map Prod.fst).Nodup)
    (hwads : ∀ leg ∈ legs, leg.2 < wad) :
    ∃ b, match burns member.operator (m.books.cuts m.block member legs) m.delegation with
      | .ok taken d => CutDown config m.block member legs m.books b ∧
        ∃ r, legs.mapM (fun leg => slashLeg ⟨member, leg.1⟩ leg.2) m =
          .ok r { m with books := b, delegation := d } ∧ r.filterMap id = taken
      | .error e d => legs.mapM (fun leg => slashLeg ⟨member, leg.1⟩ leg.2) m =
          .error (.delegation e) { m with books := b, delegation := d } := by
  induction legs generalizing m with
  | nil => exact ⟨m.books, .nil h, [], rfl, rfl⟩
  | cons leg legs ih =>
    obtain ⟨hnew, hdistinct⟩ := List.nodup_cons.1 hdistinct
    have hwads' : ∀ l ∈ legs, l.2 < wad := fun l hl => hwads l (List.mem_cons_of_mem leg hl)
    obtain ⟨b₁, hfirst, hleg⟩ := slashLeg_apply h member (hwads leg List.mem_cons_self)
    rw [cuts_cons, ← hfirst.cuts_eq hnew, List.mapM_cons, bind_apply]
    cases hcut : m.books.cutOf m.block ⟨member, leg.1⟩ leg.2 with
    | none =>
      rw [hcut] at hleg
      obtain ⟨b, hrest⟩ := ih (m := { m with books := b₁ }) hfirst.wellKept hdistinct hwads'
      rw [hleg, Option.map_none, Option.toList_none, List.nil_append]
      refine ⟨b, ?_⟩
      dsimp only at hrest ⊢
      cases hburns : burns member.operator (b₁.cuts m.block member legs) m.delegation with
      | ok taken d =>
        rw [hburns] at hrest
        obtain ⟨hdown, r, hrun, htaken⟩ := hrest
        exact ⟨hfirst.cons hdown hnew, none :: r, bind_eq_ok.2 ⟨r, _, hrun, rfl⟩, htaken⟩
      | error e d =>
        rw [hburns] at hrest
        exact bind_eq_error.2 (.inl hrest)
    | some cut =>
      rw [hcut] at hleg
      rw [Option.map_some, Option.toList_some, List.singleton_append, burns_cons, bind_apply]
      dsimp only at hleg ⊢
      cases hshares : DelegationLedger.slashShares ⟨member.operator, leg.1⟩ cut.maxBefore
          cut.maxAfter m.delegation with
      | error e d =>
        rw [hshares] at hleg
        rw [hleg]
        exact ⟨b₁, rfl⟩
      | ok shares d₁ =>
        rw [hshares] at hleg
        obtain ⟨b, hrest⟩ := ih (m := { m with books := b₁, delegation := d₁ }) hfirst.wellKept
          hdistinct hwads'
        rw [hleg]
        refine ⟨b, ?_⟩
        dsimp only at hrest ⊢
        rw [bind_apply]
        cases hburns : burns member.operator (b₁.cuts m.block member legs) d₁ with
        | ok taken d =>
          rw [hburns] at hrest
          obtain ⟨hdown, r, hrun, rfl⟩ := hrest
          exact ⟨hfirst.cons hdown hnew, some ⟨leg.1, cut.magnitude, shares⟩ :: r,
            bind_eq_ok.2 ⟨r, _, hrun, rfl⟩, rfl⟩
        | error e d =>
          rw [hburns] at hrest
          exact bind_eq_error.2 (.inl hrest)

variable [PermissionController π] {caller avs : Address} {r : SlashRequest}

/-- A slash that is not admitted fails at once, for the caller or for the first check it fails. -/
theorem slashOperator_refused_for (h : ¬m.Admits caller avs r) (hidle : m.books.Idle) :
    ∃ e, slashOperator caller avs r m = .error e m ∧ (e = .unauthorized avs caller .slashOperator ∨
      m.books.checkSlash ⟨avs, r.setId⟩ r m.block = .error e) := by
  rw [slashOperator, bind_apply, requireCaller, get_bind_apply]
  by_cases hcaller : m.mayCall avs caller .slashOperator
  · rw [if_pos hcaller]
    cases hcheck : m.books.checkpoint.checkSlash ⟨avs, r.setId⟩ r m.block with
    | ok u => exact absurd ⟨hcaller, hcheck⟩ h
    | error e =>
      refine ⟨e, bind_eq_error.2 (.inl ?_), .inr hcheck⟩
      have hrevert : m.books.checkpoint.revert = m.books := (rewinds_checkpoint hidle).revert_eq
      rw [atomically_error { m with books := m.books.checkpoint }, hrevert]
      rw [get_bind_apply, hcheck]
      rfl
  · rw [if_neg hcaller]
    exact ⟨_, rfl, .inl rfl⟩

theorem slashOperator_refused (h : ¬m.Admits caller avs r) (hidle : m.books.Idle) :
    ∃ e, slashOperator caller avs r m = .error e m := by
  obtain ⟨e, hfails, -⟩ := slashOperator_refused_for h hidle
  exact ⟨e, hfails⟩

/-- Once a slash is admitted the ledger alone decides how it ends. -/
theorem slashOperator_admitted (h : m.Admits caller avs r) (hidle : m.books.Idle)
    (hkept : WellKept config m.block m.books) :
    match burns r.operator (m.cuts avs r) m.delegation with
    | .ok legs d => ∃ b tally, slashOperator caller avs r m =
        .ok ⟨m.books.slashCount ⟨avs, r.setId⟩ + 1, legs⟩
          { m with books := b, delegation := d, tally } ∧
        CutDown config m.block ⟨r.operator, ⟨avs, r.setId⟩⟩ (r.strategies.zip r.wads) m.books b
    | .error e d =>
      slashOperator caller avs r m = .error (.delegation e) { m with delegation := d } := by
  have hcaller : requireCaller avs caller .slashOperator m = .ok () m := by
    rw [requireCaller, get_bind_apply, if_pos h.1]
    rfl
  have hcheck : m.books.checkpoint.checkSlash ⟨avs, r.setId⟩ r m.block = .ok () := h.2
  -- the legs start from books in which the count alone is new
  let member : Membership := ⟨r.operator, ⟨avs, r.setId⟩⟩
  let counted := m.books.checkpoint.slashCounted member.set
  have hsame : SameReads m.books counted := ⟨⟨rfl, rfl, rfl, rfl⟩, ⟨rfl, rfl, rfl, rfl⟩⟩
  have hcuts : counted.cuts m.block member (r.strategies.zip r.wads) = m.cuts avs r :=
    cuts_of_reads hsame _ _ _
  have hcounted : WellKept config m.block counted := hkept.of_magnitudes hsame.toSameMagnitudes
  obtain ⟨b, hlegs⟩ := slashLegs_apply (m := { m with books := counted }) hcounted member h.nodup
    h.wads_lt
  dsimp only at hlegs
  rw [hcuts] at hlegs
  cases hburns : burns r.operator (m.cuts avs r) m.delegation with
  | ok legs d =>
    rw [hburns] at hlegs
    obtain ⟨hdown, replies, hrun, rfl⟩ := hlegs
    have hid : m.books.slashCount member.set + 1 = counted.slashCount member.set := by
      rw [slashCount_slashCounted, if_pos rfl]
      rfl
    let event : Event := .operatorSlashed member r.strategies r.wads r.description
      (counted.slashCount member.set)
    dsimp only
    rw [hid]
    refine ⟨(b.emit event).commit, _, bind_eq_ok.2 ⟨(), m, hcaller, bind_eq_ok.2 ⟨_, _,
      atomically_ok { m with books := b.emit event, delegation := d } ?_, rfl⟩⟩, ?_⟩
    · rw [get_bind_apply, hcheck, ofExcept_bind_apply]
      exact bind_eq_ok.2 ⟨_, { m with books := counted }, rfl, bind_eq_ok.2 ⟨_, _, hrun, rfl⟩⟩
    · exact hdown.of_reads hsame ⟨⟨rfl, rfl, rfl, rfl⟩, ⟨rfl, rfl, rfl, rfl⟩⟩
  | error e d =>
    rw [hburns] at hlegs
    have hfails : slashOperator caller avs r m =
        .error (.delegation e) { m with books := b.revert, delegation := d } := by
      refine bind_eq_error.2 (.inr ⟨(), m, hcaller, bind_eq_error.2 (.inl ?_)⟩)
      refine atomically_error { m with books := b, delegation := d } ?_
      rw [get_bind_apply, hcheck, ofExcept_bind_apply]
      exact bind_eq_error.2 (.inr ⟨_, { m with books := counted }, rfl,
        bind_eq_error.2 (.inl hlegs)⟩)
    obtain ⟨delegation, registrar, hsame⟩ :=
      (leads_slashOperator hidle caller avs r).of_error rfl hfails
    have hbooks : b.revert = m.books := congrArg Manager.books hsame
    rw [hfails, hbooks]

end Manager

end Restake
