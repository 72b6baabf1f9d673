import Restake.Proofs.Places
import Restake.Proofs.Reasons
import Restake.Proofs.Snapshots
import Restake.Proofs.Trail

/-!
What a slash takes and what it leaves. A slash goes ahead under six conditions, and from then on the
share ledger alone can stop it. Its legs are of different accounts, so each finds its position as it
was before the call and no leg after it comes back there.
-/
namespace Restake

open Steps

/-- What a slash of the part `w` leaves of an allocation that its block sees as `a`. -/
structure Allocation.Reduced (w : UInt64) (a left : Allocation) : Prop where
  current : left.current.toNat = a.current.toNat - a.current.toNat * w.toNat / wad.toNat
  effectBlock : left.effectBlock = a.effectBlock
  pending : 0 ≤ a.pending → left.pending = a.pending
  /-- A deallocation that waits keeps some of its magnitude. -/
  deallocating : ∀ p : Nat, 0 < p → a.pending = -p →
    1 ≤ p - p * w.toNat / wad.toNat ∧ left.pending = -((p - p * w.toNat / wad.toNat : Nat) : Int)

namespace Books

variable {b₀ b b' : Books} {config : Config} {block : BlockNumber} {p : Position} {w : UInt64}

/-- The magnitude that the part `w` of a position comes to at `block`. -/
def partOf (b : Books) (block : BlockNumber) (p : Position) (w : UInt64) : Nat :=
  ((b.allocation p).asOf block).current.toNat * w.toNat / wad.toNat

/-- From `b` to `b'` a position has lost the part `w` of what `block` sees in it. A deallocation that
was due at `block` gave up its magnitude before. -/
structure Reduced (block : BlockNumber) (p : Position) (w : UInt64) (b b' : Books) : Prop where
  allocation : ((b.allocation p).asOf block).Reduced w (b'.allocation p)
  maxMagnitude : (b'.maxMagnitude p.account).toNat + b.partOf block p w =
    (b.maxMagnitude p.account).toNat
  encumbered : ((b'.encumberedMagnitude p.account).toNat : Int) + b.partOf block p w =
    (b.encumberedMagnitude p.account).toNat + min (((b.allocation p).due? block).getD 0) 0

/-- The places where the magnitudes of an account are kept, and those that say which strategies the
sets hold. -/
def AtAccount (a : Account) : Place → Prop
  | .allocation p => p.account = a
  | .account c => c = a
  | .set _ => True
  | _ => False

theorem Reduced.of_sameAt {b'' : Books} (h : Reduced block p w b b')
    (hsame : SameAt (AtAccount p.account) b' b'') : Reduced block p w b b'' where
  allocation := by
    rw [hsame.allocation (p := p) rfl]
    exact h.allocation
  maxMagnitude := by
    rw [hsame.maxMagnitude (a := p.account) rfl]
    exact h.maxMagnitude
  encumbered := by
    rw [hsame.encumberedMagnitude (a := p.account) rfl]
    exact h.encumbered

/-- A cut touches the account of its position alone. -/
theorem cut_sameAt {a : Account} {r : Option Cut} (ha : p.account ≠ a)
    (h : cut p w block b = .ok r b') : SameAt (AtAccount a) b b' := by
  have haway : ∀ k ∈ p.places, ¬AtAccount a k := by
    intro k hk
    simp only [Position.places, List.mem_cons, List.not_mem_nil, or_false] at hk
    rcases hk with rfl | rfl | rfl
    · exact ha
    · exact ha
    · exact not_false
  rcases cut_ok h with ⟨-, rfl, -⟩ | ⟨c, al, encumbered, pending, -, -, -, -, -, rfl, -⟩
  · exact .refl _ _
  · exact ((SameAt.refl _ b).store_right haway _ _).reduceMax_right ha _ _

/-- What is left of a pending change is what is left of its magnitude. -/
theorem reduced_of_cutPending {al : Allocation} {pending : Int} (hw : w < wad)
    (h : cutPending { al with current := al.current - Magnitude.scale al.current w } w =
      .ok pending) :
    al.Reduced w { al with current := al.current - Magnitude.scale al.current w, pending } where
  current := by
    have hle := Magnitude.scale_le (m := al.current) (UInt64.le_of_lt hw)
    rw [UInt64.toNat_sub_of_le _ _ hle, Magnitude.toNat_scale_of_le (UInt64.le_of_lt hw)]
  effectBlock := rfl
  pending hup := by
    rcases cutPending_ok h with ⟨-, hsame⟩ | ⟨hdown, -⟩
    · exact hsame
    · exact absurd hup (Int.not_le.2 hdown)
  deallocating p hp hpending := by
    rcases cutPending_ok h with ⟨hup, -⟩ | ⟨-, q, hq, hleft⟩
    · dsimp only at hup
      omega
    · obtain rfl : q.toNat = p := by
        dsimp only at hq
        omega
      have hlt := Magnitude.scale_lt hw hp
      rw [Magnitude.toNat_scale_of_le (UInt64.le_of_lt hw)] at hlt hleft
      dsimp only
      omega

/-- A cut of a position that stands as it stood in `b₀` takes the part of it that `b₀` says. -/
theorem WellKept.reduced_cut (h : WellKept config block b₀)
    (hsame : SameAt (AtAccount p.account) b₀ b) (hw : w < wad)
    (hstrategy : (b₀.strategiesOf p.set).contains p.strategy)
    (hcurrent : ((b₀.allocation p).asOf block).current ≠ 0) {r : Option Cut}
    (hcut : Books.cut p w block b = .ok r b') : Reduced block p w b₀ b' := by
  have hallocation : b.allocation p = b₀.allocation p := hsame.allocation rfl
  have hsettled : b.settled p block = b₀.settled p block := hsame.settled rfl rfl block
  have hmax : b.maxMagnitude p.account = b₀.maxMagnitude p.account := hsame.maxMagnitude rfl
  rcases cut_ok hcut with
    ⟨-, -, hnone⟩ | ⟨c, al, encumbered, pending, -, hread, -, hshift, hpending, rfl, -⟩
  · rw [hsame.strategiesOf trivial, hallocation] at hnone
    exact absurd ⟨hstrategy, hcurrent⟩ hnone
  · rw [hsettled] at hread
    obtain ⟨rfl, -, hencumbered⟩ := b₀.settled_eq_ok.1 hread
    have hpart : b₀.partOf block p w =
        (Magnitude.scale ((b₀.allocation p).asOf block).current w).toNat :=
      (Magnitude.toNat_scale_of_le (UInt64.le_of_lt hw)).symm
    have hfits : Magnitude.scale ((b₀.allocation p).asOf block).current w ≤
        b₀.maxMagnitude p.account :=
      UInt64.le_trans (Magnitude.scale_le (UInt64.le_of_lt hw)) (h.current_asOf_le p)
    refine ⟨?_, ?_, ?_⟩
    · rw [allocation_reduceMax, allocation_store, if_pos rfl]
      exact reduced_of_cutPending hw hpending
    · rw [maxMagnitude_reduceMax, if_pos rfl, (store_frame _ _ _ _).1, hmax, hpart,
        Magnitude.toNat_monus]
      exact Nat.sub_add_cancel (UInt64.le_iff_toNat_le.1 hfits)
    · have hleft := Magnitude.shift?_eq_some_iff.1 hshift
      have hstored : ((b.store p { c with encumbered } { (b₀.allocation p).asOf block with
          current := ((b₀.allocation p).asOf block).current -
            Magnitude.scale ((b₀.allocation p).asOf block).current w, pending }).reduceMax p.account
          (Magnitude.scale ((b₀.allocation p).asOf block).current w)
          block).encumberedMagnitude p.account = encumbered := by
        rw [show ∀ (b : Books) a m, (b.reduceMax a m block).encumberedMagnitude =
          b.encumberedMagnitude from fun _ _ _ => rfl, encumberedMagnitude_store, if_pos rfl]
      rw [hstored, hpart]
      omega

end Books

namespace Manager

open Books

section Calls

variable {δ ρ π : Type} {m : Manager δ ρ π} {config : Config}

/-- A slash that goes through reduces each position that it can take from. -/
theorem leads_slashOperator_reduced [DelegationLedger δ] [PermissionController π]
    (hkept : WellKept config m.block m.books) {caller avs : Address} {r : SlashRequest}
    {x : Address} {w : UInt64} (hleg : (x, w) ∈ r.strategies.zip r.wads)
    (hstrategy : (m.books.strategiesOf ⟨avs, r.setId⟩).contains x)
    (hcurrent : (m.allocation ⟨⟨r.operator, ⟨avs, r.setId⟩⟩, x⟩).current ≠ 0) :
    Leads (m = ·) (slashOperator caller avs r)
      (fun _ m' => Reduced m.block ⟨⟨r.operator, ⟨avs, r.setId⟩⟩, x⟩ w m.books m'.books)
      fun _ => True := by
  let member : Membership := ⟨r.operator, ⟨avs, r.setId⟩⟩
  let p : Position := ⟨member, x⟩
  let Before (b : Books) : Prop := SameAt (AtAccount p.account) m.books b
  let After (b : Books) : Prop := Reduced m.block p w m.books b
  have hrequire := leads_requireCaller (m := m) avs caller .slashOperator
  refine Leads.bind (hrequire.weaken (fun _ h => h) (fun _ _ h => h) fun _ _ => trivial) fun _ =>
    Leads.bind (leads_atomically_ok (P := After) (fun b h => h.of_sameAt (.of_commit _ b)) ?_)
      fun _ => Leads.bind (M := fun _ m' => After m'.books) (Leads.modify ?_) fun _ =>
        Leads.pure fun _ h => h
  · -- the check decides that the legs are of different accounts
    refine Leads.get_bind fun m' hm => ?_
    refine Leads.bind (M := fun _ t => m.Amid (m.books.checkpoint = ·) t ∧
      ((r.strategies.zip r.wads).map Prod.fst).Nodup ∧ ∀ leg ∈ r.strategies.zip r.wads, leg.2 < wad)
      (Leads.ofExcept ?_ fun _ _ => trivial) fun _ => ?_
    · intro _ t ht hcheck
      obtain ⟨-, -, -, -, hwads⟩ := checkSlash_eq_ok.1 hcheck
      exact ⟨ht ▸ hm, distinct_of_checkSlash hcheck,
        fun leg hleg => (hwads leg.2 (List.of_mem_zip hleg).2).2⟩
    intro t hchecked
    obtain ⟨ht, hdistinct, hwads⟩ := hchecked
    obtain ⟨before, rest, hsplit⟩ := List.append_of_mem hleg
    rw [hsplit, List.map_append, List.map_cons, List.nodup_append, List.nodup_cons] at hdistinct
    obtain ⟨-, ⟨hrest, -⟩, hbefore⟩ := hdistinct
    have hcount : Leads (m.books.checkpoint = ·) (nextSlashId member.set) (fun _ => Before)
        fun _ => True := by
      intro b hb
      subst b
      exact { SameAt.of_checkpoint (AtAccount p.account) m.books with slashCounts := nofun }
    have hround : Leads Before (cut p w m.block) (fun _ => After) fun _ => True := by
      intro b hb
      cases hrun : cut p w m.block b with
      | ok c b' => exact hkept.reduced_cut hb (hwads _ hleg) hstrategy hcurrent hrun
      | error e b' => trivial
    have hother {P : Books → Prop} (hP : ∀ {b b'}, SameAt (AtAccount p.account) b b' → P b → P b')
        (leg : Address × UInt64) (hne : leg.1 ≠ x) :
        Leads P (cut ⟨member, leg.1⟩ leg.2 m.block) (fun _ => P) fun _ => True := by
      intro b hb
      cases hrun : cut ⟨member, leg.1⟩ leg.2 m.block b with
      | ok c b' =>
        have ha : Position.account ⟨member, leg.1⟩ ≠ p.account := fun heq =>
          hne (congrArg Account.strategy heq)
        exact hP (cut_sameAt ha hrun) hb
      | error e b' => trivial
    have hbefore' : ∀ leg ∈ before, leg.1 ≠ x := fun leg hleg =>
      hbefore leg.1 (List.mem_map_of_mem hleg) x List.mem_cons_self
    have hrest' : ∀ leg ∈ rest, leg.1 ≠ x := fun leg hmem heq =>
      hrest (List.mem_map.2 ⟨leg, hmem, heq⟩)
    refine Leads.bind (leads_onBooks_ok hcount) (fun id => Leads.bind
      (M := fun _ => m.Amid After) ?_ fun legs => ?_) t ht
    · rw [hsplit]
      refine Leads.mapM_split (fun leg hleg => leads_slashLeg_ok (hother ?_ leg (hbefore' leg hleg)))
        (leads_slashLeg_ok hround)
        fun leg hleg => leads_slashLeg_ok (hother ?_ leg (hrest' leg hleg))
      · exact fun hsame h => SameAt.trans h hsame
      · exact fun hsame h => Reduced.of_sameAt h hsame
    · refine Leads.bind (leads_onBooks_ok (Q := fun _ => After) (Leads.modify fun b hb => ?_))
        fun _ => Leads.pure fun _ h => h
      exact hb.of_sameAt ((SameAt.refl _ b).emit_right _)
  · intro m' hm
    obtain ⟨b, delegation, registrar, rfl, hb⟩ := hm
    exact hb

end Calls

/-- The six conditions under which a slash goes ahead. -/
structure MaySlash {δ ρ π : Type} [PermissionController π] (m : Manager δ ρ π) (caller avs : Address)
    (r : SlashRequest) : Prop where
  caller : caller = avs ∨ PermissionController.canCall m.permissions avs caller .slashOperator
  setExists : m.books.setExists ⟨avs, r.setId⟩
  slashable : m.isSlashable ⟨r.operator, ⟨avs, r.setId⟩⟩
  lengths : r.strategies.length = r.wads.length
  ascending : r.strategies.Pairwise fun x y => compare x y = .lt
  wads : ∀ w ∈ r.wads, 0 < w ∧ w < wad

section Slashes

variable {δ ρ π : Type} {m : Manager δ ρ π} [PermissionController π] {caller avs : Address}
  {r : SlashRequest}

theorem admits_iff : m.Admits caller avs r ↔ m.MaySlash caller avs r := by
  unfold Admits
  rw [mayCall_iff, checkSlash_eq_ok]
  constructor
  · rintro ⟨hcaller, hset, hslashable, hlengths, hascending, hwads⟩
    exact ⟨hcaller, hset, hslashable, hlengths, hascending, hwads⟩
  · rintro ⟨hcaller, hset, hslashable, hlengths, hascending, hwads⟩
    exact ⟨hcaller, hset, hslashable, hlengths, hascending, hwads⟩

/-- No check of a slash asks the share ledger. -/
theorem checkSlash_ne_delegation {b : Books} {s : OperatorSet} {block : BlockNumber} {e : Failure}
    (h : b.checkSlash s r block = .error e) (cause : DelegationFailure) : e ≠ .delegation cause := by
  rintro rfl
  simp only [checkSlash, unless_throw_eq_error] at h
  rcases h with ⟨-, h⟩ | ⟨-, ⟨-, h⟩ | ⟨-, ⟨-, h⟩ | ⟨-, ⟨-, h⟩ | ⟨-, h⟩⟩⟩⟩
  · cases h
  · cases h
  · cases h
  · cases h
  · split at h <;> cases h

/-- What the legs of a slash come to, as the views tell it. -/
theorem cuts_eq_filterMap (hadmits : m.Admits caller avs r) :
    (m.cuts avs r).map (fun c => (c.1, c.2.magnitude.toNat)) =
      (r.strategies.zip r.wads).filterMap fun leg =>
        if (m.books.strategiesOf ⟨avs, r.setId⟩).contains leg.1 ∧
            (m.allocation ⟨⟨r.operator, ⟨avs, r.setId⟩⟩, leg.1⟩).current ≠ 0 then
          some (leg.1, (m.allocation ⟨⟨r.operator, ⟨avs, r.setId⟩⟩, leg.1⟩).current.toNat *
            leg.2.toNat / wad.toNat)
        else none := by
  rw [Manager.cuts, Books.cuts, List.map_filterMap]
  apply List.filterMap_congr
  intro leg hleg
  have hw : leg.2 ≤ wad := UInt64.le_of_lt (hadmits.wads_lt leg hleg)
  rw [← Magnitude.toNat_scale_of_le hw, Option.map_map]
  unfold cutOf
  dsimp only
  rw [apply_ite (Option.map _)]
  rfl

variable [DelegationLedger δ]

/-- How a slash ends: it is not admitted, or the ledger refuses a leg, or its outcome has a leg for
every cut. -/
theorem attempt_slash_cases (hidle : m.books.Idle) (hkept : WellKept m.config m.block m.books)
    (caller avs : Address) (r : SlashRequest) :
    (¬m.Admits caller avs r ∧ ∃ e, slashOperator caller avs r m = .error e m ∧
        ∀ cause, e ≠ .delegation cause) ∨
      m.Admits caller avs r ∧
        ((∃ cause m', slashOperator caller avs r m = .error (.delegation cause) m') ∨
          ∃ legs m', slashOperator caller avs r m =
              .ok ⟨m.books.slashCount ⟨avs, r.setId⟩ + 1, legs⟩ m' ∧
            legs.map (fun leg => (leg.strategy, leg.magnitude)) =
              (m.cuts avs r).map fun c => (c.1, c.2.magnitude)) := by
  by_cases hadmits : m.Admits caller avs r
  · have hends := slashOperator_admitted hadmits hidle hkept
    refine .inr ⟨hadmits, ?_⟩
    cases hburns : burns r.operator (m.cuts avs r) m.delegation with
    | ok legs d =>
      rw [hburns] at hends
      obtain ⟨b, tally, hok, -⟩ := hends
      exact .inr ⟨legs, _, hok, legs_burns hburns⟩
    | error e d =>
      rw [hburns] at hends
      exact .inl ⟨e, _, hends⟩
  · obtain ⟨e, hfails, hreason⟩ := slashOperator_refused_for hadmits hidle
    refine .inl ⟨hadmits, e, hfails, fun cause => ?_⟩
    rcases hreason with rfl | hcheck
    · exact nofun
    · exact checkSlash_ne_delegation hcheck cause

variable [SetRegistrar ρ]

/-- A slash goes ahead under six conditions, and then fails at most because the ledger refuses a leg.
If it goes through, its outcome has a leg for each strategy that the set has and the operator has
allocated to, in order, and each of these positions is reduced by its part. -/
theorem Reachable.slash_exact (h : m.Reachable) (caller avs : Address) (r : SlashRequest) :
    let s : OperatorSet := ⟨avs, r.setId⟩
    let p (x : Address) : Position := ⟨⟨r.operator, s⟩, x⟩
    let answer := (m.attempt (perform caller (.slashOperator avs r))).1
    let m' := m.after (.call caller (.slashOperator avs r))
    ((∀ e, answer = .error e → ∃ cause, e = .delegation cause) ↔ m.MaySlash caller avs r) ∧
      ∀ reply, answer = .ok reply → ∃ outcome, reply = .slashed outcome ∧
        outcome.id = m.books.slashCount s + 1 ∧ m'.books.slashCount s = outcome.id ∧
        outcome.legs.map (fun leg => (leg.strategy, leg.magnitude.toNat)) =
          ((r.strategies.zip r.wads).filterMap fun leg =>
            if (m.books.strategiesOf s).contains leg.1 ∧ (m.allocation (p leg.1)).current ≠ 0 then
              some (leg.1, (m.allocation (p leg.1)).current.toNat * leg.2.toNat / wad.toNat)
            else none) ∧
        ∀ leg ∈ r.strategies.zip r.wads, (m.books.strategiesOf s).contains leg.1 →
          (m.allocation (p leg.1)).current ≠ 0 →
            Reduced m.block (p leg.1) leg.2 m.books m'.books := by
  intro s p answer m'
  have hattempt := attempt_slash m caller avs r
  have hanswer : answer = (m.attempt (perform caller (.slashOperator avs r))).1 := rfl
  have hm' : m' = (m.attempt (perform caller (.slashOperator avs r))).2 := rfl
  have hcases := attempt_slash_cases h.idle h.wellKept caller avs r
  clear_value answer m'
  rcases hcases with
    ⟨hrefused, e, hfails, hreason⟩ |
    ⟨hadmits, ⟨cause, m₁, hfails⟩ | ⟨legs, m₁, hok, hlegs⟩⟩
  · rw [hattempt, hfails] at hanswer
    subst hanswer
    refine ⟨⟨fun hledger => ?_, fun hmay => absurd (admits_iff.2 hmay) hrefused⟩, nofun⟩
    obtain ⟨cause, hcause⟩ := hledger e rfl
    exact absurd hcause (hreason cause)
  · rw [hattempt, hfails] at hanswer
    subst hanswer
    refine ⟨⟨fun _ => admits_iff.1 hadmits, fun _ e he => ?_⟩, nofun⟩
    cases he
    exact ⟨cause, rfl⟩
  · rw [hattempt, hok] at hanswer hm'
    subst hanswer hm'
    refine ⟨⟨fun _ => admits_iff.1 hadmits, nofun⟩, fun reply hreply => ?_⟩
    cases hreply
    refine ⟨_, rfl, rfl, ?_, ?_, fun leg hleg hstrategy hcurrent => ?_⟩
    · obtain ⟨events, -, hrecounts⟩ := ((leads_slashOperator_ok caller avs r).of_ok rfl hok).events
      have hcounted := hrecounts.counted s
      rwa [Call.slashes, if_pos rfl] at hcounted
    · have hmagnitudes := congrArg (List.map (Prod.map id UInt64.toNat)) hlegs
      rw [List.map_map, List.map_map] at hmagnitudes
      exact hmagnitudes.trans (cuts_eq_filterMap hadmits)
    · exact (leads_slashOperator_reduced h.wellKept hleg hstrategy hcurrent).of_ok rfl hok

/-- Half of a position is slashed while a part of it waits to be deallocated. -/
theorem slash_exact_deallocating :
    let m := Sample.start.run Sample.moves
    let slash : Call := .slashOperator Sample.avs
      ⟨Sample.operator, 1, [Sample.position.strategy], [500000000000000000], ""⟩
    let m' := m.after (.call Sample.avs slash)
    m.allocation Sample.position = ⟨600, -200, 17⟩ ∧
      (m'.books.allocation Sample.position).current.toNat = 300 ∧
      (m'.books.allocation Sample.position).pending = -100 ∧
      (m'.books.maxMagnitude Sample.position.account).toNat + 300 = wad.toNat := by
  intro m slash m'
  have hexact := Sample.reachable.slash_exact Sample.avs Sample.avs
    ⟨Sample.operator, 1, [Sample.position.strategy], [500000000000000000], ""⟩
  have hview : m.allocation Sample.position = ⟨600, -200, 17⟩ := by decide +kernel
  have hok : (m.attempt (perform Sample.avs slash)).1 =
      .ok (.slashed ⟨1, [⟨Sample.position.strategy, 300, 300⟩]⟩) := by decide +kernel
  have hmax : (m.books.maxMagnitude Sample.position.account).toNat = wad.toNat := by decide +kernel
  obtain ⟨outcome, -, -, -, -, hreduced⟩ := hexact.2 _ hok
  have hposition : Reduced m.block Sample.position 500000000000000000 m.books m'.books :=
    hreduced (Sample.position.strategy, 500000000000000000) List.mem_cons_self (by decide +kernel)
      (by decide +kernel)
  have hleft : Allocation.Reduced 500000000000000000 ⟨600, -200, 17⟩
      (m'.books.allocation Sample.position) := hview ▸ hposition.allocation
  have hpart : m.books.partOf m.block Sample.position 500000000000000000 = 300 := by decide +kernel
  refine ⟨hview, hleft.current, (hleft.deallocating 200 (by decide) rfl).2, ?_⟩
  rw [← hmax, ← hposition.maxMagnitude, hpart]

end Slashes

end Manager

end Restake
