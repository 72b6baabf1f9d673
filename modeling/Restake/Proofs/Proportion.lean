import Mathlib.Data.List.TakeWhile
import Mathlib.Logic.Function.Basic
import Restake.Local.Guarded
import Restake.Proofs.Legs

/-!
What a slash costs a share ledger that takes its part of each balance, or refuses to slash an
account for a reason that burns do not change. The burns of a slash then go on up to the first
account that is refused, and each of them takes what the balance before the slash calls for.
-/
namespace Restake

open LocalDelegation (burn)

/-- A ledger that burns shares in proportion wherever it does not refuse. -/
class ProportionalLedger (δ : Type) [DelegationLedger δ] where
  /-- Why the shares of an account are not slashed, if they are not. -/
  refusal : δ → Account → Option DelegationFailure
  refused {d : δ} {a : Account} {e : DelegationFailure} (before after : Magnitude) :
    refusal d a = some e → DelegationLedger.slashShares a before after d = .error e d
  accepted {d : δ} {a : Account} (before after : Magnitude) : refusal d a = none →
    ∃ d', DelegationLedger.slashShares a before after d =
        .ok (burn (DelegationLedger.shares d a) before after) d' ∧
      refusal d' = refusal d ∧
      DelegationLedger.shares d' = Function.update (DelegationLedger.shares d) a
        (DelegationLedger.shares d a - burn (DelegationLedger.shares d a) before after)

namespace LocalDelegation

variable {d : LocalDelegation} {a : Account} {before after : Magnitude}

theorem burn_zero (before after : Magnitude) : burn 0 before after = 0 := by
  unfold burn Shares.portion
  split
  · rfl
  · have hnone : (0 : Shares) * .ofNat 256 (Magnitude.monus before after).toNat = 0 := BitVec.zero_mul
    rw [hnone]
    exact BitVec.zero_udiv

theorem sharesOf_setShares (d : LocalDelegation) (a : Account) (s : Shares) (operator : Address) :
    (d.setShares a s).sharesOf operator =
      if a.operator = operator then (d.sharesOf operator).insert a.strategy s
      else d.sharesOf operator := by
  unfold sharesOf setShares
  dsimp only
  rw [Std.ExtTreeMap.getElem?_insert]
  simp only [Std.LawfulEqOrd.compare_eq_iff_eq]
  split
  next h => rw [← h]; rfl
  next => rfl

theorem shares_setShares (d : LocalDelegation) (a : Account) (s : Shares) :
    (d.setShares a s).shares = Function.update d.shares a s := by
  funext a'
  unfold shares
  rw [sharesOf_setShares, Function.update_apply]
  by_cases hoperator : a.operator = a'.operator
  · rw [if_pos hoperator, Std.ExtTreeMap.getElem?_insert]
    simp only [Std.LawfulEqOrd.compare_eq_iff_eq]
    by_cases hstrategy : a.strategy = a'.strategy
    · have ha : a' = a := by
        cases a
        exact (congrArg₂ Account.mk hoperator hstrategy).symm
      rw [if_pos hstrategy, if_pos ha]
      rfl
    · have ha : a' ≠ a := fun ha => hstrategy (congrArg Account.strategy ha).symm
      rw [if_neg hstrategy, if_neg ha]
  · have ha : a' ≠ a := fun ha => hoperator (congrArg Account.operator ha).symm
    rw [if_neg hoperator, if_neg ha]

theorem isOperator_setShares (h : d.isOperator a.operator) (s : Shares) :
    (d.setShares a s).isOperator = d.isOperator := by
  funext operator
  unfold isOperator setShares at *
  rw [Std.ExtTreeMap.contains_insert, Bool.or_eq_right_iff_imp, beq_iff_eq,
    Std.LawfulEqOrd.compare_eq_iff_eq]
  rintro rfl
  exact h

theorem slashShares_unknown (h : ¬d.isOperator a.operator) :
    slashShares a before after d = .error (.unknownOperator a.operator) d := by
  have hnone : d.table[a.operator]? = none := by
    rwa [← Option.not_isSome_iff_eq_none, Std.ExtTreeMap.isSome_getElem?_eq_contains]
  rw [slashShares, Steps.get_bind_apply, hnone]
  rfl

/-- A balance that is not in the table is one of no shares, and burns nothing. -/
theorem slashShares_known (h : d.isOperator a.operator) :
    ∃ d', slashShares a before after d = .ok (burn (d.shares a) before after) d' ∧
      d'.isOperator = d.isOperator ∧
      d'.shares = Function.update d.shares a (d.shares a - burn (d.shares a) before after) := by
  obtain ⟨balances, htable⟩ : ∃ balances, d.table[a.operator]? = some balances := by
    rw [← Option.isSome_iff_exists, Std.ExtTreeMap.isSome_getElem?_eq_contains]
    exact h
  have hsharesOf : d.sharesOf a.operator = balances := by
    rw [sharesOf, htable]
    rfl
  rw [slashShares, Steps.get_bind_apply, htable]
  dsimp only
  cases hshares : balances[a.strategy]? with
  | none =>
    have hzero : d.shares a = 0 := by
      rw [shares, hsharesOf, hshares]
      rfl
    refine ⟨d, ?_, rfl, ?_⟩
    · rw [hzero, burn_zero]
      rfl
    · have hleft : d.shares a - burn (d.shares a) before after = d.shares a := by
        rw [hzero, burn_zero]
        rfl
      rw [hleft, Function.update_eq_self]
  | some held =>
    have hheld : d.shares a = held := by
      rw [shares, hsharesOf, hshares]
      rfl
    rw [hheld]
    exact ⟨d.setShares a (held - burn held before after), rfl, isOperator_setShares h _,
      shares_setShares d a _⟩

instance : ProportionalLedger LocalDelegation where
  refusal d a := if d.isOperator a.operator then none else some (.unknownOperator a.operator)
  refused before after h := by
    split at h
    next => cases h
    next hunknown =>
      cases h
      exact slashShares_unknown hunknown
  accepted {d a} before after h := by
    split at h
    next hknown =>
      obtain ⟨d', hburnt, hoperators, hshares⟩ := slashShares_known hknown
      exact ⟨d', hburnt, by rw [hoperators], hshares⟩
    next => cases h

theorem refusal_eq (d : LocalDelegation) (a : Account) : ProportionalLedger.refusal d a =
    if d.isOperator a.operator then none else some (.unknownOperator a.operator) := rfl

end LocalDelegation

namespace Guarded

variable {δ : Type} [DelegationLedger δ]

theorem slashShares_apply (g : Guarded δ) (a : Account) (before after : Magnitude) :
    slashShares a before after g = match g.closed[a.strategy]? with
      | some reason => .error (.slashFailed reason) g
      | none =>
        if g.hidden.contains a.operator then .error (.unknownOperator a.operator) g
        else match DelegationLedger.slashShares a before after g.ledger with
          | .ok shares ledger => .ok shares { g with ledger }
          | .error e ledger => .error e { g with ledger } := rfl

/-- The guard refuses for its own reasons first. -/
instance [ProportionalLedger δ] : ProportionalLedger (Guarded δ) where
  refusal g a :=
    match g.closed[a.strategy]? with
    | some reason => some (.slashFailed reason)
    | none =>
      if g.hidden.contains a.operator then some (.unknownOperator a.operator)
      else ProportionalLedger.refusal g.ledger a
  refused {g a e} before after h := by
    refine (slashShares_apply g a before after).trans ?_
    cases hclosed : g.closed[a.strategy]? with
    | some reason =>
      rw [hclosed] at h
      cases h
      rfl
    | none =>
      rw [hclosed] at h
      dsimp only at h ⊢
      split at h
      next hhidden =>
        cases h
        rw [if_pos hhidden]
      next hhidden =>
        rw [if_neg hhidden, ProportionalLedger.refused before after h]
  accepted {g a} before after h := by
    cases hclosed : g.closed[a.strategy]? with
    | some reason =>
      rw [hclosed] at h
      cases h
    | none =>
      rw [hclosed] at h
      dsimp only at h
      split at h
      next => cases h
      next hhidden =>
        obtain ⟨ledger, hburnt, hrefusal, hshares⟩ := ProportionalLedger.accepted before after h
        refine ⟨{ g with ledger }, (slashShares_apply g a before after).trans ?_, ?_, hshares⟩
        · rw [hclosed]
          dsimp only
          rw [if_neg hhidden, hburnt]
          rfl
        · funext a'
          dsimp only
          rw [hrefusal]

end Guarded

section Burns

variable {δ : Type} [DelegationLedger δ] {operator : Address} {cuts : List (Address × Cut)} {d d' : δ}

open DelegationLedger (shares)
open ProportionalLedger (refusal)

/-- The leg that a cut of an operator makes, with the shares that its balance in `d` calls for. -/
def legOf (d : δ) (operator : Address) (c : Address × Cut) : SlashLeg :=
  ⟨c.1, c.2.magnitude, burn (shares d ⟨operator, c.1⟩) c.2.maxBefore c.2.maxAfter⟩

/-- The legs of a slash of an operator that fall on an account. -/
def legsAt (operator : Address) (legs : List SlashLeg) (a : Account) : List SlashLeg :=
  if a.operator = operator then legs.filter fun leg => leg.strategy = a.strategy else []

/-- The shares that an account loses by the legs of a slash of an operator. -/
def lostTo (operator : Address) (legs : List SlashLeg) (a : Account) : Shares :=
  (legsAt operator legs a).foldl (fun n leg => n + leg.shares) 0

theorem legsAt_cons (operator : Address) (leg : SlashLeg) (legs : List SlashLeg) (a : Account) :
    legsAt operator (leg :: legs) a =
      if a = ⟨operator, leg.strategy⟩ then leg :: legsAt operator legs a
      else legsAt operator legs a := by
  unfold legsAt
  by_cases hoperator : a.operator = operator
  · rw [if_pos hoperator, if_pos hoperator]
    by_cases hstrategy : leg.strategy = a.strategy
    · have ha : a = ⟨operator, leg.strategy⟩ := by rw [hstrategy, ← hoperator]
      rw [if_pos ha, List.filter_cons_of_pos (by simpa using hstrategy)]
    · have ha : a ≠ ⟨operator, leg.strategy⟩ := fun ha =>
        hstrategy (congrArg Account.strategy ha).symm
      rw [if_neg ha, List.filter_cons_of_neg (by simpa using hstrategy)]
  · have ha : a ≠ ⟨operator, leg.strategy⟩ := fun ha => hoperator (congrArg Account.operator ha)
    rw [if_neg hoperator, if_neg hoperator, if_neg ha]

theorem legsAt_eq_nil {legs : List SlashLeg} {a : Account}
    (h : a.operator = operator → a.strategy ∉ legs.map SlashLeg.strategy) :
    legsAt operator legs a = [] := by
  unfold legsAt
  split
  next hoperator =>
    rw [List.filter_eq_nil_iff]
    intro leg hleg hstrategy
    exact h hoperator (of_decide_eq_true hstrategy ▸ List.mem_map_of_mem hleg)
  next => rfl

/-- The legs of a slash are in distinct strategies, so at most one falls on an account. -/
theorem legsAt_eq_singleton {legs : List SlashLeg} {leg : SlashLeg}
    (hdistinct : (legs.map SlashLeg.strategy).Nodup) (hleg : leg ∈ legs) :
    legsAt operator legs ⟨operator, leg.strategy⟩ = [leg] := by
  induction legs with
  | nil => cases hleg
  | cons first legs ih =>
    obtain ⟨hnew, hdistinct⟩ := List.nodup_cons.1 hdistinct
    rw [legsAt_cons]
    rcases List.mem_cons.1 hleg with rfl | hleg
    · rw [if_pos rfl, legsAt_eq_nil fun _ => hnew]
    · have hother : (⟨operator, leg.strategy⟩ : Account) ≠ ⟨operator, first.strategy⟩ := by
        intro heq
        have hstrategy : leg.strategy = first.strategy := congrArg Account.strategy heq
        exact hnew (hstrategy ▸ List.mem_map_of_mem hleg)
      rw [if_neg hother, ih hdistinct hleg]

theorem lostTo_of_nil {legs : List SlashLeg} {a : Account} (h : legsAt operator legs a = []) :
    lostTo operator legs a = 0 := by
  rw [lostTo, h]
  rfl

theorem lostTo_of_singleton {legs : List SlashLeg} {leg : SlashLeg} {a : Account}
    (h : legsAt operator legs a = [leg]) : lostTo operator legs a = leg.shares := by
  rw [lostTo, h]
  exact BitVec.zero_add _

theorem strategy_legOf (d : δ) (operator : Address) (cuts : List (Address × Cut)) :
    (cuts.map (legOf d operator)).map SlashLeg.strategy = cuts.map Prod.fst := by
  rw [List.map_map]
  rfl

/-- A burn in another strategy does not change what the balances call for. -/
theorem map_legOf_update {x : Address} {s : Shares} (hnew : x ∉ cuts.map Prod.fst)
    (hshares : shares d' = Function.update (shares d) ⟨operator, x⟩ s) :
    cuts.map (legOf d' operator) = cuts.map (legOf d operator) := by
  apply List.map_congr_left
  intro c hc
  have hother : (⟨operator, c.1⟩ : Account) ≠ ⟨operator, x⟩ := by
    rintro ⟨⟩
    exact hnew (List.mem_map_of_mem hc)
  rw [legOf, legOf, hshares, Function.update_of_ne hother]

variable [ProportionalLedger δ]

/-- The cuts that come before the first one whose burn is refused. -/
def acceptedCuts (d : δ) (operator : Address) (cuts : List (Address × Cut)) : List (Address × Cut) :=
  cuts.takeWhile fun c => (refusal d ⟨operator, c.1⟩).isNone

/-- Why the burns of a slash stop before the last one, if they do. -/
def firstRefusal (d : δ) (operator : Address) (cuts : List (Address × Cut)) :
    Option DelegationFailure :=
  cuts.findSome? fun c => refusal d ⟨operator, c.1⟩

theorem acceptedCuts_eq_self (h : firstRefusal d operator cuts = none) :
    acceptedCuts d operator cuts = cuts := by
  rw [firstRefusal, List.findSome?_eq_none_iff] at h
  exact List.takeWhile_eq_self_iff.2 fun c hc => by rw [h c hc]; rfl

/-- `d'` is the ledger `d` after the burns that cuts of an operator call for. -/
structure Burnt (operator : Address) (cuts : List (Address × Cut)) (d d' : δ) : Prop where
  refusals : refusal d' = refusal d
  balances : ∀ a, shares d' a = shares d a - lostTo operator (cuts.map (legOf d operator)) a

/-- The balances in which nothing is cut stay as they are. -/
theorem Burnt.balance_eq (h : Burnt operator cuts d d') {a : Account}
    (ha : a.operator = operator → a.strategy ∉ cuts.map Prod.fst) : shares d' a = shares d a := by
  rw [h.balances, lostTo_of_nil (legsAt_eq_nil (by rwa [strategy_legOf]))]
  exact BitVec.sub_zero _

theorem Burnt.nil (operator : Address) (d : δ) : Burnt operator [] d d := by
  refine ⟨rfl, fun a => ?_⟩
  rw [lostTo_of_nil (legsAt_eq_nil fun _ => List.not_mem_nil)]
  exact (BitVec.sub_zero _).symm

theorem Burnt.cons {d₁ : δ} {c : Address × Cut} (hnew : c.1 ∉ cuts.map Prod.fst)
    (hrefusal : refusal d₁ = refusal d)
    (hshares : shares d₁ = Function.update (shares d) ⟨operator, c.1⟩
      (shares d ⟨operator, c.1⟩ - (legOf d operator c).shares))
    (hrest : Burnt operator cuts d₁ d') : Burnt operator (c :: cuts) d d' := by
  refine ⟨hrest.refusals.trans hrefusal, fun a => ?_⟩
  have hhead : (legOf d operator c).strategy = c.1 := rfl
  have hcons := legsAt_cons operator (legOf d operator c) (cuts.map (legOf d operator)) a
  rw [hhead] at hcons
  rw [hrest.balances, map_legOf_update hnew hshares, List.map_cons, hshares]
  by_cases ha : a = ⟨operator, c.1⟩
  · have hnone : legsAt operator (cuts.map (legOf d operator)) a = [] :=
      legsAt_eq_nil fun _ => by rwa [strategy_legOf, ha]
    rw [if_pos ha, hnone] at hcons
    rw [lostTo_of_nil hnone, lostTo_of_singleton hcons, ha, Function.update_self]
    exact BitVec.sub_zero _
  · rw [if_neg ha] at hcons
    rw [Function.update_of_ne ha, lostTo, lostTo, hcons]

/-- The burns of a slash go on up to the first that is refused. -/
theorem burns_apply (operator : Address) {cuts : List (Address × Cut)}
    (hdistinct : (cuts.map Prod.fst).Nodup) (d : δ) :
    ∃ d', Burnt operator (acceptedCuts d operator cuts) d d' ∧
      burns operator cuts d = match firstRefusal d operator cuts with
        | none => .ok (cuts.map (legOf d operator)) d'
        | some e => .error e d' := by
  induction cuts generalizing d with
  | nil => exact ⟨d, .nil operator d, rfl⟩
  | cons c cuts ih =>
    obtain ⟨hnew, hdistinct⟩ := List.nodup_cons.1 hdistinct
    cases hrefusal : refusal d ⟨operator, c.1⟩ with
    | some e =>
      refine ⟨d, ?_, ?_⟩
      · rw [acceptedCuts, List.takeWhile_cons_of_neg (by rw [hrefusal]; exact Bool.false_ne_true)]
        exact .nil operator d
      · rw [firstRefusal, List.findSome?_cons, hrefusal]
        exact Steps.bind_eq_error.2 (.inl (ProportionalLedger.refused _ _ hrefusal))
    | none =>
      obtain ⟨d₁, hburnt, hsame, hshares⟩ :=
        ProportionalLedger.accepted c.2.maxBefore c.2.maxAfter hrefusal
      obtain ⟨d', hrest, hburns⟩ := ih hdistinct d₁
      have hrefused : firstRefusal d operator (c :: cuts) = firstRefusal d₁ operator cuts := by
        rw [firstRefusal, List.findSome?_cons, hrefusal, firstRefusal, hsame]
      have haccepted : acceptedCuts d operator (c :: cuts) = c :: acceptedCuts d₁ operator cuts := by
        rw [acceptedCuts, List.takeWhile_cons_of_pos (by rw [hrefusal]; rfl), acceptedCuts, hsame]
      refine ⟨d', ?_, ?_⟩
      · rw [haccepted]
        refine hrest.cons (fun h => hnew ?_) hsame hshares
        exact ((List.takeWhile_sublist _).map Prod.fst).subset h
      · rw [map_legOf_update hnew hshares] at hburns
        rw [hrefused]
        cases hrefusal' : firstRefusal d₁ operator cuts with
        | some e =>
          rw [hrefusal'] at hburns
          exact Steps.bind_eq_error.2 (.inr ⟨_, d₁, hburnt, Steps.bind_eq_error.2 (.inl hburns)⟩)
        | none =>
          rw [hrefusal'] at hburns
          exact Steps.bind_eq_ok.2 ⟨_, d₁, hburnt, Steps.bind_eq_ok.2 ⟨_, d', hburns, rfl⟩⟩

/-- A ledger in memory knows an operator or does not, whatever the strategy. -/
theorem LocalDelegation.acceptedCuts_eq_nil {d : LocalDelegation} {e : DelegationFailure}
    (h : firstRefusal d operator cuts = some e) : acceptedCuts d operator cuts = [] := by
  obtain ⟨c, -, hrefusal⟩ := List.exists_of_findSome?_eq_some h
  have hunknown : ¬d.isOperator operator := by
    intro hknown
    rw [refusal_eq, if_pos hknown] at hrefusal
    cases hrefusal
  cases cuts with
  | nil => rfl
  | cons first cuts =>
    apply List.takeWhile_cons_of_neg
    rw [refusal_eq, if_neg hunknown]
    exact Bool.false_ne_true

end Burns

namespace Manager

open Books Steps

variable {δ ρ π : Type} [DelegationLedger δ] [SetRegistrar ρ] [PermissionController π]
  {m : Manager δ ρ π} {config : Config}

theorem attempt_slash (m : Manager δ ρ π) (caller avs : Address) (r : SlashRequest) :
    m.attempt (perform caller (.slashOperator avs r)) = match slashOperator caller avs r m with
      | .ok outcome m' => (.ok (.slashed outcome), m')
      | .error e m' => (.error e, m') := by
  rw [attempt, perform, map_apply]
  cases slashOperator caller avs r m <;> rfl

/-- How a slash ends whose ledger burns in proportion: it is not admitted, or it goes through but
for the first burn that is refused. -/
theorem slash_cases [ProportionalLedger δ] (hidle : m.books.Idle)
    (hkept : WellKept config m.block m.books) (caller avs : Address) (r : SlashRequest) :
    (¬m.Admits caller avs r ∧
        ∃ e, m.attempt (perform caller (.slashOperator avs r)) = (.error e, m)) ∨
      m.Admits caller avs r ∧ ∃ d,
        Burnt r.operator (acceptedCuts m.delegation r.operator (m.cuts avs r)) m.delegation d ∧
        match firstRefusal m.delegation r.operator (m.cuts avs r) with
        | none => ∃ b tally, m.attempt (perform caller (.slashOperator avs r)) =
            (.ok (.slashed ⟨m.books.slashCount ⟨avs, r.setId⟩ + 1,
              (m.cuts avs r).map (legOf m.delegation r.operator)⟩),
              { m with books := b, delegation := d, tally }) ∧
            CutDown config m.block ⟨r.operator, ⟨avs, r.setId⟩⟩ (r.strategies.zip r.wads) m.books b
        | some e => m.attempt (perform caller (.slashOperator avs r)) =
            (.error (.delegation e), { m with delegation := d }) := by
  rw [attempt_slash]
  by_cases hadmits : m.Admits caller avs r
  · have hdistinct : ((m.cuts avs r).map Prod.fst).Nodup := (cuts_sublist _ _ _ _).nodup hadmits.nodup
    obtain ⟨d, hburnt, hburns⟩ := burns_apply r.operator hdistinct m.delegation
    have hslash := slashOperator_admitted hadmits hidle hkept
    refine .inr ⟨hadmits, d, hburnt, ?_⟩
    cases hrefusal : firstRefusal m.delegation r.operator (m.cuts avs r) with
    | none =>
      rw [hrefusal] at hburns
      rw [hburns] at hslash
      obtain ⟨b, tally, hslash, hdown⟩ := hslash
      exact ⟨b, tally, by rw [hslash], hdown⟩
    | some e =>
      rw [hrefusal] at hburns
      rw [hburns] at hslash
      dsimp only at hslash ⊢
      rw [hslash]
  · obtain ⟨e, hrefused⟩ := slashOperator_refused hadmits hidle
    exact .inl ⟨hadmits, e, by rw [hrefused]⟩

end Manager

end Restake
