import Restake.Proofs.Failing

/-!
The history of a max. The snapshots of an account are of different blocks, oldest first, so the
search by halves finds the last one up to any block. A move adds snapshots of its own block alone:
what is read as of a block is the max that the moves up to then had left, and no later move
changes it.
-/
namespace Restake

open Steps

namespace History

variable {h : History} {now block : BlockNumber}

/-- The snapshots are of different blocks, oldest first, and none is later than `now`. -/
structure Dated (now : BlockNumber) (h : History) : Prop where
  ascending : h.snapshots.toList.Pairwise fun s t => s.1 < t.1
  past : ∀ s ∈ h.snapshots.toList, s.1 ≤ now

theorem dated_empty : Dated now {} := ⟨List.Pairwise.nil, nofun⟩

theorem Dated.later (hdated : h.Dated now) {now' : BlockNumber} (hle : now ≤ now') : h.Dated now' :=
  ⟨hdated.ascending, fun s hs => UInt32.le_trans (hdated.past s hs) hle⟩

/-- The history as it was at the end of a block. -/
def upTo (h : History) (block : BlockNumber) : History := ⟨h.snapshots.filter (·.1 ≤ block)⟩

theorem toList_upTo (h : History) (block : BlockNumber) :
    (h.upTo block).snapshots.toList = h.snapshots.toList.filter (·.1 ≤ block) :=
  Array.toList_filter

theorem upTo_eq_self (hpast : ∀ s ∈ h.snapshots.toList, s.1 ≤ block) : h.upTo block = h := by
  have hall : h.snapshots.toList.filter (·.1 ≤ block) = h.snapshots.toList :=
    List.filter_eq_self.2 fun s hs => decide_eq_true (hpast s hs)
  rw [← toList_upTo] at hall
  exact congrArg History.mk (Array.toList_inj.1 hall)

/-- A push writes over a last snapshot of the same block, or adds one behind it. -/
theorem push_cases (h : History) (now : BlockNumber) (value : Magnitude) :
    (∃ front old, h.snapshots.toList = front ++ [(now, old)] ∧
        (h.push now value).snapshots.toList = front ++ [(now, value)]) ∨
      (∀ s ∈ h.snapshots.toList.getLast?, s.1 ≠ now) ∧
        (h.push now value).snapshots.toList = h.snapshots.toList ++ [(now, value)] := by
  rw [Array.getLast?_toList]
  unfold push
  cases hlast : h.snapshots.back? with
  | none => exact .inr ⟨nofun, Array.toList_push⟩
  | some last =>
    obtain ⟨taken, old⟩ := last
    dsimp only
    by_cases htaken : taken = now
    · rw [if_pos htaken]
      rw [← Array.getLast?_toList, List.getLast?_eq_some_iff] at hlast
      obtain ⟨front, hfront⟩ := hlast
      refine .inl ⟨front, old, htaken ▸ hfront, ?_⟩
      rw [Array.toList_push, Array.toList_pop, hfront, List.dropLast_concat]
    · rw [if_neg htaken]
      refine .inr ⟨fun s hs => ?_, Array.toList_push⟩
      obtain rfl := Option.mem_some.1 hs
      exact htaken

theorem Dated.push (hdated : h.Dated now) (value : Magnitude) : (h.push now value).Dated now := by
  obtain ⟨hascending, hpast⟩ := hdated
  rcases h.push_cases now value with ⟨front, old, hold, hnew⟩ | ⟨hlast, hnew⟩
  · rw [hold, List.pairwise_append] at hascending
    rw [hold] at hpast
    constructor
    · rw [hnew, List.pairwise_append]
      refine ⟨hascending.1, List.pairwise_singleton _ _, fun s hs t ht => ?_⟩
      rw [List.mem_singleton.1 ht]
      exact hascending.2.2 s hs (now, old) List.mem_cons_self
    · rw [hnew]
      intro s hs
      rcases List.mem_append.1 hs with hs | hs
      · exact hpast s (List.mem_append_left _ hs)
      · rw [List.mem_singleton.1 hs]
        exact UInt32.le_refl _
  · have hbefore : ∀ s ∈ h.snapshots.toList, s.1 < now := by
      cases hback : h.snapshots.toList.getLast? with
      | none =>
        rw [List.getLast?_eq_none_iff.1 hback]
        exact nofun
      | some last =>
        obtain ⟨front, hfront⟩ := List.getLast?_eq_some_iff.1 hback
        have hlt : last.1 < now := by
          refine UInt32.lt_of_le_of_ne (hpast last ?_) (hlast last hback)
          rw [hfront]
          exact List.mem_append_right _ List.mem_cons_self
        rw [hfront, List.pairwise_append] at hascending
        intro s hs
        rw [hfront] at hs
        rcases List.mem_append.1 hs with hs | hs
        · exact UInt32.lt_trans (hascending.2.2 s hs last List.mem_cons_self) hlt
        · rw [List.mem_singleton.1 hs]
          exact hlt
    constructor
    · rw [hnew, List.pairwise_append]
      refine ⟨hascending, List.pairwise_singleton _ _, fun s hs t ht => ?_⟩
      rw [List.mem_singleton.1 ht]
      exact hbefore s hs
    · rw [hnew]
      intro s hs
      rcases List.mem_append.1 hs with hs | hs
      · exact hpast s hs
      · rw [List.mem_singleton.1 hs]
        exact UInt32.le_refl _

/-- What is pushed at one block is not seen as of an earlier one. -/
theorem upTo_push (hlt : block < now) (value : Magnitude) :
    (h.push now value).upTo block = h.upTo block := by
  have hnot (v : Magnitude) : [(now, v)].filter (fun s => s.1 ≤ block) = [] :=
    List.filter_eq_nil_iff.2 (by simpa using hlt)
  apply congrArg History.mk
  rw [← Array.toList_inj, Array.toList_filter, Array.toList_filter]
  rcases h.push_cases now value with ⟨front, old, hold, hnew⟩ | ⟨-, hnew⟩
  · rw [hold, hnew, List.filter_append, List.filter_append, hnot, hnot]
  · rw [hnew, List.filter_append, hnot, List.append_nil]

/-- Where the first `k` snapshots are those up to a block, halving a stretch that holds the end of
them leaves the last one. -/
theorem narrow_eq {k : Nat} (hk : ∀ i, (h.snapshots[i]?).any (·.1 ≤ block) ↔ i < k)
    {base size : Nat} (hbase : base = 0 ∨ base < k) (hsize : k ≤ base + size) :
    h.narrow block base size = k - 1 := by
  fun_induction narrow h block base size with
  | case1 base size hsmall => omega
  | case2 base size hlarge middle ih =>
    by_cases hmiddle : middle < k
    · have hany := (hk middle).2 hmiddle
      rw [dif_pos hany] at ih
      rw [if_pos hany]
      exact ih (.inr hmiddle) (by omega)
    · have hany := mt (hk middle).1 hmiddle
      rw [dif_neg hany] at ih
      rw [if_neg hany]
      exact ih hbase (by omega)

/-- The snapshots up to a block stand before those that are later. -/
theorem Dated.split (hdated : h.Dated now) (block : BlockNumber) : ∃ rest,
    h.snapshots.toList = (h.upTo block).snapshots.toList ++ rest ∧
      (∀ s ∈ (h.upTo block).snapshots.toList, s.1 ≤ block) ∧ ∀ s ∈ rest, ¬s.1 ≤ block := by
  have hearly : ∀ s ∈ (h.upTo block).snapshots.toList, s.1 ≤ block := by
    intro s hs
    rw [toList_upTo] at hs
    exact of_decide_eq_true (List.mem_filter.1 hs).2
  have hprefix : h.snapshots.toList.filter (·.1 ≤ block) <+: h.snapshots.toList := by
    refine filter_isPrefix (hdated.ascending.imp fun {s t} hlt hle => ?_)
    rw [decide_eq_true_eq] at hle ⊢
    exact UInt32.le_trans (UInt32.le_of_lt hlt) hle
  rw [← toList_upTo] at hprefix
  obtain ⟨rest, hrest⟩ := hprefix
  refine ⟨rest, hrest.symm, hearly, ?_⟩
  have hsplit := (toList_upTo h block).symm
  rw [← hrest, List.filter_append, List.filter_eq_self.2 fun s hs => decide_eq_true (hearly s hs),
    List.append_right_eq_self, List.filter_eq_nil_iff] at hsplit
  simpa using hsplit

/-- The search finds the last snapshot up to a block. -/
theorem valueAt_eq (hdated : h.Dated now) (block : BlockNumber) :
    h.valueAt block = (h.upTo block).latest := by
  obtain ⟨rest, hrest, hearly, hlate⟩ := hdated.split block
  have hget (i : Nat) : h.snapshots[i]? = ((h.upTo block).snapshots.toList ++ rest)[i]? := by
    rw [← hrest, Array.getElem?_toList]
  have hk (i : Nat) : (h.snapshots[i]?).any (·.1 ≤ block) ↔
      i < (h.upTo block).snapshots.toList.length := by
    rw [hget, List.getElem?_append]
    split
    next hi =>
      rw [List.getElem?_eq_getElem hi, Option.any_some, decide_eq_true_eq]
      exact iff_of_true (hearly _ (List.getElem_mem hi)) hi
    next hi =>
      refine iff_of_false (fun hany => ?_) hi
      obtain ⟨s, hs, hle⟩ := (Option.any_eq_true _ _).1 hany
      exact hlate s (List.mem_of_getElem? hs) (of_decide_eq_true hle)
  have hnarrow : h.narrow block 0 h.snapshots.size =
      (h.upTo block).snapshots.toList.length - 1 := by
    apply narrow_eq hk (.inl rfl)
    rw [← Array.length_toList, hrest, List.length_append]
    omega
  rw [valueAt, hnarrow, hget, latest, ← Array.getLast?_toList]
  rcases List.eq_nil_or_concat (h.upTo block).snapshots.toList with hnil | ⟨front, last, hlast⟩
  · rw [hnil]
    cases rest with
    | nil => rfl
    | cons s rest => exact if_neg (hlate s List.mem_cons_self)
  · rw [List.concat_eq_append] at hlast
    have hle : last.1 ≤ block := by
      apply hearly
      rw [hlast]
      exact List.mem_append_right _ List.mem_cons_self
    rw [hlast, List.getLast?_concat, List.length_append, List.length_singleton, Nat.add_sub_cancel,
      List.append_assoc, List.getElem?_append_right (Nat.le_refl _), Nat.sub_self]
    exact if_pos hle

/-- As of a block that no snapshot is later than, the max is what it is now. -/
theorem valueAt_eq_latest (hdated : h.Dated now) (hpast : ∀ s ∈ h.snapshots.toList, s.1 ≤ block) :
    h.valueAt block = h.latest := by
  rw [valueAt_eq hdated, upTo_eq_self hpast]

end History

namespace Books

variable {b b' : Books} {config : Config} {block : BlockNumber}

theorem history_empty (a : Account) : ({} : Books).history a = {} := by
  rw [history, UndoMap.find?_empty]
  rfl

theorem history_store (b : Books) (p : Position) (c : Capacity) (al : Allocation) :
    (b.store p c al).history = b.history := by
  obtain ⟨_, _, _, h⟩ := b.store_eq p c al
  rw [h]
  rfl

theorem history_reduceMax (b : Books) (a x : Account) (m : Magnitude) (block : BlockNumber) :
    (b.reduceMax a m block).history x =
      if a = x then (b.history a).push block (Magnitude.monus (b.maxMagnitude a) m)
      else b.history x := by
  simp only [reduceMax, emit, history, UndoMap.find?_update]
  split <;> rfl

/-- The second history is the first with pushes at `block`. -/
def Grown (block : BlockNumber) : History → History → Prop :=
  Relation.ReflTransGen fun h h' => ∃ value, h' = h.push block value

theorem history_posts {e : Entry} (hpost : Posts config block e b b') (a : Account) :
    b'.history a = b.history a ∨ ∃ value, b'.history a = (b.history a).push block value := by
  cases hpost with
  | mature => exact .inl (congrFun (history_store _ _ _ _) a)
  | allocate => exact .inl (congrFun (history_store _ _ _ _) a)
  | deallocate => exact .inl (congrFun (history_store _ _ _ _) a)
  | release => exact .inl (congrFun (history_store _ _ _ _) a)
  | clear => exact .inl (congrFun (history_store _ _ _ _) a)
  | cut =>
    rw [history_reduceMax, history_store]
    split
    next ha =>
      subst a
      exact .inr ⟨_, rfl⟩
    next ha => exact .inl rfl
  | _ => exact .inl rfl

theorem Postings.grown {may : Entry → Prop} (h : Postings config block may b b') (a : Account) :
    Grown block (b.history a) (b'.history a) := by
  refine h.keeps (P := fun b' => Grown block (b.history a) (b'.history a)) ?_ .refl
  intro e b₁ b₂ _ hpost hgrown
  rcases history_posts hpost a with hsame | hpush
  · rwa [hsame]
  · exact hgrown.tail hpush

namespace Grown

variable {h h' : History} {now : BlockNumber}

theorem dated (hgrown : Grown now h h') (hdated : h.Dated now) : h'.Dated now := by
  induction hgrown with
  | refl => exact hdated
  | tail _ hpush ih =>
    obtain ⟨value, rfl⟩ := hpush
    exact ih.push value

theorem upTo_eq (hgrown : Grown now h h') (hlt : block < now) : h'.upTo block = h.upTo block := by
  induction hgrown with
  | refl => rfl
  | tail _ hpush ih =>
    obtain ⟨value, rfl⟩ := hpush
    rw [History.upTo_push hlt, ih]

end Grown

end Books

/-- The ledger answers one burn for each cut. -/
theorem strategy_burns {δ : Type} [DelegationLedger δ] {operator : Address}
    {cuts : List (Address × Cut)} {d d' : δ} {legs : List SlashLeg}
    (h : burns operator cuts d = .ok legs d') :
    legs.map SlashLeg.strategy = cuts.map Prod.fst := by
  have hlegs := congrArg (List.map Prod.fst) (legs_burns h)
  rwa [List.map_map, List.map_map] at hlegs

namespace Sample

/-- Half of what is allocated goes at one block, and half of what was left at a later one. -/
def spaced : List (Move LocalDelegation LocalRegistrar LocalPermissions) :=
  allocating ++ [.call avs (.slashOperator avs halving), .setBlock 9,
    .call avs (.slashOperator avs halving), .setBlock 11]

end Sample

namespace Manager

open Books

variable {δ ρ π : Type} [DelegationLedger δ] [SetRegistrar ρ] [PermissionController π]
variable {m : Manager δ ρ π} {a : Account} {block : BlockNumber}

/-- A move adds to a history at its own block alone. -/
theorem history_after (hidle : m.books.Idle) (move : Move δ ρ π) (a : Account) :
    Grown m.block (m.books.history a) ((m.after move).books.history a) := by
  obtain ⟨-, -, hbooks | hbooks | ⟨_, _, b, -, -, -, hbooks, hpost⟩⟩ := after_cases hidle move
  · rw [hbooks]
    exact .refl
  · rw [hbooks]
    exact .refl
  · rw [hbooks]
    exact hpost.grown a

theorem Reachable.dated (h : m.Reachable) (a : Account) : (m.books.history a).Dated m.block := by
  induction h with
  | fresh =>
    show (({} : Books).history a).Dated 0
    rw [history_empty]
    exact History.dated_empty
  | after h move ih =>
    have hafter := after_cases h.idle move
    exact ((history_after h.idle move a).dated ih).later hafter.2.1

/-- What is read as of a block that has passed is read for good. -/
theorem Reachable.maxMagnitudeAt_run (h : m.Reachable) (hlt : block < m.block) (a : Account)
    (moves : List (Move δ ρ π)) :
    (m.run moves).books.maxMagnitudeAt a block = m.books.maxMagnitudeAt a block := by
  induction moves generalizing m with
  | nil => rfl
  | cons move rest ih =>
    have hafter := h.after move
    have hclock := (after_cases h.idle move).2.1
    have hsame : (m.after move).books.maxMagnitudeAt a block = m.books.maxMagnitudeAt a block := by
      rw [maxMagnitudeAt, maxMagnitudeAt, History.valueAt_eq (hafter.dated a),
        History.valueAt_eq (h.dated a), (history_after h.idle move a).upTo_eq hlt]
    exact (ih hafter (UInt32.lt_of_lt_of_le hlt hclock)).trans hsame

/-- The moves of a run that are made while the clock stands at `block` or before. -/
def movesUntil (m : Manager δ ρ π) (block : BlockNumber) : List (Move δ ρ π) → List (Move δ ρ π)
  | [] => []
  | move :: rest => if m.block ≤ block then move :: (m.after move).movesUntil block rest else []

theorem movesUntil_isPrefix_self (block : BlockNumber) (m : Manager δ ρ π)
    (moves : List (Move δ ρ π)) : m.movesUntil block moves <+: moves := by
  induction moves generalizing m with
  | nil => exact List.prefix_refl _
  | cons move rest ih =>
    rw [movesUntil]
    split
    · exact List.prefix_cons_inj move |>.2 (ih (m.after move))
    · exact List.nil_prefix

theorem movesUntil_isPrefix {block' : BlockNumber} (hle : block ≤ block') (m : Manager δ ρ π)
    (moves : List (Move δ ρ π)) : m.movesUntil block moves <+: m.movesUntil block' moves := by
  induction moves generalizing m with
  | nil => exact List.prefix_refl _
  | cons move rest ih =>
    rw [movesUntil, movesUntil]
    by_cases hm : m.block ≤ block
    · rw [if_pos hm, if_pos (UInt32.le_trans hm hle), List.prefix_cons_inj]
      exact ih (m.after move)
    · rw [if_neg hm]
      exact List.nil_prefix

/-- The max as of a block is the one that the moves up to that block left. -/
theorem Reachable.maxMagnitudeAt_eq (h : m.Reachable)
    (hpast : ∀ s ∈ (m.books.history a).snapshots.toList, s.1 ≤ block) (moves : List (Move δ ρ π)) :
    (m.run moves).books.maxMagnitudeAt a block =
      (m.run (m.movesUntil block moves)).books.maxMagnitude a := by
  induction moves generalizing m with
  | nil => exact History.valueAt_eq_latest (h.dated a) hpast
  | cons move rest ih =>
    rw [movesUntil]
    by_cases hm : m.block ≤ block
    · have hdated := (history_after h.idle move a).dated (h.dated a)
      rw [if_pos hm]
      exact ih (h.after move) fun s hs => UInt32.le_trans (hdated.past s hs) hm
    · rw [if_neg hm, h.maxMagnitudeAt_run (UInt32.not_le.1 hm) a (move :: rest)]
      exact History.valueAt_eq_latest (h.dated a) hpast

theorem Reachable.maxMagnitude_run_le (h : m.Reachable) (moves : List (Move δ ρ π)) (a : Account) :
    (m.run moves).books.maxMagnitude a ≤ m.books.maxMagnitude a := by
  induction moves generalizing m with
  | nil => exact UInt64.le_refl _
  | cons move rest ih =>
    exact UInt64.le_trans (ih (h.after move)) (h.maxMagnitude_after_le move a)

/-- The move is a slash that goes through and has a leg on the account. -/
def Slashes (m : Manager δ ρ π) (a : Account) (move : Move δ ρ π) : Prop :=
  ∃ caller avs r outcome, move = .call caller (.slashOperator avs r) ∧
    (m.attempt (perform caller (.slashOperator avs r))).1 = .ok (.slashed outcome) ∧
    r.operator = a.operator ∧ a.strategy ∈ outcome.legs.map SlashLeg.strategy

/-- A slash without a leg on an account leaves what is allocated to it alone, and its max. -/
theorem Reachable.sameAccount_after_slash (h : m.Reachable) {caller avs : Address}
    {r : SlashRequest} (hspared : ¬m.Slashes a (.call caller (.slashOperator avs r))) :
    SameAccount a m.books (m.after (.call caller (.slashOperator avs r))).books := by
  show SameAccount a m.books (m.attempt (perform caller (.slashOperator avs r))).2.books
  unfold Slashes at hspared
  by_cases hadmits : m.Admits caller avs r
  · have hends := slashOperator_admitted hadmits h.idle h.wellKept
    cases hburns : burns r.operator (m.cuts avs r) m.delegation with
    | ok legs d =>
      rw [hburns] at hends
      obtain ⟨b, tally, hok, hdown⟩ := hends
      have hattempt := attempt_slash m caller avs r
      rw [hok] at hattempt
      rw [hattempt]
      refine hdown.apart a fun hoperator hstrategy => hspared ?_
      refine ⟨caller, avs, r, _, rfl, congrArg Prod.fst hattempt, hoperator.symm, ?_⟩
      rw [strategy_burns hburns]
      exact hstrategy
    | error e d =>
      rw [hburns] at hends
      rw [attempt_slash, hends]
      exact .refl a m.books
  · obtain ⟨e, hrefused⟩ := slashOperator_refused hadmits h.idle
    rw [attempt_slash, hrefused]
    exact .refl a m.books

theorem Reachable.maxMagnitude_after_eq (h : m.Reachable) {move : Move δ ρ π}
    (hspared : ¬m.Slashes a move) :
    (m.after move).books.maxMagnitude a = m.books.maxMagnitude a := by
  by_cases hslash : ∃ caller avs r, move = .call caller (.slashOperator avs r)
  · obtain ⟨caller, avs, r, rfl⟩ := hslash
    exact (h.sameAccount_after_slash hspared).maxMagnitude
  · exact maxMagnitude_after h.idle (fun caller avs r hmove => hslash ⟨caller, avs, r, hmove⟩) a

/-- A run that slashes an account nowhere leaves its max alone. -/
theorem Reachable.maxMagnitude_run_eq (h : m.Reachable) {moves : List (Move δ ρ π)}
    (hspared : ∀ before move rest, moves = before ++ move :: rest →
      ¬(m.run before).Slashes a move) :
    (m.run moves).books.maxMagnitude a = m.books.maxMagnitude a := by
  induction moves generalizing m with
  | nil => rfl
  | cons move rest ih =>
    have hrest : ((m.after move).run rest).books.maxMagnitude a =
        (m.after move).books.maxMagnitude a := by
      refine ih (h.after move) fun before move' rest' hmoves => ?_
      exact hspared (move :: before) move' rest' (congrArg (move :: ·) hmoves)
    exact hrest.trans (h.maxMagnitude_after_eq (hspared [] move rest rfl))

/-- As of every block the history gives the max that the moves up to then left: `wad` if none of
them slashed the account, the current max if the block has not passed. What it gives for a block
that has passed stays, and for a later block it gives no more. -/
theorem max_history_exact (config : Config) (delegation : δ) (registrar : ρ) (permissions : π)
    (moves : List (Move δ ρ π)) (a : Account) (block : BlockNumber) :
    let start := fresh config delegation registrar permissions
    let m := start.run moves
    m.books.maxMagnitudeAt a block =
        (start.run (start.movesUntil block moves)).books.maxMagnitude a ∧
      ((∀ before move rest, start.movesUntil block moves = before ++ move :: rest →
        ¬(start.run before).Slashes a move) → m.books.maxMagnitudeAt a block = wad) ∧
      (m.block ≤ block → m.books.maxMagnitudeAt a block = m.books.maxMagnitude a) ∧
      (block < m.block → ∀ later : List (Move δ ρ π),
        (m.run later).books.maxMagnitudeAt a block = m.books.maxMagnitudeAt a block) ∧
      ∀ block', block ≤ block' →
        m.books.maxMagnitudeAt a block' ≤ m.books.maxMagnitudeAt a block := by
  intro start m
  have hstart : start.Reachable := .fresh config delegation registrar permissions
  have hm : m.Reachable := hstart.run moves
  have hempty : start.books.history a = {} := history_empty a
  have hexact (block : BlockNumber) : m.books.maxMagnitudeAt a block =
      (start.run (start.movesUntil block moves)).books.maxMagnitude a :=
    hstart.maxMagnitudeAt_eq (by rw [hempty]; exact nofun) moves
  refine ⟨hexact block, fun hspared => ?_, fun hle => ?_, fun hlt => ?_, fun block' hle => ?_⟩
  · rw [hexact, hstart.maxMagnitude_run_eq hspared, maxMagnitude, hempty]
    rfl
  · exact History.valueAt_eq_latest (hm.dated a) fun s hs =>
      UInt32.le_trans ((hm.dated a).past s hs) hle
  · exact hm.maxMagnitudeAt_run hlt a
  · obtain ⟨between, hbetween⟩ := movesUntil_isPrefix hle start moves
    rw [hexact, hexact, ← hbetween, run_append]
    exact (hstart.run _).maxMagnitude_run_le between a

/-- Two slashes leave three answers. -/
theorem max_history_exact_spaced :
    (Sample.start.run Sample.spaced).books.maxMagnitudeAt Sample.position.account 6 = wad ∧
      (Sample.start.run Sample.spaced).books.maxMagnitudeAt Sample.position.account 12 =
        625000000000000000 ∧
      ∀ later, ((Sample.start.run Sample.spaced).run later).books.maxMagnitudeAt
        Sample.position.account 8 = 750000000000000000 := by
  have hexact := max_history_exact Sample.config Sample.start.delegation {} {} Sample.spaced
    Sample.position.account
  refine ⟨(hexact 6).2.1 ?_, ?_, fun later => ?_⟩
  · intro before move rest hmoves hslash
    have hlength : (Sample.start.movesUntil 6 Sample.spaced).length = 6 := by decide +kernel
    have huntil := List.prefix_iff_eq_take.1 (movesUntil_isPrefix_self 6 Sample.start Sample.spaced)
    rw [hlength] at huntil
    obtain ⟨caller, avs, r, outcome, rfl, -⟩ := hslash
    have hmem : .call caller (.slashOperator avs r) ∈ Sample.spaced.take 6 := by
      rw [← huntil]
      exact hmoves ▸ List.mem_append_right before List.mem_cons_self
    simp [Sample.spaced, Sample.allocating] at hmem
  · refine ((hexact 12).2.2.1 (by decide +kernel)).trans ?_
    decide +kernel
  · refine ((hexact 8).2.2.2.1 (by decide +kernel) later).trans ?_
    decide +kernel

end Manager

end Restake
