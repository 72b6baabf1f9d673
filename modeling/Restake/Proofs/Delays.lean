import Mathlib.Data.List.Induction
import Restake.Proofs.Places

/-!
The allocation delay in force. A setting has room for one delay in force and one that waits, and
remembers nothing else. Still it resolves, at any block, to what all the requests so far call for:
the last delay that had come to its effect block before another one took its place. Only effect
block 0 cannot be told from no request at all, so a request for that block never takes effect.
-/
namespace Restake

open Steps

/-- A delay that was asked for, and the block at which it was. -/
structure DelayRequest where
  block : BlockNumber
  delay : BlockNumber
deriving DecidableEq

namespace DelayRequest

variable {wait now : BlockNumber} {requests : List DelayRequest}

/-- Where the request takes effect, `wait` blocks after it was made. -/
def effectBlock (wait : BlockNumber) (r : DelayRequest) : Nat := r.block.toNat + wait.toNat

/-- Request number `i` is `r`; its effect block has come by `now`, and no later than the next
request. -/
def Matures (wait now : BlockNumber) (requests : List DelayRequest) (i : Nat) (r : DelayRequest) :
    Prop :=
  requests[i]? = some r ∧ r.effectBlock wait ≤ now.toNat ∧
    ∀ next, requests[i + 1]? = some next → r.effectBlock wait ≤ next.block.toNat

/-- As `Matures`, but for effect block 0. -/
def TakesEffect (wait now : BlockNumber) (requests : List DelayRequest) (i : Nat)
    (r : DelayRequest) : Prop :=
  Matures wait now requests i r ∧ r.effectBlock wait ≠ 0

/-- The answer is the delay of the last request that counts, or that none is in force if no request
counts. -/
def Decide (counts : Nat → DelayRequest → Prop) (answer : Bool × BlockNumber) : Prop :=
  (∀ i r, counts i r → (∀ j s, i < j → ¬counts j s) → answer = (true, r.delay)) ∧
    ((∀ i r, ¬counts i r) → answer = (false, 0))

/-- The requests were made in this order up to `now`, and their effect blocks exist. -/
structure Dated (wait now : BlockNumber) (requests : List DelayRequest) : Prop where
  ascending : requests.Pairwise fun r s => r.block ≤ s.block
  past : ∀ r ∈ requests, r.block ≤ now
  fits : ∀ r ∈ requests, r.effectBlock wait < UInt32.size

theorem dated_nil : Dated wait now [] := ⟨.nil, nofun, nofun⟩

theorem Dated.later (h : Dated wait now requests) {now' : BlockNumber} (hle : now ≤ now') :
    Dated wait now' requests :=
  ⟨h.ascending, fun r hr => UInt32.le_trans (h.past r hr) hle, h.fits⟩

theorem Dated.concat (h : Dated wait now requests) {r : DelayRequest} (hr : r.block = now)
    (hfits : r.effectBlock wait < UInt32.size) : Dated wait now (requests ++ [r]) where
  ascending := by
    refine List.pairwise_append.2 ⟨h.ascending, List.pairwise_singleton _ _, fun s hs t ht => ?_⟩
    rw [List.mem_singleton.1 ht, hr]
    exact h.past s hs
  past s hs := by
    rcases List.mem_append.1 hs with hs | hs
    · exact h.past s hs
    · rw [List.mem_singleton.1 hs, hr]
      exact UInt32.le_refl _
  fits s hs := by
    rcases List.mem_append.1 hs with hs | hs
    · exact h.fits s hs
    · rwa [List.mem_singleton.1 hs]

theorem Dated.dropLast {r : DelayRequest} (h : Dated wait now (requests ++ [r])) :
    Dated wait r.block requests where
  ascending := (List.pairwise_append.1 h.ascending).1
  past s hs := (List.pairwise_append.1 h.ascending).2.2 s hs r List.mem_cons_self
  fits s hs := h.fits s (List.mem_append_left _ hs)

theorem getElem?_concat_eq_some {r s : DelayRequest} {i : Nat} :
    (requests ++ [r])[i]? = some s ↔ requests[i]? = some s ∨ i = requests.length ∧ r = s := by
  rw [List.getElem?_append]
  split
  next hi =>
    refine ⟨.inl, ?_⟩
    rintro (h | ⟨rfl, -⟩)
    · exact h
    · omega
  next hi =>
    rw [List.getElem?_eq_none (Nat.le_of_not_lt hi), List.getElem?_singleton]
    by_cases hlast : i = requests.length
    · simp [hlast]
    · simp [hlast, show i - requests.length ≠ 0 by omega]

/-- A last request that has not taken effect leaves in force what was when it was made. -/
theorem takesEffect_concat {r : DelayRequest} (h : Dated wait now (requests ++ [r]))
    (hidle : ¬(r.effectBlock wait ≤ now.toNat ∧ r.effectBlock wait ≠ 0)) (i : Nat)
    (s : DelayRequest) :
    TakesEffect wait now (requests ++ [r]) i s ↔ TakesEffect wait r.block requests i s := by
  have hnow : r.block.toNat ≤ now.toNat :=
    UInt32.le_iff_toNat_le.1 (h.past r (List.mem_append_right _ List.mem_cons_self))
  unfold TakesEffect Matures
  simp only [getElem?_concat_eq_some]
  constructor
  · rintro ⟨⟨hi | ⟨-, rfl⟩, hdue, hnext⟩, heffect⟩
    · refine ⟨⟨hi, ?_, fun next hnext' => hnext next (.inl hnext')⟩, heffect⟩
      obtain ⟨hlt, -⟩ := List.getElem?_eq_some_iff.1 hi
      by_cases hlast : i + 1 = requests.length
      · exact hnext r (.inr ⟨hlast, rfl⟩)
      · have hlt' : i + 1 < requests.length := by omega
        have hbefore : requests[i + 1].block ≤ r.block :=
          h.dropLast.past _ (List.getElem_mem hlt')
        have := hnext _ (.inl (List.getElem?_eq_getElem hlt'))
        exact Nat.le_trans this (UInt32.le_iff_toNat_le.1 hbefore)
    · exact absurd ⟨hdue, heffect⟩ hidle
  · rintro ⟨⟨hi, hdue, hnext⟩, heffect⟩
    refine ⟨⟨.inl hi, Nat.le_trans hdue hnow, ?_⟩, heffect⟩
    rintro next (hnext' | ⟨-, rfl⟩)
    · exact hnext next hnext'
    · exact hdue

/-- A last request that has taken effect is the one that decides. -/
theorem decide_of_last {r : DelayRequest} (hdue : r.effectBlock wait ≤ now.toNat)
    (heffect : r.effectBlock wait ≠ 0) :
    Decide (TakesEffect wait now (requests ++ [r])) (true, r.delay) := by
  have hlast : TakesEffect wait now (requests ++ [r]) requests.length r := by
    refine ⟨⟨List.getElem?_concat_length, hdue, fun next hnext => ?_⟩, heffect⟩
    rw [List.getElem?_eq_none (by simp)] at hnext
    cases hnext
  refine ⟨fun i s hs hmax => ?_, fun hnone => absurd hlast (hnone _ _)⟩
  rcases getElem?_concat_eq_some.1 hs.1.1 with hi | ⟨-, rfl⟩
  · obtain ⟨hlt, -⟩ := List.getElem?_eq_some_iff.1 hi
    exact absurd hlast (hmax _ _ hlt)
  · rfl

end DelayRequest

namespace DelaySetting

theorem resolve_request (d : DelaySetting) (delay block effectBlock now : BlockNumber) :
    (d.request delay block effectBlock).resolve now =
      if effectBlock ≠ 0 ∧ effectBlock ≤ now then (true, delay) else d.resolve block := by
  simp only [request, resolve, hasMatured, Bool.and_eq_true, decide_eq_true_eq]

theorem fst_resolve (d : DelaySetting) (block : BlockNumber) :
    (d.resolve block).1 = (d.hasMatured block || d.isSet) := by
  unfold resolve
  cases d.hasMatured block <;> rfl

/-- A delay that is in force is replaced, but never taken back. -/
theorem fst_resolve_later {d : DelaySetting} {block block' : BlockNumber} (hle : block ≤ block')
    (h : (d.resolve block).1) : (d.resolve block').1 := by
  simp only [fst_resolve, hasMatured, Bool.or_eq_true, Bool.and_eq_true, decide_eq_true_eq] at h ⊢
  exact h.imp (fun hdue => ⟨hdue.1, UInt32.le_trans hdue.2 hle⟩) id

/-- The setting that requests lead to. -/
def ofRequests (wait : BlockNumber) (requests : List DelayRequest) : DelaySetting :=
  requests.foldl (fun d r => d.request r.delay r.block (r.block + wait)) {}

/-- A setting resolves to what the requests that led to it call for. -/
theorem resolve_ofRequests {wait now : BlockNumber} {requests : List DelayRequest}
    (h : DelayRequest.Dated wait now requests) :
    DelayRequest.Decide (DelayRequest.TakesEffect wait now requests)
      ((ofRequests wait requests).resolve now) := by
  induction requests using List.reverseRecOn generalizing now with
  | nil =>
    refine ⟨fun i r hr => ?_, fun _ => rfl⟩
    have hnone : ([] : List DelayRequest)[i]? = some r := hr.1.1
    cases hnone
  | append_singleton before r ih =>
    have hwait : (r.block + wait).toNat = r.effectBlock wait := by
      have hfits := h.fits r (List.mem_append_right _ List.mem_cons_self)
      rw [UInt32.toNat_add]
      exact Nat.mod_eq_of_lt hfits
    have hdue : r.block + wait ≠ 0 ∧ r.block + wait ≤ now ↔
        r.effectBlock wait ≤ now.toNat ∧ r.effectBlock wait ≠ 0 := by
      rw [← hwait, UInt32.le_iff_toNat_le, and_comm, Ne, ← UInt32.toNat_inj]
      rfl
    rw [ofRequests, List.foldl_append, List.foldl_cons, List.foldl_nil, resolve_request]
    by_cases hr : r.effectBlock wait ≤ now.toNat ∧ r.effectBlock wait ≠ 0
    · rw [if_pos (hdue.2 hr)]
      exact DelayRequest.decide_of_last hr.1 hr.2
    · rw [if_neg (mt hdue.1 hr)]
      simp only [DelayRequest.Decide, DelayRequest.takesEffect_concat h hr]
      exact ih h.dropLast

end DelaySetting

namespace Manager

open Books

variable {δ ρ π : Type} {m : Manager δ ρ π} {operator : Address}

/-- A request that goes through has found its effect block and written it down. -/
theorem setAllocationDelay_ok [DelegationLedger δ] [PermissionController π] {caller : Address}
    {delay : BlockNumber} {setting : DelaySetting} {m' : Manager δ ρ π}
    (h : setAllocationDelay caller operator delay m = .ok setting m') :
    ∃ effectBlock, BlockNumber.after? m.block m.config.configurationDelay = some effectBlock ∧
      m'.books = (m.books.checkpoint.delayAsked operator delay m.block effectBlock).commit := by
  obtain ⟨_, m₁, hcaller, h⟩ := bind_eq_ok.1 h
  obtain ⟨_, m₂, hoperator, h⟩ := bind_eq_ok.1 h
  obtain rfl : m = m₁ := (leads_requireCaller operator caller _).of_ok rfl hcaller
  obtain rfl : m = m₂ := (leads_requireOperator operator).of_ok rfl hoperator
  rw [get_bind_apply] at h
  unfold atomically onBooks at h
  dsimp only at h
  rw [requestDelay_apply] at h
  cases hafter : BlockNumber.after? m.block m.config.configurationDelay with
  | none =>
    rw [hafter] at h
    cases h
  | some effectBlock =>
    rw [hafter] at h
    cases h
    exact ⟨effectBlock, rfl, rfl⟩

variable [DelegationLedger δ] [SetRegistrar ρ] [PermissionController π]

/-- The delay that a move asks for on behalf of an operator, if it goes through. -/
def delayRequest? (m : Manager δ ρ π) (operator : Address) : Move δ ρ π → Option DelayRequest
  | .call caller (.setAllocationDelay o delay) =>
    if o = operator ∧ (m.attempt (perform caller (.setAllocationDelay o delay))).1.isOk then
      some ⟨m.block, delay⟩
    else none
  | _ => none

/-- The delays that were asked for on behalf of an operator in the course of a run. -/
def delayRequests (m : Manager δ ρ π) (operator : Address) : List (Move δ ρ π) → List DelayRequest
  | [] => []
  | move :: rest =>
    (m.delayRequest? operator move).toList ++ (m.after move).delayRequests operator rest

theorem delaySetting_after_none (hidle : m.books.Idle) {move : Move δ ρ π}
    (h : m.delayRequest? operator move = none) :
    (m.after move).books.delaySetting operator = m.books.delaySetting operator := by
  have hsame : SameAt (· = .delay operator) m.books (m.after move).books := by
    refine sameAt_after hidle fun caller c hmove hok k htouches hk => ?_
    subst k hmove
    cases c with
    | setAllocationDelay o delay => simp [delayRequest?, show operator = o from htouches, hok] at h
    | _ => exact htouches
  exact hsame.delaySetting rfl

theorem delaySetting_after_some {move : Move δ ρ π} {r : DelayRequest}
    (h : m.delayRequest? operator move = some r) :
    r.block = m.block ∧ r.effectBlock m.config.configurationDelay < UInt32.size ∧
      (m.after move).books.delaySetting operator = (m.books.delaySetting operator).request r.delay
        r.block (r.block + m.config.configurationDelay) := by
  unfold delayRequest? at h
  split at h
  next caller o delay =>
    rw [Option.ite_none_right_eq_some] at h
    obtain ⟨⟨rfl, hok⟩, hr⟩ := h
    obtain rfl := Option.some.inj hr
    show _ ∧ _ ∧ (m.attempt (perform caller (.setAllocationDelay o delay))).2.books.delaySetting o =
      _
    obtain ⟨reply, m', hperform, hattempt⟩ := attempt_eq_ok_of_isOk hok
    obtain ⟨setting, hset, -⟩ := map_eq_ok.1 hperform
    obtain ⟨effectBlock, hafter, hbooks⟩ := setAllocationDelay_ok hset
    obtain ⟨hfits, heffect⟩ := Option.ite_none_right_eq_some.1 hafter
    obtain rfl := Option.some.inj heffect
    refine ⟨rfl, hfits, ?_⟩
    rw [hattempt, hbooks]
    exact (delaySetting_delayAsked _ o o delay m.block _).trans (if_pos rfl)
  next => cases h

/-- Where a setting follows from requests, it does so at the end of every run, with the requests
that the run has made. -/
theorem delaySetting_run (hidle : m.books.Idle) (requests : List DelayRequest)
    (hdated : DelayRequest.Dated m.config.configurationDelay m.block requests)
    (hsetting : m.books.delaySetting operator = .ofRequests m.config.configurationDelay requests)
    (moves : List (Move δ ρ π)) :
    DelayRequest.Dated m.config.configurationDelay (m.run moves).block
        (requests ++ m.delayRequests operator moves) ∧
      (m.run moves).books.delaySetting operator =
        .ofRequests m.config.configurationDelay (requests ++ m.delayRequests operator moves) := by
  induction moves generalizing m requests with
  | nil =>
    rw [delayRequests, List.append_nil]
    exact ⟨hdated, hsetting⟩
  | cons move rest ih =>
    obtain ⟨hconfig, hclock, -⟩ := after_cases hidle move
    rw [delayRequests, ← List.append_assoc]
    rw [← hconfig] at hdated hsetting ⊢
    have hrest := ih (idle_after hidle move) (requests ++ (m.delayRequest? operator move).toList)
    cases hasked : m.delayRequest? operator move with
    | none =>
      rw [hasked] at hrest
      simp only [Option.toList_none, List.append_nil] at hrest ⊢
      exact hrest (hdated.later hclock) ((delaySetting_after_none hidle hasked).trans hsetting)
    | some r =>
      obtain ⟨hblock, hfits, hafter⟩ := delaySetting_after_some hasked
      rw [hasked] at hrest
      refine hrest ((hdated.concat hblock (hconfig ▸ hfits)).later hclock) ?_
      rw [hafter, hsetting, ← hconfig, Option.toList_some, DelaySetting.ofRequests,
        DelaySetting.ofRequests, List.foldl_append, List.foldl_cons, List.foldl_nil]

/-- At the end of any run the delay in force is that of the last request that has taken effect. -/
theorem delay_follows_requests (config : Config) (delegation : δ) (registrar : ρ) (permissions : π)
    (moves : List (Move δ ρ π)) (operator : Address) :
    let start := fresh config delegation registrar permissions
    let m := start.run moves
    DelayRequest.Decide (DelayRequest.TakesEffect config.configurationDelay m.block
      (start.delayRequests operator moves)) (m.allocationDelay operator) := by
  intro start m
  have hempty : start.books.delaySetting operator = {} := by
    simp [start, fresh, delaySetting, UndoMap.find?_empty]
  obtain ⟨hdated, hsetting⟩ := delaySetting_run (m := start) idle_empty []
    DelayRequest.dated_nil hempty moves
  show DelayRequest.Decide _ ((m.books.delaySetting operator).resolve m.block)
  rw [hsetting]
  exact DelaySetting.resolve_ofRequests hdated

/-- A request for effect block 0 has come to its effect block as soon as it is made, and nothing
replaces it, but it is not in force. -/
theorem request_for_block_zero_lost :
    let start : LocalManager := .opened { configurationDelay := 0 } [⟨Sample.operator, []⟩]
    let moves := [.call Sample.operator (.setAllocationDelay Sample.operator 7)]
    let m := start.run moves
    ¬DelayRequest.Decide (DelayRequest.Matures 0 m.block
      (start.delayRequests Sample.operator moves)) (m.allocationDelay Sample.operator) := by
  intro start moves m hdecide
  have hrequests : start.delayRequests Sample.operator moves = [⟨0, 7⟩] := by decide +kernel
  have hblock : m.block = 0 := by decide +kernel
  have hview : m.allocationDelay Sample.operator = (false, 0) := by decide +kernel
  rw [hrequests, hblock, hview] at hdecide
  have hforce : (false, (0 : BlockNumber)) = (true, 7) := by
    refine hdecide.1 0 ⟨0, 7⟩ ⟨rfl, Nat.le_refl 0, nofun⟩ fun j s hj hs => ?_
    rw [DelayRequest.Matures, List.getElem?_eq_none (Nat.succ_le_of_lt hj)] at hs
    cases hs.1
  cases hforce

end Manager

end Restake
