import Restake.Proofs.Tuples

/-!
A call that asks for many magnitudes comes to the calls that ask for one each, made in order at the
same block. A batch reads its delay once, and for each of its requests whether the set can slash;
neither changes on the way, as a modification writes to allocations and queues alone. What one tuple
leaves the next one finds, in a batch as from call to call.
-/
namespace Restake

open Steps

namespace AllocateRequest

/-- The magnitudes of a request, each asked for by itself. -/
def tuples (r : AllocateRequest) : List AllocateRequest :=
  (r.strategies.zip r.magnitudes).map fun leg => ⟨r.set, [leg.1], [leg.2]⟩

/-- A request has as many magnitudes as strategies, and one at least. -/
structure Paired (r : AllocateRequest) : Prop where
  lengths : r.strategies.length = r.magnitudes.length
  nonempty : r.strategies ≠ []

theorem Paired.zip_ne_nil {r : AllocateRequest} (h : r.Paired) :
    r.strategies.zip r.magnitudes ≠ [] := by
  rw [← List.length_pos_iff, List.length_zip, ← h.lengths, Nat.min_self]
  exact List.length_pos_iff.2 h.nonempty

theorem Paired.tuples_ne_nil {r : AllocateRequest} (h : r.Paired) : r.tuples ≠ [] :=
  fun hnil => h.zip_ne_nil (List.map_eq_nil_iff.1 hnil)

end AllocateRequest

/-- The calls that ask for each of some requests by itself. -/
def Call.oneByOne (operator : Address) (requests : List AllocateRequest) : List Call :=
  requests.map fun r => .modifyAllocations operator [r]

theorem Call.oneByOne_cons (operator : Address) (r : AllocateRequest) (rest : List AllocateRequest) :
    oneByOne operator (r :: rest) = .modifyAllocations operator [r] :: oneByOne operator rest := rfl

namespace Books

variable {b b' : Books} {config : Config} {block delay : BlockNumber} {operator : Address}
  {t : Terms}

theorem SameTerms.of_modifyAllocation {slashable : Bool} {p : Position} {n : Magnitude}
    {kind : ModificationKind} (h : modifyAllocation t slashable p n b = .ok kind b') :
    SameTerms b b' := by
  obtain ⟨b₁, c, al, hsettle, -, -, hkind⟩ := modifyAllocation_ok h
  have hsettled : Postings {} t.block (fun _ => True) b b₁ ∧ SameTerms b b₁ ∧
      b₁.Cleared p.account t.block :=
    settleAccount_ok (fun _ => trivial) (fun _ => trivial) hsettle
  obtain ⟨-, -, -, effectBlock, -, rfl⟩ | ⟨-, -, -, -, effectBlock, -, rfl⟩ |
    ⟨-, -, -, encumbered, -, rfl⟩ := hkind
  · exact hsettled.2.1.trans (sameTerms_store _ _ _ _)
  · exact (hsettled.2.1.trans (sameTerms_enqueue _ _ _)).trans (sameTerms_store _ _ _ _)
  · exact hsettled.2.1.trans (sameTerms_store _ _ _ _)

theorem SameTerms.of_applyRequest {r : AllocateRequest} {kinds : List ModificationKind}
    (hdelay : b.effectiveDelay operator block = .ok delay)
    (h : applyRequest ⟨block, delay, config.deallocationDelay⟩ operator r b = .ok kinds b') :
    SameTerms b b' := by
  have hrequest : Leads (fun c => Postings config block (fun _ => True) b c ∧ SameTerms b c)
      (applyRequest ⟨block, delay, config.deallocationDelay⟩ operator r)
      (fun _ c => Postings config block (fun _ => True) b c ∧ SameTerms b c) fun _ => True :=
    leads_applyRequest (List.mem_singleton_self r) hdelay fun _ _ => trivial
  exact (hrequest.of_ok ⟨.refl, .refl b⟩ h).2

/-- In a set that exists, the legs of a request come to its tuples. -/
theorem modifyLegs_eq_applyRequests {s : OperatorSet} (hset : b.setExists s)
    (legs : List (Address × Magnitude)) :
    legs.mapM (fun leg => modifyAllocation t (b.isSlashable ⟨operator, s⟩ t.block)
        ⟨⟨operator, s⟩, leg.1⟩ leg.2) b =
      applyRequests t operator (legs.map fun leg => ⟨s, [leg.1], [leg.2]⟩) b := by
  induction legs generalizing b with
  | nil => rfl
  | cons leg legs ih =>
    rw [List.mapM_cons, bind_apply, List.map_cons, applyRequests_cons, applyRequest_tuple,
      if_pos hset, map_apply]
    cases hrun : modifyAllocation t (b.isSlashable ⟨operator, s⟩ t.block) ⟨⟨operator, s⟩, leg.1⟩
        leg.2 b with
    | error e b' => rfl
    | ok kind b' =>
      have hterms := SameTerms.of_modifyAllocation hrun
      have hset' : b'.setExists s := by rwa [hterms.setExists]
      dsimp only
      rw [bind_apply, ← hterms.isSlashable_eq, ih hset', map_apply]
      cases applyRequests t operator (legs.map fun leg => ⟨s, [leg.1], [leg.2]⟩) b' <;> rfl

theorem applyRequest_eq_tuples {r : AllocateRequest} (hpaired : r.Paired) :
    applyRequest t operator r b = applyRequests t operator r.tuples b := by
  rw [applyRequest_apply t operator hpaired.lengths, AllocateRequest.tuples]
  by_cases hset : b.setExists r.set
  · rw [if_pos hset]
    exact modifyLegs_eq_applyRequests hset _
  · -- the first of the tuples fails as the request does
    obtain ⟨leg, legs, hlegs⟩ := List.exists_cons_of_ne_nil hpaired.zip_ne_nil
    rw [if_neg hset, hlegs, List.map_cons, applyRequests_cons, applyRequest_tuple, if_neg hset]

/-- Requests come to all their tuples, in order. -/
theorem applyRequests_eq_tuples {requests : List AllocateRequest}
    (hpaired : ∀ r ∈ requests, r.Paired) :
    applyRequests t operator requests b =
      applyRequests t operator (requests.flatMap AllocateRequest.tuples) b := by
  induction requests generalizing b with
  | nil => rfl
  | cons r rest ih =>
    obtain ⟨hr, hrest⟩ := List.forall_mem_cons.1 hpaired
    rw [applyRequests_cons, applyRequest_eq_tuples hr, List.flatMap_cons, applyRequests_append,
      bind_apply]
    cases applyRequests t operator r.tuples b with
    | error e b' => rfl
    | ok kinds b' =>
      dsimp only
      rw [map_apply, bind_apply, ih hrest]
      cases applyRequests t operator (rest.flatMap AllocateRequest.tuples) b' <;> rfl

theorem modifyAllocations_eq_tuples {requests : List AllocateRequest}
    (hpaired : ∀ r ∈ requests, r.Paired) :
    modifyAllocations config block operator requests b =
      modifyAllocations config block operator (requests.flatMap AllocateRequest.tuples) b := by
  rw [modifyAllocations_apply, modifyAllocations_apply]
  cases b.effectiveDelay operator block with
  | error e => rfl
  | ok delay => exact applyRequests_eq_tuples hpaired

/-- The rest of a batch finds what its first request leaves, the delay among it. -/
theorem modifyAllocations_cons (r : AllocateRequest) (rest : List AllocateRequest) :
    modifyAllocations config block operator (r :: rest) b =
      match modifyAllocations config block operator [r] b with
      | .ok kinds b' => ((kinds ++ ·) <$> modifyAllocations config block operator rest) b'
      | .error e b' => .error e b' := by
  rw [modifyAllocations_apply, modifyAllocations_apply]
  cases hdelay : b.effectiveDelay operator block with
  | error e => rfl
  | ok delay =>
    dsimp only
    rw [applyRequests_cons, applyRequests_singleton]
    cases hrun : applyRequest ⟨block, delay, config.deallocationDelay⟩ operator r b with
    | error e b' => rfl
    | ok kinds b' =>
      have hterms := SameTerms.of_applyRequest hdelay hrun
      dsimp only
      rw [map_apply, map_apply, modifyAllocations_apply, hterms.effectiveDelay_eq, hdelay]

end Books

namespace Manager

variable {δ ρ π : Type} [DelegationLedger δ] [SetRegistrar ρ] [PermissionController π]
variable {m : Manager δ ρ π}

/-- How the first call fails that does, if calls are made one after the other. -/
def firstFailure? (m : Manager δ ρ π) (caller : Address) : List Call → Option Failure
  | [] => none
  | c :: rest =>
    match (m.attempt (perform caller c)).1 with
    | .ok _ => firstFailure? (m.after (.call caller c)) caller rest
    | .error e => some e

/-- A batch of two or more requests is a call for the first and a batch of the others. -/
theorem attempt_modifyAllocations_cons (hidle : m.books.Idle) (caller operator : Address)
    (r : AllocateRequest) (rest : List AllocateRequest) :
    let modify (requests : List AllocateRequest) : Call := .modifyAllocations operator requests
    m.attempt (perform caller (modify (r :: rest))) =
      match m.attempt (perform caller (modify [r])) with
      | (.error e, _) => (.error e, m)
      | (.ok _, m') => match m'.attempt (perform caller (modify rest)) with
        | (.ok answer, m'') => (.ok answer, m'')
        | (.error e, _) => (.error e, m) := by
  intro modify
  rw [attempt_modifyAllocations hidle, attempt_modifyAllocations hidle,
    Books.modifyAllocations_cons]
  by_cases hmay : m.mayCall operator caller .modifyAllocations
  · rw [if_pos hmay, if_pos hmay]
    cases hfirst : Books.modifyAllocations m.config m.block operator [r] m.books with
    | error e b => rfl
    | ok kinds b =>
      have hidle' : b.Idle := by
        have hafter := idle_after hidle (.call caller (modify [r]))
        rwa [after, attempt_modifyAllocations hidle, if_pos hmay, hfirst] at hafter
      let m' : Manager δ ρ π := { m with books := b, tally := kinds.foldl Tally.modified m.tally }
      have hmay' : m'.mayCall operator caller .modifyAllocations := hmay
      have hrest := attempt_modifyAllocations (m := m') hidle' caller operator rest
      rw [if_pos hmay'] at hrest
      dsimp only
      rw [hrest, map_apply]
      cases Books.modifyAllocations m.config m.block operator rest b with
      | error e b' => rfl
      | ok kinds' b' =>
        dsimp only
        rw [List.foldl_append]
  · rw [if_neg hmay, if_neg hmay]

theorem attempt_modifyAllocations_cases (hidle : m.books.Idle) (caller operator : Address)
    (requests : List AllocateRequest) :
    let modify : Call := .modifyAllocations operator requests
    m.attempt (perform caller modify) = (.ok .done, m.after (.call caller modify)) ∨
      ∃ e, m.attempt (perform caller modify) = (.error e, m) := by
  intro modify
  rw [after, attempt_modifyAllocations hidle]
  by_cases hmay : m.mayCall operator caller .modifyAllocations
  · rw [if_pos hmay]
    cases Books.modifyAllocations m.config m.block operator requests m.books with
    | ok kinds b => exact .inl rfl
    | error e b => exact .inr ⟨e, rfl⟩
  · rw [if_neg hmay]
    exact .inr ⟨_, rfl⟩

/-- A batch of requests comes to the calls for one request each. -/
theorem attempt_modifyAllocations_oneByOne (hidle : m.books.Idle) (caller operator : Address)
    {requests : List AllocateRequest} (hsome : requests ≠ []) :
    m.attempt (perform caller (.modifyAllocations operator requests)) =
      match m.firstFailure? caller (Call.oneByOne operator requests) with
      | none => (.ok .done, m.run ((Call.oneByOne operator requests).map (.call caller)))
      | some e => (.error e, m) := by
  obtain ⟨r, rest, rfl⟩ := List.exists_cons_of_ne_nil hsome
  have hfirst := attempt_modifyAllocations_cases hidle caller operator [r]
  induction rest generalizing m r with
  | nil =>
    rw [Call.oneByOne_cons, firstFailure?]
    rcases hfirst with hok | ⟨e, herror⟩
    · rw [hok]
      rfl
    · rw [herror]
  | cons r' rest ih =>
    rw [attempt_modifyAllocations_cons hidle, Call.oneByOne_cons, firstFailure?]
    rcases hfirst with hok | ⟨e, herror⟩
    · have hidle' : (m.after (.call caller (.modifyAllocations operator [r]))).books.Idle :=
        idle_after hidle _
      have hrest := ih hidle' r' (List.cons_ne_nil _ _)
        (attempt_modifyAllocations_cases hidle' caller operator [r'])
      rw [hok]
      dsimp only
      rw [hrest]
      cases firstFailure? (m.after (.call caller (.modifyAllocations operator [r]))) caller
        (Call.oneByOne operator (r' :: rest)) <;> rfl
    · rw [herror]

/-- A batch is worth its one-tuple calls. It goes through just where they all do, and then the two
leave the same manager, with the same events in it; otherwise it fails as the first of them that
does, and leaves what was there before the batch. -/
theorem Reachable.batch_oneByOne (h : m.Reachable) (caller operator : Address)
    {requests : List AllocateRequest} (hsome : requests ≠ [])
    (hpaired : ∀ r ∈ requests, r.Paired) :
    let batch : Call := .modifyAllocations operator requests
    let calls := Call.oneByOne operator (requests.flatMap AllocateRequest.tuples)
    ((∃ answer, (m.attempt (perform caller batch)).1 = .ok answer) ↔
        m.firstFailure? caller calls = none) ∧
      (m.firstFailure? caller calls = none →
        m.after (.call caller batch) = m.run (calls.map (.call caller))) ∧
      ∀ e, m.firstFailure? caller calls = some e →
        m.attempt (perform caller batch) = (.error e, m) := by
  dsimp only
  obtain ⟨r, rest, rfl⟩ := List.exists_cons_of_ne_nil hsome
  have htuples : (r :: rest).flatMap AllocateRequest.tuples ≠ [] := by
    rw [List.flatMap_cons]
    exact List.append_ne_nil_of_left_ne_nil (hpaired r List.mem_cons_self).tuples_ne_nil _
  have hbatch : m.attempt (perform caller (.modifyAllocations operator (r :: rest))) =
      m.attempt (perform caller
        (.modifyAllocations operator ((r :: rest).flatMap AllocateRequest.tuples))) := by
    rw [attempt_modifyAllocations h.idle, attempt_modifyAllocations h.idle,
      Books.modifyAllocations_eq_tuples hpaired]
  rw [Manager.after, hbatch, attempt_modifyAllocations_oneByOne h.idle caller operator htuples]
  cases m.firstFailure? caller
    (Call.oneByOne operator ((r :: rest).flatMap AllocateRequest.tuples)) with
  | none =>
    refine ⟨⟨fun _ => rfl, fun _ => ⟨.done, rfl⟩⟩, fun _ => rfl, fun e he => ?_⟩
    cases he
  | some e =>
    refine ⟨⟨?_, fun hnone => ?_⟩, fun hnone => ?_, fun e' he => ?_⟩
    · rintro ⟨answer, hanswer⟩
      cases hanswer
    · cases hnone
    · cases hnone
    · cases he
      rfl

end Manager

namespace Sample

/-- The allocations of the operator do not wait. -/
def undelayed : LocalManager := start.run
  [.call operator (.setAllocationDelay operator 0),
    .call avs (.createOperatorSets avs [⟨1, [position.strategy]⟩]),
    .call operator (.registerForOperatorSets operator ⟨avs, [1], []⟩),
    .setBlock 5]

end Sample

namespace Manager

/-- The second tuple takes back from what the first has allocated, which is due at once. To ask for
as much as before is refused, and the first tuple with it. -/
theorem batch_oneByOne_same_position :
    let modify (strategies : List Address) (magnitudes : List Magnitude) : Call :=
      .modifyAllocations Sample.operator [⟨Sample.position.set, strategies, magnitudes⟩]
    let x : Address := Sample.position.strategy
    let m := Sample.undelayed
    m.after (.call Sample.operator (modify [x, x] [600, 400])) =
        m.run [.call Sample.operator (modify [x] [600]), .call Sample.operator (modify [x] [400])] ∧
      (m.after (.call Sample.operator (modify [x, x] [600, 400]))).books.allocation
        Sample.position = ⟨600, -200, 15⟩ ∧
      m.attempt (perform Sample.operator (modify [x, x] [600, 600])) =
        (.error (.sameMagnitude Sample.position 600), m) := by
  intro modify x m
  have hreachable : m.Reachable := (Reachable.fresh _ _ _ _).run _
  have hpaired (n n' : Magnitude) :
      ∀ r ∈ [(⟨Sample.position.set, [x, x], [n, n']⟩ : AllocateRequest)], r.Paired := by
    intro r hr
    rw [List.mem_singleton] at hr
    subst r
    exact ⟨rfl, List.cons_ne_nil _ _⟩
  obtain ⟨-, hsame, -⟩ := hreachable.batch_oneByOne Sample.operator Sample.operator
    (List.cons_ne_nil _ _) (hpaired 600 400)
  obtain ⟨-, -, hfails⟩ := hreachable.batch_oneByOne Sample.operator Sample.operator
    (List.cons_ne_nil _ _) (hpaired 600 600)
  exact ⟨hsame (by decide +kernel), by decide +kernel, hfails _ (by decide +kernel)⟩

end Manager

end Restake
