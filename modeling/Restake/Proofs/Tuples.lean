import Restake.Proofs.Transparency

/-!
How a modification of one tuple, a magnitude for one strategy of one set, is carried out. The
account is settled first; from what it reads then, one of three writes follows or the reason why
there is none.
-/
namespace Restake

open Steps

namespace Books

variable {b b₁ : Books} {config : Config} {block : BlockNumber}

/-- Once the account of a position is settled, what is read there decides how a modification ends. -/
theorem modifyAllocation_apply {t : Terms} {p : Position} {c : Capacity} {al : Allocation}
    (hsettle : settleAccount p.account t.block b = .ok () b₁)
    (hread : b₁.settled p t.block = .ok (c, al)) (slashable : Bool) (n : Magnitude) :
    modifyAllocation t slashable p n b =
      if al.isPending then .error (.modificationAlreadyPending p) b₁
      else if n = al.current then .error (.sameMagnitude p n) b₁
      else if al.current < n then
        if c.free < n - al.current then
          .error (.insufficientMagnitude p.account c.free (n - al.current)) b₁
        else match BlockNumber.after? t.block t.allocationDelay with
          | some effectBlock => .ok .allocation
            (b₁.store p { c with encumbered := c.encumbered + (n - al.current) }
              { al with pending := Magnitude.changeTo al.current n, effectBlock })
          | none => .error (.blockOverflow t.block t.allocationDelay) b₁
      else if slashable && (b₁.strategiesOf p.set).contains p.strategy then
        match BlockNumber.after? t.block t.deallocationDelay with
        | some effectBlock => .ok .queuedDeallocation
          ((b₁.enqueue p.account p.set).store p c
            { al with pending := Magnitude.changeTo al.current n, effectBlock })
        | none => .error (.blockOverflow t.block t.deallocationDelay) b₁
      else match Magnitude.shift? c.encumbered (Magnitude.changeTo al.current n) with
        | some encumbered => .ok .instantDeallocation
          (b₁.store p { c with encumbered } { al with current := n, effectBlock := t.block })
        | none => .error (.magnitudeOutOfRange c.encumbered (Magnitude.changeTo al.current n)) b₁ := by
  rw [modifyAllocation, bind_apply, hsettle]
  dsimp only
  rw [get_bind_apply, hread, ofExcept_bind_apply]
  simp only [if_apply, throw_bind_apply]
  split
  · rfl
  split
  · rfl
  split
  · split
    · rfl
    rw [bind_apply, effectAfter_apply]
    cases BlockNumber.after? t.block t.allocationDelay <;> rfl
  · rw [get_bind_apply, if_apply]
    split
    · rw [bind_apply, effectAfter_apply]
      cases BlockNumber.after? t.block t.deallocationDelay <;> rfl
    · cases Magnitude.shift? c.encumbered (Magnitude.changeTo al.current n) <;> rfl

/-- Carries out requests one after the other. -/
def applyRequests (t : Terms) (operator : Address) (requests : List AllocateRequest) :
    Bookkeeping (List ModificationKind) :=
  List.flatten <$> requests.mapM (applyRequest t operator)

theorem applyRequests_append (t : Terms) (operator : Address)
    (requests requests' : List AllocateRequest) :
    applyRequests t operator (requests ++ requests') = do
      let kinds ← applyRequests t operator requests
      return kinds ++ (← applyRequests t operator requests') := by
  simp [applyRequests, List.mapM_append]

theorem applyRequests_singleton (t : Terms) (operator : Address) (r : AllocateRequest) :
    applyRequests t operator [r] = applyRequest t operator r := by
  simp [applyRequests]

theorem applyRequests_cons (t : Terms) (operator : Address) (r : AllocateRequest)
    (rest : List AllocateRequest) :
    applyRequests t operator (r :: rest) b = match applyRequest t operator r b with
      | .ok kinds b' => ((kinds ++ ·) <$> applyRequests t operator rest) b'
      | .error e b' => .error e b' := by
  rw [← List.singleton_append, applyRequests_append, applyRequests_singleton, bind_apply]
  cases applyRequest t operator r b <;> rfl

/-- Under the delay that its operator has in force a batch is carried out request by request. -/
theorem modifyAllocations_apply (operator : Address) (requests : List AllocateRequest) :
    modifyAllocations config block operator requests b =
      match b.effectiveDelay operator block with
      | .ok delay => applyRequests ⟨block, delay, config.deallocationDelay⟩ operator requests b
      | .error e => .error e b := by
  rw [modifyAllocations, get_bind_apply, bind_apply, ofExcept_apply]
  cases b.effectiveDelay operator block <;> rfl

theorem applyRequest_apply (t : Terms) (operator : Address) {r : AllocateRequest}
    (hlength : r.strategies.length = r.magnitudes.length) :
    applyRequest t operator r b =
      if b.setExists r.set then
        (r.strategies.zip r.magnitudes).mapM (fun leg => modifyAllocation t
          (b.isSlashable ⟨operator, r.set⟩ t.block) ⟨⟨operator, r.set⟩, leg.1⟩ leg.2) b
      else .error (.invalidOperatorSet r.set) b := by
  rw [applyRequest, if_pos hlength]
  dsimp only
  rw [bind_apply, requireSet_apply]
  by_cases hset : b.setExists r.set
  · rw [if_pos hset, if_pos hset]
    rfl
  · rw [if_neg hset, if_neg hset]

theorem applyRequest_tuple (t : Terms) (operator : Address) (s : OperatorSet) (x : Address)
    (n : Magnitude) :
    applyRequest t operator ⟨s, [x], [n]⟩ b =
      if b.setExists s then
        ((fun kind => [kind]) <$> modifyAllocation t (b.isSlashable ⟨operator, s⟩ t.block)
          ⟨⟨operator, s⟩, x⟩ n) b
      else .error (.invalidOperatorSet s) b := by
  rw [applyRequest_apply t operator rfl, List.zip_cons_cons, List.zip_nil_left, List.mapM_cons,
    List.mapM_nil]
  rfl

theorem modifyAllocations_tuple (p : Position) (n : Magnitude) :
    modifyAllocations config block p.operator [⟨p.set, [p.strategy], [n]⟩] b =
      match b.effectiveDelay p.operator block with
      | .ok delay =>
        if b.setExists p.set then
          ((fun kind => [kind]) <$> modifyAllocation ⟨block, delay, config.deallocationDelay⟩
            (b.isSlashable p.membership block) p n) b
        else .error (.invalidOperatorSet p.set) b
      | .error e => .error e b := by
  rw [modifyAllocations_apply]
  cases b.effectiveDelay p.operator block with
  | error e => rfl
  | ok delay =>
    dsimp only
    rw [applyRequests_singleton, applyRequest_tuple]
    rfl

end Books

end Restake
