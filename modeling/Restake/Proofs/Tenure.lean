import Restake.Proofs.Places

/-!
How long an operator can be slashed. The books keep one status for an operator and a set, yet it
says what the whole history of the two comes down to: only the last time that the operator joined
or left counts, and a departure counts through the last block of the grace period. The registrar of
the set has no say in a departure, and can veto that an operator joins.
-/
namespace Restake

open Steps

/-- An operator has joined a set, or has left it at a block. -/
inductive MembershipChange where
  | joined
  | left (block : BlockNumber)
deriving DecidableEq

/-- The status that the last change of a membership leads to, where grace ends `wait` blocks after a
departure. -/
def RegistrationStatus.ofLast (wait : BlockNumber) : Option MembershipChange → RegistrationStatus
  | none => .unregistered
  | some .joined => .registered
  | some (.left block) => .deregistered (block + wait)

/-- Grace of `wait` blocks after the change ends at a block that exists. -/
def MembershipChange.Fits (wait : BlockNumber) : MembershipChange → Prop
  | .joined => True
  | .left block => block.toNat + wait.toNat < UInt32.size

theorem RegistrationStatus.isSlashable_ofLast {wait now : BlockNumber}
    {last : Option MembershipChange} (hfits : ∀ change ∈ last, change.Fits wait) :
    (ofLast wait last).isSlashable now ↔ last = some .joined ∨
      ∃ block, last = some (.left block) ∧ now.toNat ≤ block.toNat + wait.toNat := by
  cases last with
  | none => simp [ofLast, isSlashable]
  | some change =>
    cases change with
    | joined => simp [ofLast, isSlashable]
    | left block =>
      have hwait : (block + wait).toNat = block.toNat + wait.toNat := by
        rw [UInt32.toNat_add]
        exact Nat.mod_eq_of_lt (hfits _ rfl)
      simp [ofLast, isSlashable, UInt32.le_iff_toNat_le, hwait]

namespace Books

variable {b : Books} {member : Membership}

/-- Registering an operator for sets leaves it registered for each of them. -/
theorem leads_registered {operator avs : Address} {ids : List UInt32} {id : UInt32} (hid : id ∈ ids) :
    Leads (fun _ => True) (ids.forM fun id => register ⟨operator, ⟨avs, id⟩⟩)
      (fun _ b => b.registration ⟨operator, ⟨avs, id⟩⟩ = .registered) (fun _ => True) := by
  refine Leads.forM_of_mem hid (fun _ _ => Leads.const True _) ?_ ?_
  · intro b _
    rw [register_apply]
    split
    · split
      · trivial
      · exact (registration_joined b _ _).trans (if_pos rfl)
    · trivial
  · intro id' _ b hb
    rw [register_apply]
    split
    · split
      · trivial
      · refine (registration_joined b _ _).trans ?_
        split
        · rfl
        · exact hb
    · trivial

theorem leads_deregistered {operator avs : Address} {ids : List UInt32} {id : UInt32}
    (slashableUntil : BlockNumber) (hid : id ∈ ids) :
    Leads (fun _ => True) (ids.forM fun id => deregister slashableUntil ⟨operator, ⟨avs, id⟩⟩)
      (fun _ b => b.registration ⟨operator, ⟨avs, id⟩⟩ = .deregistered slashableUntil)
      (fun _ => True) := by
  refine Leads.forM_of_mem hid (fun _ _ => Leads.const True _) ?_ ?_
  · intro b _
    rw [deregister_apply]
    split
    · split
      · exact (registration_departed b _ _ slashableUntil).trans (if_pos rfl)
      · trivial
    · trivial
  · intro id' _ b hb
    rw [deregister_apply]
    split
    · split
      · refine (registration_departed b _ _ slashableUntil).trans ?_
        split
        · rfl
        · exact hb
      · trivial
    · trivial

end Books

namespace Manager

open Books

variable {δ ρ π : Type} {m : Manager δ ρ π} {member : Membership}

/-- A hook whose failure is let pass leaves its mark in the count of such failures at most. -/
theorem tolerating_apply (hook : EStateM RegistrarFailure ρ Unit) (m : Manager δ ρ π) :
    ∃ g tally, tolerating hook m = .ok () { m with registrar := g, tally } ∧
      { tally with hookFailures := 0 } = { m.tally with hookFailures := 0 } := by
  unfold tolerating
  cases hook m.registrar with
  | ok _ g => exact ⟨g, m.tally, rfl, rfl⟩
  | error _ g => exact ⟨g, m.tally.hookFailed, rfl, rfl⟩

section Veto

variable [SetRegistrar ρ]

/-- A veto of the registrar takes back what was written before it was asked. -/
theorem atomically_vetoed (hidle : m.books.Idle) {operator : Address} {r : RegisterRequest}
    {cause : RegistrarFailure} {g : ρ}
    (hveto : SetRegistrar.register operator r.avs r.ids r.data m.registrar = .error cause g) :
    let body : Managing δ ρ π Unit := do
      onBooks (r.ids.forM fun id => register ⟨operator, ⟨r.avs, id⟩⟩)
      onRegistrar (SetRegistrar.register operator r.avs r.ids r.data)
    atomically body m = .error (.registrar cause) { m with registrar := g } ∨
      ∃ e, atomically body m = .error e m := by
  intro body
  have hrewinds : Leads (Rewinds m.books)
      (r.ids.forM fun id => register ⟨operator, ⟨r.avs, id⟩⟩)
      (fun _ => Rewinds m.books) (Rewinds m.books) :=
    Leads.forM fun _ _ => reversible_register _ m.books
  have hstart : Rewinds m.books m.books.checkpoint := rewinds_checkpoint hidle
  unfold atomically body
  rw [bind_apply, onBooks]
  cases hrun : (r.ids.forM fun id => register ⟨operator, ⟨r.avs, id⟩⟩) m.books.checkpoint with
  | ok _ b =>
    have hrevert : b.revert = m.books := (hrewinds.of_ok hstart hrun).revert_eq
    rw [← hrevert]
    dsimp only
    rw [onRegistrar, hveto]
    exact .inl rfl
  | error e b =>
    have hrevert : b.revert = m.books := (hrewinds.of_error hstart hrun).revert_eq
    dsimp only
    rw [hrevert]
    exact .inr ⟨e, rfl⟩

end Veto

variable [PermissionController π]

/-- The manager but for what its registrar keeps and how many hooks have failed. -/
def unheard (m : Manager δ ρ π) : Manager δ Unit π :=
  { m with registrar := (), tally := { m.tally with hookFailures := 0 } }

/-- What taking an operator out of sets does to the books, or why it fails. -/
def removal (m : Manager δ ρ π) (r : DeregisterRequest) : EStateM.Result Failure Books Unit :=
  match BlockNumber.after? m.block m.config.deallocationDelay with
  | none => .error (.blockOverflow m.block m.config.deallocationDelay) m.books
  | some slashableUntil =>
    match (r.ids.forM fun id => deregister slashableUntil ⟨r.operator, ⟨r.avs, id⟩⟩)
        m.books.checkpoint with
    | .ok _ b => .ok () b.commit
    | .error e b => .error e b.revert

/-- What a call to do so does to the books. The registrar is not asked. -/
def departure (m : Manager δ ρ π) (caller : Address) (r : DeregisterRequest) :
    EStateM.Result Failure Books Unit :=
  if m.mayCall r.operator caller .deregisterFromOperatorSets ∨
      m.mayCall r.avs caller .deregisterFromOperatorSets then m.removal r
  else .error (.unauthorized r.avs caller .deregisterFromOperatorSets) m.books

theorem departure_eq_ok {caller : Address} {r : DeregisterRequest} {u : Unit} {b' : Books}
    (h : m.departure caller r = .ok u b') : ∃ slashableUntil b,
      BlockNumber.after? m.block m.config.deallocationDelay = some slashableUntil ∧
        (r.ids.forM fun id => deregister slashableUntil ⟨r.operator, ⟨r.avs, id⟩⟩)
          m.books.checkpoint = .ok ⟨⟩ b ∧ b' = b.commit := by
  unfold departure removal at h
  split at h
  · split at h
    · cases h
    next slashableUntil huntil =>
      split at h
      next b hrun =>
        cases h
        exact ⟨slashableUntil, b, huntil, hrun, rfl⟩
      · cases h
  · cases h

variable [SetRegistrar ρ]

/-- The registrar is told of a departure once it is done. -/
theorem deregisterFromOperatorSets_apply (m : Manager δ ρ π) (caller : Address)
    (r : DeregisterRequest) :
    deregisterFromOperatorSets caller r m = match m.departure caller r with
      | .ok _ books => tolerating (SetRegistrar.deregister r.operator r.avs r.ids)
        { m with books, tally := m.tally.deregistered r.ids.length }
      | .error e books => .error e { m with books } := by
  have hremoval : (do
      let slashableUntil ← onBooks (effectAfter m.block m.config.deallocationDelay)
      atomically (onBooks
        (r.ids.forM fun id => deregister slashableUntil ⟨r.operator, ⟨r.avs, id⟩⟩))
      count (·.deregistered r.ids.length)
      tolerating (SetRegistrar.deregister r.operator r.avs r.ids) : Managing δ ρ π Unit) m =
      match m.removal r with
      | .ok _ books => tolerating (SetRegistrar.deregister r.operator r.avs r.ids)
        { m with books, tally := m.tally.deregistered r.ids.length }
      | .error e books => .error e { m with books } := by
    rw [bind_apply, onBooks, effectAfter_apply, removal]
    cases BlockNumber.after? m.block m.config.deallocationDelay with
    | none => rfl
    | some slashableUntil =>
      dsimp only
      rw [bind_apply, atomically, onBooks]
      dsimp only
      cases (r.ids.forM fun id => deregister slashableUntil ⟨r.operator, ⟨r.avs, id⟩⟩)
        m.books.checkpoint <;> rfl
  unfold deregisterFromOperatorSets departure
  rw [get_bind_apply]
  by_cases hoperator : m.mayCall r.operator caller .deregisterFromOperatorSets
  · rw [if_pos hoperator, if_pos (.inl hoperator)]
    exact hremoval
  · rw [if_neg hoperator, bind_apply, requireCaller, get_bind_apply]
    by_cases havs : m.mayCall r.avs caller .deregisterFromOperatorSets
    · rw [if_pos havs, if_pos (.inr havs)]
      exact hremoval
    · rw [if_neg havs, if_neg (not_or.2 ⟨hoperator, havs⟩)]
      rfl

theorem deregisterFromOperatorSets_ok {caller : Address} {r : DeregisterRequest} {u : Unit}
    {m' : Manager δ ρ π} (h : deregisterFromOperatorSets caller r m = .ok u m') :
    ∃ slashableUntil b,
      BlockNumber.after? m.block m.config.deallocationDelay = some slashableUntil ∧
        (r.ids.forM fun id => deregister slashableUntil ⟨r.operator, ⟨r.avs, id⟩⟩)
          m.books.checkpoint = .ok ⟨⟩ b ∧ m'.books = b.commit := by
  rw [deregisterFromOperatorSets_apply] at h
  split at h
  next books hdeparture =>
    obtain ⟨slashableUntil, b, huntil, hrun, hcommit⟩ := departure_eq_ok hdeparture
    obtain ⟨g, tally, hhook, -⟩ := tolerating_apply
      (SetRegistrar.deregister r.operator r.avs r.ids)
      { m with books, tally := m.tally.deregistered r.ids.length }
    rw [hhook] at h
    cases h
    exact ⟨slashableUntil, b, huntil, hrun, hcommit⟩
  · cases h

variable [DelegationLedger δ]

theorem registerForOperatorSets_ok {caller operator : Address} {r : RegisterRequest} {u : Unit}
    {m' : Manager δ ρ π} (h : registerForOperatorSets caller operator r m = .ok u m') :
    ∃ b, (r.ids.forM fun id => register ⟨operator, ⟨r.avs, id⟩⟩) m.books.checkpoint = .ok ⟨⟩ b ∧
      m'.books = b.commit := by
  obtain ⟨_, m₁, hcaller, h⟩ := bind_eq_ok.1 h
  obtain ⟨_, m₂, hoperator, h⟩ := bind_eq_ok.1 h
  obtain rfl : m = m₁ := (leads_requireCaller operator caller _).of_ok rfl hcaller
  obtain rfl : m = m₂ := (leads_requireOperator operator).of_ok rfl hoperator
  obtain ⟨_, m₃, hwork, hcount⟩ := bind_eq_ok.1 h
  obtain ⟨m₄, hbody, rfl⟩ := atomically_eq_ok hwork
  obtain ⟨_, m₅, hbooks, hhook⟩ := bind_eq_ok.1 hbody
  obtain ⟨b, hrun, rfl⟩ := onBooks_eq_ok hbooks
  refine ⟨b, hrun, ?_⟩
  cases hcount
  unfold onRegistrar at hhook
  split at hhook
  · cases hhook
    rfl
  · cases hhook

/-- How a move changes a membership, if it goes through. -/
def membershipChange? (m : Manager δ ρ π) (member : Membership) :
    Move δ ρ π → Option MembershipChange
  | .call caller (.registerForOperatorSets operator r) =>
    if (member.operator = operator ∧ member.set.avs = r.avs ∧ member.set.id ∈ r.ids) ∧
        (m.attempt (perform caller (.registerForOperatorSets operator r))).1.isOk then some .joined
    else none
  | .call caller (.deregisterFromOperatorSets r) =>
    if (member.operator = r.operator ∧ member.set.avs = r.avs ∧ member.set.id ∈ r.ids) ∧
        (m.attempt (perform caller (.deregisterFromOperatorSets r))).1.isOk then some (.left m.block)
    else none
  | _ => none

/-- How a membership has changed in the course of a run. -/
def membershipChanges (m : Manager δ ρ π) (member : Membership) :
    List (Move δ ρ π) → List MembershipChange
  | [] => []
  | move :: rest =>
    (m.membershipChange? member move).toList ++ (m.after move).membershipChanges member rest

theorem registration_after_none (hidle : m.books.Idle) {move : Move δ ρ π}
    (h : m.membershipChange? member move = none) :
    (m.after move).books.registration member = m.books.registration member := by
  obtain ⟨-, -, hbooks | hbooks | ⟨caller, c, b, rfl, hok, -, hbooks, hpost⟩⟩ :=
    after_cases hidle move
  · rw [hbooks]
  · rw [hbooks]
    rfl
  · have hsame : SameAt (· = .registration member) m.books.checkpoint b := by
      refine hpost.sameAt fun e hmay k hk hplace => ?_
      subst k
      cases c with
      | registerForOperatorSets operator r =>
        cases e with
        | join member' =>
          obtain rfl : member = member' := by simpa [Entry.places] using hk
          rw [membershipChange?, if_pos ⟨hmay, hok⟩] at h
          cases h
        | _ => exact hmay.elim
      | deregisterFromOperatorSets r =>
        cases e with
        | depart member' =>
          obtain rfl : member = member' := by simpa [Entry.places] using hk
          rw [membershipChange?, if_pos ⟨hmay, hok⟩] at h
          cases h
        | _ => exact hmay.elim
      | _ => exact Call.touches_of_mayPost hmay hk
    rw [hbooks]
    exact hsame.registration rfl

theorem registration_after_some {move : Move δ ρ π} {change : MembershipChange}
    (h : m.membershipChange? member move = some change) :
    change.Fits m.config.deallocationDelay ∧ (m.after move).books.registration member =
      .ofLast m.config.deallocationDelay (some change) := by
  obtain ⟨operator, ⟨avs, id⟩⟩ := member
  unfold membershipChange? at h
  split at h
  next caller operator' r =>
    obtain ⟨⟨⟨rfl, rfl, hid⟩, hok⟩, hchange⟩ := Option.ite_none_right_eq_some.1 h
    cases hchange
    refine ⟨trivial, ?_⟩
    show (m.attempt (perform caller (.registerForOperatorSets operator r))).2.books.registration
      ⟨operator, ⟨r.avs, id⟩⟩ = _
    obtain ⟨reply, m', hperform, hattempt⟩ := attempt_eq_ok_of_isOk hok
    obtain ⟨_, _, hregister, hdone⟩ := bind_eq_ok.1 hperform
    cases hdone
    obtain ⟨b, hrun, hbooks⟩ := registerForOperatorSets_ok hregister
    have hregistered : b.registration ⟨operator, ⟨r.avs, id⟩⟩ = .registered :=
      (leads_registered hid).of_ok trivial hrun
    rw [hattempt, hbooks]
    exact hregistered
  next caller r =>
    obtain ⟨⟨⟨rfl, rfl, hid⟩, hok⟩, hchange⟩ := Option.ite_none_right_eq_some.1 h
    cases hchange
    show _ ∧ (m.attempt (perform caller (.deregisterFromOperatorSets r))).2.books.registration
      ⟨r.operator, ⟨r.avs, id⟩⟩ = _
    obtain ⟨reply, m', hperform, hattempt⟩ := attempt_eq_ok_of_isOk hok
    obtain ⟨_, _, hderegister, hdone⟩ := bind_eq_ok.1 hperform
    cases hdone
    obtain ⟨slashableUntil, b, huntil, hrun, hbooks⟩ := deregisterFromOperatorSets_ok hderegister
    obtain ⟨hfits, heq⟩ := Option.ite_none_right_eq_some.1 huntil
    cases heq
    have hleft : b.registration ⟨r.operator, ⟨r.avs, id⟩⟩ =
        .deregistered (m.block + m.config.deallocationDelay) :=
      (leads_deregistered _ hid).of_ok trivial hrun
    refine ⟨hfits, ?_⟩
    rw [hattempt, hbooks]
    exact hleft
  · cases h

/-- Where a status is what the changes of a membership have led to, it is so at the end of every
run, with the changes that the run has made. -/
theorem registration_run (hidle : m.books.Idle) (changes : List MembershipChange)
    (hfits : ∀ change ∈ changes, change.Fits m.config.deallocationDelay)
    (hstatus : m.books.registration member =
      .ofLast m.config.deallocationDelay changes.getLast?) (moves : List (Move δ ρ π)) :
    (∀ change ∈ changes ++ m.membershipChanges member moves,
        change.Fits m.config.deallocationDelay) ∧
      (m.run moves).books.registration member = .ofLast m.config.deallocationDelay
        (changes ++ m.membershipChanges member moves).getLast? := by
  induction moves generalizing m changes with
  | nil =>
    rw [membershipChanges, List.append_nil]
    exact ⟨hfits, hstatus⟩
  | cons move rest ih =>
    obtain ⟨hconfig, -, -⟩ := after_cases hidle move
    rw [membershipChanges, ← List.append_assoc, ← hconfig]
    cases hchange : m.membershipChange? member move with
    | none =>
      rw [Option.toList_none, List.append_nil]
      refine ih (idle_after hidle move) changes (hconfig ▸ hfits) ?_
      rw [registration_after_none hidle hchange, hconfig]
      exact hstatus
    | some change =>
      obtain ⟨hchangeFits, hafter⟩ := registration_after_some hchange
      refine ih (idle_after hidle move) _ (fun c hc => ?_) ?_
      · rw [hconfig]
        rcases List.mem_append.1 hc with hc | hc
        · exact hfits c hc
        · rw [List.mem_singleton.1 hc]
          exact hchangeFits
      · rw [hafter, hconfig, Option.toList_some, List.getLast?_concat]

theorem attempt_departure (m : Manager δ ρ π) (caller : Address) (r : DeregisterRequest) :
    (m.attempt (perform caller (.deregisterFromOperatorSets r))).1 =
        (match m.departure caller r with
          | .ok _ _ => .ok .done
          | .error e _ => .error e) ∧
      (m.attempt (perform caller (.deregisterFromOperatorSets r))).2.unheard =
        match m.departure caller r with
        | .ok _ books => { m.unheard with
            books, tally := { m.tally.deregistered r.ids.length with hookFailures := 0 } }
        | .error _ books => { m.unheard with books } := by
  have hperform : perform caller (.deregisterFromOperatorSets r) m = match m.departure caller r with
      | .ok _ books => (tolerating (SetRegistrar.deregister r.operator r.avs r.ids) >>=
        fun _ => pure .done) { m with books, tally := m.tally.deregistered r.ids.length }
      | .error e books => .error e { m with books } := by
    show (deregisterFromOperatorSets caller r >>= fun _ => pure Reply.done) m = _
    rw [bind_apply, deregisterFromOperatorSets_apply]
    cases m.departure caller r <;> rfl
  unfold attempt
  rw [hperform]
  cases m.departure caller r with
  | ok _ books =>
    obtain ⟨g, tally, hhook, htally⟩ := tolerating_apply
      (SetRegistrar.deregister r.operator r.avs r.ids)
      { m with books, tally := m.tally.deregistered r.ids.length }
    dsimp only at htally ⊢
    rw [bind_apply, hhook, ← htally]
    exact ⟨rfl, rfl⟩
  | error e books => exact ⟨rfl, rfl⟩

/-- With another registrar in place of its own, of whatever kind, a departure is answered in the same
way and leaves the same behind. -/
theorem departure_unheard {ρ' : Type} [SetRegistrar ρ'] (m : Manager δ ρ π) (g : ρ')
    (caller : Address) (r : DeregisterRequest) :
    let m' : Manager δ ρ' π := { m with registrar := g }
    (m'.attempt (perform caller (.deregisterFromOperatorSets r))).1 =
        (m.attempt (perform caller (.deregisterFromOperatorSets r))).1 ∧
      (m'.attempt (perform caller (.deregisterFromOperatorSets r))).2.unheard =
        (m.attempt (perform caller (.deregisterFromOperatorSets r))).2.unheard := by
  intro m'
  obtain ⟨hanswer, hleft⟩ := m.attempt_departure caller r
  obtain ⟨hanswer', hleft'⟩ := m'.attempt_departure caller r
  rw [hanswer, hleft, hanswer', hleft']
  exact ⟨rfl, rfl⟩

/-- A veto is all that is left of the call, and a call that does not get as far as the registrar
leaves nothing. -/
theorem registration_vetoed (hidle : m.books.Idle) {caller operator : Address} {r : RegisterRequest}
    {cause : RegistrarFailure} {g : ρ}
    (hveto : SetRegistrar.register operator r.avs r.ids r.data m.registrar = .error cause g) :
    m.attempt (perform caller (.registerForOperatorSets operator r)) =
        (.error (.registrar cause), { m with registrar := g }) ∨
      ∃ e, m.attempt (perform caller (.registerForOperatorSets operator r)) = (.error e, m) := by
  have hfails : registerForOperatorSets caller operator r m =
      .error (.registrar cause) { m with registrar := g } ∨
      ∃ e, registerForOperatorSets caller operator r m = .error e m := by
    rw [registerForOperatorSets, bind_apply, requireCaller, get_bind_apply]
    by_cases hcaller : m.mayCall operator caller .registerForOperatorSets
    · rw [if_pos hcaller, pure_apply]
      dsimp only
      rw [bind_apply, requireOperator, get_bind_apply]
      by_cases hoperator : DelegationLedger.isOperator m.delegation operator
      · rw [if_pos hoperator, pure_apply]
        dsimp only
        rw [bind_apply]
        rcases atomically_vetoed hidle hveto with hwork | ⟨e, hwork⟩
        · rw [hwork]
          exact .inl rfl
        · rw [hwork]
          exact .inr ⟨e, rfl⟩
      · rw [if_neg hoperator]
        exact .inr ⟨_, rfl⟩
    · rw [if_neg hcaller]
      exact .inr ⟨_, rfl⟩
  have hperform : perform caller (.registerForOperatorSets operator r) m =
      (registerForOperatorSets caller operator r >>= fun _ => pure Reply.done) m := rfl
  unfold attempt
  rw [hperform, bind_apply]
  rcases hfails with hfails | ⟨e, hfails⟩
  · rw [hfails]
    exact .inl rfl
  · rw [hfails]
    exact .inr ⟨e, rfl⟩

/-- At the end of any run an operator can be slashed just if it has joined the set and not left it
since, or the grace after it last left is not over. Grace always ends at a block that exists. A
registrar has no say in a departure: with any other in its place the call is answered in the same
way and leaves the same books, events included. A registrar that vetoes a registration leaves
nothing of the call but what it keeps itself. -/
theorem slashability_follows_history (config : Config) (delegation : δ) (registrar : ρ)
    (permissions : π) (moves : List (Move δ ρ π)) :
    let start := fresh config delegation registrar permissions
    let m := start.run moves
    (∀ member, (m.isSlashable member ↔
          (start.membershipChanges member moves).getLast? = some .joined ∨
            ∃ block, (start.membershipChanges member moves).getLast? = some (.left block) ∧
              m.block.toNat ≤ block.toNat + config.deallocationDelay.toNat) ∧
        ∀ block, .left block ∈ start.membershipChanges member moves →
          block.toNat + config.deallocationDelay.toNat < UInt32.size) ∧
      (∀ (ρ' : Type) [SetRegistrar ρ'] (g : ρ') (caller : Address) (r : DeregisterRequest),
        let other : Manager δ ρ' π := { m with registrar := g }
        (other.attempt (perform caller (.deregisterFromOperatorSets r))).1 =
            (m.attempt (perform caller (.deregisterFromOperatorSets r))).1 ∧
          (other.attempt (perform caller (.deregisterFromOperatorSets r))).2.unheard =
            (m.attempt (perform caller (.deregisterFromOperatorSets r))).2.unheard) ∧
      ∀ (caller operator : Address) (r : RegisterRequest) (cause : RegistrarFailure) (g : ρ),
        SetRegistrar.register operator r.avs r.ids r.data m.registrar = .error cause g →
          m.attempt (perform caller (.registerForOperatorSets operator r)) =
              (.error (.registrar cause), { m with registrar := g }) ∨
            ∃ e, m.attempt (perform caller (.registerForOperatorSets operator r)) = (.error e, m) := by
  intro start m
  have hidle : m.books.Idle := ((Reachable.fresh _ _ _ _).run moves).idle
  refine ⟨fun member => ?_, fun _ _ g caller r => departure_unheard m g caller r,
    fun _ _ _ _ _ hveto => registration_vetoed hidle hveto⟩
  have hstatus : start.books.registration member = .unregistered := by
    simp [start, fresh, registration, UndoMap.find?_empty]
    rfl
  obtain ⟨hfits, hrun⟩ := registration_run (m := start) idle_empty []
    (fun _ hchange => absurd hchange List.not_mem_nil) hstatus moves
  rw [List.nil_append] at hfits hrun
  refine ⟨?_, fun block hblock => hfits _ hblock⟩
  show (m.books.registration member).isSlashable m.block ↔ _
  rw [hrun]
  exact RegistrationStatus.isSlashable_ofLast fun change hchange =>
    hfits change (List.mem_of_getLast? hchange)

/-- A registrar that is down leaves the small run, set up so far, with the books that it has. -/
theorem slashability_follows_history_vetoed :
    let m := Sample.start.run (Sample.moves.take 2 ++
      [.meanwhile Sample.start.delegation { unavailable := true } Sample.start.permissions])
    (m.attempt (perform Sample.operator
      (.registerForOperatorSets Sample.operator ⟨Sample.avs, [1], []⟩))).2.books = m.books := by
  intro m
  obtain ⟨-, -, hveto⟩ := slashability_follows_history Sample.config Sample.start.delegation
    Sample.start.registrar Sample.start.permissions (Sample.moves.take 2 ++
      [.meanwhile Sample.start.delegation { unavailable := true } Sample.start.permissions])
  rcases hveto Sample.operator Sample.operator ⟨Sample.avs, [1], []⟩ _ _ rfl with h | ⟨e, h⟩
  · exact congrArg (fun answer => answer.2.books) h
  · exact congrArg (fun answer => answer.2.books) h

end Manager

end Restake
