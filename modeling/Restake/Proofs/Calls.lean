import Restake.Proofs.Postings

/-!
How calls end. A call that goes through has made postings of its own kind and committed them; one
that fails has changed nothing but what its collaborators keep to themselves. From this a run of a
manager keeps whatever the postings made in it keep.
-/
namespace Restake.Manager

open Steps Books

variable {δ ρ π α β : Type} {m : Manager δ ρ π}

theorem attempt_of_ok {step : Managing δ ρ π α} {a : α} {m' : Manager δ ρ π}
    (h : step m = .ok a m') : m.attempt step = (.ok a, m') := by
  rw [attempt, h]

theorem attempt_of_error {step : Managing δ ρ π α} {e : Failure} {m' : Manager δ ρ π}
    (h : step m = .error e m') : m.attempt step = (.error e, m') := by
  rw [attempt, h]

theorem attempt_eq_ok_of_isOk {step : Managing δ ρ π α} (h : (m.attempt step).1.isOk) :
    ∃ a m', step m = .ok a m' ∧ m.attempt step = (.ok a, m') := by
  unfold attempt at h ⊢
  cases hstep : step m with
  | ok a m' => exact ⟨a, m', rfl, rfl⟩
  | error e m' =>
    rw [hstep] at h
    cases h

theorem onBooks_eq_ok {step : Bookkeeping α} {a : α} {m' : Manager δ ρ π}
    (h : onBooks step m = .ok a m') : ∃ b, step m.books = .ok a b ∧ m' = { m with books := b } := by
  unfold onBooks at h
  split at h
  next a b hstep =>
    cases h
    exact ⟨b, hstep, rfl⟩
  · cases h

theorem atomically_ok {body : Managing δ ρ π α} {a : α} (m' : Manager δ ρ π)
    (h : body { m with books := m.books.checkpoint } = .ok a m') :
    atomically body m = .ok a { m' with books := m'.books.commit } := by
  rw [atomically, h]

theorem atomically_error {body : Managing δ ρ π α} {e : Failure} (m' : Manager δ ρ π)
    (h : body { m with books := m.books.checkpoint } = .error e m') :
    atomically body m = .error e { m' with books := m'.books.revert } := by
  rw [atomically, h]

theorem atomically_eq_ok {body : Managing δ ρ π α} {a : α} {m' : Manager δ ρ π}
    (h : atomically body m = .ok a m') :
    ∃ m₁, body { m with books := m.books.checkpoint } = .ok a m₁ ∧
      m' = { m₁ with books := m₁.books.commit } := by
  unfold atomically at h
  split at h
  next a m₁ hbody =>
    cases h
    exact ⟨m₁, hbody, rfl⟩
  · cases h

/-- Postings were made and committed. -/
def Committed (m : Manager δ ρ π) (may : Entry → Prop) (m' : Manager δ ρ π) : Prop :=
  ∃ b delegation registrar tally, m' = { m with books := b.commit, delegation, registrar, tally } ∧
    Postings m.config m.block may m.books.checkpoint b

/-- Nothing but the collaborators has changed. -/
def Abandoned (m m' : Manager δ ρ π) : Prop :=
  ∃ delegation registrar, m' = { m with delegation, registrar }

/-- The postings that the call in progress on `m` has made so far. -/
def InProgress (m : Manager δ ρ π) (may : Entry → Prop) (b : Books) : Prop :=
  Rewinds m.books b ∧ Postings m.config m.block may m.books.checkpoint b

theorem leads_atomically {may : Entry → Prop} {body : Managing δ ρ π α} (hidle : m.books.Idle)
    (h : Leads (m.Amid (m.InProgress may)) body (fun _ => m.Amid (m.InProgress may))
      (m.Amid (Rewinds m.books))) :
    Leads (m = ·) (atomically body) (fun _ => m.Committed may) m.Abandoned := by
  intro m' hm
  subst m'
  have hstart : m.Amid (m.InProgress may) { m with books := m.books.checkpoint } :=
    ⟨_, _, _, rfl, rewinds_checkpoint hidle, .refl⟩
  unfold atomically
  cases hbody : body { m with books := m.books.checkpoint } with
  | ok a m' =>
    obtain ⟨b, delegation, registrar, rfl, -, hpost⟩ := h.of_ok hstart hbody
    exact ⟨b, delegation, registrar, m.tally, rfl, hpost⟩
  | error e m' =>
    obtain ⟨b, delegation, registrar, rfl, hrewinds⟩ := h.of_error hstart hbody
    exact ⟨delegation, registrar, by rw [← hrewinds.revert_eq]⟩

theorem leads_atomically_onBooks {may : Entry → Prop} {step : Bookkeeping α} (hidle : m.books.Idle)
    (hrev : Reversible step)
    (h : Leads (Postings m.config m.block may m.books.checkpoint) step
      (fun _ => Postings m.config m.block may m.books.checkpoint) (fun _ => True)) :
    Leads (m = ·) (atomically (onBooks step)) (fun _ => m.Committed may) m.Abandoned :=
  leads_atomically hidle (leads_onBooks (hrev.leads h))

theorem leads_count {may : Entry → Prop} (f : Tally → Tally) {E : Manager δ ρ π → Prop} :
    Leads (m.Committed may) (count f) (fun _ => m.Committed may) E := by
  intro m' hm
  rcases hm with ⟨b, delegation, registrar, tally, rfl, h⟩
  exact ⟨b, delegation, registrar, f tally, rfl, h⟩

theorem leads_tolerating {may : Entry → Prop} (hook : EStateM RegistrarFailure ρ Unit)
    {E : Manager δ ρ π → Prop} :
    Leads (m.Committed may) (tolerating hook) (fun _ => m.Committed may) E := by
  intro m' hm
  rcases hm with ⟨b, delegation, registrar, tally, rfl, h⟩
  unfold tolerating
  cases hh : hook registrar with
  | ok u r => exact ⟨b, delegation, r, tally, rfl, h⟩
  | error e r => exact ⟨b, delegation, r, tally.hookFailed, rfl, h⟩

theorem abandoned_refl (m : Manager δ ρ π) : m.Abandoned m := ⟨_, _, rfl⟩

theorem leads_requireCaller [PermissionController π] (principal caller : Address) (e : Entrypoint) :
    Leads (m = ·) (requireCaller principal caller e) (fun _ => (m = ·)) m.Abandoned := by
  refine Leads.read_bind fun m' => Leads.ite (fun _ => Leads.pure fun _ h => h) fun _ => ?_
  apply Leads.throw
  intro m' hm
  subst m'
  exact abandoned_refl m

theorem leads_requireOperator [DelegationLedger δ] (operator : Address) :
    Leads (m = ·) (requireOperator operator) (fun _ => (m = ·)) m.Abandoned := by
  refine Leads.read_bind fun m' => Leads.ite (fun _ => Leads.pure fun _ h => h) fun _ => ?_
  apply Leads.throw
  intro m' hm
  subst m'
  exact abandoned_refl m

theorem leads_clearDeallocationQueue (hidle : m.books.Idle) (operator : Address)
    (strategies : List Address) (limits : List UInt64) :
    Leads (m = ·) (clearDeallocationQueue operator strategies limits)
      (fun _ => m.Committed (Call.clearDeallocationQueue operator strategies limits).mayPost)
      m.Abandoned := by
  refine Leads.ite (fun _ => ?_) fun _ => Leads.throw_bind fun _ h => h ▸ abandoned_refl m
  apply Leads.get_bind_eq
  refine Leads.bind (leads_atomically_onBooks hidle
    (fun b₀ => Leads.mapM fun _ _ => reversible_clearMatured _ _ _ b₀)
    (Leads.mapM fun request hrequest => leads_clearMatured fun s =>
      ⟨rfl, (List.of_mem_zip hrequest).1⟩)) fun _ =>
        Leads.bind (leads_count _) fun _ => Leads.pure fun _ h => h

theorem leads_setAllocationDelay [DelegationLedger δ] [PermissionController π]
    (hidle : m.books.Idle) (caller operator : Address) (delay : BlockNumber) :
    Leads (m = ·) (setAllocationDelay caller operator delay)
      (fun _ => m.Committed (Call.setAllocationDelay operator delay).mayPost) m.Abandoned := by
  refine Leads.bind (leads_requireCaller operator caller _) fun _ =>
    Leads.bind (leads_requireOperator operator) fun _ => Leads.get_bind_eq ?_
  exact leads_atomically_onBooks hidle (reversible_requestDelay _ _ _ _) (leads_requestDelay rfl)

theorem leads_modifyAllocations [PermissionController π] (hidle : m.books.Idle)
    (caller operator : Address) (requests : List AllocateRequest) :
    Leads (m = ·) (modifyAllocations caller operator requests)
      (fun _ => m.Committed (Call.modifyAllocations operator requests).mayPost) m.Abandoned := by
  refine Leads.bind (leads_requireCaller operator caller _) fun _ => Leads.get_bind_eq ?_
  refine Leads.bind (leads_atomically_onBooks hidle (reversible_modifyAllocations _ _ _ _) ?_)
    fun _ => leads_count _
  exact Books.leads_modifyAllocations fun _ h => h

theorem leads_registerForOperatorSets [DelegationLedger δ] [SetRegistrar ρ]
    [PermissionController π] (hidle : m.books.Idle) (caller operator : Address)
    (r : RegisterRequest) :
    Leads (m = ·) (registerForOperatorSets caller operator r)
      (fun _ => m.Committed (Call.registerForOperatorSets operator r).mayPost) m.Abandoned := by
  refine Leads.bind (leads_requireCaller operator caller _) fun _ =>
    Leads.bind (leads_requireOperator operator) fun _ =>
      Leads.bind (leads_atomically hidle ?_) fun _ => leads_count _
  refine Leads.bind (leads_onBooks (Reversible.leads ?_ ?_)) fun _ =>
    leads_onRegistrar.weaken (fun _ h => h) (fun _ _ h => h) ?_
  · exact fun b₀ => Leads.forM fun _ _ => reversible_register _ b₀
  · exact Leads.forM fun id hid => leads_register ⟨rfl, rfl, hid⟩
  · intro m' hm
    rcases hm with ⟨b, delegation, registrar, h, hrewinds, -⟩
    exact ⟨b, delegation, registrar, h, hrewinds⟩

theorem leads_deregisterFromOperatorSets [SetRegistrar ρ] [PermissionController π]
    (hidle : m.books.Idle) (caller : Address) (r : DeregisterRequest) :
    Leads (m = ·) (deregisterFromOperatorSets caller r)
      (fun _ => m.Committed (Call.deregisterFromOperatorSets r).mayPost) m.Abandoned := by
  have hwork : Leads (m = ·) (do
      let slashableUntil ← onBooks (Books.effectAfter m.block m.config.deallocationDelay)
      atomically (onBooks
        (r.ids.forM fun id => Books.deregister slashableUntil ⟨r.operator, ⟨r.avs, id⟩⟩))
      count (·.deregistered r.ids.length)
      tolerating (SetRegistrar.deregister r.operator r.avs r.ids) : Managing δ ρ π Unit)
      (fun _ => m.Committed (Call.deregisterFromOperatorSets r).mayPost) m.Abandoned := by
    refine Leads.bind (M := fun slashableUntil m' => m = m' ∧
      BlockNumber.after? m.block m.config.deallocationDelay = some slashableUntil) ?_ ?_
    · intro m' hm
      subst m'
      unfold onBooks
      rw [effectAfter_apply]
      cases BlockNumber.after? m.block m.config.deallocationDelay with
      | none => exact abandoned_refl m
      | some slashableUntil => exact ⟨rfl, rfl⟩
    · intro slashableUntil m' hm
      rcases hm with ⟨rfl, huntil⟩
      have hleave : Leads (m = ·) (atomically (onBooks
          (r.ids.forM fun id => Books.deregister slashableUntil ⟨r.operator, ⟨r.avs, id⟩⟩)))
          (fun _ => m.Committed (Call.deregisterFromOperatorSets r).mayPost) m.Abandoned :=
        leads_atomically_onBooks hidle (fun b₀ => Leads.forM fun _ _ => reversible_deregister _ _ b₀)
          (Leads.forM fun id hid => leads_deregister ⟨rfl, rfl, hid⟩ huntil)
      exact Leads.bind hleave (fun _ => Leads.bind (leads_count _) fun _ => leads_tolerating _) m rfl
  apply Leads.get_bind_eq
  refine Leads.ite (fun _ => hwork) fun _ => ?_
  exact Leads.bind (leads_requireCaller r.avs caller _) fun _ => hwork

theorem leads_createOperatorSets [PermissionController π] (hidle : m.books.Idle)
    (caller avs : Address) (sets : List CreateSetRequest) :
    Leads (m = ·) (createOperatorSets caller avs sets)
      (fun _ => m.Committed (Call.createOperatorSets avs sets).mayPost) m.Abandoned := by
  refine Leads.bind (leads_requireCaller avs caller _) fun _ => Leads.get_bind_eq ?_
  refine leads_atomically_onBooks hidle
    (fun b₀ => Leads.forM fun _ _ => reversible_createSet _ _ _ b₀)
    (Leads.forM fun r hr => ?_)
  exact leads_createSet ⟨rfl, r, hr, rfl⟩ fun x hx => ⟨rfl, r, hr, rfl, hx⟩

theorem leads_addStrategies [PermissionController π] (hidle : m.books.Idle)
    (caller avs : Address) (id : UInt32) (strategies : List Address) :
    Leads (m = ·) (addStrategies caller avs id strategies)
      (fun _ => m.Committed (Call.addStrategies avs id strategies).mayPost) m.Abandoned := by
  refine Leads.bind (leads_requireCaller avs caller _) fun _ => Leads.get_bind_eq ?_
  exact leads_atomically_onBooks hidle (reversible_addStrategies _ _ _)
    (Books.leads_addStrategies fun x hx => ⟨rfl, hx⟩)

theorem leads_removeStrategies [PermissionController π] (hidle : m.books.Idle)
    (caller avs : Address) (id : UInt32) (strategies : List Address) :
    Leads (m = ·) (removeStrategies caller avs id strategies)
      (fun _ => m.Committed (Call.removeStrategies avs id strategies).mayPost) m.Abandoned := by
  refine Leads.bind (leads_requireCaller avs caller _) fun _ => ?_
  exact leads_atomically_onBooks hidle (reversible_removeStrategies _ _)
    (Books.leads_removeStrategies fun x hx => ⟨rfl, hx⟩)

/-- The postings of a slash in progress, under the terms that were read off `b₁`. -/
def Slashing (m : Manager δ ρ π) (may : Entry → Prop) (b₁ b : Books) : Prop :=
  Rewinds m.books b ∧ Postings m.config m.block may m.books.checkpoint b ∧ SameTerms b₁ b

theorem Slashing.inProgress {may : Entry → Prop} {b₁ : Books} {m' : Manager δ ρ π}
    (h : m.Amid (m.Slashing may b₁) m') : m.Amid (m.InProgress may) m' := by
  obtain ⟨b, delegation, registrar, h, hrewinds, hpost, -⟩ := h
  exact ⟨b, delegation, registrar, h, hrewinds, hpost⟩

theorem Slashing.rewinds {may : Entry → Prop} {b₁ : Books} {m' : Manager δ ρ π}
    (h : m.Amid (m.Slashing may b₁) m') : m.Amid (Rewinds m.books) m' := by
  obtain ⟨b, delegation, registrar, h, hrewinds, -⟩ := h
  exact ⟨b, delegation, registrar, h, hrewinds⟩

theorem leads_slashLeg [DelegationLedger δ] {may : Entry → Prop} {b₁ : Books} {p : Position}
    {w : UInt64} (hmay : may (.cut p w)) (hwad : 0 < w ∧ w < wad)
    (hslashable : b₁.isSlashable p.membership m.block) :
    Leads (m.Amid (m.Slashing may b₁)) (slashLeg p w) (fun _ => m.Amid (m.Slashing may b₁))
      (m.Amid (Rewinds m.books)) := by
  apply Leads.get_bind
  intro m' hm
  rcases hm with ⟨b, delegation, registrar, rfl, hb⟩
  have hcut : Leads (m.Amid (m.Slashing may b₁)) (onBooks (cut p w m.block))
      (fun _ => m.Amid (m.Slashing may b₁)) (m.Amid (Rewinds m.books)) :=
    leads_onBooks (Reversible.leads (reversible_cut p w m.block) (leads_cut hmay hwad hslashable))
  refine Leads.bind (hcut.weaken ?_ (fun _ _ h => h) fun _ h => h) fun cut => ?_
  · intro m' hm
    subst m'
    exact ⟨b, delegation, registrar, rfl, hb⟩
  · cases cut with
    | none => exact Leads.pure fun _ h => h
    | some cut =>
      exact Leads.bind (leads_onDelegation.weaken (fun _ h => h) (fun _ _ h => h)
        fun _ => Slashing.rewinds) fun _ => Leads.pure fun _ h => h

theorem leads_slashOperator [DelegationLedger δ] [PermissionController π] (hidle : m.books.Idle)
    (caller avs : Address) (r : SlashRequest) :
    Leads (m = ·) (slashOperator caller avs r)
      (fun _ => m.Committed (Call.slashOperator avs r).mayPost) m.Abandoned := by
  refine Leads.bind (leads_requireCaller avs caller _) fun _ =>
    Leads.bind (leads_atomically hidle (Leads.get_bind ?_)) fun _ =>
      Leads.bind (leads_count _) fun _ => Leads.pure fun _ h => h
  intro m' hm
  rcases hm with ⟨b, delegation, registrar, rfl, hb⟩
  have hstart : m.Amid (b = ·) { m with books := b, delegation, registrar } := ⟨_, _, _, rfl, rfl⟩
  refine Leads.bind (M := fun _ m' => m.Amid (b = ·) m' ∧
    b.checkSlash ⟨avs, r.setId⟩ r m.block = .ok ()) (Leads.ofExcept ?_ ?_) fun _ => ?_
  · intro _ m' hm hcheck
    subst m'
    exact ⟨hstart, hcheck⟩
  · intro m' hm
    subst m'
    exact ⟨b, _, _, rfl, hb.1⟩
  intro m' hchecked
  rcases hchecked with ⟨hm', hcheck⟩
  obtain ⟨hset, hslashable, -, -, hwads⟩ := checkSlash_eq_ok.1 hcheck
  have hmayCount : (Call.slashOperator avs r).mayPost (.countSlash ⟨avs, r.setId⟩) := rfl
  have hmayLog : (Call.slashOperator avs r).mayPost (.logSlash ⟨r.operator, ⟨avs, r.setId⟩⟩) := rfl
  -- the rounds start from books in which nothing has changed but the count
  have hcount : Leads (m.Amid (b = ·)) (onBooks (nextSlashId ⟨avs, r.setId⟩))
      (fun _ => m.Amid (m.Slashing (Call.slashOperator avs r).mayPost b))
      (m.Amid (Rewinds m.books)) := by
    apply leads_onBooks
    intro m' hm
    subst m'
    exact ⟨(reversible_nextSlashId _ m.books).of_ok hb.1 (nextSlashId_apply b _),
      hb.2.tail hmayCount (.countSlash hset), ⟨rfl, rfl, rfl, rfl⟩⟩
  refine Leads.bind hcount (fun id => Leads.bind (Leads.mapM ?_) fun legs => ?_) m' hm'
  · intro leg hleg
    rcases leg with ⟨x, w⟩
    exact leads_slashLeg ⟨rfl, hleg⟩ (hwads w (List.of_mem_zip hleg).2) hslashable
  · refine Leads.bind (leads_onBooks
      (Q := fun _ => m.Slashing (Call.slashOperator avs r).mayPost b) (Leads.modify ?_)) fun _ =>
        Leads.pure fun _ => Slashing.inProgress
    intro b' hb'
    rcases hb' with ⟨hrewinds, hpost, hterms⟩
    exact ⟨hrewinds.emit _, hpost.tail hmayLog .logSlash, ⟨hterms.1, hterms.2, hterms.3, hterms.4⟩⟩

/-- Every call makes its postings and commits them, or leaves the books alone. -/
theorem leads_perform [DelegationLedger δ] [SetRegistrar ρ] [PermissionController π]
    (hidle : m.books.Idle) (caller : Address) (c : Call) :
    Leads (m = ·) (perform caller c) (fun _ => m.Committed c.mayPost) m.Abandoned := by
  have hdone : ∀ {may : Entry → Prop}, Leads (m.Committed may)
      (pure .done : Managing δ ρ π Reply) (fun _ => m.Committed may) m.Abandoned :=
    Leads.pure fun _ h => h
  cases c with
  | setAllocationDelay operator delay => exact Leads.map (leads_setAllocationDelay hidle _ _ _)
  | modifyAllocations operator requests =>
    exact Leads.bind (leads_modifyAllocations hidle _ _ _) fun _ => hdone
  | clearDeallocationQueue operator strategies limits =>
    exact Leads.map (leads_clearDeallocationQueue hidle _ _ _)
  | registerForOperatorSets operator request =>
    exact Leads.bind (leads_registerForOperatorSets hidle _ _ _) fun _ => hdone
  | deregisterFromOperatorSets request =>
    exact Leads.bind (leads_deregisterFromOperatorSets hidle _ _) fun _ => hdone
  | createOperatorSets avs sets =>
    exact Leads.bind (leads_createOperatorSets hidle _ _ _) fun _ => hdone
  | addStrategies avs id strategies =>
    exact Leads.bind (leads_addStrategies hidle _ _ _ _) fun _ => hdone
  | removeStrategies avs id strategies =>
    exact Leads.bind (leads_removeStrategies hidle _ _ _ _) fun _ => hdone
  | slashOperator avs request => exact Leads.map (leads_slashOperator hidle _ _ _)

end Restake.Manager
