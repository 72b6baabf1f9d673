import Restake.Proofs.Lockstep

/-!
Why a call fails. Its arguments, its caller, the state of the sets and of the operator, its
collaborators and the clock all give reasons. But no magnitude ever leaves its range: well-kept
books hold what every step takes from them.
-/
namespace Restake

namespace Steps

variable {ε σ α β : Type}

/-- If the step fails in a state of `P`, it is for a reason of `E`. -/
def FailsBy (P : σ → Prop) (x : EStateM ε σ α) (E : ε → Prop) : Prop :=
  ∀ s e t, P s → x s = .error e t → E e

theorem leads_trivial (P : σ → Prop) (x : EStateM ε σ α) :
    Leads P x (fun _ _ => True) fun _ => True :=
  (Leads.const True x).weaken (fun _ _ => trivial) (fun _ _ h => h) fun _ h => h

theorem unless_throw_eq_error {c : Prop} [Decidable c] {e e' : ε} {x : Except ε α} :
    (do unless c do throw e
        x) = .error e' ↔ (¬c ∧ e = e') ∨ (c ∧ x = .error e') := by
  by_cases hc : c
  · rw [if_pos hc]
    exact ⟨fun h => .inr ⟨hc, h⟩, fun h => h.elim (fun h => absurd hc h.1) And.right⟩
  · rw [if_neg hc]
    exact ⟨fun h => .inl ⟨hc, Except.error.inj h⟩,
      fun h => h.elim (fun h => congrArg Except.error h.2) fun h => absurd h.1 hc⟩

namespace FailsBy

variable {P : σ → Prop} {x : EStateM ε σ α} {E : ε → Prop}

theorem pure {a : α} : FailsBy P (pure a : EStateM ε σ α) E := fun _ _ _ _ h => nomatch h

theorem modify {f : σ → σ} : FailsBy P (modify f : EStateM ε σ PUnit) E :=
  fun _ _ _ _ h => nomatch h

theorem throw {e : ε} (h : E e) : FailsBy P (throw e : EStateM ε σ α) E := by
  intro s e' t _ hthrow
  cases hthrow
  exact h

theorem ofExcept {y : Except ε α} (h : ∀ e, y = .error e → E e) :
    FailsBy P (MonadExcept.ofExcept y : EStateM ε σ α) E := by
  intro s e t _ herror
  rw [ofExcept_apply] at herror
  cases y with
  | ok a => cases herror
  | error e' =>
    cases herror
    exact h e rfl

theorem ofExcept_bind {a : α} {f : α → EStateM ε σ β} (h : FailsBy P (f a) E) :
    FailsBy P (MonadExcept.ofExcept (.ok a : Except ε α) >>= f) E := h

/-- A sequence fails for a reason of its first part, or of the second in a state that the first
leads to. -/
theorem bind {M : α → σ → Prop} {f : α → EStateM ε σ β} (hx : FailsBy P x E)
    (hleads : Leads P x M fun _ => True) (hf : ∀ a, FailsBy (M a) (f a) E) :
    FailsBy P (x >>= f) E := by
  intro s e t hs herror
  rcases bind_eq_error.1 herror with hfirst | ⟨a, r, hok, hrest⟩
  · exact hx s e t hs hfirst
  · exact hf a r e t (hleads.of_ok hs hok) hrest

/-- As `bind`, where the second part needs no state in particular. -/
theorem bind_any {f : α → EStateM ε σ β} (hx : FailsBy P x E)
    (hf : ∀ a, FailsBy (fun _ => True) (f a) E) : FailsBy P (x >>= f) E :=
  bind hx (leads_trivial P x) hf

theorem throw_bind {e : ε} {f : α → EStateM ε σ β} (h : E e) :
    FailsBy P (MonadExcept.throw e >>= f) E := by
  intro s e' t _ hthrow
  cases hthrow
  exact h

theorem map {f : α → β} (h : FailsBy P x E) : FailsBy P (f <$> x) E := by
  intro s e t hs herror
  rw [map_apply] at herror
  cases hx : x s with
  | ok a r =>
    rw [hx] at herror
    cases herror
  | error e' r =>
    rw [hx] at herror
    cases herror
    exact h s e t hs hx

/-- What is known apart from the state may be used. -/
theorem given {C : Prop} (h : C → FailsBy P x E) : FailsBy (fun s => C ∧ P s) x E :=
  fun s e t hs => h hs.1 s e t hs.2

theorem get_bind {f : σ → EStateM ε σ β} (h : ∀ s, P s → FailsBy (s = ·) (f s) E) :
    FailsBy P (get >>= f) E :=
  fun s e t hs herror => h s hs s e t rfl herror

theorem read_bind {f : σ → EStateM ε σ β} (h : ∀ s, FailsBy P (f s) E) :
    FailsBy P (get >>= f) E :=
  fun s e t hs herror => h s s e t hs herror

theorem ite {c : Prop} [Decidable c] {y : EStateM ε σ α} (hx : c → FailsBy P x E)
    (hy : ¬c → FailsBy P y E) : FailsBy P (if c then x else y) E := by
  split
  · exact hx (by assumption)
  · exact hy (by assumption)

theorem forM {f : α → EStateM ε σ PUnit} {l : List α} (h : ∀ a ∈ l, FailsBy P (f a) E)
    (hleads : ∀ a ∈ l, Leads P (f a) (fun _ => P) fun _ => True) : FailsBy P (l.forM f) E := by
  induction l with
  | nil => exact pure
  | cons a l ih =>
    exact bind (h a List.mem_cons_self) (hleads a List.mem_cons_self) fun _ =>
      ih (fun b hb => h b (List.mem_cons_of_mem a hb))
        fun b hb => hleads b (List.mem_cons_of_mem a hb)

theorem mapM {f : α → EStateM ε σ β} {l : List α} (h : ∀ a ∈ l, FailsBy P (f a) E)
    (hleads : ∀ a ∈ l, Leads P (f a) (fun _ => P) fun _ => True) : FailsBy P (l.mapM f) E := by
  induction l with
  | nil => exact pure
  | cons a l ih =>
    rw [List.mapM_cons]
    exact bind (h a List.mem_cons_self) (hleads a List.mem_cons_self) fun _ =>
      bind_any (ih (fun b hb => h b (List.mem_cons_of_mem a hb))
        fun b hb => hleads b (List.mem_cons_of_mem a hb)) fun _ => pure

end FailsBy

end Steps

open Steps

/-- The reason is another than a magnitude that would leave its range. -/
def Failure.InRange (e : Failure) : Prop :=
  ∀ magnitude change, e ≠ .magnitudeOutOfRange magnitude change

namespace Books

variable {b : Books} {config : Config} {block : BlockNumber}

section Terms

variable {P : Books → Prop}

theorem failsBy_requireSet (s : OperatorSet) : FailsBy P (requireSet s) Failure.InRange :=
  .read_bind fun _ => .ite (fun _ => .pure) fun _ => .throw nofun

theorem failsBy_effectAfter (block delay : BlockNumber) :
    FailsBy P (effectAfter block delay) Failure.InRange := by
  unfold effectAfter
  cases BlockNumber.after? block delay with
  | none => exact .throw nofun
  | some effectBlock => exact .pure

theorem failsBy_requestDelay (configurationDelay : BlockNumber) (operator : Address)
    (delay block : BlockNumber) :
    FailsBy P (requestDelay configurationDelay operator delay block) Failure.InRange := by
  unfold requestDelay
  cases BlockNumber.after? block configurationDelay with
  | none => exact .throw nofun
  | some effectBlock => exact .read_bind fun _ => .bind_any .modify fun _ => .pure

theorem failsBy_addStrategies (s : OperatorSet) (maxStrategies : UInt64) (xs : List Address) :
    FailsBy P (addStrategies s maxStrategies xs) Failure.InRange := by
  refine .bind_any (failsBy_requireSet s) fun _ =>
    .forM (fun x _ => ?_) fun _ _ => leads_trivial _ _
  refine .read_bind fun _ => .ite (fun _ => .throw_bind nofun) fun _ => ?_
  refine .bind_any .modify fun _ => .ite (fun _ => .throw_bind nofun) fun _ => ?_
  exact .modify

theorem failsBy_createSet (s : OperatorSet) (maxStrategies : UInt64) (xs : List Address) :
    FailsBy P (createSet s maxStrategies xs) Failure.InRange := by
  refine .read_bind fun _ => .ite (fun _ => .throw_bind nofun) fun _ => ?_
  exact .bind_any .modify fun _ => failsBy_addStrategies s maxStrategies xs

theorem failsBy_removeStrategies (s : OperatorSet) (xs : List Address) :
    FailsBy P (removeStrategies s xs) Failure.InRange := by
  refine .bind_any (failsBy_requireSet s) fun _ =>
    .forM (fun x _ => ?_) fun _ _ => leads_trivial _ _
  exact .read_bind fun _ => .ite (fun _ => .modify) fun _ => .throw_bind nofun

theorem failsBy_register (m : Membership) : FailsBy P (register m) Failure.InRange := by
  refine .bind_any (failsBy_requireSet m.set) fun _ => .read_bind fun _ => ?_
  exact .ite (fun _ => .throw_bind nofun) fun _ => .modify

theorem failsBy_deregister (slashableUntil : BlockNumber) (m : Membership) :
    FailsBy P (deregister slashableUntil m) Failure.InRange := by
  refine .bind_any (failsBy_requireSet m.set) fun _ => .read_bind fun _ => ?_
  exact .ite (fun _ => .modify) fun _ => .throw_bind nofun

theorem inRange_of_checkSlash {s : OperatorSet} {r : SlashRequest} {e : Failure}
    (h : b.checkSlash s r block = .error e) : e.InRange := by
  simp only [checkSlash, unless_throw_eq_error] at h
  rcases h with ⟨-, rfl⟩ | ⟨-, ⟨-, rfl⟩ | ⟨-, ⟨-, rfl⟩ | ⟨-, ⟨-, rfl⟩ | ⟨-, h⟩⟩⟩⟩
  · rintro _ _ ⟨⟩
  · rintro _ _ ⟨⟩
  · rintro _ _ ⟨⟩
  · rintro _ _ ⟨⟩
  · split at h
    · cases h
      rintro _ _ ⟨⟩
    · cases h

end Terms

section Magnitudes

variable {p : Position}

/-- What a position holds, as read at a block, is part of what is encumbered then. -/
theorem Balanced.held_settled_le (h : b.Balanced) {c : Capacity} {al : Allocation}
    (hsettled : b.settled p block = .ok (c, al)) : al.held ≤ c.encumbered.toNat := by
  obtain ⟨-, -, -, hheld⟩ := h.of_settled hsettled
  have hle := h.held_le p
  omega

/-- Magnitude can be given up as far as it is in force. -/
theorem Balanced.shift_down (h : b.Balanced) {c : Capacity} {al : Allocation}
    (hsettled : b.settled p block = .ok (c, al)) {m : Magnitude} (hdown : m < al.current) :
    ∃ encumbered, Magnitude.shift? c.encumbered (Magnitude.changeTo al.current m) =
      some encumbered := by
  have hheld := h.held_settled_le hsettled
  have hlt := c.encumbered.toNat_lt
  rw [UInt64.lt_iff_toNat_lt] at hdown
  unfold Allocation.held at hheld
  refine ⟨c.encumbered - (al.current - m), Magnitude.shift?_eq_some_iff.2 ?_⟩
  have hgiven :=
    UInt64.toNat_sub_of_le al.current m (UInt64.le_of_lt (UInt64.lt_iff_toNat_lt.2 hdown))
  rw [UInt64.toNat_sub_of_le _ _ (UInt64.le_iff_toNat_le.2 (by omega))]
  unfold Magnitude.changeTo
  omega

theorem leads_of_agree {α : Type} {x : Bookkeeping α} {E : Books → Books → Prop}
    (h : Agree (Matched config block) x x (fun _ => Matched config block) E) :
    Leads (WellKept config block) x (fun _ => WellKept config block) fun _ => True := by
  intro b hb
  rcases (h b b ⟨hb, hb, .refl block b⟩).cases with ⟨a, t, t', hx, -, hend⟩ | ⟨e, t, t', hx, -, -⟩
  · rw [hx]
    exact hend.left
  · rw [hx]
    trivial

theorem failsBy_modifyAllocation (delay : BlockNumber) (slashable : Bool) (p : Position)
    (m : Magnitude) :
    FailsBy (WellKept config block)
      (modifyAllocation ⟨block, delay, config.deallocationDelay⟩ slashable p m)
      Failure.InRange := by
  refine .bind (M := fun _ => WellKept config block) ?_ ?_ fun _ => .get_bind fun b hb => ?_
  · intro b e b' hb herror
    obtain ⟨_, hok, -⟩ := hb.settleAccount_succeeds p.account
    rw [hok] at herror
    cases herror
  · intro b hb
    obtain ⟨_, hok, hsettlement, -⟩ := hb.settleAccount_succeeds p.account
    rw [hok]
    exact hsettlement.wellKept
  obtain ⟨c, hsettled⟩ := hb.balanced.settled_ok p block
  dsimp only
  rw [hsettled]
  generalize (b.allocation p).asOf block = al at hsettled
  refine .ofExcept_bind (.ite (fun _ => .throw_bind nofun) fun _ => ?_)
  refine .ite (fun _ => .throw_bind nofun) fun hne => .ite (fun hup => ?_) fun hup => ?_
  · refine .ite (fun _ => .throw_bind nofun) fun _ => ?_
    exact .bind_any (failsBy_effectAfter _ _) fun _ => .bind_any .modify fun _ => .pure
  · refine .read_bind fun _ => .ite (fun _ => ?_) fun _ => ?_
    · exact .bind_any (failsBy_effectAfter _ _) fun _ => .bind_any .modify fun _ => .pure
    · have hdown : m < al.current := UInt64.lt_of_le_of_ne (UInt64.not_lt.1 hup) hne
      obtain ⟨encumbered, hshift⟩ := hb.balanced.shift_down hsettled hdown
      dsimp only
      rw [hshift]
      exact .bind_any .modify fun _ => .pure

theorem failsBy_modifyAllocations (operator : Address) (requests : List AllocateRequest) :
    FailsBy (WellKept config block) (modifyAllocations config block operator requests)
      Failure.InRange := by
  refine .read_bind fun b => .bind (M := fun _ => WellKept config block) (.ofExcept ?_)
    (Leads.ofExcept (fun _ _ hb _ => hb) fun _ _ => trivial) fun delay => ?_
  · intro e herror
    unfold effectiveDelay at herror
    split at herror
    · cases herror
    · cases herror
      exact nofun
  · refine .bind_any (.mapM (fun r _ => ?_) fun r _ => ?_) fun _ => .pure
    · refine .ite (fun _ => ?_) fun _ => .throw_bind nofun
      refine .bind (failsBy_requireSet r.set) (leads_of_agree (agree_requireSet r.set)) fun _ =>
        .read_bind fun b₁ => .mapM (fun xm _ => ?_) fun xm _ => ?_
      · exact failsBy_modifyAllocation delay _ _ xm.2
      · exact leads_of_agree (agree_modifyAllocation delay _ _ xm.2)
    · exact leads_of_agree (agree_applyRequest delay operator r)

end Magnitudes

end Books

namespace Manager

open Books

variable {δ ρ π α : Type}

section Rules

variable {P : Manager δ ρ π → Prop} {E : Failure → Prop}

theorem failsBy_onBooks {Q : Books → Prop} {step : Bookkeeping α} (h : FailsBy Q step E)
    (hP : ∀ m, P m → Q m.books) : FailsBy P (onBooks step) E := by
  intro m e m' hm herror
  unfold onBooks at herror
  cases hrun : step m.books with
  | ok a b =>
    rw [hrun] at herror
    cases herror
  | error e' b =>
    rw [hrun] at herror
    cases herror
    exact h m.books e b (hP m hm) hrun

theorem failsBy_atomically {Q : Manager δ ρ π → Prop} {body : Managing δ ρ π α}
    (h : FailsBy Q body E) (hP : ∀ m, P m → Q { m with books := m.books.checkpoint }) :
    FailsBy P (atomically body) E := by
  intro m e m' hm herror
  unfold atomically at herror
  cases hrun : body { m with books := m.books.checkpoint } with
  | ok a m₁ =>
    rw [hrun] at herror
    cases herror
  | error e' m₁ =>
    rw [hrun] at herror
    cases herror
    exact h _ e m₁ (hP m hm) hrun

theorem failsBy_onBooks_any {step : Bookkeeping α} (h : FailsBy (fun _ => True) step E) :
    FailsBy P (onBooks step) E := failsBy_onBooks h fun _ _ => trivial

theorem failsBy_atomically_any {body : Managing δ ρ π α} (h : FailsBy (fun _ => True) body E) :
    FailsBy P (atomically body) E := failsBy_atomically h fun _ _ => trivial

theorem failsBy_tolerating (hook : EStateM RegistrarFailure ρ Unit) :
    FailsBy P (tolerating hook) E := by
  intro m e m' _ herror
  unfold tolerating at herror
  cases hrun : hook m.registrar <;> rw [hrun] at herror <;> cases herror

end Rules

section Calls

variable {P : Manager δ ρ π → Prop}

theorem failsBy_onDelegation (step : EStateM DelegationFailure δ α) :
    FailsBy P (onDelegation step) Failure.InRange := by
  intro m e m' _ herror
  unfold onDelegation at herror
  cases hrun : step m.delegation <;> rw [hrun] at herror <;> cases herror
  exact nofun

theorem failsBy_onRegistrar (step : EStateM RegistrarFailure ρ α) :
    FailsBy P (onRegistrar step) Failure.InRange := by
  intro m e m' _ herror
  unfold onRegistrar at herror
  cases hrun : step m.registrar <;> rw [hrun] at herror <;> cases herror
  exact nofun

theorem mayCall_iff [PermissionController π] {m : Manager δ ρ π} {principal caller : Address}
    {e : Entrypoint} : m.mayCall principal caller e ↔
      caller = principal ∨ PermissionController.canCall m.permissions principal caller e := by
  rw [mayCall, Bool.or_eq_true, decide_eq_true_eq, eq_comm]

theorem failsBy_requireCaller [PermissionController π] (principal caller : Address)
    (e : Entrypoint) :
    FailsBy P (requireCaller principal caller e : Managing δ ρ π Unit) Failure.InRange :=
  .read_bind fun _ => .ite (fun _ => .pure) fun _ => .throw nofun

theorem failsBy_requireOperator [DelegationLedger δ] (operator : Address) :
    FailsBy P (requireOperator operator : Managing δ ρ π Unit) Failure.InRange :=
  .read_bind fun _ => .ite (fun _ => .pure) fun _ => .throw nofun

/-- A manager beside itself: at this block, under this configuration, with well-kept books. -/
theorem twins_self {m : Manager δ ρ π} (h : WellKept m.config m.block m.books) :
    Twins m.config m.block m m :=
  ⟨rfl, rfl, ⟨rfl, rfl, rfl, rfl, rfl⟩, h, h, .refl _ _⟩

variable {config : Config} {block : BlockNumber}

theorem leads_of_twins {x : Managing δ ρ π α}
    (h : Steady (· = ·) (· = ·) (Matched config block) config block x) :
    Leads (fun m => Twins config block m m) x (fun _ m => Twins config block m m)
      fun _ => True := by
  intro m hm
  rcases (h.agree m m hm).cases with
    ⟨a, t, t', hx, -, hconfig, hblock, -, hbooks⟩ | ⟨e, t, t', hx, -⟩
  · rw [hx]
    exact ⟨hconfig, hblock, ⟨rfl, rfl, rfl, rfl, rfl⟩, hbooks.left, hbooks.left, .refl _ _⟩
  · rw [hx]
    trivial

theorem twins_checkpoint {m : Manager δ ρ π} (h : Twins config block m m) :
    Twins config block { m with books := m.books.checkpoint }
      { m with books := m.books.checkpoint } := by
  obtain ⟨rfl, rfl, -, hbooks⟩ := h
  exact twins_self (hbooks.left.of_magnitudes (sameReads_checkpoint m.books).toSameMagnitudes)

theorem failsBy_slashLeg [DelegationLedger δ] (p : Position) {w : UInt64} (hw : w < wad) :
    FailsBy (fun m => Twins config block m m)
      (slashLeg p w : Managing δ ρ π (Option SlashLeg)) Failure.InRange := by
  refine .get_bind fun m hm => ?_
  obtain ⟨-, rfl, -, hbooks⟩ := hm
  refine .bind_any (failsBy_onBooks (Q := WellKept config m.block) ?_ ?_) fun cut => ?_
  · intro b e b' hb herror
    obtain ⟨_, _, hok⟩ := hb.cut_succeeds p hw
    rw [hok] at herror
    cases herror
  · rintro _ rfl
    exact hbooks.left
  · cases cut with
    | none => exact .pure
    | some cut => exact .bind_any (failsBy_onDelegation _) fun _ => .pure

theorem failsBy_slashOperator [DelegationLedger δ] [PermissionController π]
    (caller avs : Address) (r : SlashRequest) :
    FailsBy (fun m => Twins config block m m)
      (slashOperator caller avs r : Managing δ ρ π SlashOutcome) Failure.InRange := by
  refine .bind (failsBy_requireCaller _ _ _) (leads_of_twins (.requireCaller _ _ _)) fun _ =>
    .bind_any (failsBy_atomically (Q := fun m => Twins config block m m) ?_
      fun _ => twins_checkpoint) fun _ => .bind_any .modify fun _ => .pure
  refine .read_bind fun m => .bind (M := fun _ t => (∀ w ∈ r.wads, 0 < w ∧ w < wad) ∧
    Twins config block t t) (.ofExcept fun _ => inRange_of_checkSlash) ?_
    fun _ => .given fun hwads => ?_
  · exact Leads.ofExcept (fun _ _ ht hcheck => ⟨(checkSlash_eq_ok.1 hcheck).2.2.2.2, ht⟩)
      fun _ _ => trivial
  refine .bind (M := fun _ t => Twins config block t t) (failsBy_onBooks_any fun _ _ _ _ => nofun)
    (leads_of_twins (.onBooks (agree_nextSlashId _))) fun id => ?_
  refine .bind_any (.mapM ?_ ?_) fun legs => .bind_any ?_ fun _ => .pure
  · intro leg hleg
    rcases leg with ⟨x, w⟩
    exact failsBy_slashLeg _ (hwads w (List.of_mem_zip hleg).2).2
  · intro leg hleg
    rcases leg with ⟨x, w⟩
    exact leads_of_twins (steady_slashLeg _ (hwads w (List.of_mem_zip hleg).2).2)
  · exact failsBy_onBooks_any .modify

end Calls

/-- No call ever finds a magnitude out of its range. -/
theorem failsBy_perform [DelegationLedger δ] [SetRegistrar ρ] [PermissionController π]
    (caller : Address) (c : Call) {config : Config} {block : BlockNumber} :
    FailsBy (fun m => Twins config block m m) (perform caller c : Managing δ ρ π Reply)
      Failure.InRange := by
  cases c with
  | setAllocationDelay operator delay =>
    refine .map (.bind_any (failsBy_requireCaller _ _ _) fun _ =>
      .bind_any (failsBy_requireOperator _) fun _ => .read_bind fun _ => ?_)
    exact failsBy_atomically_any (failsBy_onBooks_any (failsBy_requestDelay _ _ _ _))
  | modifyAllocations operator requests =>
    refine .bind_any (.bind (failsBy_requireCaller _ _ _)
      (leads_of_twins (.requireCaller _ _ _)) fun _ => .get_bind fun m hm => ?_)
      fun _ => .pure
    obtain ⟨rfl, rfl, -, hbooks⟩ := hm
    refine .bind_any (failsBy_atomically (Q := fun t => WellKept m.config m.block t.books)
      (failsBy_onBooks (failsBy_modifyAllocations operator requests) fun _ ht => ht) ?_)
      fun _ => .modify
    rintro _ rfl
    exact hbooks.left.of_magnitudes (sameReads_checkpoint m.books).toSameMagnitudes
  | clearDeallocationQueue operator strategies limits =>
    refine .map fun m e m' hm herror => ?_
    obtain ⟨rfl, rfl, -, hbooks⟩ := hm
    rcases clearDeallocationQueue_apply hbooks.left operator strategies limits with
      ⟨-, hrun⟩ | ⟨-, counts, b, tally, hrun, -⟩
    · rw [hrun] at herror
      cases herror
      exact nofun
    · rw [hrun] at herror
      cases herror
  | registerForOperatorSets operator request =>
    refine .bind_any (.bind_any (failsBy_requireCaller _ _ _) fun _ =>
      .bind_any (failsBy_requireOperator _) fun _ => .bind_any ?_ fun _ => .modify) fun _ => .pure
    refine failsBy_atomically_any (.bind_any (failsBy_onBooks_any ?_)
      fun _ => failsBy_onRegistrar _)
    exact .forM (fun _ _ => failsBy_register _) fun _ _ => leads_trivial _ _
  | deregisterFromOperatorSets request =>
    refine .bind_any (.read_bind fun m => .ite (fun _ => ?_) fun _ =>
      .bind_any (failsBy_requireCaller _ _ _) fun _ => ?_) fun _ => .pure
    all_goals
      refine .bind_any (failsBy_onBooks_any (failsBy_effectAfter _ _)) fun _ =>
        .bind_any (failsBy_atomically_any (failsBy_onBooks_any ?_)) fun _ =>
          .bind_any .modify fun _ => failsBy_tolerating _
      exact .forM (fun _ _ => failsBy_deregister _ _) fun _ _ => leads_trivial _ _
  | createOperatorSets avs sets =>
    refine .bind_any (.bind_any (failsBy_requireCaller _ _ _) fun _ => .read_bind fun _ => ?_)
      fun _ => .pure
    refine failsBy_atomically_any (failsBy_onBooks_any ?_)
    exact .forM (fun _ _ => failsBy_createSet _ _ _) fun _ _ => leads_trivial _ _
  | addStrategies avs id strategies =>
    refine .bind_any (.bind_any (failsBy_requireCaller _ _ _) fun _ => .read_bind fun _ => ?_)
      fun _ => .pure
    exact failsBy_atomically_any (failsBy_onBooks_any (failsBy_addStrategies _ _ _))
  | removeStrategies avs id strategies =>
    refine .bind_any (.bind_any (failsBy_requireCaller _ _ _) fun _ => ?_) fun _ => .pure
    exact failsBy_atomically_any (failsBy_onBooks_any (failsBy_removeStrategies _ _))
  | slashOperator avs request => exact .map (failsBy_slashOperator caller avs request)

/-- What a call on a reachable manager fails for is never a magnitude out of range. -/
theorem Reachable.attempt_inRange [DelegationLedger δ] [SetRegistrar ρ] [PermissionController π]
    {m : Manager δ ρ π} (h : m.Reachable) (caller : Address) (c : Call) (e : Failure)
    (he : (m.attempt (perform caller c)).1 = .error e) : e.InRange := by
  unfold attempt at he
  cases hrun : perform caller c m with
  | ok r m' =>
    rw [hrun] at he
    cases he
  | error e' m' =>
    rw [hrun] at he
    cases he
    exact failsBy_perform caller c m e m' (twins_self h.wellKept) hrun

end Manager

end Restake
