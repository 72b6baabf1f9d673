import Restake.Proofs.Alongside

/-!
Managers in lockstep. Two managers whose books read alike, with the same collaborators, answer every
call in the same way and stay like that, whatever happens to both of them. So what one of them has
settled and the other has not shows in no view and in no answer, but in how much is left to clear.
-/
namespace Restake.Manager

open Steps Books

variable {δ ρ π α β : Type} {config : Config} {block : BlockNumber} {m m' : Manager δ ρ π}

/-- The two differ in books and counters at most. -/
structure SameSurroundings (m m' : Manager δ ρ π) : Prop where
  config : m'.config = m.config
  block : m'.block = m.block
  delegation : m'.delegation = m.delegation
  registrar : m'.registrar = m.registrar
  permissions : m'.permissions = m.permissions

/-- Two managers side by side, at one block, with their books related by `R`. -/
def Paired (config : Config) (block : BlockNumber) (R : Books → Books → Prop)
    (m m' : Manager δ ρ π) : Prop :=
  m.config = config ∧ m.block = block ∧ SameSurroundings m m' ∧ R m.books m'.books

/-- Two managers at one block whose books read alike. -/
abbrev Twins (config : Config) (block : BlockNumber) (m m' : Manager δ ρ π) : Prop :=
  Paired config block (Matched config block) m m'

theorem alongside_eq_iff : Alongside (· = ·) (· = ·) m m' ↔ SameSurroundings m m' :=
  ⟨fun h => ⟨h.config, h.block, h.delegation.symm, h.registrar.symm, h.permissions⟩,
    fun h => ⟨h.config, h.block, h.delegation.symm, h.registrar.symm, h.permissions⟩⟩

/-- What is steady where the collaborators are the same agrees on managers that are paired. -/
theorem Steady.agree {R : Books → Books → Prop} {x : Managing δ ρ π α}
    (h : Steady (· = ·) (· = ·) R config block x) :
    Agree (Paired config block R) x x (fun _ => Paired config block R) SameSurroundings := by
  refine h.weaken ?_ ?_ fun _ _ hsame => alongside_eq_iff.1 hsame
  · rintro t t' ⟨hconfig, hblock, hsame, hbooks⟩
    exact ⟨hconfig, hblock, alongside_eq_iff.2 hsame, hbooks⟩
  · rintro _ t t' ⟨hconfig, hblock, hsame, hbooks⟩
    exact ⟨hconfig, hblock, alongside_eq_iff.1 hsame, hbooks⟩

section Twins

variable [DelegationLedger δ]

theorem steady_slashLeg (p : Position) {w : UInt64} (hw : w < wad) :
    Steady (· = ·) (· = ·) (Matched config block) config block
      (slashLeg p w : Managing δ ρ π (Option SlashLeg)) :=
  Steady.slashLeg (agree_cut p hw) fun _ _ => respects_eq _

/-- Books that read alike number a slash alike, so its outcome agrees with its number. -/
theorem steady_slashOperator [PermissionController π] (caller avs : Address) (r : SlashRequest) :
    Steady (· = ·) (· = ·) (Matched config block) config block
      (slashOperator caller avs r : Managing δ ρ π SlashOutcome) := by
  refine (Steady.requireCaller _ _ _).bind fun _ =>
    (Steady.atomically bracketed_matched (Agree.read_bind ?_)).bind fun _ =>
      (Steady.count _).bind fun _ => Steady.pure _
  intro m m' hm
  rcases hm with ⟨rfl, rfl, hsame, hbooks⟩
  dsimp only
  rw [hsame.block, hbooks.alike.terms.checkSlash_eq]
  refine Agree.bind (M := fun _ t t' => (∀ w ∈ r.wads, 0 < w ∧ w < wad) ∧
    Abreast (· = ·) (· = ·) (Matched m.config m.block) m.config m.block t t')
    (Agree.ofExcept ?_ fun _ _ h => h.2.2.1) fun _ => Agree.given fun hwads => ?_
  · intro _ t t' hcheck ht
    exact ⟨(checkSlash_eq_ok.1 hcheck).2.2.2.2, ht⟩
  · refine Agree.bind (Steady.onBooks (agree_nextSlashId _)) fun id =>
      Agree.bind (Agree.mapM ?_) fun legs => ?_
    · intro leg hleg
      rcases leg with ⟨x, w⟩
      exact steady_slashLeg _ (hwads w (List.of_mem_zip hleg).2).2
    · refine Agree.bind (Steady.onBooks (Agree.modify fun b b' h => ?_)) fun _ => Steady.pure _
      exact bracketed_matched.emit _ _ h

theorem steady_perform_matched [SetRegistrar ρ] [PermissionController π] (caller : Address)
    {c : Call}
    (hc : ∀ operator strategies limits, c ≠ .clearDeallocationQueue operator strategies limits) :
    Steady (· = ·) (· = ·) (Matched config block) config block
      (perform caller c : Managing δ ρ π Reply) := by
  have hoperator : ∀ operator (d d' : δ), d = d' →
      DelegationLedger.isOperator d' operator = DelegationLedger.isOperator d operator := by
    rintro operator d _ rfl
    rfl
  have hR : Bracketed (Matched config block) := bracketed_matched
  cases c with
  | setAllocationDelay operator delay =>
    exact Agree.map (Steady.setAllocationDelay hR caller (hoperator operator)
      (agree_requestDelay _ operator delay))
  | modifyAllocations operator requests =>
    exact (Steady.modifyAllocations hR caller
      (agree_modifyAllocations operator requests)).bind fun _ => .pure _
  | clearDeallocationQueue operator strategies limits =>
    exact absurd rfl (hc operator strategies limits)
  | registerForOperatorSets operator request =>
    exact (Steady.registerForOperatorSets hR caller (hoperator operator)
      (fun _ _ => agree_register _) (respects_eq _)).bind fun _ => .pure _
  | deregisterFromOperatorSets request =>
    exact (Steady.deregisterFromOperatorSets hR caller (fun _ _ _ => agree_deregister _ _)
      (respects_eq _)).bind fun _ => .pure _
  | createOperatorSets avs sets =>
    exact (Steady.createOperatorSets hR caller fun _ _ => agree_createSet _ _ _).bind
      fun _ => .pure _
  | addStrategies avs id strategies =>
    exact (Steady.addStrategies hR caller (agree_addStrategies _ _ _)).bind fun _ => .pure _
  | removeStrategies avs id strategies =>
    exact (Steady.removeStrategies hR caller (agree_removeStrategies _ _)).bind fun _ => .pure _
  | slashOperator avs request => exact Agree.map (steady_slashOperator caller avs request)

end Twins

theorem atomically_onBooks_ok {step : Bookkeeping α} {a : α} {b : Books}
    (h : step m.books.checkpoint = .ok a b) :
    atomically (onBooks step) m = .ok a { m with books := b.commit } := by
  unfold atomically onBooks
  rw [h]

/-- Clearing a queue settles some of it, or fails because of its arguments alone. -/
theorem clearDeallocationQueue_apply (h : WellKept m.config m.block m.books) (operator : Address)
    (strategies : List Address) (limits : List UInt64) :
    (strategies.length ≠ limits.length ∧ clearDeallocationQueue operator strategies limits m =
      .error (.lengthMismatch strategies.length limits.length) m) ∨
    (strategies.length = limits.length ∧ ∃ counts b tally,
      clearDeallocationQueue operator strategies limits m =
        .ok counts { m with books := b, tally } ∧
      b.Idle ∧ Settlement m.config m.block m.books b) := by
  rw [clearDeallocationQueue, if_apply]
  by_cases hlength : strategies.length = limits.length
  · have hopen : Settlement m.config m.block m.books m.books.checkpoint :=
      ⟨h.of_magnitudes (sameReads_checkpoint m.books).toSameMagnitudes,
        (sameReads_checkpoint m.books).toSameTerms, rfl, rfl, fun _ => rfl⟩
    obtain ⟨counts, b, hclear, hsettlement⟩ := hopen.wellKept.clearings_succeed
      (fun x : Address × UInt64 => ⟨operator, x.1⟩) (fun x => x.2.toNat) (strategies.zip limits)
    have hcommit : Settlement m.config m.block b b.commit :=
      ⟨hsettlement.wellKept.of_magnitudes (sameReads_commit b).toSameMagnitudes,
        (sameReads_commit b).toSameTerms, rfl, rfl, fun _ => rfl⟩
    have hrun : (atomically (onBooks ((strategies.zip limits).mapM fun x =>
        clearMatured ⟨operator, x.1⟩ x.2.toNat m.block)) : Managing δ ρ π (List Nat)) m =
          .ok counts { m with books := b.commit } := atomically_onBooks_ok hclear
    refine .inr ⟨hlength, counts, b.commit, m.tally.clearedEntries (counts.foldl (· + ·) 0), ?_,
      idle_commit b, hopen.trans (hsettlement.trans hcommit)⟩
    rw [if_pos hlength]
    exact bind_eq_ok.2 ⟨m, m, rfl, bind_eq_ok.2 ⟨counts, _, hrun, rfl⟩⟩
  · rw [if_neg hlength]
    exact .inl ⟨hlength, rfl⟩

/-- Two managers that run in lockstep. -/
structure Lockstep (m m' : Manager δ ρ π) : Prop where
  idle : m.books.Idle
  idle' : m'.books.Idle
  same : SameSurroundings m m'
  matched : Matched m.config m.block m.books m'.books

namespace Lockstep

variable (h : Lockstep m m')
include h

theorem wellKept' : WellKept m'.config m'.block m'.books := by
  rw [h.same.config, h.same.block]
  exact h.matched.right

theorem attempt_setBlock_eq (block : BlockNumber) :
    (m'.attempt (Manager.setBlock block)).1 = (m.attempt (Manager.setBlock block)).1 := by
  rw [attempt_setBlock, attempt_setBlock, h.same.block]
  split <;> rfl

variable [DelegationLedger δ] [SetRegistrar ρ] [PermissionController π]

theorem abreast_after (caller : Address) {c : Call}
    (hc : ∀ operator strategies limits, c ≠ .clearDeallocationQueue operator strategies limits) :
    (m'.attempt (perform caller c)).1 = (m.attempt (perform caller c)).1 ∧
      Abreast (· = ·) (· = ·) (Matched m.config m.block) m.config m.block
        (m.after (.call caller c)) (m'.after (.call caller c)) := by
  have hm : Abreast (· = ·) (· = ·) (Matched m.config m.block) m.config m.block m m' :=
    ⟨rfl, rfl, alongside_eq_iff.2 h.same, h.matched⟩
  obtain ⟨hreply, habreast⟩ := hm.after_call (k := id) h.idle h.idle'
    (by
      rw [id_map]
      exact steady_perform_matched caller hc)
  rw [Except.map_id] at hreply
  exact ⟨hreply, habreast⟩

theorem attempt_perform_eq (caller : Address) {c : Call}
    (hc : ∀ operator strategies limits, c ≠ .clearDeallocationQueue operator strategies limits) :
    (m'.attempt (perform caller c)).1 = (m.attempt (perform caller c)).1 :=
  (h.abreast_after caller hc).1

/-- A queue is cleared in both, of as much as is left in each, or in neither. -/
theorem attempt_clear (caller operator : Address) (strategies : List Address)
    (limits : List UInt64) {c : Call} (hc : c = .clearDeallocationQueue operator strategies limits) :
    (∃ counts counts' b b' tally tally',
      m.attempt (perform caller c) = (.ok (.cleared counts), { m with books := b, tally }) ∧
      m'.attempt (perform caller c) =
        (.ok (.cleared counts'), { m' with books := b', tally := tally' }) ∧
      Matched m.config m.block b b') ∨
    ∃ e, m.attempt (perform caller c) = (.error e, m) ∧
      m'.attempt (perform caller c) = (.error e, m') := by
  subst hc
  rcases clearDeallocationQueue_apply h.matched.left operator strategies limits with
    ⟨hlength, hm⟩ | ⟨hlength, counts, b, tally, hm, -, hb⟩
  · rcases clearDeallocationQueue_apply h.wellKept' operator strategies limits with
      ⟨-, hm'⟩ | ⟨hlength', -⟩
    · refine .inr ⟨.lengthMismatch strategies.length limits.length, ?_, ?_⟩
      · rw [attempt, perform, map_apply, hm]
      · rw [attempt, perform, map_apply, hm']
    · exact absurd hlength' hlength
  · rcases clearDeallocationQueue_apply h.wellKept' operator strategies limits with
      ⟨hlength', -⟩ | ⟨-, counts', b', tally', hm', -, hb'⟩
    · exact absurd hlength hlength'
    · rw [h.same.config, h.same.block] at hb'
      refine .inl ⟨counts, counts', b, b', tally, tally', ?_, ?_, hb.wellKept, hb'.wellKept,
        hb.alike.symm.trans (h.matched.alike.trans hb'.alike)⟩
      · rw [attempt, perform, map_apply, hm]
      · rw [attempt, perform, map_apply, hm']

theorem after_clear (caller operator : Address) (strategies : List Address)
    (limits : List UInt64) {c : Call} (hc : c = .clearDeallocationQueue operator strategies limits) :
    Lockstep (m.after (.call caller c)) (m'.after (.call caller c)) := by
  have hidle := idle_after h.idle (.call caller c)
  have hidle' := idle_after h.idle' (.call caller c)
  rcases h.attempt_clear caller operator strategies limits hc with
    ⟨counts, counts', b, b', tally, tally', hm, hm', hb⟩ | ⟨e, hm, hm'⟩
  · simp only [Manager.after, hm, hm'] at hidle hidle' ⊢
    exact ⟨hidle, hidle', { h.same with }, hb⟩
  · simp only [Manager.after, hm, hm']
    exact h

theorem after_perform (caller : Address) {c : Call}
    (hc : ∀ operator strategies limits, c ≠ .clearDeallocationQueue operator strategies limits) :
    Lockstep (m.after (.call caller c)) (m'.after (.call caller c)) := by
  obtain ⟨-, hconfig, hblock, hsame, hbooks⟩ := h.abreast_after caller hc
  rw [← hconfig, ← hblock] at hbooks
  exact ⟨idle_after h.idle _, idle_after h.idle' _, alongside_eq_iff.1 hsame, hbooks⟩

/-- Whatever happens to both, they stay in lockstep. -/
theorem after (move : Move δ ρ π) : Lockstep (m.after move) (m'.after move) := by
  cases move with
  | setBlock block =>
    simp only [Manager.after, attempt_setBlock, h.same.block]
    by_cases hback : block < m.block
    · rwa [if_pos hback, if_pos hback]
    · rw [if_neg hback, if_neg hback]
      have hlater := UInt32.not_lt.1 hback
      refine ⟨h.idle, h.idle', { h.same with block := rfl }, ?_, ?_, h.matched.alike.later hlater⟩
      · exact lasts_wellKept.later hlater h.matched.left
      · exact lasts_wellKept.later hlater h.matched.right
  | takeEvents =>
    exact ⟨h.idle.drained, h.idle'.drained, { h.same with },
      h.matched.of_reads (sameReads_drained m.books) (sameReads_drained m'.books) rfl rfl⟩
  | meanwhile delegation registrar permissions =>
    exact ⟨h.idle, h.idle', { h.same with delegation := rfl, registrar := rfl, permissions := rfl },
      h.matched⟩
  | call caller c =>
    by_cases hc : ∃ operator strategies limits,
        c = .clearDeallocationQueue operator strategies limits
    · obtain ⟨operator, strategies, limits, hc⟩ := hc
      exact h.after_clear caller operator strategies limits hc
    · apply h.after_perform caller
      intro operator strategies limits heq
      exact hc ⟨operator, strategies, limits, heq⟩

theorem run (moves : List (Move δ ρ π)) : Lockstep (m.run moves) (m'.run moves) := by
  induction moves generalizing m m' with
  | nil => exact h
  | cons move rest ih => exact ih (h.after move)

end Lockstep

end Restake.Manager
