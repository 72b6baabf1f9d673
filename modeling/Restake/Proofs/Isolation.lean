import Restake.Proofs.Alongside
import Restake.Proofs.Confined
import Restake.Proofs.Hooks

/-!
Operators are isolated from each other. A run is compared with the one from which every call that
targets another operator is left out. What is kept of an operator is the same in both: a call for
another operator leaves it alone, and a call for this one, or for no operator at all, finds and
leaves the same in both. So such calls are answered alike, and in the end every view of the operator
is the same.
-/
namespace Restake

open Steps

/-- A change that a collaborator kept in memory is told to make. -/
inductive SetUp where
  | registerOperator (operator : Address)
  | setShares (a : Account) (shares : Shares)
  | reject (operator : Address)
  | accept (operator : Address)
  | setUnavailable (unavailable : Bool)
  | appoint (g : Grant)
  | dismiss (g : Grant)

/-- What can happen to a manager whose collaborators are kept in memory. -/
inductive LocalMove where
  | setBlock (block : BlockNumber)
  | call (caller : Address) (c : Call)
  | takeEvents
  | setUp (s : SetUp)

/-- The operator that a call targets. -/
def Call.operator? : Call → Option Address
  | .setAllocationDelay operator _ => some operator
  | .modifyAllocations operator _ => some operator
  | .clearDeallocationQueue operator _ _ => some operator
  | .registerForOperatorSets operator _ => some operator
  | .deregisterFromOperatorSets r => some r.operator
  | .createOperatorSets .. => none
  | .addStrategies .. => none
  | .removeStrategies .. => none
  | .slashOperator _ r => some r.operator

/-- Everything but a call that targets another operator. -/
def LocalMove.concerns (o : Address) : LocalMove → Bool
  | .call _ c => c.operator?.all (· = o)
  | _ => true

/-- The places where something is kept of an operator, or of the sets that it may join. -/
def Place.Concerns (o : Address) : Place → Prop
  | .allocation p => p.operator = o
  | .account a => a.operator = o
  | .index operator => operator = o
  | .delay operator => operator = o
  | .registration m => m.operator = o
  | .joined operator => operator = o
  | .set _ => True
  | .ids _ => True
  | .members _ => False
  | .slashCount _ => False

/-- What is the same of two share ledgers for an operator: whether it is known, and its balances. -/
def LocalDelegation.SameFor (o : Address) (d d' : LocalDelegation) : Prop :=
  d'.table[o]? = d.table[o]?

/-- The two differ in the calls that they have seen at most. -/
structure LocalRegistrar.SameAnswers (r r' : LocalRegistrar) : Prop where
  rejected : r'.rejected = r.rejected
  unavailable : r'.unavailable = r.unavailable

section Collaborators

variable {o : Address}

namespace LocalDelegation

variable {d d' : LocalDelegation}

theorem table_setShares (d : LocalDelegation) (a : Account) (shares : Shares) :
    (d.setShares a shares).table[o]? =
      if a.operator = o then some ((d.sharesOf o).insert a.strategy shares) else d.table[o]? := by
  unfold setShares
  rw [Std.ExtTreeMap.getElem?_insert]
  simp only [Std.compare_eq_iff_eq]
  split
  next ha => rw [ha]
  next => rfl

theorem table_registerOperator (d : LocalDelegation) (operator : Address) :
    (d.registerOperator operator).table[o]? =
      if operator = o then some (d.sharesOf o) else d.table[o]? := by
  unfold registerOperator
  rw [Std.ExtTreeMap.getElem?_insert]
  simp only [Std.compare_eq_iff_eq]
  split
  next ho => rw [ho]
  next => rfl

theorem SameFor.sharesOf (h : SameFor o d d') : d'.sharesOf o = d.sharesOf o := by
  rw [LocalDelegation.sharesOf, LocalDelegation.sharesOf, h]

theorem SameFor.isOperator (h : SameFor o d d') : d'.isOperator o = d.isOperator o := by
  rw [LocalDelegation.isOperator, LocalDelegation.isOperator,
    Std.ExtTreeMap.contains_eq_isSome_getElem?,
    Std.ExtTreeMap.contains_eq_isSome_getElem?, h]

theorem SameFor.setShares (h : SameFor o d d') (a : Account) (shares : Shares) :
    SameFor o (d.setShares a shares) (d'.setShares a shares) := by
  unfold SameFor
  rw [table_setShares, table_setShares, h.sharesOf, h]

theorem SameFor.registerOperator (h : SameFor o d d') (operator : Address) :
    SameFor o (d.registerOperator operator) (d'.registerOperator operator) := by
  unfold SameFor
  rw [table_registerOperator, table_registerOperator, h.sharesOf, h]

/-- Burning shares of the operator does the same to both ledgers. -/
theorem respects_slashShares (o x : Address) (before after : Magnitude) :
    Respects (SameFor o) (slashShares ⟨o, x⟩ before after) := by
  refine Agree.read_bind fun d d' h => ?_
  rw [h]
  cases d.table[o]? with
  | none => exact Agree.throw fun _ _ h => h
  | some balances =>
    dsimp only
    cases balances[x]? with
    | none => exact Agree.pure fun _ _ h => h
    | some shares =>
      exact Agree.bind (Agree.modify fun _ _ h => h.setShares _ _) fun _ =>
        Agree.pure fun _ _ h => h

/-- Burning shares of another operator leaves these alone. -/
theorem leads_slashShares {a : Account} (ha : a.operator ≠ o) (before after : Magnitude)
    (d : LocalDelegation) :
    Leads (SameFor o d) (slashShares a before after) (fun _ => SameFor o d) (SameFor o d) := by
  refine Leads.read_bind fun d' => ?_
  cases d'.table[a.operator]? with
  | none => exact Leads.throw fun _ h => h
  | some balances =>
    dsimp only
    cases balances[a.strategy]? with
    | none => exact Leads.pure fun _ h => h
    | some shares =>
      refine Leads.bind (M := fun _ => SameFor o d) (Leads.modify fun d' h => ?_) fun _ =>
        Leads.pure fun _ h => h
      unfold SameFor
      rw [table_setShares, if_neg ha, h]

end LocalDelegation

namespace LocalRegistrar

theorem respects_requireAvailable (avs : Address) :
    Respects SameAnswers (requireAvailable avs) := by
  refine Agree.read_bind fun r r' h => ?_
  rw [h.unavailable]
  exact Agree.ite (fun _ => Agree.throw fun _ _ h => h) fun _ => Agree.pure fun _ _ h => h

theorem respects_register (operator avs : Address) (ids : List UInt32) :
    Respects SameAnswers (register operator avs ids) := by
  refine Agree.bind (M := fun _ => SameAnswers) (Agree.modify fun _ _ h => { h with }) fun _ =>
    Agree.bind (respects_requireAvailable avs) fun _ => Agree.read_bind fun r r' h => ?_
  rw [h.rejected]
  exact Agree.ite (fun _ => Agree.throw fun _ _ h => h) fun _ => Agree.pure fun _ _ h => h

theorem respects_deregister (operator avs : Address) (ids : List UInt32) :
    Respects SameAnswers (deregister operator avs ids) :=
  Agree.bind (M := fun _ => SameAnswers) (Agree.modify fun _ _ h => { h with }) fun _ =>
    respects_requireAvailable avs

theorem leads_requireAvailable (r : LocalRegistrar) (avs : Address) :
    Leads (SameAnswers r) (requireAvailable avs) (fun _ => SameAnswers r) (SameAnswers r) :=
  Leads.read_bind fun _ =>
    Leads.ite (fun _ => Leads.throw fun _ h => h) fun _ => Leads.pure fun _ h => h

theorem leads_register (r : LocalRegistrar) (operator avs : Address) (ids : List UInt32) :
    Leads (SameAnswers r) (register operator avs ids) (fun _ => SameAnswers r) (SameAnswers r) :=
  Leads.bind (M := fun _ => SameAnswers r) (Leads.modify fun _ h => { h with }) fun _ =>
    Leads.bind (leads_requireAvailable r avs) fun _ => Leads.read_bind fun _ =>
      Leads.ite (fun _ => Leads.throw fun _ h => h) fun _ => Leads.pure fun _ h => h

theorem leads_deregister (r : LocalRegistrar) (operator avs : Address) (ids : List UInt32) :
    Leads (SameAnswers r) (deregister operator avs ids) (fun _ => SameAnswers r) (SameAnswers r) :=
  Leads.bind (M := fun _ => SameAnswers r) (Leads.modify fun _ h => { h with }) fun _ =>
    leads_requireAvailable r avs

end LocalRegistrar

end Collaborators

namespace Manager

open Books LocalRegistrar

/-- A manager whose collaborators have been told to change. -/
def prepared (m : LocalManager) : SetUp → LocalManager
  | .registerOperator operator => { m with delegation := m.delegation.registerOperator operator }
  | .setShares a shares => { m with delegation := m.delegation.setShares a shares }
  | .reject operator => { m with registrar := m.registrar.reject operator }
  | .accept operator => { m with registrar := m.registrar.accept operator }
  | .setUnavailable unavailable => { m with registrar := { m.registrar with unavailable } }
  | .appoint g => { m with permissions := m.permissions.grant g }
  | .dismiss g => { m with permissions := m.permissions.withdraw g }

def afterLocal (m : LocalManager) : LocalMove → LocalManager
  | .setBlock block => m.after (.setBlock block)
  | .call caller c => m.after (.call caller c)
  | .takeEvents => m.after .takeEvents
  | .setUp s => m.prepared s

def runLocal (m : LocalManager) (moves : List LocalMove) : LocalManager := moves.foldl afterLocal m

/-- What a call that may change the books is answered, or one that sets the clock. -/
def replyTo (m : LocalManager) : LocalMove → Option (Except Failure Reply)
  | .setBlock block => some ((m.attempt (Manager.setBlock block)).1.map fun _ => .done)
  | .call caller c => some (m.attempt (perform caller c)).1
  | .takeEvents => none
  | .setUp _ => none

/-- The moves of a run, each with its reply. -/
def replies (m : LocalManager) : List LocalMove → List (LocalMove × Option (Except Failure Reply))
  | [] => []
  | move :: rest => (move, m.replyTo move) :: (m.afterLocal move).replies rest

/-- What the two show of an operator is the same. -/
structure SameViewsOf (o : Address) (m m' : LocalManager) : Prop where
  allocation : ∀ p : Position, p.operator = o → m'.allocation p = m.allocation p
  accountAllocations : ∀ x, m'.accountAllocations ⟨o, x⟩ = m.accountAllocations ⟨o, x⟩
  setsAllocatedTo : m'.books.setsAllocatedTo o = m.books.setsAllocatedTo o
  strategiesAllocatedTo : ∀ s,
    m'.books.strategiesAllocatedTo ⟨o, s⟩ = m.books.strategiesAllocatedTo ⟨o, s⟩
  encumberedMagnitude : ∀ x,
    m'.books.encumberedMagnitude ⟨o, x⟩ = m.books.encumberedMagnitude ⟨o, x⟩
  maxMagnitude : ∀ x, m'.books.maxMagnitude ⟨o, x⟩ = m.books.maxMagnitude ⟨o, x⟩
  maxMagnitudeAt : ∀ x block,
    m'.books.maxMagnitudeAt ⟨o, x⟩ block = m.books.maxMagnitudeAt ⟨o, x⟩ block
  allocatableMagnitude : ∀ x, m'.allocatableMagnitude ⟨o, x⟩ = m.allocatableMagnitude ⟨o, x⟩
  queued : ∀ x, m'.books.queued ⟨o, x⟩ = m.books.queued ⟨o, x⟩
  allocationDelay : m'.allocationDelay o = m.allocationDelay o
  delaySetting : m'.books.delaySetting o = m.books.delaySetting o
  registration : ∀ s, m'.books.registration ⟨o, s⟩ = m.books.registration ⟨o, s⟩
  setsJoinedBy : m'.books.setsJoinedBy o = m.books.setsJoinedBy o
  isSlashable : ∀ s, m'.isSlashable ⟨o, s⟩ = m.isSlashable ⟨o, s⟩
  shares : ∀ x, m'.delegation.shares ⟨o, x⟩ = m.delegation.shares ⟨o, x⟩
  allocatedStake : ∀ p : Position, p.operator = o → m'.allocatedStake p = m.allocatedStake p
  minimumSlashableStake : ∀ (p : Position) future, p.operator = o →
    m'.minimumSlashableStake p future = m.minimumSlashableStake p future

/-- Two managers between calls that keep the same of an operator. -/
structure SameFor (o : Address) (m m' : LocalManager) : Prop where
  idle : m.books.Idle
  idle' : m'.books.Idle
  alongside : Alongside (LocalDelegation.SameFor o) SameAnswers m m'
  books : SameAt (Place.Concerns o) m.books m'.books

namespace SameFor

variable {o : Address} {m m' : LocalManager}

theorem views (h : SameFor o m m') : SameViewsOf o m m' := by
  have hblock := h.alongside.block
  have hallocation : ∀ p : Position, p.operator = o → m'.allocation p = m.allocation p :=
    fun p hp => allocation_eq hblock h.books hp
  have hslashable : ∀ member : Membership, member.operator = o →
      m'.isSlashable member = m.isSlashable member :=
    fun member hm => isSlashable_eq hblock h.books hm
  have hshares : ∀ a : Account, a.operator = o →
      m'.delegation.shares a = m.delegation.shares a := by
    intro a ha
    subst ha
    rw [LocalDelegation.shares, LocalDelegation.shares, h.alongside.delegation.sharesOf]
  have hstake : ∀ (a : Account) magnitude, a.operator = o →
      m'.stakeOf a magnitude = m.stakeOf a magnitude := by
    intro a magnitude ha
    have hmax : m'.books.maxMagnitude a = m.books.maxMagnitude a := h.books.maxMagnitude ha
    show (m'.delegation.shares a).portion _ _ = (m.delegation.shares a).portion _ _
    rw [hshares a ha, hmax]
  exact {
    allocation := hallocation
    accountAllocations := fun x => by
      rw [accountAllocations, accountAllocations, hblock,
        h.books.accountAllocations (a := ⟨o, x⟩) rfl fun _ => rfl]
    setsAllocatedTo := h.books.setsAllocatedTo rfl
    strategiesAllocatedTo := fun s => h.books.strategiesAllocatedTo rfl
    encumberedMagnitude := fun x => h.books.encumberedMagnitude rfl
    maxMagnitude := fun x => h.books.maxMagnitude rfl
    maxMagnitudeAt := fun x block => by
      rw [maxMagnitudeAt, maxMagnitudeAt, h.books.history (a := ⟨o, x⟩) rfl]
    allocatableMagnitude := fun x => allocatableMagnitude_eq hblock h.books rfl fun _ => rfl
    queued := fun x => h.books.queued rfl
    allocationDelay := by
      rw [allocationDelay, allocationDelay, hblock, h.books.delaySetting rfl]
    delaySetting := h.books.delaySetting rfl
    registration := fun s => h.books.registration rfl
    setsJoinedBy := h.books.setsJoinedBy rfl
    isSlashable := fun s => hslashable ⟨o, s⟩ rfl
    shares := fun x => hshares ⟨o, x⟩ rfl
    allocatedStake := fun p hp => by
      rw [allocatedStake, allocatedStake, hallocation p hp, hstake p.account _ hp]
    minimumSlashableStake := fun p future hp => by
      rw [minimumSlashableStake, minimumSlashableStake, hslashable p.membership hp,
        lastingMagnitude, lastingMagnitude, hallocation p hp, hstake p.account _ hp] }

end SameFor

theorem bracketed_sameAt (scope : Place → Prop) : Bracketed (SameAt scope) where
  checkpoint h := ((SameAt.of_checkpoint scope _).symm.trans h).trans (.of_checkpoint scope _)
  commit h := ((SameAt.of_commit scope _).symm.trans h).trans (.of_commit scope _)
  emit e e' h := h.emit e e'

theorem within_concerns (o x : Address) : Account.Within (Place.Concerns o) ⟨o, x⟩ :=
  ⟨rfl, rfl, fun _ => rfl⟩

theorem steady_slash (caller avs : Address) (r : SlashRequest) {config : Config}
    {block : BlockNumber} :
    Steady (LocalDelegation.SameFor r.operator) SameAnswers (SameAt (Place.Concerns r.operator))
      config block (Reply.unnumbered <$> perform caller (.slashOperator avs r) :
        Managing LocalDelegation LocalRegistrar LocalPermissions Reply) := by
  have hset : Place.Concerns r.operator (.set ⟨avs, r.setId⟩) := trivial
  have hregistration : Place.Concerns r.operator (.registration ⟨r.operator, ⟨avs, r.setId⟩⟩) := rfl
  have hslash : Steady (LocalDelegation.SameFor r.operator) SameAnswers
      (SameAt (Place.Concerns r.operator)) config block (SlashOutcome.unnumbered <$>
        slashOperator caller avs r :
          Managing LocalDelegation LocalRegistrar LocalPermissions SlashOutcome) := by
    refine Steady.slashOperator (bracketed_sameAt _) caller (fun b b' h => ?_)
      (fun b b' h => h.slashCounted _)
      (fun x w => Confined.cut (within_concerns _ x) hset w)
      (LocalDelegation.respects_slashShares r.operator)
    rw [checkSlash, checkSlash, h.setExists hset, h.isSlashable hregistration]
  have hcomm : (Reply.unnumbered <$> perform caller (.slashOperator avs r) :
      Managing LocalDelegation LocalRegistrar LocalPermissions Reply) =
        Reply.slashed <$> (SlashOutcome.unnumbered <$> slashOperator caller avs r) := by
    rw [perform, Functor.map_map, Functor.map_map]
    rfl
  rw [hcomm]
  exact Agree.map hslash

/-- A call for the operator, or for none, is answered alike by managers that keep the same of the
operator. -/
theorem steady_perform (o caller : Address) {c : Call} (hc : ∀ operator ∈ c.operator?, operator = o)
    {config : Config} {block : BlockNumber} :
    Steady (LocalDelegation.SameFor o) SameAnswers (SameAt (Place.Concerns o)) config block
      (Reply.unnumbered <$> perform caller c :
        Managing LocalDelegation LocalRegistrar LocalPermissions Reply) := by
  have hR := bracketed_sameAt (Place.Concerns o)
  have hoperator : ∀ d d', LocalDelegation.SameFor o d d' →
      DelegationLedger.isOperator d' o = DelegationLedger.isOperator d o :=
    fun _ _ h => h.isOperator
  have hdelay : Place.Concerns o (.delay o) := rfl
  have hset : ∀ s, Place.Concerns o (.set s) := fun _ => trivial
  have hregistration : ∀ s, Place.Concerns o (.registration ⟨o, s⟩) := fun _ => rfl
  cases c with
  | setAllocationDelay operator delay =>
    obtain rfl := hc _ rfl
    have hrequest : Confined (Place.Concerns operator)
        (requestDelay config.configurationDelay operator delay block) := .requestDelay hdelay _ _
    exact Agree.map (Agree.map (Steady.setAllocationDelay hR caller hoperator hrequest))
  | modifyAllocations operator requests =>
    obtain rfl := hc _ rfl
    have hmodify : Confined (Place.Concerns operator)
        (Books.modifyAllocations config block operator requests) :=
      .modifyAllocations hdelay (within_concerns _) (fun r _ => hset r.set)
        (fun r _ => hregistration r.set) _
    exact Agree.map ((Steady.modifyAllocations hR caller hmodify).bind fun _ => .pure _)
  | clearDeallocationQueue operator strategies limits =>
    obtain rfl := hc _ rfl
    exact Agree.map (Agree.map (Steady.clearDeallocationQueue hR fun x limit =>
      Confined.clearMatured (within_concerns _ x) _))
  | registerForOperatorSets operator r =>
    obtain rfl := hc _ rfl
    have hregister : ∀ id ∈ r.ids, Confined (Place.Concerns operator)
        (Books.register ⟨operator, ⟨r.avs, id⟩⟩) := fun _ _ => .register (hset _) (hregistration _)
    exact Agree.map ((Steady.registerForOperatorSets hR caller hoperator hregister
      (respects_register _ _ _)).bind fun _ => .pure _)
  | deregisterFromOperatorSets r =>
    obtain rfl := hc _ rfl
    have hderegister : ∀ id ∈ r.ids, ∀ slashableUntil, Confined (Place.Concerns r.operator)
        (Books.deregister slashableUntil ⟨r.operator, ⟨r.avs, id⟩⟩) :=
      fun _ _ _ => .deregister (hset _) (hregistration _) _
    exact Agree.map ((Steady.deregisterFromOperatorSets hR caller hderegister
      (respects_deregister _ _ _)).bind fun _ => .pure _)
  | createOperatorSets avs sets =>
    exact Agree.map ((Steady.createOperatorSets hR caller fun _ _ =>
      Confined.createSet (hset _) _ _).bind fun _ => .pure _)
  | addStrategies avs id strategies =>
    exact Agree.map ((Steady.addStrategies hR caller (Confined.addStrategies (hset _) _ _)).bind
      fun _ => .pure _)
  | removeStrategies avs id strategies =>
    exact Agree.map ((Steady.removeStrategies hR caller (Confined.removeStrategies (hset _) _)).bind
      fun _ => .pure _)
  | slashOperator avs r =>
    obtain rfl := hc _ rfl
    exact steady_slash caller avs r

/-- A call that targets another operator touches nothing of this one, nor any set. -/
theorem not_concerns_of_touches {o operator : Address} {c : Call} (hc : c.operator? = some operator)
    (ho : operator ≠ o) {k : Place} (htouches : c.Touches k) : ¬k.Concerns o := by
  intro hconcerns
  apply ho
  cases c with
  | setAllocationDelay _ _ =>
    cases hc
    cases k with
    | delay => exact htouches.symm.trans hconcerns
    | _ => exact htouches.elim
  | modifyAllocations _ _ =>
    cases hc
    cases k with
    | allocation => exact htouches.symm.trans hconcerns
    | account => exact htouches.symm.trans hconcerns
    | index => exact htouches.symm.trans hconcerns
    | _ => exact htouches.elim
  | clearDeallocationQueue _ _ _ =>
    cases hc
    cases k with
    | allocation => exact htouches.symm.trans hconcerns
    | account => exact htouches.symm.trans hconcerns
    | index => exact htouches.symm.trans hconcerns
    | _ => exact htouches.elim
  | registerForOperatorSets _ r =>
    cases hc
    cases k with
    | registration => exact htouches.1.symm.trans hconcerns
    | joined => exact htouches.symm.trans hconcerns
    | members => exact hconcerns.elim
    | _ => exact htouches.elim
  | deregisterFromOperatorSets r =>
    cases hc
    cases k with
    | registration => exact htouches.1.symm.trans hconcerns
    | joined => exact htouches.symm.trans hconcerns
    | members => exact hconcerns.elim
    | _ => exact htouches.elim
  | createOperatorSets _ _ => cases hc
  | addStrategies _ _ _ => cases hc
  | removeStrategies _ _ _ => cases hc
  | slashOperator _ r =>
    cases hc
    cases k with
    | allocation => exact (congrArg Membership.operator htouches.1).symm.trans hconcerns
    | account => exact htouches.1.symm.trans hconcerns
    | index => exact htouches.symm.trans hconcerns
    | slashCount => exact hconcerns.elim
    | _ => exact htouches.elim

namespace SameFor

variable {o : Address} {m m' : LocalManager}

theorem refl (hidle : m.books.Idle) : SameFor o m m :=
  ⟨hidle, hidle, ⟨rfl, rfl, rfl, ⟨rfl, rfl⟩, rfl⟩, .refl _ _⟩

theorem symm (h : SameFor o m m') : SameFor o m' m where
  idle := h.idle'
  idle' := h.idle
  alongside := ⟨h.alongside.1.symm, h.alongside.2.symm, h.alongside.delegation.symm,
    ⟨h.alongside.registrar.1.symm, h.alongside.registrar.2.symm⟩, h.alongside.5.symm⟩
  books := h.books.symm

theorem trans {m'' : LocalManager} (h : SameFor o m m') (h' : SameFor o m' m'') :
    SameFor o m m'' where
  idle := h.idle
  idle' := h'.idle'
  alongside := ⟨h'.alongside.1.trans h.alongside.1, h'.alongside.2.trans h.alongside.2,
    h'.alongside.delegation.trans h.alongside.delegation,
    ⟨h'.alongside.registrar.1.trans h.alongside.registrar.1,
      h'.alongside.registrar.2.trans h.alongside.registrar.2⟩,
    h'.alongside.5.trans h.alongside.5⟩
  books := h.books.trans h'.books

/-- A call for another operator leaves this one alone. -/
theorem after_other (hidle : m.books.Idle) (caller : Address) {c : Call} {operator : Address}
    (hc : c.operator? = some operator) (ho : operator ≠ o) :
    SameFor o m (m.after (.call caller c)) := by
  have hburns : Keeps (fun d _ => LocalDelegation.SameFor o m.delegation d)
      (perform caller c : Managing LocalDelegation LocalRegistrar LocalPermissions Reply) := by
    refine keeps_perform caller (fun avs r hslash x before after _ => ?_)
      (fun _ _ _ _ => Leads.const _ _) fun _ _ _ => Leads.const _ _
    subst hslash
    cases hc
    exact LocalDelegation.leads_slashShares ho before after m.delegation
  have hcalls : Keeps (fun _ g => SameAnswers m.registrar g)
      (perform caller c : Managing LocalDelegation LocalRegistrar LocalPermissions Reply) :=
    keeps_perform caller (fun _ _ _ _ _ _ _ => Leads.const _ _)
      (fun operator r _ _ => leads_register _ operator r.avs r.ids)
      fun r _ _ => leads_deregister _ r.operator r.avs r.ids
  have hdelegation := collaborators_after hburns rfl
  have hregistrar := collaborators_after hcalls ⟨rfl, rfl⟩
  have hbooks : SameAt (Place.Concerns o) m.books (m.after (.call caller c)).books := by
    refine sameAt_after hidle fun caller' c' hcall _ k hk => ?_
    cases hcall
    exact not_concerns_of_touches hc ho hk
  have hidle' := idle_after hidle (.call caller c)
  rcases after_call hidle caller c with
    ⟨-, b, delegation, registrar, tally, hafter, -⟩ | ⟨delegation, registrar, hafter⟩
  · rw [hafter] at hdelegation hregistrar hbooks hidle' ⊢
    exact ⟨hidle, hidle', ⟨rfl, rfl, hdelegation, hregistrar, rfl⟩, hbooks⟩
  · rw [hafter] at hdelegation hregistrar hbooks hidle' ⊢
    exact ⟨hidle, hidle', ⟨rfl, rfl, hdelegation, hregistrar, rfl⟩, hbooks⟩

/-- A call for the operator, or for none, is answered alike and leaves the same of the operator. -/
theorem after_concerned (h : SameFor o m m') (caller : Address) {c : Call}
    (hc : ∀ operator ∈ c.operator?, operator = o) :
    (m'.attempt (perform caller c)).1.map Reply.unnumbered =
        (m.attempt (perform caller c)).1.map Reply.unnumbered ∧
      SameFor o (m.after (.call caller c)) (m'.after (.call caller c)) := by
  obtain ⟨hreply, -, -, halongside, hbooks⟩ := Abreast.after_call h.idle h.idle'
    ⟨rfl, rfl, h.alongside, h.books⟩ (steady_perform o caller hc)
  exact ⟨hreply, idle_after h.idle _, idle_after h.idle' _, halongside, hbooks⟩

theorem prepared (h : SameFor o m m') (s : SetUp) : SameFor o (m.prepared s) (m'.prepared s) := by
  obtain ⟨hidle, hidle', hsame, hbooks⟩ := h
  refine ⟨?_, ?_, ?_, ?_⟩
  · cases s <;> exact hidle
  · cases s <;> exact hidle'
  · cases s with
    | registerOperator operator =>
      exact { hsame with delegation := hsame.delegation.registerOperator operator }
    | setShares a shares => exact { hsame with delegation := hsame.delegation.setShares a shares }
    | reject operator =>
      exact { hsame with
        registrar := ⟨congrArg (·.insert operator) hsame.registrar.1, hsame.registrar.2⟩ }
    | accept operator =>
      exact { hsame with
        registrar := ⟨congrArg (·.erase operator) hsame.registrar.1, hsame.registrar.2⟩ }
    | setUnavailable unavailable =>
      exact { hsame with registrar := ⟨hsame.registrar.1, rfl⟩ }
    | appoint g =>
      exact { hsame with permissions := congrArg (·.grant g) hsame.permissions }
    | dismiss g =>
      exact { hsame with permissions := congrArg (·.withdraw g) hsame.permissions }
  · cases s <;> exact hbooks

theorem after_setBlock (h : SameFor o m m') (block : BlockNumber) :
    (m'.attempt (Manager.setBlock block)).1 = (m.attempt (Manager.setBlock block)).1 ∧
      SameFor o (m.after (.setBlock block)) (m'.after (.setBlock block)) := by
  simp only [Manager.after, attempt_setBlock, h.alongside.block]
  split
  · exact ⟨rfl, h⟩
  · exact ⟨rfl, h.idle, h.idle', { h.alongside with block := rfl }, h.books⟩

/-- A move that concerns the operator is answered alike and leaves the same of it. -/
theorem afterLocal (h : SameFor o m m') {move : LocalMove} (hmove : move.concerns o) :
    (m'.replyTo move).map (Except.map Reply.unnumbered) =
        (m.replyTo move).map (Except.map Reply.unnumbered) ∧
      SameFor o (m.afterLocal move) (m'.afterLocal move) := by
  cases move with
  | setBlock block =>
    obtain ⟨hreply, hafter⟩ := h.after_setBlock block
    refine ⟨?_, hafter⟩
    rw [replyTo, replyTo, hreply]
  | call caller c =>
    have hc : ∀ operator ∈ c.operator?, operator = o := by
      simpa [LocalMove.concerns, Option.all_eq_true] using hmove
    obtain ⟨hreply, hafter⟩ := h.after_concerned caller hc
    exact ⟨congrArg some hreply, hafter⟩
  | takeEvents =>
    refine ⟨rfl, h.idle.drained, h.idle'.drained, { h.alongside with }, ?_⟩
    exact ((SameAt.of_drained _ m.books).symm.trans h.books).trans (.of_drained _ m'.books)
  | setUp s => exact ⟨rfl, h.prepared s⟩

/-- A move that does not concern the operator leaves it alone. -/
theorem afterLocal_other (hidle : m.books.Idle) {move : LocalMove} (hmove : ¬move.concerns o) :
    SameFor o m (m.afterLocal move) := by
  cases move with
  | call caller c =>
    simp only [LocalMove.concerns, Option.all_eq_true, decide_eq_true_eq, not_forall] at hmove
    obtain ⟨operator, hc, ho⟩ := hmove
    exact after_other hidle caller hc ho
  | _ => exact absurd rfl hmove

end SameFor

/-- A reply but for the number of a slash. -/
def unnumberedReply (r : LocalMove × Option (Except Failure Reply)) :
    LocalMove × Option (Except Failure Reply) :=
  (r.1, r.2.map (Except.map Reply.unnumbered))

theorem SameFor.run {o : Address} {m m' : LocalManager} (h : SameFor o m m')
    (moves : List LocalMove) :
    ((m.replies moves).filter fun r => r.1.concerns o).map unnumberedReply =
        (m'.replies (moves.filter (·.concerns o))).map unnumberedReply ∧
      SameFor o (m.runLocal moves) (m'.runLocal (moves.filter (·.concerns o))) := by
  induction moves generalizing m m' with
  | nil => exact ⟨rfl, h⟩
  | cons move rest ih =>
    by_cases hmove : move.concerns o
    · obtain ⟨hreply, hafter⟩ := h.afterLocal hmove
      obtain ⟨hreplies, hrun⟩ := ih hafter
      rw [List.filter_cons_of_pos hmove, replies, replies,
        List.filter_cons_of_pos (a := (move, m.replyTo move)) hmove]
      refine ⟨?_, hrun⟩
      rw [List.map_cons, List.map_cons, hreplies, unnumberedReply, unnumberedReply, hreply]
    · rw [List.filter_cons_of_neg hmove, replies,
        List.filter_cons_of_neg (a := (move, m.replyTo move)) hmove]
      exact ih ((SameFor.afterLocal_other h.idle hmove).symm.trans h)

/-- Operators are isolated from each other. If every call that targets another operator is left out
of a run, what is left is answered as in the whole run, but for the numbers of slashes, and in the
end every view of the operator is the same. -/
theorem operators_isolated (config : Config) (delegation : LocalDelegation)
    (registrar : LocalRegistrar) (permissions : LocalPermissions) (moves : List LocalMove)
    (o : Address) :
    let start := fresh config delegation registrar permissions
    let kept := moves.filter (·.concerns o)
    ((start.replies moves).filter fun r => r.1.concerns o).map unnumberedReply =
        (start.replies kept).map unnumberedReply ∧
      SameViewsOf o (start.runLocal moves) (start.runLocal kept) := by
  intro start kept
  have hstart : SameFor o start start :=
    .refl (Reachable.fresh config delegation registrar permissions).idle
  obtain ⟨hreplies, hrun⟩ := hstart.run moves
  exact ⟨hreplies, hrun.views⟩

end Manager

end Restake
