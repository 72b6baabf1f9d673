import Mathlib.Logic.Relation
import Restake.Proofs.Rollback

/-!
Every call that goes through makes postings: writes to the books of fourteen kinds, each under
conditions of its own. What all postings keep is kept by all calls, and what a call may post says
whom it can touch.
-/
namespace Restake

open Steps

/-- What a posting is about. -/
inductive Entry where
  | delay (operator : Address)
  | create (s : OperatorSet)
  | addStrategy (s : OperatorSet) (x : Address)
  | removeStrategy (s : OperatorSet) (x : Address)
  | join (m : Membership)
  | depart (m : Membership)
  | countSlash (s : OperatorSet)
  | logSlash (m : Membership)
  /-- The front of a queue leaves it, its deallocation completed. -/
  | clear (a : Account) (s : OperatorSet)
  /-- An allocation that is due comes into force. -/
  | mature (p : Position)
  | allocate (p : Position) (m : Magnitude)
  | deallocate (p : Position) (m : Magnitude)
  /-- A deallocation that need not wait. -/
  | release (p : Position) (m : Magnitude)
  | cut (p : Position) (w : UInt64)

namespace Books

/-- No deallocation at the front of the queue is due. -/
def Cleared (b : Books) (a : Account) (block : BlockNumber) : Prop :=
  ∀ s rest, b.queued a = s :: rest → block < (b.allocation (a.position s)).effectBlock

/-- The postings that can be made at `block`, each with the books before and after it. -/
inductive Posts (config : Config) (block : BlockNumber) : Entry → Books → Books → Prop where
  | delay {b operator delay effectBlock}
      (heffect : BlockNumber.after? block config.configurationDelay = some effectBlock) :
      Posts config block (.delay operator) b (b.delayAsked operator delay block effectBlock)
  | create {b s} (hnew : b.setExists s = false) : Posts config block (.create s) b (b.created s)
  | addStrategy {b s x} (hset : b.setExists s) (hnew : ¬(b.strategiesOf s).contains x)
      (hsize : ((b.strategiesOf s).insert x).size ≤ config.maxSetStrategies.toNat) :
      Posts config block (.addStrategy s x) b (b.strategyAdded s x)
  | removeStrategy {b s x} (hset : b.setExists s) (hold : (b.strategiesOf s).contains x) :
      Posts config block (.removeStrategy s x) b (b.strategyRemoved s x)
  | join {b m} (hset : b.setExists m.set) (hnew : ¬(b.registration m).isRegistered) :
      Posts config block (.join m) b (b.joined m)
  | depart {b m slashableUntil} (hset : b.setExists m.set) (hold : (b.registration m).isRegistered)
      (huntil : BlockNumber.after? block config.deallocationDelay = some slashableUntil) :
      Posts config block (.depart m) b (b.departed m slashableUntil)
  | countSlash {b s} (hset : b.setExists s) : Posts config block (.countSlash s) b (b.slashCounted s)
  | logSlash {b m strategies wads description id} : Posts config block (.logSlash m) b
      (b.emit (.operatorSlashed m strategies wads description id))
  | clear {b a s rest c al} (hfront : b.queued a = s :: rest)
      (hdue : (b.allocation (a.position s)).effectBlock ≤ block)
      (hsettled : b.settled (a.position s) block = .ok (c, al)) :
      Posts config block (.clear a s) b ((b.store (a.position s) c al).dequeue a)
  | mature {b p c al} (hdue : (b.allocation p).isMatured block)
      (hup : ¬(b.allocation p).isDeallocating) (hsettled : b.settled p block = .ok (c, al)) :
      Posts config block (.mature p) b (b.store p c al)
  | allocate {b p m c al delay effectBlock} (hcleared : b.Cleared p.account block)
      (hsettled : b.settled p block = .ok (c, al)) (hidle : ¬al.isPending)
      (hdelay : b.effectiveDelay p.operator block = .ok delay) (hup : al.current < m)
      (hfree : m - al.current ≤ c.free) (heffect : BlockNumber.after? block delay = some effectBlock) :
      Posts config block (.allocate p m) b
        (b.store p { c with encumbered := c.encumbered + (m - al.current) }
          { al with pending := Magnitude.changeTo al.current m, effectBlock })
  | deallocate {b p m c al effectBlock} (hcleared : b.Cleared p.account block)
      (hsettled : b.settled p block = .ok (c, al)) (hidle : ¬al.isPending) (hdown : m < al.current)
      (hslashable : b.isSlashable p.membership block)
      (hstrategy : (b.strategiesOf p.set).contains p.strategy)
      (heffect : BlockNumber.after? block config.deallocationDelay = some effectBlock) :
      Posts config block (.deallocate p m) b
        ((b.enqueue p.account p.set).store p c
          { al with pending := Magnitude.changeTo al.current m, effectBlock })
  | release {b p m c al encumbered} (hcleared : b.Cleared p.account block)
      (hsettled : b.settled p block = .ok (c, al)) (hidle : ¬al.isPending) (hdown : m < al.current)
      (hfree : ¬(b.isSlashable p.membership block ∧ (b.strategiesOf p.set).contains p.strategy))
      (hshift : Magnitude.shift? c.encumbered (Magnitude.changeTo al.current m) = some encumbered) :
      Posts config block (.release p m) b
        (b.store p { c with encumbered } { al with current := m, effectBlock := block })
  | cut {b p w c al encumbered pending} (hwad : 0 < w ∧ w < wad)
      (hslashable : b.isSlashable p.membership block)
      (hstrategy : (b.strategiesOf p.set).contains p.strategy)
      (hsettled : b.settled p block = .ok (c, al)) (hcurrent : al.current ≠ 0)
      (hshift : Magnitude.shift? c.encumbered (-(Magnitude.scale al.current w).toNat) = some encumbered)
      (hpending : cutPending { al with current := al.current - Magnitude.scale al.current w } w =
        .ok pending) :
      Posts config block (.cut p w) b
        ((b.store p { c with encumbered }
          { al with current := al.current - Magnitude.scale al.current w, pending }).reduceMax
            p.account (Magnitude.scale al.current w) block)

/-- A run of postings, all of them among those that `may` allows. -/
def Postings (config : Config) (block : BlockNumber) (may : Entry → Prop) : Books → Books → Prop :=
  Relation.ReflTransGen fun b b' => ∃ e, may e ∧ Posts config block e b b'

end Books

/-- The requests ask for the magnitude at the position. -/
def AllocateRequest.Asked (requests : List AllocateRequest) (p : Position) (m : Magnitude) : Prop :=
  ∃ r ∈ requests, p.set = r.set ∧ (p.strategy, m) ∈ r.strategies.zip r.magnitudes

/-- What a call may post. -/
def Call.mayPost : Call → Entry → Prop
  | .setAllocationDelay operator _, .delay o => o = operator
  | .modifyAllocations operator requests, .clear a _ =>
    a.operator = operator ∧ ∃ r ∈ requests, a.strategy ∈ r.strategies
  | .modifyAllocations operator requests, .mature p =>
    p.operator = operator ∧ ∃ r ∈ requests, p.strategy ∈ r.strategies
  | .modifyAllocations operator requests, .allocate p m =>
    p.operator = operator ∧ AllocateRequest.Asked requests p m
  | .modifyAllocations operator requests, .deallocate p m =>
    p.operator = operator ∧ AllocateRequest.Asked requests p m
  | .modifyAllocations operator requests, .release p m =>
    p.operator = operator ∧ AllocateRequest.Asked requests p m
  | .clearDeallocationQueue operator strategies _, .clear a _ =>
    a.operator = operator ∧ a.strategy ∈ strategies
  | .registerForOperatorSets operator r, .join m =>
    m.operator = operator ∧ m.set.avs = r.avs ∧ m.set.id ∈ r.ids
  | .deregisterFromOperatorSets r, .depart m =>
    m.operator = r.operator ∧ m.set.avs = r.avs ∧ m.set.id ∈ r.ids
  | .createOperatorSets avs sets, .create s => s.avs = avs ∧ ∃ r ∈ sets, s.id = r.id
  | .createOperatorSets avs sets, .addStrategy s x =>
    s.avs = avs ∧ ∃ r ∈ sets, s.id = r.id ∧ x ∈ r.strategies
  | .addStrategies avs id strategies, .addStrategy s x => s = ⟨avs, id⟩ ∧ x ∈ strategies
  | .removeStrategies avs id strategies, .removeStrategy s x => s = ⟨avs, id⟩ ∧ x ∈ strategies
  | .slashOperator avs r, .countSlash s => s = ⟨avs, r.setId⟩
  | .slashOperator avs r, .logSlash m => m = ⟨r.operator, ⟨avs, r.setId⟩⟩
  | .slashOperator avs r, .cut p w =>
    p.membership = ⟨r.operator, ⟨avs, r.setId⟩⟩ ∧ (p.strategy, w) ∈ r.strategies.zip r.wads
  | _, _ => False

namespace Books

variable {config : Config} {block : BlockNumber} {may : Entry → Prop} {b b' : Books}

theorem Postings.tail {b₀ : Books} {e : Entry} (h : Postings config block may b₀ b) (hmay : may e)
    (hpost : Posts config block e b b') : Postings config block may b₀ b' :=
  Relation.ReflTransGen.tail h ⟨e, hmay, hpost⟩

/-- What every posting allowed keeps, a run of them keeps. -/
theorem Postings.keeps {P : Books → Prop} (h : Postings config block may b b')
    (hkeeps : ∀ e b b', may e → Posts config block e b b' → P b → P b') (hb : P b) : P b' := by
  induction h with
  | refl => exact hb
  | tail _ hlast ih =>
    obtain ⟨e, hmay, hpost⟩ := hlast
    exact hkeeps e _ _ hmay hpost ih

/-- The two differ in magnitudes, queues and events at most. -/
structure SameTerms (b b' : Books) : Prop where
  registration : b'.registration = b.registration
  strategiesOf : b'.strategiesOf = b.strategiesOf
  setExists : b'.setExists = b.setExists
  delaySetting : b'.delaySetting = b.delaySetting

theorem SameTerms.refl (b : Books) : SameTerms b b := ⟨rfl, rfl, rfl, rfl⟩

theorem SameTerms.trans {b'' : Books} (h : SameTerms b b') (h' : SameTerms b' b'') :
    SameTerms b b'' :=
  ⟨h'.1.trans h.1, h'.2.trans h.2, h'.3.trans h.3, h'.4.trans h.4⟩

theorem sameTerms_store (b : Books) (p : Position) (c : Capacity) (a : Allocation) :
    SameTerms b (b.store p c a) := by
  constructor <;> simp

theorem sameTerms_enqueue (b : Books) (a : Account) (s : OperatorSet) :
    SameTerms b (b.enqueue a s) := ⟨rfl, rfl, rfl, rfl⟩

theorem sameTerms_dequeue (b : Books) (a : Account) : SameTerms b (b.dequeue a) :=
  ⟨rfl, rfl, rfl, rfl⟩

theorem sameTerms_reduceMax (b : Books) (a : Account) (m : Magnitude) (block : BlockNumber) :
    SameTerms b (b.reduceMax a m block) := ⟨rfl, rfl, rfl, rfl⟩

section Steps

variable {b₀ : Books}

theorem effectAfter_eq_ok {delay effectBlock : BlockNumber} :
    effectAfter block delay b = .ok effectBlock b' ↔
      BlockNumber.after? block delay = some effectBlock ∧ b = b' := by
  rw [effectAfter_apply]
  cases BlockNumber.after? block delay <;> simp

theorem settle_eq_ok {p : Position} {u : Unit} :
    settle p block b = .ok u b' ↔ ∃ c a, b.settled p block = .ok (c, a) ∧ b' = b.store p c a := by
  rw [settle_apply]
  cases b.settled p block with
  | ok r =>
    obtain ⟨c, a⟩ := r
    simp only [EStateM.Result.ok.injEq, true_and, Except.ok.injEq, Prod.mk.injEq]
    constructor
    · intro heq
      subst heq
      exact ⟨c, a, ⟨rfl, rfl⟩, rfl⟩
    · intro hsettled
      rcases hsettled with ⟨_, _, ⟨rfl, rfl⟩, rfl⟩
      rfl
  | error e => simp

theorem leads_requestDelay {operator : Address} {delay : BlockNumber}
    (hmay : may (.delay operator)) :
    Leads (Postings config block may b₀)
      (requestDelay config.configurationDelay operator delay block)
      (fun _ => Postings config block may b₀) (fun _ => True) := by
  intro b h
  rw [requestDelay_apply]
  cases heffect : BlockNumber.after? block config.configurationDelay with
  | none => trivial
  | some effectBlock => exact h.tail hmay (.delay heffect)

theorem leads_addStrategies {s : OperatorSet} {xs : List Address}
    (hmay : ∀ x ∈ xs, may (.addStrategy s x)) :
    Leads (Postings config block may b₀) (addStrategies s config.maxSetStrategies xs)
      (fun _ => Postings config block may b₀) (fun _ => True) := by
  have hround : ∀ x ∈ xs, Leads (fun b => Postings config block may b₀ b ∧ b.setExists s)
      (addStrategy s config.maxSetStrategies x)
      (fun _ b => Postings config block may b₀ b ∧ b.setExists s) (fun _ => True) := by
    intro x hx b hb
    rcases hb with ⟨h, hset⟩
    rw [addStrategy_apply]
    split
    · trivial
    · split
      · trivial
      · refine ⟨h.tail (hmay x hx) (.addStrategy hset (by assumption) (by omega)), ?_⟩
        rw [b.setExists_strategyAdded]
        simp
  refine Leads.bind (M := fun _ b => Postings config block may b₀ b ∧ b.setExists s) ?_ fun _ =>
    (Leads.forM hround).weaken (fun _ h => h) (fun _ _ h => h.1) fun _ h => h
  intro b h
  rw [requireSet_apply]
  split
  · exact ⟨h, by assumption⟩
  · trivial

theorem leads_removeStrategies {s : OperatorSet} {xs : List Address}
    (hmay : ∀ x ∈ xs, may (.removeStrategy s x)) :
    Leads (Postings config block may b₀) (removeStrategies s xs)
      (fun _ => Postings config block may b₀) (fun _ => True) := by
  have hround : ∀ x ∈ xs, Leads (fun b => Postings config block may b₀ b ∧ b.setExists s)
      (removeStrategy s x)
      (fun _ b => Postings config block may b₀ b ∧ b.setExists s) (fun _ => True) := by
    intro x hx b hb
    rcases hb with ⟨h, hset⟩
    rw [removeStrategy_apply]
    split
    · refine ⟨h.tail (hmay x hx) (.removeStrategy hset (by assumption)), ?_⟩
      rw [setExists_strategyRemoved]
      simp
    · trivial
  refine Leads.bind (M := fun _ b => Postings config block may b₀ b ∧ b.setExists s) ?_ fun _ =>
    (Leads.forM hround).weaken (fun _ h => h) (fun _ _ h => h.1) fun _ h => h
  intro b h
  rw [requireSet_apply]
  split
  · exact ⟨h, by assumption⟩
  · trivial

theorem leads_createSet {s : OperatorSet} {xs : List Address} (hcreate : may (.create s))
    (hadd : ∀ x ∈ xs, may (.addStrategy s x)) :
    Leads (Postings config block may b₀) (createSet s config.maxSetStrategies xs)
      (fun _ => Postings config block may b₀) (fun _ => True) := by
  refine Leads.get_bind fun b h =>
    Leads.ite (fun _ => Leads.throw_bind fun _ _ => trivial) fun hnew => ?_
  refine Leads.bind (Leads.modify ?_) fun _ => leads_addStrategies hadd
  intro b' hb'
  subst b'
  exact h.tail hcreate (.create (by simpa using hnew))

theorem leads_register {m : Membership} (hmay : may (.join m)) :
    Leads (Postings config block may b₀) (register m) (fun _ => Postings config block may b₀)
      (fun _ => True) := by
  intro b h
  rw [register_apply]
  split
  · split
    · trivial
    · exact h.tail hmay (.join (by assumption) (by assumption))
  · trivial

theorem leads_deregister {m : Membership} {slashableUntil : BlockNumber} (hmay : may (.depart m))
    (huntil : BlockNumber.after? block config.deallocationDelay = some slashableUntil) :
    Leads (Postings config block may b₀) (deregister slashableUntil m)
      (fun _ => Postings config block may b₀) (fun _ => True) := by
  intro b h
  rw [deregister_apply]
  split
  · split
    · exact h.tail hmay (.depart (by assumption) (by assumption) huntil)
    · trivial
  · trivial

theorem effectBlock_settled {p : Position} {c : Capacity} {a : Allocation}
    (h : b.settled p block = .ok (c, a)) : a.effectBlock = (b.allocation p).effectBlock := by
  rw [(b.settled_eq_ok.1 h).1, Allocation.effectBlock_asOf]

/-- Writing an allocation as the block sees it moves no effect block. -/
theorem effectBlock_store_settled {p : Position} {c c' : Capacity} {a : Allocation}
    (h : b.settled p block = .ok (c, a)) (q : Position) :
    ((b.store p c' a).allocation q).effectBlock = (b.allocation q).effectBlock := by
  rw [allocation_store]
  split
  · subst q
    exact effectBlock_settled h
  · rfl

/-- Clearing takes postings that empty the front of the queue up to what is not yet due. -/
theorem clearFront_ok {a : Account} {sets rest : List OperatorSet} {k : Nat}
    (hmay : ∀ s, may (.clear a s)) (hqueue : b.queued a = sets ++ rest)
    (h : clearFront a block sets b = .ok k b') :
    Postings config block may b b' ∧ SameTerms b b' ∧ ∃ left, b'.queued a = left ++ rest ∧
      ∀ s tail, left = s :: tail → block < (b'.allocation (a.position s)).effectBlock := by
  induction sets generalizing b k with
  | nil =>
    cases h
    exact ⟨.refl, .refl _, [], hqueue, nofun⟩
  | cons s sets ih =>
    rw [clearFront, get_bind_apply, if_apply] at h
    split at h
    next hdue =>
      cases h
      refine ⟨.refl, .refl _, s :: sets, hqueue, ?_⟩
      intro t tail ht
      cases ht
      exact hdue
    next hdue =>
      obtain ⟨_, _, hsettle, h⟩ := bind_eq_ok.1 h
      obtain ⟨c, al, hsettled, rfl⟩ := settle_eq_ok.1 hsettle
      obtain ⟨_, _, hpop, h⟩ := bind_eq_ok.1 h
      cases hpop
      obtain ⟨k', _, hrest, hk⟩ := bind_eq_ok.1 h
      cases hk
      have htail : ((b.store (a.position s) c al).dequeue a).queued a = sets ++ rest := by
        rw [queued_dequeue, if_pos rfl, queued_store, hqueue]
        rfl
      obtain ⟨hpost, hterms, hleft⟩ := ih htail hrest
      have hclear : Posts config block (.clear a s) b ((b.store (a.position s) c al).dequeue a) :=
        .clear hqueue (UInt32.not_lt.1 hdue) hsettled
      have hterm : SameTerms b ((b.store (a.position s) c al).dequeue a) :=
        (sameTerms_store b (a.position s) c al).trans (sameTerms_dequeue _ a)
      exact ⟨.head ⟨_, hmay s, hclear⟩ hpost, hterm.trans hterms, hleft⟩

/-- Where all of the queue may be cleared, what is left at its front is not due. -/
theorem cleared_of_clearFront {a : Account} {k : Nat}
    (h : clearFront a block (b.queued a) b = .ok k b') : b'.Cleared a block := by
  have hqueue : b.queued a = b.queued a ++ [] := (List.append_nil _).symm
  have hpost : Postings {} block (fun _ => True) b b' ∧ SameTerms b b' ∧
      ∃ left, b'.queued a = left ++ [] ∧
        ∀ s tail, left = s :: tail → block < (b'.allocation (a.position s)).effectBlock :=
    clearFront_ok (fun _ => trivial) hqueue h
  obtain ⟨-, -, left, hleft, hdue⟩ := hpost
  intro s rest hs
  apply hdue s rest
  rw [← hs, hleft, List.append_nil]

theorem clearMatured_ok {a : Account} {limit k : Nat} (hmay : ∀ s, may (.clear a s))
    (h : clearMatured a limit block b = .ok k b') :
    Postings config block may b b' ∧ SameTerms b b' := by
  rw [clearMatured, get_bind_apply] at h
  have hqueue : b.queued a = (b.queued a).take limit ++ (b.queued a).drop limit :=
    (List.take_append_drop _ _).symm
  obtain ⟨hpost, hterms, -⟩ := clearFront_ok hmay hqueue h
  exact ⟨hpost, hterms⟩

theorem leads_clearMatured {a : Account} {limit : Nat} (hmay : ∀ s, may (.clear a s)) :
    Leads (Postings config block may b₀) (clearMatured a limit block)
      (fun _ => Postings config block may b₀) (fun _ => True) := by
  intro b hpost
  cases h : clearMatured a limit block b with
  | error e b' => trivial
  | ok k b' => exact Relation.ReflTransGen.trans hpost (clearMatured_ok hmay h).1

/-- Bringing allocations into force that are due moves neither a queue nor an effect block. -/
theorem forM_settle_ok {a : Account} {sets : List (OperatorSet × Allocation)} {u : Unit}
    (hmay : ∀ s, may (.mature (a.position s))) (hdistinct : (sets.map Prod.fst).Nodup)
    (hdue : ∀ s ∈ sets, (b.allocation (a.position s.1)).isMatured block ∧
      ¬(b.allocation (a.position s.1)).isDeallocating)
    (h : (sets.forM fun (s, _) => settle (a.position s) block) b = .ok u b') :
    Postings config block may b b' ∧ SameTerms b b' ∧ b'.queue = b.queue ∧
      ∀ q, (b'.allocation q).effectBlock = (b.allocation q).effectBlock := by
  induction sets generalizing b with
  | nil =>
    cases h
    exact ⟨.refl, .refl _, rfl, fun _ => rfl⟩
  | cons s sets ih =>
    obtain ⟨_, _, hsettle, hrest⟩ := bind_eq_ok.1 h
    obtain ⟨c, al, hsettled, rfl⟩ := settle_eq_ok.1 hsettle
    rw [List.map_cons, List.nodup_cons] at hdistinct
    obtain ⟨hup, hdown⟩ := hdue s List.mem_cons_self
    -- the sets that follow are others, so their allocations are still due
    have hnext : ∀ t ∈ sets, (b.store (a.position s.1) c al).allocation (a.position t.1) =
        b.allocation (a.position t.1) := by
      intro t ht
      rw [allocation_store, if_neg]
      intro heq
      have hst : s.1 = t.1 := congrArg Position.set heq
      exact hdistinct.1 (hst ▸ List.mem_map_of_mem ht)
    obtain ⟨hpost, hterms, hqueue, heffect⟩ := ih hdistinct.2 (fun t ht => by
      rw [hnext t ht]
      exact hdue t (List.mem_cons_of_mem s ht)) hrest
    refine ⟨.head ⟨_, hmay s.1, .mature hup hdown hsettled⟩ hpost,
      (sameTerms_store b _ c al).trans hterms, by rw [hqueue]; simp, fun q => ?_⟩
    rw [heffect, effectBlock_store_settled hsettled]

theorem nodup_accountAllocations (b : Books) (a : Account) :
    ((b.accountAllocations a).map Prod.fst).Nodup := by
  have hsets : (b.setsAllocatedTo a.operator).Nodup := by
    refine Std.ExtTreeSet.distinct_toList.imp fun hne heq => hne ?_
    rw [heq]
    exact Std.ReflCmp.compare_self
  simp only [accountAllocations, List.map_map]
  exact List.pairwise_map.2 (hsets.filter _)

/-- The allocations that settling an account brings into force are of different sets, and due. -/
theorem increases_due (b : Books) (a : Account) (block : BlockNumber) :
    let increases := (b.accountAllocations a).filter fun (_, allocation) =>
      allocation.isMatured block && !allocation.isDeallocating
    (increases.map Prod.fst).Nodup ∧ ∀ s ∈ increases, (b.allocation (a.position s.1)).isMatured block ∧
      ¬(b.allocation (a.position s.1)).isDeallocating := by
  refine ⟨(nodup_accountAllocations b a).sublist (List.filter_sublist.map _), ?_⟩
  intro entry hs
  rcases entry with ⟨s, al⟩
  simp only [List.mem_filter, accountAllocations, List.mem_map] at hs
  obtain ⟨⟨_, -, heq⟩, hal⟩ := hs
  cases heq
  simpa using hal

theorem settleAccount_ok {a : Account} {u : Unit} (hclear : ∀ s, may (.clear a s))
    (hmature : ∀ s, may (.mature (a.position s))) (h : settleAccount a block b = .ok u b') :
    Postings config block may b b' ∧ SameTerms b b' ∧ b'.Cleared a block := by
  rw [settleAccount, get_bind_apply] at h
  obtain ⟨k, b₁, hfront, h⟩ := bind_eq_ok.1 h
  obtain ⟨hpost, hterms, -⟩ := clearFront_ok hclear (List.append_nil _).symm hfront
  rw [get_bind_apply] at h
  obtain ⟨hdistinct, hincreases⟩ := increases_due b₁ a block
  obtain ⟨hpost', hterms', hqueue, heffect⟩ := forM_settle_ok hmature hdistinct hincreases h
  refine ⟨Relation.ReflTransGen.trans hpost hpost', hterms.trans hterms', ?_⟩
  intro s rest hs
  rw [heffect]
  apply cleared_of_clearFront hfront s rest
  rw [← hs, queued, queued, hqueue]

/-- What a modification does once the account is settled: it allocates, it queues a deallocation,
or it releases magnitude at once. -/
theorem modifyAllocation_ok {t : Terms} {slashable : Bool} {p : Position} {m : Magnitude}
    {kind : ModificationKind} (h : modifyAllocation t slashable p m b = .ok kind b') :
    ∃ b₁ c al, settleAccount p.account t.block b = .ok () b₁ ∧ b₁.settled p t.block = .ok (c, al) ∧
      ¬al.isPending ∧
      ((kind = .allocation ∧ al.current < m ∧ m - al.current ≤ c.free ∧ ∃ effectBlock,
          BlockNumber.after? t.block t.allocationDelay = some effectBlock ∧
          b' = b₁.store p { c with encumbered := c.encumbered + (m - al.current) }
            { al with pending := Magnitude.changeTo al.current m, effectBlock }) ∨
        (kind = .queuedDeallocation ∧ m < al.current ∧ slashable ∧
          (b₁.strategiesOf p.set).contains p.strategy ∧ ∃ effectBlock,
          BlockNumber.after? t.block t.deallocationDelay = some effectBlock ∧
          b' = (b₁.enqueue p.account p.set).store p c
            { al with pending := Magnitude.changeTo al.current m, effectBlock }) ∨
        (kind = .instantDeallocation ∧ m < al.current ∧
          ¬(slashable ∧ (b₁.strategiesOf p.set).contains p.strategy) ∧ ∃ encumbered,
          Magnitude.shift? c.encumbered (Magnitude.changeTo al.current m) = some encumbered ∧
          b' = b₁.store p { c with encumbered }
            { al with current := m, effectBlock := t.block })) := by
  obtain ⟨⟨⟩, b₁, hsettle, h⟩ := bind_eq_ok.1 h
  rw [get_bind_apply] at h
  obtain ⟨⟨c, al⟩, _, hread, h⟩ := bind_eq_ok.1 h
  obtain ⟨hsettled, rfl⟩ := ofExcept_eq_ok.1 hread
  dsimp only at h
  simp only [if_apply, throw_bind_apply] at h
  split at h
  · cases h
  next hidle =>
    refine ⟨b₁, c, al, hsettle, hsettled, hidle, ?_⟩
    split at h
    · cases h
    next hne =>
      split at h
      next hup =>
        split at h
        · cases h
        next hfree =>
          obtain ⟨effectBlock, _, hafter, h⟩ := bind_eq_ok.1 h
          obtain ⟨heffect, rfl⟩ := effectAfter_eq_ok.1 hafter
          cases h
          exact .inl ⟨rfl, hup, UInt64.not_lt.1 hfree, effectBlock, heffect, rfl⟩
      next hup =>
        have hdown : m < al.current := UInt64.lt_of_le_of_ne (UInt64.not_lt.1 hup) hne
        rw [get_bind_apply, if_apply] at h
        split at h
        next hslash =>
          rw [Bool.and_eq_true] at hslash
          obtain ⟨effectBlock, _, hafter, h⟩ := bind_eq_ok.1 h
          obtain ⟨heffect, rfl⟩ := effectAfter_eq_ok.1 hafter
          cases h
          exact .inr (.inl ⟨rfl, hdown, hslash.1, hslash.2, effectBlock, heffect, rfl⟩)
        next hslash =>
          rw [Bool.and_eq_true] at hslash
          cases hshift : Magnitude.shift? c.encumbered (Magnitude.changeTo al.current m) with
          | none =>
            rw [hshift] at h
            cases h
          | some encumbered =>
            rw [hshift] at h
            cases h
            exact .inr (.inr ⟨rfl, hdown, hslash, encumbered, rfl, rfl⟩)

theorem SameTerms.effectiveDelay_eq (h : SameTerms b b') (operator : Address) :
    b'.effectiveDelay operator block = b.effectiveDelay operator block := by
  simp only [effectiveDelay, h.delaySetting]

theorem SameTerms.isSlashable_eq (h : SameTerms b b') (m : Membership) :
    b'.isSlashable m block = b.isSlashable m block := by
  simp only [isSlashable, h.registration]

/-- The postings of one modification, under the terms that were read off `b₁`. -/
theorem leads_modifyAllocation {b₁ : Books} {p : Position} {m : Magnitude} {delay : BlockNumber}
    (hdelay : b₁.effectiveDelay p.operator block = .ok delay)
    (hclear : ∀ s, may (.clear p.account s)) (hmature : ∀ s, may (.mature (p.account.position s)))
    (hmay : may (.allocate p m) ∧ may (.deallocate p m) ∧ may (.release p m)) :
    Leads (fun b => Postings config block may b₀ b ∧ SameTerms b₁ b)
      (modifyAllocation ⟨block, delay, config.deallocationDelay⟩
        (b₁.isSlashable p.membership block) p m)
      (fun _ b => Postings config block may b₀ b ∧ SameTerms b₁ b) (fun _ => True) := by
  intro b hb
  rcases hb with ⟨hpost, hterms⟩
  cases h : modifyAllocation ⟨block, delay, config.deallocationDelay⟩
      (b₁.isSlashable p.membership block) p m b with
  | error e b' => trivial
  | ok kind b' =>
    obtain ⟨b₂, c, al, hsettle, hsettled, hidle, hkind⟩ := modifyAllocation_ok h
    obtain ⟨hpost', hterms', hcleared⟩ : Postings config block may b b₂ ∧ SameTerms b b₂ ∧
        b₂.Cleared p.account block := settleAccount_ok hclear hmature hsettle
    have hpost₂ : Postings config block may b₀ b₂ := Relation.ReflTransGen.trans hpost hpost'
    have hterms₂ : SameTerms b₁ b₂ := hterms.trans hterms'
    rw [← hterms₂.effectiveDelay_eq] at hdelay
    rw [← hterms₂.isSlashable_eq] at hkind
    obtain ⟨-, hup, hfree, effectBlock, heffect, rfl⟩ |
      ⟨-, hdown, hslash, hstrategy, effectBlock, heffect, rfl⟩ |
      ⟨-, hdown, hslash, encumbered, hshift, rfl⟩ := hkind
    · exact ⟨hpost₂.tail hmay.1 (.allocate hcleared hsettled hidle hdelay hup hfree heffect),
        hterms₂.trans (sameTerms_store _ _ _ _)⟩
    · have hterms₃ : SameTerms b₁ (b₂.enqueue p.account p.set) :=
        hterms₂.trans (sameTerms_enqueue b₂ p.account p.set)
      exact ⟨hpost₂.tail hmay.2.1
        (.deallocate hcleared hsettled hidle hdown hslash hstrategy heffect),
        hterms₃.trans (sameTerms_store _ _ _ _)⟩
    · exact ⟨hpost₂.tail hmay.2.2 (.release hcleared hsettled hidle hdown hslash hshift),
        hterms₂.trans (sameTerms_store _ _ _ _)⟩

theorem leads_applyRequest {b₁ : Books} {operator : Address} {requests : List AllocateRequest}
    {r : AllocateRequest} {delay : BlockNumber} (hr : r ∈ requests)
    (hdelay : b₁.effectiveDelay operator block = .ok delay)
    (hmay : ∀ e, (Call.modifyAllocations operator requests).mayPost e → may e) :
    Leads (fun b => Postings config block may b₀ b ∧ SameTerms b₁ b)
      (applyRequest ⟨block, delay, config.deallocationDelay⟩ operator r)
      (fun _ b => Postings config block may b₀ b ∧ SameTerms b₁ b) (fun _ => True) := by
  refine Leads.ite (fun _ => ?_) fun _ => Leads.throw_bind fun _ _ => trivial
  refine Leads.bind (M := fun _ b => Postings config block may b₀ b ∧ SameTerms b₁ b) ?_ fun _ =>
    Leads.get_bind fun b₂ hb₂ => ?_
  · intro b hb
    rw [requireSet_apply]
    split
    · exact hb
    · trivial
  refine Leads.weaken (Leads.mapM fun xm hxm => ?_) (fun _ h => h ▸ hb₂) (fun _ _ h => h)
    fun _ h => h
  obtain ⟨x, m⟩ := xm
  rw [hb₂.2.isSlashable_eq]
  have hx : ∃ r ∈ requests, x ∈ r.strategies := ⟨r, hr, (List.of_mem_zip hxm).1⟩
  have hasked : AllocateRequest.Asked requests ⟨⟨operator, r.set⟩, x⟩ m := ⟨r, hr, rfl, hxm⟩
  exact leads_modifyAllocation hdelay (fun s => hmay _ ⟨rfl, hx⟩) (fun s => hmay _ ⟨rfl, hx⟩)
    ⟨hmay _ ⟨rfl, hasked⟩, hmay _ ⟨rfl, hasked⟩, hmay _ ⟨rfl, hasked⟩⟩

theorem leads_modifyAllocations {operator : Address} {requests : List AllocateRequest}
    (hmay : ∀ e, (Call.modifyAllocations operator requests).mayPost e → may e) :
    Leads (Postings config block may b₀) (modifyAllocations config block operator requests)
      (fun _ => Postings config block may b₀) (fun _ => True) := by
  refine Leads.get_bind fun b₁ hpost => ?_
  refine Leads.bind (M := fun delay b => b₁ = b ∧ b₁.effectiveDelay operator block = .ok delay)
    (Leads.ofExcept (fun delay b hb hdelay => ⟨hb, hdelay⟩) fun _ _ => trivial) fun delay => ?_
  intro b' hb'
  rcases hb' with ⟨rfl, hdelay⟩
  have hall : Leads (fun b => Postings config block may b₀ b ∧ SameTerms b₁ b)
      (do return (← requests.mapM
        (applyRequest ⟨block, delay, config.deallocationDelay⟩ operator)).flatten)
      (fun _ => Postings config block may b₀) (fun _ => True) :=
    Leads.bind (Leads.mapM fun r hr => leads_applyRequest hr hdelay hmay) fun _ =>
      Leads.pure fun _ h => h.1
  exact hall b₁ ⟨hpost, .refl b₁⟩

theorem checkSlash_eq_ok {s : OperatorSet} {r : SlashRequest} {u : Unit} :
    b.checkSlash s r block = .ok u ↔ b.setExists s ∧ b.isSlashable ⟨r.operator, s⟩ block ∧
      r.strategies.length = r.wads.length ∧
      (r.strategies.Pairwise fun x y => compare x y = .lt) ∧ ∀ w ∈ r.wads, 0 < w ∧ w < wad := by
  have hwads : (r.wads.find? fun w => w = 0 || wad ≤ w) = none ↔ ∀ w ∈ r.wads, 0 < w ∧ w < wad := by
    rw [List.find?_eq_none]
    apply forall₂_congr
    intro w _
    simp only [Bool.or_eq_true, decide_eq_true_eq, not_or, UInt64.not_le, UInt64.pos_iff_ne_zero]
  rw [← hwads]
  simp only [checkSlash, unless_throw_eq_ok]
  cases r.wads.find? fun w => w = 0 || wad ≤ w with
  | none => simp [pure, Except.pure]
  | some w => simp [throw, throwThe, MonadExceptOf.throw]

/-- A cut passes a position over, or takes its part of it. -/
theorem cut_ok {p : Position} {w : UInt64} {r : Option Cut} (h : cut p w block b = .ok r b') :
    (r = none ∧ b' = b ∧ ¬((b.strategiesOf p.set).contains p.strategy ∧
        ((b.allocation p).asOf block).current ≠ 0)) ∨
      ∃ c al encumbered pending, (b.strategiesOf p.set).contains p.strategy ∧
      b.settled p block = .ok (c, al) ∧ al.current ≠ 0 ∧
      Magnitude.shift? c.encumbered (-(Magnitude.scale al.current w).toNat) = some encumbered ∧
      cutPending { al with current := al.current - Magnitude.scale al.current w } w = .ok pending ∧
      b' = (b.store p { c with encumbered }
        { al with current := al.current - Magnitude.scale al.current w, pending }).reduceMax p.account
          (Magnitude.scale al.current w) block ∧
      r = some ⟨Magnitude.scale al.current w, c.max, b'.maxMagnitude p.account⟩ := by
  rw [cut, get_bind_apply, if_apply] at h
  split at h
  next hstrategy =>
    rw [get_bind_apply] at h
    obtain ⟨⟨c, al⟩, _, hread, h⟩ := bind_eq_ok.1 h
    obtain ⟨hsettled, rfl⟩ := ofExcept_eq_ok.1 hread
    dsimp only at h
    rw [if_apply] at h
    split at h
    next hcurrent =>
      cases h
      obtain ⟨rfl, -⟩ := b.settled_eq_ok.1 hsettled
      exact .inl ⟨rfl, rfl, fun hcut => hcut.2 hcurrent⟩
    next hcurrent =>
      cases hshift : Magnitude.shift? c.encumbered (-(Magnitude.scale al.current w).toNat) with
      | none =>
        rw [hshift] at h
        cases h
      | some encumbered =>
        rw [hshift] at h
        obtain ⟨pending, _, hcut, h⟩ := bind_eq_ok.1 h
        obtain ⟨hpending, rfl⟩ := ofExcept_eq_ok.1 hcut
        cases h
        exact .inr ⟨c, al, encumbered, pending, hstrategy, hsettled, hcurrent, hshift, hpending,
          rfl, rfl⟩
  next hstrategy =>
    cases h
    exact .inl ⟨rfl, rfl, fun hcut => hstrategy hcut.1⟩

theorem leads_cut {b₁ : Books} {p : Position} {w : UInt64} (hmay : may (.cut p w))
    (hwad : 0 < w ∧ w < wad) (hslashable : b₁.isSlashable p.membership block) :
    Leads (fun b => Postings config block may b₀ b ∧ SameTerms b₁ b) (cut p w block)
      (fun _ b => Postings config block may b₀ b ∧ SameTerms b₁ b) (fun _ => True) := by
  intro b hb
  rcases hb with ⟨hpost, hterms⟩
  cases h : cut p w block b with
  | error e b' => trivial
  | ok r b' =>
    rcases cut_ok h with
      ⟨-, rfl, -⟩ |
      ⟨c, al, encumbered, pending, hstrategy, hsettled, hcurrent, hshift, hpending, rfl, -⟩
    · exact ⟨hpost, hterms⟩
    · rw [← hterms.isSlashable_eq] at hslashable
      refine ⟨hpost.tail hmay
        (.cut hwad hslashable hstrategy hsettled hcurrent hshift hpending), ?_⟩
      exact (hterms.trans (sameTerms_store b p _ _)).trans (sameTerms_reduceMax _ _ _ _)

end Steps

/-- What a reversible step leads to from books under a checkpoint; if it fails they still rewind. -/
theorem Reversible.leads {α : Type} {x : Bookkeeping α} {P : Books → Prop} {Q : α → Books → Prop}
    {b₀ : Books} (hx : Reversible x) (h : Leads P x Q fun _ => True) :
    Leads (fun b => Rewinds b₀ b ∧ P b) x (fun a b => Rewinds b₀ b ∧ Q a b) (Rewinds b₀) := by
  intro b hb
  rcases hb with ⟨hrewinds, hb⟩
  cases hr : x b with
  | ok a b' => exact ⟨(hx b₀).of_ok hrewinds hr, h.of_ok hb hr⟩
  | error e b' => exact (hx b₀).of_error hrewinds hr

end Books

end Restake
