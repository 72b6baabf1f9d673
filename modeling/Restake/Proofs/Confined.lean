import Restake.Proofs.Matching
import Restake.Proofs.Places

/-!
Bookkeeping confined to places. A step reads and writes at a few places only: on books that agree
there it answers the same, or fails for the same reason, and it leaves books that agree there again,
whatever the two keep elsewhere.
-/
namespace Restake

open Steps

/-- All that is kept of an account, in any set, is at the places in question. -/
structure Account.Within (scope : Place → Prop) (a : Account) : Prop where
  account : scope (.account a)
  index : scope (.index a.operator)
  allocation : ∀ s, scope (.allocation (a.position s))

namespace Books.SameAt

variable {scope : Place → Prop} {b b' : Books}

section Writes

variable (h : SameAt scope b b')
include h

theorem emit (e e' : Event) : SameAt scope (b.emit e) (b'.emit e') := { h with }

theorem delayAsked {operator : Address} (ho : scope (.delay operator))
    (delay block effectBlock : BlockNumber) :
    SameAt scope (b.delayAsked operator delay block effectBlock)
      (b'.delayAsked operator delay block effectBlock) := by
  unfold Books.delayAsked
  rw [h.delaySetting ho]
  exact { h with delays := h.delays.insert _ _ }

theorem created (s : OperatorSet) : SameAt scope (b.created s) (b'.created s) :=
  { h with setIds := h.setIds.update _ _, strategies := h.strategies.insert _ _ }

theorem strategyAdded {s : OperatorSet} (hs : scope (.set s)) (x : Address) :
    SameAt scope (b.strategyAdded s x) (b'.strategyAdded s x) := by
  unfold Books.strategyAdded
  rw [h.strategiesOf hs]
  exact { h with strategies := h.strategies.insert _ _ }

theorem strategyRemoved {s : OperatorSet} (hs : scope (.set s)) (x : Address) :
    SameAt scope (b.strategyRemoved s x) (b'.strategyRemoved s x) := by
  unfold Books.strategyRemoved
  rw [h.strategiesOf hs]
  exact { h with strategies := h.strategies.insert _ _ }

theorem joined (m : Membership) : SameAt scope (b.joined m) (b'.joined m) :=
  { h with
    registrations := h.registrations.insert _ _
    members := h.members.update _ _
    registeredSets := h.registeredSets.update _ _ }

theorem departed (m : Membership) (slashableUntil : BlockNumber) :
    SameAt scope (b.departed m slashableUntil) (b'.departed m slashableUntil) :=
  { h with
    registrations := h.registrations.insert _ _
    members := h.members.update _ _
    registeredSets := h.registeredSets.update _ _ }

theorem slashCounted (s : OperatorSet) : SameAt scope (b.slashCounted s) (b'.slashCounted s) :=
  { h with slashCounts := h.slashCounts.update _ _ }

theorem indexed (p : Position) : SameAt scope (b.index p) (b'.index p) :=
  { h with
    allocatedSets := h.allocatedSets.update _ _
    allocatedStrategies := h.allocatedStrategies.update _ _ }

theorem unindexed {p : Position} (hp : scope (.index p.operator)) :
    SameAt scope (b.unindex p) (b'.unindex p) := by
  unfold unindex
  rw [h.allocatedStrategies p.membership hp]
  dsimp only
  split
  · exact { h with
      allocatedSets := h.allocatedSets.update _ _
      allocatedStrategies := h.allocatedStrategies.erase _ }
  · exact { h with allocatedStrategies := h.allocatedStrategies.insert _ _ }

theorem setAllocation {p : Position} (hp : scope (.index p.operator)) (al : Allocation) :
    SameAt scope (b.setAllocation p al) (b'.setAllocation p al) := by
  have hinsert : SameAt scope { b with allocations := b.allocations.insert p al }
      { b' with allocations := b'.allocations.insert p al } :=
    { h with allocations := h.allocations.insert p al }
  unfold Books.setAllocation
  dsimp only
  split
  · exact (hinsert.unindexed hp).emit _ _
  · exact (hinsert.indexed p).emit _ _

theorem setEncumbered (a : Account) (m : Magnitude) :
    SameAt scope (b.setEncumbered a m) (b'.setEncumbered a m) :=
  { h with encumbered := h.encumbered.insert a m }

theorem store {p : Position} (hp : p.account.Within scope) (c : Capacity) (al : Allocation) :
    SameAt scope (b.store p c al) (b'.store p c al) := by
  have hread : b'.allocation p = b.allocation p := h.allocation (hp.allocation p.set)
  have hallocation : SameAt scope (if b.allocation p = al then b else b.setAllocation p al)
      (if b'.allocation p = al then b' else b'.setAllocation p al) := by
    rw [hread]
    split
    · exact h
    · exact h.setAllocation hp.index al
  unfold Books.store
  generalize (if b.allocation p = al then b else b.setAllocation p al) = w at hallocation ⊢
  generalize (if b'.allocation p = al then b' else b'.setAllocation p al) = w' at hallocation ⊢
  dsimp only
  rw [hallocation.encumberedMagnitude hp.account]
  split
  · exact hallocation
  · exact hallocation.setEncumbered _ _

theorem reduceMax {a : Account} (ha : scope (.account a)) (m : Magnitude) (block : BlockNumber) :
    SameAt scope (b.reduceMax a m block) (b'.reduceMax a m block) := by
  unfold Books.reduceMax
  rw [h.maxMagnitude ha]
  exact { h with maxima := h.maxima.update _ _ }

theorem enqueue (a : Account) (s : OperatorSet) :
    SameAt scope (b.enqueue a s) (b'.enqueue a s) :=
  { h with queues := h.queues.update _ _ }

theorem dequeue (a : Account) : SameAt scope (b.dequeue a) (b'.dequeue a) :=
  { h with queues := h.queues.update _ _ }

end Writes

end Books.SameAt

namespace Books

/-- On books that agree at the places the step answers the same, or it fails for the same reason,
and it leaves books that agree there again. -/
def Confined {α : Type} (scope : Place → Prop) (x : Bookkeeping α) : Prop :=
  Agree (SameAt scope) x x (fun _ => SameAt scope) fun _ _ => True

namespace Confined

variable {α β : Type} {scope : Place → Prop} {block : BlockNumber}

section Sets

variable {s : OperatorSet}

theorem requireSet (hs : scope (.set s)) : Confined scope (requireSet s) := by
  intro b b' h
  rw [requireSet_apply, requireSet_apply, h.setExists hs]
  split
  · exact ⟨rfl, h⟩
  · exact ⟨rfl, trivial⟩

theorem requestDelay {operator : Address} (ho : scope (.delay operator))
    (configurationDelay delay : BlockNumber) :
    Confined scope (requestDelay configurationDelay operator delay block) := by
  intro b b' h
  rw [requestDelay_apply, requestDelay_apply, h.delaySetting ho]
  cases BlockNumber.after? block configurationDelay with
  | none => exact ⟨rfl, trivial⟩
  | some effectBlock => exact ⟨rfl, h.delayAsked ho delay block effectBlock⟩

theorem addStrategies (hs : scope (.set s)) (maxStrategies : UInt64) (xs : List Address) :
    Confined scope (addStrategies s maxStrategies xs) := by
  refine Agree.bind (requireSet hs) fun _ => Agree.forM fun x _ => ?_
  intro b b' h
  rw [addStrategy_apply, addStrategy_apply, h.strategiesOf hs]
  split
  · exact ⟨rfl, trivial⟩
  · split
    · exact ⟨rfl, trivial⟩
    · exact ⟨rfl, h.strategyAdded hs x⟩

theorem createSet (hs : scope (.set s)) (maxStrategies : UInt64) (xs : List Address) :
    Confined scope (createSet s maxStrategies xs) := by
  refine Agree.read_bind fun b b' h => ?_
  rw [h.setExists hs]
  refine Agree.ite (fun _ => Agree.throw_bind fun _ _ _ => trivial) fun _ => ?_
  exact Agree.bind (Agree.modify fun _ _ h => h.created s) fun _ => addStrategies hs _ xs

theorem removeStrategies (hs : scope (.set s)) (xs : List Address) :
    Confined scope (removeStrategies s xs) := by
  refine Agree.bind (requireSet hs) fun _ => Agree.forM fun x _ => ?_
  intro b b' h
  rw [removeStrategy_apply, removeStrategy_apply, h.strategiesOf hs]
  split
  · exact ⟨rfl, h.strategyRemoved hs x⟩
  · exact ⟨rfl, trivial⟩

variable {m : Membership}

theorem register (hs : scope (.set m.set)) (hm : scope (.registration m)) :
    Confined scope (register m) := by
  intro b b' h
  rw [register_apply, register_apply, h.setExists hs, h.registration hm]
  split
  · split
    · exact ⟨rfl, trivial⟩
    · exact ⟨rfl, h.joined m⟩
  · exact ⟨rfl, trivial⟩

theorem deregister (hs : scope (.set m.set)) (hm : scope (.registration m))
    (slashableUntil : BlockNumber) : Confined scope (deregister slashableUntil m) := by
  intro b b' h
  rw [deregister_apply, deregister_apply, h.setExists hs, h.registration hm]
  split
  · split
    · exact ⟨rfl, h.departed m slashableUntil⟩
    · exact ⟨rfl, trivial⟩
  · exact ⟨rfl, trivial⟩

end Sets

section Magnitudes

variable {a : Account} {p : Position}

theorem effectAfter (delay : BlockNumber) : Confined scope (effectAfter block delay) :=
  (agree_effectAfter delay).weaken (fun _ _ h => h) (fun _ _ _ h => h.2) fun _ _ h => h

theorem settled (hp : p.account.Within scope) {f : Capacity × Allocation → Bookkeeping α}
    (hf : ∀ r, Confined scope (f r)) :
    Confined scope (do f (← MonadExcept.ofExcept ((← get).settled p block))) := by
  refine Agree.read_bind fun b b' h => ?_
  rw [h.settled (p := p) (hp.allocation p.set) hp.account]
  exact Agree.bind (Agree.ofExcept (fun _ _ _ _ h => h) fun _ _ _ => trivial) hf

theorem settle (hp : p.account.Within scope) : Confined scope (settle p block) :=
  settled hp fun r => Agree.modify fun _ _ h => h.store hp r.1 r.2

theorem clearFront (ha : a.Within scope) (sets : List OperatorSet) :
    Confined scope (clearFront a block sets) := by
  induction sets with
  | nil => exact Agree.pure fun _ _ h => h
  | cons s rest ih =>
    refine Agree.read_bind fun b b' h => ?_
    rw [h.allocation (ha.allocation s)]
    refine Agree.ite (fun _ => Agree.pure fun _ _ h => h) fun _ => ?_
    refine Agree.bind (settle ha) fun _ => Agree.bind (M := fun _ => SameAt scope)
      (Agree.modify fun _ _ h => h.dequeue a) fun _ => ?_
    exact Agree.bind ih fun _ => Agree.pure fun _ _ h => h

theorem clearMatured (ha : a.Within scope) (limit : Nat) :
    Confined scope (clearMatured a limit block) := by
  refine Agree.read_bind fun b b' h => ?_
  rw [h.queued ha.account]
  exact clearFront ha _

theorem settleAccount (ha : a.Within scope) : Confined scope (settleAccount a block) := by
  refine Agree.read_bind fun b b' h => ?_
  rw [h.queued ha.account]
  refine Agree.bind (clearFront ha _) fun _ => Agree.read_bind fun b b' h => ?_
  rw [h.accountAllocations ha.index ha.allocation]
  exact Agree.forM fun _ _ => settle ha

theorem modifyAllocation (hp : p.account.Within scope) (hs : scope (.set p.set)) (t : Terms)
    (slashable : Bool) (m : Magnitude) : Confined scope (modifyAllocation t slashable p m) := by
  refine Agree.bind (settleAccount hp) fun _ => settled hp fun r => ?_
  rcases r with ⟨c, al⟩
  refine Agree.ite (fun _ => Agree.throw_bind fun _ _ _ => trivial) fun _ => ?_
  refine Agree.ite (fun _ => Agree.throw_bind fun _ _ _ => trivial) fun _ => ?_
  refine Agree.ite (fun _ => ?_) fun _ => ?_
  · refine Agree.ite (fun _ => Agree.throw_bind fun _ _ _ => trivial) fun _ => ?_
    refine Agree.bind (effectAfter t.allocationDelay) fun effectBlock =>
      Agree.bind (Agree.modify fun _ _ h => h.store hp _ _) fun _ => Agree.pure fun _ _ h => h
  · refine Agree.read_bind fun b b' h => ?_
    rw [h.strategiesOf hs]
    refine Agree.ite (fun _ => ?_) fun _ => ?_
    · exact Agree.bind (effectAfter t.deallocationDelay) fun effectBlock =>
        Agree.bind (Agree.modify fun _ _ h => (h.enqueue _ _).store hp _ _) fun _ =>
          Agree.pure fun _ _ h => h
    · cases Magnitude.shift? c.encumbered (Magnitude.changeTo al.current m) with
      | none => exact Agree.throw fun _ _ _ => trivial
      | some encumbered =>
        exact Agree.bind (Agree.modify fun _ _ h => h.store hp _ _) fun _ =>
          Agree.pure fun _ _ h => h

theorem modifyAllocations {operator : Address} {requests : List AllocateRequest}
    (hdelay : scope (.delay operator)) (haccount : ∀ x, Account.Within scope ⟨operator, x⟩)
    (hset : ∀ r ∈ requests, scope (.set r.set))
    (hregistration : ∀ r ∈ requests, scope (.registration ⟨operator, r.set⟩)) (config : Config) :
    Confined scope (modifyAllocations config block operator requests) := by
  refine Agree.read_bind fun b b' h => ?_
  rw [effectiveDelay, effectiveDelay, h.delaySetting hdelay]
  refine Agree.bind (Agree.ofExcept (fun _ _ _ _ h => h) fun _ _ _ => trivial) fun delay => ?_
  refine Agree.bind (Agree.mapM fun r hr => ?_) fun _ => Agree.pure fun _ _ h => h
  refine Agree.ite (fun _ => ?_) fun _ => Agree.throw_bind fun _ _ _ => trivial
  refine Agree.bind (requireSet (hset r hr)) fun _ => Agree.read_bind fun b b' h => ?_
  dsimp only
  rw [h.isSlashable (hregistration r hr)]
  exact Agree.mapM fun x _ => modifyAllocation (haccount x.1) (hset r hr) _ _ x.2

theorem cut (hp : p.account.Within scope) (hs : scope (.set p.set)) (w : UInt64) :
    Confined scope (cut p w block) := by
  refine Agree.read_bind fun b b' h => ?_
  rw [h.strategiesOf hs]
  refine Agree.ite (fun _ => settled hp fun r => ?_) fun _ => Agree.pure fun _ _ h => h
  rcases r with ⟨c, al⟩
  refine Agree.ite (fun _ => Agree.pure fun _ _ h => h) fun _ => ?_
  dsimp only
  cases Magnitude.shift? c.encumbered (-(Magnitude.scale al.current w).toNat) with
  | none => exact Agree.throw fun _ _ _ => trivial
  | some encumbered =>
    refine Agree.bind (Agree.ofExcept (fun _ _ _ _ h => h) fun _ _ _ => trivial) fun pending => ?_
    refine Agree.bind (M := fun _ => SameAt scope) (Agree.modify fun _ _ h =>
      (h.store hp _ _).reduceMax hp.account _ block) fun _ => Agree.read_bind fun b b' h => ?_
    rw [h.maxMagnitude hp.account]
    exact Agree.pure fun _ _ h => h

end Magnitudes

end Confined

end Books

end Restake
