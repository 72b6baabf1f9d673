import Restake.Proofs.Agreement
import Restake.Proofs.Lockstep

/-!
A checkpoint is not noticed while nothing fails. Under an open checkpoint bookkeeping reads what it
would read in books with none, and once the checkpoint is committed there stands what it would have
written in those. So a call to modify leaves the books as its steps, taken one after the other on
the books themselves, would leave them, or as they were.
-/
namespace Restake

open Steps

theorem EventLog.emit_commit {l : EventLog} (h : l.isOpen) (e : Event) :
    l.commit.emit e = (l.emit e).commit := by
  simp [EventLog.emit, EventLog.commit, h]

namespace Books

/-- The books `b` have a checkpoint open, and committing it gives `b'`. -/
structure Through (b b' : Books) : Prop where
  isOpen : b.log.isOpen
  commit : b.commit = b'

namespace Through

variable {b b' : Books}

theorem of_checkpoint (h : b.Idle) : Through b.checkpoint b := ⟨rfl, h.commit_checkpoint⟩

variable (h : Through b b')
include h

theorem emit (e : Event) : Through (b.emit e) (b'.emit e) := by
  obtain ⟨hopen, rfl⟩ := h
  refine ⟨?_, ?_⟩
  · simp [Books.emit, EventLog.emit, hopen]
  · unfold Books.emit Books.commit
    rw [← EventLog.emit_commit hopen]

theorem setEncumbered (a : Account) (m : Magnitude) :
    Through (b.setEncumbered a m) (b'.setEncumbered a m) := by
  obtain ⟨hopen, rfl⟩ := h
  have hinsert : Through { b with encumbered := b.encumbered.insert a m }
      { b.commit with encumbered := b.commit.encumbered.insert a m } := ⟨hopen, rfl⟩
  exact hinsert.emit _

theorem index (p : Position) : Through (b.index p) (b'.index p) := by
  obtain ⟨hopen, rfl⟩ := h
  exact ⟨hopen, rfl⟩

theorem unindex (p : Position) : Through (b.unindex p) (b'.unindex p) := by
  obtain ⟨hopen, rfl⟩ := h
  have hreads : b.commit.allocatedStrategies.find? p.membership =
      b.allocatedStrategies.find? p.membership := rfl
  unfold Books.unindex
  rw [hreads]
  dsimp only
  split <;> exact ⟨hopen, rfl⟩

theorem setAllocation (p : Position) (al : Allocation) :
    Through (b.setAllocation p al) (b'.setAllocation p al) := by
  obtain ⟨hopen, rfl⟩ := h
  have hinsert : Through { b with allocations := b.allocations.insert p al }
      { b.commit with allocations := b.commit.allocations.insert p al } := ⟨hopen, rfl⟩
  unfold Books.setAllocation
  dsimp only
  split
  · exact (hinsert.unindex p).emit _
  · exact (hinsert.index p).emit _

/-- What is read does not depend on the checkpoint. -/
theorem sameReads : SameReads b b' := by
  obtain ⟨-, rfl⟩ := h
  exact sameReads_commit b

theorem store (p : Position) (c : Capacity) (al : Allocation) :
    Through (b.store p c al) (b'.store p c al) := by
  have hwritten : Through (if b.allocation p = al then b else b.setAllocation p al)
      (if b'.allocation p = al then b' else b'.setAllocation p al) := by
    rw [h.sameReads.allocation]
    split
    · exact h
    · exact h.setAllocation p al
  unfold Books.store
  generalize (if b.allocation p = al then b else b.setAllocation p al) = w at hwritten
  generalize (if b'.allocation p = al then b' else b'.setAllocation p al) = w' at hwritten
  dsimp only
  rw [hwritten.sameReads.encumberedMagnitude]
  split
  · exact hwritten
  · exact hwritten.setEncumbered _ _

theorem enqueue (a : Account) (s : OperatorSet) : Through (b.enqueue a s) (b'.enqueue a s) := by
  obtain ⟨hopen, rfl⟩ := h
  exact ⟨hopen, rfl⟩

theorem dequeue (a : Account) : Through (b.dequeue a) (b'.dequeue a) := by
  obtain ⟨hopen, rfl⟩ := h
  exact ⟨hopen, rfl⟩

theorem settled_eq (p : Position) (block : BlockNumber) : b'.settled p block = b.settled p block := by
  obtain ⟨-, rfl⟩ := h
  rfl

theorem accountAllocations_eq (a : Account) : b'.accountAllocations a = b.accountAllocations a := by
  obtain ⟨-, rfl⟩ := h
  rfl

end Through

/-- The step ends under a checkpoint as it does without one. -/
def Transparent {α : Type} (x : Bookkeeping α) : Prop :=
  Agree Through x x (fun _ => Through) fun _ _ => True

namespace Transparent

variable {block : BlockNumber}

theorem requireSet (s : OperatorSet) : Transparent (requireSet s) := by
  intro b b' h
  rw [requireSet_apply, requireSet_apply, h.sameReads.setExists]
  split
  · exact ⟨rfl, h⟩
  · exact ⟨rfl, trivial⟩

theorem effectAfter (delay : BlockNumber) : Transparent (effectAfter block delay) := by
  intro b b' h
  rw [effectAfter_apply, effectAfter_apply]
  cases BlockNumber.after? block delay with
  | some effectBlock => exact ⟨rfl, h⟩
  | none => exact ⟨rfl, trivial⟩

theorem settle (p : Position) : Transparent (settle p block) := by
  intro b b' h
  rw [settle_apply, settle_apply, h.settled_eq]
  cases b.settled p block with
  | ok r => exact ⟨rfl, h.store p r.1 r.2⟩
  | error e => exact ⟨rfl, trivial⟩

theorem clearFront (a : Account) (sets : List OperatorSet) :
    Transparent (clearFront a block sets) := by
  induction sets with
  | nil => exact Agree.pure fun _ _ h => h
  | cons s rest ih =>
    refine Agree.read_bind fun b b' h => ?_
    rw [h.sameReads.allocation]
    refine Agree.ite (fun _ => Agree.pure fun _ _ h => h) fun _ => ?_
    exact Agree.bind (settle _) fun _ => Agree.bind (Agree.modify fun _ _ h => h.dequeue a)
      fun _ => Agree.bind ih fun _ => Agree.pure fun _ _ h => h

theorem settleAccount (a : Account) : Transparent (settleAccount a block) := by
  refine Agree.read_bind fun b b' h => ?_
  rw [queued, queued, h.sameReads.queue]
  refine Agree.bind (clearFront a _) fun _ => Agree.read_bind fun b₁ b₁' h₁ => ?_
  rw [h₁.accountAllocations_eq]
  exact Agree.forM fun s _ => settle _

theorem modifyAllocation (t : Terms) (slashable : Bool) (p : Position) (n : Magnitude) :
    Transparent (modifyAllocation t slashable p n) := by
  refine Agree.bind (settleAccount p.account) fun _ => Agree.read_bind fun b b' h => ?_
  rw [h.settled_eq]
  refine Agree.bind (M := fun _ => Through)
    (Agree.ofExcept (fun _ _ _ _ h => h) fun _ _ _ => trivial) ?_
  rintro ⟨c, al⟩
  refine Agree.ite (fun _ => Agree.throw_bind fun _ _ _ => trivial) fun _ => ?_
  refine Agree.ite (fun _ => Agree.throw_bind fun _ _ _ => trivial) fun _ => ?_
  refine Agree.ite (fun _ => ?_) fun _ => Agree.read_bind fun b₁ b₁' h₁ => ?_
  · refine Agree.ite (fun _ => Agree.throw_bind fun _ _ _ => trivial) fun _ => ?_
    exact Agree.bind (effectAfter _) fun _ =>
      Agree.bind (Agree.modify fun _ _ h => h.store p _ _) fun _ => Agree.pure fun _ _ h => h
  · rw [h₁.sameReads.strategiesOf]
    refine Agree.ite (fun _ => ?_) fun _ => ?_
    · exact Agree.bind (effectAfter _) fun _ =>
        Agree.bind (Agree.modify fun _ _ h => (h.enqueue _ _).store p _ _) fun _ =>
          Agree.pure fun _ _ h => h
    · cases Magnitude.shift? c.encumbered (Magnitude.changeTo al.current n) with
      | none => exact Agree.throw fun _ _ _ => trivial
      | some encumbered =>
        exact Agree.bind (Agree.modify fun _ _ h => h.store p _ _) fun _ =>
          Agree.pure fun _ _ h => h

theorem modifyAllocations (config : Config) (operator : Address)
    (requests : List AllocateRequest) :
    Transparent (modifyAllocations config block operator requests) := by
  refine Agree.read_bind fun b b' h => ?_
  rw [h.sameReads.toSameTerms.effectiveDelay_eq]
  refine Agree.bind (M := fun _ => Through)
    (Agree.ofExcept (fun _ _ _ _ h => h) fun _ _ _ => trivial) fun delay => ?_
  refine Agree.bind (Agree.mapM fun r _ => ?_) fun _ => Agree.pure fun _ _ h => h
  refine Agree.ite (fun _ => ?_) fun _ => Agree.throw_bind fun _ _ _ => trivial
  refine Agree.bind (requireSet r.set) fun _ => Agree.read_bind fun b₁ b₁' h₁ => ?_
  rw [h₁.sameReads.toSameTerms.isSlashable_eq]
  exact Agree.mapM fun leg _ => modifyAllocation _ _ _ leg.2

end Transparent

end Books

namespace Manager

open Books

variable {δ ρ π : Type} {m : Manager δ ρ π}

/-- Work on the books that the checkpoint is transparent to ends as it does without one. -/
theorem atomically_of_transparent {α : Type} {step : Bookkeeping α} (hidle : m.books.Idle)
    (hrev : Reversible step) (h : Transparent step) :
    atomically (onBooks step) m = match step m.books with
      | .ok a b => .ok a { m with books := b }
      | .error e _ => .error e m := by
  rcases (h _ _ (.of_checkpoint hidle)).cases with
    ⟨a, b, b', hopen, hplain, hend⟩ | ⟨e, b, b', hopen, hplain, -⟩
  · rw [atomically_onBooks_ok hopen, hplain, hend.commit]
  · have hrewinds : Rewinds m.books b :=
      (hrev m.books).of_error (rewinds_checkpoint hidle) hopen
    rw [atomically_error { m with books := b } (by rw [onBooks, hopen]), hrewinds.revert_eq, hplain]

variable [DelegationLedger δ] [SetRegistrar ρ] [PermissionController π]

/-- A call to modify fails for its caller, or it ends as the work on the books does and leaves them
as they were if that fails. -/
theorem attempt_modifyAllocations (hidle : m.books.Idle) (caller operator : Address)
    (requests : List AllocateRequest) :
    m.attempt (perform caller (.modifyAllocations operator requests)) =
      if m.mayCall operator caller .modifyAllocations then
        match Books.modifyAllocations m.config m.block operator requests m.books with
        | .ok kinds b => (.ok .done, { m with
            books := b
            tally := kinds.foldl Tally.modified m.tally })
        | .error e _ => (.error e, m)
      else (.error (.unauthorized operator caller .modifyAllocations), m) := by
  have hcaller : requireCaller operator caller .modifyAllocations m =
      if m.mayCall operator caller .modifyAllocations then .ok () m
      else .error (.unauthorized operator caller .modifyAllocations) m := by
    rw [requireCaller, get_bind_apply, if_apply]
    rfl
  have hwork := atomically_of_transparent hidle
    (reversible_modifyAllocations m.config m.block operator requests)
    (.modifyAllocations m.config operator requests)
  rw [attempt, perform, bind_apply, modifyAllocations, bind_apply, hcaller]
  by_cases hmay : m.mayCall operator caller .modifyAllocations
  · rw [if_pos hmay, if_pos hmay]
    dsimp only
    rw [get_bind_apply, bind_apply, hwork]
    cases Books.modifyAllocations m.config m.block operator requests m.books <;> rfl
  · rw [if_neg hmay, if_neg hmay]

end Manager

end Restake
