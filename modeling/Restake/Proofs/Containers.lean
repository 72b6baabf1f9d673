import Restake.Fifo
import Restake.UndoMap

/-!
The two containers of the books beside plain ones. A map that notes what it overwrites reads like one
that copies itself as a whole at each checkpoint, and a queue in an arena answers like a list that
is added to at the back and taken from at the front, whatever is done to them.
-/
namespace Restake

/-- What can be done to a map with a checkpoint. -/
inductive MapStep (κ α : Type) where
  | insert (k : κ) (v : α)
  | erase (k : κ)
  /-- Any change of the value of a key, which is the default one where there is none. -/
  | update (k : κ) (f : α → α)
  | checkpoint
  | commit
  | revert

/-- A map that goes back by means of a copy of itself. -/
structure CopyMap (κ α : Type) [Ord κ] where
  entries : Std.ExtTreeMap κ α := ∅
  copy : Option (Std.ExtTreeMap κ α) := none

namespace CopyMap

variable {κ α : Type} [Ord κ] [Std.TransOrd κ]

def find? (m : CopyMap κ α) (k : κ) : Option α := m.entries[k]?

def contains (m : CopyMap κ α) (k : κ) : Bool := m.entries.contains k

def after [Inhabited α] (m : CopyMap κ α) : MapStep κ α → CopyMap κ α
  | .insert k v => { m with entries := m.entries.insert k v }
  | .erase k => { m with entries := m.entries.erase k }
  | .update k f => { m with entries := m.entries.insert k (f ((m.find? k).getD default)) }
  | .checkpoint => { m with copy := some m.entries }
  | .commit => { m with copy := none }
  | .revert => ⟨m.copy.getD m.entries, none⟩

def run [Inhabited α] (m : CopyMap κ α) (steps : List (MapStep κ α)) : CopyMap κ α :=
  steps.foldl after m

end CopyMap

namespace UndoMap

variable {κ α : Type} [Ord κ] [Std.TransOrd κ]

def after [Inhabited α] (m : UndoMap κ α) : MapStep κ α → UndoMap κ α
  | .insert k v => m.insert k v
  | .erase k => m.erase k
  | .update k f => m.update k f
  | .checkpoint => m.checkpoint
  | .commit => m.commit
  | .revert => m.revert

def run [Inhabited α] (m : UndoMap κ α) (steps : List (MapStep κ α)) : UndoMap κ α :=
  steps.foldl after m

/-- The map with a copy in place of its notes: while a checkpoint is open, what going back gives. -/
def copied (m : UndoMap κ α) : CopyMap κ α := ⟨m.entries, m.undo.map fun _ => m.revert.entries⟩

theorem copied_revert (m : UndoMap κ α) :
    m.revert.copied = ⟨m.copied.copy.getD m.entries, none⟩ := by
  obtain ⟨entries, undo⟩ := m
  cases undo <;> rfl

variable [Std.LawfulEqOrd κ] [DecidableEq κ]

/-- A write that is noted leaves what going back gives as it is. -/
theorem revert_write {m : UndoMap κ α} (h : m.undo.isSome) {k : κ} {es : Std.ExtTreeMap κ α}
    (hes : ∀ j, k ≠ j → es[j]? = m.entries[j]?) :
    ({ m.note k with entries := es } : UndoMap κ α).revert.entries = m.revert.entries := by
  apply Std.ExtTreeMap.ext_getElem?
  intro j
  calc ({ m.note k with entries := es } : UndoMap κ α).revert.find? j
      = ({ m.note k with entries := es } : UndoMap κ α).origin j := find?_revert _ j
    _ = m.origin j := origin_write h (hes j)
    _ = m.revert.find? j := (find?_revert m j).symm

theorem copied_write (m : UndoMap κ α) {k : κ} {es : Std.ExtTreeMap κ α}
    (hes : ∀ j, k ≠ j → es[j]? = m.entries[j]?) :
    ({ m.note k with entries := es } : UndoMap κ α).copied = { m.copied with entries := es } := by
  obtain ⟨entries, undo⟩ := m
  cases undo with
  | none => rfl
  | some u => exact congrArg (fun old => CopyMap.mk es (some old)) (revert_write rfl hes)

theorem copied_insert (m : UndoMap κ α) (k : κ) (v : α) :
    (m.insert k v).copied = { m.copied with entries := m.entries.insert k v } :=
  m.copied_write fun j hj => by simp [Std.ExtTreeMap.getElem?_insert, hj]

theorem copied_erase (m : UndoMap κ α) (k : κ) :
    (m.erase k).copied = { m.copied with entries := m.entries.erase k } :=
  m.copied_write fun j hj => by simp [Std.ExtTreeMap.getElem?_erase, hj]

theorem copied_checkpoint (m : UndoMap κ α) :
    m.checkpoint.copied = { m.copied with copy := some m.entries } := by
  refine congrArg (CopyMap.mk m.entries) (congrArg some ?_)
  apply Std.ExtTreeMap.ext_getElem?
  intro j
  exact (find?_revert m.checkpoint j).trans (origin_checkpoint m j)

/-- Each step does to the map with notes what it does to the map with a copy. -/
theorem copied_after [Inhabited α] (m : UndoMap κ α) (step : MapStep κ α) :
    (m.after step).copied = m.copied.after step := by
  cases step with
  | insert k v => exact m.copied_insert k v
  | erase k => exact m.copied_erase k
  | update k f => exact m.copied_insert k _
  | checkpoint => exact m.copied_checkpoint
  | commit => rfl
  | revert => exact m.copied_revert

theorem copied_run [Inhabited α] (m : UndoMap κ α) (steps : List (MapStep κ α)) :
    (m.run steps).copied = m.copied.run steps := by
  induction steps generalizing m with
  | nil => rfl
  | cons step rest ih =>
    have hrest : ((m.after step).run rest).copied = (m.after step).copied.run rest :=
      ih (m.after step)
    rw [copied_after] at hrest
    exact hrest

/-- Whatever is done to an empty map, it reads as if it copied itself at each checkpoint, in place of
an earlier copy, and went back to the copy if it has one. -/
theorem reads_as_copy [Inhabited α] (steps : List (MapStep κ α)) (k : κ) :
    (({} : UndoMap κ α).run steps).find? k = (({} : CopyMap κ α).run steps).find? k ∧
      (({} : UndoMap κ α).run steps).contains k = (({} : CopyMap κ α).run steps).contains k := by
  have hcopied : (({} : UndoMap κ α).run steps).copied = ({} : CopyMap κ α).run steps :=
    copied_run {} steps
  rw [← hcopied]
  exact ⟨rfl, rfl⟩

/-- The second of two checkpoints counts: what was erased before it stays erased, and what was first
written before it keeps that value. -/
theorem reads_as_copy_checkpoint_twice :
    let steps : List (MapStep Nat Nat) := [.insert 1 5, .checkpoint, .erase 1, .update 2 (· + 3),
      .checkpoint, .insert 1 7, .update 2 (· + 3), .revert]
    (({} : UndoMap Nat Nat).run steps).contains 1 = false ∧
      (({} : UndoMap Nat Nat).run steps).find? 2 = some 3 := by
  intro steps
  have hone := (reads_as_copy steps 1).2
  have htwo := (reads_as_copy steps 2).1
  exact ⟨hone.trans (by decide +kernel), htwo.trans (by decide +kernel)⟩

end UndoMap

/-- What can be done to a queue. -/
inductive QueueStep (α : Type) where
  | push (a : α)
  | pop

namespace QueueStep

variable {α σ τ : Type}

/-- What the steps answer one after the other, and the state that they lead to. -/
def run (act : σ → QueueStep α → Option α × σ) : σ → List (QueueStep α) → List (Option α) × σ
  | s, [] => ([], s)
  | s, step :: rest =>
    let (answer, s) := act s step
    let (answers, s) := run act s rest
    (answer :: answers, s)

/-- States that a relation holds of answer alike throughout, if each step keeps it and answers
alike. -/
theorem run_related {act : σ → QueueStep α → Option α × σ} {act' : τ → QueueStep α → Option α × τ}
    {R : σ → τ → Prop}
    (hstep : ∀ s t step, R s t → (act s step).1 = (act' t step).1 ∧ R (act s step).2 (act' t step).2)
    {s : σ} {t : τ} (h : R s t) (steps : List (QueueStep α)) :
    (run act s steps).1 = (run act' t steps).1 ∧ R (run act s steps).2 (run act' t steps).2 := by
  induction steps generalizing s t with
  | nil => exact ⟨rfl, h⟩
  | cons step rest ih =>
    obtain ⟨hanswer, hnext⟩ := hstep s t step h
    obtain ⟨hanswers, hend⟩ := ih hnext
    exact ⟨congr (congrArg List.cons hanswer) hanswers, hend⟩

/-- A list as a queue: in at the back, out at the front. -/
def actOnList (l : List α) : QueueStep α → Option α × List α
  | push a => (none, l ++ [a])
  | pop => (l.head?, l.tail)

end QueueStep

namespace Fifo

variable {α : Type}

def act (q : Fifo α) : QueueStep α → Option α × Fifo α
  | .push a => (none, q.push a)
  | .pop => (q.front?, q.pop)

/-- The queue is in order, and the list is what waits in it. -/
def Shows (q : Fifo α) (l : List α) : Prop := q.WellFormed ∧ q.toList = l

theorem Shows.act {q : Fifo α} {l : List α} (h : q.Shows l) (step : QueueStep α) :
    (q.act step).1 = (QueueStep.actOnList l step).1 ∧
      (q.act step).2.Shows (QueueStep.actOnList l step).2 := by
  obtain ⟨hformed, rfl⟩ := h
  cases step with
  | push a => exact ⟨rfl, hformed.push a, toList_push hformed a⟩
  | pop => exact ⟨q.head?_toList.symm, hformed.pop, q.toList_pop⟩

/-- A queue in order in which nothing waits has cleared its arena. -/
theorem WellFormed.clear {q : Fifo α} (h : q.WellFormed) (hempty : q.toList = []) :
    q.arena = #[] ∧ q.head = 0 := by
  rcases h with hwaits | hclear
  · rw [toList, List.drop_eq_nil_iff, Array.length_toList] at hempty
    omega
  · exact hclear

/-- Whatever is pushed to an empty queue and popped from it, all that it answers and shows is what a
list would. Its head stays within the arena, which is clear whenever nothing waits. -/
theorem answers_as_list (steps : List (QueueStep α)) :
    let (answers, q) := QueueStep.run act ({} : Fifo α) steps
    let (expected, waiting) := QueueStep.run QueueStep.actOnList [] steps
    answers = expected ∧ q.front? = waiting.head? ∧ q.size = waiting.length ∧ q.toList = waiting ∧
      q.head ≤ q.arena.size ∧ (waiting = [] → q.arena = #[] ∧ q.head = 0) := by
  have hempty : ({} : Fifo α).Shows [] := ⟨wellFormed_empty, rfl⟩
  obtain ⟨hanswers, hformed, hwaiting⟩ :=
    QueueStep.run_related (fun _ _ step h => Shows.act h step) hempty steps
  dsimp only
  rw [← hwaiting]
  exact ⟨hanswers, (head?_toList _).symm, (length_toList _).symm, rfl, hformed.head_le,
    hformed.clear⟩

end Fifo

end Restake
