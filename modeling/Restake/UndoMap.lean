import Std.Data.ExtTreeMap

/-!
A map with one checkpoint. From the checkpoint on it notes the value that a key had when it is
first written, so that going back costs one step for each key touched, however often. `origin` is
the value that going back will give; no write changes it while a checkpoint is open.
-/
namespace Restake

structure UndoMap (κ α : Type) [Ord κ] where
  entries : Std.ExtTreeMap κ α := ∅
  /-- The old values of the keys written since the checkpoint, if one is open. -/
  undo : Option (Std.ExtTreeMap κ (Option α)) := none

namespace UndoMap

variable {κ α : Type} [Ord κ]

instance : Inhabited (UndoMap κ α) := ⟨{}⟩

variable [Std.TransOrd κ]

def find? (m : UndoMap κ α) (k : κ) : Option α := m.entries[k]?

def contains (m : UndoMap κ α) (k : κ) : Bool := m.entries.contains k

/-- Notes the value of a key that is about to be written. -/
def note (m : UndoMap κ α) (k : κ) : UndoMap κ α :=
  { m with undo := m.undo.map fun u => u.insertIfNew k m.entries[k]? }

def insert (m : UndoMap κ α) (k : κ) (v : α) : UndoMap κ α :=
  { m.note k with entries := m.entries.insert k v }

def erase (m : UndoMap κ α) (k : κ) : UndoMap κ α :=
  { m.note k with entries := m.entries.erase k }

/-- Changes the value of a key, which is `default` where there is none. -/
def update [Inhabited α] (m : UndoMap κ α) (k : κ) (f : α → α) : UndoMap κ α :=
  m.insert k (f ((m.find? k).getD default))

/-- Opens a checkpoint in place of the last one. -/
def checkpoint (m : UndoMap κ α) : UndoMap κ α := { m with undo := some ∅ }

def commit (m : UndoMap κ α) : UndoMap κ α := { m with undo := none }

/-- Gives every key noted its old value; without a checkpoint nothing changes. -/
def revert (m : UndoMap κ α) : UndoMap κ α :=
  match m.undo with
  | none => m
  | some u => ⟨u.foldl (fun entries k old => entries.alter k fun _ => old) m.entries, none⟩

/-- The value of a key at the checkpoint, or its value now if none is open. -/
def origin (m : UndoMap κ α) (k : κ) : Option α :=
  match m.undo with
  | none => m.find? k
  | some u => (u[k]?).getD (m.find? k)

theorem find?_empty (k : κ) : ({} : UndoMap κ α).find? k = none := by
  simp [find?]

theorem contains_eq_isSome (m : UndoMap κ α) (k : κ) : m.contains k = (m.find? k).isSome := by
  simp [contains, find?]

@[simp, grind =]
theorem find?_checkpoint (m : UndoMap κ α) (k : κ) : m.checkpoint.find? k = m.find? k := rfl

@[simp, grind =]
theorem find?_commit (m : UndoMap κ α) (k : κ) : m.commit.find? k = m.find? k := rfl

theorem origin_checkpoint (m : UndoMap κ α) (k : κ) : m.checkpoint.origin k = m.find? k := by
  simp [checkpoint, origin, find?]

variable [Std.LawfulEqOrd κ] [DecidableEq κ]

@[grind =]
theorem find?_insert (m : UndoMap κ α) (k j : κ) (v : α) :
    (m.insert k v).find? j = if k = j then some v else m.find? j := by
  simp [insert, find?, note, Std.ExtTreeMap.getElem?_insert]

@[grind =]
theorem find?_erase (m : UndoMap κ α) (k j : κ) :
    (m.erase k).find? j = if k = j then none else m.find? j := by
  simp [erase, find?, note, Std.ExtTreeMap.getElem?_erase]

@[grind =]
theorem find?_update [Inhabited α] (m : UndoMap κ α) (k j : κ) (f : α → α) :
    (m.update k f).find? j = if k = j then some (f ((m.find? k).getD default)) else m.find? j :=
  find?_insert m k j _

theorem getElem?_foldl_alter (u : List (κ × Option α)) (entries : Std.ExtTreeMap κ α) (k : κ)
    (hu : u.Pairwise fun a b => a.1 ≠ b.1) :
    (u.foldl (fun es e => es.alter e.1 fun _ => e.2) entries)[k]? =
      ((u.find? fun e => e.1 = k).map Prod.snd).getD entries[k]? := by
  induction u generalizing entries with
  | nil => rfl
  | cons e u ih =>
    obtain ⟨hne, hu⟩ := List.pairwise_cons.1 hu
    rw [List.foldl_cons, ih _ hu, List.find?_cons]
    by_cases he : e.1 = k
    · have hnone : (u.find? fun e => e.1 = k) = none := by
        rw [List.find?_eq_none]
        intro e' he'
        simpa using fun h => hne e' he' (he.trans h.symm)
      simp [he, hnone]
    · simp [he, Std.ExtTreeMap.getElem?_alter]

/-- Going back gives every key its value at the checkpoint. -/
theorem find?_revert (m : UndoMap κ α) (k : κ) : m.revert.find? k = m.origin k := by
  unfold revert origin
  split
  next h => simp
  next u h =>
    have hdistinct : u.toList.Pairwise fun a b => a.1 ≠ b.1 := by
      have := u.distinct_keys_toList
      simpa using this
    simp only [find?, Std.ExtTreeMap.foldl_eq_foldl_toList]
    rw [getElem?_foldl_alter _ _ _ hdistinct]
    congr 1
    cases hf : u.toList.find? fun e => e.1 = k with
    | none =>
      rw [List.find?_eq_none] at hf
      cases hk : u[k]? with
      | none => rfl
      | some old =>
        have := hf _ (Std.ExtTreeMap.mem_toList_iff_getElem?_eq_some.2 hk)
        simp at this
    | some e =>
      have hmem := List.mem_of_find?_eq_some hf
      have hkey : e.1 = k := by simpa using List.find?_some hf
      have := Std.ExtTreeMap.mem_toList_iff_getElem?_eq_some.1 (show (e.1, e.2) ∈ u.toList from hmem)
      rw [← hkey, this]
      rfl

theorem origin_write {m : UndoMap κ α} (h : m.undo.isSome) {k j : κ} {es : Std.ExtTreeMap κ α}
    (hes : k ≠ j → es[j]? = m.entries[j]?) :
    ({ m.note k with entries := es } : UndoMap κ α).origin j = m.origin j := by
  obtain ⟨u, hu⟩ := Option.isSome_iff_exists.1 h
  simp only [origin, note, hu, Option.map_some, find?, Std.ExtTreeMap.getElem?_insertIfNew]
  by_cases hk : k = j
  · subst hk
    by_cases hm : k ∈ u <;> simp [hm]
  · simp [hk, hes hk]

/-- While a checkpoint is open no write changes what going back gives. -/
theorem origin_insert {m : UndoMap κ α} (h : m.undo.isSome) (k j : κ) (v : α) :
    (m.insert k v).origin j = m.origin j :=
  origin_write h fun hk => by simp [Std.ExtTreeMap.getElem?_insert, hk]

theorem origin_erase {m : UndoMap κ α} (h : m.undo.isSome) (k j : κ) :
    (m.erase k).origin j = m.origin j :=
  origin_write h fun hk => by simp [Std.ExtTreeMap.getElem?_erase, hk]

end UndoMap

end Restake
