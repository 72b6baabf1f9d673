/-!
A first-in first-out queue in an arena: the entries from `head` on are waiting, the ones before it
are spent, and the arena is emptied when the last entry leaves. `toList` is what waits, oldest
first.
-/
namespace Restake

structure Fifo (α : Type) where
  arena : Array α := #[]
  head : Nat := 0
deriving Inhabited

namespace Fifo

variable {α : Type}

def toList (q : Fifo α) : List α := q.arena.toList.drop q.head

def size (q : Fifo α) : Nat := q.arena.size - q.head

def front? (q : Fifo α) : Option α := q.arena[q.head]?

def push (q : Fifo α) (a : α) : Fifo α := { q with arena := q.arena.push a }

/-- The queue without its oldest entry. -/
def pop (q : Fifo α) : Fifo α :=
  if q.head + 1 < q.arena.size then { q with head := q.head + 1 }
  else if q.head < q.arena.size then {}
  else q

/-- Some entry waits, or the arena is clear. -/
def WellFormed (q : Fifo α) : Prop := q.head < q.arena.size ∨ q.arena = #[] ∧ q.head = 0

theorem wellFormed_empty : ({} : Fifo α).WellFormed := Or.inr ⟨rfl, rfl⟩

theorem WellFormed.head_le {q : Fifo α} (h : q.WellFormed) : q.head ≤ q.arena.size := by
  rcases h with h | ⟨_, h⟩ <;> omega

theorem WellFormed.push {q : Fifo α} (h : q.WellFormed) (a : α) : (q.push a).WellFormed := by
  have := h.head_le
  exact Or.inl (by simp only [Fifo.push, Array.size_push]; omega)

theorem WellFormed.pop {q : Fifo α} (h : q.WellFormed) : q.pop.WellFormed := by
  unfold Fifo.pop
  split
  · exact Or.inl (by assumption)
  · split
    · exact wellFormed_empty
    · exact h

theorem length_toList (q : Fifo α) : q.toList.length = q.size := by simp [toList, size]

theorem head?_toList (q : Fifo α) : q.toList.head? = q.front? := by simp [toList, front?]

theorem toList_push {q : Fifo α} (h : q.WellFormed) (a : α) : (q.push a).toList = q.toList ++ [a] := by
  have hl := h.head_le
  simp [toList, Fifo.push, List.drop_append_of_le_length (show q.head ≤ q.arena.toList.length by simpa)]

theorem toList_pop (q : Fifo α) : q.pop.toList = q.toList.tail := by
  simp only [pop, toList, List.tail_drop]
  split
  · rfl
  · rename_i hnext
    have hlast : q.arena.toList.drop (q.head + 1) = [] := by
      rw [List.drop_eq_nil_iff, Array.length_toList]
      omega
    split
    · simp [hlast]
    · rename_i hdone
      rw [hlast, List.drop_eq_nil_iff, Array.length_toList]
      omega

end Fifo

end Restake
