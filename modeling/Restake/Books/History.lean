import Restake.Magnitude

/-!
How the max magnitude of an account came down: one snapshot for each block in which it changed,
in the order in which they were taken. Before the first one the max is `wad`.
-/
namespace Restake

structure History where
  snapshots : Array (BlockNumber × Magnitude) := #[]
deriving Inhabited

namespace History

/-- Halves the stretch of `size` snapshots from `base` on until one is left: the last one taken at
or before `block`, or the first of the stretch if there is none. -/
def narrow (h : History) (block : BlockNumber) (base size : Nat) : Nat :=
  if size ≤ 1 then base
  else
    let middle := base + size / 2
    narrow h block (if (h.snapshots[middle]?).any (·.1 ≤ block) then middle else base) (size - size / 2)
termination_by size

def latest (h : History) : Magnitude := (h.snapshots.back?.map Prod.snd).getD wad

/-- The max as of `block`. -/
def valueAt (h : History) (block : BlockNumber) : Magnitude :=
  match h.snapshots[h.narrow block 0 h.snapshots.size]? with
  | some (taken, value) => if taken ≤ block then value else wad
  | none => wad

/-- Takes a snapshot, in place of the last one if that is of the same block. -/
def push (h : History) (block : BlockNumber) (value : Magnitude) : History :=
  match h.snapshots.back? with
  | some (taken, _) => if taken = block then ⟨h.snapshots.pop.push (block, value)⟩
      else ⟨h.snapshots.push (block, value)⟩
  | none => ⟨h.snapshots.push (block, value)⟩

@[simp] theorem latest_empty : ({} : History).latest = wad := rfl

@[simp] theorem latest_push (h : History) (block : BlockNumber) (value : Magnitude) :
    (h.push block value).latest = value := by
  unfold push
  split
  · split <;> simp [latest]
  · simp [latest]

end History

end Restake
