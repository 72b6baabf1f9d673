import Mathlib.Data.UInt
import Restake.Proofs.Calls
import Restake.Replay

/-!
What a run keeps. The clock of a manager never goes back, no checkpoint is open between two calls,
and its books change by postings alone; so a property of books that time and every posting keep
holds after every move. A run spares a position if no call in it goes through that slashes the
operator in the set or takes the strategy out of it.
-/
namespace Restake

open Steps

/-- The two agree in magnitudes and queues. -/
structure Books.SameMagnitudes (b b' : Books) : Prop where
  allocation : b'.allocation = b.allocation
  encumberedMagnitude : b'.encumberedMagnitude = b.encumberedMagnitude
  maxMagnitude : b'.maxMagnitude = b.maxMagnitude
  queue : b'.queue = b.queue

/-- The two differ in checkpoints, indexes and events at most. -/
structure Books.SameReads (b b' : Books) : Prop extends
  Books.SameTerms b b', Books.SameMagnitudes b b'

theorem Books.sameReads_checkpoint (b : Books) : SameReads b b.checkpoint :=
  ⟨⟨rfl, rfl, rfl, rfl⟩, ⟨rfl, rfl, rfl, rfl⟩⟩

theorem Books.sameReads_commit (b : Books) : SameReads b b.commit :=
  ⟨⟨rfl, rfl, rfl, rfl⟩, ⟨rfl, rfl, rfl, rfl⟩⟩

theorem Books.sameReads_drained (b : Books) : SameReads b b.drained :=
  ⟨⟨rfl, rfl, rfl, rfl⟩, ⟨rfl, rfl, rfl, rfl⟩⟩

/-- A property of books that the beginning and the end of a call leave alone, and time too. -/
structure Books.Persists (P : BlockNumber → Books → Prop) : Prop where
  checkpoint : ∀ {block b}, P block b → P block b.checkpoint
  commit : ∀ {block b}, P block b → P block b.commit
  drained : ∀ {block b}, P block b → P block b.drained
  later : ∀ {block block' b}, block ≤ block' → P block b → P block' b

/-- A property of books that does not pass by itself as time does. -/
structure Books.Lasts (P : BlockNumber → Books → Prop) : Prop where
  reads : ∀ {block b b'}, SameReads b b' → P block b → P block b'
  later : ∀ {block block' b}, block ≤ block' → P block b → P block' b

theorem Books.Lasts.persists {P : BlockNumber → Books → Prop} (h : Lasts P) : Persists P where
  checkpoint := h.reads (sameReads_checkpoint _)
  commit := h.reads (sameReads_commit _)
  drained := h.reads (sameReads_drained _)
  later := h.later

/-- Whether the call is to slash the operator of a position in its set, or to take its strategy out
of the set. -/
def Call.Harms (p : Position) : Call → Prop
  | .slashOperator avs r => ⟨r.operator, ⟨avs, r.setId⟩⟩ = p.membership
  | .removeStrategies avs id strategies => ⟨avs, id⟩ = p.set ∧ p.strategy ∈ strategies
  | _ => False

/-- Whether the posting lowers the current magnitude of a position against the operator's will, or
takes the strategy out of the set. -/
def Entry.Harms (p : Position) : Entry → Prop
  | .cut q _ => q.membership = p.membership
  | .removeStrategy s x => s = p.set ∧ x = p.strategy
  | _ => False

theorem Call.Harms.of_entry {p : Position} {c : Call} {e : Entry} (hmay : c.mayPost e)
    (h : e.Harms p) : c.Harms p := by
  cases e with
  | cut q w =>
    cases c with
    | slashOperator avs r => exact hmay.1.symm.trans h
    | _ => exact hmay.elim
  | removeStrategy s x =>
    cases c with
    | removeStrategies avs id strategies =>
      obtain ⟨rfl, rfl⟩ := h
      exact ⟨hmay.1.symm, hmay.2⟩
    | _ => exact hmay.elim
  | _ => exact h.elim

namespace Manager

open Books

variable {δ ρ π : Type} {m : Manager δ ρ π}

theorem attempt_setBlock (m : Manager δ ρ π) (block : BlockNumber) :
    m.attempt (Manager.setBlock block) =
      if block < m.block then (.error (.blockRegression m.block block), m)
      else (.ok (), { m with block }) := by
  simp only [attempt, Manager.setBlock, bind_apply, get_apply, if_apply, throw_apply, set_apply]
  by_cases h : block < m.block
  · simp only [if_pos h]
  · simp only [if_neg h]

variable [DelegationLedger δ] [SetRegistrar ρ] [PermissionController π]

/-- No call of the run goes through that harms the position. -/
def Spares (p : Position) : Manager δ ρ π → List (Move δ ρ π) → Prop
  | _, [] => True
  | m, move :: rest =>
    (∀ caller c, move = .call caller c → c.Harms p → ¬(m.attempt (perform caller c)).1.isOk) ∧
      Spares p (m.after move) rest

/-- Setting the clock moves it to the block asked for, or not at all if that lies behind. -/
theorem after_setBlock (m : Manager δ ρ π) (block : BlockNumber) :
    m.after (.setBlock block) = { m with block := max m.block block } := by
  have hafter : m.after (.setBlock block) = (m.attempt (Manager.setBlock block)).2 := rfl
  rw [hafter, attempt_setBlock, UInt32.max_def]
  by_cases h : block < m.block
  · rw [if_pos h, if_neg (UInt32.not_le.2 h)]
  · rw [if_neg h, if_pos (UInt32.not_lt.1 h)]

theorem after_call (hidle : m.books.Idle) (caller : Address) (c : Call) :
    ((m.attempt (perform caller c)).1.isOk ∧ m.Committed c.mayPost (m.after (.call caller c))) ∨
      m.Abandoned (m.after (.call caller c)) := by
  have hperform := leads_perform hidle caller c m rfl
  show ((m.attempt (perform caller c)).1.isOk ∧
    m.Committed c.mayPost (m.attempt (perform caller c)).2) ∨
      m.Abandoned (m.attempt (perform caller c)).2
  unfold attempt
  cases h : perform caller c m with
  | ok r m' =>
    rw [h] at hperform
    exact .inl ⟨rfl, hperform⟩
  | error e m' =>
    rw [h] at hperform
    exact .inr hperform

theorem block_after_call (hidle : m.books.Idle) {caller : Address} {c : Call} :
    (m.after (.call caller c)).block = m.block := by
  rcases after_call hidle caller c with ⟨-, b, delegation, registrar, tally, h, -⟩ | ⟨_, _, h⟩
  · rw [h]
  · rw [h]

/-- What any move leaves behind: the books as they were, up to events, or postings to them that are
committed. -/
theorem after_cases (hidle : m.books.Idle) (move : Move δ ρ π) :
    (m.after move).config = m.config ∧ m.block ≤ (m.after move).block ∧
      ((m.after move).books = m.books ∨ (m.after move).books = m.books.drained ∨
        ∃ caller c b, move = .call caller c ∧ (m.attempt (perform caller c)).1.isOk ∧
          (m.after move).block = m.block ∧ (m.after move).books = b.commit ∧
          Postings m.config m.block c.mayPost m.books.checkpoint b) := by
  cases move with
  | setBlock block =>
    have hlater : m.block ≤ max m.block block := by
      rw [UInt32.le_iff_toNat_le, UInt32.toNat_max]
      exact Nat.le_max_left _ _
    rw [after_setBlock]
    exact ⟨rfl, hlater, .inl rfl⟩
  | call caller c =>
    rcases after_call hidle caller c with
      ⟨hok, b, delegation, registrar, tally, hafter, hpost⟩ | ⟨delegation, registrar, hafter⟩
    · rw [hafter]
      exact ⟨rfl, UInt32.le_refl _, .inr (.inr ⟨caller, c, b, rfl, hok, rfl, rfl, hpost⟩)⟩
    · rw [hafter]
      exact ⟨rfl, UInt32.le_refl _, .inl rfl⟩
  | takeEvents => exact ⟨rfl, UInt32.le_refl _, .inr (.inl rfl)⟩
  | meanwhile delegation registrar permissions => exact ⟨rfl, UInt32.le_refl _, .inl rfl⟩

theorem idle_after (hidle : m.books.Idle) (move : Move δ ρ π) : (m.after move).books.Idle := by
  obtain ⟨-, -, h | h | ⟨caller, c, b, -, -, -, h, -⟩⟩ := after_cases hidle move
  · rwa [h]
  · rw [h]
    exact hidle.drained
  · rw [h]
    exact idle_commit b

theorem Reachable.idle (h : m.Reachable) : m.books.Idle := by
  induction h with
  | fresh => exact idle_empty
  | after _ move ih => exact idle_after ih move

/-- What the postings of a move keep, the move keeps. -/
theorem after_keeps {P : BlockNumber → Books → Prop} {may : Entry → Prop} (hidle : m.books.Idle)
    (hpersists : Persists P) (hposts : ∀ {block e b b'}, may e → Posts m.config block e b b' →
      P block b → P block b') {move : Move δ ρ π}
    (hmay : ∀ caller c, move = .call caller c → (m.attempt (perform caller c)).1.isOk →
      ∀ e, c.mayPost e → may e) (h : P m.block m.books) :
    P (m.after move).block (m.after move).books := by
  obtain ⟨-, hblock, hbooks | hbooks | ⟨caller, c, b, hmove, hok, -, hbooks, hpost⟩⟩ :=
    after_cases hidle move
  · rw [hbooks]
    exact hpersists.later hblock h
  · rw [hbooks]
    exact hpersists.later hblock (hpersists.drained h)
  · rw [hbooks]
    refine hpersists.later hblock (hpersists.commit ?_)
    refine hpost.keeps (fun e b b' he => hposts (hmay caller c hmove hok e he)) ?_
    exact hpersists.checkpoint h

/-- What holds of empty books and every posting keeps holds of every reachable manager. -/
theorem Reachable.keeps {P : Config → BlockNumber → Books → Prop} (h : m.Reachable)
    (hstart : ∀ config block, P config block {}) (hpersists : ∀ config, Persists (P config))
    (hposts : ∀ {config block e b b'}, Posts config block e b b' → P config block b →
      P config block b') : P m.config m.block m.books := by
  induction h with
  | fresh config => exact hstart config 0
  | @after m h move ih =>
    rw [(after_cases h.idle move).1]
    exact after_keeps h.idle (hpersists m.config) (fun _ : True => hposts)
      (fun _ _ _ _ _ _ => trivial) ih

/-- What every posting but those that harm a position keeps holds to the end of a run that spares
the position. -/
theorem run_keeps {P : BlockNumber → Books → Prop} {p : Position} {moves : List (Move δ ρ π)}
    (hidle : m.books.Idle) (hlasts : Lasts P) (hposts : ∀ {block e b b'}, ¬e.Harms p →
      Posts m.config block e b b' → P block b → P block b') (hspares : m.Spares p moves)
    (h : P m.block m.books) : P (m.run moves).block (m.run moves).books := by
  induction moves generalizing m with
  | nil => exact h
  | cons move rest ih =>
    obtain ⟨hmove, hrest⟩ := hspares
    refine ih (idle_after hidle move) ?_ hrest ?_
    · rw [(after_cases hidle move).1]
      exact hposts
    · refine after_keeps hidle hlasts.persists hposts (fun caller c hc hok e he hharms => ?_) h
      exact hmove caller c hc (Call.Harms.of_entry he hharms) hok

end Manager

/-! A small run. An operator allocates to one strategy of one set and, once that is in force, asks
for a part of it back. -/
namespace Sample

def operator : Address := ⟨1⟩

def avs : Address := ⟨2⟩

def position : Position := ⟨⟨operator, ⟨avs, 1⟩⟩, ⟨3⟩⟩

def config : Config := { deallocationDelay := 10, configurationDelay := 5 }

def start : LocalManager :=
  .opened config [⟨operator, [⟨position.strategy, 1000000000000000000⟩]⟩]

def moves : List (Move LocalDelegation LocalRegistrar LocalPermissions) :=
  [.call operator (.setAllocationDelay operator 2),
    .call avs (.createOperatorSets avs [⟨1, [position.strategy]⟩]),
    .call operator (.registerForOperatorSets operator ⟨avs, [1], []⟩),
    .setBlock 5,
    .call operator (.modifyAllocations operator [⟨position.set, [position.strategy], [600]⟩]),
    .setBlock 7,
    .call operator (.modifyAllocations operator [⟨position.set, [position.strategy], [400]⟩])]

theorem reachable : (start.run moves).Reachable := (Manager.Reachable.fresh _ _ _ _).run moves

end Sample

end Restake
