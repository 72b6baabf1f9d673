import Restake.Proofs.Failing
import Restake.Proofs.Replica

/-!
The audit trail of a run: the events that were handed over in it and those that still wait. Each
call that goes through adds the events that tell what it has changed, and one that fails adds none.
So the trail tells the books at any time, and numbers the slashes of each set without a gap.
-/
namespace Restake

open Steps Books

/-- How often the call slashes in a set, if it goes through. -/
def Call.slashes : Call → OperatorSet → Nat
  | .slashOperator avs r, s => if ⟨avs, r.setId⟩ = s then 1 else 0
  | _, _ => 0

/-- Only slashes are counted and told as such. -/
theorem Call.quiet {c : Call} {e : Entry} (hslash : ∀ avs r, c ≠ .slashOperator avs r)
    (hmay : c.mayPost e) : e.Quiet := by
  cases c with
  | slashOperator avs r => exact absurd rfl (hslash avs r)
  | _ =>
    cases e with
    | countSlash s => exact hmay.elim
    | logSlash m => exact hmay.elim
    | _ => trivial

namespace Manager

section Calls

variable {δ ρ π : Type} {m m' : Manager δ ρ π}

/-- The events that still wait to be handed over. -/
def waiting (m : Manager δ ρ π) : List Event := m.books.log.committed.toList

/-- Where the books stay as they are there is nothing to tell. -/
theorem tells_nothing (hbooks : m'.books = m.books) :
    ∃ events, m'.waiting = m.waiting ++ events ∧ Recounts noSlash events m.books m'.books := by
  refine ⟨[], ?_, .nil (congrArg replica hbooks) (congrArg slashCount hbooks)⟩
  rw [waiting, hbooks, List.append_nil]
  rfl

/-- What has changed is committed, with the events that tell it. -/
def Recorded (m : Manager δ ρ π) (slashes : OperatorSet → Nat) (m' : Manager δ ρ π) : Prop :=
  ∃ b delegation registrar tally, m' = { m with books := b.commit, delegation, registrar, tally } ∧
    Tells slashes m.books.checkpoint b

theorem Recorded.of_committed {may : Entry → Prop} (h : m.Committed may m')
    (hquiet : ∀ e, may e → e.Quiet) : m.Recorded noSlash m' := by
  obtain ⟨b, delegation, registrar, tally, rfl, hpost⟩ := h
  refine ⟨b, delegation, registrar, tally, rfl, ?_⟩
  refine hpost.keeps (P := Tells noSlash m.books.checkpoint) ?_ (.silent rfl rfl rfl)
  exact fun e b b' hmay hposts htells => htells.trans_quiet (tells_posts (hquiet e hmay) hposts)

theorem Recorded.events {slashes : OperatorSet → Nat} (h : m.Recorded slashes m') :
    ∃ events, m'.waiting = m.waiting ++ events ∧ Recounts slashes events m.books m'.books := by
  obtain ⟨b, delegation, registrar, tally, rfl, events, hlog, hrecounts⟩ := h
  refine ⟨events, ?_, hrecounts.entered, hrecounts.numbered, hrecounts.counted⟩
  show b.log.commit.committed.toList = _
  rw [hlog, EventLog.commit_foldl_emit rfl]
  rfl

theorem leads_onBooks_ok {α : Type} {P : Books → Prop} {step : Bookkeeping α}
    {Q : α → Books → Prop} (h : Leads P step Q fun _ => True) :
    Leads (m.Amid P) (onBooks step) (fun a => m.Amid (Q a)) fun _ => True :=
  (leads_onBooks h).weaken (fun _ h => h) (fun _ _ h => h) fun _ _ => trivial

/-- A leg leads where its cut leads. -/
theorem leads_slashLeg_ok [DelegationLedger δ] {P Q : Books → Prop} {p : Position} {w : UInt64}
    (h : Leads P (cut p w m.block) (fun _ => Q) fun _ => True) :
    Leads (m.Amid P) (slashLeg p w) (fun _ => m.Amid Q) fun _ => True := by
  refine Leads.get_bind fun m' hm => ?_
  have hblock : m'.block = m.block := by
    obtain ⟨b, delegation, registrar, rfl, -⟩ := hm
    rfl
  rw [hblock]
  refine Leads.bind ((leads_onBooks_ok h).weaken (fun _ heq => heq ▸ hm) (fun _ _ h => h)
    fun _ h => h) fun cut => ?_
  cases cut with
  | none => exact Leads.pure fun _ h => h
  | some cut =>
    exact Leads.bind (leads_onDelegation.weaken (fun _ h => h) (fun _ _ h => h) fun _ _ => trivial)
      fun _ => Leads.pure fun _ h => h

/-- What holds of the books at the end of the work gives what holds once they are committed. -/
theorem leads_atomically_ok {α : Type} {P Q : Books → Prop} {body : Managing δ ρ π α}
    (hcommit : ∀ b, P b → Q b.commit)
    (h : Leads (m.Amid (m.books.checkpoint = ·)) body (fun _ => m.Amid P) fun _ => True) :
    Leads (m = ·) (atomically body) (fun _ => m.Amid Q) fun _ => True := by
  intro m' hm
  subst m'
  have hstart : m.Amid (m.books.checkpoint = ·) { m with books := m.books.checkpoint } :=
    ⟨_, _, _, rfl, rfl⟩
  unfold atomically
  cases hbody : body { m with books := m.books.checkpoint } with
  | ok a m' =>
    obtain ⟨b, delegation, registrar, rfl, hb⟩ := h.of_ok hstart hbody
    exact ⟨b.commit, delegation, registrar, rfl, hcommit b hb⟩
  | error e m' => trivial

theorem leads_atomically_recorded {α : Type} {slashes : OperatorSet → Nat}
    {body : Managing δ ρ π α}
    (h : Leads (m.Amid (m.books.checkpoint = ·)) body
      (fun _ => m.Amid (Tells slashes m.books.checkpoint)) fun _ => True) :
    Leads (m = ·) (atomically body) (fun _ => m.Recorded slashes) fun _ => True := by
  let Told (b' : Books) : Prop := ∃ b, b' = b.commit ∧ Tells slashes m.books.checkpoint b
  have htold : ∀ b, Tells slashes m.books.checkpoint b → Told b.commit := fun b hb => ⟨b, rfl, hb⟩
  refine (leads_atomically_ok htold h).weaken (fun _ h => h) (fun _ m' hm => ?_) fun _ h => h
  obtain ⟨_, delegation, registrar, rfl, b, rfl, htells⟩ := hm
  exact ⟨b, delegation, registrar, m.tally, rfl, htells⟩

theorem leads_count_ok {slashes : OperatorSet → Nat} (f : Tally → Tally) :
    Leads (m.Recorded slashes) (count f) (fun _ => m.Recorded slashes) fun _ => True := by
  intro m' hm
  rcases hm with ⟨b, delegation, registrar, tally, rfl, htells⟩
  exact ⟨b, delegation, registrar, f tally, rfl, htells⟩

theorem leads_slashOperator_ok [DelegationLedger δ] [PermissionController π]
    (caller avs : Address) (r : SlashRequest) :
    Leads (m = ·) (slashOperator caller avs r)
      (fun _ => m.Recorded (Call.slashes (.slashOperator avs r))) fun _ => True := by
  let member : Membership := ⟨r.operator, ⟨avs, r.setId⟩⟩
  let b₀ : Books := m.books.checkpoint
  -- between the count and the event of the slash nothing is told about slashes
  let Legs (id : UInt64) (b : Books) : Prop :=
    id = b₀.slashCount member.set + 1 ∧ Tells noSlash (b₀.slashCounted member.set) b
  have hcount : Leads (b₀ = ·) (nextSlashId member.set) Legs fun _ => True := by
    intro b hb
    subst b
    rw [nextSlashId_apply, slashCount_slashCounted, if_pos rfl]
    exact ⟨rfl, .silent rfl rfl rfl⟩
  have hemit (id : UInt64) : Leads (Legs id)
      (modify (·.emit (.operatorSlashed member r.strategies r.wads r.description id)) :
        Bookkeeping Unit)
      (fun _ => Tells (Call.slashes (.slashOperator avs r)) b₀) fun _ => True := by
    refine Leads.modify fun b hb => ?_
    rcases hb with ⟨rfl, htells⟩
    exact tells_slash (m := member) htells _ _ _
  have hrequire := leads_requireCaller (m := m) avs caller .slashOperator
  refine Leads.bind (hrequire.weaken (fun _ h => h) (fun _ _ h => h) fun _ _ => trivial) fun _ =>
    Leads.bind (leads_atomically_recorded ?_) fun _ => Leads.bind (leads_count_ok _) fun _ =>
      Leads.pure fun _ h => h
  refine Leads.read_bind fun m' =>
    Leads.bind (Leads.ofExcept (fun _ _ h _ => h) fun _ _ => trivial) fun _ =>
      Leads.bind (leads_onBooks_ok hcount) fun id =>
        Leads.bind (Leads.mapM fun leg _ => ?_) fun _ =>
          Leads.bind (leads_onBooks_ok (hemit id)) fun _ => Leads.pure fun _ h => h
  refine leads_slashLeg_ok fun b hb => ?_
  cases hrun : cut ⟨member, leg.1⟩ leg.2 m.block b with
  | ok r b' => exact ⟨hb.1, hb.2.trans_quiet (tells_cut hrun)⟩
  | error e b' => trivial

end Calls

section Runs

variable {δ ρ π : Type} [DelegationLedger δ] [SetRegistrar ρ] [PermissionController π]
variable {m m' : Manager δ ρ π}

/-- A call that goes through tells what it has changed. -/
theorem recorded_of_ok (hidle : m.books.Idle) {caller : Address} {c : Call} {reply : Reply}
    (h : perform caller c m = .ok reply m') : m.Recorded c.slashes m' := by
  cases c with
  | slashOperator avs r =>
    have hslash : Leads (m = ·) (perform caller (.slashOperator avs r))
        (fun _ => m.Recorded (Call.slashes (.slashOperator avs r))) fun _ => True :=
      Leads.map (leads_slashOperator_ok caller avs r)
    exact hslash.of_ok rfl h
  | _ => exact .of_committed ((leads_perform hidle caller _).of_ok rfl h) fun e => Call.quiet nofun

/-- How often a move slashes in a set. -/
def slashesOn (m : Manager δ ρ π) : Move δ ρ π → OperatorSet → Nat
  | .call caller c => if (m.attempt (perform caller c)).1.isOk then c.slashes else noSlash
  | _ => noSlash

def slashesOver (m : Manager δ ρ π) : List (Move δ ρ π) → OperatorSet → Nat
  | [] => noSlash
  | move :: rest => fun s => m.slashesOn move s + (m.after move).slashesOver rest s

/-- The events that a move hands over. -/
def handedOver (m : Manager δ ρ π) : Move δ ρ π → List Event
  | .takeEvents =>
    match (m.attempt Manager.takeEvents).1 with
    | .ok events => events
    | .error _ => []
  | _ => []

def handedOverIn (m : Manager δ ρ π) : List (Move δ ρ π) → List Event
  | [] => []
  | move :: rest => m.handedOver move ++ (m.after move).handedOverIn rest

/-- All events that are told in a run, whether they were handed over in it or still wait. -/
def trail (m : Manager δ ρ π) (moves : List (Move δ ρ π)) : List Event :=
  m.handedOverIn moves ++ (m.run moves).waiting

theorem trail_cons (m : Manager δ ρ π) (move : Move δ ρ π) (rest : List (Move δ ρ π)) :
    m.trail (move :: rest) = m.handedOver move ++ (m.after move).trail rest :=
  List.append_assoc _ _ _

theorem books_after_failure (hidle : m.books.Idle) {caller : Address} {c : Call} {e : Failure}
    (h : (m.attempt (perform caller c)).1 = .error e) :
    (m.after (.call caller c)).books = m.books := by
  rcases after_call hidle caller c with ⟨hok, -⟩ | ⟨delegation, registrar, hafter⟩
  · rw [h] at hok
    cases hok
  · rw [hafter]

/-- What a move adds to the trail tells what it has changed. -/
theorem after_tells (hidle : m.books.Idle) (move : Move δ ρ π) :
    ∃ events, m.handedOver move ++ (m.after move).waiting = m.waiting ++ events ∧
      Recounts (m.slashesOn move) events m.books (m.after move).books := by
  cases move with
  | setBlock block =>
    have hbooks : (m.after (.setBlock block)).books = m.books := by rw [after_setBlock]
    exact tells_nothing hbooks
  | call caller c =>
    cases hrun : perform caller c m with
    | ok reply m' =>
      have hattempt : m.attempt (perform caller c) = (.ok reply, m') := attempt_of_ok hrun
      have hafter : m.after (.call caller c) = m' := congrArg Prod.snd hattempt
      have hslashes : m.slashesOn (.call caller c) = c.slashes := by
        rw [slashesOn, hattempt]
        rfl
      rw [hafter, hslashes]
      exact (recorded_of_ok hidle hrun).events
    | error e m' =>
      have hattempt : m.attempt (perform caller c) = (.error e, m') := attempt_of_error hrun
      have hslashes : m.slashesOn (.call caller c) = noSlash := by
        rw [slashesOn, hattempt]
        rfl
      rw [hslashes]
      exact tells_nothing (books_after_failure hidle (congrArg Prod.fst hattempt))
  | takeEvents => exact ⟨[], rfl, .nil rfl rfl⟩
  | meanwhile delegation registrar permissions => exact tells_nothing rfl

theorem run_tells (hidle : m.books.Idle) (moves : List (Move δ ρ π)) :
    ∃ events, m.trail moves = m.waiting ++ events ∧
      Recounts (m.slashesOver moves) events m.books (m.run moves).books := by
  induction moves generalizing m with
  | nil => exact ⟨[], (List.append_nil _).symm, .nil rfl rfl⟩
  | cons move rest ih =>
    obtain ⟨events, hmove, hfirst⟩ := after_tells hidle move
    obtain ⟨events', hrest, hlater⟩ := ih (idle_after hidle move)
    refine ⟨events ++ events', ?_, hfirst.trans hlater⟩
    rw [trail_cons, hrest, ← List.append_assoc, hmove, List.append_assoc]

theorem trail_append (m : Manager δ ρ π) (before rest : List (Move δ ρ π)) :
    m.trail (before ++ rest) = m.handedOverIn before ++ (m.run before).trail rest := by
  induction before generalizing m with
  | nil => rfl
  | cons move before ih =>
    rw [List.cons_append, trail_cons, ih, handedOverIn, List.append_assoc]
    rfl

/-- Later moves only add to the trail. -/
theorem Reachable.trail_isPrefix (h : m.Reachable) (moves later : List (Move δ ρ π)) :
    m.trail moves <+: m.trail (moves ++ later) := by
  obtain ⟨events, hlater, -⟩ := run_tells (h.run moves).idle later
  rw [trail_append, hlater, ← List.append_assoc]
  exact List.prefix_append _ events

theorem Reachable.trail_after_failure (h : m.Reachable) {moves : List (Move δ ρ π)}
    {caller : Address} {c : Call} {e : Failure}
    (hfails : ((m.run moves).attempt (perform caller c)).1 = .error e) :
    m.trail (moves ++ [.call caller c]) = m.trail moves := by
  have hbooks := books_after_failure (h.run moves).idle hfails
  have hwaiting : ((m.run moves).after (.call caller c)).waiting = (m.run moves).waiting := by
    rw [waiting, hbooks]
    rfl
  rw [trail_append]
  exact congrArg (m.handedOverIn moves ++ ·) hwaiting

/-- From the start of a run on its trail tells everything. -/
theorem trail_recounts (config : Config) (delegation : δ) (registrar : ρ) (permissions : π)
    (moves : List (Move δ ρ π)) :
    let start := fresh config delegation registrar permissions
    Recounts (start.slashesOver moves) (start.trail moves) {} (start.run moves).books := by
  intro start
  have hidle : start.books.Idle := idle_empty
  obtain ⟨events, hevents, hrecounts⟩ := run_tells hidle moves
  have htrail : start.trail moves = events := hevents
  rw [htrail]
  exact hrecounts

/-- The trail of any run tells the books that it leads to. The last event about it gives each
figure, the events about sets give the sets, their strategies and their members, and those about
slashes number them one by one. A call that fails adds nothing, and nothing is ever taken back. -/
theorem audit_trail_complete (config : Config) (delegation : δ) (registrar : ρ) (permissions : π)
    (moves : List (Move δ ρ π)) :
    let start := fresh config delegation registrar permissions
    let m := start.run moves
    let events := start.trail moves
    (∀ a, (Event.last? Event.encumbered? a events).getD 0 = m.books.encumberedMagnitude a) ∧
      (∀ a, (Event.last? Event.max? a events).getD wad = m.books.maxMagnitude a) ∧
      (∀ p, (Event.last? Event.target? p events).getD (0, 0) =
        ((m.books.allocation p).target, (m.books.allocation p).effectBlock)) ∧
      (∀ operator, (Event.last? Event.delay? operator events).getD (0, 0) =
        ((m.books.delaySetting operator).pendingDelay,
          (m.books.delaySetting operator).effectBlock)) ∧
      Replica.ofEvents events = m.books.replica ∧
      (∀ s, (Event.told Event.slash? s events).length = start.slashesOver moves s ∧
        (start.slashesOver moves s < 2 ^ 64 → (Event.told Event.slash? s events).map UInt64.toNat =
          List.range' 1 (m.books.slashCount s).toNat)) ∧
      (∀ caller c e, (m.attempt (perform caller c)).1 = .error e →
        start.trail (moves ++ [.call caller c]) = events) ∧
      ∀ later, events <+: start.trail (moves ++ later) := by
  intro start m events
  have hstart : start.Reachable := .fresh config delegation registrar permissions
  have hrecounts : Recounts (start.slashesOver moves) events {} m.books :=
    trail_recounts config delegation registrar permissions moves
  have hreplica := hrecounts.replica_eq
  refine ⟨fun a => ?_, fun a => ?_, fun p => ?_, fun operator => ?_, hreplica,
    hrecounts.slashes_eq, fun caller c e => hstart.trail_after_failure, hstart.trail_isPrefix moves⟩
  · rw [← Replica.encumbered_ofEvents, hreplica]
    rfl
  · rw [← Replica.max_ofEvents, hreplica]
    rfl
  · rw [← Replica.target_ofEvents, hreplica]
    rfl
  · rw [← Replica.delay_ofEvents, hreplica]
    rfl

end Runs

end Manager

namespace Sample

/-- Two slashes, with the events handed over between them. -/
def audited : List (Move LocalDelegation LocalRegistrar LocalPermissions) :=
  allocating ++ [.call avs (.slashOperator avs halving), .takeEvents,
    .call avs (.slashOperator avs halving)]

end Sample

namespace Manager

/-- The two slashes are told as the first and the second, and a call that fails after them is not
told at all. -/
theorem audit_trail_complete_audited :
    (Event.told Event.slash? Sample.position.set (Sample.start.trail Sample.audited)).map
        UInt64.toNat = [1, 2] ∧
      Sample.start.trail (Sample.audited ++ [.call Sample.operator Sample.overdrawn]) =
        Sample.start.trail Sample.audited := by
  obtain ⟨-, -, -, -, -, hslashes, hfailed, -⟩ := audit_trail_complete Sample.config
    Sample.start.delegation {} {} Sample.audited
  have htwice : Sample.start.slashesOver Sample.audited Sample.position.set = 2 := by decide +kernel
  have hcount : ((Sample.start.run Sample.audited).books.slashCount
      Sample.position.set).toNat = 2 := by
    decide +kernel
  have hfails : ((Sample.start.run Sample.audited).attempt
      (perform Sample.operator Sample.overdrawn)).1 =
        .error (.insufficientMagnitude ⟨Sample.operator, Sample.paused⟩ 500000000000000000
          875000000000000001) := by
    decide +kernel
  have hnumbers := (hslashes Sample.position.set).2 (htwice.trans_lt (by decide))
  have hrange : List.range' 1 ((Sample.start.run Sample.audited).books.slashCount
      Sample.position.set).toNat = [1, 2] := by
    rw [hcount]
    rfl
  exact ⟨hnumbers.trans hrange, hfailed Sample.operator Sample.overdrawn _ hfails⟩

end Manager

end Restake
