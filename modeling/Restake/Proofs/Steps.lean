import Restake.Manager.Runs
import Restake.Manager.Views

/-!
Steps over a state, as they are evaluated and as they are reasoned about. A step leads from the
states of one predicate to those of another, or to those of a third if it fails; a loop leads back
to the states that each of its rounds leads back to.
-/
namespace Restake.Steps

variable {ε σ α β : Type}

theorem pure_apply (a : α) (s : σ) : (pure a : EStateM ε σ α) s = .ok a s := rfl

theorem throw_apply (e : ε) (s : σ) : (throw e : EStateM ε σ α) s = .error e s := rfl

theorem get_apply (s : σ) : (get : EStateM ε σ σ) s = .ok s s := rfl

theorem set_apply (t s : σ) : (set t : EStateM ε σ PUnit) s = .ok ⟨⟩ t := rfl

theorem modify_apply (f : σ → σ) (s : σ) : (modify f : EStateM ε σ PUnit) s = .ok ⟨⟩ (f s) := rfl

theorem bind_apply (x : EStateM ε σ α) (f : α → EStateM ε σ β) (s : σ) :
    (x >>= f) s = match x s with
      | .ok a s' => f a s'
      | .error e s' => .error e s' := rfl

theorem map_apply (f : α → β) (x : EStateM ε σ α) (s : σ) :
    (f <$> x) s = match x s with
      | .ok a s' => .ok (f a) s'
      | .error e s' => .error e s' := rfl

theorem ofExcept_apply (x : Except ε α) (s : σ) :
    (MonadExcept.ofExcept x : EStateM ε σ α) s = match x with
      | .ok a => .ok a s
      | .error e => .error e s := by
  cases x <;> rfl

theorem if_apply (c : Prop) [Decidable c] (x y : EStateM ε σ α) (s : σ) :
    (if c then x else y) s = if c then x s else y s := by
  split <;> rfl

theorem bind_eq_ok {x : EStateM ε σ α} {f : α → EStateM ε σ β} {s t : σ} {b : β} :
    (x >>= f) s = .ok b t ↔ ∃ a r, x s = .ok a r ∧ f a r = .ok b t := by
  rw [bind_apply]
  cases x s with
  | ok a r =>
    constructor
    · exact fun h => ⟨a, r, rfl, h⟩
    · intro hrun
      rcases hrun with ⟨_, _, h, hf⟩
      cases h
      exact hf
  | error e r => simp

theorem bind_eq_error {x : EStateM ε σ α} {f : α → EStateM ε σ β} {s t : σ} {e : ε} :
    (x >>= f) s = .error e t ↔
      x s = .error e t ∨ ∃ a r, x s = .ok a r ∧ f a r = .error e t := by
  rw [bind_apply]
  cases x s with
  | ok a r =>
    constructor
    · exact fun h => .inr ⟨a, r, rfl, h⟩
    · intro hrun
      rcases hrun with h | ⟨_, _, h, hf⟩
      · cases h
      · cases h
        exact hf
  | error e' r => simp

theorem map_eq_ok {f : α → β} {x : EStateM ε σ α} {s t : σ} {b : β} :
    (f <$> x) s = .ok b t ↔ ∃ a, x s = .ok a t ∧ f a = b := by
  rw [map_apply]
  cases x s with
  | ok a r =>
    simp only [EStateM.Result.ok.injEq]
    constructor
    · rintro ⟨rfl, rfl⟩
      exact ⟨a, ⟨rfl, rfl⟩, rfl⟩
    · rintro ⟨_, ⟨rfl, rfl⟩, rfl⟩
      exact ⟨rfl, rfl⟩
  | error e r => simp

theorem map_eq_error {f : α → β} {x : EStateM ε σ α} {s t : σ} {e : ε} :
    (f <$> x) s = .error e t ↔ x s = .error e t := by
  rw [map_apply]
  cases x s <;> simp

theorem get_bind_apply (f : σ → EStateM ε σ β) (s : σ) : (get >>= f) s = f s s := rfl

theorem throw_bind_apply (e : ε) (f : α → EStateM ε σ β) (s : σ) :
    ((throw e : EStateM ε σ α) >>= f) s = .error e s := rfl

theorem ofExcept_bind_apply (a : α) (f : α → EStateM ε σ β) (s : σ) :
    (MonadExcept.ofExcept (.ok a : Except ε α) >>= f) s = f a s := rfl

theorem ofExcept_eq_ok {x : Except ε α} {s t : σ} {a : α} :
    (MonadExcept.ofExcept x : EStateM ε σ α) s = .ok a t ↔ x = .ok a ∧ s = t := by
  rw [ofExcept_apply]
  cases x <;> simp

theorem unless_throw_eq_ok {c : Prop} [Decidable c] {e : ε} {x : Except ε α} {a : α} :
    (do unless c do throw e
        x) = .ok a ↔ c ∧ x = .ok a := by
  by_cases hc : c
  · rw [if_pos hc]
    exact ⟨fun h => ⟨hc, h⟩, fun h => h.2⟩
  · rw [if_neg hc]
    exact ⟨nofun, fun h => absurd h.1 hc⟩

/-- How a step ends: in `Q`, or in `E` if it fails. -/
def Ends (r : EStateM.Result ε σ α) (Q : α → σ → Prop) (E : σ → Prop) : Prop :=
  match r with
  | .ok a s => Q a s
  | .error _ s => E s

theorem Ends.weaken {r : EStateM.Result ε σ α} {Q Q' : α → σ → Prop} {E E' : σ → Prop}
    (h : Ends r Q E) (hQ : ∀ a t, Q a t → Q' a t) (hE : ∀ t, E t → E' t) : Ends r Q' E' := by
  cases r with
  | ok a t => exact hQ a t h
  | error e t => exact hE t h

/-- From the states of `P` the step goes through to `Q`, or it fails in `E`. -/
def Leads (P : σ → Prop) (x : EStateM ε σ α) (Q : α → σ → Prop) (E : σ → Prop) : Prop :=
  ∀ s, P s → Ends (x s) Q E

namespace Leads

variable {P R : σ → Prop} {x : EStateM ε σ α} {Q : α → σ → Prop} {E : σ → Prop}

theorem of_ok (h : Leads P x Q E) {s t : σ} {a : α} (hs : P s) (hx : x s = .ok a t) : Q a t := by
  have hends := h s hs
  rwa [hx] at hends

theorem of_error (h : Leads P x Q E) {s t : σ} {e : ε} (hs : P s) (hx : x s = .error e t) :
    E t := by
  have hends := h s hs
  rwa [hx] at hends

theorem weaken (h : Leads P x Q E) {P' : σ → Prop} {Q' : α → σ → Prop} {E' : σ → Prop}
    (hP : ∀ s, P' s → P s) (hQ : ∀ a t, Q a t → Q' a t) (hE : ∀ t, E t → E' t) :
    Leads P' x Q' E' := by
  intro s hs
  cases hr : x s with
  | ok a t => exact hQ a t (h.of_ok (hP s hs) hr)
  | error e t => exact hE t (h.of_error (hP s hs) hr)

/-- What does not depend on the state holds after any step if it held before. -/
theorem const (C : Prop) (x : EStateM ε σ α) : Leads (fun _ => C) x (fun _ _ => C) fun _ => C := by
  intro s hs
  cases x s <;> exact hs

theorem throw_bind {e : ε} {f : α → EStateM ε σ β} {Q : β → σ → Prop} (h : ∀ s, P s → E s) :
    Leads P (throw e >>= f) Q E := h

theorem pure {a : α} (h : ∀ s, P s → Q a s) : Leads P (pure a : EStateM ε σ α) Q E := h

theorem throw {e : ε} (h : ∀ s, P s → E s) : Leads P (throw e : EStateM ε σ α) Q E := h

theorem modify {f : σ → σ} {Q : PUnit → σ → Prop} (h : ∀ s, P s → Q ⟨⟩ (f s)) :
    Leads P (modify f : EStateM ε σ PUnit) Q E := h

theorem ofExcept {y : Except ε α} (hok : ∀ a s, P s → y = .ok a → Q a s) (herr : ∀ s, P s → E s) :
    Leads P (MonadExcept.ofExcept y : EStateM ε σ α) Q E := by
  intro s hs
  cases y with
  | ok a => exact hok a s hs rfl
  | error e => exact herr s hs

theorem bind {M : α → σ → Prop} {f : α → EStateM ε σ β} {Q : β → σ → Prop} (hx : Leads P x M E)
    (hf : ∀ a, Leads (M a) (f a) Q E) : Leads P (x >>= f) Q E := by
  intro s hs
  rw [bind_apply]
  cases hr : x s with
  | ok a t => exact hf a t (hx.of_ok hs hr)
  | error e t => exact hx.of_error hs hr

theorem map {f : α → β} {Q : β → σ → Prop} (h : Leads P x (fun a => Q (f a)) E) :
    Leads P (f <$> x) Q E := by
  intro s hs
  rw [map_apply]
  cases hr : x s with
  | ok a t => exact h.of_ok hs hr
  | error e t => exact h.of_error hs hr

/-- What is read off the state may be used in what follows. -/
theorem get_bind {f : σ → EStateM ε σ β} {Q : β → σ → Prop}
    (h : ∀ s, P s → Leads (s = ·) (f s) Q E) : Leads P (get >>= f) Q E :=
  fun s hs => h s hs s rfl

theorem get_bind_eq {f : σ → EStateM ε σ β} {Q : β → σ → Prop} {s : σ}
    (h : Leads (s = ·) (f s) Q E) : Leads (s = ·) (get >>= f) Q E := by
  apply get_bind
  intro t ht
  subst t
  exact h

theorem read_bind {f : σ → EStateM ε σ β} {Q : β → σ → Prop} (h : ∀ s, Leads P (f s) Q E) :
    Leads P (get >>= f) Q E :=
  fun s hs => h s s hs

theorem ite {c : Prop} [Decidable c] {y : EStateM ε σ α} (hx : c → Leads P x Q E)
    (hy : ¬c → Leads P y Q E) : Leads P (if c then x else y) Q E := by
  split
  · exact hx (by assumption)
  · exact hy (by assumption)

theorem forM {I : σ → Prop} {f : α → EStateM ε σ PUnit} {l : List α}
    (h : ∀ a ∈ l, Leads I (f a) (fun _ => I) E) : Leads I (l.forM f) (fun _ => I) E := by
  induction l with
  | nil => exact pure fun _ hs => hs
  | cons a l ih =>
    exact bind (h a List.mem_cons_self) fun _ => ih fun b hb => h b (List.mem_cons_of_mem a hb)

theorem mapM {I : σ → Prop} {f : α → EStateM ε σ β} {l : List α}
    (h : ∀ a ∈ l, Leads I (f a) (fun _ => I) E) : Leads I (l.mapM f) (fun _ => I) E := by
  induction l with
  | nil => exact pure fun _ hs => hs
  | cons a l ih =>
    rw [List.mapM_cons]
    exact bind (h a List.mem_cons_self) fun _ =>
      bind (ih fun b hb => h b (List.mem_cons_of_mem a hb)) fun _ => pure fun _ hs => hs

/-- What one round of a loop brings about, and no round undoes, holds at its end. -/
theorem forM_of_mem {I R : σ → Prop} {f : α → EStateM ε σ PUnit} {l : List α} {a : α} (ha : a ∈ l)
    (hbefore : ∀ b ∈ l, Leads I (f b) (fun _ => I) E) (hround : Leads I (f a) (fun _ => R) E)
    (hafter : ∀ b ∈ l, Leads R (f b) (fun _ => R) E) : Leads I (l.forM f) (fun _ => R) E := by
  induction l with
  | nil => cases ha
  | cons b l ih =>
    have hrest : ∀ c ∈ l, c ∈ b :: l := fun c hc => List.mem_cons_of_mem b hc
    rcases List.mem_cons.1 ha with rfl | ha
    · exact bind hround fun _ => forM fun c hc => hafter c (hrest c hc)
    · exact bind (hbefore b List.mem_cons_self) fun _ => ih ha
        (fun c hc => hbefore c (hrest c hc)) fun c hc => hafter c (hrest c hc)

/-- One round of a loop leads from `I` to `R`; the rounds before it keep `I` and those after it `R`. -/
theorem mapM_split {I R : σ → Prop} {f : α → EStateM ε σ β} {before rest : List α} {a : α}
    (hbefore : ∀ b ∈ before, Leads I (f b) (fun _ => I) E) (hround : Leads I (f a) (fun _ => R) E)
    (hafter : ∀ b ∈ rest, Leads R (f b) (fun _ => R) E) :
    Leads I ((before ++ a :: rest).mapM f) (fun _ => R) E := by
  induction before with
  | nil =>
    rw [List.nil_append, List.mapM_cons]
    exact bind hround fun _ => bind (mapM hafter) fun _ => pure fun _ hs => hs
  | cons b before ih =>
    rw [List.cons_append, List.mapM_cons]
    exact bind (hbefore b List.mem_cons_self) fun _ =>
      bind (ih fun c hc => hbefore c (List.mem_cons_of_mem b hc)) fun _ => pure fun _ hs => hs

theorem mapM_of_mem {I R : σ → Prop} {f : α → EStateM ε σ β} {l : List α} {a : α} (ha : a ∈ l)
    (hbefore : ∀ b ∈ l, Leads I (f b) (fun _ => I) E) (hround : Leads I (f a) (fun _ => R) E)
    (hafter : ∀ b ∈ l, Leads R (f b) (fun _ => R) E) : Leads I (l.mapM f) (fun _ => R) E := by
  obtain ⟨before, rest, rfl⟩ := List.append_of_mem ha
  refine mapM_split (fun b hb => hbefore b ?_) hround fun b hb => hafter b ?_
  · exact List.mem_append_left _ hb
  · exact List.mem_append_right _ (List.mem_cons_of_mem a hb)

end Leads

section Loops

variable {f : α → EStateM ε σ PUnit} (can : σ → α → Prop) (write : σ → α → σ)

/-- If each round goes through just where it can and then makes its write, a loop goes through just
where each round can in what the rounds before it wrote. -/
theorem ends_forM (ready : σ → List α → Prop)
    (hround : ∀ s a, Ends (f a s) (fun _ t => can s a ∧ t = write s a) fun _ => ¬can s a)
    (hnil : ∀ s, ready s [])
    (hcons : ∀ s a l, ready s (a :: l) ↔ can s a ∧ ready (write s a) l) (s : σ) (l : List α) :
    Ends (l.forM f s) (fun _ t => ready s l ∧ t = l.foldl write s) fun _ => ¬ready s l := by
  induction l generalizing s with
  | nil => exact ⟨hnil s, rfl⟩
  | cons a l ih =>
    show Ends ((f a >>= fun _ => l.forM f) s) _ _
    rw [bind_apply, hcons]
    have ha := hround s a
    cases hrun : f a s with
    | error e t =>
      rw [hrun] at ha
      exact fun hready => ha hready.1
    | ok _ t =>
      rw [hrun] at ha
      obtain ⟨hcan, rfl⟩ := ha
      have hrest := ih (write s a)
      dsimp only
      cases hloop : l.forM f (write s a) with
      | error e t =>
        rw [hloop] at hrest
        exact fun hready => hrest hready.2
      | ok _ t =>
        rw [hloop] at hrest
        exact ⟨⟨hcan, hrest.1⟩, hrest.2⟩

/-- Where a round shuts out the rounds that clash with it and no others, a loop goes through just
where no two rounds clash and each can from the start. -/
theorem ends_forM_pairwise (R : α → α → Prop)
    (hround : ∀ s a, Ends (f a s) (fun _ t => can s a ∧ t = write s a) fun _ => ¬can s a)
    (hwrite : ∀ s a, can s a → ∀ b, can (write s a) b ↔ R a b ∧ can s b) (s : σ) (l : List α) :
    Ends (l.forM f s) (fun _ t => (l.Pairwise R ∧ ∀ a ∈ l, can s a) ∧ t = l.foldl write s)
      fun _ => ¬(l.Pairwise R ∧ ∀ a ∈ l, can s a) := by
  refine ends_forM can write (fun s l => l.Pairwise R ∧ ∀ a ∈ l, can s a) hround
    (fun _ => ⟨.nil, nofun⟩) (fun s a l => ?_) s l
  rw [List.pairwise_cons, List.forall_mem_cons]
  constructor
  · rintro ⟨⟨hclash, hrest⟩, hcan, hall⟩
    exact ⟨hcan, hrest, fun b hb => (hwrite s a hcan b).2 ⟨hclash b hb, hall b hb⟩⟩
  · rintro ⟨hcan, hrest, hall⟩
    have hboth (b) (hb : b ∈ l) := (hwrite s a hcan b).1 (hall b hb)
    exact ⟨⟨fun b hb => (hboth b hb).1, hrest⟩, hcan, fun b hb => (hboth b hb).2⟩

end Loops

end Restake.Steps
