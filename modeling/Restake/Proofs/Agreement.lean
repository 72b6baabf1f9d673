import Restake.Proofs.Steps

/-!
Two steps taken side by side. They agree if from states that are related they answer the same, or
fail for the same reason, and leave states that are related again. Loops whose rounds agree agree.
-/
namespace Restake.Steps

variable {ε σ α β : Type}

/-- How two steps end that agree: with one answer in `Q`, or with one failure in `E`. -/
def EndAlike (r r' : EStateM.Result ε σ α) (Q : α → σ → σ → Prop) (E : σ → σ → Prop) : Prop :=
  match r, r' with
  | .ok a s, .ok a' s' => a' = a ∧ Q a s s'
  | .error e s, .error e' s' => e' = e ∧ E s s'
  | _, _ => False

def Agree (R : σ → σ → Prop) (x y : EStateM ε σ α) (Q : α → σ → σ → Prop) (E : σ → σ → Prop) :
    Prop :=
  ∀ s s', R s s' → EndAlike (x s) (y s') Q E

theorem EndAlike.cases {r r' : EStateM.Result ε σ α} {Q : α → σ → σ → Prop} {E : σ → σ → Prop}
    (h : EndAlike r r' Q E) :
    (∃ a s s', r = .ok a s ∧ r' = .ok a s' ∧ Q a s s') ∨
      ∃ e s s', r = .error e s ∧ r' = .error e s' ∧ E s s' := by
  cases r with
  | ok a s =>
    cases r' with
    | ok a' s' =>
      obtain ⟨rfl, hQ⟩ := h
      exact .inl ⟨_, s, s', rfl, rfl, hQ⟩
    | error e' s' => exact h.elim
  | error e s =>
    cases r' with
    | ok a' s' => exact h.elim
    | error e' s' =>
      obtain ⟨rfl, hE⟩ := h
      exact .inr ⟨_, s, s', rfl, rfl, hE⟩

namespace Agree

variable {R : σ → σ → Prop} {x y : EStateM ε σ α} {Q : α → σ → σ → Prop} {E : σ → σ → Prop}

theorem weaken (h : Agree R x y Q E) {R' : σ → σ → Prop} {Q' : α → σ → σ → Prop}
    {E' : σ → σ → Prop} (hR : ∀ s s', R' s s' → R s s') (hQ : ∀ a s s', Q a s s' → Q' a s s')
    (hE : ∀ s s', E s s' → E' s s') : Agree R' x y Q' E' := by
  intro s s' hs
  rcases (h s s' (hR s s' hs)).cases with ⟨a, t, t', hx, hy, hend⟩ | ⟨e, t, t', hx, hy, hend⟩
  · rw [hx, hy]
    exact ⟨rfl, hQ a t t' hend⟩
  · rw [hx, hy]
    exact ⟨rfl, hE t t' hend⟩

theorem throw_bind {e : ε} {f g : α → EStateM ε σ β} {Q : β → σ → σ → Prop}
    (h : ∀ s s', R s s' → E s s') : Agree R (throw e >>= f) (throw e >>= g) Q E :=
  fun s s' hs => ⟨rfl, h s s' hs⟩

theorem pure {a : α} (h : ∀ s s', R s s' → Q a s s') :
    Agree R (pure a : EStateM ε σ α) (pure a) Q E :=
  fun s s' hs => ⟨rfl, h s s' hs⟩

theorem throw {e : ε} (h : ∀ s s', R s s' → E s s') :
    Agree R (throw e : EStateM ε σ α) (throw e) Q E :=
  fun s s' hs => ⟨rfl, h s s' hs⟩

theorem modify {f g : σ → σ} {Q : PUnit → σ → σ → Prop} (h : ∀ s s', R s s' → Q ⟨⟩ (f s) (g s')) :
    Agree R (modify f : EStateM ε σ PUnit) (modify g) Q E :=
  fun s s' hs => ⟨rfl, h s s' hs⟩

theorem bind {M : α → σ → σ → Prop} {f g : α → EStateM ε σ β} {Q : β → σ → σ → Prop}
    (h : Agree R x y M E) (hfg : ∀ a, Agree (M a) (f a) (g a) Q E) :
    Agree R (x >>= f) (y >>= g) Q E := by
  intro s s' hs
  rw [bind_apply, bind_apply]
  rcases (h s s' hs).cases with ⟨a, t, t', hx, hy, hend⟩ | ⟨e, t, t', hx, hy, hend⟩
  · rw [hx, hy]
    exact hfg a t t' hend
  · rw [hx, hy]
    exact ⟨rfl, hend⟩

theorem map {f : α → β} {Q : β → σ → σ → Prop} (h : Agree R x y (fun a => Q (f a)) E) :
    Agree R (f <$> x) (f <$> y) Q E := by
  intro s s' hs
  rw [map_apply, map_apply]
  rcases (h s s' hs).cases with ⟨a, t, t', hx, hy, hend⟩ | ⟨e, t, t', hx, hy, hend⟩
  · rw [hx, hy]
    exact ⟨rfl, hend⟩
  · rw [hx, hy]
    exact ⟨rfl, hend⟩

/-- What is known apart from the states may be used. -/
theorem given {P : Prop} (h : P → Agree R x y Q E) : Agree (fun s s' => P ∧ R s s') x y Q E :=
  fun s s' hs => h hs.1 s s' hs.2

theorem get_bind {f g : σ → EStateM ε σ β} {Q : β → σ → σ → Prop}
    (h : ∀ s s', R s s' → Agree (fun t t' => s = t ∧ s' = t') (f s) (g s') Q E) :
    Agree R (get >>= f) (get >>= g) Q E :=
  fun s s' hs => h s s' hs s s' ⟨rfl, rfl⟩

theorem read_bind {f g : σ → EStateM ε σ β} {Q : β → σ → σ → Prop}
    (h : ∀ s s', R s s' → Agree R (f s) (g s') Q E) : Agree R (get >>= f) (get >>= g) Q E :=
  fun s s' hs => h s s' hs s s' hs

theorem ite {c : Prop} [Decidable c] {x' y' : EStateM ε σ α} (hpos : c → Agree R x y Q E)
    (hneg : ¬c → Agree R x' y' Q E) :
    Agree R (if c then x else x') (if c then y else y') Q E := by
  by_cases hc : c
  · rw [if_pos hc, if_pos hc]
    exact hpos hc
  · rw [if_neg hc, if_neg hc]
    exact hneg hc

theorem ofExcept {z : Except ε α} (hok : ∀ a s s', z = .ok a → R s s' → Q a s s')
    (herr : ∀ s s', R s s' → E s s') :
    Agree R (MonadExcept.ofExcept z : EStateM ε σ α) (MonadExcept.ofExcept z) Q E := by
  intro s s' hs
  rw [ofExcept_apply, ofExcept_apply]
  cases z with
  | ok a => exact ⟨rfl, hok a s s' rfl hs⟩
  | error e => exact ⟨rfl, herr s s' hs⟩

theorem forM {f g : α → EStateM ε σ PUnit} {l : List α}
    (h : ∀ a ∈ l, Agree R (f a) (g a) (fun _ => R) E) :
    Agree R (l.forM f) (l.forM g) (fun _ => R) E := by
  induction l with
  | nil => exact pure fun _ _ hs => hs
  | cons a l ih =>
    exact bind (h a List.mem_cons_self) fun _ => ih fun b hb => h b (List.mem_cons_of_mem a hb)

theorem mapM {f g : α → EStateM ε σ β} {l : List α}
    (h : ∀ a ∈ l, Agree R (f a) (g a) (fun _ => R) E) :
    Agree R (l.mapM f) (l.mapM g) (fun _ => R) E := by
  induction l with
  | nil => exact pure fun _ _ hs => hs
  | cons a l ih =>
    rw [List.mapM_cons, List.mapM_cons]
    exact bind (h a List.mem_cons_self) fun _ =>
      bind (ih fun b hb => h b (List.mem_cons_of_mem a hb)) fun _ => pure fun _ _ hs => hs

end Agree

end Restake.Steps
