import Mathlib.Tactic.Common

/-! # Refinement of computations with errors by computations on a state

`Refines lift stop state x v post`: run from `state`, `x` returns only where `v` does, with a value and
a state that `post` relates to the value of `v`; its errors are those of `v`, and those of `stop`. The
rules follow the composition of the two computations. -/

namespace Theory

variable {ε ε' σ α β γ δ : Type}

def Refines (lift : ε → ε') (stop : ε' → Prop) (state : σ) (x : StateT σ (Except ε') α)
    (v : Except ε β) (post : β → α → σ → Prop) : Prop :=
  match x state with
  | .error e' => stop e' ∨ ∃ e, v = .error e ∧ e' = lift e
  | .ok r => ∃ b, v = .ok b ∧ post b r.1 r.2

namespace Refines

variable {lift : ε → ε'} {stop : ε' → Prop} {state state' : σ} {x : StateT σ (Except ε') α}
  {f : α → StateT σ (Except ε') γ} {v : Except ε β} {g : β → Except ε δ} {post : β → α → σ → Prop}
  {post' : δ → γ → σ → Prop} {a : α} {b : β}

theorem ok (h : x state = .ok (a, state')) (hpost : post b a state') :
    Refines lift stop state x (.ok b) post := by
  unfold Refines
  rw [h]
  exact ⟨b, rfl, hpost⟩

theorem error {e : ε} (h : x state = .error (lift e)) :
    Refines lift stop state x (.error e) post := by
  unfold Refines
  rw [h]
  exact .inr ⟨e, rfl, rfl⟩

theorem stopped {e : ε'} (h : x state = .error e) (hstop : stop e) :
    Refines lift stop state x v post := by
  unfold Refines
  rw [h]
  exact .inl hstop

theorem pure (h : post b a state) :
    Refines lift stop state (Pure.pure a : StateT σ (Except ε') α) (.ok b) post := ok rfl h

theorem bind (h : Refines lift stop state x v post)
    (hf : ∀ b a state', v = .ok b → post b a state' →
      Refines lift stop state' (f a) (g b) post') :
    Refines lift stop state (x >>= f) (v >>= g) post' := by
  unfold Refines at h
  cases hx : x state with
  | error e' =>
    have hbind : (x >>= f) state = .error e' := by
      change (x state >>= _) = _
      rw [hx]
      rfl
    rw [hx] at h
    obtain hstop | ⟨e, rfl, rfl⟩ := h
    · exact stopped hbind hstop
    · exact error hbind
  | ok r =>
    have hbind : (x >>= f) state = f r.1 r.2 := by
      change (x state >>= _) = _
      rw [hx]
      rfl
    rw [hx] at h
    obtain ⟨b, rfl, hpost⟩ := h
    have hrest := hf b r.1 r.2 rfl hpost
    change Refines lift stop state (x >>= f) (g b) post'
    unfold Refines at hrest ⊢
    rwa [hbind]

/-- A step that only the computation on the state makes. -/
theorem step {v : Except ε δ} (h : Refines lift stop state x (.ok b) post)
    (hf : ∀ a state', post b a state' → Refines lift stop state' (f a) v post') :
    Refines lift stop state (x >>= f) v post' :=
  bind (g := fun _ => v) h fun _ a state' heq hpost => hf a state' (Except.ok.inj heq ▸ hpost)

/-- A step that only the other computation makes, on its value. -/
theorem mapRight {g : β → δ} {post' : δ → α → σ → Prop} (h : Refines lift stop state x v post)
    (hpost : ∀ b a state', v = .ok b → post b a state' → post' (g b) a state') :
    Refines lift stop state x (v >>= fun b => Pure.pure (g b)) post' := by
  rw [← bind_pure x]
  exact bind h fun b a state' hv hp => pure (hpost b a state' hv hp)

theorem mono {post₁ : β → α → σ → Prop} (h : Refines lift stop state x v post)
    (hpost : ∀ b a state', v = .ok b → post b a state' → post₁ b a state') :
    Refines lift stop state x v post₁ := by
  unfold Refines at h ⊢
  cases hx : x state with
  | error e' =>
    rw [hx] at h
    exact h
  | ok r =>
    rw [hx] at h
    obtain ⟨b, hv, hp⟩ := h
    exact ⟨b, hv, hpost b r.1 r.2 hv hp⟩

theorem ite {c : Prop} [Decidable c] {x y : StateT σ (Except ε') α} {v w : Except ε β}
    (hpos : c → Refines lift stop state x v post) (hneg : ¬c → Refines lift stop state y w post) :
    Refines lift stop state (if c then x else y) (if c then v else w) post := by
  split
  · exact hpos ‹_›
  · exact hneg ‹_›

/-- Without other errors, `x` returns where `v` does. -/
theorem returns (h : Refines lift stop state x (.ok b) post) (hstop : ∀ e, ¬stop e) :
    ∃ a state', x state = .ok (a, state') ∧ post b a state' := by
  unfold Refines at h
  cases hx : x state with
  | error e' =>
    rw [hx] at h
    obtain he | ⟨_, he, -⟩ := h
    · exact absurd he (hstop e')
    · cases he
  | ok r =>
    rw [hx] at h
    obtain ⟨b', hb, hpost⟩ := h
    cases hb
    exact ⟨r.1, r.2, rfl, hpost⟩

theorem of_ok (h : Refines lift stop state x v post) (hx : x state = .ok (a, state')) :
    ∃ b, v = .ok b ∧ post b a state' := by
  unfold Refines at h
  rw [hx] at h
  exact h

theorem of_error {e' : ε'} (h : Refines lift stop state x v post) (hx : x state = .error e') :
    stop e' ∨ ∃ e, v = .error e ∧ e' = lift e := by
  unfold Refines at h
  rw [hx] at h
  exact h

end Refines

end Theory
