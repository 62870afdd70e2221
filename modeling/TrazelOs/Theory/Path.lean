import Mathlib.Data.List.Basic
import Mathlib.Data.List.Infix
import Mathlib.Tactic.Common

/-! # Paths through a graph with labelled edges

`follow child a p` is the node reached from `a` along the labels `p`, if every edge on the way
exists. The lemmas say when a path leads to the same node in two graphs: `follow_congr` compares
the edges on the path, and `follow_update` changes one edge of a graph in which no two paths lead
to one node. -/

namespace Theory

variable {α ι : Type*} {child child' : α → ι → Option α} {a b : α} {i : ι} {p q : List ι}

/-- The node reached from `a` along the labels `p`. -/
def follow (child : α → ι → Option α) : α → List ι → Option α
  | a, [] => some a
  | a, i :: p => (child a i).bind fun b => follow child b p

theorem follow_append : follow child a (p ++ q) = (follow child a p).bind (follow child · q) := by
  induction p generalizing a with
  | nil => rfl
  | cons i p ih =>
    simp only [List.cons_append, follow]
    cases child a i with
    | none => rfl
    | some b => exact ih

theorem follow_concat : follow child a (p ++ [i]) = (follow child a p).bind (child · i) := by
  rw [follow_append]
  cases follow child a p with
  | none => rfl
  | some b =>
    change (child b i).bind some = child b i
    cases child b i <;> rfl

theorem follow_eq_none_of_part (h : p <+: q) (hp : follow child a p = none) :
    follow child a q = none := by
  obtain ⟨r, rfl⟩ := h
  rw [follow_append, hp]
  rfl

theorem follow_congr
    (h : ∀ p i b, p ++ [i] <+: q → follow child a p = some b → child' b i = child b i) :
    follow child' a q = follow child a q := by
  induction q using List.reverseRecOn with
  | nil => rfl
  | append_singleton q i ih =>
    have hq : follow child' a q = follow child a q :=
      ih fun p j b hp hb => h p j b (hp.trans (List.prefix_append q [i])) hb
    rw [follow_concat, follow_concat, hq]
    cases hb : follow child a q with
    | none => rfl
    | some b => exact h q i b (List.prefix_refl _) hb

/-- No two of the paths lead to one node. -/
def UniquePaths (Valid : List ι → Prop) (child : α → ι → Option α) (a : α) : Prop :=
  ∀ p q b, Valid p → Valid q → follow child a p = some b → follow child a q = some b → p = q

/-- Changing the edge `i` of the node at the end of `p` changes only paths through that edge. -/
theorem follow_update {Valid : List ι → Prop} (hu : UniquePaths Valid child a) (hp : Valid p)
    (hb : follow child a p = some b) (hq : ∀ r j, r ++ [j] <+: q → Valid r)
    (hsame : ∀ r j c, r ++ [j] <+: q → follow child a r = some c → c ≠ b ∨ j ≠ i →
      child' c j = child c j)
    (hnot : ¬p ++ [i] <+: q) : follow child' a q = follow child a q := by
  refine follow_congr fun r j c hr hc => hsame r j c hr hc ?_
  by_contra hcon
  obtain ⟨rfl, rfl⟩ : c = b ∧ j = i := by tauto
  cases hu r p c (hq r j hr) hp hc hb
  exact hnot hr

end Theory
