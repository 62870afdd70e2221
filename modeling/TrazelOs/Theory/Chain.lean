import Mathlib.Data.List.Nodup
import Mathlib.Data.List.Perm.Subperm
import Mathlib.Tactic.Common

/-! # Chains

A partial function `next` leads from a node to its successor until the node `stop` is reached. A
chain visits no node twice, so over finitely many nodes it is as short as they are few. -/

namespace Theory

variable {α : Type*} {next : α → Option α} {stop : α}

/-- The nodes before `stop` on the way from a node. -/
inductive Chain (next : α → Option α) (stop : α) : α → List α → Prop
  | stop : Chain next stop stop []
  | step {a b : α} {l : List α} : a ≠ stop → next a = some b → Chain next stop b l →
    Chain next stop a (a :: l)

namespace Chain
variable {a b : α} {l l' : List α}

theorem unique (h : Chain next stop a l) (h' : Chain next stop a l') : l = l' := by
  induction h generalizing l' with
  | stop =>
    cases h' with
    | stop => rfl
    | step hne _ _ => exact absurd rfl hne
  | step hne hnext _ ih =>
    cases h' with
    | stop => exact absurd rfl hne
    | step _ hnext' h' =>
      rw [hnext] at hnext'
      cases hnext'
      rw [ih h']

/-- The rest of the chain from one of its nodes. -/
theorem drop (h : Chain next stop a l) (hb : b ∈ l) :
    ∃ l₁ l₂, l = l₁ ++ b :: l₂ ∧ Chain next stop b (b :: l₂) := by
  induction h with
  | stop => cases hb
  | @step a c l hne hnext h ih =>
    rcases List.mem_cons.mp hb with rfl | hb
    · exact ⟨[], l, rfl, .step hne hnext h⟩
    · obtain ⟨l₁, l₂, rfl, h'⟩ := ih hb
      exact ⟨a :: l₁, l₂, rfl, h'⟩

theorem nodup (h : Chain next stop a l) : l.Nodup := by
  induction h with
  | stop => exact List.nodup_nil
  | @step a c l hne hnext h ih =>
    refine List.nodup_cons.mpr ⟨fun ha => ?_, ih⟩
    -- A chain that comes back to `a` would be its own proper part.
    obtain ⟨l₁, l₂, rfl, h'⟩ := h.drop ha
    have heq := congrArg List.length (unique h' (.step hne hnext h))
    simp only [List.length_cons, List.length_append] at heq
    omega

theorem length_le {n : Nat} {next : Nat → Option Nat} {stop a : Nat} {l : List Nat}
    (h : Chain next stop a l) (hn : ∀ b ∈ l, b < n) : l.length ≤ n := by
  have hsub : l ⊆ List.range n := fun b hb => List.mem_range.mpr (hn b hb)
  have hle := (h.nodup.subperm hsub).length_le
  rwa [List.length_range] at hle

end Chain

end Theory
