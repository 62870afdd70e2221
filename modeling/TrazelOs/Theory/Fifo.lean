import Mathlib.Data.List.Basic
import Mathlib.Data.List.Nodup
import Mathlib.Tactic.Common

/-! # Intrusive queues

A queue of nodes that are linked through a `next` field, with pointers to its first and its last
node, both null when it is empty. `Fifo next nil head rear xs` says that the queue holds the nodes
`xs`, oldest first. Several queues may share the `next` field: `Fifo.congr` says that a queue only
depends on the fields of its own nodes, `Fifo.push` and `Fifo.pop` are the two operations. -/

namespace Theory

variable {α : Type*} {next next' : α → α} {nil head rear x : α} {xs : List α}

/-- The nodes `xs` are linked from `a` on and end in `nil`. -/
def Segment (next : α → α) (nil : α) : α → List α → Prop
  | a, [] => a = nil
  | a, x :: xs => a = x ∧ x ≠ nil ∧ Segment next nil (next x) xs

theorem Segment.congr {a : α} (h : Segment next nil a xs) (hnext : ∀ x ∈ xs, next' x = next x) :
    Segment next' nil a xs := by
  induction xs generalizing a with
  | nil => exact h
  | cons x xs ih =>
    obtain ⟨ha, hx, htail⟩ := h
    refine ⟨ha, hx, ?_⟩
    rw [hnext x (.head _)]
    exact ih htail fun y hy => hnext y (.tail _ hy)

theorem Segment.ne_nil {a : α} (h : Segment next nil a xs) (hx : x ∈ xs) : x ≠ nil := by
  induction xs generalizing a with
  | nil => cases hx
  | cons y xs ih =>
    rcases List.mem_cons.mp hx with rfl | hx
    · exact h.2.1
    · exact ih h.2.2 hx

/-- Link one more node behind the last one. -/
theorem Segment.concat {a : α} (h : Segment next nil a xs) (hx : x ≠ nil) (hend : next' x = nil)
    (hlast : xs ≠ [] → next' (xs.getLastD nil) = x)
    (hnext : ∀ y ∈ xs, y ≠ xs.getLastD nil → next' y = next y) (hnodup : xs.Nodup) :
    Segment next' nil (if xs = [] then x else a) (xs ++ [x]) := by
  induction xs generalizing a with
  | nil => exact ⟨rfl, hx, hend⟩
  | cons y ys ih =>
    obtain ⟨ha, hy, htail⟩ := h
    obtain ⟨hnotMem, hnodup⟩ := List.nodup_cons.mp hnodup
    rw [if_neg (List.cons_ne_nil y ys)]
    refine ⟨ha, hy, ?_⟩
    cases ys with
    | nil => exact ⟨hlast (List.cons_ne_nil y []), hx, hend⟩
    | cons z zs =>
      have hlastD : (y :: z :: zs).getLastD nil = (z :: zs).getLastD nil := by
        rw [List.getLastD_cons, List.getLastD_cons, List.getLastD_cons]
      rw [hlastD] at hlast hnext
      have hmem : (z :: zs).getLastD nil ∈ z :: zs := by
        rw [List.getLastD_cons]
        exact List.getLastD_mem_cons
      have hne : y ≠ (z :: zs).getLastD nil := fun h => hnotMem (h ▸ hmem)
      rw [hnext y (.head _) hne]
      have := ih htail (fun _ => hlast (by simp)) (fun w hw => hnext w (.tail _ hw)) hnodup
      rwa [if_neg (List.cons_ne_nil z zs)] at this

/-- The queue with the given pointers holds the nodes `xs`. -/
structure Fifo (next : α → α) (nil head rear : α) (xs : List α) : Prop where
  nodes : Segment next nil head xs
  last : rear = xs.getLastD nil
  nodup : xs.Nodup

/-- The links determine the nodes. -/
theorem Segment.unique {a : α} {ys : List α} (h : Segment next nil a xs)
    (h' : Segment next nil a ys) : xs = ys := by
  induction xs generalizing a ys with
  | nil =>
    cases ys with
    | nil => rfl
    | cons y ys =>
      obtain ⟨rfl, hy, -⟩ := h'
      exact absurd h hy
  | cons x xs ih =>
    obtain ⟨rfl, hx, h⟩ := h
    cases ys with
    | nil => exact absurd h' hx
    | cons y ys =>
      obtain ⟨rfl, -, h'⟩ := h'
      rw [ih h h']

namespace Fifo

theorem unique {ys : List α} (h : Fifo next nil head rear xs) (h' : Fifo next nil head rear ys) :
    xs = ys := h.nodes.unique h'.nodes

theorem empty : Fifo next nil nil nil [] := ⟨rfl, rfl, .nil⟩

theorem congr (h : Fifo next nil head rear xs) (hnext : ∀ x ∈ xs, next' x = next x) :
    Fifo next' nil head rear xs := ⟨h.nodes.congr hnext, h.last, h.nodup⟩

theorem head_eq_nil_iff (h : Fifo next nil head rear xs) : head = nil ↔ xs = [] := by
  cases xs with
  | nil => exact iff_of_true h.nodes rfl
  | cons x xs => exact iff_of_false (h.nodes.1.trans_ne h.nodes.2.1) (List.cons_ne_nil x xs)

theorem rear_mem (h : Fifo next nil head rear xs) (hne : xs ≠ []) : rear ∈ xs := by
  cases xs with
  | nil => exact absurd rfl hne
  | cons x xs =>
    rw [h.last, List.getLastD_cons]
    exact List.getLastD_mem_cons

theorem rear_eq_nil_iff (h : Fifo next nil head rear xs) : rear = nil ↔ xs = [] := by
  constructor
  · intro hrear
    by_contra hne
    exact h.nodes.ne_nil (h.rear_mem hne) hrear
  · rintro rfl
    exact h.last

/-- Put the node `x` at the end. -/
theorem push (h : Fifo next nil head rear xs) (hx : x ≠ nil) (hnotMem : x ∉ xs)
    (hend : next' x = nil) (hlast : rear ≠ nil → next' rear = x)
    (hnext : ∀ y ∈ xs, y ≠ rear → next' y = next y) :
    Fifo next' nil (if xs = [] then x else head) x (xs ++ [x]) := by
  refine ⟨h.nodes.concat hx hend (fun hne => ?_) (fun y hy hne => hnext y hy ?_) h.nodup, by simp,
    List.nodup_append.mpr ⟨h.nodup, List.nodup_singleton x, ?_⟩⟩
  · rw [← h.last]
    exact hlast (mt h.rear_eq_nil_iff.mp hne)
  · rwa [h.last]
  · rintro y hy z hz rfl
    rw [List.mem_singleton] at hz
    exact hnotMem (hz ▸ hy)

/-- Take the first node. -/
theorem pop [DecidableEq α] (h : Fifo next nil head rear (x :: xs))
    (hnext : ∀ y ∈ xs, next' y = next y) :
    head = x ∧ Fifo next' nil (next x) (if head = rear then nil else rear) xs := by
  obtain ⟨hhead, hx, htail⟩ := h.nodes
  obtain ⟨hnotMem, hnodup⟩ := List.nodup_cons.mp h.nodup
  refine ⟨hhead, htail.congr hnext, ?_, hnodup⟩
  rw [h.last]
  cases xs with
  | nil => exact if_pos hhead
  | cons y ys =>
    have hmem : (x :: y :: ys).getLastD nil ∈ y :: ys := by
      rw [List.getLastD_cons, List.getLastD_cons]
      exact List.getLastD_mem_cons
    have hne : head ≠ (x :: y :: ys).getLastD nil := fun h => hnotMem (hhead ▸ h ▸ hmem)
    rw [if_neg hne, List.getLastD_cons, List.getLastD_cons, List.getLastD_cons]

end Fifo

end Theory
