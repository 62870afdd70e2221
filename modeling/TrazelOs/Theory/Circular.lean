import Mathlib.Data.List.Range
import Mathlib.Data.List.ReduceOption
import Mathlib.Logic.Function.Basic
import Mathlib.Tactic.Common

/-! # Circular buffers

A buffer of `size` slots with the position to read from and the one to write to; it is empty when the
two are the same, so one slot stays free. `circular` is what it holds, oldest first. What it
implements is a bounded queue: `QueueOp.step` says how that answers, `runOps_simulation` carries a
relation between two machines along every sequence of operations. -/

namespace Theory

variable {α : Type*}

/-- The elements between the position to read from and the one to write to. -/
def circular (size : Nat) (buffer : Nat → α) (r w : Nat) : List α :=
  (List.range ((w + size - r) % size)).map fun i => buffer ((r + i) % size)

variable {size r w i : Nat} {buffer : Nat → α} {x : α}

theorem mod_of_lt_two_mul (h : i < 2 * size) : i % size = if i < size then i else i - size := by
  split
  · exact Nat.mod_eq_of_lt ‹_›
  · rw [Nat.mod_eq_sub_mod (by omega), Nat.mod_eq_of_lt (by omega)]

section
variable (hr : r < size) (hw : w < size)
include hr hw

theorem length_circular : (circular size buffer r w).length = if r ≤ w then w - r else w + size - r := by
  rw [circular, List.length_map, List.length_range, mod_of_lt_two_mul (by omega)]
  split <;> split <;> omega

theorem length_circular_lt : (circular size buffer r w).length < size := by
  rw [length_circular hr hw]
  split <;> omega

theorem circular_eq_nil_iff : circular size buffer r w = [] ↔ r = w := by
  rw [← List.length_eq_zero_iff, length_circular hr hw]
  split <;> omega

theorem circular_push (hfull : (w + 1) % size ≠ r) :
    circular size (Function.update buffer w x) r ((w + 1) % size) =
      circular size buffer r w ++ [x] := by
  have hnext : (w + 1) % size < size := Nat.mod_lt _ (by omega)
  have hwrap : (w + 1) % size = if w + 1 < size then w + 1 else w + 1 - size :=
    mod_of_lt_two_mul (by omega)
  have hcount : ((w + 1) % size + size - r) % size = (w + size - r) % size + 1 := by
    rw [mod_of_lt_two_mul (by omega : (w + 1) % size + size - r < 2 * size),
      mod_of_lt_two_mul (by omega : w + size - r < 2 * size)]
    split at hwrap <;> split <;> split <;> omega
  have hlast : (r + (w + size - r) % size) % size = w := by
    rw [mod_of_lt_two_mul (by omega : w + size - r < 2 * size)]
    split
    · rw [mod_of_lt_two_mul (by omega)]
      split <;> omega
    · rw [mod_of_lt_two_mul (by omega)]
      split <;> omega
  rw [circular, hcount, List.range_succ, List.map_append, List.map_singleton, hlast,
    Function.update_self, circular]
  congr 1
  refine List.map_congr_left fun i hi => Function.update_of_ne ?_ _ _
  have hlt := List.mem_range.mp hi
  rw [mod_of_lt_two_mul (by omega : w + size - r < 2 * size)] at hlt
  split at hlt
  all_goals
    rw [mod_of_lt_two_mul (by omega)]
    split <;> omega

theorem circular_pop (hne : r ≠ w) :
    circular size buffer r w = buffer r :: circular size buffer ((r + 1) % size) w := by
  have hwrap : (r + 1) % size = if r + 1 < size then r + 1 else r + 1 - size :=
    mod_of_lt_two_mul (by omega)
  have hnext : (r + 1) % size < size := Nat.mod_lt _ (by omega)
  have hcount : (w + size - r) % size = (w + size - (r + 1) % size) % size + 1 := by
    rw [mod_of_lt_two_mul (by omega : w + size - r < 2 * size),
      mod_of_lt_two_mul (by omega : w + size - (r + 1) % size < 2 * size)]
    split at hwrap <;> split <;> split <;> omega
  rw [circular, hcount, List.range_succ_eq_map, List.map_cons, Nat.add_zero, Nat.mod_eq_of_lt hr,
    List.map_map, circular]
  congr 1
  refine List.map_congr_left fun i _ => ?_
  rw [Function.comp_apply, Nat.mod_add_mod, Nat.add_right_comm, Nat.add_assoc]

end

/-! ## Runs -/

section Run
variable {ι ρ σ τ : Type*}

/-- The replies to a sequence of operations and the state after them. -/
def runOps (step : ι → σ → ρ × σ) : List ι → σ → List ρ × σ
  | [], s => ([], s)
  | op :: ops, s =>
    ((step op s).1 :: (runOps step ops (step op s).2).1, (runOps step ops (step op s).2).2)

theorem runOps_simulation {step : ι → σ → ρ × σ} {step' : ι → τ → ρ × τ} {R : σ → τ → Prop}
    (hstep : ∀ op s t, R s t → (step op s).1 = (step' op t).1 ∧ R (step op s).2 (step' op t).2)
    {s : σ} {t : τ} (h : R s t) (ops : List ι) :
    (runOps step ops s).1 = (runOps step' ops t).1 ∧
      R (runOps step ops s).2 (runOps step' ops t).2 := by
  induction ops generalizing s t with
  | nil => exact ⟨rfl, h⟩
  | cons op ops ih =>
    obtain ⟨hreply, hrel⟩ := hstep op s t h
    obtain ⟨hreplies, hend⟩ := ih hrel
    exact ⟨congrArg₂ List.cons hreply hreplies, hend⟩

end Run

/-! ## Bounded queues -/

inductive QueueOp (α : Type*)
  | push (x : α)
  | pop
deriving DecidableEq

inductive QueueReply (α : Type*)
  | pushed (ok : Bool)
  | popped (x : Option α)
deriving DecidableEq

/-- A queue of at most `capacity` elements: a full one refuses what is pushed. -/
def QueueOp.step (capacity : Nat) : QueueOp α → List α → QueueReply α × List α
  | .push x, xs => if xs.length = capacity then (.pushed false, xs) else (.pushed true, xs ++ [x])
  | .pop, [] => (.popped none, [])
  | .pop, x :: xs => (.popped (some x), xs)

/-- The element that a push put into the queue. -/
def QueueOp.accepted : QueueOp α → QueueReply α → Option α
  | .push x, .pushed true => some x
  | _, _ => none

/-- The element that a pop took out of the queue. -/
def QueueReply.taken : QueueReply α → Option α
  | .popped x => x
  | .pushed _ => none

/-- What was put in is what was taken out, in this order, and what is left. -/
theorem queue_conserves (capacity : Nat) (ops : List (QueueOp α)) (xs : List α) :
    xs ++ (List.zipWith QueueOp.accepted ops (runOps (QueueOp.step capacity) ops xs).1).reduceOption =
      ((runOps (QueueOp.step capacity) ops xs).1.map QueueReply.taken).reduceOption ++
        (runOps (QueueOp.step capacity) ops xs).2 := by
  induction ops generalizing xs with
  | nil => exact List.append_nil xs
  | cons op ops ih =>
    cases op with
    | push x =>
      by_cases hfull : xs.length = capacity
      · simpa [runOps, QueueOp.step, hfull, QueueOp.accepted, QueueReply.taken] using ih xs
      · simpa [runOps, QueueOp.step, hfull, QueueOp.accepted, QueueReply.taken] using ih (xs ++ [x])
    | pop =>
      cases xs with
      | nil => simpa [runOps, QueueOp.step, QueueOp.accepted, QueueReply.taken] using ih []
      | cons x xs => simpa [runOps, QueueOp.step, QueueOp.accepted, QueueReply.taken] using ih xs

end Theory
