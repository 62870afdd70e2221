/-! # A terminal

A grid of cells with a cursor. A character goes to the cell of the cursor, which moves on, to the next
row after the last column. Below the last row there is no next one: all rows go up by one instead, and
the last one is blank. -/

namespace Theory

structure Terminal (α : Type) where
  row : Nat
  col : Nat
  cell : Nat → Nat → α

namespace Terminal

variable {α : Type} (rows cols : Nat) (blank : α)

/-- All rows go up. -/
def scroll (t : Terminal α) : Terminal α :=
  { t with cell := fun r c => if r + 1 < rows then t.cell (r + 1) c else blank }

/-- The start of the next row. -/
def newline (t : Terminal α) : Terminal α :=
  if t.row + 1 < rows then { t with row := t.row + 1, col := 0 }
  else { t.scroll rows blank with col := 0 }

/-- The cell of the cursor is replaced. -/
def place (a : α) (t : Terminal α) : Terminal α :=
  { t with cell := fun r c => if r = t.row ∧ c = t.col then a else t.cell r c }

/-- The next cell. -/
def advance (t : Terminal α) : Terminal α :=
  if t.col + 1 < cols then { t with col := t.col + 1 } else t.newline rows blank

/-- A character, or the end of a line. -/
inductive Input (α : Type)
  | char (a : α)
  | newline

def step (t : Terminal α) : Input α → Terminal α
  | .char a => (t.place a).advance rows cols blank
  | .newline => t.newline rows blank

/-- What has been written, from the first input on. -/
def run (t : Terminal α) (inputs : List (Input α)) : Terminal α :=
  inputs.foldl (step rows cols blank) t

theorem run_append {rows cols : Nat} {blank : α} {t : Terminal α} {inputs inputs' : List (Input α)} :
    t.run rows cols blank (inputs ++ inputs') =
      (t.run rows cols blank inputs).run rows cols blank inputs' := List.foldl_append

/-- Newlines before the last row only move the cursor. -/
theorem run_newlines {rows cols : Nat} {blank : α} {cell : Nat → Nat → α} {k : Nat} (hk : k < rows) :
    (⟨0, 0, cell⟩ : Terminal α).run rows cols blank (List.replicate k .newline) = ⟨k, 0, cell⟩ := by
  induction k with
  | zero => rfl
  | succ k ih =>
    rw [List.replicate_succ', run_append, ih (Nat.lt_of_succ_lt hk)]
    exact if_pos hk

end Terminal

end Theory
