import TrazelOs.Verify.Intact

/-! # Which functions fail with an assertion of the process manager

Two assertions guard the invariants of the process manager: that the scheduler switches only away
from user mode, and that a process that exits has a parent. No function but the one that contains it
fails with such an assertion, as long as the memory managers do not. -/

namespace TrazelOs

variable {μ : Type}

/-- The assertion in `pm_scheduler_context_switch`. -/
def ring0Switch : Fault := .panic "Scheduler trying to context switch from ring0 process"

/-- The assertion in `pm_exit`. -/
def noParent : Fault := .panic "Process does not have a valid parent process"

namespace Exec

/-- The computation does not fail with `e`. -/
def Avoids (x : Exec α) (e : Fault) : Prop := x ≠ .error e

variable {e e' : Fault} {x y : Exec α}

@[simp] theorem avoids_error : Avoids (.error e' : Exec α) e ↔ e' ≠ e := by simp [Avoids]

@[simp] theorem avoids_throw : Avoids (throw e' : Exec α) e ↔ e' ≠ e := avoids_error

end Exec

/-- The memory managers do not fail with `e`. -/
structure MemoryManager.Avoids (M : MemoryManager μ) (e : Fault) : Prop where
  kmalloc : ∀ m size, (M.kmalloc m size).Avoids e
  kfree : ∀ m addr, (M.kfree m addr).Avoids e
  store : ∀ m buffer bytes, (M.store m buffer bytes).Avoids e
  userStore : ∀ m vaddr byte, (M.userStore m vaddr byte).Avoids e
  pmmAllocPage : ∀ m, (M.pmmAllocPage m).Avoids e
  pmmAllocPages : ∀ m count, (M.pmmAllocPages m count).Avoids e
  vmmCreateNewPagemap : ∀ m, (M.vmmCreateNewPagemap m).Avoids e
  vmmMapPage : ∀ m pagemap vaddr paddr flags, (M.vmmMapPage m pagemap vaddr paddr flags).Avoids e
  vmmClonePagemap : ∀ m pagemap, (M.vmmClonePagemap m pagemap).Avoids e
  vmmDeletePagemap : ∀ m pagemap, (M.vmmDeletePagemap m pagemap).Avoids e

section
variable {M : MemoryManager μ} {s : System μ} {p w f : Nat} {e : Fault}

open Exec

/-! ## Objects and queues -/

section Queues
variable (he : e ≠ .wild)
include he

end Queues

/-- One of the two assertions. -/
def Asserted (e : Fault) : Prop := e = ring0Switch ∨ e = noParent

theorem Asserted.wild (he : Asserted e) : e ≠ .wild := by rcases he with rfl | rfl <;> nofun

theorem Asserted.hang (he : Asserted e) : e ≠ .hang := by rcases he with rfl | rfl <;> nofun

section
variable (hM : M.Avoids e) (he : Asserted e)
include hM he

/-! ## Files -/

end

section Switch
variable {frame : InterruptInfo} (he : Asserted e)
include he

end Switch

end

end TrazelOs
