import TrazelOs.Verify.Flat

/-! # Wakeups

A process that waits for its children is woken when one of them exits. It is not woken when a child
that has exited already becomes its child: `pm_exit` gives the children of the process that exits to
1, and wakes only the parent of that process. -/

namespace TrazelOs

variable {μ : Type}

section
variable {M : MemoryManager μ} {Live : μ → List Nat → Prop} {s : System μ} {L : List Nat}
  {v v₁ v₂ : TaskView} {p : Nat} {c c' : Machine μ} {e : Event}

end

end TrazelOs
