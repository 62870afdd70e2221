import TrazelOs.Verify.Deeds
import TrazelOs.Verify.Flat

/-! # Parents

`pm_exit` asserts that the process has a parent, which it wakes. -/

namespace TrazelOs

variable {μ : Type} {M : MemoryManager μ} {Live : μ → List Nat → Prop} {s s' : System μ}
  {L : List Nat} {v : TaskView} {p i n : Nat} {x : Pcb} {c c' : Machine μ} {e : Event}

end TrazelOs
