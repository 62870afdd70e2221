import TrazelOs.Verify.Flat

/-! # Every process is in one place

The queues share one link per process, so a process that is in two of them damages both. -/

namespace TrazelOs

variable {μ : Type}

section
variable {M : MemoryManager μ} {Live : μ → List Nat → Prop} {s : System μ} {L : List Nat}
  {v : TaskView} {p : Nat} {x : Pcb} {c : Machine μ} {regs : UserRegs}

end

end TrazelOs
