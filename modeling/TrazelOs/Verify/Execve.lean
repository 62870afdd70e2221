import TrazelOs.Verify.Flat

/-! # Programs that are loaded

What `pm_execve` and the ELF loader do to the process that calls them. -/

namespace TrazelOs

variable {μ : Type} {M : MemoryManager μ} {Live : μ → List Nat → Prop} {s s' : System μ}
  {L : List Nat} {p : Nat} {x : Pcb}

/-! ## Waiting -/

theorem SameTasks.pcb (h : SameTasks s s') (hx : s.pcbs p = some x) :
    ∃ x', s'.pcbs p = some x' ∧ x'.core = x.core := by
  have hcore := h.pcbs p
  rw [hx, Option.map_some, Option.map_eq_some_iff] at hcore
  exact hcore

namespace Flat

end Flat

end TrazelOs
