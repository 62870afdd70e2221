import TrazelOs.Verify.Intact
import TrazelOs.Verify.Flat

/-! # The idle loop

`pm_scheduler_context_switch` asserts that it switches away from user mode unless `g_cpu_is_idle` is
set. The flag is set when the processor enters the halt loop of `pm_load_next_ready_process` and
cleared when a process is chosen, and no other function writes it. -/

namespace TrazelOs

variable {μ : Type} {M : MemoryManager μ} {Live : μ → List Nat → Prop} {c c' : Machine μ} {e : Event}

end TrazelOs
