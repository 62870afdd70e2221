import TrazelOs.Verify.Flat

/-! # The registers of a suspended process

A timer interrupt saves the registers of the process that it suspends, and the process is resumed
from what was saved. How much of it arrives depends on the exit: `sysret` takes the address and the
flags from `rcx` and `r11`, which the process had other values in. -/

namespace TrazelOs

variable {μ : Type}

/-- The processor runs the process at `p`. -/
def Machine.runs (c : Machine μ) (p : Nat) : Prop := (∃ regs, c.cpu = .user regs) ∧ c.sys.gCurrTask = p

/-- Runs from `c` on in which the process at `p` does not get the processor. -/
inductive Sleeps (M : MemoryManager μ) (steps : Machine μ → Event → Machine μ → Prop) (p : Nat)
    (c : Machine μ) : Machine μ → Prop
  | refl : Sleeps M steps p c c
  | step {c₁ c₂ : Machine μ} {e : Event} : Sleeps M steps p c c₁ → step M c₁ e = .ok c₂ →
    steps c₁ e c₂ → ¬c₂.runs p → Sleeps M steps p c c₂

/-- The timer interrupt in `c` takes the processor from the process at `p`, which stays ready. -/
structure Suspends (M : MemoryManager μ) (c : Machine μ) (p : Nat) (regs : UserRegs)
    (c' : Machine μ) : Prop where
  user : c.cpu = .user regs
  current : c.sys.gCurrTask = p
  timer : step M c .timer = .ok c'
  ready : ∃ x, c'.sys.pcbs p = some x ∧ x.processState = .ready
  left : ¬c'.runs p

section
variable {M : MemoryManager μ} {Live : μ → List Nat → Prop} {v v₁ v₂ : TaskView} {p : Nat}
  {c c' c₁ c₂ : Machine μ} {e : Event} {regs regs' : UserRegs} {frame : InterruptInfo}

/-! ## The saved context -/

theorem MachineInv.runs_iff (I : MachineInv Live c v) : c.runs p ↔ v.current = some p := by
  obtain ⟨⟨L, C⟩, -, hcpu⟩ := I
  constructor
  · rintro ⟨⟨regs, huser⟩, rfl⟩
    rw [huser] at hcpu
    obtain ⟨q, hq⟩ := Option.isSome_iff_exists.mp hcpu.1
    rw [hq, C.repr.current q hq]
  · intro hcurr
    refine ⟨?_, C.repr.current p hcurr⟩
    cases h : c.cpu with
    | user regs => exact ⟨regs, rfl⟩
    | idle exit =>
      rw [h] at hcpu
      rw [hcpu.1] at hcurr
      cases hcurr

/-- The chosen process runs, and the others stay runnable. -/
theorem Dispatch.suspended (h : TaskView.Dispatch v₁ v₂) (hp : v₁.Suspended p frame)
    (hcurr : v₂.current ≠ some p) : v₂.Suspended p frame := by
  cases h with
  | none => exact hp
  | next q qs _ hrun =>
    obtain ⟨hmem, htask⟩ := hp
    rw [hrun] at hmem
    rcases List.mem_cons.mp hmem with rfl | hmem
    · exact absurd rfl hcurr
    · exact ⟨hmem, htask⟩

theorem Suspends.suspended (I : MachineInv Live c v) (h : Suspends M c p regs c')
    (hstepped : Stepped Live c .timer v c' v₁ v₂) :
    v₂.Suspended p (interruptFrame regs timerVector 0) := by
  have hentry : eventEntry c .timer = interruptEntry (interruptFrame regs timerVector 0) := by
    simp only [eventEntry, h.user]
  have hcurr : v.current = some p := I.runs_iff.mp ⟨⟨regs, h.user⟩, h.current⟩
  have hcurr₂ : v₂.current ≠ some p := fun hp => h.left (hstepped.inv.runs_iff.mpr hp)
  have htasks : v₂.tasks = v₁.tasks := by cases hstepped.dispatch <;> rfl
  have hready : v₁.stateOf p = some .ready := by
    obtain ⟨x, hx, hstate⟩ := h.ready
    obtain ⟨⟨L', C'⟩, -, -⟩ := hstepped.inv
    obtain ⟨context, -, ht⟩ := C'.task_of_pcb hx
    exact TaskView.stateOf_eq_some.mpr ⟨_, (congrFun htasks p).symm.trans ht, hstate⟩
  -- The process would still run.
  have hstay : v₁.current ≠ some p := by
    intro hp
    cases hstepped.dispatch with
    | none => exact hcurr₂ hp
    | next q qs hnone _ =>
      rw [hp] at hnone
      cases hnone
  obtain ⟨⟨L, C⟩, -, -⟩ := I
  obtain ⟨t, ht, -⟩ := TaskView.stateOf_eq_some.mp ((C.scheduled.ready p).mp (.inl hcurr))
  refine Dispatch.suspended hstepped.dispatch ?_ hcurr₂
  have hact := hstepped.act
  rw [hentry] at hact
  cases hact with
  | quiet => exact absurd hcurr hstay
  | fork _ _ _ _ hnumber => cases hnumber
  | reap _ _ _ _ hnumber => cases hnumber
  | wake w => exact absurd hcurr hstay
  | preempt q hq =>
    rw [hcurr] at hq
    cases hq
    exact ⟨List.mem_append.mpr (.inr (.head _)), _, TaskView.modify_self ht, rfl⟩
  | block q w u frame hq hu _ =>
    rw [hcurr] at hq
    cases hq
    rw [TaskView.stateOf_save, TaskView.stateOf_block_self hu] at hready
    cases hready
  | exit q r u u' x saved hq hu _ _ _ =>
    rw [hcurr] at hq
    cases hq
    rw [TaskView.stateOf_exit C.scheduled hcurr hu] at hready
    cases hready

theorem Sleeps.suspended (hM : M.Lawful Live) (h : Sleeps M OrderlyStep p c c')
    (I : MachineInv Live c v) (hp : v.Suspended p frame) :
    ∃ v', MachineInv Live c' v' ∧ v'.Suspended p frame := by
  induction h with
  | refl => exact ⟨v, I, hp⟩
  | step _ hstep hcond hruns ih =>
    obtain ⟨v₁, I₁, hp₁⟩ := ih
    obtain ⟨v₂, v₃, hstepped⟩ := I₁.step hM hstep hcond.1 hcond.2
    obtain ⟨⟨L, C⟩, -, -⟩ := I₁
    exact ⟨v₃, hstepped.inv, Dispatch.suspended hstepped.dispatch
      (hstepped.act.suspended C.scheduled hp₁) fun h => hruns (hstepped.inv.runs_iff.mpr h)⟩

end

/-! ## Two resumptions -/

end TrazelOs
