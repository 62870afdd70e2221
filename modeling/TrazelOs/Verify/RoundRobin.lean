import TrazelOs.Verify.Clock
import TrazelOs.Verify.Context

/-! # Every runnable process gets the processor

The runnable processes form a queue: a process that becomes runnable is put at its end, the next
process is taken from its front, and every 35th timer interrupt makes the kernel take one. So the
processes ahead of a runnable one leave before it, and each of them keeps it waiting for at most 35
timer interrupts. The interrupts that arrive while the processor is halted do not count: then the
next process is taken as soon as the halt ends. -/

namespace TrazelOs

variable {μ : Type}

/-- The timer interrupts that arrive in user mode. -/
def Machine.ticks (c : Machine μ) (e : Event) : Nat :=
  match c.cpu, e with
  | .user _, .timer => 1
  | _, _ => 0

/-- Runs from `c` on in which the process at `p` does not get the processor, with the number of
timer interrupts that arrive in user mode. -/
inductive WaitsTurn (M : MemoryManager μ) (steps : Machine μ → Event → Machine μ → Prop) (p : Nat)
    (c : Machine μ) : Nat → Machine μ → Prop
  | refl : WaitsTurn M steps p c 0 c
  | step {n : Nat} {c₁ c₂ : Machine μ} {e : Event} : WaitsTurn M steps p c n c₁ →
    step M c₁ e = .ok c₂ → steps c₁ e c₂ → ¬c₂.runs p → WaitsTurn M steps p c (n + c₁.ticks e) c₂

/-! ## The queue of runnable processes -/

namespace TaskView

variable {v v' : TaskView} {entry : Entry}

theorem Act.runnable_prefix (h : Act entry v v') : v.runnable <+: v'.runnable := by
  cases h with
  | quiet | reap _ _ _ _ | block _ _ _ _ => exact List.prefix_refl _
  | fork _ _ _ _ | wake _ | preempt _ => exact List.prefix_append _ _
  | exit _ _ _ _ _ saved => cases saved <;> exact List.prefix_append _ _

theorem Act.current_eq (h : Act entry v v') : v'.current = v.current ∨ v'.current = none := by
  cases h with
  | quiet | reap _ _ _ _ | fork _ _ _ _ | wake _ => exact .inl rfl
  | block _ _ _ _ | preempt _ => exact .inr rfl
  | exit _ _ _ _ _ saved => cases saved <;> exact .inr rfl

end TaskView

section
variable {M : MemoryManager μ} {Live : μ → List Nat → Prop} {s s' : System μ} {L : List Nat}
  {v v₁ v₂ : TaskView} {p q n : Nat} {qs ahead behind : List Nat} {c c' : Machine μ} {e : Event}

/-- The processes ahead of a waiting process stay, or the first of them is taken. -/
theorem Stepped.queue (h : Stepped Live c e v c' v₁ v₂) (hwait : v.runnable = ahead ++ p :: behind)
    (hruns : ¬c'.runs p) :
    (∃ q ahead' behind', ahead = q :: ahead' ∧ v₂.runnable = ahead' ++ p :: behind') ∨
      (v₂.current = v.current ∨ v₂.current = none) ∧
        ∃ behind', v₂.runnable = ahead ++ p :: behind' := by
  obtain ⟨more, hmore⟩ := h.act.runnable_prefix
  have hrun₁ : v₁.runnable = ahead ++ p :: (behind ++ more) := by
    rw [← hmore, hwait, List.append_assoc, List.cons_append]
  have hruns₂ : v₂.current ≠ some p := fun hcurr => hruns (h.inv.runs_iff.mpr hcurr)
  have hcurrent := h.act.current_eq
  cases h.dispatch with
  | none => exact .inr ⟨hcurrent, _, hrun₁⟩
  | next q qs _ hrun =>
    rw [hrun₁] at hrun
    cases ahead with
    | nil =>
      cases hrun
      exact absurd rfl hruns₂
    | cons q' ahead' =>
      cases hrun
      exact .inl ⟨_, ahead', _, rfl, rfl⟩

/-! ## The context switch -/

theorem Coherent.loadNext_cons {info? : Option InterruptInfo} (hM : M.Lawful Live)
    (C : Coherent Live s L v) (hcurr : v.current = none) (hrun : v.runnable = q :: qs)
    (h : pmLoadNextReadyProcess M s = .ok (info?, s')) :
    info?.isSome ∧ s'.gCurrTask = q := by
  obtain ⟨-, hload⟩ := C.loadNext hM hcurr h
  rcases hload with ⟨rfl, -, -⟩ | ⟨q', qs', t, hrun', -, rfl, -, C'⟩
  · have hhead : s.gRunnableTasks.queuesHead ≠ 0 := fun hnil => by
      rw [C.repr.runnable.head_eq_nil_iff.mp hnil] at hrun
      cases hrun
    unfold pmLoadNextReadyProcess at h
    rw [if_neg hhead] at h
    obtain ⟨r, -, h⟩ := Exec.bind_eq_ok.mp h
    obtain ⟨x, -, h⟩ := Exec.bind_eq_ok.mp h
    obtain ⟨info, -, h⟩ := Exec.bind_eq_ok.mp h
    cases h
  · rw [hrun'] at hrun
    cases hrun
    exact ⟨rfl, C'.repr.current _ rfl⟩

/-- Where another process is runnable, a context switch goes to the first one. -/
theorem Coherent.contextSwitch_cons {frame : InterruptInfo} {info? : Option InterruptInfo}
    (hM : M.Lawful Live) (C : Coherent Live s L v) (hcurr : v.current = some p)
    (hidle : s.gCpuIsIdle = false) (hrun : v.runnable = q :: qs)
    (h : pmSchedulerContextSwitch M s frame = .ok (info?, s')) :
    info?.isSome ∧ s'.gCurrTask = q := by
  have hp := C.repr.current p hcurr
  have hhead : s.gRunnableTasks.queuesHead ≠ 0 := fun hnil => by
    rw [C.repr.runnable.head_eq_nil_iff.mp hnil] at hrun
    cases hrun
  unfold pmSchedulerContextSwitch at h
  rw [if_neg (by rw [hidle]; exact Bool.false_ne_true)] at h
  obtain ⟨-, -, h⟩ := Exec.bind_eq_ok.mp h
  obtain ⟨x, hx, h⟩ := Exec.bind_eq_ok.mp h
  rw [deref_eq_ok, hp] at hx
  rw [if_neg fun hnot => hhead hnot.1, hp] at h
  dsimp only at h
  split at h
  · obtain ⟨s₁, hexit, h⟩ := Exec.bind_eq_ok.mp h
    obtain ⟨L', r, t, t', u, -, -, -, -, C', -⟩ := C.exit hM hcurr hexit
    exact C'.loadNext_cons hM rfl (congrArg (· ++ _) hrun) h
  · obtain ⟨s₁, hstore, h⟩ := Exec.bind_eq_ok.mp h
    obtain ⟨C₁, hsteady₁⟩ := C.save hx hstore
    obtain ⟨⟨queue, s₂⟩, henqueue, h⟩ := Exec.bind_eq_ok.mp h
    rw [hsteady₁.currTask, hp] at henqueue
    obtain ⟨C₂, -⟩ := C₁.preempt hcurr henqueue
    exact C₂.loadNext_cons hM rfl (congrArg (· ++ _) hrun) h

theorem lapicTimerHandler_switch {frame : InterruptInfo}
    (h : u64 (s.gSystemLapicTimerUptimer + 1) % 35 = 0) :
    lapicTimerHandler M s frame = pmSchedulerContextSwitch M
      { s with gSystemLapicTimerUptimer := u64 (s.gSystemLapicTimerUptimer + 1) } frame := if_pos h

/-- Every 35th timer interrupt in user mode gives the processor to the first runnable process. -/
theorem MachineInv.timer_switches {regs : UserRegs} (hM : M.Lawful Live) (I : MachineInv Live c v)
    (huser : c.cpu = .user regs) (hrun : v.runnable = q :: qs) (htime : c'.time % 35 = 0)
    (h : TrazelOs.step M c .timer = .ok c') : c'.runs q := by
  have hclock := step_time h
  obtain ⟨⟨L, C⟩, -, hcpu⟩ := I
  obtain ⟨s, cpu⟩ := c
  subst huser
  obtain ⟨hsome, hidle⟩ := hcpu
  obtain ⟨p, hcurr⟩ := Option.isSome_iff_exists.mp hsome
  obtain ⟨⟨info?, s'⟩, hcall, rfl⟩ := Exec.map_eq_ok.mp h
  rw [hclock] at htime
  rw [lapicTimerHandler_switch htime] at hcall
  have C₁ : Coherent Live { s with
      gSystemLapicTimerUptimer := u64 (s.gSystemLapicTimerUptimer + 1) } L v := C.setFlags
  obtain ⟨hinfo, hq⟩ := C₁.contextSwitch_cons hM hcurr hidle hrun hcall
  obtain ⟨info, rfl⟩ := Option.isSome_iff_exists.mp hinfo
  exact ⟨⟨_, rfl⟩, hq⟩

/-! ## The timer interrupts that are still owed -/

/-- The timer interrupts until the next context switch. -/
def ticksLeft (time : Nat) : Nat := 35 - time % 35

/-- How many timer interrupts a process with `k` processes ahead of it waits at most, and one. -/
def Machine.owed (c : Machine μ) (k : Nat) : Nat :=
  match c.cpu with
  | .user _ => 35 * k + ticksLeft c.time
  | .idle _ => 35 * k + 1

theorem ticksLeft_pos {time : Nat} : 0 < ticksLeft time :=
  Nat.sub_pos_of_lt (Nat.mod_lt _ (by decide))

theorem owed_pos {k : Nat} : 35 * k < c.owed k := by
  unfold Machine.owed
  split
  · exact Nat.lt_add_of_pos_right ticksLeft_pos
  · exact Nat.lt_succ_self _

theorem owed_le {k : Nat} : c.owed k ≤ 35 * (k + 1) := by
  unfold Machine.owed ticksLeft
  split <;> omega

theorem ticks_le : c.ticks e ≤ 1 := by
  unfold Machine.ticks
  split <;> decide

/-- A timer interrupt that does not switch brings the next switch closer. -/
theorem ticksLeft_succ {time : Nat} (hlt : time < 2 ^ 64) (h : u64 (time + 1) % 35 ≠ 0) :
    ticksLeft (u64 (time + 1)) + 1 = ticksLeft time := by
  have hsucc : u64 (time + 1) = time + 1 := by
    apply Nat.mod_eq_of_lt
    refine lt_of_le_of_ne hlt ?_
    rintro hwrap
    rw [hwrap] at h
    exact h rfl
  rw [hsucc] at h ⊢
  unfold ticksLeft
  omega

theorem MachineInv.current_none_iff (I : MachineInv Live c v) :
    v.current = none ↔ ∃ exit, c.cpu = .idle exit := by
  obtain ⟨-, -, hcpu⟩ := I
  cases hc : c.cpu with
  | user regs =>
    rw [hc] at hcpu
    simp [Option.isSome_iff_ne_none.mp hcpu.1]
  | idle exit =>
    rw [hc] at hcpu
    simp [hcpu.1]

/-- An event after which the same processes are ahead. -/
theorem MachineInv.owed_le_of_stay (hM : M.Lawful Live) (I : MachineInv Live c v)
    (I' : MachineInv Live c' v₂) (htime : c.time < 2 ^ 64) (hrun : v.runnable = q :: qs)
    (hcurrent : v₂.current = v.current ∨ v₂.current = none) (h : TrazelOs.step M c e = .ok c')
    (k : Nat) : c.ticks e + c'.owed k ≤ c.owed k := by
  have hclock := step_time h
  cases hc : c.cpu with
  | idle exit =>
    have hnone : v₂.current = none :=
      hcurrent.elim (·.trans (I.current_none_iff.mpr ⟨exit, hc⟩)) id
    obtain ⟨exit', hc'⟩ := I'.current_none_iff.mp hnone
    simp only [Machine.ticks, Machine.owed, hc, hc', Nat.zero_add, Nat.le_refl]
  | user regs =>
    have hleft : c.ticks e + ticksLeft c'.time ≤ ticksLeft c.time := by
      cases e with
      | timer =>
        have hstays : c'.time % 35 ≠ 0 := by
          intro hswitch
          have hq := I'.runs_iff.mp (I.timer_switches hM hc hrun hswitch h)
          obtain ⟨⟨L, C⟩, -, -⟩ := I
          rcases hcurrent with hsame | hnone
          · exact C.scheduled.alone q (hsame ▸ hq) (hrun ▸ .head _)
          · rw [hnone] at hq
            cases hq
        rw [hclock] at hstays ⊢
        simp only [Machine.ticks, hc]
        rw [Nat.add_comm, Event.advance, ticksLeft_succ htime hstays]
      | _ => simp only [Machine.ticks, hc, hclock, Event.advance, Nat.zero_add, Nat.le_refl]
    have hpos : 0 < ticksLeft c'.time := ticksLeft_pos
    unfold Machine.owed
    rw [hc]
    split <;> omega

/-- One event: the timer interrupts that are owed go down by those that arrive. -/
theorem MachineInv.owed_step (hM : M.Lawful Live) (I : MachineInv Live c v)
    (htime : c.time < 2 ^ 64) (hwait : v.runnable = ahead ++ p :: behind)
    (h : TrazelOs.step M c e = .ok c') (hcond : OrderlyStep c e c') (hruns : ¬c'.runs p) :
    ∃ v' ahead' behind', MachineInv Live c' v' ∧ v'.runnable = ahead' ++ p :: behind' ∧
      c.ticks e + c'.owed ahead'.length ≤ c.owed ahead.length := by
  obtain ⟨v₁, v₂, hstepped⟩ := I.step hM h hcond.1 hcond.2
  rcases hstepped.queue hwait hruns with
    ⟨q, ahead', behind', rfl, hwait'⟩ | ⟨hcurrent, behind', hwait'⟩
  · refine ⟨v₂, ahead', behind', hstepped.inv, hwait', ?_⟩
    have hticks : c.ticks e ≤ 1 := ticks_le
    have howed : c'.owed ahead'.length ≤ 35 * (ahead'.length + 1) := owed_le
    have hbefore : 35 * (ahead'.length + 1) < c.owed (ahead'.length + 1) := owed_pos
    rw [List.length_cons]
    omega
  · refine ⟨v₂, ahead, behind', hstepped.inv, hwait', ?_⟩
    cases ahead with
    | nil => exact I.owed_le_of_stay hM hstepped.inv htime hwait hcurrent h _
    | cons q qs => exact I.owed_le_of_stay hM hstepped.inv htime hwait hcurrent h _

theorem step_time_lt (h : step M c e = .ok c') (htime : c.time < 2 ^ 64) : c'.time < 2 ^ 64 := by
  rw [step_time h]
  cases e with
  | timer => exact Nat.mod_lt _ (by decide)
  | _ => exact htime

/-- A whole run: the timer interrupts that have arrived and those that are still owed. -/
theorem WaitsTurn.owed (hM : M.Lawful Live) (I : MachineInv Live c v) (htime : c.time < 2 ^ 64)
    (hwait : v.runnable = ahead ++ p :: behind) (h : WaitsTurn M OrderlyStep p c n c') :
    c'.time < 2 ^ 64 ∧ ∃ v' ahead' behind', MachineInv Live c' v' ∧
      v'.runnable = ahead' ++ p :: behind' ∧ n + c'.owed ahead'.length ≤ c.owed ahead.length := by
  induction h with
  | refl => exact ⟨htime, v, ahead, behind, I, hwait, Nat.le_of_eq (Nat.zero_add _)⟩
  | step _ hstep hcond hruns ih =>
    obtain ⟨htime₁, v₁, ahead₁, behind₁, I₁, hwait₁, howed₁⟩ := ih
    obtain ⟨v₂, ahead₂, behind₂, I₂, hwait₂, howed₂⟩ :=
      I₁.owed_step hM htime₁ hwait₁ hstep hcond hruns
    exact ⟨step_time_lt hstep htime₁, v₂, ahead₂, behind₂, I₂, hwait₂, by omega⟩

end

end TrazelOs
