import TrazelOs.Verify.Syscall
import Mathlib.Logic.Relation

/-! # The entries of the kernel

Every event of the machine is a step of `TaskView`, followed by the choice of the next process. -/

namespace TrazelOs

variable {μ : Type}

/-- After an entry of the kernel the process that entered it goes on, the processor is idle, or the
next process runs. -/
inductive Entered (Live : μ → List Nat → Prop) (entry : TaskView.Entry) (v : TaskView) :
    Option InterruptInfo → System μ → Prop
  | back {info : InterruptInfo} {s' : System μ} {L' : List Nat} {v' : TaskView} :
    TaskView.Act entry v v' → v'.current = v.current → v.current.isSome →
    (entry.number = none → v' = v ∧ info = entry.frame) → Coherent Live s' L' v' →
    s'.gCpuIsIdle = false → Entered Live entry v (some info) s'
  | idle {s' : System μ} {L' : List Nat} {v' : TaskView} : TaskView.Act entry v v' →
    v'.current = none → Coherent Live s' L' v' → s'.gCpuIsIdle = true →
    Entered Live entry v none s'
  | next {s' : System μ} {L' : List Nat} {v' : TaskView} {p : Nat} {ps : List Nat} {t : Task} :
    TaskView.Act entry v v' → v'.current = none → v'.runnable = p :: ps → v'.tasks p = some t →
    Coherent Live s' L' (v'.dispatch p ps) → s'.gCpuIsIdle = false →
    Entered Live entry v (some t.context) s'

/-- The entry by an interrupt or an exception; a process that dies in it was killed. -/
def interruptEntry (frame : InterruptInfo) : TaskView.Entry := ⟨none, frame, killSinglaExitCode⟩

/-- The frame of a system call once the segments are filled in. -/
def ring3Frame (frame : InterruptInfo) : InterruptInfo :=
  { frame with codeSegment := ring3CodeSegment, stackSegment := ring3DataSegment }

section
variable {M : MemoryManager μ} {Live : μ → List Nat → Prop} {s s' : System μ} {L L' : List Nat}
  {v v' : TaskView} {p : Nat} {x : Pcb} {entry : TaskView.Entry} {frame : InterruptInfo}
  {info? : Option InterruptInfo}

/-! ## Leaving the kernel -/

theorem pmLoadNextReadyProcess_waitQueues (h : pmLoadNextReadyProcess M s = .ok (info?, s')) :
    s'.waitQueues = s.waitQueues := by
  unfold pmLoadNextReadyProcess at h
  split at h
  · cases h
    rfl
  obtain ⟨⟨task, q, s₁⟩, hdequeue, h⟩ := Exec.bind_eq_ok.mp h
  obtain ⟨head, -, hdequeue⟩ := Exec.bind_eq_ok.mp hdequeue
  cases hdequeue
  obtain ⟨y, -, h⟩ := Exec.bind_eq_ok.mp h
  obtain ⟨info, -, h⟩ := Exec.bind_eq_ok.mp h
  cases h
  rfl

/-- The process that entered the kernel has given up the processor. -/
theorem Entered.loadNext (hM : M.Lawful Live) (hact : TaskView.Act entry v v')
    (C : Coherent Live s L v') (hcurr : v'.current = none)
    (h : pmLoadNextReadyProcess M s = .ok (info?, s')) :
    s'.gFirstTaskAdded = s.gFirstTaskAdded ∧ Entered Live entry v info? s' := by
  obtain ⟨hfirst, ⟨rfl, hidle, C'⟩ | ⟨p, ps, t, hrun, ht, rfl, hidle, C'⟩⟩ := C.loadNext hM hcurr h
  · exact ⟨hfirst, .idle hact hcurr C' hidle⟩
  · exact ⟨hfirst, .next hact hcurr hrun ht C' hidle⟩

theorem storeInfo_ok {a : Nat} (h : s.storeInfo a frame = .ok s') : s' = s.setInfo a frame := by
  obtain ⟨_, -, h⟩ := Exec.bind_eq_ok.mp h
  cases h
  rfl

theorem syscallKernelHandler_ok {env : SyscallEnv} (hM : M.Lawful Live) (C : Coherent Live s L v)
    (hcurr : v.current = some p) (hfirst : s.gFirstTaskAdded = false)
    (hidle : s.gCpuIsIdle = false)
    (hempty : ∀ w q, s.waitQueues w = none → s'.waitQueues w = some q → q = ⟨0, 0⟩)
    (hexec : frame.rax = 59 → env.path.fromKeyboard = false)
    (h : syscallKernelHandler M s frame env = .ok (info?, s')) :
    s'.gFirstTaskAdded = false ∧ Entered Live (callEntry (ring3Frame frame)) v info? s' := by
  rw [← C.repr.current p hcurr] at *
  replace hexec : (ring3Frame frame).rax = 59 → env.path.fromKeyboard = false := hexec
  obtain ⟨⟨regs, s₁⟩, hdispatch, h⟩ := Exec.bind_eq_ok.mp h
  replace hdispatch : syscallDispatch M s s.gCurrTask (ring3Frame frame) env = .ok (regs, s₁) :=
    hdispatch
  obtain ⟨x, hx, h⟩ := Exec.bind_eq_ok.mp h
  rw [deref_eq_ok] at hx
  dsimp only at h
  split at h
  · rename_i hstate
    cases h
    obtain ⟨hsteady, hcalled⟩ := syscallDispatch_ok hM C hcurr hfirst hempty hexec hdispatch
    rw [hsteady.firstTaskAdded]
    refine ⟨hfirst, ?_⟩
    cases hcalled with
    | stays hact hcurr' C' =>
      refine .back hact (hcurr'.trans hcurr.symm) (hcurr ▸ rfl) (nomatch ·) C' ?_
      rw [hsteady.cpuIsIdle, hidle]
    | leaves _ hnone hready C' =>
      obtain ⟨context, -, ht⟩ := C'.task_of_pcb hx
      refine absurd (TaskView.stateOf_eq_some.mpr ⟨_, ht, ?_⟩) hready
      cases hready : x.processState
      · exact hready
      · exact absurd hready hstate.1
      · exact absurd hready hstate.2
  · rename_i hstate
    obtain ⟨s₂, hstore, h⟩ := Exec.bind_eq_ok.mp h
    have hqueues : s'.waitQueues = s₁.waitQueues := by
      rw [pmLoadNextReadyProcess_waitQueues h, storeInfo_ok hstore]
      rfl
    rw [hqueues] at hempty
    obtain ⟨hsteady, hcalled⟩ := syscallDispatch_ok hM C hcurr hfirst hempty hexec hdispatch
    cases hcalled with
    | stays _ hcurr' C' =>
      obtain ⟨context, -, ht⟩ := C'.task_of_pcb hx
      obtain ⟨t', ht', hready⟩ := TaskView.stateOf_eq_some.mp ((C'.scheduled.ready _).mp (.inl hcurr'))
      rw [ht] at ht'
      cases ht'
      refine absurd ⟨?_, ?_⟩ hstate
      · exact fun h => ProcessState.noConfusion (hready.symm.trans h)
      · exact fun h => ProcessState.noConfusion (hready.symm.trans h)
    | leaves hact hnone _ C' =>
      obtain ⟨C₂, hsteady₂⟩ := C'.save hx hstore
      obtain ⟨hfirst₃, hentered⟩ := Entered.loadNext hM (hact _) C₂ hnone h
      exact ⟨by rw [hfirst₃, hsteady₂.firstTaskAdded, hsteady.firstTaskAdded, hfirst], hentered⟩

/-! ## Interrupts and exceptions -/

theorem pmSchedulerContextSwitch_ok (hM : M.Lawful Live) (C : Coherent Live s L v)
    (hcurr : v.current = some p) (hidle : s.gCpuIsIdle = false)
    (h : pmSchedulerContextSwitch M s frame = .ok (info?, s')) :
    s'.gFirstTaskAdded = s.gFirstTaskAdded ∧ Entered Live (interruptEntry frame) v info? s' := by
  have hp := C.repr.current p hcurr
  unfold pmSchedulerContextSwitch at h
  rw [if_neg (by rw [hidle]; exact Bool.false_ne_true)] at h
  obtain ⟨-, -, h⟩ := Exec.bind_eq_ok.mp h
  obtain ⟨x, hx, h⟩ := Exec.bind_eq_ok.mp h
  rw [deref_eq_ok, hp] at hx
  dsimp only at h
  split at h
  · cases h
    exact ⟨rfl, .back .quiet rfl (hcurr ▸ rfl) (fun _ => ⟨rfl, rfl⟩) C hidle⟩
  rw [hp] at h
  split at h
  · obtain ⟨s₁, hexit, h⟩ := Exec.bind_eq_ok.mp h
    obtain ⟨L', q, t, t', u, ht, ht', hu, hpid, C', hsteady⟩ := C.exit hM hcurr hexit
    have hact : TaskView.Act (interruptEntry frame) v _ :=
      .exit p q t t' u none hcurr ht ht' hu hpid
    obtain ⟨hfirst, hentered⟩ := Entered.loadNext hM hact C' rfl h
    exact ⟨hfirst.trans hsteady.firstTaskAdded, hentered⟩
  · obtain ⟨s₁, hstore, h⟩ := Exec.bind_eq_ok.mp h
    obtain ⟨C₁, hsteady₁⟩ := C.save hx hstore
    obtain ⟨⟨q, s₂⟩, henqueue, h⟩ := Exec.bind_eq_ok.mp h
    rw [hsteady₁.currTask, hp] at henqueue
    obtain ⟨C₂, hsteady₂⟩ := C₁.preempt hcurr henqueue
    have hact : TaskView.Act (interruptEntry frame) v _ := .preempt p hcurr
    obtain ⟨hfirst, hentered⟩ := Entered.loadNext hM hact C₂ rfl h
    exact ⟨hfirst.trans (hsteady₂.firstTaskAdded.trans hsteady₁.firstTaskAdded), hentered⟩

theorem lapicTimerHandler_ok (hM : M.Lawful Live) (C : Coherent Live s L v)
    (hcurr : v.current = some p) (hidle : s.gCpuIsIdle = false)
    (h : lapicTimerHandler M s frame = .ok (info?, s')) :
    s'.gFirstTaskAdded = s.gFirstTaskAdded ∧ Entered Live (interruptEntry frame) v info? s' := by
  unfold lapicTimerHandler at h
  dsimp only at h
  split at h
  · have C₁ : Coherent Live { s with
        gSystemLapicTimerUptimer := u64 (s.gSystemLapicTimerUptimer + 1) } L v := C.setFlags
    have hswitch := pmSchedulerContextSwitch_ok hM C₁ hcurr hidle h
    exact hswitch
  · cases h
    exact ⟨rfl, .back .quiet rfl (hcurr ▸ rfl) (fun _ => ⟨rfl, rfl⟩) C.setFlags hidle⟩

/-- In the idle loop the timer only counts. -/
theorem lapicTimerHandler_idle (hidle : s.gCpuIsIdle = true)
    (h : lapicTimerHandler M s frame = .ok (info?, s')) :
    s' = { s with gSystemLapicTimerUptimer := u64 (s.gSystemLapicTimerUptimer + 1) } := by
  unfold lapicTimerHandler at h
  dsimp only at h
  split at h
  · unfold pmSchedulerContextSwitch at h
    rw [if_pos hidle] at h
    cases h
    rfl
  · cases h
    rfl

theorem cpuExceptionsIsrCentralHandler_ok (hM : M.Lawful Live) (C : Coherent Live s L v)
    (hcurr : v.current = some p) (hidle : s.gCpuIsIdle = false)
    (h : cpuExceptionsIsrCentralHandler M s frame = .ok (info?, s')) :
    s'.gFirstTaskAdded = s.gFirstTaskAdded ∧ Entered Live (interruptEntry frame) v info? s' := by
  unfold cpuExceptionsIsrCentralHandler at h
  split at h
  · unfold processExceptionHandler at h
    split at h
    · cases h
    obtain ⟨s₁, hmodify, h⟩ := Exec.bind_eq_ok.mp h
    obtain ⟨x, hx, rfl⟩ := modifyPcb_ok hmodify
    have C₁ : Coherent Live (s.setPcb s.gCurrTask { x with killSignal := true }) L v :=
      C.sameTasks (.setPcb hx rfl) (C.objects.setPcb hx)
    have hswitch := pmSchedulerContextSwitch_ok hM C₁ hcurr hidle h
    exact hswitch
  · cases h

theorem keyboardInterruptHandler_ok {scanCode : Nat} (C : Coherent Live s L v)
    (h : keyboardInterruptHandler s scanCode = .ok s') :
    Steady s s' ∧ ∃ v', TaskView.Act entry v v' ∧ v'.current = v.current ∧ Coherent Live s' L v' := by
  unfold keyboardInterruptHandler at h
  split at h
  · cases h
    exact ⟨.refl, v, .quiet, rfl, C⟩
  · obtain ⟨C', hsteady⟩ := C.withRing.wake h
    exact ⟨⟨hsteady.currTask, hsteady.firstTaskAdded, hsteady.cpuIsIdle, hsteady.device⟩, _, .wake _,
      rfl, C'⟩

/-! ## One event -/

/-- The processes of the machine are those of the view; the processor runs one of them or is
idle. -/
structure MachineInv (Live : μ → List Nat → Prop) (c : Machine μ) (v : TaskView) : Prop where
  coherent : ∃ L, Coherent Live c.sys L v
  started : c.sys.gFirstTaskAdded = false
  cpu : match c.cpu with
    | .user _ => v.current.isSome ∧ c.sys.gCpuIsIdle = false
    | .idle _ => v.current = none ∧ c.sys.gCpuIsIdle = true

/-- The wait queues that are made in the step are empty. -/
def CreatedEmpty (c c' : Machine μ) : Prop :=
  ∀ w q, c.sys.waitQueues w = none → c'.sys.waitQueues w = some q → q = ⟨0, 0⟩

/-- An `execve` does not read its program from the keyboard. -/
def ExecOnDisk (c : Machine μ) : Event → Prop
  | .syscall env => ∀ regs, c.cpu = .user regs → regs.rax = 59 → env.path.fromKeyboard = false
  | _ => True

/-- How the event enters the kernel. -/
def eventEntry (c : Machine μ) (e : Event) : TaskView.Entry :=
  match c.cpu, e with
  | .user regs, .syscall _ => callEntry (ring3Frame (syscallFrame regs))
  | .user regs, .timer => interruptEntry (interruptFrame regs timerVector 0)
  | .user regs, .exception index errorCode => interruptEntry (interruptFrame regs index errorCode)
  | _, _ => interruptEntry default

/-- How the kernel is left after the event. -/
def exitPath (c : Machine μ) (e : Event) : ExitPath :=
  match c.cpu, e with
  | .user _, .syscall _ => .sysret
  | .user _, _ => .iretq
  | .idle exit, _ => exit

/-- The event is a step of the view, and the process that is chosen gets its context. -/
structure Stepped (Live : μ → List Nat → Prop) (c : Machine μ) (e : Event) (v : TaskView)
    (c' : Machine μ) (v₁ v₂ : TaskView) : Prop where
  act : TaskView.Act (eventEntry c e) v v₁
  dispatch : TaskView.Dispatch v₁ v₂
  inv : MachineInv Live c' v₂
  context : ∀ p, v₁.current = none → v₂.current = some p →
    ∃ t, v₁.tasks p = some t ∧ c'.cpu = .user ((exitPath c e).regs t.context)

section
variable {c c' : Machine μ} {e : Event}

theorem Entered.stepped (hentered : Entered Live (eventEntry c e) v info? s')
    (hfirst : s'.gFirstTaskAdded = false) :
    ∃ v₁ v₂, Stepped Live c e v (leaveKernel (exitPath c e) (info?, s')) v₁ v₂ := by
  cases hentered with
  | back hact hcurr hsome _ C hidle =>
    refine ⟨_, _, hact, .none, ⟨⟨_, C⟩, hfirst, hcurr ▸ hsome, hidle⟩, fun p hnone hp => ?_⟩
    rw [hnone] at hp
    cases hp
  | idle hact hcurr C hidle =>
    refine ⟨_, _, hact, .none, ⟨⟨_, C⟩, hfirst, hcurr, hidle⟩, fun p hnone hp => ?_⟩
    rw [hnone] at hp
    cases hp
  | next hact hcurr hrun ht C hidle =>
    refine ⟨_, _, hact, .next _ _ hcurr hrun, ⟨⟨_, C⟩, hfirst, rfl, hidle⟩, fun p _ hp => ?_⟩
    cases hp
    exact ⟨_, ht, rfl⟩

theorem Stepped.of_act (hact : TaskView.Act (eventEntry c e) v v')
    (I : MachineInv Live c' v') : ∃ v₁ v₂, Stepped Live c e v c' v₁ v₂ := by
  refine ⟨_, _, hact, .none, I, fun p hnone hp => ?_⟩
  rw [hnone] at hp
  cases hp

theorem MachineInv.step (hM : M.Lawful Live) (I : MachineInv Live c v)
    (h : step M c e = .ok c') (hempty : CreatedEmpty c c') (hexec : ExecOnDisk c e) :
    ∃ v₁ v₂, Stepped Live c e v c' v₁ v₂ := by
  obtain ⟨⟨L, C⟩, hfirst, hcpu⟩ := I
  obtain ⟨s, cpu⟩ := c
  cases cpu with
  | user regs =>
    obtain ⟨hsome, hidle⟩ := hcpu
    obtain ⟨p, hcurr⟩ := Option.isSome_iff_exists.mp hsome
    cases e with
    | run regs' stores =>
      obtain ⟨m, hstores, h⟩ := Exec.bind_eq_ok.mp h
      cases h
      have hlive : Live m L := Exec.foldlM_ok (p := (Live · L))
        (fun m _ m' _ hlive h => hM.userStore hlive h) C.objects.live hstores
      exact Stepped.of_act .quiet ⟨⟨L, C.withMem hlive⟩, hfirst, hsome, hidle⟩
    | syscall env =>
      obtain ⟨⟨info?, s'⟩, hcall, rfl⟩ := Exec.map_eq_ok.mp h
      have hqueues : (leaveKernel .sysret (info?, s')).sys = s' := by cases info? <;> rfl
      rw [CreatedEmpty, hqueues] at hempty
      obtain ⟨hfirst', hentered⟩ := syscallKernelHandler_ok hM C hcurr hfirst hidle hempty
        (hexec regs rfl) hcall
      exact hentered.stepped hfirst'
    | timer =>
      obtain ⟨⟨info?, s'⟩, hcall, rfl⟩ := Exec.map_eq_ok.mp h
      obtain ⟨hfirst', hentered⟩ := lapicTimerHandler_ok hM C hcurr hidle hcall
      exact Entered.stepped hentered (hfirst'.trans hfirst)
    | keyboard scanCode =>
      obtain ⟨s', hkeyboard, h⟩ := Exec.bind_eq_ok.mp h
      cases h
      obtain ⟨hsteady, v', hact, hcurr', C'⟩ := keyboardInterruptHandler_ok C hkeyboard
      exact Stepped.of_act hact ⟨⟨L, C'⟩, hsteady.firstTaskAdded.trans hfirst, hcurr' ▸ hsome,
        hsteady.cpuIsIdle.trans hidle⟩
    | exception index errorCode =>
      obtain ⟨⟨info?, s'⟩, hcall, rfl⟩ := Exec.map_eq_ok.mp h
      obtain ⟨hfirst', hentered⟩ := cpuExceptionsIsrCentralHandler_ok hM C hcurr hidle hcall
      exact Entered.stepped hentered (hfirst'.trans hfirst)
    | haltEnds => cases h
  | idle exit =>
    obtain ⟨hcurr, hidle⟩ := hcpu
    cases e with
    | timer =>
      obtain ⟨⟨info?, s'⟩, hcall, h⟩ := Exec.bind_eq_ok.mp h
      cases h
      rw [lapicTimerHandler_idle hidle hcall]
      exact Stepped.of_act .quiet ⟨⟨L, C.setFlags⟩, hfirst, hcurr, hidle⟩
    | keyboard scanCode =>
      obtain ⟨s', hkeyboard, h⟩ := Exec.bind_eq_ok.mp h
      cases h
      obtain ⟨hsteady, v', hact, hcurr', C'⟩ := keyboardInterruptHandler_ok C hkeyboard
      exact Stepped.of_act hact ⟨⟨L, C'⟩, hsteady.firstTaskAdded.trans hfirst, hcurr'.trans hcurr,
        hsteady.cpuIsIdle.trans hidle⟩
    | haltEnds =>
      obtain ⟨⟨info?, s'⟩, hnext, rfl⟩ := Exec.map_eq_ok.mp h
      obtain ⟨hfirst', hentered⟩ := Entered.loadNext hM .quiet C hcurr hnext
      exact Entered.stepped hentered (hfirst'.trans hfirst)
    | run _ _ => cases h
    | syscall _ => cases h
    | exception _ _ => cases h

end

end

end TrazelOs
