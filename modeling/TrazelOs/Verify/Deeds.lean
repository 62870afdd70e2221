import TrazelOs.Verify.Family

/-! # What the processes do

Every step of the machine is one of the operations on the tree of processes, or none: a system call
that returns to its caller or ends it, or an interrupt that ends a process that was killed. -/

namespace TrazelOs

section
variable {μ : Type} {M : MemoryManager μ} {Live : μ → List Nat → Prop} {s s' : System μ}
  {L L' : List Nat} {v v' : TaskView} {p : Nat} {x : Pcb}

/-! ## One event -/

/-- What the call with the given number is, if it returns `answer` to its caller. -/
def callDeed (pid number arg : Nat) (answer : Option Nat) : Option Deed :=
  if number = 57 then answer.map (.fork pid)
  else if number = 60 then some (.exit pid (toInt32 arg))
  else if number = 61 then (answer.filter (· ≠ 2 ^ 64 - 1)).map (.reap pid)
  else none

theorem callDeed_other {pid number arg : Nat} {answer : Option Nat}
    (h : number ∉ [57, 60, 61]) : callDeed pid number arg answer = none := by
  simp only [List.mem_cons, List.not_mem_nil, or_false, not_or] at h
  rw [callDeed, if_neg h.1, if_neg h.2.1, if_neg h.2.2]

/-- What a system call of the process `x` at `p` leaves: the tree after the deed, and the state in
which the process is. -/
def CallRecorded (Live : μ → List Nat → Prop) (s : System μ) (p : Nat) (x : Pcb)
    (regs regs' : InterruptInfo) (s' : System μ) : Prop :=
  ∃ L' v' state, Coherent Live s' L' v' ∧ v'.stateOf p = some state ∧
    v'.current = (if state = .ready then some p else none) ∧
    s.family.replay (callDeed x.pid regs.rax regs.rdi
      (if state = .ready then some regs'.rax else none)).toList = some s'.family

section Calls
variable {regs regs' : InterruptInfo}

theorem Coherent.current_ready (C : Coherent Live s L v) (hcurr : v.current = some p) :
    v.stateOf p = some .ready := (C.scheduled.ready p).mp (.inl hcurr)

theorem Coherent.processState_current (C : Coherent Live s L v) (hcurr : v.current = some p)
    (hx : s.pcbs p = some x) : x.processState = .ready := by
  obtain ⟨t, ht, hstate⟩ := TaskView.stateOf_eq_some.mp (C.current_ready hcurr)
  obtain ⟨context, -, ht'⟩ := C.task_of_pcb hx
  rw [ht'] at ht
  cases ht
  exact hstate

theorem Coherent.alive_current (C : Coherent Live s L v) (hcurr : v.current = some p)
    (hx : s.pcbs p = some x) : s.family.alive x.pid = true := by
  refine Family.alive_iff.mpr ⟨_, System.family_of_pcb C.table hx, ?_⟩
  rw [Pcb.kin, C.processState_current hcurr hx]
  rfl

theorem Undisturbed.recorded (h : Undisturbed Live s s') (C : Coherent Live s L v)
    (hcurr : v.current = some p) (hrax : regs.rax ∉ [57, 60, 61]) :
    CallRecorded Live s p x regs regs' s' := by
  obtain ⟨L', O', hsame⟩ := h
  refine ⟨L', v, .ready, C.sameTasks hsame O', C.current_ready hcurr, hcurr, ?_⟩
  rw [callDeed_other hrax, hsame.family]
  rfl

theorem read_recorded (hM : M.Lawful Live) (C : Coherent Live s L v) (hcurr : v.current = some p)
    (hrax : regs.rax = 0) (h : syscallReadHandler M s p regs = .ok (regs', s')) :
    CallRecorded Live s p x regs regs' s' := by
  have hother : regs.rax ∉ [57, 60, 61] := by rw [hrax]; decide
  obtain ⟨y, hy, h⟩ := Exec.bind_eq_ok.mp h
  rw [deref_eq_ok] at hy
  split at h
  · cases h
    exact (Undisturbed.refl C.objects).recorded C hcurr hother
  obtain ⟨⟨n, s₁⟩, hread, h⟩ := Exec.bind_eq_ok.mp h
  cases h
  cases vfsRead_ok hM C.objects hread with
  | none _ => exact (Undisturbed.refl C.objects).recorded C hcurr hother
  | disk _ _ huses => exact huses.undisturbed.recorded C hcurr hother
  | keys _ _ hkeys huses _ _ =>
    obtain ⟨m, rb, -, hstores, rfl⟩ := hkeys
    have C₁ := C.withMem (storeKeys_live hM C.objects.live hstores)
    exact huses.undisturbed.recorded C₁.withRing hcurr hother
  | waits _ _ _ hblock =>
    obtain ⟨context, -, ht⟩ := C.task_of_pcb hy
    obtain ⟨C', -⟩ := C.block hcurr ht (.inl rfl) hblock
    refine ⟨_, _, _, C', TaskView.stateOf_block_self ht, rfl, ?_⟩
    rw [callDeed_other hother, C'.family_eq (C.records.block C.scheduled hcurr)]
    rfl

theorem fork_recorded {pid : Nat} (hM : M.Lawful Live) (C : Coherent Live s L v)
    (hcurr : v.current = some p) (hx : s.pcbs p = some x) (hfirst : s.gFirstTaskAdded = false)
    (hempty : ∀ w q, s.waitQueues w = none → s'.waitQueues w = some q → q = ⟨0, 0⟩)
    (hrax : regs.rax = 57) (h : pmFork M s p regs = .ok (pid, s')) :
    CallRecorded Live s p x regs { regs with rax := pid } s' := by
  obtain ⟨parent, child, queue, info, pagemap, s₁, L₁, hparent, hpos, hlt, hfree, N, -, h⟩ :=
    pmFork_ok hM C.objects h
  rw [hx] at hparent
  cases hparent
  obtain ⟨hchild, hsteady, C'⟩ := C.fork N hpos hlt hfree rfl hfirst h hempty
  have hready := C.current_ready hcurr
  have hne : p ≠ child := by
    rintro rfl
    rw [TaskView.stateOf, hchild] at hready
    cases hready
  refine ⟨_, _, .ready, C', ?_, hcurr, ?_⟩
  · rw [TaskView.stateOf, TaskView.fork_of_ne hne]
    exact hready
  have hnew : ∀ q u, v.tasks q = some u → u.pid ≠ pid := by
    rintro q u hu rfl
    obtain ⟨y, hy, -, htask⟩ := C.pcb_of_task hu
    obtain ⟨-, -, hlist⟩ := C.table.listed q y hy
    rw [htask] at hfree
    exact C.pcb_ne_zero hy (hlist.symm.trans hfree)
  rw [C'.family_eq (C.records.fork hchild hnew)]
  have hnone : s.family pid = none := by
    rw [System.family, hfree, C.pcb_null]
    rfl
  rw [callDeed, if_pos hrax, if_pos rfl, Option.map_some, Option.toList_some,
    Family.replay_singleton]
  exact Family.after_fork_eq (Nat.lt_of_lt_of_le Nat.zero_lt_one hpos) (C.alive_current hcurr hx) hnone

theorem exit_recorded (hM : M.Lawful Live) (C : Coherent Live s L v) (hcurr : v.current = some p)
    (hx : s.pcbs p = some x) (hrax : regs.rax = 60)
    (h : pmExit M s (toInt32 regs.rdi) p = .ok s') : CallRecorded Live s p x regs regs' s' := by
  obtain ⟨L', q, t, t', u, ht, ht', hu, hpid, C', -⟩ := C.exit hM hcurr h
  obtain ⟨F', hafter, R'⟩ := C.records.exit C.scheduled C.distinct hcurr ht ht' hu hpid
  have hzombie : ((((v.die p (toInt32 regs.rdi)).reparent t.pid).wake u.waitQueue).save? p
      none).stateOf p = some .zombie := TaskView.stateOf_exit C.scheduled hcurr ht
  refine ⟨L', _, .zombie, C', hzombie, rfl, ?_⟩
  obtain ⟨context, -, hxt⟩ := C.task_of_pcb hx
  rw [hxt] at ht
  cases ht
  rw [callDeed, if_neg (by rw [hrax]; decide), if_pos hrax, C'.family_eq R', Option.toList_some,
    Family.replay_singleton]
  exact hafter

theorem wait_recorded {n : Nat} (hM : M.Lawful Live) (C : Coherent Live s L v)
    (hcurr : v.current = some p) (hx : s.pcbs p = some x) (hrax : regs.rax = 61)
    (h : pmWait M s regs.rdi p = .ok (n, s')) :
    CallRecorded Live s p x regs { regs with rax := n } s' := by
  have hdeed : ∀ answer, callDeed x.pid regs.rax regs.rdi answer =
      (answer.filter (· ≠ 2 ^ 64 - 1)).map (.reap x.pid) := by
    intro answer
    rw [callDeed, if_neg (by rw [hrax]; decide), if_neg (by rw [hrax]; decide), if_pos hrax]
  have hready := C.current_ready hcurr
  obtain ⟨context, -, hxt⟩ := C.task_of_pcb hx
  obtain ⟨-, t, ht, hwaited⟩ := C.wait hM hcurr h
  rw [hxt] at ht
  cases ht
  cases hwaited with
  | reap hu hstate hppid C' =>
    rename_i q u L'
    have hne : p ≠ q := by
      rintro rfl
      rw [TaskView.stateOf, hu, Option.map_some, hstate] at hready
      cases hready
    refine ⟨_, _, .ready, C', ?_, hcurr, ?_⟩
    · rw [TaskView.stateOf, TaskView.reap_of_ne hne]
      exact hready
    have hkin : s.family u.pid = some ⟨x.pid, some u.exitStatus⟩ := by
      refine (C.records _ _).mpr ⟨q, u, hu, rfl, ?_⟩
      rw [Task.kin, if_pos hstate, hppid]
      rfl
    have hlt : u.pid ≠ 2 ^ 64 - 1 := by
      obtain ⟨y, hy, -, htask⟩ := C.pcb_of_task hu
      have hlt := (C.table.listed q y hy).2.1
      rw [htask]
      refine Nat.ne_of_lt (Nat.lt_trans hlt ?_)
      decide
    have hfilter : (some u.pid).filter (· ≠ 2 ^ 64 - 1) = some u.pid :=
      if_pos (decide_eq_true hlt)
    rw [hdeed, C'.family_eq (C.records.reap C.distinct hu), if_pos rfl, hfilter, Option.map_some,
      Option.toList_some, Family.replay_singleton]
    exact Family.after_reap_eq hkin (C.alive_current hcurr hx)
  | fail _ =>
    refine ⟨_, _, .ready, C, hready, hcurr, ?_⟩
    rw [hdeed]
    rfl
  | block _ _ C' =>
    refine ⟨_, _, .waiting, C', TaskView.stateOf_block_self hxt, rfl, ?_⟩
    rw [hdeed, C'.family_eq (C.records.block C.scheduled hcurr)]
    rfl

theorem syscallDispatch_recorded {env : SyscallEnv} (hM : M.Lawful Live) (C : Coherent Live s L v)
    (hcurr : v.current = some p) (hx : s.pcbs p = some x) (hfirst : s.gFirstTaskAdded = false)
    (hempty : ∀ w q, s.waitQueues w = none → s'.waitQueues w = some q → q = ⟨0, 0⟩)
    (hexec : regs.rax = 59 → env.path.fromKeyboard = false)
    (h : syscallDispatch M s p regs env = .ok (regs', s')) :
    CallRecorded Live s p x regs regs' s' := by
  cases syscallDispatch_cases hM C.objects h with
  | read hrax h => exact read_recorded hM C hcurr hrax h
  | fork hrax h => exact fork_recorded hM C hcurr hx hfirst hempty hrax h
  | execve hrax h =>
    exact (pmExecve_ok hM C.objects (hexec hrax) h).recorded C hcurr (by rw [hrax]; decide)
  | exit hrax h => exact exit_recorded hM C hcurr hx hrax h
  | wait hrax h => exact wait_recorded hM C hcurr hx hrax h
  | other hrax h =>
    refine h.recorded C hcurr fun hmem => hrax ?_
    simp only [List.mem_cons, List.not_mem_nil, or_false] at hmem ⊢
    tauto

end Calls

section Machines
variable {c c' : Machine μ} {e : Event}

/-- What a system call returned to the process that made it, if it did return. -/
def answer (c c' : Machine μ) : Option Nat :=
  match c'.cpu with
  | .user regs => if c'.sys.gCurrTask = c.sys.gCurrTask then some regs.rax else none
  | .idle _ => none

/-- What the process that runs did in the step. -/
def deed (c : Machine μ) (e : Event) (c' : Machine μ) : Option Deed :=
  (c.sys.pcbs c.sys.gCurrTask).bind fun x =>
    match c.cpu, e with
    | .user regs, .syscall _ => callDeed x.pid regs.rax regs.rdi (answer c c')
    | .user _, .timer | .user _, .exception _ _ =>
      if (c'.sys.pcbs c.sys.gCurrTask).any (·.processState = .zombie) then
        some (.exit x.pid killSinglaExitCode)
      else none
    | _, _ => none

theorem leaveKernel_sys {exit : ExitPath} {info? : Option InterruptInfo} :
    (leaveKernel exit (info?, s)).sys = s := by
  cases info? <;> rfl

/-- An interrupt kills the process that runs, or the tree stays as it is. -/
theorem TaskView.Act.records {entry : TaskView.Entry} {device : Nat} {F : Family} {t : Task}
    (h : TaskView.Act entry v v') (hnumber : entry.number = none) (S : Scheduled device v)
    (D : v.Distinct) (R : v.Records F) (hcurr : v.current = some p) (ht : v.tasks p = some t) :
    v'.stateOf p ≠ some .zombie ∧ v'.Records F ∨
      v'.stateOf p = some .zombie ∧
        ∃ F', F.after (.exit t.pid entry.exitStatus) = some F' ∧ v'.Records F' := by
  have hready : v.stateOf p = some .ready := (S.ready p).mp (.inl hcurr)
  cases h with
  | quiet => exact .inl ⟨by simp [hready], R⟩
  | fork _ _ _ _ h => exact absurd (h.symm.trans hnumber) (Option.some_ne_none _)
  | reap _ _ _ _ h => exact absurd (h.symm.trans hnumber) (Option.some_ne_none _)
  | wake w =>
    refine .inl ⟨?_, R.wake S⟩
    rw [stateOf, wake_tasks_of_notMem (S.current_notMem hcurr), ← stateOf, hready]
    decide
  | preempt q hq =>
    refine .inl ⟨?_, R.modify_kin fun _ _ => ⟨rfl, rfl⟩⟩
    change (v.save q entry.frame).stateOf p ≠ _
    rw [stateOf_save, hready]
    decide
  | block q w u frame hq hu =>
    rw [hcurr] at hq
    cases hq
    refine .inl ⟨?_, (R.block S hcurr).modify_kin fun _ _ => ⟨rfl, rfl⟩⟩
    rw [stateOf_save, stateOf_block_self hu]
    decide
  | exit q r u u' w saved hq hu hu' hw hpid =>
    rw [hcurr] at hq
    cases hq
    rw [ht] at hu
    cases hu
    refine .inr ⟨stateOf_exit S hcurr ht, ?_⟩
    obtain ⟨F', hafter, R'⟩ := R.exit S D hcurr ht hu' hw hpid
    refine ⟨F', hafter, ?_⟩
    cases saved with
    | none => exact R'
    | some frame => exact R'.modify_kin fun _ _ => ⟨rfl, rfl⟩

/-- The current process of the machine. -/
theorem Coherent.current_pcb (C : Coherent Live s L v) (hcurr : v.current = some p) :
    s.gCurrTask = p ∧ ∃ x context, s.pcbs p = some x ∧ v.tasks p = some (x.task context) := by
  obtain ⟨t, ht, -⟩ := TaskView.stateOf_eq_some.mp (C.current_ready hcurr)
  obtain ⟨x, hx, -, htask⟩ := C.pcb_of_task ht
  exact ⟨C.repr.current p hcurr, x, t.context, hx, ht.trans (congrArg some htask)⟩

theorem answer_back {info : InterruptInfo} {exit : ExitPath} {cpu : Cpu}
    (h : s'.gCurrTask = s.gCurrTask) :
    answer ⟨s, cpu⟩ (leaveKernel exit (some info, s')) = some (exit.regs info).rax := if_pos h

theorem answer_other {info? : Option InterruptInfo} {exit : ExitPath} {cpu : Cpu}
    (h : info? = none ∨ s'.gCurrTask ≠ s.gCurrTask) :
    answer ⟨s, cpu⟩ (leaveKernel exit (info?, s')) = none := by
  cases info? with
  | none => rfl
  | some info => exact if_neg (h.resolve_left nofun)

/-- The next process is not one that has left the processor. -/
theorem Coherent.loadNext_other {info? : Option InterruptInfo} (hM : M.Lawful Live)
    (C : Coherent Live s L v) (hcurr : v.current = none) (hstate : v.stateOf p ≠ some .ready)
    (h : pmLoadNextReadyProcess M s = .ok (info?, s')) :
    (info? = none ∨ s'.gCurrTask ≠ p) ∧ s'.family = s.family := by
  obtain ⟨-, hload⟩ := C.loadNext hM hcurr h
  rcases hload with ⟨hnone, -, C'⟩ | ⟨q, qs, t, hrun, -, -, -, C'⟩
  · exact ⟨.inl hnone, C'.family_eq C.records⟩
  · refine ⟨.inr ?_, C'.family_eq (C.records.congr fun _ => rfl)⟩
    rw [C'.repr.current q rfl]
    rintro rfl
    exact C.scheduled.notMem_runnable hstate (hrun ▸ .head _)

/-- What a system call does, seen from the process that made it: the call itself, and then either the
return to the process or the next one. -/
theorem syscallKernelHandler_recorded {regs : UserRegs} {env : SyscallEnv}
    {info? : Option InterruptInfo} (hM : M.Lawful Live) (C : Coherent Live s L v)
    (hcurr : v.current = some p) (hx : s.pcbs p = some x) (hfirst : s.gFirstTaskAdded = false)
    (hempty : ∀ w q, s.waitQueues w = none → s'.waitQueues w = some q → q = ⟨0, 0⟩)
    (hexec : regs.rax = 59 → env.path.fromKeyboard = false)
    (h : syscallKernelHandler M s (syscallFrame regs) env = .ok (info?, s')) :
    ∃ regs' s₁ y, syscallDispatch M s p (ring3Frame (syscallFrame regs)) env = .ok (regs', s₁) ∧
      s₁.pcbs p = some y ∧ (y.processState = .ready → info? = some regs' ∧ s' = s₁) ∧
      answer ⟨s, .user regs⟩ (leaveKernel .sysret (info?, s')) =
        (if y.processState = .ready then some regs'.rax else none) ∧
      s.family.replay (callDeed x.pid regs.rax regs.rdi
        (answer ⟨s, .user regs⟩ (leaveKernel .sysret (info?, s')))).toList = some s'.family := by
  have hp := C.repr.current p hcurr
  obtain ⟨⟨regs', s₁⟩, hdispatch, h⟩ := Exec.bind_eq_ok.mp h
  replace hdispatch : syscallDispatch M s p (ring3Frame (syscallFrame regs)) env = .ok (regs', s₁) := by
    rw [← hp]
    exact hdispatch
  obtain ⟨y, hy, h⟩ := Exec.bind_eq_ok.mp h
  rw [deref_eq_ok, hp] at hy
  -- The queues that the call made are those that are there in the end.
  have hqueues : s'.waitQueues = s₁.waitQueues := by
    dsimp only at h
    split at h
    · cases h
      rfl
    · obtain ⟨s₂, hstore, h⟩ := Exec.bind_eq_ok.mp h
      rw [pmLoadNextReadyProcess_waitQueues h, storeInfo_ok hstore]
      rfl
  rw [hqueues] at hempty
  obtain ⟨L', v', state, C', hstate, hcurr', hdeed⟩ :=
    syscallDispatch_recorded hM C hcurr hx hfirst hempty hexec hdispatch
  obtain ⟨context, -, ht⟩ := C'.task_of_pcb hy
  have heq : y.processState = state := by
    rw [TaskView.stateOf, ht, Option.map_some] at hstate
    exact Option.some.inj hstate
  dsimp only at h
  rw [heq] at h
  split at h
  · rename_i hreturns
    cases h
    have hready : state = .ready := by
      cases state
      · rfl
      · exact absurd rfl hreturns.1
      · exact absurd rfl hreturns.2
    rw [if_pos hready] at hdeed hcurr'
    have hanswer : answer ⟨s, .user regs⟩ (leaveKernel .sysret (some regs', s')) = some regs'.rax :=
      answer_back ((C'.repr.current p hcurr').trans hp.symm)
    rw [hanswer]
    exact ⟨regs', s', y, hdispatch, hy, fun _ => ⟨rfl, rfl⟩, (if_pos (heq.trans hready)).symm, hdeed⟩
  · rename_i hleaves
    have hready : state ≠ .ready := by
      rintro rfl
      exact hleaves (by decide)
    rw [if_neg hready] at hdeed hcurr'
    obtain ⟨s₂, hstore, h⟩ := Exec.bind_eq_ok.mp h
    obtain ⟨C₂, -⟩ := C'.save hy hstore
    have hstate₂ : ∀ frame, (v'.save p frame).stateOf p ≠ some .ready := by
      intro frame
      rw [TaskView.stateOf_save, hstate]
      exact fun h => hready (Option.some.inj h)
    have hfamily : s₂.family = s₁.family :=
      C₂.family_eq (C'.records.modify_kin fun _ _ => ⟨rfl, rfl⟩)
    obtain ⟨hnone, hfamily'⟩ := C₂.loadNext_other hM hcurr' (hstate₂ _) h
    rw [answer_other (hp ▸ hnone), hfamily', hfamily]
    exact ⟨regs', s₁, y, hdispatch, hy, fun h => absurd (heq.symm.trans h) hready,
      (if_neg (heq.trans_ne hready)).symm, hdeed⟩

/-- A machine that is reached, with what the processes did on the way. -/
inductive History (M : MemoryManager μ) (Live : μ → List Nat → Prop)
    (boots : BootInput μ → Machine μ → Prop) (steps : Machine μ → Event → Machine μ → Prop) :
    List Deed → Machine μ → Prop
  | boot {b : BootInput μ} {c : Machine μ} : b.Valid Live → b.machine M = .ok c → boots b c →
    History M Live boots steps [] c
  | step {deeds : List Deed} {c c' : Machine μ} {e : Event} : History M Live boots steps deeds c →
    TrazelOs.step M c e = .ok c' → steps c e c' →
    History M Live boots steps (deeds ++ (deed c e c').toList) c'

section
variable {boots : BootInput μ → Machine μ → Prop} {steps : Machine μ → Event → Machine μ → Prop}
  {deeds : List Deed}

theorem History.reachable (h : History M Live boots steps deeds c) :
    Reachable M Live boots steps c := by
  induction h with
  | boot hvalid hboot hcond => exact .boot hvalid hboot hcond
  | step _ hstep hcond ih => exact ih.step hstep hcond

end

end Machines

end

end TrazelOs
