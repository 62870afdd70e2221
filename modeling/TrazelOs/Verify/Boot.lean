import TrazelOs.Verify.Machine

/-! # The boot

`init_process_manager` makes the first process, which then runs. -/

namespace TrazelOs

variable {μ : Type} {M : MemoryManager μ} {Live : μ → List Nat → Prop} {s s' : System μ}
  {L L' : List Nat} {v : TaskView} {p : Nat}

/-- No processes. -/
def TaskView.empty : TaskView := ⟨fun _ => none, none, [], fun _ => []⟩

theorem bootSystem_objects {m : μ} {device : Nat} {queue : TaskQueue} (hlive : Live m L)
    (hnull : 0 ∉ L) (hnodup : L.Nodup) (hdevice : device ∈ L) :
    Objects Live (bootSystem m device queue) L := by
  have hkinds : ∀ p, kinds (bootSystem m device queue) p = if p = device then 1 else 0 := by
    intro p
    by_cases hp : p = device
    · subst hp
      simp [kinds, bootSystem]
    · simp [kinds, bootSystem, hp]
  refine ⟨hlive, hnull, hnodup, fun p => ?_, fun p hp => ?_, ?_, ?_⟩
  · rw [hkinds]
    split <;> decide
  · rw [hkinds] at hp
    split at hp
    · rename_i h
      exact h ▸ hdevice
    · exact absurd rfl hp
  · rintro f p ⟨file, hfile, -⟩
    cases hfile
  · rintro f f' p ⟨file, hfile, -⟩
    cases hfile

theorem bootSystem_table {m : μ} {device : Nat} {queue : TaskQueue} :
    ProcessTable (bootSystem m device queue) := by
  refine ⟨nofun, fun i hi => absurd rfl hi, nofun, nofun, nofun, nofun, ?_, nofun⟩
  simp [bootSystem]

theorem bootSystem_coherent {m : μ} {device : Nat} (hlive : Live m L) (hnull : 0 ∉ L)
    (hnodup : L.Nodup) (hdevice : device ∈ L) :
    Coherent Live (bootSystem m device ⟨0, 0⟩) L .empty := by
  refine ⟨bootSystem_objects hlive hnull hnodup hdevice, bootSystem_table,
    ⟨rfl, nofun, Theory.Fifo.empty, fun w q hq => ?_, fun _ _ => rfl⟩, ?_⟩
  · by_cases hw : w = device
    · subst hw
      simp only [bootSystem, Function.update_self, Option.some.injEq] at hq
      subst hq
      exact Theory.Fifo.empty
    · simp [bootSystem, hw] at hq
  · exact ⟨fun p => by simp [TaskView.empty, TaskView.stateOf],
      fun p => by simp [TaskView.empty, TaskView.stateOf], nofun, nofun, nofun⟩

theorem generatePid_first (h : s.gProcessList 1 = 0) : generatePid s = .ok 1 := by
  have hfind : (List.range' 1 (maxPids - 1)).find? (s.gProcessList · = 0) = some 1 := by
    rw [show maxPids - 1 = 4094 + 1 from rfl, List.range'_succ, List.find?_cons_of_pos]
    simpa using h
  rw [generatePid, hfind]

/-- The control block of the first process. -/
def initPcb (pid parentWaitQueue pagemapHhdmPtr processHeapPtr interruptInfo ttyDev : Nat) : Pcb where
  pid := pid
  ppid := 0
  exitStatus := 0
  killSignal := false
  processState := .ready
  parentWaitQueue := parentWaitQueue
  pagemapHhdmPtr := pagemapHhdmPtr
  processHeapPtr := processHeapPtr
  interruptInfo := interruptInfo
  fds := fun i => if i.val < 3 then ttyDev else 0
  next := 0

/-- What `init_process_manager` makes before the first process is listed. -/
theorem initProcessManager_new {init : Lookup} {entryPoint : Nat} (hM : M.Lawful Live)
    (O : Objects Live s L) (hinit : init.fromKeyboard = false)
    (h : initProcessManager M s init = .ok (entryPoint, s')) :
    ∃ y child addr, ∃ (s₁ s₂ : System μ) (L₁ : List Nat), generatePid s = .ok y.pid ∧ y.ppid = 0 ∧
      y.processState = .ready ∧ NewProcess Live s L y default child s₁ L₁ ∧ addr ∈ L₁ ∧
      addr ≠ child ∧ Unclaimed s₁ addr ∧
      schedulerAddTask (listProcess s₁ y child) child = .ok s₂ ∧ s₂.kfree M addr = .ok s' ∧
      ∃ tty, tty ≠ 0 ∧ s₁.refCount tty = some 1 ∧ y.fds = fun i => if i.val < 3 then tty else 0 := by
  obtain ⟨⟨child, s₁⟩, hnew, h⟩ := Exec.bind_eq_ok.mp h
  obtain ⟨-, hchild, ⟨m₁, rfl⟩, O₁⟩ := O.newObject_ok hM hnew
  obtain ⟨pid, hpid, h⟩ := Exec.bind_eq_ok.mp h
  obtain ⟨⟨queue, s₂⟩, hqueue, h⟩ := Exec.bind_eq_ok.mp h
  obtain ⟨⟨tty, s₃⟩, htty, h⟩ := Exec.bind_eq_ok.mp h
  obtain ⟨_, httyNe, h⟩ := Exec.bind_eq_ok.mp h
  obtain ⟨⟨file, s₄⟩, hopen, h⟩ := Exec.bind_eq_ok.mp h
  obtain ⟨_, hfile, h⟩ := Exec.bind_eq_ok.mp h
  rw [kernelAssert_eq_ok] at hfile httyNe
  obtain ⟨⟨pagemap, m₅⟩, hcreate, h⟩ := Exec.bind_eq_ok.mp h
  obtain ⟨⟨info?, s₅⟩, hload, h⟩ := Exec.bind_eq_ok.mp h
  obtain ⟨L₂, O₂, hkept, hqueueNew, hu₂, hpcbs, hinfos, -, hqueues, hlist, hrun, hkeyboard, hsteady⟩ :=
    newQueue_ok hM O hchild O₁ hqueue
  obtain ⟨L₃, htty⟩ := vfsOpen_ok hM O₂ htty
  obtain ⟨L₄, hopen⟩ := vfsOpen_ok hM htty.objects hopen
  have hdisk := hopen.disk hfile hinit
  have O₄ := hopen.objects.withMem (hM.vmmCreateNewPagemap hopen.objects.live hcreate)
  obtain ⟨⟨hframe, hsame⟩, ⟨rfl, -⟩ | ⟨info, rfl, huInfo, O₅⟩⟩ :=
    (loadFrame_disk hM).loadElfToMemory_ok hM O₄ hdisk hload
  · cases h
  dsimp only at h
  obtain ⟨⟨stackPage, m₆⟩, halloc, h⟩ := Exec.bind_eq_ok.mp h
  obtain ⟨⟨r, m₇⟩, hmap, h⟩ := Exec.bind_eq_ok.mp h
  obtain ⟨_, -, h⟩ := Exec.bind_eq_ok.mp h
  obtain ⟨⟨context, s₈⟩, hnew, h⟩ := Exec.bind_eq_ok.mp h
  obtain ⟨s₉, hadd, h⟩ := Exec.bind_eq_ok.mp h
  obtain ⟨s₁₀, hfree, h⟩ := Exec.bind_eq_ok.mp h
  cases h
  have hlive := hM.vmmMapPage (hM.pmmAllocPage O₅.live halloc) hmap
  have O₇ := O₅.withMem (hM.vmmReloadCr3 (p := pagemap) hlive)
  obtain ⟨-, hcontext, ⟨m₈, rfl⟩, O₈⟩ := O₇.newObject_ok hM hnew
  have O₉ : Objects Live (System.setInfo { s₅ with mem := m₈ } context default) _ :=
    O₈.addInfo (.head _) (O₇.unclaimed_of_notMem hcontext)
  have hmem₃ : child ∈ L₃ := htty.kept (hkept (.head _))
  have hmem₄ : child ∈ L₄ := hopen.kept hmem₃
  have hne : info.addr ≠ child := fun h => (List.nodup_cons.mp O₅.nodup).1 (h ▸ hmem₄)
  have hsetInfo : ∀ {q}, q ∈ info.addr :: L₄ → Unclaimed s₅ q →
      Unclaimed (System.setInfo { s₅ with mem := m₈ } context default) q := fun hq hu =>
    hu.congr rfl rfl (Function.update_of_ne (ne_of_mem_of_not_mem hq hcontext) _ _) (.of_eq rfl)
  have hu₄ := hopen.unclaimed hmem₃ (htty.unclaimed (hkept (.head _)) hu₂)
  have hu₅ : Unclaimed s₅ child := hframe.unclaimed hsame.contents hu₄
  obtain ⟨_, _, heq⟩ := (htty.frame.trans hopen.frame).trans (FilesOnly.mem.trans hframe)
  have hkept₄ : L ⊆ L₄ := fun q hq => hopen.kept (htty.kept (hkept (.tail _ hq)))
  have hcount : s₅.refCount tty = some 1 := by
    have htty₃ : s₃.refCount tty = some 1 :=
      (congrFun (htty.refCount O₂ httyNe).2 tty).trans (Function.update_self ..)
    obtain ⟨hfresh, hcount₄⟩ := hopen.refCount htty.objects hfile
    have hne : tty ≠ file := by
      rintro rfl
      rw [System.refCount, hfresh] at htty₃
      cases htty₃
    exact (congrFun (hsame.refCount.trans hcount₄) tty).trans ((Function.update_of_ne hne ..).trans htty₃)
  refine ⟨initPcb pid queue pagemap info.heapStart context tty, child, info.addr, _, s₉,
    context :: info.addr :: L₄, hpid, rfl, rfl, ⟨O₉, fun q hq => .tail _ (.tail _ (hkept₄ hq)),
      ⟨.tail _ (.tail _ hmem₄), hchild, hsetInfo (.tail _ hmem₄) hu₅⟩,
      fun h => hcontext (.tail _ (hkept₄ h)), hqueueNew, (congrArg System.pcbs heq).trans hpcbs,
      ?_, ?_, (congrArg System.gProcessList heq).trans hlist,
      (congrArg System.gRunnableTasks heq).trans hrun,
      (congrArg System.keyboard heq).trans hkeyboard, hsteady.trans ?_⟩, .tail _ (.head _), hne,
    hsetInfo (.head _) huInfo, hadd, hfree, tty, httyNe, hcount, rfl⟩
  · exact congrArg (Function.update · context _) ((congrArg System.infos heq).trans hinfos)
  · have hwaitQueues : s₅.waitQueues = s₂.waitQueues := by rw [heq]
    rwa [← hwaitQueues] at hqueues
  · rw [heq]
    exact ⟨rfl, rfl, rfl, rfl⟩

section Listed
variable {y : Pcb} {child addr : Nat} {s₁ s₂ : System μ}

theorem listed_unclaimed (hu : Unclaimed s₁ addr) (hne : addr ≠ child)
    (h : schedulerAddTask (listProcess s₁ y child) child = .ok s₂) : Unclaimed s₂ addr := by
  have hu₁ : Unclaimed (listProcess s₁ y child) addr :=
    hu.congr (Function.update_of_ne hne _ _) rfl rfl (.of_eq rfl)
  exact (schedulerAddTask_links h).unclaimed hu₁

theorem listed_waitQueues (hu : Unclaimed s₂ addr)
    (h : schedulerAddTask (listProcess s₁ y child) child = .ok s₂)
    (hfree : s₂.kfree M addr = .ok s') : s'.waitQueues = s₁.waitQueues := by
  obtain ⟨m, -, rfl⟩ := Objects.kfree_eq_ok.mp hfree
  obtain ⟨_, heq, -⟩ := schedulerAddTask_links h
  have hqueues := congrArg System.waitQueues heq
  exact (Objects.update_none (kinds_eq_zero.mp hu.1).2.1).trans hqueues

end Listed

/-- The boot makes at most one wait queue. -/
theorem initProcessManager_waitQueues {init : Lookup} {entryPoint : Nat} (hM : M.Lawful Live)
    (O : Objects Live s L) (hinit : init.fromKeyboard = false)
    (h : initProcessManager M s init = .ok (entryPoint, s')) :
    s'.waitQueues = s.waitQueues ∨ ∃ w q, s'.waitQueues = Function.update s.waitQueues w (some q) := by
  obtain ⟨y, p, addr, s₁, s₂, L₁, -, -, -, F, -, hne, hu, hadd, hfree, -⟩ :=
    initProcessManager_new hM O hinit h
  rw [listed_waitQueues (listed_unclaimed hu hne hadd) hadd hfree]
  exact F.waitQueues.imp And.right fun ⟨_, q, hq⟩ => ⟨_, q, hq⟩

/-- The first process is taken from the queue at once. -/
theorem Coherent.boot {init : Lookup} {entryPoint : Nat} (hM : M.Lawful Live)
    (C : Coherent Live s L .empty) (hlist : s.gProcessList 1 = 0)
    (hfirst : s.gFirstTaskAdded = true) (hinit : init.fromKeyboard = false)
    (hempty : ∀ w q, s.waitQueues w = none → s'.waitQueues w = some q → q = ⟨0, 0⟩)
    (h : initProcessManager M s init = .ok (entryPoint, s')) :
    ∃ p t L', t.pid = 1 ∧ t.ppid = 0 ∧ t.state = .ready ∧
      Coherent Live s' L' ((TaskView.empty.fork p t).dispatch p []) ∧
      s'.gFirstTaskAdded = false ∧ s'.gCpuIsIdle = s.gCpuIsIdle := by
  obtain ⟨y, p, addr, s₁, s₂, L₁, hpid, hppid, hready, F, haddr, hne, hu, hadd, hfree, -⟩ :=
    initProcessManager_new hM C.objects hinit h
  rw [generatePid_first hlist] at hpid
  have hy : y.pid = 1 := (Except.ok.inj hpid).symm
  have hu₂ := listed_unclaimed hu hne hadd
  have hqueues := listed_waitQueues hu₂ hadd hfree
  obtain ⟨⟨q, s₃⟩, henqueue, hadd⟩ := Exec.bind_eq_ok.mp hadd
  have hlinks := taskEnqueue_links henqueue
  have hfirst₃ : s₃.gFirstTaskAdded = true := by
    rw [hlinks.steady.firstTaskAdded]
    exact F.steady.firstTaskAdded.trans hfirst
  dsimp only at hadd
  rw [if_pos hfirst₃] at hadd
  obtain ⟨⟨p', q', s₄⟩, hdequeue, hadd⟩ := Exec.bind_eq_ok.mp hadd
  cases hadd
  replace hqueues : s'.waitQueues = s₃.waitQueues := by
    obtain ⟨_, rfl, -⟩ := hlinks
    exact hqueues
  rw [hqueues] at hempty
  obtain ⟨-, hsteady, C₃⟩ := C.enlist F (Nat.le_of_eq hy.symm) (hy ▸ by decide) (hy ▸ hlist)
    hready henqueue hempty
  obtain ⟨rfl, -, C₄⟩ := C₃.dispatch rfl rfl hdequeue
  have C₅ : Coherent Live { s₄ with
      gRunnableTasks := q', gCurrTask := p', gFirstTaskAdded := false } L₁
      ((TaskView.empty.fork p' (y.task default)).dispatch p' []) := C₄.setFlags
  obtain ⟨hmem, O₆⟩ := C₅.objects.kfree_unclaimed hM haddr hu₂ hfree
  have hidle : s'.gCpuIsIdle = s.gCpuIsIdle := hmem.sameTasks.steady.cpuIsIdle.trans
    ((taskDequeue_links hdequeue).steady.cpuIsIdle.trans hsteady.cpuIsIdle)
  exact ⟨p', y.task default, _, hy, hppid, hready, C₅.sameTasks hmem.sameTasks O₆,
    hmem.sameTasks.steady.firstTaskAdded, hidle⟩

/-! ## Runs -/

/-- What the boot starts from: the memory, the wait queue of the keyboard with the pointers that the
memory held before, the file `/sbin/init` and the registers of the kernel. -/
structure BootInput (μ : Type) where
  mem : μ
  device : Nat
  queue : TaskQueue
  init : Lookup
  regs : InterruptInfo

def BootInput.machine (M : MemoryManager μ) (b : BootInput μ) : Exec (Machine μ) :=
  boot M (bootSystem b.mem b.device b.queue) b.init b.regs

/-- The wait queue of the keyboard is a block of the heap, and `/sbin/init` is not a device. -/
def BootInput.Valid (Live : μ → List Nat → Prop) (b : BootInput μ) : Prop :=
  b.init.fromKeyboard = false ∧ ∃ L, Live b.mem L ∧ 0 ∉ L ∧ L.Nodup ∧ b.device ∈ L

/-- The machines that are reached from a boot when the boot and every step meet a condition. -/
inductive Reachable (M : MemoryManager μ) (Live : μ → List Nat → Prop)
    (boots : BootInput μ → Machine μ → Prop) (steps : Machine μ → Event → Machine μ → Prop) :
    Machine μ → Prop
  | boot {b : BootInput μ} {c : Machine μ} : b.Valid Live → b.machine M = .ok c → boots b c →
    Reachable M Live boots steps c
  | step {c c' : Machine μ} {e : Event} : Reachable M Live boots steps c → step M c e = .ok c' →
    steps c e c' → Reachable M Live boots steps c'

/-- The wait queues that are made in the boot are empty. -/
def OrderlyBoot (b : BootInput μ) (c : Machine μ) : Prop :=
  b.queue = ⟨0, 0⟩ ∧ ∀ w q, w ≠ b.device → c.sys.waitQueues w = some q → q = ⟨0, 0⟩

/-- The wait queues that are made in the step are empty, and no program is read from the keyboard. -/
def OrderlyStep (c : Machine μ) (e : Event) (c' : Machine μ) : Prop :=
  CreatedEmpty c c' ∧ ExecOnDisk c e

/-- The view when the first process has started. -/
def TaskView.first (p : Nat) (t : Task) : TaskView := (TaskView.empty.fork p t).dispatch p []

theorem MachineInv.boot {b : BootInput μ} {c : Machine μ} (hM : M.Lawful Live)
    (hvalid : b.Valid Live) (h : b.machine M = .ok c) (horderly : OrderlyBoot b c) :
    ∃ p t, t.pid = 1 ∧ t.ppid = 0 ∧ t.state = .ready ∧ MachineInv Live c (.first p t) := by
  obtain ⟨hinit, L, hlive, hnull, hnodup, hdevice⟩ := hvalid
  obtain ⟨hqueue, hempty⟩ := horderly
  obtain ⟨⟨entryPoint, s⟩, hboot, h⟩ := Exec.bind_eq_ok.mp h
  cases h
  rw [hqueue] at hboot
  have C : Coherent Live (bootSystem b.mem b.device ⟨0, 0⟩) L .empty :=
    bootSystem_coherent hlive hnull hnodup hdevice
  have hnew : ∀ w q, (bootSystem b.mem b.device ⟨0, 0⟩).waitQueues w = none →
      s.waitQueues w = some q → q = ⟨0, 0⟩ := by
    intro w q hw hq
    refine hempty w q ?_ hq
    rintro rfl
    simp [bootSystem] at hw
  obtain ⟨p, t, L', hpid, hppid, hstate, C', hfirst, hidle⟩ := C.boot hM rfl rfl hinit hnew hboot
  exact ⟨p, t, hpid, hppid, hstate, ⟨L', C'⟩, hfirst, rfl, hidle⟩

section Reachable
variable {boots : BootInput μ → Machine μ → Prop} {steps : Machine μ → Event → Machine μ → Prop}
  {c : Machine μ}

/-- A property of views that holds at the boot and is kept by every step holds in every machine that
is reached. -/
theorem Reachable.view {P : TaskView → Prop} (hM : M.Lawful Live)
    (hboots : ∀ b c, boots b c → OrderlyBoot b c)
    (hsteps : ∀ c e c', steps c e c' → OrderlyStep c e c')
    (hboot : ∀ p t, t.pid = 1 → t.ppid = 0 → t.state = .ready → P (.first p t))
    (hstep : ∀ c e c' v v₁ v₂, MachineInv Live c v → P v → steps c e c' →
      Stepped Live c e v c' v₁ v₂ → P v₂)
    (h : Reachable M Live boots steps c) : ∃ v, MachineInv Live c v ∧ P v := by
  induction h with
  | boot hvalid h horderly =>
    obtain ⟨p, t, hpid, hppid, hstate, I⟩ := MachineInv.boot hM hvalid h (hboots _ _ horderly)
    exact ⟨_, I, hboot p t hpid hppid hstate⟩
  | step _ h hcond ih =>
    obtain ⟨v, I, hv⟩ := ih
    obtain ⟨hempty, hexec⟩ := hsteps _ _ _ hcond
    obtain ⟨v₁, v₂, hstepped⟩ := I.step hM h hempty hexec
    exact ⟨v₂, hstepped.inv, hstep _ _ _ _ _ _ I hv hcond hstepped⟩

/-- The invariant holds in every machine that is reached. -/
theorem Reachable.inv (hM : M.Lawful Live) (h : Reachable M Live OrderlyBoot OrderlyStep c) :
    ∃ v, MachineInv Live c v := by
  obtain ⟨v, I, -⟩ := h.view (P := fun _ => True) hM (fun _ _ h => h) (fun _ _ _ h => h)
    (fun _ _ _ _ _ => trivial) fun _ _ _ _ _ _ _ _ _ _ => trivial
  exact ⟨v, I⟩

end Reachable

end TrazelOs
