import TrazelOs.Verify.Boot

/-! # What holds whatever the queues hold

`pm_create_wait_queue` leaves the pointers of a queue as the memory had them, and a program may be
read from the keyboard: then processes are lost from their queues or are in two of them. The
objects, the process table and the flags of the scheduler stay in order all the same. -/

namespace TrazelOs

variable {μ : Type}

/-- The objects and the process table are in order. -/
structure Intact (Live : μ → List Nat → Prop) (s : System μ) (L : List Nat) : Prop where
  objects : Objects Live s L
  table : ProcessTable s

/-- Every object is where it was, and the control blocks belong to the same processes. -/
structure Drifts (s s' : System μ) : Prop where
  steady : Steady s s'
  pcbs : ∀ p, (s'.pcbs p).map Pcb.ids = (s.pcbs p).map Pcb.ids
  waitQueues : ∀ w, (s'.waitQueues w).isSome = (s.waitQueues w).isSome
  infos : ∀ a, (s'.infos a).isSome = (s.infos a).isSome
  processList : s'.gProcessList = s.gProcessList

/-- Processes move between the queue `w` and the runnable ones. -/
structure Moves (w : Nat) (s s' : System μ) : Prop extends Drifts s s' where
  mem : s'.mem = s.mem
  files : s'.files = s.files
  keyboard : s'.keyboard = s.keyboard
  others : ∀ w', w' ≠ w → s'.waitQueues w' = s.waitQueues w'

section
variable {M : MemoryManager μ} {Live : μ → List Nat → Prop} {s s' : System μ} {L L' : List Nat}
  {v : TaskView} {p w : Nat} {x : Pcb}

theorem Coherent.intact (C : Coherent Live s L v) : Intact Live s L := ⟨C.objects, C.table⟩

/-! ## Frames -/

namespace Drifts

theorem refl : Drifts s s := ⟨.refl, fun _ => rfl, fun _ => rfl, fun _ => rfl, rfl⟩

theorem trans {s₁ s₂ s₃ : System μ} (h : Drifts s₁ s₂) (h' : Drifts s₂ s₃) : Drifts s₁ s₃ :=
  ⟨h.steady.trans h'.steady, fun p => (h'.pcbs p).trans (h.pcbs p),
    fun w => (h'.waitQueues w).trans (h.waitQueues w), fun a => (h'.infos a).trans (h.infos a),
    h'.processList.trans h.processList⟩

theorem kinds_eq (h : Drifts s s') (hfiles : ∀ f, (s'.files f).isSome = (s.files f).isSome) :
    kinds s' p = kinds s p := by
  have hpcb : (s'.pcbs p).isSome = (s.pcbs p).isSome := by
    rw [← Option.isSome_map (f := Pcb.ids), h.pcbs, Option.isSome_map]
  rw [kinds, kinds, hpcb, h.waitQueues, h.infos, hfiles]

end Drifts

theorem Intact.drift (I : Intact Live s L) (h : Drifts s s') (O : Objects Live s' L') :
    Intact Live s' L' :=
  ⟨O, I.table.congr h.pcbs h.processList (fun a ha => (h.infos a).trans ha)
    (fun w hw => (h.waitQueues w).trans hw) h.steady.device⟩

theorem SameTasks.drifts (h : SameTasks s s') : Drifts s s' := by
  have hids : ∀ o : Option Pcb, o.map Pcb.ids = (o.map Pcb.core).map Pcb.ids := by
    intro o
    cases o <;> rfl
  refine ⟨h.steady, fun p => ?_, fun w => by rw [h.waitQueues], fun a => by rw [h.infos],
    h.processList⟩
  rw [hids, h.pcbs, ← hids]

namespace Moves

theorem refl : Moves w s s := ⟨.refl, rfl, rfl, rfl, fun _ _ => rfl⟩

theorem trans {s₁ s₂ s₃ : System μ} (h : Moves w s₁ s₂) (h' : Moves w s₂ s₃) : Moves w s₁ s₃ :=
  ⟨h.toDrifts.trans h'.toDrifts, h'.mem.trans h.mem, h'.files.trans h.files,
    h'.keyboard.trans h.keyboard, fun w' hw => (h'.others w' hw).trans (h.others w' hw)⟩

theorem setPcb {x' : Pcb} (hx : s.pcbs p = some x) (hids : x'.ids = x.ids) :
    Moves w s (s.setPcb p x') := by
  refine ⟨⟨.setPcb, fun q => ?_, fun _ => rfl, fun _ => rfl, rfl⟩, rfl, rfl, rfl, fun _ _ => rfl⟩
  by_cases hq : q = p
  · subst hq
    simp [System.setPcb, hx, hids]
  · simp [System.setPcb, hq]

theorem setWaitQueue {q q' : TaskQueue} (hq : s.waitQueues w = some q) :
    Moves w s (s.setWaitQueue w q') := by
  refine ⟨⟨.setWaitQueue, fun _ => rfl, fun w' => ?_, fun _ => rfl, rfl⟩, rfl, rfl, rfl,
    fun w' hw => Function.update_of_ne hw _ _⟩
  by_cases hw : w' = w
  · subst hw
    simp [System.setWaitQueue, hq]
  · simp [System.setWaitQueue, hw]

theorem setRunnable {q : TaskQueue} : Moves w s { s with gRunnableTasks := q } :=
  ⟨⟨⟨rfl, rfl, rfl, rfl⟩, fun _ => rfl, fun _ => rfl, fun _ => rfl, rfl⟩, rfl, rfl, rfl,
    fun _ _ => rfl⟩

theorem objects (h : Moves w s s') (O : Objects Live s L) : Objects Live s' L := by
  refine O.congr h.mem (fun p => h.kinds_eq fun f => by rw [h.files]) fun f p => ?_
  rw [ContentOf, ContentOf, h.files]
  exact id

theorem intact (h : Moves w s s') (I : Intact Live s L) : Intact Live s' L :=
  I.drift h.toDrifts (h.objects I.objects)

end Moves

theorem LinksOnly.moves (h : LinksOnly s s') : Moves w s s' := by
  have hids : ∀ o : Option Pcb, o.map Pcb.ids = (o.map Pcb.unlinked).map Pcb.ids := by
    intro o
    cases o <;> rfl
  have hsteady := h.steady
  obtain ⟨pcbs, rfl, hpcbs⟩ := h
  refine ⟨⟨hsteady, fun p => ?_, fun _ => rfl, fun _ => rfl, rfl⟩, rfl, rfl, rfl, fun _ _ => rfl⟩
  rw [hids (pcbs p), hpcbs, ← hids]

theorem modifyPcb_moves {f : Pcb → Pcb} (h : s.modifyPcb p f = .ok s')
    (hids : ∀ x, (f x).ids = x.ids) : Moves w s s' := by
  obtain ⟨x, hx, rfl⟩ := modifyPcb_ok h
  exact .setPcb hx (hids x)

/-! ## Queues -/

theorem pmWaitqueueEnqueue_moves (h : pmWaitqueueEnqueue s w = .ok s') : Moves w s s' := by
  obtain ⟨s₁, hmodify, h⟩ := Exec.bind_eq_ok.mp h
  obtain ⟨q, hq, h⟩ := Exec.bind_eq_ok.mp h
  obtain ⟨⟨q', s₂⟩, henqueue, h⟩ := Exec.bind_eq_ok.mp h
  cases h
  rw [deref_eq_ok] at hq
  have hlinks := taskEnqueue_links henqueue
  have hq₂ : s₂.waitQueues w = some q := by
    obtain ⟨_, rfl, -⟩ := hlinks
    exact hq
  exact (modifyPcb_moves hmodify fun _ => rfl).trans (hlinks.moves.trans (.setWaitQueue hq₂))

theorem wakeFirst_moves {q : TaskQueue} (hq : s.waitQueues w = some q)
    (h : wakeFirst s w q = .ok s') : Moves w s s' := by
  obtain ⟨⟨task, q₁, s₁⟩, hdequeue, h⟩ := Exec.bind_eq_ok.mp h
  obtain ⟨s₂, hmodify, h⟩ := Exec.bind_eq_ok.mp h
  obtain ⟨⟨q₂, s₃⟩, henqueue, h⟩ := Exec.bind_eq_ok.mp h
  cases h
  have hlinks := taskDequeue_links hdequeue
  have hq₁ : s₁.waitQueues w = some q := by
    obtain ⟨_, rfl, -⟩ := hlinks
    exact hq
  exact hlinks.moves.trans ((Moves.setWaitQueue hq₁).trans
    ((modifyPcb_moves hmodify fun _ => rfl).trans
      ((taskEnqueue_links henqueue).moves.trans .setRunnable)))

/-- The loop ends when the head of the queue is null. -/
theorem wakeLoop_moves {turns : Nat} (h : pmWaitqueueDequeueAll.loop w turns s = .ok s') :
    Moves w s s' ∧ ∃ q, s'.waitQueues w = some q ∧ q.queuesHead = 0 := by
  induction turns generalizing s with
  | zero => cases h
  | succ turns ih =>
    obtain ⟨q, hq, h⟩ := Exec.bind_eq_ok.mp h
    rw [deref_eq_ok] at hq
    split at h
    · rename_i hhead
      cases h
      exact ⟨.refl, q, hq, hhead⟩
    · obtain ⟨s₁, hfirst, h⟩ := Exec.bind_eq_ok.mp h
      obtain ⟨hmoves, hempty⟩ := ih h
      exact ⟨(wakeFirst_moves hq hfirst).trans hmoves, hempty⟩

theorem pmWaitqueueDequeueAll_moves (h : pmWaitqueueDequeueAll s w = .ok s') :
    Moves w s s' ∧ ∃ q, s'.waitQueues w = some q ∧ q.queuesHead = 0 := wakeLoop_moves h

/-! ## Operations that leave the keyboard alone -/

/-- The state stays intact, and the keyboard and its queue are as before. -/
structure Keeps (Live : μ → List Nat → Prop) (s s' : System μ) : Prop where
  intact : ∃ L', Intact Live s' L'
  steady : Steady s s'
  keyboard : s'.keyboard = s.keyboard
  device : s'.waitQueues s.keyboard.deviceWaitQueue = s.waitQueues s.keyboard.deviceWaitQueue

namespace Keeps

theorem refl (I : Intact Live s L) : Keeps Live s s := ⟨⟨L, I⟩, .refl, rfl, rfl⟩

theorem trans {s₁ s₂ s₃ : System μ} (h : Keeps Live s₁ s₂) (h' : Keeps Live s₂ s₃) :
    Keeps Live s₁ s₃ := by
  refine ⟨h'.intact, h.steady.trans h'.steady, h'.keyboard.trans h.keyboard, ?_⟩
  have := h'.device
  rw [h.keyboard] at this
  exact this.trans h.device

end Keeps

theorem Moves.keeps (h : Moves w s s') (I : Intact Live s L) (hw : w ≠ s.keyboard.deviceWaitQueue) :
    Keeps Live s s' := ⟨⟨L, h.intact I⟩, h.steady, h.keyboard, h.others _ hw.symm⟩

theorem Undisturbed.keeps (h : Undisturbed Live s s') (I : Intact Live s L) : Keeps Live s s' := by
  obtain ⟨L', O, hsame⟩ := h
  exact ⟨⟨L', I.drift hsame.drifts O⟩, hsame.steady, hsame.keyboard, by rw [hsame.waitQueues]⟩

namespace Intact

theorem pcb_null (I : Intact Live s L) : s.pcbs 0 = none := by
  cases h : s.pcbs 0 with
  | none => rfl
  | some x => exact absurd (I.objects.mem_of_pcb h) I.objects.null

theorem setPcb {x' : Pcb} (I : Intact Live s L) (hx : s.pcbs p = some x) (hids : x'.ids = x.ids) :
    Keeps Live s (s.setPcb p x') :=
  ⟨⟨L, I.objects.setPcb hx, I.table.setPcb hx hids⟩, .setPcb, rfl, rfl⟩

theorem storeInfo {a : Nat} {frame : InterruptInfo} (I : Intact Live s L)
    (h : s.storeInfo a frame = .ok s') : Keeps Live s s' := by
  obtain ⟨info, hinfo, h⟩ := Exec.bind_eq_ok.mp h
  cases h
  exact ⟨⟨L, I.objects.setInfo (deref_eq_ok.mp hinfo), I.table.setInfo⟩, ⟨rfl, rfl, rfl, rfl⟩, rfl,
    rfl⟩

theorem reparent {pid : Nat} (I : Intact Live s L) (h : reparentChildren s pid = .ok s') :
    Keeps Live s s' := by
  rw [reparentChildren_eq I.table I.pcb_null h]
  have hids : ∀ x : Pcb, (x.reparent pid).ids = x.ids := by
    intro x
    unfold Pcb.reparent
    split <;> rfl
  have hdrifts : Drifts s (s.reparented pid) := by
    refine ⟨⟨rfl, rfl, rfl, rfl⟩, fun p => ?_, fun _ => rfl, fun _ => rfl, rfl⟩
    simp only [System.reparented, Option.map_map, Function.comp_def, hids]
  exact ⟨⟨L, I.drift hdrifts (I.objects.congr rfl (fun p => hdrifts.kinds_eq fun _ => rfl)
    fun _ _ h => h)⟩, hdrifts.steady, rfl, rfl⟩

theorem exit {status : Int} (hM : M.Lawful Live) (I : Intact Live s L)
    (h : pmExit M s status p = .ok s') : Keeps Live s s' := by
  obtain ⟨s₁, hmodify, h⟩ := Exec.bind_eq_ok.mp h
  obtain ⟨x, hx, rfl⟩ := modifyPcb_ok hmodify
  have hkeeps₁ : Keeps Live s
      (s.setPcb p { x with exitStatus := status, processState := .zombie }) := I.setPcb hx rfl
  obtain ⟨s₂, hclose, h⟩ := Exec.bind_eq_ok.mp h
  obtain ⟨L₁, I₁⟩ := hkeeps₁.intact
  have hkeeps₂ := Undisturbed.keeps (closeFds_ok hM I₁.objects hclose) I₁
  obtain ⟨L₂, I₂⟩ := hkeeps₂.intact
  obtain ⟨x₂, -, h⟩ := Exec.bind_eq_ok.mp h
  obtain ⟨s₃, hreparent, h⟩ := Exec.bind_eq_ok.mp h
  have hkeeps₃ := I₂.reparent hreparent
  obtain ⟨L₃, I₃⟩ := hkeeps₃.intact
  obtain ⟨x₃, -, h⟩ := Exec.bind_eq_ok.mp h
  obtain ⟨q, -, h⟩ := Exec.bind_eq_ok.mp h
  obtain ⟨_, -, h⟩ := Exec.bind_eq_ok.mp h
  obtain ⟨y, hy, h⟩ := Exec.bind_eq_ok.mp h
  rw [deref_eq_ok] at hy
  have hkeeps₄ := (pmWaitqueueDequeueAll_moves h).1.keeps I₃ (I₃.table.deviceOnce q y hy)
  exact hkeeps₁.trans (hkeeps₂.trans (hkeeps₃.trans hkeeps₄))

theorem wait {status n : Nat} (hM : M.Lawful Live) (I : Intact Live s L)
    (h : pmWait M s status p = .ok (n, s')) : Keeps Live s s' := by
  obtain ⟨x, hx, h⟩ := Exec.bind_eq_ok.mp h
  rw [deref_eq_ok] at hx
  obtain ⟨r, hscan, h⟩ := Exec.bind_eq_ok.mp h
  cases waitScan_ok hscan with
  | zombie _ hchild _ =>
    obtain ⟨hlist, hy, -⟩ := hchild
    obtain ⟨-, hreaped, -, L', O'⟩ := reapChild_ok hM I.objects I.table hy h
    have hdevice := I.table.deviceOnce _ _ hy
    refine ⟨⟨L', O', I.table.reap hy (I.table.pid_of_listed hlist hy) hreaped⟩, hreaped.steady,
      hreaped.keyboard, ?_⟩
    rw [hreaped.waitQueues, Function.update_of_ne hdevice.symm]
  | @done children _ _ =>
    cases children with
    | false =>
      cases h
      exact .refl I
    | true =>
      obtain ⟨s₁, henqueue, h⟩ := Exec.bind_eq_ok.mp h
      cases h
      exact (pmWaitqueueEnqueue_moves henqueue).keeps I (I.table.deviceOnce p x hx)

/-- The new process is in the table, and made runnable. -/
theorem enlist {y : Pcb} {context : InterruptInfo} {child : Nat} {s₁ : System μ} {L₁ : List Nat}
    (I : Intact Live s L) (F : NewProcess Live s L y context child s₁ L₁) (hpos : 1 ≤ y.pid)
    (hlt : y.pid < maxPids) (hfree : s.gProcessList y.pid = 0)
    (h : schedulerAddTask (listProcess s₁ y child) child = .ok s') :
    Intact Live s' L₁ ∧ s'.keyboard = s₁.keyboard ∧ s'.waitQueues = s₁.waitQueues ∧
      s'.gCpuIsIdle = s.gCpuIsIdle := by
  have I₂ : Intact Live (listProcess s₁ y child) L₁ :=
    ⟨(F.objects.addPcb F.childMem.1 F.childMem.2.2).congr rfl (fun _ => rfl) fun _ _ h => h,
      I.table.fork I.objects F hpos hlt hfree⟩
  have hlinks := schedulerAddTask_links h
  have I₃ := (hlinks.moves (w := 0)).intact I₂
  refine ⟨⟨I₃.objects.congr rfl (fun _ => rfl) fun _ _ h => h,
    I₃.table.congr (fun _ => rfl) rfl (fun _ h => h) (fun _ h => h) rfl⟩, ?_, ?_, ?_⟩
  · exact (hlinks.moves (w := 0)).keyboard
  · obtain ⟨_, heq, -⟩ := hlinks
    have := congrArg System.waitQueues heq
    exact this
  · exact hlinks.steady.cpuIsIdle.trans F.steady.cpuIsIdle

theorem fork {regs : InterruptInfo} {pid : Nat} (hM : M.Lawful Live) (I : Intact Live s L)
    (hfirst : s.gFirstTaskAdded = false) (h : pmFork M s p regs = .ok (pid, s')) :
    Keeps Live s s' := by
  obtain ⟨parent, child, queue, info, pagemap, s₁, L₁, -, hpos, hlt, hfree, F, -, h⟩ :=
    pmFork_ok hM I.objects h
  obtain ⟨I', hkeyboard, hqueues, -⟩ := I.enlist F hpos hlt hfree h
  obtain ⟨⟨q, s₂⟩, henqueue, h⟩ := Exec.bind_eq_ok.mp h
  have hlinks := taskEnqueue_links henqueue
  have hfirst₂ : s₂.gFirstTaskAdded = false := by
    rw [hlinks.steady.firstTaskAdded]
    exact F.steady.firstTaskAdded.trans hfirst
  dsimp only at h
  rw [if_neg (by rw [hfirst₂]; exact Bool.false_ne_true)] at h
  cases h
  obtain ⟨hcurr, hadded, hidle, hdevice⟩ := hlinks.steady
  refine ⟨⟨L₁, I'⟩, F.steady.trans ⟨hcurr, hadded, hidle, hdevice⟩, hkeyboard.trans F.keyboard, ?_⟩
  rw [hqueues]
  exact (F.queue_old I.objects I.table.device).2

end Intact

/-! ## Reading from the keyboard -/

theorem KeysRead.drifts {buffer : Buffer} {i : Nat} {keys : List Byte}
    (h : KeysRead M s buffer i keys s') : Drifts s s' ∧ s'.files = s.files := by
  obtain ⟨m, rb, -, -, rfl⟩ := h
  exact ⟨⟨⟨rfl, rfl, rfl, rfl⟩, fun _ => rfl, fun _ => rfl, fun _ => rfl, rfl⟩, rfl⟩

theorem FileRead.drifts (O : Objects Live s L) {f : Nat} {buffer : Buffer} {n : Int}
    (h : FileRead M Live L s f buffer n s') :
    Objects Live s' L ∧ Drifts s s' ∧ SameFiles s s' := by
  cases h with
  | none _ => exact ⟨O, .refl, .of_eq rfl⟩
  | disk _ _ huses => exact ⟨huses.objects, huses.frame.sameTasks.drifts, huses.files⟩
  | keys _ _ hkeys huses _ _ =>
    obtain ⟨hdrifts, hfiles⟩ := hkeys.drifts
    exact ⟨huses.objects, hdrifts.trans huses.frame.sameTasks.drifts,
      (SameFiles.of_eq hfiles).trans huses.files⟩
  | waits _ _ _ henqueue =>
    have hmoves := pmWaitqueueEnqueue_moves henqueue
    exact ⟨hmoves.objects O, hmoves.toDrifts, .of_eq hmoves.files⟩

theorem Drifts.unclaimed (h : Drifts s s') (hfiles : SameFiles s s') (hu : Unclaimed s p) :
    Unclaimed s' p := by
  refine ⟨(h.kinds_eq fun f => ?_).trans hu.1, fun f ⟨file', hfile', hkind, hdata⟩ => ?_⟩
  · rw [← Option.isSome_map (f := VfsFile.key), hfiles, Option.isSome_map]
  · have hkey := hfiles f
    rw [hfile', Option.map_some, eq_comm, Option.map_eq_some_iff] at hkey
    obtain ⟨file, hfile, hkey⟩ := hkey
    obtain ⟨hkind', hrest⟩ := Prod.mk.inj hkey
    exact hu.2 f ⟨file, hfile, hkind'.trans hkind, (Prod.mk.inj hrest).1.trans hdata⟩

/-- Loading a program from any file. -/
theorem loadFrame_any (hM : M.Lawful Live) {f : Nat} :
    LoadFrame M Live f (fun s s' => Drifts s s' ∧ SameFiles s s') fun _ => True where
  trans h h' := ⟨h.1.trans h'.1, h.2.trans h'.2⟩
  files h h' := ⟨h.sameTasks.drifts, h'⟩
  unclaimed h hu := h.1.unclaimed h.2 hu
  keeps _ _ := trivial
  read _ O h := (vfsRead_ok hM O h).drifts O

theorem execFrame_drifts : ExecFrame (μ := μ) Drifts where
  trans h h' := h.trans h'
  files h := h.sameTasks.drifts
  setPcb hx hcore _ := (SameTasks.setPcb hx hcore).drifts

/-! ## System calls -/

section Dispatch
variable {regs regs' : InterruptInfo} {env : SyscallEnv}

/-- The calls that do not read from the keyboard. -/
theorem Intact.dispatch_keeps (hM : M.Lawful Live) (I : Intact Live s L)
    (hfirst : s.gFirstTaskAdded = false) (hread : regs.rax ≠ 0)
    (hexec : regs.rax = 59 → env.path.fromKeyboard = false)
    (h : syscallDispatch M s p regs env = .ok (regs', s')) : Keeps Live s s' := by
  cases syscallDispatch_cases hM I.objects h with
  | read hrax _ => exact absurd hrax hread
  | fork _ h => exact I.fork hM hfirst h
  | execve hrax h => exact (pmExecve_ok hM I.objects (hexec hrax) h).keeps I
  | exit _ h => exact I.exit hM h
  | wait _ h => exact I.wait hM h
  | other _ h => exact h.keeps I

theorem Intact.dispatch (hM : M.Lawful Live) (I : Intact Live s L)
    (hfirst : s.gFirstTaskAdded = false) (h : syscallDispatch M s p regs env = .ok (regs', s')) :
    (∃ L', Intact Live s' L') ∧ Steady s s' := by
  by_cases hread : regs.rax = 0
  · rw [syscallDispatch, hread] at h
    obtain ⟨x, -, h⟩ := Exec.bind_eq_ok.mp h
    dsimp only at h
    split at h
    · cases h
      exact ⟨⟨L, I⟩, .refl⟩
    obtain ⟨⟨n, s₁⟩, hread, h⟩ := Exec.bind_eq_ok.mp h
    cases h
    obtain ⟨O', hdrifts, -⟩ := (vfsRead_ok hM I.objects hread).drifts I.objects
    exact ⟨⟨L, I.drift hdrifts O'⟩, hdrifts.steady⟩
  by_cases hexec : regs.rax = 59
  · rw [syscallDispatch, hexec] at h
    obtain ⟨⟨n, regs₁, s₁⟩, hexecve, h⟩ := Exec.bind_eq_ok.mp h
    cases h
    obtain ⟨L', O', hdrifts, -⟩ := execFrame_drifts.pmExecve_ok hM I.objects
      (fun _ => loadFrame_any hM) (fun h => h) (fun _ _ => trivial) hexecve
    exact ⟨⟨L', I.drift hdrifts O'⟩, hdrifts.steady⟩
  · have hkeeps := I.dispatch_keeps hM hfirst hread (fun h => absurd h hexec) h
    exact ⟨hkeeps.intact, hkeeps.steady⟩

end Dispatch

/-! ## Kernel entries -/

section Entries
variable {frame : InterruptInfo} {info? : Option InterruptInfo}

/-- How the kernel is left: with the process that entered it, or with the next one. -/
inductive Ends (M : MemoryManager μ) (Live : μ → List Nat → Prop) (s : System μ) :
    Option InterruptInfo → System μ → Prop
  | back {info : InterruptInfo} {s' : System μ} : Keeps Live s s' → Ends M Live s (some info) s'
  | next {info? : Option InterruptInfo} {s₁ s' : System μ} : Keeps Live s s₁ →
    pmLoadNextReadyProcess M s₁ = .ok (info?, s') → Ends M Live s info? s'

/-- The state in which the kernel is left. -/
structure Left (Live : μ → List Nat → Prop) (s : System μ) (info? : Option InterruptInfo)
    (s' : System μ) : Prop where
  intact : ∃ L', Intact Live s' L'
  started : s'.gFirstTaskAdded = s.gFirstTaskAdded
  idle : s'.gCpuIsIdle = info?.isNone
  keyboard : s'.keyboard = s.keyboard
  device : s'.waitQueues s.keyboard.deviceWaitQueue = s.waitQueues s.keyboard.deviceWaitQueue

theorem Intact.loadNext (hM : M.Lawful Live) (I : Intact Live s L)
    (h : pmLoadNextReadyProcess M s = .ok (info?, s')) : Left Live s info? s' := by
  have hqueues := pmLoadNextReadyProcess_waitQueues h
  unfold pmLoadNextReadyProcess at h
  split at h
  · cases h
    exact ⟨⟨L, I.objects.congr rfl (fun _ => rfl) fun _ _ h => h,
      I.table.congr (fun _ => rfl) rfl (fun _ h => h) (fun _ h => h) rfl⟩, rfl, rfl, rfl, rfl⟩
  obtain ⟨⟨task, q, s₁⟩, hdequeue, h⟩ := Exec.bind_eq_ok.mp h
  obtain ⟨y, -, h⟩ := Exec.bind_eq_ok.mp h
  obtain ⟨info, -, h⟩ := Exec.bind_eq_ok.mp h
  cases h
  have hmoves := (taskDequeue_links hdequeue).moves (w := 0)
  obtain ⟨O₁, T₁⟩ := hmoves.intact I
  refine ⟨⟨L, ?_, T₁.congr (fun _ => rfl) rfl (fun _ h => h) (fun _ h => h) rfl⟩,
    hmoves.steady.firstTaskAdded, rfl, hmoves.keyboard, by rw [hqueues]⟩
  exact (O₁.withMem (hM.vmmReloadCr3 (p := y.pagemapHhdmPtr) O₁.live)).congr rfl (fun _ => rfl)
    fun _ _ h => h

theorem Ends.left (hM : M.Lawful Live) (h : Ends M Live s info? s')
    (hidle : s.gCpuIsIdle = false) : Left Live s info? s' := by
  cases h with
  | back hkeeps =>
    exact ⟨hkeeps.intact, hkeeps.steady.firstTaskAdded, hkeeps.steady.cpuIsIdle.trans hidle,
      hkeeps.keyboard, hkeeps.device⟩
  | next hkeeps h =>
    obtain ⟨L₁, I₁⟩ := hkeeps.intact
    obtain ⟨hintact, hstarted, hidle', hkeyboard, hdevice⟩ := I₁.loadNext hM h
    rw [hkeeps.keyboard] at hdevice
    exact ⟨hintact, hstarted.trans hkeeps.steady.firstTaskAdded, hidle',
      hkeyboard.trans hkeeps.keyboard, hdevice.trans hkeeps.device⟩

theorem Intact.syscallKernelHandler {env : SyscallEnv} (hM : M.Lawful Live) (I : Intact Live s L)
    (hfirst : s.gFirstTaskAdded = false)
    (h : syscallKernelHandler M s frame env = .ok (info?, s')) :
    ∃ regs s₁, syscallDispatch M s s.gCurrTask (ring3Frame frame) env = .ok (regs, s₁) ∧
      Ends M Live s₁ info? s' := by
  obtain ⟨⟨regs, s₁⟩, hdispatch, h⟩ := Exec.bind_eq_ok.mp h
  replace hdispatch : syscallDispatch M s s.gCurrTask (ring3Frame frame) env = .ok (regs, s₁) :=
    hdispatch
  refine ⟨regs, s₁, hdispatch, ?_⟩
  obtain ⟨⟨L₁, I₁⟩, -⟩ := I.dispatch hM hfirst hdispatch
  obtain ⟨x, -, h⟩ := Exec.bind_eq_ok.mp h
  dsimp only at h
  split at h
  · cases h
    exact .back (.refl I₁)
  · obtain ⟨s₂, hstore, h⟩ := Exec.bind_eq_ok.mp h
    exact .next (I₁.storeInfo hstore) h

theorem Intact.contextSwitch (hM : M.Lawful Live) (I : Intact Live s L)
    (h : pmSchedulerContextSwitch M s frame = .ok (info?, s')) : Ends M Live s info? s' := by
  unfold pmSchedulerContextSwitch at h
  split at h
  · cases h
    exact .back (.refl I)
  obtain ⟨-, -, h⟩ := Exec.bind_eq_ok.mp h
  obtain ⟨x, -, h⟩ := Exec.bind_eq_ok.mp h
  dsimp only at h
  split at h
  · cases h
    exact .back (.refl I)
  split at h
  · obtain ⟨s₁, hexit, h⟩ := Exec.bind_eq_ok.mp h
    exact .next (I.exit hM hexit) h
  · obtain ⟨s₁, hstore, h⟩ := Exec.bind_eq_ok.mp h
    obtain ⟨⟨q, s₂⟩, henqueue, h⟩ := Exec.bind_eq_ok.mp h
    have hkeeps := I.storeInfo hstore
    obtain ⟨L₁, I₁⟩ := hkeeps.intact
    -- The queue of the keyboard is not 0, where there is no object.
    have hdevice : 0 ≠ s₁.keyboard.deviceWaitQueue := by
      intro hzero
      obtain ⟨w, hw⟩ := Option.isSome_iff_exists.mp I₁.table.device
      exact I₁.objects.null (hzero ▸ I₁.objects.mem_of_waitQueue hw)
    have hmoves : Moves 0 s₁ { s₂ with gRunnableTasks := q } :=
      (taskEnqueue_links henqueue).moves.trans .setRunnable
    exact .next (hkeeps.trans (hmoves.keeps I₁ hdevice)) h

theorem Intact.uptime {n : Nat} (I : Intact Live s L) :
    Intact Live { s with gSystemLapicTimerUptimer := n } L :=
  ⟨I.objects.congr rfl (fun _ => rfl) fun _ _ h => h,
    I.table.congr (fun _ => rfl) rfl (fun _ h => h) (fun _ h => h) rfl⟩

theorem Intact.timer (hM : M.Lawful Live) (I : Intact Live s L) (hidle : s.gCpuIsIdle = false)
    (h : lapicTimerHandler M s frame = .ok (info?, s')) : Left Live s info? s' := by
  unfold lapicTimerHandler at h
  dsimp only at h
  split at h
  · have hleft := (I.uptime.contextSwitch hM h).left hM hidle
    exact ⟨hleft.intact, hleft.started, hleft.idle, hleft.keyboard, hleft.device⟩
  · cases h
    exact ⟨⟨L, I.uptime⟩, rfl, hidle, rfl, rfl⟩

theorem Intact.exception (hM : M.Lawful Live) (I : Intact Live s L) (hidle : s.gCpuIsIdle = false)
    (h : cpuExceptionsIsrCentralHandler M s frame = .ok (info?, s')) : Left Live s info? s' := by
  unfold cpuExceptionsIsrCentralHandler at h
  split at h
  · unfold processExceptionHandler at h
    split at h
    · cases h
    obtain ⟨s₁, hmodify, h⟩ := Exec.bind_eq_ok.mp h
    obtain ⟨x, hx, rfl⟩ := modifyPcb_ok hmodify
    have hkeeps : Keeps Live s (s.setPcb s.gCurrTask { x with killSignal := true }) :=
      I.setPcb hx rfl
    obtain ⟨L₁, I₁⟩ := hkeeps.intact
    have hleft := (I₁.contextSwitch hM h).left hM hidle
    exact ⟨hleft.intact, hleft.started, hleft.idle, hleft.keyboard, hleft.device⟩
  · cases h

/-- What the handler does with the character of a scan code: the ring buffer takes it if it has room,
and nobody waits for the keyboard any more. -/
def Typed (s : System μ) (scanCode : Nat) (s' : System μ) : Prop :=
  let device := s.keyboard.deviceWaitQueue
  let inputChar := BitVec.ofNat 8 (scanCodeLookupTable.getD scanCode '\x00').toNat
  let ringBuffer := (ringBufferPush s.keyboard.ringBuffer inputChar).2
  Moves device { s with keyboard := { s.keyboard with ringBuffer } } s' ∧
    ∃ q, s'.waitQueues device = some q ∧ q.queuesHead = 0

theorem keyboardInterruptHandler_cases {scanCode : Nat}
    (h : keyboardInterruptHandler s scanCode = .ok s') :
    scanCodeLookupTable.length ≤ scanCode ∧ s' = s ∨
      scanCode < scanCodeLookupTable.length ∧ Typed s scanCode s' := by
  unfold keyboardInterruptHandler at h
  split at h
  · cases h
    exact .inl ⟨‹_›, rfl⟩
  · exact .inr ⟨Nat.not_le.mp ‹_›, pmWaitqueueDequeueAll_moves h⟩

theorem Intact.withRing {ringBuffer : RingBuffer} (I : Intact Live s L) :
    Intact Live { s with keyboard := { s.keyboard with ringBuffer } } L :=
  ⟨I.objects.congr rfl (fun _ => rfl) fun _ _ h => h,
    I.table.congr (fun _ => rfl) rfl (fun _ h => h) (fun _ h => h) rfl⟩

theorem Intact.keyboard {scanCode : Nat} (I : Intact Live s L)
    (h : keyboardInterruptHandler s scanCode = .ok s') : Intact Live s' L ∧ Steady s s' := by
  rcases keyboardInterruptHandler_cases h with ⟨-, rfl⟩ | ⟨-, hmoves, -⟩
  · exact ⟨I, .refl⟩
  · obtain ⟨hcurr, hadded, hidle, hdevice⟩ := hmoves.steady
    exact ⟨hmoves.intact I.withRing, hcurr, hadded, hidle, hdevice⟩

end Entries

/-! ## Runs -/

/-- The objects are in order, and the flag of the scheduler says whether the processor is idle. -/
structure MachineIntact (Live : μ → List Nat → Prop) (c : Machine μ) : Prop where
  intact : ∃ L, Intact Live c.sys L
  started : c.sys.gFirstTaskAdded = false
  cpu : c.sys.gCpuIsIdle = match c.cpu with
    | .user _ => false
    | .idle _ => true

theorem Left.machine {info? : Option InterruptInfo} {exit : ExitPath} (h : Left Live s info? s')
    (hstarted : s.gFirstTaskAdded = false) : MachineIntact Live (leaveKernel exit (info?, s')) := by
  cases info? with
  | none => exact ⟨h.intact, h.started.trans hstarted, h.idle⟩
  | some info => exact ⟨h.intact, h.started.trans hstarted, h.idle⟩

section Runs
variable {c c' : Machine μ} {e : Event}

theorem MachineIntact.step (hM : M.Lawful Live) (I : MachineIntact Live c)
    (h : step M c e = .ok c') : MachineIntact Live c' := by
  obtain ⟨⟨L, I⟩, hstarted, hcpu⟩ := I
  obtain ⟨s, cpu⟩ := c
  cases cpu with
  | user regs =>
    cases e with
    | run regs' stores =>
      obtain ⟨m, hstores, h⟩ := Exec.bind_eq_ok.mp h
      cases h
      have hlive : Live m L := Exec.foldlM_ok (p := (Live · L))
        (fun m _ m' _ hlive h => hM.userStore hlive h) I.objects.live hstores
      exact ⟨⟨L, I.objects.withMem hlive,
        I.table.congr (fun _ => rfl) rfl (fun _ h => h) (fun _ h => h) rfl⟩, hstarted, hcpu⟩
    | syscall env =>
      obtain ⟨⟨info?, s'⟩, hcall, rfl⟩ := Exec.map_eq_ok.mp h
      obtain ⟨regs', s₁, hdispatch, hends⟩ := I.syscallKernelHandler hM hstarted hcall
      obtain ⟨-, hsteady⟩ := I.dispatch hM hstarted hdispatch
      exact (hends.left hM (hsteady.cpuIsIdle.trans hcpu)).machine
        (hsteady.firstTaskAdded.trans hstarted)
    | timer =>
      obtain ⟨⟨info?, s'⟩, hcall, rfl⟩ := Exec.map_eq_ok.mp h
      exact (I.timer hM hcpu hcall).machine hstarted
    | keyboard scanCode =>
      obtain ⟨s', hkeyboard, h⟩ := Exec.bind_eq_ok.mp h
      cases h
      obtain ⟨I', hsteady⟩ := I.keyboard hkeyboard
      exact ⟨⟨L, I'⟩, hsteady.firstTaskAdded.trans hstarted, hsteady.cpuIsIdle.trans hcpu⟩
    | exception index errorCode =>
      obtain ⟨⟨info?, s'⟩, hcall, rfl⟩ := Exec.map_eq_ok.mp h
      exact (I.exception hM hcpu hcall).machine hstarted
    | haltEnds => cases h
  | idle exit =>
    cases e with
    | timer =>
      obtain ⟨⟨info?, s'⟩, hcall, h⟩ := Exec.bind_eq_ok.mp h
      cases h
      rw [lapicTimerHandler_idle hcpu hcall]
      exact ⟨⟨L, I.uptime⟩, hstarted, hcpu⟩
    | keyboard scanCode =>
      obtain ⟨s', hkeyboard, h⟩ := Exec.bind_eq_ok.mp h
      cases h
      obtain ⟨I', hsteady⟩ := I.keyboard hkeyboard
      exact ⟨⟨L, I'⟩, hsteady.firstTaskAdded.trans hstarted, hsteady.cpuIsIdle.trans hcpu⟩
    | haltEnds =>
      obtain ⟨⟨info?, s'⟩, hnext, rfl⟩ := Exec.map_eq_ok.mp h
      exact (I.loadNext hM hnext).machine hstarted
    | run _ _ => cases h
    | syscall _ => cases h
    | exception _ _ => cases h

theorem BootInput.intact {b : BootInput μ} (hM : M.Lawful Live) (hvalid : b.Valid Live)
    (h : b.machine M = .ok c) :
    MachineIntact Live c ∧ c.sys.keyboard = (bootSystem b.mem b.device b.queue).keyboard := by
  obtain ⟨hinit, L, hlive, hnull, hnodup, hdevice⟩ := hvalid
  obtain ⟨⟨entryPoint, s⟩, hboot, h⟩ := Exec.bind_eq_ok.mp h
  cases h
  have I : Intact Live (bootSystem b.mem b.device b.queue) L :=
    ⟨bootSystem_objects hlive hnull hnodup hdevice, bootSystem_table⟩
  obtain ⟨y, p, addr, s₁, s₂, L₁, hpid, -, -, F, haddr, hne, hu, hadd, hfree, -⟩ :=
    initProcessManager_new hM I.objects hinit hboot
  rw [generatePid_first rfl] at hpid
  have hy : y.pid = 1 := (Except.ok.inj hpid).symm
  obtain ⟨I₂, hkeyboard, -, hidle⟩ := I.enlist F (Nat.le_of_eq hy.symm) (hy ▸ by decide) rfl hadd
  have hu₂ := listed_unclaimed hu hne hadd
  obtain ⟨hmem, O₃⟩ := I₂.objects.kfree_unclaimed hM haddr hu₂ hfree
  have hdrifts := hmem.sameTasks.drifts
  exact ⟨⟨⟨_, I₂.drift hdrifts O₃⟩,
    hdrifts.steady.firstTaskAdded.trans (schedulerAddTask_started hadd),
    hdrifts.steady.cpuIsIdle.trans hidle⟩,
    hmem.sameTasks.keyboard.trans (hkeyboard.trans F.keyboard)⟩

theorem MachineIntact.boot {b : BootInput μ} (hM : M.Lawful Live) (hvalid : b.Valid Live)
    (h : b.machine M = .ok c) : MachineIntact Live c := (b.intact hM hvalid h).1

/-- The objects are in order in every machine that is reached, whatever the new queues hold. -/
theorem Reachable.intact {boots : BootInput μ → Machine μ → Prop}
    {steps : Machine μ → Event → Machine μ → Prop} (hM : M.Lawful Live)
    (h : Reachable M Live boots steps c) : MachineIntact Live c := by
  induction h with
  | boot hvalid h _ => exact .boot hM hvalid h
  | step _ h _ ih => exact ih.step hM h

end Runs

end

end TrazelOs
