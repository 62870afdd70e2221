import TrazelOs.Verify.Machine

/-! # The clock

`g_system_lapic_timer_uptimer` belongs to the timer interrupt: no other entry of the kernel moves
it, whatever it does to the files, the processes and the memory. `Exec.AtTime n` says that every
state a computation returns shows the time `n`; it is carried through the functions of the kernel
in the order of their calls. -/

namespace TrazelOs

variable {μ : Type}

/-- A result with a system in its last place. -/
class HasClock (α : Type) where
  time : α → Nat

instance : HasClock (System μ) := ⟨System.gSystemLapicTimerUptimer⟩

instance [HasClock β] : HasClock (α × β) := ⟨fun r => HasClock.time r.2⟩

namespace Exec

def AtTime [HasClock α] (n : Nat) (x : Exec α) : Prop := ∀ a, x = .ok a → HasClock.time a = n

namespace AtTime

section
variable [HasClock β] {n : Nat}

theorem ok {b : β} : AtTime (HasClock.time b) (.ok b) := by
  intro a ha
  cases ha
  rfl

theorem error {e : Fault} : AtTime n (.error e : Exec β) := by
  intro a ha
  cases ha

/-- The first computation returns a system, which the second starts from. -/
theorem bind [HasClock α] {x : Exec α} {f : α → Exec β} (hx : AtTime n x)
    (hf : ∀ a, AtTime (HasClock.time a) (f a)) : AtTime n (x >>= f) := by
  intro b hb
  obtain ⟨a, ha, hb⟩ := Exec.bind_eq_ok.mp hb
  exact (hf a b hb).trans (hx a ha)

/-- The first computation returns something else. -/
theorem pass {x : Exec α} {f : α → Exec β} (hf : ∀ a, AtTime n (f a)) : AtTime n (x >>= f) := by
  intro b hb
  obtain ⟨a, _, hb⟩ := Exec.bind_eq_ok.mp hb
  exact hf a b hb

theorem ite {c : Prop} [Decidable c] {x y : Exec β} (hx : AtTime n x) (hy : AtTime n y) :
    AtTime n (if c then x else y) := by
  split
  · exact hx
  · exact hy

theorem foldlM {f : β → α → Exec β} {l : List α} {b : β}
    (hf : ∀ b a, AtTime (HasClock.time b) (f b a)) : AtTime (HasClock.time b) (l.foldlM f b) := by
  induction l generalizing b with
  | nil => exact ok
  | cons a l ih => exact bind (hf b a) fun _ => ih

end

end AtTime

end Exec

section
variable {M : MemoryManager μ} {s : System μ} {p w f : Nat}

open Exec HasClock

/-! ## Objects and queues -/

theorem modifyPcb_atTime {g : Pcb → Pcb} : AtTime (time s) (s.modifyPcb p g) := .pass fun _ => .ok

theorem storeInfo_atTime {info : InterruptInfo} : AtTime (time s) (s.storeInfo p info) :=
  .pass fun _ => .ok

theorem kfree_atTime : AtTime (time s) (s.kfree M p) := .pass fun _ => .ok

theorem taskEnqueue_atTime {q : TaskQueue} : AtTime (time s) (taskEnqueue s q p) :=
  .bind modifyPcb_atTime fun _ => .ite .ok (.bind modifyPcb_atTime fun _ => .ok)

theorem taskDequeue_atTime {q : TaskQueue} : AtTime (time s) (taskDequeue s q) := .pass fun _ => .ok

theorem schedulerAddTask_atTime : AtTime (time s) (schedulerAddTask s p) :=
  .bind taskEnqueue_atTime fun _ =>
    .ite (.bind taskDequeue_atTime fun _ => .ok) .ok

theorem pmCreateWaitQueue_atTime : AtTime (time s) (pmCreateWaitQueue M s) :=
  .pass fun _ => .ite .ok .ok

theorem pmWaitqueueEnqueue_atTime : AtTime (time s) (pmWaitqueueEnqueue s w) :=
  .bind modifyPcb_atTime fun _ => .pass fun _ =>
    .bind taskEnqueue_atTime fun _ => .ok

theorem wakeFirst_atTime {q : TaskQueue} : AtTime (time s) (wakeFirst s w q) :=
  .bind taskDequeue_atTime fun _ => .bind modifyPcb_atTime fun _ =>
    .bind taskEnqueue_atTime fun _ => .ok

theorem pmWaitqueueDequeueAll_atTime : AtTime (time s) (pmWaitqueueDequeueAll s w) := by
  unfold pmWaitqueueDequeueAll
  generalize 2 ^ 64 = turns
  induction turns generalizing s with
  | zero => exact .error
  | succ turns ih =>
    exact .pass fun _ => .ite .ok (.bind wakeFirst_atTime fun _ => ih)

theorem pmLoadNextReadyProcess_atTime : AtTime (time s) (pmLoadNextReadyProcess M s) :=
  .ite .ok
    (.bind taskDequeue_atTime fun _ => .pass fun _ => .pass fun _ => .ok)

/-! ## Files -/

theorem newObject_atTime {size : Nat} : AtTime (time s) (newObject M s size) :=
  .pass fun _ => .ite .error .ok

theorem ps2Read_atTime {buffer : Buffer} {size : Nat} : AtTime (time s) (ps2Read M s buffer size) := by
  unfold ps2Read
  generalize 0 = i
  induction size generalizing i s with
  | zero => exact .ok
  | succ left ih =>
    unfold ps2Read.loop
    split
    · exact .ite (.bind pmWaitqueueEnqueue_atTime fun _ => .ok) .ok
    · exact .pass fun _ => ih _

theorem keyboardInterruptHandler_atTime {scanCode : Nat} :
    AtTime (time s) (keyboardInterruptHandler s scanCode) :=
  .ite .ok pmWaitqueueDequeueAll_atTime

theorem charDevRead_atTime {dev : CharDevice} {buffer : Buffer} {size : Nat} :
    AtTime (time s) (charDevRead M s dev buffer size) := by
  cases dev with
  | com1 | vgaText | framebuffer => exact .ok
  | ps2Keyboard | tty => exact ps2Read_atTime

theorem runDriverCalls_atTime {calls : List DriverCall} {blocks : List Nat} :
    AtTime (time s) (runDriverCalls M calls blocks s) := by
  induction calls generalizing blocks s with
  | nil => exact .ok
  | cons call calls ih =>
    cases call with
    | alloc size => exact .pass fun _ => ih
    | store block bytes =>
      unfold runDriverCalls
      split
      · exact .error
      · exact .pass fun _ => ih
    | release block =>
      unfold runDriverCalls
      split
      · exact .error
      · exact .bind kfree_atTime fun _ => ih

theorem fat12Open_atTime {calls : List DriverCall} {found : Option (Nat × List Byte)} :
    AtTime (time s) (fat12Open M s calls found) := by
  apply AtTime.bind newObject_atTime
  intro r
  apply AtTime.bind runDriverCalls_atTime
  intro s
  cases found with
  | none => exact .bind kfree_atTime fun _ => .ok
  | some entry => exact .bind newObject_atTime fun _ => .pass fun _ => .ok

theorem vfsOpen_atTime {path : Lookup} : AtTime (time s) (vfsOpen M s path) := by
  have hopened (r : Nat × System μ) : AtTime (time r) (do
      if r.1 = 0 then return (0, r.2)
      else
        let file ← deref r.2.files r.1
        return (r.1, r.2.setFile r.1 { file with filePosition := 0, fileRefCount := 1 })) :=
    .ite .ok (.pass fun _ => .ok)
  unfold vfsOpen
  dsimp only
  split
  · exact .bind (.bind newObject_atTime fun _ => .ok) hopened
  · exact .bind fat12Open_atTime hopened
  · exact .bind fat12Open_atTime hopened
  · exact hopened (0, s)

theorem vfsRead_atTime {buffer : Buffer} {size : Nat} :
    AtTime (time s) (vfsRead M s f buffer size) := by
  apply AtTime.ite .ok
  apply AtTime.pass
  intro file
  apply AtTime.ite .ok
  dsimp only
  split
  · exact .bind charDevRead_atTime fun _ => .ite (.pass fun _ => .ok) .ok
  · exact .pass fun _ => .ite (.pass fun _ => .ok) .ok

theorem vfsWrite_atTime {size : Nat} : AtTime (time s) (vfsWrite s f size) := by
  apply AtTime.ite .ok
  apply AtTime.pass
  intro file
  dsimp only
  split
  · exact .pass fun _ => .ok
  · exact .pass fun _ => .ok

theorem vfsClose_atTime : AtTime (time s) (vfsClose M s f) := by
  apply AtTime.ite .ok
  apply AtTime.pass
  intro file
  apply AtTime.ite _ .ok
  apply AtTime.ite
  · exact .bind kfree_atTime fun _ => .bind kfree_atTime fun _ => .ok
  · exact .bind .ok fun _ => .bind kfree_atTime fun _ => .ok

theorem vfsSeek_atTime {offset : Int} {whence : Nat} : AtTime (time s) (vfsSeek s f offset whence) := by
  apply AtTime.ite .ok
  apply AtTime.pass
  intro file
  dsimp only
  split
  · exact .ok
  · exact .ite .ok .ok

/-! ## Programs -/

theorem loadSegment_atTime {ph : Elf64Phdr} {pagemap : Nat} :
    AtTime (time s) (loadSegment M s ph f pagemap) := by
  apply AtTime.pass
  intro r
  apply AtTime.pass
  intro mem
  apply AtTime.bind vfsSeek_atTime
  intro r
  apply AtTime.bind vfsRead_atTime
  intro r
  exact .ite (.pass fun _ => .ok) .ok

theorem loadBinarySegments_atTime {programHeaders phCount pagemap : Nat} :
    AtTime (time s) (loadBinarySegments M s programHeaders phCount f pagemap) :=
  .foldlM fun _ _ => .ite loadSegment_atTime .ok

theorem loadElfToMemory_atTime {pagemap : Nat} : AtTime (time s) (loadElfToMemory M s f pagemap) := by
  apply AtTime.bind newObject_atTime
  intro r
  apply AtTime.bind vfsRead_atTime
  intro r
  apply AtTime.ite
  · exact .bind kfree_atTime fun _ => .ok
  apply AtTime.bind newObject_atTime
  intro r
  apply AtTime.bind vfsSeek_atTime
  intro r
  apply AtTime.bind vfsRead_atTime
  intro r
  apply AtTime.bind loadBinarySegments_atTime
  intro s
  apply AtTime.bind newObject_atTime
  intro r
  apply AtTime.pass
  intro heapStart
  apply AtTime.bind kfree_atTime
  intro s
  apply AtTime.bind kfree_atTime
  intro s
  exact .ite (.bind kfree_atTime fun _ => .ok) .ok

theorem pmExecve_atTime {path : Lookup} {regs : InterruptInfo} :
    AtTime (time s) (pmExecve M s p path regs) := by
  apply AtTime.bind vfsOpen_atTime
  intro r
  apply AtTime.ite .ok
  apply AtTime.pass
  intro created
  apply AtTime.bind loadElfToMemory_atTime
  intro r
  apply AtTime.pass
  intro page
  apply AtTime.pass
  intro mapped
  dsimp only
  split
  · apply AtTime.ite
    · exact .pass fun _ => .bind vfsClose_atTime fun _ => .bind kfree_atTime fun _ => .ok
    · exact .pass fun _ => .pass fun _ => .bind vfsClose_atTime fun _ =>
        .bind kfree_atTime fun _ => .ok
  · exact .pass fun _ => .bind vfsClose_atTime fun _ => .bind kfree_atTime fun _ => .ok

/-! ## Processes -/

theorem shareFds_atTime {fds : Fin maxProcessFds → Nat} : AtTime (time s) (shareFds s fds) :=
  .foldlM fun _ _ => .ite .ok (.pass fun _ => .ok)

theorem pmFork_atTime {regs : InterruptInfo} : AtTime (time s) (pmFork M s p regs) := by
  apply AtTime.bind newObject_atTime
  intro r
  apply AtTime.pass
  intro pid
  apply AtTime.bind pmCreateWaitQueue_atTime
  intro r
  apply AtTime.pass
  intro parent
  apply AtTime.bind shareFds_atTime
  intro s
  apply AtTime.bind newObject_atTime
  intro r
  apply AtTime.pass
  intro cloned
  exact .bind schedulerAddTask_atTime fun _ => .ok

theorem closeFds_atTime : AtTime (time s) (closeFds M s p) :=
  .foldlM fun _ _ => .pass fun _ =>
    .ite .ok (.bind vfsClose_atTime fun _ => modifyPcb_atTime)

theorem reparentChildren_atTime {pid : Nat} : AtTime (time s) (reparentChildren s pid) :=
  .foldlM fun _ _ => .ite .ok (.pass fun _ => .ite .ok .ok)

theorem pmExit_atTime {status : Int} : AtTime (time s) (pmExit M s status p) := by
  apply AtTime.bind modifyPcb_atTime
  intro s
  apply AtTime.bind closeFds_atTime
  intro s
  apply AtTime.pass
  intro current
  apply AtTime.bind reparentChildren_atTime
  intro s
  exact .pass fun _ => .pass fun _ => .pass fun _ => .pass fun _ => pmWaitqueueDequeueAll_atTime

theorem reapChild_atTime {status i : Nat} : AtTime (time s) (reapChild M s status i) := by
  apply AtTime.pass
  intro child
  have hfree {m : μ} : AtTime (time s) (do
      let mem ← M.vmmDeletePagemap m child.pagemapHhdmPtr
      let r ← { s with mem }.kfree M child.interruptInfo
      let r ← r.kfree M child.parentWaitQueue
      let r ← r.kfree M (s.gProcessList i)
      return (child.pid, setProcessList r i 0)) :=
    .pass fun _ => .bind kfree_atTime fun _ => .bind kfree_atTime fun _ =>
      .bind kfree_atTime fun _ => .ok
  exact .ite (.pass fun _ => hfree) (.pass fun _ => hfree)

theorem pmWait_atTime {status : Nat} : AtTime (time s) (pmWait M s status p) := by
  apply AtTime.pass
  intro current
  apply AtTime.pass
  intro scan
  cases scan with
  | zombie i => exact reapChild_atTime
  | done hasChildren =>
    cases hasChildren with
    | false => exact .ok
    | true => exact .bind pmWaitqueueEnqueue_atTime fun _ => .ok

theorem pmSchedulerContextSwitch_atTime {frame : InterruptInfo} :
    AtTime (time s) (pmSchedulerContextSwitch M s frame) := by
  apply AtTime.ite .ok
  apply AtTime.pass
  intro _
  apply AtTime.pass
  intro curr
  apply AtTime.ite .ok
  apply AtTime.ite
  · exact .bind pmExit_atTime fun _ => pmLoadNextReadyProcess_atTime
  · exact .bind storeInfo_atTime fun _ => .bind taskEnqueue_atTime fun _ =>
      pmLoadNextReadyProcess_atTime

theorem cpuExceptionsIsrCentralHandler_atTime {frame : InterruptInfo} :
    AtTime (time s) (cpuExceptionsIsrCentralHandler M s frame) :=
  .ite (.ite .error (.bind modifyPcb_atTime fun _ => pmSchedulerContextSwitch_atTime))
    .error

theorem syscallDup2Handler_atTime {regs : InterruptInfo} :
    AtTime (time s) (syscallDup2Handler M s p regs) := by
  apply AtTime.pass
  intro current
  dsimp only
  split
  · exact .ok
  split
  · apply AtTime.ite .ok
    split
    · exact .bind vfsClose_atTime fun _ => .bind .ok fun _ => .pass fun _ => .pass fun _ => .ok
    · exact .bind .ok fun _ => .pass fun _ => .pass fun _ => .ok
  · exact .ok

/-- The handlers that look up a descriptor. -/
theorem atTime_validFd {fds : Fin maxProcessFds → Nat} {fd : Nat} {regs : InterruptInfo}
    {call : Fin maxProcessFds → Exec (InterruptInfo × System μ)} (hcall : ∀ fd, AtTime (time s) (call fd)) :
    AtTime (time s) (match validFd fd fds with
      | none => pure (regs, s)
      | some fd => call fd) := by
  cases validFd fd fds with
  | none => exact .ok
  | some fd => exact hcall fd

theorem syscallDispatch_atTime {regs : InterruptInfo} {env : SyscallEnv} :
    AtTime (time s) (syscallDispatch M s p regs env) := by
  unfold syscallDispatch
  split
  case h_1 => exact .pass fun _ => atTime_validFd fun _ => .bind vfsRead_atTime fun _ => .ok
  case h_2 => exact .pass fun _ => atTime_validFd fun _ => .bind vfsWrite_atTime fun _ => .ok
  case h_3 =>
    apply AtTime.bind vfsOpen_atTime
    intro r
    apply AtTime.ite .ok
    apply AtTime.pass
    intro current
    dsimp only
    split
    · exact .ok
    · exact .ok
  case h_4 =>
    exact .pass fun _ => atTime_validFd fun _ => .bind vfsClose_atTime fun _ =>
      .bind modifyPcb_atTime fun _ => .ok
  case h_5 => exact .pass fun _ => atTime_validFd fun _ => .bind vfsSeek_atTime fun _ => .ok
  case h_6 => exact .pass fun _ => .ite .ok (.pass fun _ => .ite .ok .ok)
  case h_7 =>
    apply AtTime.pass
    intro current
    dsimp only
    split
    · exact .pass fun _ => .ok
    · exact .ok
  case h_8 => exact syscallDup2Handler_atTime
  case h_9 => exact .pass fun _ => .ok
  case h_10 => exact .bind pmFork_atTime fun _ => .ok
  case h_11 => exact .bind pmExecve_atTime fun _ => .ok
  case h_12 => exact .bind pmExit_atTime fun _ => .ok
  case h_13 => exact .bind pmWait_atTime fun _ => .ok
  case h_14 =>
    exact .ite .ok (.bind (.ite .ok (.bind modifyPcb_atTime fun _ => .ok))
      fun _ => .ok)
  case h_15 => exact .bind (.pass fun _ => .pass fun _ => .ok) fun _ => .ok
  case h_16 => exact .pass fun _ => .ok
  case h_17 => exact .error

theorem syscallKernelHandler_atTime {frame : InterruptInfo} {env : SyscallEnv} :
    AtTime (time s) (syscallKernelHandler M s frame env) := by
  apply AtTime.bind syscallDispatch_atTime
  intro r
  apply AtTime.pass
  intro current
  apply AtTime.ite .ok
  exact .bind storeInfo_atTime fun _ => pmLoadNextReadyProcess_atTime

/-! ## Machines -/

theorem lapicTimerHandler_atTime {frame : InterruptInfo} :
    AtTime (u64 (time s + 1)) (lapicTimerHandler M s frame) :=
  .ite pmSchedulerContextSwitch_atTime .ok

end

section
variable {M : MemoryManager μ} {c c' : Machine μ} {e : Event}

open Exec

/-- The value of `g_system_lapic_timer_uptimer`. -/
def Machine.time (c : Machine μ) : Nat := c.sys.gSystemLapicTimerUptimer

/-- What the clock shows after the event. -/
def Event.advance : Event → (time : Nat) → Nat
  | .timer, time => u64 (time + 1)
  | _, time => time

/-- The end of a kernel entry that leaves the clock at `n`. -/
theorem leaveKernel_time {x : Exec (Option InterruptInfo × System μ)} {exit : ExitPath} {n : Nat}
    (hx : AtTime n x) (h : leaveKernel exit <$> x = .ok c') : c'.time = n := by
  obtain ⟨r, hr, rfl⟩ := Exec.map_eq_ok.mp h
  obtain ⟨info?, s'⟩ := r
  have htime : s'.gSystemLapicTimerUptimer = n := hx _ hr
  cases info? with
  | none => exact htime
  | some info => exact htime

/-- The clock counts the timer interrupts and nothing else. -/
theorem step_time (h : step M c e = .ok c') : c'.time = e.advance c.time := by
  obtain ⟨s, cpu⟩ := c
  cases cpu with
  | user regs =>
    cases e with
    | run regs' stores =>
      obtain ⟨m, -, h⟩ := Exec.bind_eq_ok.mp h
      cases h
      rfl
    | syscall env => exact leaveKernel_time syscallKernelHandler_atTime h
    | timer => exact leaveKernel_time lapicTimerHandler_atTime h
    | keyboard scanCode =>
      obtain ⟨s', hs', h⟩ := Exec.bind_eq_ok.mp h
      cases h
      exact keyboardInterruptHandler_atTime s' hs'
    | exception index errorCode =>
      exact leaveKernel_time cpuExceptionsIsrCentralHandler_atTime h
    | haltEnds => cases h
  | idle exit =>
    cases e with
    | run regs' stores => cases h
    | syscall env => cases h
    | timer =>
      obtain ⟨r, hr, h⟩ := Exec.bind_eq_ok.mp h
      cases h
      exact lapicTimerHandler_atTime r hr
    | keyboard scanCode =>
      obtain ⟨s', hs', h⟩ := Exec.bind_eq_ok.mp h
      cases h
      exact keyboardInterruptHandler_atTime s' hs'
    | exception index errorCode => cases h
    | haltEnds => exact leaveKernel_time pmLoadNextReadyProcess_atTime h

end

end TrazelOs
