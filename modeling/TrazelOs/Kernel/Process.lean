import TrazelOs.Kernel.ElfLoader

/-! # The process manager (`process_manager.c`, the context switch of `scheduler.c`) -/

namespace TrazelOs

/-- `(int)n`. -/
def toInt32 (n : Nat) : Int := if n % 2 ^ 32 < 2 ^ 31 then n % 2 ^ 32 else (n % 2 ^ 32 : Int) - 2 ^ 32

def userStackPtr : Nat := 0x00007FFFFFFFF000
def rflagsInterruptsEnabled : Nat := 0x202
def killSinglaExitCode : Int := 139

def sizeofProcessControlBlock : Nat := 328
def sizeofInterruptInfo : Nat := 176

section ProcessManager
variable {μ : Type} (M : MemoryManager μ) (s : System μ)

/-- The lowest index from 1 on without a process. -/
def generatePid : Exec Nat :=
  match (List.range' 1 (maxPids - 1)).find? (s.gProcessList · = 0) with
  | some i => .ok i
  | none => .error (.panic "Too many processes running at once. MAX_PIDS limit reached")

/-- `g_process_list[i]`. -/
def processList (i : Nat) : Exec Nat :=
  if i < maxPids then .ok (s.gProcessList i) else .error .wild

def setProcessList (i p : Nat) : System μ :=
  { s with gProcessList := Function.update s.gProcessList i p }

/-! ## exec -/

def pmExecve (pcb : Nat) (path : Lookup) (processRegs : InterruptInfo) :
    Exec (Int × InterruptInfo × System μ) := do
  let (file, s) ← vfsOpen M s path
  if file = 0 then return (-1, processRegs, s)
  let (pagemapHhdm, mem) ← M.vmmCreateNewPagemap s.mem
  let (elfInfo, s) ← loadElfToMemory M { s with mem } file pagemapHhdm
  let (stackPage, mem) ← M.pmmAllocPage s.mem
  let (mappageResult, mem) ← M.vmmMapPage mem pagemapHhdm (userStackPtr - regularPageSize) stackPage
    (mpfWritablePage + mpfUserAccessible)
  let s := { s with mem }
  match elfInfo with
  | some elfInfo =>
    if mappageResult ≠ 0 then
      let mem ← M.vmmDeletePagemap s.mem pagemapHhdm
      let (_, s) ← vfsClose M { s with mem } file
      let s ← s.kfree M elfInfo.addr
      return (-1, processRegs, s)
    else
      let current ← deref s.pcbs pcb
      let mem := M.vmmReloadCr3 s.mem pagemapHhdm
      let mem ← M.vmmDeletePagemap mem current.pagemapHhdmPtr
      let s := { s with mem }.setPcb pcb
        { current with pagemapHhdmPtr := pagemapHhdm, processHeapPtr := elfInfo.heapStart }
      let (_, s) ← vfsClose M s file
      let s ← s.kfree M elfInfo.addr
      return (0, { processRegs with
        rip := elfInfo.entryPoint
        rcx := elfInfo.entryPoint
        originalRsp := userStackPtr
        r11 := rflagsInterruptsEnabled }, s)
  | none =>
    let mem ← M.vmmDeletePagemap s.mem pagemapHhdm
    let (_, s) ← vfsClose M { s with mem } file
    let s ← s.kfree M 0
    return (-1, processRegs, s)

/-! ## fork -/

/-- The loop of `pm_fork` over the file descriptors. -/
def shareFds (fds : Fin maxProcessFds → Nat) : Exec (System μ) :=
  (List.finRange maxProcessFds).foldlM (fun s i => do
    if fds i = 0 then return s
    else
      let file ← deref s.files (fds i)
      return s.setFile (fds i) { file with fileRefCount := u64 (file.fileRefCount + 1) }) s

/-- The fields that the source leaves uninitialised are zero here; they are written before they
are read. -/
def pmFork (pcb : Nat) (processRegs : InterruptInfo) : Exec (Nat × System μ) := do
  let (childPcb, s) ← newObject M s sizeofProcessControlBlock
  let pid ← generatePid s
  let (parentWaitQueue, s) ← pmCreateWaitQueue M s
  let parent ← deref s.pcbs pcb
  let s ← shareFds s parent.fds
  let (interruptInfo, s) ← newObject M s sizeofInterruptInfo
  let s := s.setInfo interruptInfo { processRegs with rax := 0 }
  let (pagemapHhdmPtr, mem) ← M.vmmClonePagemap s.mem parent.pagemapHhdmPtr
  let s := { s with mem }.setPcb childPcb
    { pid, ppid := parent.pid, exitStatus := 0, killSignal := false, processState := .ready
      parentWaitQueue, pagemapHhdmPtr, processHeapPtr := parent.processHeapPtr
      interruptInfo, fds := parent.fds, next := 0 }
  let s ← schedulerAddTask (setProcessList s pid childPcb) childPcb
  return (pid, s)

/-! ## exit, wait and kill -/

/-- The loop of `pm_exit` over the file descriptors. -/
def closeFds (pcb : Nat) : Exec (System μ) :=
  (List.finRange maxProcessFds).foldlM (fun s i => do
    let current ← deref s.pcbs pcb
    if current.fds i = 0 then return s
    else
      let (_, s) ← vfsClose M s (current.fds i)
      s.modifyPcb pcb fun x => { x with fds := Function.update x.fds i 0 }) s

/-- The loop of `pm_exit` over the processes: the children of `pid` become children of 1. -/
def reparentChildren (pid : Nat) : Exec (System μ) :=
  (List.range maxPids).foldlM (fun s i => do
    if s.gProcessList i = 0 then return s
    else
      let child ← deref s.pcbs (s.gProcessList i)
      if child.ppid ≠ pid then return s
      else return s.setPcb (s.gProcessList i) { child with ppid := 1 }) s

def pmExit (status : Int) (pcb : Nat) : Exec (System μ) := do
  let s ← s.modifyPcb pcb ({ · with exitStatus := status, processState := .zombie })
  let s ← closeFds M s pcb
  let current ← deref s.pcbs pcb
  let s ← reparentChildren s current.pid
  let current ← deref s.pcbs pcb
  let parentPcb ← processList s current.ppid
  kernelAssert (parentPcb ≠ 0) "Process does not have a valid parent process"
  let parent ← deref s.pcbs parentPcb
  pmWaitqueueDequeueAll s parent.parentWaitQueue

/-- Where the loop of `pm_wait` ends: at a child that exited, or at the end of the list. -/
inductive WaitScan
  | zombie (i : Nat)
  | done (hasChildren : Bool)
deriving Repr, DecidableEq

def waitScan (pid : Nat) : (indices : List Nat) → (hasChildren : Bool) → Exec WaitScan
  | [], hasChildren => .ok (.done hasChildren)
  | i :: indices, hasChildren =>
    if s.gProcessList i = 0 then waitScan pid indices hasChildren
    else do
      let child ← deref s.pcbs (s.gProcessList i)
      if child.ppid ≠ pid then waitScan pid indices hasChildren
      else if child.processState ≠ .zombie then waitScan pid indices true
      else return .zombie i

/-- What `pm_wait` does with the child at index `i` of the process list. -/
def reapChild (status i : Nat) : Exec (Nat × System μ) := do
  let childPcb := s.gProcessList i
  let child ← deref s.pcbs childPcb
  let mem ←
    if status = 0 then pure s.mem
    else M.store s.mem (.user status) (leBytes (ofInt64 child.exitStatus) 4)
  let mem ← M.vmmDeletePagemap mem child.pagemapHhdmPtr
  let s := { s with mem }
  let s ← s.kfree M child.interruptInfo
  let s ← s.kfree M child.parentWaitQueue
  let s ← s.kfree M childPcb
  return (child.pid, setProcessList s i 0)

def pmWait (status pcb : Nat) : Exec (Nat × System μ) := do
  let current ← deref s.pcbs pcb
  match ← waitScan s current.pid (List.range maxPids) false with
  | .zombie i => reapChild M s status i
  | .done false => return (2 ^ 64 - 1, s)
  | .done true =>
    let s ← pmWaitqueueEnqueue s current.parentWaitQueue
    return (0, s)

def pmKill (pid : Nat) : Exec (Nat × System μ) := do
  if pid ≥ maxPids ∨ s.gProcessList pid = 0 then return (2 ^ 64 - 1, s)
  else
    let s ← s.modifyPcb (s.gProcessList pid) ({ · with killSignal := true })
    return (0, s)

/-! ## The context switch -/

/-- `gdt_is_segment_ring0`. -/
def gdtIsSegmentRing0 (selector : Nat) : Bool := selector % 4 = 0

/-- The context to return to, or none while no process is runnable. -/
def pmSchedulerContextSwitch (currTaskState : InterruptInfo) :
    Exec (Option InterruptInfo × System μ) := do
  if s.gCpuIsIdle then return (some currTaskState, s)
  kernelAssert (¬gdtIsSegmentRing0 currTaskState.codeSegment)
    "Scheduler trying to context switch from ring0 process"
  let curr ← deref s.pcbs s.gCurrTask
  if s.gRunnableTasks.queuesHead = 0 ∧ ¬curr.killSignal then return (some currTaskState, s)
  let s ←
    if curr.killSignal then pmExit M s killSinglaExitCode s.gCurrTask
    else do
      let s ← s.storeInfo curr.interruptInfo currTaskState
      let (queue, s) ← taskEnqueue s s.gRunnableTasks s.gCurrTask
      pure { s with gRunnableTasks := queue }
  pmLoadNextReadyProcess M s

def processExceptionHandler (info : InterruptInfo) : Exec (Option InterruptInfo × System μ) := do
  if gdtIsSegmentRing0 info.codeSegment then
    throw (.panic "Kernel space process crushed with exception")
  let s ← s.modifyPcb s.gCurrTask ({ · with killSignal := true })
  pmSchedulerContextSwitch M s info

/-! ## The first process -/

/-- Returns the entry point of the first process as well; `init` is what the path `/sbin/init`
leads to. -/
def initProcessManager (init : Lookup) : Exec (Nat × System μ) := do
  let (initProcessPcb, s) ← newObject M s sizeofProcessControlBlock
  let pid ← generatePid s
  let (parentWaitQueue, s) ← pmCreateWaitQueue M s
  let (ttyDev, s) ← vfsOpen M s ⟨.device .tty, []⟩
  kernelAssert (ttyDev ≠ 0) "Failed to open /dev/tty for init process file descriptors"
  let (initFile, s) ← vfsOpen M s init
  kernelAssert (initFile ≠ 0) "Failed to open init process file /sbin/init please verify there is an init process to boot"
  let (pagemapHhdmPtr, mem) ← M.vmmCreateNewPagemap s.mem
  let (elfInfo, s) ← loadElfToMemory M { s with mem } initFile pagemapHhdmPtr
  match elfInfo with
  | none => throw (.panic "Failed to load init process into memory")
  | some elfInfo =>
    let (stackPage, mem) ← M.pmmAllocPage s.mem
    let (mappageResult, mem) ← M.vmmMapPage mem pagemapHhdmPtr (userStackPtr - regularPageSize)
      stackPage (mpfOverrideCurrentPaging + mpfWritablePage + mpfUserAccessible)
    kernelAssert (mappageResult = 0) "Failed to map init process stack into memory"
    let s := { s with mem := M.vmmReloadCr3 mem pagemapHhdmPtr }
    let (interruptInfo, s) ← newObject M s sizeofInterruptInfo
    let s := s.setInfo interruptInfo default
    let s := s.setPcb initProcessPcb
      { pid, ppid := 0, exitStatus := 0, killSignal := false, processState := .ready
        parentWaitQueue, pagemapHhdmPtr, processHeapPtr := elfInfo.heapStart, interruptInfo
        fds := fun i => if i.val < 3 then ttyDev else 0
        next := 0 }
    let s ← schedulerAddTask (setProcessList s pid initProcessPcb) initProcessPcb
    let s ← s.kfree M elfInfo.addr
    return (elfInfo.entryPoint, s)

end ProcessManager

end TrazelOs
