import TrazelOs.Kernel.Basic
import Mathlib.Logic.Function.Basic

/-! # Processes, task queues and the objects of the kernel

The structures of `process_manager.h`, `intrrupts.h`, `scheduler.h` and `vfs.h`, and the queue
operations of `scheduler.c`. The kernel's objects live in typed stores that are indexed by their
address; an access to an address without an object of the type is `Fault.wild`. What lies under
the objects, the memory managers, is seen through the functions that are called
(`MemoryManager`). -/

namespace TrazelOs

/-- A pointer that the kernel made or one that a user process supplied. -/
inductive Buffer
  | kernel (addr : Nat)
  | user (vaddr : Nat)
deriving Repr, DecidableEq

def Buffer.addr : Buffer → Nat
  | kernel addr => addr
  | user vaddr => vaddr

/-- `buffer + n`. -/
def Buffer.offset : Buffer → (n : Nat) → Buffer
  | kernel addr, n => kernel (u64 (addr + n))
  | user vaddr, n => user (u64 (vaddr + n))

/-- The functions of the memory managers with states `μ`, with the kernel's loads and stores and
the stores that user code makes. -/
structure MemoryManager (μ : Type) where
  kmalloc : μ → (size : Nat) → Exec (Nat × μ)
  kfree : μ → (addr : Nat) → Exec μ
  load : μ → (addr count : Nat) → List Byte
  store : μ → Buffer → List Byte → Exec μ
  userStore : μ → (vaddr : Nat) → Byte → Exec μ
  pmmAllocPage : μ → Exec (Nat × μ)
  pmmAllocPages : μ → (count : Nat) → Exec (Nat × μ)
  vmmPhysToVirtHhdm : μ → (paddr : Nat) → Nat
  vmmCreateNewPagemap : μ → Exec (Nat × μ)
  vmmMapPage : μ → (pagemap vaddr paddr flags : Nat) → Exec (Int × μ)
  vmmClonePagemap : μ → (pagemap : Nat) → Exec (Nat × μ)
  vmmDeletePagemap : μ → (pagemap : Nat) → Exec μ
  vmmReloadCr3 : μ → (pagemap : Nat) → μ

/-- The little-endian number in a list of bytes. -/
def leValue : List Byte → Nat
  | [] => 0
  | b :: bs => b.toNat + 256 * leValue bs

/-- The little-endian field of `count` bytes at `offset`. -/
def field (bytes : List Byte) (offset count : Nat) : Nat := leValue ((bytes.drop offset).take count)

/-- The `n` bytes of `v`, least significant first. -/
def leBytes (v : Nat) : (n : Nat) → List Byte
  | 0 => []
  | n + 1 => BitVec.ofNat 8 v :: leBytes (v / 256) n

/-! ## Structures -/

/-- `struct interrupt_info`. -/
structure InterruptInfo where
  rax : Nat
  rbx : Nat
  rcx : Nat
  rdx : Nat
  rsi : Nat
  rdi : Nat
  rbp : Nat
  r8 : Nat
  r9 : Nat
  r10 : Nat
  r11 : Nat
  r12 : Nat
  r13 : Nat
  r14 : Nat
  r15 : Nat
  interruptIndex : Nat
  potentialErrorCode : Nat
  rip : Nat
  codeSegment : Nat
  rflags : Nat
  originalRsp : Nat
  stackSegment : Nat
deriving Repr, DecidableEq, Inhabited

inductive ProcessState
  | ready
  | waiting
  | zombie
deriving Repr, DecidableEq

def maxPids : Nat := 0x1000
def maxProcessFds : Nat := 32

/-- `struct process_control_block`. -/
structure Pcb where
  pid : Nat
  ppid : Nat
  exitStatus : Int
  killSignal : Bool
  processState : ProcessState
  parentWaitQueue : Nat
  pagemapHhdmPtr : Nat
  processHeapPtr : Nat
  interruptInfo : Nat
  fds : Fin maxProcessFds → Nat
  next : Nat

structure TaskQueue where
  queuesHead : Nat
  queuesRear : Nat
deriving Repr, DecidableEq

/-- The character devices that `init_devfs` registers. -/
inductive CharDevice
  | com1
  | vgaText
  | ps2Keyboard
  | framebuffer
  | tty
deriving Repr, DecidableEq

/-- Which `read`, `write` and `close` functions a file has. -/
inductive FileKind
  | charDev (dev : CharDevice)
  | fat12
deriving Repr, DecidableEq

/-- `struct vfs_file`; of the private data only the content buffer of a FAT12 file. -/
structure VfsFile where
  fileSize : Nat
  filePosition : Nat
  fileRefCount : Nat
  kind : FileKind
  fsPrivateData : Nat
deriving Repr, DecidableEq

/-- `struct ring_buffer` with its buffer. -/
structure RingBuffer where
  writePtr : Nat
  readPtr : Nat
  bufferSize : Nat
  buffer : Nat → Byte

/-- `struct ps2_keyboard_data`. -/
structure Ps2KeyboardData where
  ringBuffer : RingBuffer
  deviceWaitQueue : Nat

/-- The memory managers, the kernel's objects and the static variables of the process manager,
the scheduler, the keyboard driver and the timer. -/
structure System (μ : Type) where
  mem : μ
  pcbs : Nat → Option Pcb
  waitQueues : Nat → Option TaskQueue
  infos : Nat → Option InterruptInfo
  files : Nat → Option VfsFile
  gProcessList : Nat → Nat
  gRunnableTasks : TaskQueue
  gCurrTask : Nat
  gFirstTaskAdded : Bool
  gCpuIsIdle : Bool
  keyboard : Ps2KeyboardData
  gSystemLapicTimerUptimer : Nat

/-! ## Access to objects -/

/-- What is stored at `p`. -/
def deref (objects : Nat → Option α) (p : Nat) : Exec α :=
  match objects p with
  | none => .error .wild
  | some x => .ok x

namespace System

variable {μ : Type} (s : System μ)

def setPcb (p : Nat) (x : Pcb) : System μ := { s with pcbs := Function.update s.pcbs p (some x) }

def modifyPcb (p : Nat) (f : Pcb → Pcb) : Exec (System μ) := do
  let x ← deref s.pcbs p
  return s.setPcb p (f x)

def setWaitQueue (p : Nat) (q : TaskQueue) : System μ :=
  { s with waitQueues := Function.update s.waitQueues p (some q) }

def setInfo (p : Nat) (info : InterruptInfo) : System μ :=
  { s with infos := Function.update s.infos p (some info) }

/-- `*p = info`. -/
def storeInfo (p : Nat) (info : InterruptInfo) : Exec (System μ) := do
  let _ ← deref s.infos p
  return s.setInfo p info

def setFile (p : Nat) (file : VfsFile) : System μ :=
  { s with files := Function.update s.files p (some file) }

/-- `kfree`: there is no object at `p` any more. -/
def kfree (M : MemoryManager μ) (p : Nat) : Exec (System μ) := do
  let mem ← M.kfree s.mem p
  return { s with
    mem
    pcbs := Function.update s.pcbs p none
    waitQueues := Function.update s.waitQueues p none
    infos := Function.update s.infos p none
    files := Function.update s.files p none }

end System

/-! ## The queues of `scheduler.c` -/

section Scheduler
variable {μ : Type} (M : MemoryManager μ) (s : System μ)

def taskEnqueue (q : TaskQueue) (task : Nat) : Exec (TaskQueue × System μ) := do
  let s ← s.modifyPcb task ({ · with next := 0 })
  if q.queuesRear = 0 then
    return (⟨task, task⟩, s)
  else
    let s ← s.modifyPcb q.queuesRear ({ · with next := task })
    return ({ q with queuesRear := task }, s)

def taskDequeue (q : TaskQueue) : Exec (Nat × TaskQueue × System μ) := do
  let nextTask := q.queuesHead
  let queuesRear := if q.queuesHead = q.queuesRear then 0 else q.queuesRear
  let head ← deref s.pcbs q.queuesHead
  return (nextTask, ⟨head.next, queuesRear⟩, s.setPcb nextTask { head with next := 0 })

def taskQueueEmpty (q : TaskQueue) : Bool := q.queuesHead = 0

def schedulerAddTask (pcb : Nat) : Exec (System μ) := do
  let (queue, s) ← taskEnqueue s s.gRunnableTasks pcb
  let s := { s with gRunnableTasks := queue }
  if s.gFirstTaskAdded then
    let (task, queue, s) ← taskDequeue s s.gRunnableTasks
    return { s with gRunnableTasks := queue, gCurrTask := task, gFirstTaskAdded := false }
  else return s

/-- `sizeof(struct pm_wait_queue)`. -/
def sizeofPmWaitQueue : Nat := 16

/-- The two pointers of the new queue are what the memory held before. -/
def pmCreateWaitQueue : Exec (Nat × System μ) := do
  let (p, mem) ← M.kmalloc s.mem sizeofPmWaitQueue
  let s := { s with mem }
  if p = 0 then return (p, s)
  else return (p, s.setWaitQueue p ⟨leValue (M.load mem p 8), leValue (M.load mem (u64 (p + 8)) 8)⟩)

def pmWaitqueueEnqueue (waitQueue : Nat) : Exec (System μ) := do
  let s ← s.modifyPcb s.gCurrTask ({ · with processState := .waiting })
  let q ← deref s.waitQueues waitQueue
  let (q, s) ← taskEnqueue s q s.gCurrTask
  return s.setWaitQueue waitQueue q

/-- One turn of the loop of `pm_waitqueue_dequeue_all`, on the queue `q`. -/
def wakeFirst (waitQueue : Nat) (q : TaskQueue) : Exec (System μ) := do
  let (task, q, s) ← taskDequeue s q
  let s := s.setWaitQueue waitQueue q
  let s ← s.modifyPcb task ({ · with processState := .ready })
  let (queue, s) ← taskEnqueue s s.gRunnableTasks task
  return { s with gRunnableTasks := queue }

def pmWaitqueueDequeueAll.loop (waitQueue : Nat) : (turns : Nat) → System μ → Exec (System μ)
  | 0, _ => .error .hang
  | turns + 1, s => do
    let q ← deref s.waitQueues waitQueue
    if q.queuesHead = 0 then return s
    else
      let s ← wakeFirst s waitQueue q
      pmWaitqueueDequeueAll.loop waitQueue turns s

def pmWaitqueueDequeueAll (waitQueue : Nat) : Exec (System μ) :=
  pmWaitqueueDequeueAll.loop waitQueue (2 ^ 64) s

/-- The context of the next process, or none while the processor is halted in the loop: no process
is runnable and the function has not returned. -/
def pmLoadNextReadyProcess : Exec (Option InterruptInfo × System μ) := do
  if s.gRunnableTasks.queuesHead = 0 then
    return (none, { s with gCpuIsIdle := true })
  else
    let (task, queue, s) ← taskDequeue s s.gRunnableTasks
    let s := { s with gCpuIsIdle := false, gRunnableTasks := queue, gCurrTask := task }
    let pcb ← deref s.pcbs task
    let s := { s with mem := M.vmmReloadCr3 s.mem pcb.pagemapHhdmPtr }
    let info ← deref s.infos pcb.interruptInfo
    return (some info, s)

end Scheduler

end TrazelOs
