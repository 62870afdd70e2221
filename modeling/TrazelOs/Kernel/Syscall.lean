import TrazelOs.Kernel.Process

/-! # System calls (`syscall_entry.c`, `syscall_fileops.c`, `syscall_memops.c`, `syscall_process.c`)

A handler takes the process control block and the saved registers of the caller and returns the
registers with its result. -/

namespace TrazelOs

/-- What a system call finds outside the kernel: where its path leads and the time of the boot. -/
structure SyscallEnv where
  path : Lookup
  bootUnixEpochSecs : Nat

/-- `rax = -1`. -/
def minusOne : Nat := 2 ^ 64 - 1

section Handlers
variable {μ : Type} (M : MemoryManager μ) (s : System μ) (pcb : Nat) (regs : InterruptInfo)

/-! ## Files -/

/-- The index of a file descriptor: the argument when `is_fd_valid` accepts it. -/
def validFd (fileDesc : Nat) (fdTable : Fin maxProcessFds → Nat) : Option (Fin maxProcessFds) :=
  if h : fileDesc < maxProcessFds then if fdTable ⟨fileDesc, h⟩ = 0 then none else some ⟨fileDesc, h⟩
  else none

/-- The lowest free file descriptor. -/
def freeFd (fdTable : Fin maxProcessFds → Nat) : Option (Fin maxProcessFds) :=
  (List.finRange maxProcessFds).find? (fdTable · = 0)

def syscallWriteHandler : Exec (InterruptInfo × System μ) := do
  let current ← deref s.pcbs pcb
  match validFd regs.rdi current.fds with
  | none => return ({ regs with rax := minusOne }, s)
  | some fd =>
    let (bytesWrote, s) ← vfsWrite s (current.fds fd) regs.rdx
    return ({ regs with rax := ofInt64 bytesWrote }, s)

def syscallReadHandler : Exec (InterruptInfo × System μ) := do
  let current ← deref s.pcbs pcb
  match validFd regs.rdi current.fds with
  | none => return ({ regs with rax := minusOne }, s)
  | some fd =>
    let (bytesRead, s) ← vfsRead M s (current.fds fd) (.user regs.rsi) regs.rdx
    return ({ regs with rax := ofInt64 bytesRead }, s)

/-- The opened file is not closed again when no descriptor is free. -/
def syscallOpenHandler (path : Lookup) : Exec (InterruptInfo × System μ) := do
  let (file, s) ← vfsOpen M s path
  if file = 0 then return ({ regs with rax := minusOne }, s)
  let current ← deref s.pcbs pcb
  match freeFd current.fds with
  | none => return ({ regs with rax := minusOne }, s)
  | some fd =>
    let s := s.setPcb pcb { current with fds := Function.update current.fds fd file }
    return ({ regs with rax := fd.val }, s)

def syscallCloseHandler : Exec (InterruptInfo × System μ) := do
  let current ← deref s.pcbs pcb
  match validFd regs.rdi current.fds with
  | none => return ({ regs with rax := minusOne }, s)
  | some fd =>
    let (result, s) ← vfsClose M s (current.fds fd)
    let s ← s.modifyPcb pcb fun x => { x with fds := Function.update x.fds fd 0 }
    return ({ regs with rax := ofInt64 result }, s)

def syscallDupHandler : Exec (InterruptInfo × System μ) := do
  let current ← deref s.pcbs pcb
  match validFd regs.rdi current.fds, freeFd current.fds with
  | some fd, some newfd =>
    let file ← deref s.files (current.fds fd)
    let s := s.setFile (current.fds fd) { file with fileRefCount := u64 (file.fileRefCount + 1) }
    let s := s.setPcb pcb { current with fds := Function.update current.fds newfd (current.fds fd) }
    return ({ regs with rax := newfd.val }, s)
  | _, _ => return ({ regs with rax := minusOne }, s)

def syscallDup2Handler : Exec (InterruptInfo × System μ) := do
  let current ← deref s.pcbs pcb
  match validFd regs.rdi current.fds with
  | none => return ({ regs with rax := minusOne }, s)
  | some oldfd =>
    if h : regs.rsi < maxProcessFds then
      let newfd : Fin maxProcessFds := ⟨regs.rsi, h⟩
      if oldfd = newfd then return ({ regs with rax := newfd.val }, s)
      let s ←
        match validFd regs.rsi current.fds with
        | some newfd => do
          let (_, s) ← vfsClose M s (current.fds newfd)
          pure s
        | none => pure s
      let current ← deref s.pcbs pcb
      let file ← deref s.files (current.fds oldfd)
      let s := s.setFile (current.fds oldfd)
        { file with fileRefCount := u64 (file.fileRefCount + 1) }
      let s := s.setPcb pcb
        { current with fds := Function.update current.fds newfd (current.fds oldfd) }
      return ({ regs with rax := newfd.val }, s)
    else return ({ regs with rax := minusOne }, s)

def syscallLseekHandler : Exec (InterruptInfo × System μ) := do
  let current ← deref s.pcbs pcb
  match validFd regs.rdi current.fds with
  | none => return ({ regs with rax := minusOne }, s)
  | some fd =>
    let (newPos, s) ← vfsSeek s (current.fds fd) (toInt64 regs.rsi) (regs.rdx % 2 ^ 32)
    return ({ regs with rax := ofInt64 newPos }, s)

/-! ## Memory -/

/-- The loop of `syscall_brk_handler`: whether every page up to `endPage` was mapped. -/
def growHeap (pagemap endPage : Nat) : (turns currPage : Nat) → μ → Exec (Bool × μ)
  | 0, _, _ => .error .hang
  | turns + 1, currPage, mem =>
    if currPage < endPage then do
      let (physPage, mem) ← M.pmmAllocPage mem
      if physPage = 0 then return (false, mem)
      let (mappageRet, mem) ← M.vmmMapPage mem pagemap currPage physPage
        (mpfWritablePage + mpfUserAccessible + mpfOverrideCurrentPaging)
      if mappageRet ≠ 0 then return (false, mem)
      growHeap pagemap endPage turns (u64 (currPage + regularPageSize)) mem
    else .ok (true, mem)

def syscallBrkHandler : Exec (InterruptInfo × System μ) := do
  let current ← deref s.pcbs pcb
  let prevHeapAddr := current.processHeapPtr
  let newHeapAddr := regs.rdi
  if newHeapAddr = 0 ∨ newHeapAddr < prevHeapAddr then
    return ({ regs with rax := prevHeapAddr }, s)
  let startPage := alignUp prevHeapAddr regularPageSize
  let endPage := alignUp newHeapAddr regularPageSize
  let (grown, mem) ← growHeap M current.pagemapHhdmPtr endPage (2 ^ 64) startPage s.mem
  let s := { s with mem }
  if grown then
    return ({ regs with rax := newHeapAddr },
      s.setPcb pcb { current with processHeapPtr := newHeapAddr })
  else return ({ regs with rax := prevHeapAddr }, s)

/-- `sbrk` of the C library (`buildenv/newlib_libc/syscalls.c`), with the two system calls that it
makes. -/
def sbrk (incr : Int) : Exec (Nat × System μ) := do
  let (regs, s) ← syscallBrkHandler M s pcb { regs with rdi := 0 }
  let currentBrk := regs.rax
  if incr = 0 then return (currentBrk, s)
  let (regs, s) ← syscallBrkHandler M s pcb { regs with rdi := ofInt64 (currentBrk + incr) }
  if regs.rax ≠ ofInt64 (currentBrk + incr) then return (minusOne, s)
  return (currentBrk, s)

/-! ## Processes and time -/

def syscallKillHandler : Exec (InterruptInfo × System μ) := do
  if regs.rsi ≠ 9 then return ({ regs with rax := minusOne }, s)
  else
    let (result, s) ← pmKill s (ofInt64 (toInt32 regs.rdi))
    return ({ regs with rax := result }, s)

def gettimeofday (bootUnixEpochSecs timeval : Nat) : Exec (System μ) := do
  let milliseconds := u64 (s.gSystemLapicTimerUptimer * 10)
  let tvSec := u64 (bootUnixEpochSecs + milliseconds / 1000)
  let tvUsec := u64 (milliseconds % 1000 * 1000)
  let mem ← M.store s.mem (.user timeval) (leBytes tvSec 8)
  let mem ← M.store mem ((Buffer.user timeval).offset 8) (leBytes tvUsec 8)
  return { s with mem }

/-- The `switch` of `syscall_kernel_handler`. -/
def syscallDispatch (env : SyscallEnv) : Exec (InterruptInfo × System μ) :=
  match regs.rax with
  | 0 => syscallReadHandler M s pcb regs
  | 1 => syscallWriteHandler s pcb regs
  | 2 => syscallOpenHandler M s pcb regs env.path
  | 3 => syscallCloseHandler M s pcb regs
  | 8 => syscallLseekHandler s pcb regs
  | 12 => syscallBrkHandler M s pcb regs
  | 32 => syscallDupHandler s pcb regs
  | 33 => syscallDup2Handler M s pcb regs
  | 39 => do
    let current ← deref s.pcbs pcb
    return ({ regs with rax := current.pid }, s)
  | 57 => do
    let (pid, s) ← pmFork M s pcb regs
    return ({ regs with rax := pid }, s)
  | 59 => do
    let (result, regs, s) ← pmExecve M s pcb env.path regs
    return ({ regs with rax := ofInt64 result }, s)
  | 60 => do
    let s ← pmExit M s (toInt32 regs.rdi) pcb
    return (regs, s)
  | 61 => do
    let (result, s) ← pmWait M s regs.rdi pcb
    return ({ regs with rax := result }, s)
  | 62 => syscallKillHandler s regs
  | 96 => do
    let s ← gettimeofday M s env.bootUnixEpochSecs regs.rdi
    return ({ regs with rax := 0 }, s)
  | 110 => do
    let current ← deref s.pcbs pcb
    return ({ regs with rax := current.ppid }, s)
  | _ => .error (.panic "Syscall: unknown syscall number:\n")

/-- The selectors of the ring 3 code and data segments. -/
def ring3CodeSegment : Nat := 0x23
def ring3DataSegment : Nat := 0x1b

/-- The context to return to, or none while no process is runnable. -/
def syscallKernelHandler (syscallInfo : InterruptInfo) (env : SyscallEnv) :
    Exec (Option InterruptInfo × System μ) := do
  let syscallInfo :=
    { syscallInfo with codeSegment := ring3CodeSegment, stackSegment := ring3DataSegment }
  let pcb := s.gCurrTask
  let (regs, s) ← syscallDispatch M s pcb syscallInfo env
  let current ← deref s.pcbs pcb
  if current.processState ≠ .waiting ∧ current.processState ≠ .zombie then return (some regs, s)
  let regs := { regs with rax := syscallInfo.rax, rip := u64Sub regs.rip 2 }
  let s ← s.storeInfo current.interruptInfo regs
  pmLoadNextReadyProcess M s

end Handlers

end TrazelOs
