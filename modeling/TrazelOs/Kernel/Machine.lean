import TrazelOs.Kernel.Syscall

/-! # The machine (`syscall_entry.asm`, `hardware_intrrupts.asm`, `cpu_exceptions.asm`, `apic.c`)

The processor runs user code, or it is halted in the loop of `pm_load_next_ready_process`. User
code changes its registers and its memory in any way; the kernel runs when it makes a system call
and when an interrupt or an exception arrives, and then without interruption. -/

namespace TrazelOs

/-- The registers of user code. -/
structure UserRegs where
  rax : Nat
  rbx : Nat
  rcx : Nat
  rdx : Nat
  rsi : Nat
  rdi : Nat
  rbp : Nat
  r8 : Nat
  r9 : Nat
  r10 : Nat
  r11 : Nat
  r12 : Nat
  r13 : Nat
  r14 : Nat
  r15 : Nat
  rip : Nat
  rsp : Nat
  rflags : Nat
deriving Repr, DecidableEq, Inhabited

/-! ## Entry and exit -/

/-- What an interrupt in user mode pushes, the processor first and then `pushaq`. -/
def interruptFrame (r : UserRegs) (interruptIndex errorCode : Nat) : InterruptInfo where
  rax := r.rax
  rbx := r.rbx
  rcx := r.rcx
  rdx := r.rdx
  rsi := r.rsi
  rdi := r.rdi
  rbp := r.rbp
  r8 := r.r8
  r9 := r.r9
  r10 := r.r10
  r11 := r.r11
  r12 := r.r12
  r13 := r.r13
  r14 := r.r14
  r15 := r.r15
  interruptIndex := interruptIndex
  potentialErrorCode := errorCode
  rip := r.rip
  codeSegment := ring3CodeSegment
  rflags := r.rflags
  originalRsp := r.rsp
  stackSegment := ring3DataSegment

/-- What `asm_kernel_syscall_entrypoint` pushes: the `syscall` instruction, which is two bytes
long, has put the address after it in `rcx` and the flags in `r11`. -/
def syscallFrame (r : UserRegs) : InterruptInfo :=
  { interruptFrame r (2 ^ 64 - 1) 0 with
    rip := u64 (r.rip + 2)
    rcx := u64 (r.rip + 2)
    r11 := r.rflags
    codeSegment := 0
    stackSegment := 0 }

/-- `popaq` and `iretq`. -/
def iretq (info : InterruptInfo) : UserRegs where
  rax := info.rax
  rbx := info.rbx
  rcx := info.rcx
  rdx := info.rdx
  rsi := info.rsi
  rdi := info.rdi
  rbp := info.rbp
  r8 := info.r8
  r9 := info.r9
  r10 := info.r10
  r11 := info.r11
  r12 := info.r12
  r13 := info.r13
  r14 := info.r14
  r15 := info.r15
  rip := info.rip
  rsp := info.originalRsp
  rflags := info.rflags

/-- The flags that `sysret` loads from `r11`: `RF`, `VM` and the reserved bits are fixed. -/
def sysretRflags (r11 : Nat) : Nat := r11 &&& 0x3C7FD7 ||| 2

/-- `popaq`, the pops of `rip` into `rcx` and of the flags into `r11`, and `sysret`. -/
def sysret (info : InterruptInfo) : UserRegs :=
  { iretq info with rcx := info.rip, r11 := info.rflags, rflags := sysretRflags info.rflags }

/-- How the kernel returns to user mode. -/
inductive ExitPath
  | sysret
  | iretq
deriving Repr, DecidableEq

def ExitPath.regs : ExitPath → InterruptInfo → UserRegs
  | sysret => TrazelOs.sysret
  | iretq => TrazelOs.iretq

/-- What the processor does: it runs user code, or it waits in the kernel for a process and will
leave it on the given path. -/
inductive Cpu
  | user (regs : UserRegs)
  | idle (exit : ExitPath)
deriving Repr, DecidableEq

structure Machine (μ : Type) where
  sys : System μ
  cpu : Cpu

/-! ## Events -/

inductive Event
  | run (regs : UserRegs) (stores : List (Nat × Byte))
  | syscall (env : SyscallEnv)
  | timer
  | keyboard (scanCode : Nat)
  | exception (index errorCode : Nat)
  | haltEnds

/-- The vector of the timer interrupt; no handler looks at it. -/
def timerVector : Nat := 32

/-- The exceptions that `init_process_manager` sets a handler for. -/
def handledExceptions : List Nat := [0x0, 0x6, 0xD, 0xC, 0x10, 0x11, 0xE, 0x1, 0x3]

section Step
variable {μ : Type} (M : MemoryManager μ)

/-- The handler is called every 35th time. -/
def lapicTimerHandler (s : System μ) (state : InterruptInfo) :
    Exec (Option InterruptInfo × System μ) :=
  let s := { s with gSystemLapicTimerUptimer := u64 (s.gSystemLapicTimerUptimer + 1) }
  if s.gSystemLapicTimerUptimer % 35 = 0 then pmSchedulerContextSwitch M s state
  else .ok (some state, s)

def cpuExceptionsIsrCentralHandler (s : System μ) (info : InterruptInfo) :
    Exec (Option InterruptInfo × System μ) :=
  if info.interruptIndex ∈ handledExceptions then processExceptionHandler M s info
  else .error (.panic "Unexpected CPU exception occurred")

/-- The end of a kernel entry: back to user mode, or into the halt loop. -/
def leaveKernel (exit : ExitPath) : Option InterruptInfo × System μ → Machine μ
  | (some info, s) => ⟨s, .user (exit.regs info)⟩
  | (none, s) => ⟨s, .idle exit⟩

/-- One event. Events that cannot happen in the state are faults. -/
def step (c : Machine μ) (e : Event) : Exec (Machine μ) :=
  match c.cpu, e with
  | .user _, .run regs stores => do
    let mem ← stores.foldlM (fun mem (vaddr, byte) => M.userStore mem vaddr byte) c.sys.mem
    return ⟨{ c.sys with mem }, .user regs⟩
  | .user regs, .syscall env =>
    leaveKernel .sysret <$> syscallKernelHandler M c.sys (syscallFrame regs) env
  | .user regs, .timer =>
    leaveKernel .iretq <$> lapicTimerHandler M c.sys (interruptFrame regs timerVector 0)
  | .user regs, .exception index errorCode =>
    leaveKernel .iretq <$>
      cpuExceptionsIsrCentralHandler M c.sys (interruptFrame regs index errorCode)
  | .user regs, .keyboard scanCode => do
    let s ← keyboardInterruptHandler c.sys scanCode
    return ⟨s, .user regs⟩
  -- The interrupts that arrive between `sti` and `cli` return into the loop.
  | .idle exit, .timer => do
    let (_, s) ← lapicTimerHandler M c.sys default
    return ⟨s, .idle exit⟩
  | .idle exit, .keyboard scanCode => do
    let s ← keyboardInterruptHandler c.sys scanCode
    return ⟨s, .idle exit⟩
  -- The loop looks at the queue again.
  | .idle exit, .haltEnds => leaveKernel exit <$> pmLoadNextReadyProcess M c.sys
  | _, _ => .error .wild

/-! ## The boot -/

/-- The objects and variables before `init_process_manager`: `vfs_init` has made the wait queue of
the keyboard, whose pointers are what the memory held before. -/
def bootSystem (mem : μ) (deviceWaitQueue : Nat) (queue : TaskQueue) : System μ where
  mem := mem
  pcbs := fun _ => none
  waitQueues := Function.update (fun _ => none) deviceWaitQueue (some queue)
  infos := fun _ => none
  files := fun _ => none
  gProcessList := fun _ => 0
  gRunnableTasks := ⟨0, 0⟩
  gCurrTask := 0
  gFirstTaskAdded := true
  gCpuIsIdle := false
  keyboard := ⟨⟨0, 0, 2056, fun _ => 0⟩, deviceWaitQueue⟩
  gSystemLapicTimerUptimer := 0

/-- `init_process_manager` and `asm_jump_usermode`; the other registers are left over from the
kernel. -/
def boot (s : System μ) (init : Lookup) (regs : InterruptInfo) : Exec (Machine μ) := do
  let (entryPoint, s) ← initProcessManager M s init
  return ⟨s, .user (sysret { regs with
    rip := entryPoint, originalRsp := userStackPtr, rflags := rflagsInterruptsEnabled })⟩

end Step

end TrazelOs
