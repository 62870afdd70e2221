import TrazelOs.Kernel.Machine
import TrazelOs.Theory.StackCode

/-! # The assembly around the kernel (`cpu_exceptions.asm`, `hardware_intrrupts.asm`,
`syscall_entry.asm`)

The stubs up to the call of the C function and from its return on, and what the processor does before
and after them. -/

namespace TrazelOs

open Theory.StackCode (Instr State run)

/-- The registers that `pushaq` saves. -/
inductive Reg
  | rax | rbx | rcx | rdx | rsi | rdi | rbp | r8 | r9 | r10 | r11 | r12 | r13 | r14 | r15
deriving Repr, DecidableEq

def pushaq : List (Instr Reg) :=
  [.push .r15, .push .r14, .push .r13, .push .r12, .push .r11, .push .r10, .push .r9, .push .r8,
    .push .rbp, .push .rdi, .push .rsi, .push .rdx, .push .rcx, .push .rbx, .push .rax]

def popaq : List (Instr Reg) :=
  [.pop .rax, .pop .rbx, .pop .rcx, .pop .rdx, .pop .rsi, .pop .rdi, .pop .rbp, .pop .r8, .pop .r9,
    .pop .r10, .pop .r11, .pop .r12, .pop .r13, .pop .r14, .pop .r15]

/-! ## The stubs -/

def isrErrStub (n : Nat) : List (Instr Reg) := .pushConst n :: pushaq

def isrNoErrStub (n : Nat) : List (Instr Reg) := .pushConst 0 :: .pushConst n :: pushaq

def isrHardwareStub (n : Nat) : List (Instr Reg) := .pushConst 0 :: .pushConst n :: pushaq

/-- The stub at `isr_stub_n`. -/
def isrStub (n : Nat) : List (Instr Reg) :=
  if n < 32 then
    if n ∈ [8, 10, 11, 12, 13, 14, 17, 30] then isrErrStub n else isrNoErrStub n
  else isrHardwareStub n

/-- The end of every stub, before `iretq`. -/
def isrStubExit : List (Instr Reg) := popaq ++ [.discard 2]

/-- `mov rdi, rsp`. -/
def passFrame (s : State Reg) : State Reg := { s with regs := Function.update s.regs .rdi s.sp }

/-- `struct interrupt_info` in memory. -/
def infoAt (m : Memory) (a : Nat) : InterruptInfo where
  rax := m.load a 8
  rbx := m.load (a + 8) 8
  rcx := m.load (a + 16) 8
  rdx := m.load (a + 24) 8
  rsi := m.load (a + 32) 8
  rdi := m.load (a + 40) 8
  rbp := m.load (a + 48) 8
  r8 := m.load (a + 56) 8
  r9 := m.load (a + 64) 8
  r10 := m.load (a + 72) 8
  r11 := m.load (a + 80) 8
  r12 := m.load (a + 88) 8
  r13 := m.load (a + 96) 8
  r14 := m.load (a + 104) 8
  r15 := m.load (a + 112) 8
  interruptIndex := m.load (a + 120) 8
  potentialErrorCode := m.load (a + 128) 8
  rip := m.load (a + 136) 8
  codeSegment := m.load (a + 144) 8
  rflags := m.load (a + 152) 8
  originalRsp := m.load (a + 160) 8
  stackSegment := m.load (a + 168) 8

/-! ## The processor -/

structure Processor where
  regs : Reg → Nat
  rip : Nat
  rsp : Nat
  rflags : Nat
  codeSegment : Nat
  stackSegment : Nat
  gsBase : Nat
  kernelGsBase : Nat
  mem : Memory

namespace Processor

variable (p : Processor)

def userRegs : UserRegs where
  rax := p.regs .rax
  rbx := p.regs .rbx
  rcx := p.regs .rcx
  rdx := p.regs .rdx
  rsi := p.regs .rsi
  rdi := p.regs .rdi
  rbp := p.regs .rbp
  r8 := p.regs .r8
  r9 := p.regs .r9
  r10 := p.regs .r10
  r11 := p.regs .r11
  r12 := p.regs .r12
  r13 := p.regs .r13
  r14 := p.regs .r14
  r15 := p.regs .r15
  rip := p.rip
  rsp := p.rsp
  rflags := p.rflags

/-- The vectors with an error code. -/
def errorCodeVectors : List Nat := [8, 10, 11, 12, 13, 14, 17, 21, 29, 30]

/-- The stack for a gate without a stack table entry: the one of the task state segment, or the current
one when the kernel is interrupted. The processor aligns it. -/
def interruptStack (rsp0 : Nat) : Nat := (if p.codeSegment % 4 = 0 then p.rsp else rsp0) / 16 * 16

def interruptPushes (vector errorCode : Nat) : List (Instr Reg) :=
  [.pushConst p.stackSegment, .pushConst p.rsp, .pushConst p.rflags, .pushConst p.codeSegment,
    .pushConst p.rip] ++ if vector ∈ errorCodeVectors then [.pushConst errorCode] else []

/-- An interrupt, up to the call in its stub. -/
def interrupt (rsp0 vector errorCode : Nat) : State Reg :=
  passFrame <| run (isrStub vector) <| run (p.interruptPushes vector errorCode)
    ⟨p.regs, p.interruptStack rsp0, p.mem⟩

/-- `iretq`. -/
def interruptReturn (s : State Reg) : Processor :=
  let s := run isrStubExit s
  { p with
    regs := s.regs
    mem := s.mem
    rip := s.mem.load s.sp 8
    codeSegment := s.mem.load (s.sp + 8) 8
    rflags := s.mem.load (s.sp + 16) 8
    rsp := s.mem.load (s.sp + 24) 8
    stackSegment := s.mem.load (s.sp + 32) 8 }

end Processor

end TrazelOs
