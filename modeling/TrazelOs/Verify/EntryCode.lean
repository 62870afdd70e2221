import TrazelOs.Kernel.EntryCode

/-! # The frames that the assembly builds

The kernel's C functions work on a `struct interrupt_info`. The stubs build it on the stack and load
the registers from it again: what the machine has as `interruptFrame`, `syscallFrame`, `iretq` and
`sysret` is what their instructions do, byte by byte. -/

namespace TrazelOs

open Theory.StackCode (Instr State Words Represents WordsAt run)

/-- The words of the structure, in memory order. -/
def InterruptInfo.words (info : InterruptInfo) : List Nat :=
  [info.rax, info.rbx, info.rcx, info.rdx, info.rsi, info.rdi, info.rbp, info.r8, info.r9, info.r10,
    info.r11, info.r12, info.r13, info.r14, info.r15, info.interruptIndex, info.potentialErrorCode,
    info.rip, info.codeSegment, info.rflags, info.originalRsp, info.stackSegment]

theorem infoAt_of_words {m : Memory} {a : Nat} {info : InterruptInfo}
    (h : WordsAt m a info.words) : infoAt m a = info := by
  simp only [InterruptInfo.words, WordsAt, Nat.add_assoc, Nat.reduceAdd, and_true] at h
  obtain ⟨h₁, h₂, h₃, h₄, h₅, h₆, h₇, h₈, h₉, h₁₀, h₁₁, h₁₂, h₁₃, h₁₄, h₁₅, h₁₆, h₁₇, h₁₈, h₁₉, h₂₀,
    h₂₁, h₂₂⟩ := h
  simp only [infoAt, h₁, h₂, h₃, h₄, h₅, h₆, h₇, h₈, h₉, h₁₀, h₁₁, h₁₂, h₁₃, h₁₄, h₁₅, h₁₆, h₁₇, h₁₈,
    h₁₉, h₂₀, h₂₁, h₂₂]

theorem words_infoAt (m : Memory) (a : Nat) : WordsAt m a (infoAt m a).words := by
  simp only [InterruptInfo.words, WordsAt, infoAt, Nat.add_assoc, Nat.reduceAdd, and_true]

namespace Processor

variable {p : Processor} {rsp0 vector errorCode : Nat}

/-- The values in the registers are words. -/
structure Wide (p : Processor) : Prop where
  regs : ∀ r, p.regs r < 2 ^ 64
  rip : p.rip < 2 ^ 64
  rsp : p.rsp < 2 ^ 64
  rflags : p.rflags < 2 ^ 64
  codeSegment : p.codeSegment < 2 ^ 64
  stackSegment : p.stackSegment < 2 ^ 64

/-- What the handler of an interrupt is to see. -/
def frame (p : Processor) (vector errorCode : Nat) : InterruptInfo :=
  { interruptFrame p.userRegs vector errorCode with
    codeSegment := p.codeSegment
    stackSegment := p.stackSegment }

/-- Code that pushes the words of a structure from `base` down has built it there. -/
theorem passFrame_run {code : List (Instr Reg)} {regs : Reg → Nat} {base : Nat} {m : Memory}
    {known : Nat → Option Nat} {info : InterruptInfo}
    (hcode : code.foldlM Instr.act ⟨regs, [], 22, known⟩ = some ⟨regs, info.words, 0, known⟩)
    (hroom : 176 ≤ base) (hfits : base < 2 ^ 64)
    (hknown : ∀ a v, known a = some v → m.load a 8 = v ∧ (a + 8 ≤ base - 176 ∨ base ≤ a)) :
    let s := passFrame (run code ⟨regs, base, m⟩)
    s.sp = base - 176 ∧ s.regs .rdi = s.sp ∧ infoAt s.mem s.sp = info ∧
      ∀ a v, known a = some v → s.mem.load a 8 = v := by
  have hstart : Represents (base - 176) base (⟨regs, base, m⟩ : State Reg)
      ⟨regs, [], 22, known⟩ :=
    ⟨rfl, show base = base - 176 + 8 * 22 by omega, Nat.add_zero base, hfits, trivial, hknown⟩
  have hend := hstart.run hcode
  have hroom' : (run code ⟨regs, base, m⟩).sp = base - 176 + 8 * 0 := hend.room
  refine ⟨?_, ?_, infoAt_of_words hend.words, fun a v hv => (hend.known a v hv).1⟩
  · dsimp only [passFrame]
    rw [hroom', Nat.mul_zero, Nat.add_zero]
  · dsimp only [passFrame]
    rw [Function.update_self]

/-- The pushes of the structure. -/
def framePushes (p : Processor) (vector error : Nat) : List (Instr Reg) :=
  [.pushConst p.stackSegment, .pushConst p.rsp, .pushConst p.rflags, .pushConst p.codeSegment,
    .pushConst p.rip, .pushConst error, .pushConst vector] ++ pushaq

/-- The processor and the stub push the same structure for every vector, but for two vectors with an
error code whose stub pushes one more. -/
theorem pushes_eq (hvector : vector < 256) (h₁ : vector ≠ 21) (h₂ : vector ≠ 29) :
    p.interruptPushes vector errorCode ++ isrStub vector =
      p.framePushes vector (if vector ∈ errorCodeVectors then errorCode else 0) := by
  have hstub : vector ∈ errorCodeVectors ↔
      vector < 32 ∧ vector ∈ [8, 10, 11, 12, 13, 14, 17, 30] := by
    simp only [errorCodeVectors, List.mem_cons, List.not_mem_nil, or_false]
    omega
  unfold interruptPushes isrStub
  by_cases hmem : vector ∈ errorCodeVectors
  · obtain ⟨hlt, hlist⟩ := hstub.mp hmem
    rw [if_pos hmem, if_pos hmem, if_pos hlt, if_pos hlist]
    rfl
  · rw [if_neg hmem, if_neg hmem]
    split
    · rename_i hlt
      rw [if_neg fun hlist => hmem (hstub.mpr ⟨hlt, hlist⟩)]
      rfl
    · rfl

theorem pushes_frame {error : Nat} (h : p.Wide) (hvector : vector < 256) (herror : error < 2 ^ 64) :
    (p.framePushes vector error).foldlM Instr.act ⟨p.regs, [], 22, fun _ => none⟩ =
      some ⟨p.regs, (p.frame vector error).words, 0, fun _ => none⟩ := by
  have hregs : ∀ r, p.regs r % 2 ^ 64 = p.regs r := fun r => Nat.mod_eq_of_lt (h.regs r)
  have hwords : (p.frame vector error).words.map (· % 2 ^ 64) = (p.frame vector error).words := by
    simp only [InterruptInfo.words, frame, interruptFrame, userRegs, List.map_cons, List.map_nil,
      hregs, Nat.mod_eq_of_lt h.rip, Nat.mod_eq_of_lt h.rsp, Nat.mod_eq_of_lt h.rflags,
      Nat.mod_eq_of_lt h.codeSegment, Nat.mod_eq_of_lt h.stackSegment, Nat.mod_eq_of_lt herror,
      Nat.mod_eq_of_lt (Nat.lt_trans hvector (show 256 < 2 ^ 64 by decide))]
  rw [← hwords]
  rfl

/-- Both the processor and the stub push an error code. -/
theorem pushes_twice (h : vector = 21 ∨ vector = 29) :
    (p.interruptPushes vector errorCode ++ isrStub vector).foldlM Instr.act
        ⟨p.regs, [], 23, fun _ => none⟩ =
      some ⟨p.regs, [p.regs .rax, p.regs .rbx, p.regs .rcx, p.regs .rdx, p.regs .rsi, p.regs .rdi,
        p.regs .rbp, p.regs .r8, p.regs .r9, p.regs .r10, p.regs .r11, p.regs .r12, p.regs .r13,
        p.regs .r14, p.regs .r15, vector, 0, errorCode, p.rip, p.codeSegment, p.rflags, p.rsp,
        p.stackSegment].map (· % 2 ^ 64), 0, fun _ => none⟩ := by
  have hmem : vector ∈ errorCodeVectors := by
    simp only [errorCodeVectors, List.mem_cons, List.not_mem_nil, or_false]
    omega
  have hstub : ¬vector ∈ [8, 10, 11, 12, 13, 14, 17, 30] := by
    simp only [List.mem_cons, List.not_mem_nil, or_false]
    omega
  rw [interruptPushes, isrStub, if_pos hmem, if_pos (by omega), if_neg hstub]
  rfl

theorem error_lt (vector : Nat) (herror : errorCode < 2 ^ 64) :
    (if vector ∈ errorCodeVectors then errorCode else 0) < 2 ^ 64 := by
  split
  · exact herror
  · exact Nat.two_pow_pos 64

theorem run_append {code code' : List (Instr Reg)} {s : State Reg} :
    run (code ++ code') s = run code' (run code s) := List.foldl_append

/-- The registers are loaded from the structure. -/
theorem interruptReturn_eq {s : State Reg} (hfits : s.sp + 176 < 2 ^ 64) :
    (p.interruptReturn s).userRegs = iretq (infoAt s.mem s.sp) ∧
      (p.interruptReturn s).codeSegment = (infoAt s.mem s.sp).codeSegment ∧
      (p.interruptReturn s).stackSegment = (infoAt s.mem s.sp).stackSegment := by
  have hstart : Represents s.sp (s.sp + 176) s
      ⟨s.regs, (infoAt s.mem s.sp).words, 0, fun _ => none⟩ :=
    ⟨rfl, rfl, rfl, hfits, words_infoAt _ _, fun a v hv => by cases hv⟩
  obtain ⟨w, hw⟩ : ∃ w, isrStubExit.foldlM Instr.act
      (⟨s.regs, (infoAt s.mem s.sp).words, 0, fun _ => none⟩ : Words Reg) = some w := ⟨_, rfl⟩
  have hend := hstart.run hw
  cases hw
  obtain ⟨hrip, hcode, hflags, hrsp, hstack, -⟩ := hend.words
  simp only [Nat.add_assoc, Nat.reduceAdd] at hcode hflags hrsp hstack
  refine ⟨?_, hcode, hstack⟩
  simp only [interruptReturn, userRegs, hend.regs, hrip, hflags, hrsp]
  rfl

/-- For every vector but two, the handler gets the registers, the vector and the error code, wherever
the processor was interrupted; and whatever it leaves in the structure is what runs next. For the two
vectors the error code is where `rip` should be. -/
theorem interrupt_frame (p : Processor) (hp : p.Wide) (rsp0 vector errorCode : Nat)
    (hvector : vector < 256) (herror : errorCode < 2 ^ 64) (hroom : 184 ≤ p.interruptStack rsp0)
    (hfits : p.interruptStack rsp0 < 2 ^ 64) :
    let s := p.interrupt rsp0 vector errorCode
    (vector ≠ 21 → vector ≠ 29 →
      s.regs .rdi = p.interruptStack rsp0 - 176 ∧ s.sp = p.interruptStack rsp0 - 176 ∧
      infoAt s.mem s.sp =
        p.frame vector (if vector ∈ errorCodeVectors then errorCode else 0) ∧
      ∀ s' : State Reg, s'.sp = s.sp →
        (p.interruptReturn s').userRegs = iretq (infoAt s'.mem s.sp) ∧
        (p.interruptReturn s').codeSegment = (infoAt s'.mem s.sp).codeSegment ∧
        (p.interruptReturn s').stackSegment = (infoAt s'.mem s.sp).stackSegment) ∧
    (vector = 21 ∨ vector = 29 → (infoAt s.mem s.sp).rip = errorCode) := by
  refine ⟨fun h₁ h₂ => ?_, fun h => ?_⟩
  · have hcode := pushes_frame hp hvector (error_lt vector herror)
    rw [← pushes_eq hvector h₁ h₂] at hcode
    obtain ⟨hsp, hrdi, hinfo, -⟩ := passFrame_run (m := p.mem) hcode (by omega) hfits
      fun a v hv => by cases hv
    rw [run_append] at hsp hrdi hinfo
    refine ⟨hrdi.trans hsp, hsp, hinfo, fun s' hs' => ?_⟩
    have hend : s'.sp + 176 = p.interruptStack rsp0 :=
      (congrArg (· + 176) (hs'.trans hsp)).trans (Nat.sub_add_cancel (by omega))
    rw [← hs']
    exact interruptReturn_eq (hend ▸ hfits)
  · have hstart : Represents (p.interruptStack rsp0 - 184) (p.interruptStack rsp0)
        (⟨p.regs, p.interruptStack rsp0, p.mem⟩ : State Reg) ⟨p.regs, [], 23, fun _ => none⟩ :=
      ⟨rfl, (Nat.sub_add_cancel hroom).symm, Nat.add_zero _, hfits, trivial, fun a v hv => by cases hv⟩
    have hend := hstart.run (@pushes_twice p vector errorCode h)
    rw [run_append] at hend
    have hwords := hend.words.drop (n := 17) (show 17 ≤ 23 by decide)
    exact hwords.1.trans (Nat.mod_eq_of_lt herror)

/-- A page fault of user code. -/
theorem interrupt_frame_pageFault :
    let p : Processor := ⟨fun _ => 5, 0x401000, 0x70000, 0x202, 0x23, 0x1b, 0, 0, fun _ => 0⟩
    let s := p.interrupt 0x9000 14 6
    s.regs .rdi = p.interruptStack 0x9000 - 176 ∧ infoAt s.mem s.sp = p.frame 14 6 := by
  intro p s
  obtain ⟨hrdi, -, hinfo, -⟩ := (interrupt_frame p ⟨fun _ => (by decide : 5 < 2 ^ 64), by decide,
    by decide, by decide, by decide, by decide⟩ 0x9000 14 6 (by decide) (by decide) (by decide)
    (by decide)).1 (by decide) (by decide)
  exact ⟨hrdi, hinfo⟩

/-! ## System calls -/

end Processor

end TrazelOs
