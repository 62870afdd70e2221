import TrazelOs.Theory.ByteMemory

/-! # Straight-line stack code

Code that pushes and pops 64-bit words, on registers, a stack pointer and a memory of bytes in which
the stack grows down. `Represents` says which list of words the stack is; an instruction acts on the
list as `Instr.act` says, and so does code (`Represents.run`). -/

namespace Theory.StackCode

variable {R : Type}

structure State (R : Type) where
  regs : R → Nat
  sp : Nat
  mem : ByteMemory

inductive Instr (R : Type)
  | push (r : R)
  | pushConst (v : Nat)
  | pushMem (addr : Nat)
  | pop (r : R)
  | discard (words : Nat)

def State.push (s : State R) (v : Nat) : State R :=
  let sp := (s.sp + (2 ^ 64 - 8)) % 2 ^ 64
  { s with sp, mem := s.mem.store sp 8 v }

def Instr.exec [DecidableEq R] (s : State R) : Instr R → State R
  | push r => s.push (s.regs r)
  | pushConst v => s.push v
  | pushMem addr => s.push (s.mem.load addr 8)
  | pop r =>
    { s with regs := Function.update s.regs r (s.mem.load s.sp 8), sp := (s.sp + 8) % 2 ^ 64 }
  | discard words => { s with sp := (s.sp + 8 * words) % 2 ^ 64 }

def run [DecidableEq R] (code : List (Instr R)) (s : State R) : State R := code.foldl Instr.exec s

/-! ## Words -/

/-- The stack as a list of words, with room for some more, and the words known to be elsewhere. -/
structure Words (R : Type) where
  regs : R → Nat
  stack : List Nat
  room : Nat
  known : Nat → Option Nat

def Words.push (w : Words R) (v : Nat) : Option (Words R) :=
  match w.room with
  | 0 => none
  | room + 1 => some { w with stack := v % 2 ^ 64 :: w.stack, room }

def Instr.act [DecidableEq R] (w : Words R) : Instr R → Option (Words R)
  | push r => w.push (w.regs r)
  | pushConst v => w.push v
  | pushMem addr => (w.known addr).bind w.push
  | pop r =>
    match w.stack with
    | [] => none
    | v :: stack =>
      some { w with regs := Function.update w.regs r v, stack, room := w.room + 1 }
  | discard words =>
    if words ≤ w.stack.length then
      some { w with stack := w.stack.drop words, room := w.room + words }
    else none

def WordsAt (m : ByteMemory) (a : Nat) : List Nat → Prop
  | [] => True
  | v :: vs => m.load a 8 = v ∧ WordsAt m (a + 8) vs

theorem WordsAt.congr {m m' : ByteMemory} {a : Nat} {vs : List Nat} (h : WordsAt m a vs)
    (hm : ∀ b, a ≤ b → b < a + 8 * vs.length → m' b = m b) : WordsAt m' a vs := by
  induction vs generalizing a with
  | nil => trivial
  | cons v vs ih =>
    rw [List.length_cons] at hm
    refine ⟨(ByteMemory.load_congr fun i hi => hm (a + i) (by omega) (by omega)).trans h.1,
      ih h.2 fun b hle hlt => hm b (by omega) (by omega)⟩

theorem WordsAt.drop {m : ByteMemory} {a n : Nat} {vs : List Nat} (h : WordsAt m a vs)
    (hn : n ≤ vs.length) : WordsAt m (a + 8 * n) (vs.drop n) := by
  induction n generalizing a vs with
  | zero => exact h
  | succ n ih =>
    cases vs with
    | nil => exact absurd hn (Nat.not_succ_le_zero n)
    | cons v vs =>
      have hdrop := ih h.2 (Nat.le_of_succ_le_succ hn)
      rwa [show a + 8 + 8 * n = a + 8 * (n + 1) by omega] at hdrop

/-- The stack lies between `low` and `top`. -/
structure Represents (low top : Nat) (s : State R) (w : Words R) : Prop where
  regs : s.regs = w.regs
  room : s.sp = low + 8 * w.room
  depth : s.sp + 8 * w.stack.length = top
  fits : top < 2 ^ 64
  words : WordsAt s.mem s.sp w.stack
  known : ∀ a v, w.known a = some v → s.mem.load a 8 = v ∧ (a + 8 ≤ low ∨ top ≤ a)

variable {low top : Nat} {s : State R} {w w' : Words R} {i : Instr R}

theorem Represents.push {v : Nat} (h : Represents low top s w) (hw : w.push v = some w') :
    Represents low top (s.push v) w' := by
  obtain ⟨regs, stack, room, known⟩ := w
  cases room with
  | zero => cases hw
  | succ room =>
    cases hw
    have hlow : s.sp = low + 8 * (room + 1) := h.room
    have htop : s.sp + 8 * stack.length = top := h.depth
    have hfits := h.fits
    have hsp : (s.sp + (2 ^ 64 - 8)) % 2 ^ 64 = low + 8 * room := by omega
    have hkept : ∀ b, b < low + 8 * room ∨ s.sp ≤ b →
        s.mem.store (low + 8 * room) 8 v b = s.mem b := fun b hb =>
      ByteMemory.store_of_disjoint (by omega)
    have hpush : s.push v =
        ⟨s.regs, low + 8 * room, s.mem.store (low + 8 * room) 8 v⟩ := by
      rw [State.push, hsp]
    rw [hpush]
    refine ⟨h.regs, rfl, ?_, hfits, ⟨ByteMemory.load_store_self, ?_⟩, fun a x hx =>
      ⟨?_, (h.known a x hx).2⟩⟩
    · show low + 8 * room + 8 * (stack.length + 1) = top
      omega
    · rw [show low + 8 * room + 8 = s.sp by omega]
      exact h.words.congr fun b hle _ => hkept b (Or.inr hle)
    · obtain ⟨hload, hout⟩ := h.known a x hx
      rw [← hload]
      exact ByteMemory.load_congr fun i hi => hkept (a + i) (by omega)

variable [DecidableEq R]

/-- An instruction does to the words what it does to the bytes. -/
theorem Represents.exec (h : Represents low top s w) (hw : i.act w = some w') :
    Represents low top (i.exec s) w' := by
  cases i with
  | push r =>
    rw [Instr.exec, h.regs]
    exact h.push hw
  | pushConst v => exact h.push hw
  | pushMem addr =>
    obtain ⟨v, hv, hpush⟩ := Option.bind_eq_some_iff.mp hw
    rw [Instr.exec, (h.known addr v hv).1]
    exact h.push hpush
  | pop r =>
    obtain ⟨regs, stack, room, known⟩ := w
    cases stack with
    | nil => cases hw
    | cons v stack =>
      cases hw
      have hlow : s.sp = low + 8 * room := h.room
      have htop : s.sp + 8 * (stack.length + 1) = top := h.depth
      have hfits := h.fits
      have hsp : (s.sp + 8) % 2 ^ 64 = s.sp + 8 := Nat.mod_eq_of_lt (by omega)
      refine ⟨?_, ?_, ?_, hfits, ?_, h.known⟩
      · dsimp only [Instr.exec]
        rw [h.words.1, h.regs]
      · dsimp only [Instr.exec]
        omega
      · dsimp only [Instr.exec]
        omega
      · dsimp only [Instr.exec]
        rw [hsp]
        exact h.words.2
  | discard words =>
    rw [Instr.act] at hw
    split at hw
    · rename_i hle
      cases hw
      have hlow := h.room
      have htop := h.depth
      have hfits := h.fits
      have hsp : (s.sp + 8 * words) % 2 ^ 64 = s.sp + 8 * words := Nat.mod_eq_of_lt (by omega)
      refine ⟨h.regs, ?_, ?_, hfits, ?_, h.known⟩
      · dsimp only [Instr.exec]
        omega
      · dsimp only [Instr.exec]
        rw [hsp, List.length_drop]
        omega
      · dsimp only [Instr.exec]
        rw [hsp]
        exact h.words.drop hle
    · cases hw

theorem Represents.run {code : List (Instr R)} (h : Represents low top s w)
    (hw : code.foldlM Instr.act w = some w') : Represents low top (run code s) w' := by
  induction code generalizing s w with
  | nil =>
    cases hw
    exact h
  | cons i code ih =>
    rw [List.foldlM_cons] at hw
    obtain ⟨w₁, hact, hw⟩ := Option.bind_eq_some_iff.mp hw
    exact ih (h.exec hact) hw

end Theory.StackCode
