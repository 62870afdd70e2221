import TrazelOs.Verify.Intact
import TrazelOs.Verify.Faults
import TrazelOs.Verify.Log

/-! # A flat memory

The simplest memory managers that keep the contract of `MemoryManager.Lawful`: one array of bytes in
slots of the same size, of which each block and each page takes the next one. The runs on fixed
inputs use it, with a program of one segment. -/

namespace TrazelOs

/-- The number of slots that are taken, the contents, and the stores through pointers of user
processes. -/
structure Flat where
  next : Nat
  bytes : Nat → Byte
  log : List (Nat × List Byte)

namespace Flat

def slotSize : Nat := 0x10000

def take (m : Flat) : Exec (Nat × Flat) := .ok (m.next * slotSize, { m with next := m.next + 1 })

def store (m : Flat) (addr : Nat) (bytes : List Byte) : Flat :=
  { m with bytes := fun a =>
      if addr ≤ a ∧ a < addr + bytes.length then bytes.getD (a - addr) 0 else m.bytes a }

def manager : MemoryManager Flat where
  kmalloc m _ := m.take
  kfree m p := if p = 0 then .error .wild else .ok m
  load m addr count := (List.range count).map fun i => m.bytes (addr + i)
  store m buffer bytes := .ok { m.store buffer.addr bytes with log := m.log ++ buffer.entry bytes }
  userStore m vaddr byte := .ok (m.store vaddr [byte])
  pmmAllocPage m := m.take
  pmmAllocPages m _ := m.take
  vmmPhysToVirtHhdm _ paddr := paddr
  vmmCreateNewPagemap m := m.take
  vmmMapPage m _ _ _ _ := .ok (0, m)
  vmmClonePagemap m _ := m.take
  vmmDeletePagemap m _ := .ok m
  vmmReloadCr3 m _ := m

/-- Blocks are slots that are taken. -/
def Live (m : Flat) (L : List Nat) : Prop := ∀ p ∈ L, ∃ k < m.next, p = k * slotSize

theorem Live.take {m m' : Flat} {L : List Nat} {p : Nat} (h : Live m L)
    (htake : m.take = .ok (p, m')) : p ∉ L ∧ Live m' (p :: L) := by
  cases htake
  refine ⟨fun hp => ?_, fun q hq => ?_⟩
  · obtain ⟨k, hk, heq⟩ := h _ hp
    have hpos : 0 < slotSize := by decide
    exact absurd (Nat.eq_of_mul_eq_mul_right hpos heq) (Nat.ne_of_gt hk)
  · rcases List.mem_cons.mp hq with rfl | hq
    · exact ⟨m.next, Nat.lt_succ_self _, rfl⟩
    · obtain ⟨k, hk, heq⟩ := h q hq
      exact ⟨k, Nat.lt_succ_of_lt hk, heq⟩

theorem Live.taken {m m' : Flat} {L : List Nat} {p : Nat} (h : Live m L)
    (htake : m.take = .ok (p, m')) : Live m' L :=
  fun q hq => (h.take htake).2 q (.tail _ hq)

/-- The current process makes the system call with the given number. -/
def call (rax : Nat) : List Event :=
  [.run { (default : UserRegs) with rax } [], .syscall ⟨⟨.missing, []⟩, 0⟩]

/-- The new wait queues of the slots are empty. -/
def createdEmpty (c c' : Machine Flat) : Bool :=
  (List.range c'.sys.mem.next).all fun k => (c.sys.waitQueues (k * slotSize)).isSome ||
    (c'.sys.waitQueues (k * slotSize)).all (· = ⟨0, 0⟩)

/-- The path of a system call does not lead to the keyboard. -/
def onDisk : Event → Bool
  | .syscall env => !env.path.fromKeyboard
  | _ => true

/-- The steps are orderly. -/
def orderly (c : Machine Flat) (e : Event) (c' : Machine Flat) : Bool := createdEmpty c c' && onDisk e

/-- The machine after the events, if every step is orderly. -/
def run : List Event → Machine Flat → Exec (Machine Flat)
  | [], c => .ok c
  | e :: es, c => do
    let c' ← step manager c e
    if orderly c e c' then run es c' else .error .hang

end Flat

end TrazelOs
