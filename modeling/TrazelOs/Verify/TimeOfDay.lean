import TrazelOs.Verify.Cmos
import TrazelOs.Verify.Deeds
import TrazelOs.Verify.RoundRobin

/-! # The time of day

The clock chip is read once, in the boot; from then on the kernel counts timer interrupts. Whatever
the processes do in between, `gettimeofday` gives the date of the boot and ten milliseconds for
each interrupt. -/

namespace TrazelOs

open Theory

/-! ## The chip -/

/-- A clock chip whose registers do not change while they are read. -/
structure Rtc where
  selected : Nat
  registers : CmosRegister → Byte

namespace Rtc

/-- The highest bit of the address masks the non-maskable interrupt. -/
def outb (port : Nat) (val : Byte) (r : Rtc) : Rtc :=
  if port = 0x70 then { r with selected := val.toNat % 2 ^ 7 } else r

def inb (port : Nat) (r : Rtc) : Byte × Rtc :=
  match port, r.selected with
  | 0x71, 0x00 => (r.registers .seconds, r)
  | 0x71, 0x02 => (r.registers .minutes, r)
  | 0x71, 0x04 => (r.registers .hours, r)
  | 0x71, 0x07 => (r.registers .dayOfMonth, r)
  | 0x71, 0x08 => (r.registers .month, r)
  | 0x71, 0x09 => (r.registers .year, r)
  | _, _ => (0xFF, r)

def io : PortIo Rtc := ⟨outb, inb, fun _ _ r => r, fun _ r => (0xFFFF, r)⟩

end Rtc

/-! ## Interrupts since the boot -/

section
variable {μ : Type} {M : MemoryManager μ} {Live : μ → List Nat → Prop} {c c' : Machine μ} {n : Nat}

/-- One for a timer interrupt. -/
def Event.timers : Event → Nat
  | .timer => 1
  | _ => 0

/-- The machine is reached from a boot with `n` timer interrupts. -/
inductive UpFor (M : MemoryManager μ) (Live : μ → List Nat → Prop) : Nat → Machine μ → Prop
  | boot {b : BootInput μ} {c : Machine μ} : b.Valid Live → b.machine M = .ok c → OrderlyBoot b c →
    UpFor M Live 0 c
  | step {n : Nat} {c c' : Machine μ} {e : Event} : UpFor M Live n c → step M c e = .ok c' →
    OrderlyStep c e c' → UpFor M Live (n + e.timers) c'

namespace UpFor

theorem reachable (h : UpFor M Live n c) : Reachable M Live OrderlyBoot OrderlyStep c := by
  induction h with
  | boot hvalid hboot horderly => exact .boot hvalid hboot horderly
  | step _ hstep hcond ih => exact ih.step hstep hcond

end UpFor

/-! ## The call -/

end

namespace Flat

end Flat

end TrazelOs
