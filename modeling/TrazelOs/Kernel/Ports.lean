import TrazelOs.Kernel.Basic

/-! # Ports (`drivers/io.c`)

The instructions on ports are a parameter of the drivers. -/

namespace TrazelOs

/-- `outb`, `inb`, `outw` and `inw` on the state `σ` of the hardware. -/
structure PortIo (σ : Type) where
  outb : (port : Nat) → (val : Byte) → σ → σ
  inb : (port : Nat) → σ → Byte × σ
  outw : (port : Nat) → (val : BitVec 16) → σ → σ
  inw : (port : Nat) → σ → BitVec 16 × σ

end TrazelOs
