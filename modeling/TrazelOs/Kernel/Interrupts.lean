import TrazelOs.Kernel.Madt
import TrazelOs.Kernel.Task

/-! # Interrupts (`idt.c`, `idt_defs.c`, `cpu_exceptions.c`, `hardware_intrrupts.c`, `apic.c`)

Handlers are values of a type `η`. The I/O APIC and the local APIC are the registers they show. -/

namespace TrazelOs

def cpuExceptionInterruptCount : Nat := 32
def hardwareInterruptCount : Nat := 256 - cpuExceptionInterruptCount
def maxIdtEntriesCount : Nat := 256

/-! ## The descriptor table -/

inductive InterruptType
  | interruptGate
  | trapGate
  | taskGate
deriving Repr, DecidableEq

def InterruptType.value : InterruptType → Nat
  | interruptGate => 0xE
  | trapGate => 0xF
  | taskGate => 0x5

inductive GdtSegment
  | ring0Code
  | ring3Code
  | ring0Data
  | ring3Data
deriving Repr, DecidableEq

def gdtGetSegmentIndex : GdtSegment → Nat
  | .ring0Code => 1
  | .ring0Data => 2
  | .ring3Code => 4
  | .ring3Data => 3

/-- The `raw` field of a selector. -/
def segmentSelector (privilegeLevel tableIndicator index : Nat) : Nat :=
  privilegeLevel ||| tableIndicator <<< 2 ||| index <<< 3

/-- `struct idt_entry`, with the attributes of `struct idt_types_attributes`. -/
structure IdtEntry where
  offsetLow : Nat
  selector : Nat
  interruptStackTable : Nat
  interruptType : Nat
  zeroBit : Nat
  cpuPrivilegeLevel : Nat
  presentBit : Nat
  offsetMid : Nat
  offsetHigh : Nat
  extraBits : Nat
deriving Repr, DecidableEq, Inhabited

def setOffset (descriptor : IdtEntry) (offset : Nat) : IdtEntry :=
  { descriptor with
    offsetLow := offset &&& 0x000000000000FFFF
    offsetMid := (offset &&& 0x00000000FFFF0000) >>> 16
    offsetHigh := (offset &&& 0xFFFFFFFF00000000) >>> 32 }

def setSelector (descriptor : IdtEntry) : IdtEntry :=
  { descriptor with selector := segmentSelector 0 0 (gdtGetSegmentIndex .ring0Code) }

def createInterruptDesc (entry : IdtEntry) (isrAddr : Nat) (type : InterruptType)
    (interruptStackTable ringAccessToInterrupt : Nat) : Exec IdtEntry := do
  kernelAssert (interruptStackTable < 7) "interrupt stack table index is out of bounds"
  let entry := setSelector (setOffset entry isrAddr)
  return { entry with
    interruptStackTable
    extraBits := 0
    cpuPrivilegeLevel := ringAccessToInterrupt
    presentBit := 1
    interruptType := type.value
    zeroBit := 0 }

def loadNewInterrupt (table : Nat → IdtEntry) (index : Nat) (desc : IdtEntry) :
    Exec (Nat → IdtEntry) := do
  kernelAssert (index < maxIdtEntriesCount) "Interrupt index out of bounds"
  return Function.update table index desc

/-- A turn of the loops below; the entry is their local variable. -/
def loadStub (stubTable : Nat → Nat) (firstIndex : Nat) (s : IdtEntry × (Nat → IdtEntry)) (i : Nat) :
    Exec (IdtEntry × (Nat → IdtEntry)) := do
  let entry ← createInterruptDesc s.1 (stubTable i) .interruptGate 0 0
  let table ← loadNewInterrupt s.2 ((i + firstIndex) % 2 ^ 8) entry
  return (entry, table)

/-- The loop of `init_cpu_exceptions` and of `init_hardware_interrupts`. -/
def loadStubs (stubTable : Nat → Nat) (count firstIndex : Nat) (entry : IdtEntry)
    (table : Nat → IdtEntry) : Exec (Nat → IdtEntry) := do
  let s ← (List.range count).foldlM (loadStub stubTable firstIndex) (entry, table)
  return s.2

def initCpuExceptions (isrStubTable : Nat → Nat) (entry : IdtEntry) (table : Nat → IdtEntry) :
    Exec (Nat → IdtEntry) :=
  loadStubs isrStubTable cpuExceptionInterruptCount 0 entry table

def initHardwareInterrupts (isrHardwareInterruptStubTable : Nat → Nat) (entry : IdtEntry)
    (table : Nat → IdtEntry) : Exec (Nat → IdtEntry) :=
  loadStubs isrHardwareInterruptStubTable hardwareInterruptCount cpuExceptionInterruptCount entry
    table

/-! ## Handlers -/

/-- `s_cpu_exception_handlers` and `g_hardware_interrupt_handlers`. -/
structure Handlers (η : Type) where
  sCpuExceptionHandlers : Nat → Option η
  gHardwareInterruptHandlers : Nat → Option η

section Handlers
variable {η : Type} (h : Handlers η)

def setCpuExceptionHandler (index : Nat) (handler : η) : Exec (Handlers η) := do
  kernelAssert (index < cpuExceptionInterruptCount) "Invalid CPU exception index"
  return { h with
    sCpuExceptionHandlers := Function.update h.sCpuExceptionHandlers index (some handler) }

def setHardwareInterruptHandler (index : Nat) (handler : η) : Exec (Handlers η) := do
  kernelAssert (index ≥ cpuExceptionInterruptCount) "Invalid hardware interrupt index"
  return { h with
    gHardwareInterruptHandlers := Function.update h.gHardwareInterruptHandlers
      (index - cpuExceptionInterruptCount) (some handler) }

def getFreeInterruptDesc : Exec Nat :=
  match (List.range hardwareInterruptCount).find? fun i => (h.gHardwareInterruptHandlers i).isNone with
  | some i => .ok (i + cpuExceptionInterruptCount)
  | none => .error (.panic ("No free hardware interrupt descriptor available, Please make sure " ++
      "there is a free one before calling this function"))

/-- The handler that the central handler of the exceptions calls. -/
def exceptionHandlerOf (info : InterruptInfo) : Exec η :=
  match h.sCpuExceptionHandlers info.interruptIndex with
  | some handler => .ok handler
  | none => .error (.panic "Unexpected CPU exception occurred")

/-- The handler that `hardware_interrupts_isr_central_handler` calls. -/
def hardwareHandlerOf (info : InterruptInfo) : Exec η :=
  match h.gHardwareInterruptHandlers (u64Sub info.interruptIndex cpuExceptionInterruptCount) with
  | some handler => .ok handler
  | none => .error (.panic "Unexpected interrupt occurred")

end Handlers

/-! ## The I/O APIC -/

/-- The register select and what the window shows for each of its values. -/
structure IoApic where
  select : Nat
  registers : Nat → BitVec 32

/-- `*g_io_apic_base = value`. -/
def IoApic.setSelect (a : IoApic) (value : Nat) : IoApic := { a with select := u32 value }

/-- `*(g_io_apic_base + 4)`. -/
def IoApic.window (a : IoApic) : BitVec 32 := a.registers a.select

def IoApic.setWindow (a : IoApic) (value : BitVec 32) : IoApic :=
  { a with registers := Function.update a.registers a.select value }

/-- `GET_APIC_REDIRECTION_ENTRY_INDEX`. -/
def getApicRedirectionEntryIndex (index : Nat) : Nat := u64 (0x10 + index * 2)

def readIoapicRedirectionEntry (a : IoApic) (index : Nat) : BitVec 64 × IoApic :=
  let a := a.setSelect (getApicRedirectionEntryIndex index)
  let lowerDword := a.window
  let a := a.setSelect (getApicRedirectionEntryIndex index + 1)
  let upperDword := a.window
  (upperDword ++ lowerDword, a)

def writeIoapicRedirectionEntry (a : IoApic) (entry : BitVec 64) (index : Nat) : IoApic :=
  let a := a.setSelect (getApicRedirectionEntryIndex index)
  let a := a.setWindow (entry.setWidth 32)
  let a := a.setSelect (getApicRedirectionEntryIndex index + 1)
  a.setWindow ((entry >>> 32).setWidth 32)

/-- A store to the bit field of `width` bits at `start`. -/
def setField (entry : BitVec 64) (start width value : Nat) : BitVec 64 :=
  entry &&& ~~~((BitVec.ofNat 64 (2 ^ width - 1)) <<< start) |||
    (BitVec.ofNat 64 (value % 2 ^ width)) <<< start

def apicSetLegacyIrqDescNum (madt : Madt) (a : IoApic) (irq descNum : Nat) : Exec IoApic := do
  let pinIndex ← madtGetGsiForIrq madt irq
  let (entry, a) := readIoapicRedirectionEntry a pinIndex
  let entry := setField entry 16 1 0
  let entry := setField entry 56 8 0
  let entry := setField entry 0 8 descNum
  return writeIoapicRedirectionEntry a entry pinIndex

/-! ## The local APIC -/

def lapicRegLvtTmr : Nat := 0x320
def lapicRegTmrinitcnt : Nat := 0x380
def lapicRegTmrdiv : Nat := 0x3E0
def apicLvtIntMasked : Nat := 0x10000
def lapicTmrPeriodic : Nat := 0x20000

/-- The controllers, the tables and the variables that the drivers set up interrupts with. -/
structure Controllers (η : Type) where
  handlers : Handlers η
  ioApic : IoApic
  lapic : Nat → Nat

section Registration
variable {η : Type} (madt : Madt) (c : Controllers η)

/-- `init_lapic` with what the timer counter shows after the sleep. -/
def initLapic (tmrcurrcnt : Nat) (handler : η) : Exec (Controllers η) := do
  let lapic := Function.update c.lapic lapicRegTmrdiv 0x3
  let lapic := Function.update lapic lapicRegTmrinitcnt 0xFFFFFFFF
  let lapic := Function.update lapic lapicRegLvtTmr apicLvtIntMasked
  let ticksPerActivation := 0xFFFFFFFF - tmrcurrcnt
  let idtIndex ← getFreeInterruptDesc c.handlers
  let handlers ← setHardwareInterruptHandler c.handlers idtIndex handler
  let lapic := Function.update lapic lapicRegLvtTmr (idtIndex ||| lapicTmrPeriodic)
  let lapic := Function.update lapic lapicRegTmrdiv 0x3
  let lapic := Function.update lapic lapicRegTmrinitcnt ticksPerActivation
  return { c with handlers, lapic }

/-- What `ps2_keyboard_init` does for its interrupt. -/
def registerLegacyIrq (irq : Nat) (handler : η) : Exec (Controllers η) := do
  let desc ← getFreeInterruptDesc c.handlers
  let ioApic ← apicSetLegacyIrqDescNum madt c.ioApic irq desc
  let handlers ← setHardwareInterruptHandler c.handlers desc handler
  return { c with handlers, ioApic }

end Registration

end TrazelOs
