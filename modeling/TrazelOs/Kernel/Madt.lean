import TrazelOs.Kernel.Fat12
import TrazelOs.Kernel.Heap

/-! # The table of interrupt controllers (`acpi.c`, `madt.c`)

The tables of the firmware are read from memory. An access of the loop over the entries behind the
end of its table is wild. The log is left out. -/

namespace TrazelOs

/-! ## Tables of the firmware -/

/-- `sizeof(struct acpi_std_header)`. -/
def sizeofAcpiStdHeader : Nat := 36

/-- `header->length`. -/
def acpiLength (table : ByteObject) : Nat := Theory.ByteMemory.load table 4 4

/-- The object at an address. -/
def objectAt (m : Memory) (addr : Nat) : ByteObject := fun i => m (u64 (addr + i))

/-- The sum is an `int32_t`, of which only the lowest byte counts. -/
def verifyAcpiStdHeaderChecksum (table : ByteObject) : Exec Unit :=
  let count := (List.range (acpiLength table)).foldl (fun count i => u32 (count + (table i).toNat)) 0
  kernelAssert (count % 2 ^ 8 = 0) "ACPI SDT header checksum is invalid"

/-- The static variables of `acpi.c` after `init_acpi`. -/
structure Acpi where
  gRsdt : Nat
  gIsXsdt : Bool

/-- `"APIC"`. -/
def madtSignature : List Byte := [0x41, 0x50, 0x49, 0x43]

section Tables
variable {σ : Type} (k : Kernel σ) (acpi : Acpi)

/-- The loop over the entries of the root table. -/
def acpiGetStdHeader.loop : (left i : Nat) → Exec Nat
  | 0, _ => .ok 0
  | left + 1, i => do
    let rsdt := objectAt k.mem acpi.gRsdt
    let acpiHeader := vmmPhysToVirtHhdm k <|
      if acpi.gIsXsdt then Theory.ByteMemory.load rsdt (sizeofAcpiStdHeader + 8 * i) 8
      else Theory.ByteMemory.load rsdt (sizeofAcpiStdHeader + 4 * i) 4
    let table := objectAt k.mem acpiHeader
    if strncmp madtSignature ((List.range 4).map table) 4 0 ≠ 0 then acpiGetStdHeader.loop left (i + 1)
    else
      verifyAcpiStdHeaderChecksum table
      return acpiHeader

/-- `acpi_get_std_header(ATT_ACPI_TABLE_MADT)`. -/
def acpiGetStdHeader : Exec Nat :=
  let bytes := u64Sub (acpiLength (objectAt k.mem acpi.gRsdt)) sizeofAcpiStdHeader
  acpiGetStdHeader.loop k acpi (if acpi.gIsXsdt then bytes / 8 else bytes / 4) 0

end Tables

/-! ## The entries -/

def lirqCount : Nat := 16

def apicEntryTypeIoApic : Byte := 1
def apicEntryTypeInterruptSourceOverride : Byte := 2

/-- The static variables of `madt.c`. -/
structure Madt where
  gIsInitialized : Bool
  gMadtHeader : Nat
  gIoApicAddr : Nat
  gLapicAddr : Nat
  gLegacyInterruptSourceOverride : Nat → Int

def Madt.initial : Madt := ⟨false, 0, 0, 0, fun _ => 0⟩

section Entries
variable (table : ByteObject) (length : Nat)

/-- A byte of the table. -/
def readByte (offset : Nat) : Exec Byte := if offset < length then .ok (table offset) else .error .wild

/-- An `uint32_t` of the table. -/
def readWord (offset : Nat) : Exec Nat :=
  if offset + 4 ≤ length then .ok (Theory.ByteMemory.load table offset 4) else .error .wild

/-- The body of the loop for the entry at `current`. -/
def madtEntry (current : Nat) (madt : Madt) : Exec Madt := do
  let entryType ← readByte table length current
  if entryType = apicEntryTypeIoApic then
    let ioApicAddr ← readWord table length (current + 4)
    return { madt with gIoApicAddr := ioApicAddr }
  else if entryType = apicEntryTypeInterruptSourceOverride then
    let busSource ← readByte table length (current + 2)
    if busSource = 0 then
      let irqSource ← readByte table length (current + 3)
      if irqSource.toNat < lirqCount then
        let globalSystemInterrupt ← readWord table length (current + 4)
        return { madt with
          gLegacyInterruptSourceOverride := Function.update madt.gLegacyInterruptSourceOverride
            irqSource.toNat globalSystemInterrupt }
      else return madt
    else return madt
  else return madt

/-- The loop over the entries. The length of an entry is read after its body. -/
def madtLoop : (turns current : Nat) → Madt → Exec Madt
  | 0, _, _ => .error .hang
  | turns + 1, current, madt =>
    if current < length then do
      let madt ← madtEntry table length current madt
      let recordLen ← readByte table length (current + 1)
      madtLoop turns (current + recordLen.toNat) madt
    else .ok madt

end Entries

/-- `offsetof(struct madt_table, entries)`. -/
def madtEntries : Nat := 44

/-- Entries that are not empty leave the loop after as many turns as the table has bytes. -/
def initMadt {σ : Type} (k : Kernel σ) (acpi : Acpi) (madt : Madt) : Exec Madt :=
  if madt.gIsInitialized then .ok madt
  else do
    let header ← acpiGetStdHeader k acpi
    kernelAssert (header ≠ 0) "There is no madt provided by the firmware."
    let table := objectAt k.mem header
    let length := acpiLength table
    madtLoop table length (length + 1) madtEntries { madt with
      gIsInitialized := true
      gMadtHeader := header
      gLapicAddr := Theory.ByteMemory.load table sizeofAcpiStdHeader 4
      gLegacyInterruptSourceOverride := fun irq =>
        if irq < lirqCount then -1 else madt.gLegacyInterruptSourceOverride irq }

def madtGetIoApicBaseAddr (madt : Madt) : Exec Nat := do
  kernelAssert (madt.gIsInitialized = true) "madt must be initialized before getting ioapic base addr"
  return madt.gIoApicAddr

def madtGetLapicBaseAddr (madt : Madt) : Exec Nat := do
  kernelAssert (madt.gIsInitialized = true) "madt must be initialized before getting lapic base addr"
  return madt.gLapicAddr

def madtGetGsiForIrq (madt : Madt) (irq : Nat) : Exec Nat := do
  kernelAssert (irq < lirqCount) "Invalid source for interrupt source override lookup"
  kernelAssert (madt.gIsInitialized = true)
    "madt must be initialized before accessing source overrides"
  if madt.gLegacyInterruptSourceOverride irq = -1 then return irq
  else return ofInt64 (madt.gLegacyInterruptSourceOverride irq)

end TrazelOs
