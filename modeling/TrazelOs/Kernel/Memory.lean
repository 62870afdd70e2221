import TrazelOs.Kernel.Task
import TrazelOs.Kernel.Vmm

/-! # The memory of the machine

The memory managers under the rest of the kernel: the heap, the physical and the virtual memory
manager on one byte-addressed memory. Addresses of bytes wrap around. A pointer of a user process is
used as it is: in the lower half it goes through the current page tables. -/

namespace TrazelOs

/-- The `count` bytes from `addr`. -/
def loadBytes (m : Memory) (addr count : Nat) : List Byte :=
  (List.range count).map fun i => m (u64 (addr + i))

/-- `memcpy` of the bytes to `addr`. -/
def storeBytes (m : Memory) (addr : Nat) (bytes : List Byte) : Memory := fun a =>
  if a < 2 ^ 64 ∧ u64Sub a (u64 addr) < bytes.length then bytes.getD (u64Sub a (u64 addr)) 0 else m a

/-- The first address that is not in the lower half. -/
def lowerHalfEnd : Nat := 2 ^ 47

/-- Where a byte at `vaddr` is stored, if the current page tables allow it. -/
def storeAddr (k : Kernel Pmm) (user : Bool) (vaddr : Nat) : Option Nat :=
  if vaddr < lowerHalfEnd then
    match translate k (vmmGetCurrPagemap k) vaddr with
    | none => none
    | some page =>
      if page.writable && (page.userAccess || !user) then
        some (u64 (vmmPhysToVirtHhdm k (page.frame * regularPageSize) + vaddr % regularPageSize))
      else none
  else if user then none
  else some vaddr

/-- A store of one byte. One that the page tables do not allow raises a page fault. -/
def storeByte (user : Bool) (k : Kernel Pmm) (vaddr : Nat) (byte : Byte) : Exec (Kernel Pmm) :=
  match storeAddr k user vaddr with
  | none => .error .wild
  | some addr => .ok { k with mem := k.mem.set addr byte }

/-- `memcpy` to a pointer of a user process. -/
def copyToUser (k : Kernel Pmm) (vaddr : Nat) : List Byte → Exec (Kernel Pmm)
  | [] => .ok k
  | byte :: bytes => do
    let k ← storeByte false k vaddr byte
    copyToUser k (u64 (vaddr + 1)) bytes

/-- The null pointer is no block: the header before it is not mapped. -/
def kernelMemory : MemoryManager (Kernel Pmm) where
  kmalloc := kmalloc pmmBitmap
  kfree k addr := if addr = 0 then .error .wild else kfree pmmBitmap k addr
  load k addr count := loadBytes k.mem addr count
  store k buffer bytes :=
    match buffer with
    | .kernel addr => .ok { k with mem := storeBytes k.mem addr bytes }
    | .user vaddr => copyToUser k vaddr bytes
  userStore k vaddr byte := storeByte true k vaddr byte
  pmmAllocPage k := do
    let (page, pmm) ← pmmAllocPage k.pmm
    return (page, { k with pmm })
  pmmAllocPages k count := do
    let (pages, pmm) ← pmmAllocPages k.pmm count
    return (pages, { k with pmm })
  vmmPhysToVirtHhdm := vmmPhysToVirtHhdm
  vmmCreateNewPagemap := vmmCreateNewPagemap
  vmmMapPage := vmmMapPage
  vmmClonePagemap := vmmClonePagemap
  vmmDeletePagemap := vmmDeletePagemap
  vmmReloadCr3 := vmmReloadCr3

end TrazelOs
