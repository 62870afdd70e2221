import TrazelOs.Kernel.Heap

/-! # The virtual memory manager (`kernel/mm/vmm/vmm.c`, `include/paging_x86_64.h`)

Page tables are pages of 512 entries of 64 bits each, reached through the direct map. An entry is
its raw word; the bit fields of `union page_table_entry` are functions of the word. The
translation lookaside buffer is not modelled: a change to a table takes effect at once. -/

namespace TrazelOs

/-! ## Entries -/

section Entry
variable (raw : Nat)

def entryPresent : Bool := raw % 2 = 1
def entryWritable : Bool := raw / 2 % 2 = 1
def entryUserAccess : Bool := raw / 4 % 2 = 1
def entryHugePage : Bool := raw / 128 % 2 = 1
def entryIndex : Nat := raw / 2 ^ 12 % 2 ^ 40

/-- `attributes.user_access = 1`. -/
def setEntryUserAccess : Nat := if raw / 4 % 2 = 1 then raw else raw + 4

/-- `attributes.index = index`. -/
def setEntryIndex (index : Nat) : Nat :=
  raw % 2 ^ 12 + index % 2 ^ 40 * 2 ^ 12 + raw / 2 ^ 52 * 2 ^ 52

end Entry

/-- The entry with `present`, `write_through` and the given attributes, all others zero. -/
def makeEntry (writable userAccess : Bool) (index : Nat) : Nat :=
  1 + writable.toNat * 2 + userAccess.toNat * 4 + 8 + index % 2 ^ 40 * 2 ^ 12

/-- The index into the tables of level `level`, where level 1 has the entries of single pages. -/
def virtualAddrIndex (vaddr level : Nat) : Nat := vaddr / 2 ^ (3 + 9 * level) % 512

/-- `table->entries[i].raw`. -/
def tableEntry (m : Memory) (table i : Nat) : Nat := m.load (table + 8 * i) 8

def setTableEntry (m : Memory) (table i raw : Nat) : Memory := m.store (table + 8 * i) 8 raw

/-- The table that the entry with the word `raw` refers to. -/
def entryTable (k : Kernel Pmm) (raw : Nat) : Nat := u64 (entryIndex raw * 2 ^ 12 + k.gHhdmOffset)

def getNextPageTable (k : Kernel Pmm) (currPageTable currPageTableIndex : Nat) : Nat :=
  entryTable k (tableEntry k.mem currPageTable currPageTableIndex)

/-! ## Mapping and unmapping -/

/-- The bits of `enum vmm_map_page_flags`. -/
def mpfOverrideCurrentPaging : Nat := 1
def mpfWritablePage : Nat := 2
def mpfUserAccessible : Nat := 4

def flagOverridePage (flags : Nat) : Bool := flags % 2 = 1
def flagWritablePage (flags : Nat) : Bool := flags / 2 % 2 = 1
def flagUserAccessible (flags : Nat) : Bool := flags / 4 % 2 = 1

/-- Returns the entry that refers to a new table without entries. -/
def allocatePageTablePage (k : Kernel Pmm) : Exec (Nat × Kernel Pmm) := do
  let (physAddr, pmm) ← pmmAllocPage k.pmm
  kernelAssert (physAddr ≠ 0) "Kernel ran out of memory"
  let newPageTable := u64 (physAddr + k.gHhdmOffset)
  return (makeEntry true true (physAddr / 2 ^ 12),
    { k with mem := k.mem.fill newPageTable 0 regularPageSize, pmm })

/-- One turn of the loop of `vmm_map_page`: the table below `currPageTable` on the way to `vaddr`,
which is made if it does not exist. -/
def mapPageTable (vaddr flags : Nat) (s : Nat × Kernel Pmm) (level : Nat) :
    Exec (Nat × Kernel Pmm) := do
  let (currPageTable, k) := s
  let i := virtualAddrIndex vaddr level
  let k ←
    if tableEntry k.mem currPageTable i = 0 then do
      let (entry, k) ← allocatePageTablePage k
      pure { k with mem := setTableEntry k.mem currPageTable i entry }
    else pure k
  let k :=
    if flagUserAccessible flags then
      let entry := setEntryUserAccess (tableEntry k.mem currPageTable i)
      { k with mem := setTableEntry k.mem currPageTable i entry }
    else k
  return (getNextPageTable k currPageTable i, k)

def vmmMapPage (k : Kernel Pmm) (pagemap vaddr paddr flags : Nat) : Exec (Int × Kernel Pmm) := do
  let (currPageTable, k) ← [4, 3, 2].foldlM (mapPageTable vaddr flags) (pagemap, k)
  let i := virtualAddrIndex vaddr 1
  if ¬flagOverridePage flags ∧ tableEntry k.mem currPageTable i ≠ 0 then
    return (-1, k)
  else
    let entry := makeEntry (flagWritablePage flags) (flagUserAccessible flags) (paddr / 2 ^ 12)
    return (0, { k with mem := setTableEntry k.mem currPageTable i entry })

/-- The loop of `vmm_unmap_page` over the levels: the last table on the way to `vaddr`. -/
def findPageTable (k : Kernel Pmm) (vaddr : Nat) : (levels : List Nat) → (currPageTable : Nat) →
    Option Nat
  | [], currPageTable => some currPageTable
  | level :: levels, currPageTable =>
    let i := virtualAddrIndex vaddr level
    if tableEntry k.mem currPageTable i = 0 then none
    else findPageTable k vaddr levels (getNextPageTable k currPageTable i)

def vmmUnmapPage (k : Kernel Pmm) (pagemap vaddr : Nat) : Int × Kernel Pmm :=
  match findPageTable k vaddr [4, 3, 2] pagemap with
  | none => (-1, k)
  | some table =>
    let i := virtualAddrIndex vaddr 1
    if tableEntry k.mem table i = 0 then (-1, k)
    else (0, { k with mem := setTableEntry k.mem table i 0 })

/-! ## Whole address spaces -/

def vmmGetCurrPagemap (k : Kernel Pmm) : Nat := u64 (k.cr3 / 2 ^ 12 * 2 ^ 12 + k.gHhdmOffset)

def vmmReloadCr3 (k : Kernel Pmm) (newPagemapHhdm : Nat) : Kernel Pmm :=
  { k with cr3 := u64Sub newPagemapHhdm k.gHhdmOffset }

def vmmCreateNewPagemap (k : Kernel Pmm) : Exec (Nat × Kernel Pmm) := do
  let currPagemap := vmmGetCurrPagemap k
  let (newPageMap, pmm) ← pmmAllocPageHhdm k.pmm
  kernelAssert (newPageMap ≠ 0) "Kernel ran out of memory"
  let half := regularPageSize / 2
  let mem := k.mem.copy (u64 (newPageMap + half)) (u64 (currPagemap + half)) half
  let mem := mem.fill newPageMap 0 half
  return (newPageMap, { k with mem, pmm })

/-- How many entries of a table of the level belong to the address space: of the topmost table
only the lower half. -/
def levelEntries (level : Nat) : Nat := if level = 4 then regularPageSize / 8 / 2 else regularPageSize / 8

def recursivePagemapClone : (level : Nat) → Kernel Pmm → (currPageTable newPageTable : Nat) →
    Exec (Kernel Pmm)
  | 0, k, _, _ => .ok k
  | level + 1, k, currPageTable, newPageTable =>
    (List.range (levelEntries (level + 1))).foldlM (fun k i => do
      let entry := tableEntry k.mem currPageTable i
      if entry = 0 then return k
      kernelAssert (entryPresent entry) "Page table entry should be present if it is non-zero"
      kernelAssert (¬entryHugePage entry) "Huge pages are not supported"
      let (newPagePhys, pmm) ← pmmAllocPage k.pmm
      let newPageHhdm := vmmPhysToVirtHhdm k newPagePhys
      let mem := k.mem.fill newPageHhdm 0 regularPageSize
      let mem := setTableEntry mem newPageTable i (tableEntry mem currPageTable i)
      let mem := setTableEntry mem newPageTable i
        (setEntryIndex (tableEntry mem newPageTable i) (newPagePhys / 2 ^ 12))
      let k := { k with mem, pmm }
      if level + 1 ≠ 1 then
        recursivePagemapClone level k (getNextPageTable k currPageTable i)
          (getNextPageTable k newPageTable i)
      else
        let originalPagePhys := u64 (entryIndex (tableEntry k.mem currPageTable i) * 2 ^ 12)
        let originalPageHhdm := vmmPhysToVirtHhdm k originalPagePhys
        return { k with mem := k.mem.copy newPageHhdm originalPageHhdm regularPageSize }) k

def vmmClonePagemap (k : Kernel Pmm) (pagemapHhdm : Nat) : Exec (Nat × Kernel Pmm) := do
  let (newPageMap, k) ← vmmCreateNewPagemap k
  let k ← recursivePagemapClone 4 k pagemapHhdm newPageMap
  return (newPageMap, k)

/-- `pmm_free_page` of a page named by its address in the direct map. -/
def freePageHhdm (k : Kernel Pmm) (pageHhdm : Nat) : Exec (Kernel Pmm) := do
  let pmm ← pmmFreePage k.pmm (u64Sub pageHhdm k.gHhdmOffset)
  return { k with pmm }

def recursivePagemapDelete : (level : Nat) → Kernel Pmm → (currPageTable : Nat) → Exec (Kernel Pmm)
  | 0, k, _ => .ok k
  | level + 1, k, currPageTable =>
    (List.range (levelEntries (level + 1))).foldlM (fun k i => do
      let entry := tableEntry k.mem currPageTable i
      let clear : Kernel Pmm → Kernel Pmm := fun k =>
        { k with mem := setTableEntry k.mem currPageTable i 0 }
      if entry = 0 then return k
      if ¬entryPresent entry then return clear k
      let nextPageTable := getNextPageTable k currPageTable i
      if ¬entryHugePage entry ∨ level + 1 = 1 then
        let k ← recursivePagemapDelete level k nextPageTable
        let k ← freePageHhdm k nextPageTable
        return clear k
      else
        let pageSize := if level + 1 = 3 then superHugePageSize else hugePageSize
        let k ← (List.range (pageSize / regularPageSize)).foldlM (fun k j =>
          freePageHhdm k (u64 (nextPageTable + j * regularPageSize))) k
        return clear k) k

def vmmDeletePagemap (k : Kernel Pmm) (pagemapHhdm : Nat) : Exec (Kernel Pmm) := do
  let k ← recursivePagemapDelete 4 k pagemapHhdm
  freePageHhdm k pagemapHhdm

def vmmCountSpannedPages (startPtr endPtr : Nat) : Nat :=
  let startPage := startPtr / regularPageSize * regularPageSize
  let endPage := endPtr / regularPageSize * regularPageSize
  u64 (u64Sub endPage startPage / regularPageSize + 1)

/-! ## The walk of the processor -/

/-- What the processor finds for a virtual page: the physical page and the accesses that every
entry on the way grants. -/
structure Mapping where
  frame : Nat
  writable : Bool
  userAccess : Bool
deriving Repr, DecidableEq

/-- The walk from a table of the given level, with large pages at the levels 2 and 3. -/
def pageWalk (k : Kernel Pmm) (vaddr : Nat) : (level : Nat) → (table : Nat) → Option Mapping
  | 0, _ => none
  | level + 1, table =>
    let entry := tableEntry k.mem table (virtualAddrIndex vaddr (level + 1))
    if ¬entryPresent entry then none
    else if level = 0 then
      some ⟨entryIndex entry, entryWritable entry, entryUserAccess entry⟩
    else if entryHugePage entry then
      if level = 3 then none
      else
        let pages := 512 ^ level
        some ⟨entryIndex entry / pages * pages + vaddr / regularPageSize % pages,
          entryWritable entry, entryUserAccess entry⟩
    else
      (pageWalk k vaddr level (entryTable k entry)).map fun r =>
        ⟨r.frame, r.writable && entryWritable entry, r.userAccess && entryUserAccess entry⟩

def translate (k : Kernel Pmm) (pagemap vaddr : Nat) : Option Mapping := pageWalk k vaddr 4 pagemap

end TrazelOs
