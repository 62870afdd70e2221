import TrazelOs.Kernel.Vfs
import TrazelOs.Kernel.Vmm

/-! # The ELF loader (`kernel/elf_loader/elf_loader.c`)

The headers are read into blocks of the heap and parsed from there: a file that is too short
leaves in them what the memory held before. -/

namespace TrazelOs

/-- The fields of `Elf64_Phdr` that are used. -/
structure Elf64Phdr where
  pType : Nat
  pOffset : Nat
  pVaddr : Nat
  pFilesz : Nat
  pMemsz : Nat
deriving Repr, DecidableEq

def sizeofElf64Ehdr : Nat := 64
def sizeofElf64Phdr : Nat := 56
def ptLoad : Nat := 1

def parsePhdr (bytes : List Byte) : Elf64Phdr where
  pType := field bytes 0 4
  pOffset := field bytes 8 8
  pVaddr := field bytes 16 8
  pFilesz := field bytes 32 8
  pMemsz := field bytes 40 8

/-- One of the four magic bytes is enough. -/
def isElfFile (elfHeader : List Byte) : Bool :=
  field elfHeader 0 1 = 0x7f || field elfHeader 1 1 = 0x45 || field elfHeader 2 1 = 0x4c ||
    field elfHeader 3 1 = 0x46

def getElfSegmentPagesCount (programHeader : Elf64Phdr) : Nat :=
  let pagesBlockStartVaddr := programHeader.pVaddr / regularPageSize * regularPageSize
  let pagesBlockEndVaddr :=
    u64 (programHeader.pVaddr + programHeader.pMemsz + regularPageSize - 1) / regularPageSize *
      regularPageSize
  u64Sub pagesBlockEndVaddr pagesBlockStartVaddr / regularPageSize

/-- `struct elf_file_info` and its address. -/
structure ElfFileInfo where
  addr : Nat
  entryPoint : Nat
  heapStart : Nat
deriving Repr, DecidableEq

section Loader
variable {μ : Type} (M : MemoryManager μ)

/-- The loop of `load_segment` over the pages. -/
def mapSegmentPages (pagemap vaddr physPages : Nat) (count : Nat) (mem : μ) : Exec μ :=
  (List.range count).foldlM (fun mem i => do
    let (mapStatus, mem) ← M.vmmMapPage mem pagemap (u64 (vaddr + i * regularPageSize))
      (u64 (physPages + i * regularPageSize)) (mpfWritablePage + mpfUserAccessible)
    kernelAssert (mapStatus = 0) "Trying to load an ELF segment which overlaps with another segment.\n This feature is not supported"
    return mem) mem

def loadSegment (s : System μ) (programHeader : Elf64Phdr) (elfFile pagemap : Nat) :
    Exec (System μ) := do
  let segmentPageCount := getElfSegmentPagesCount programHeader
  let (physPages, mem) ← M.pmmAllocPages s.mem segmentPageCount
  let mem ← mapSegmentPages M pagemap programHeader.pVaddr physPages segmentPageCount mem
  let s := { s with mem }
  let location :=
    u64 (M.vmmPhysToVirtHhdm s.mem physPages + programHeader.pVaddr % regularPageSize)
  let (_, s) ← vfsSeek s elfFile (toInt64 programHeader.pOffset) 0
  let (_, s) ← vfsRead M s elfFile (.kernel location) programHeader.pFilesz
  if programHeader.pMemsz > programHeader.pFilesz then
    let mem ← M.store s.mem (.kernel (u64 (location + programHeader.pFilesz)))
      (List.replicate (programHeader.pMemsz - programHeader.pFilesz) 0)
    return { s with mem }
  else return s

/-- `&program_headers[i]`. -/
def programHeader (mem : μ) (programHeaders i : Nat) : Elf64Phdr :=
  parsePhdr (M.load mem (u64 (programHeaders + i * sizeofElf64Phdr)) sizeofElf64Phdr)

def loadBinarySegments (s : System μ) (programHeaders phCount elfFile pagemap : Nat) :
    Exec (System μ) :=
  (List.range phCount).foldlM (fun s i =>
    let currPh := programHeader M s.mem programHeaders i
    if currPh.pType = ptLoad then loadSegment M s currPh elfFile pagemap else pure s) s

def findHeapStart (mem : μ) (programHeaders phCount : Nat) : Exec Nat := do
  let heapStart := (List.range phCount).foldl (fun heapStart i =>
    let currPh := programHeader M mem programHeaders i
    let segmentEndVaddr := u64 (currPh.pVaddr + currPh.pMemsz)
    if currPh.pType = ptLoad ∧ segmentEndVaddr > heapStart then segmentEndVaddr else heapStart) 0
  kernelAssert (heapStart ≠ 0) "Could not found where the process heap should start"
  return alignUp heapStart regularPageSize

def loadElfToMemory (s : System μ) (elfFile pagemap : Nat) :
    Exec (Option ElfFileInfo × System μ) := do
  let (elfHeader, s) ← newObject M s sizeofElf64Ehdr
  let (_, s) ← vfsRead M s elfFile (.kernel elfHeader) sizeofElf64Ehdr
  let header := M.load s.mem elfHeader sizeofElf64Ehdr
  if ¬isElfFile header then
    let s ← s.kfree M elfHeader
    return (none, s)
  else
    let phnum := field header 56 2
    let (programHeaders, s) ← newObject M s (sizeofElf64Phdr * phnum)
    let (_, s) ← vfsSeek s elfFile (toInt64 (field header 32 8)) 0
    let (_, s) ← vfsRead M s elfFile (.kernel programHeaders) (sizeofElf64Phdr * phnum)
    let s ← loadBinarySegments M s programHeaders phnum elfFile pagemap
    let (fileInfo, s) ← newObject M s 16
    let entryPoint := field (M.load s.mem elfHeader sizeofElf64Ehdr) 24 8
    let heapStart ← findHeapStart M s.mem programHeaders phnum
    let s ← s.kfree M elfHeader
    let s ← s.kfree M programHeaders
    if entryPoint = 0 ∨ heapStart = 0 then
      let s ← s.kfree M fileInfo
      return (none, s)
    else return (some ⟨fileInfo, entryPoint, heapStart⟩, s)

end Loader

end TrazelOs
