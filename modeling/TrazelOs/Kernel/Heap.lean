import TrazelOs.Kernel.Pmm

/-! # The kernel heap (`kernel/mm/heap/heap.c`)

Block headers live in kernel memory: `struct memory_block` is four 64-bit words (`block_size`,
`next`, `prev` and padding) at the block's address, followed by the payload. The heap takes pages
from a page allocator of which it only sees the functions it calls (`PageAllocator`). -/

namespace TrazelOs

/-- What the heap calls of a page allocator with states `σ`. -/
structure PageAllocator (σ : Type) where
  pmmAllocPageHhdm : σ → Exec (Nat × σ)
  pmmAllocPagesHhdm : σ → Nat → Exec (Nat × σ)
  pmmFreePages : σ → Nat → Nat → Exec σ

/-- `pmm_bitmap.c` as a page allocator. -/
def pmmBitmap : PageAllocator Pmm where
  pmmAllocPageHhdm := pmmAllocPageHhdm
  pmmAllocPagesHhdm := pmmAllocPagesHhdm
  pmmFreePages := pmmFreePages

/-- Kernel memory, the register `cr3` and the static variables of the memory managers: the page
allocator's, the virtual memory manager's `g_hhdm_offset` and the heap's. -/
structure Kernel (σ : Type) where
  mem : Memory
  cr3 : Nat
  pmm : σ
  gHhdmOffset : Nat
  gSuperBlocks : Nat
  gFreeBlocks : Nat
  gFreeBlockTail : Nat

/-- `sizeof(struct memory_block)`. -/
def sizeofMemoryBlock : Nat := 32

/-- Word `i` of the header at `block`. -/
def memoryBlockField (m : Memory) (block i : Nat) : Nat := m.load (block + 8 * i) 8

def setMemoryBlockField (m : Memory) (block i v : Nat) : Memory := m.store (block + 8 * i) 8 v

section MemoryBlock
variable (m : Memory) (block v : Nat)

abbrev blockSize : Nat := memoryBlockField m block 0
abbrev blockNext : Nat := memoryBlockField m block 1
abbrev blockPrev : Nat := memoryBlockField m block 2
abbrev setBlockSize : Memory := setMemoryBlockField m block 0 v
abbrev setBlockNext : Memory := setMemoryBlockField m block 1 v
abbrev setBlockPrev : Memory := setMemoryBlockField m block 2 v
abbrev setBlockPadding : Memory := setMemoryBlockField m block 3 v

end MemoryBlock

/-- `GET_MEMORY_BLOCK_BUFFER`. -/
def getMemoryBlockBuffer (block : Nat) : Nat := u64 (block + sizeofMemoryBlock)

def vmmVirtHhdmToPhys (k : Kernel σ) (vaddr : Nat) : Nat := u64Sub vaddr k.gHhdmOffset
def vmmPhysToVirtHhdm (k : Kernel σ) (paddr : Nat) : Nat := u64 (paddr + k.gHhdmOffset)

def initKernelHeap (A : PageAllocator σ) (k : Kernel σ) : Exec (Kernel σ) := do
  let (buffer, pmm) ← A.pmmAllocPageHhdm k.pmm
  if buffer = 0 then throw .wild
  let mem := setBlockSize k.mem buffer (regularPageSize - sizeofMemoryBlock)
  let mem := setBlockNext mem buffer 0
  let mem := setBlockPrev mem buffer 0
  return { k with mem, pmm, gSuperBlocks := buffer }

/-- The first block of the list with room for `size` bytes, or the null pointer. A walk over
`2 ^ 64` blocks has come back to one it has seen and never ends. -/
def findBigEnoughBlock (m : Memory) (size : Nat) : (turns : Nat) → (currBlock : Nat) → Exec Nat
  | 0, _ => .error .hang
  | turns + 1, currBlock =>
    if currBlock = 0 then .ok 0
    else if blockSize m currBlock ≥ size then .ok currBlock
    else findBigEnoughBlock m size turns (blockNext m currBlock)

def removeMemoryBlockFromList (k : Kernel σ) (block : Nat) : Exec (Kernel σ) :=
  if blockPrev k.mem block = 0 then
    if block = k.gFreeBlocks then
      let gFreeBlocks := blockNext k.mem k.gFreeBlocks
      if gFreeBlocks ≠ 0 then
        .ok { k with gFreeBlocks, mem := setBlockPrev k.mem gFreeBlocks 0 }
      else
        .ok { k with gFreeBlocks, gFreeBlockTail := 0 }
    else if block = k.gSuperBlocks then
      let gSuperBlocks := blockNext k.mem k.gSuperBlocks
      if gSuperBlocks ≠ 0 then
        .ok { k with gSuperBlocks, mem := setBlockPrev k.mem gSuperBlocks 0 }
      else
        .ok { k with gSuperBlocks }
    else .error (.panic "Unknown memory block")
  else
    let mem := setBlockNext k.mem (blockPrev k.mem block) (blockNext k.mem block)
    if blockNext mem block ≠ 0 then
      .ok { k with mem := setBlockPrev mem (blockNext mem block) (blockPrev mem block) }
    else if block = k.gFreeBlockTail then
      .ok { k with mem, gFreeBlockTail := blockPrev mem block }
    else
      .ok { k with mem }

def replaceMemoryBlockInList (k : Kernel σ) (oldBlock newBlock : Nat) : Exec (Kernel σ) := do
  let mem := setBlockNext k.mem newBlock (blockNext k.mem oldBlock)
  let mem := setBlockPrev mem newBlock (blockPrev mem oldBlock)
  let k ←
    if blockPrev mem newBlock ≠ 0 then
      pure { k with mem := setBlockNext mem (blockPrev mem newBlock) newBlock }
    else if oldBlock = k.gFreeBlocks then pure { k with mem, gFreeBlocks := newBlock }
    else if oldBlock = k.gSuperBlocks then pure { k with mem, gSuperBlocks := newBlock }
    else throw (.panic "Unknown memory block")
  if blockNext k.mem newBlock ≠ 0 then
    return { k with mem := setBlockPrev k.mem (blockNext k.mem newBlock) newBlock }
  else if oldBlock = k.gFreeBlockTail then return { k with gFreeBlockTail := newBlock }
  else return k

/-- Takes `size` bytes from the block, all of it when what would remain is too small for a block
of its own. -/
def mallocFromBlock (k : Kernel σ) (block size : Nat) : Exec (Nat × Kernel σ) := do
  kernelAssert (blockSize k.mem block ≥ size)
    "Trying to allocate from a memory block with not enough size"
  if blockSize k.mem block ≤ u64 (size + 2 * sizeofMemoryBlock) then
    let k ← removeMemoryBlockFromList k block
    return (getMemoryBlockBuffer block, k)
  else
    let originalBlockReplacement := u64 (getMemoryBlockBuffer block + size)
    let mem := setBlockSize k.mem originalBlockReplacement
      (u64Sub (blockSize k.mem block) (u64 (size + sizeofMemoryBlock)))
    let k ← replaceMemoryBlockInList { k with mem } block originalBlockReplacement
    return (getMemoryBlockBuffer block, { k with mem := setBlockSize k.mem block size })

def mallocLargeblock (A : PageAllocator σ) (k : Kernel σ) (size : Nat) : Exec (Nat × Kernel σ) := do
  let size := alignUp (u64 (size + sizeofMemoryBlock)) regularPageSize
  let blockPagecount := size / regularPageSize
  let (largeblock, pmm) ← A.pmmAllocPagesHhdm k.pmm blockPagecount
  kernelAssert (largeblock ≠ 0) "Kernel does not have enough memory to allocate that"
  let mem := setBlockNext k.mem largeblock 0
  let mem := setBlockPrev mem largeblock 0
  let mem := setBlockPadding mem largeblock 0
  let mem := setBlockSize mem largeblock (u64Sub size sizeofMemoryBlock)
  return (getMemoryBlockBuffer largeblock, { k with mem, pmm })

def freeLargeblock (A : PageAllocator σ) (k : Kernel σ) (addr : Nat) : Exec (Kernel σ) := do
  let addrHeader := u64Sub addr sizeofMemoryBlock
  let blockTotalsize := u64 (blockSize k.mem addrHeader + sizeofMemoryBlock)
  let blockPagecount := blockTotalsize / regularPageSize
  let blockPhysAddr := vmmVirtHhdmToPhys k addrHeader
  let pmm ← A.pmmFreePages k.pmm blockPhysAddr blockPagecount
  return { k with pmm }

/-- The part of `kmalloc` that puts a new page in front of the super blocks. -/
def addSuperBlock (A : PageAllocator σ) (k : Kernel σ) (size : Nat) : Exec (Kernel σ) := do
  let bufferPageCount := divRoundUp (u64 (size + sizeofMemoryBlock)) regularPageSize
  let (buffer, pmm) ← A.pmmAllocPagesHhdm k.pmm bufferPageCount
  kernelAssert (buffer ≠ 0) "Kernel does not have enough memory to allocate that"
  let mem := setBlockSize k.mem buffer
    (u64Sub (u64 (bufferPageCount * regularPageSize)) sizeofMemoryBlock)
  let mem := setBlockNext mem buffer k.gSuperBlocks
  let mem := setBlockPrev mem buffer 0
  let mem := if k.gSuperBlocks ≠ 0 then setBlockPrev mem k.gSuperBlocks buffer else mem
  return { k with mem, pmm, gSuperBlocks := buffer }

def kmalloc (A : PageAllocator σ) (k : Kernel σ) (size : Nat) : Exec (Nat × Kernel σ) := do
  kernelAssert (size ≠ 0) "Trying to allocate size 0"
  let size := alignUp size sizeofMemoryBlock
  if size > regularPageSize - sizeofMemoryBlock then
    mallocLargeblock A k size
  else
    let block ← findBigEnoughBlock k.mem size (2 ^ 64) k.gFreeBlocks
    if block ≠ 0 then mallocFromBlock k block size
    else
      let block ← findBigEnoughBlock k.mem size (2 ^ 64) k.gSuperBlocks
      if block ≠ 0 then mallocFromBlock k block size
      else
        let k ← addSuperBlock A k size
        mallocFromBlock k k.gSuperBlocks size

def kfree (A : PageAllocator σ) (k : Kernel σ) (addr : Nat) : Exec (Kernel σ) :=
  let addrHeader := u64Sub addr sizeofMemoryBlock
  if blockSize k.mem addrHeader > regularPageSize - sizeofMemoryBlock then
    freeLargeblock A k addr
  else
    let mem := setBlockNext k.mem addrHeader 0
    if k.gFreeBlocks = 0 then
      let mem := setBlockPrev mem addrHeader 0
      .ok { k with mem, gFreeBlocks := addrHeader, gFreeBlockTail := addrHeader }
    else
      let mem := setBlockPrev mem addrHeader k.gFreeBlockTail
      let mem := setBlockNext mem k.gFreeBlockTail addrHeader
      .ok { k with mem, gFreeBlockTail := addrHeader }

end TrazelOs
