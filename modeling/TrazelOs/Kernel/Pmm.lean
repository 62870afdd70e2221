import TrazelOs.Kernel.Bitmap

/-! # The physical memory manager (`kernel/mm/pmm/pmm_bitmap.c`)

One bit of `g_bitmap` for each physical page, set when the page is used. Physical addresses and
page indices are 64-bit words; `0` is the null pointer. -/

namespace TrazelOs

def bitsPerByte : Nat := 8

/-- The type of a `limine_memmap_entry`. -/
inductive MemmapType
  | usable
  | reserved
  | acpiReclaimable
  | acpiNvs
  | badMemory
  | bootloaderReclaimable
  | executableAndModules
  | framebuffer
  | reservedMapped
deriving Repr, DecidableEq

/-- `struct limine_memmap_entry`. -/
structure MemmapEntry where
  base : Nat
  length : Nat
  type : MemmapType
deriving Repr, DecidableEq

/-- The module's static variables. -/
structure Pmm where
  gBitmap : TzBitmap
  gHhdmOffset : Nat

/-- Store `value` in the bit of the page at `pageAddr`. -/
def setPageAs (value : Bool) (p : Pmm) (pageAddr : Nat) : Exec Pmm :=
  let r := bitmapSetBitValue p.gBitmap (pageAddr / regularPageSize) value
  do
    kernelAssert (r.1 ≠ -1) "PMM bitmap bit set out of bounds"
    return { p with gBitmap := r.2 }

def setPageAsUsed : Pmm → Nat → Exec Pmm := setPageAs true

def setPageAsUnused : Pmm → Nat → Exec Pmm := setPageAs false

/-- The highest address of the regions that are or will become ordinary memory. -/
def getRamMaxSize (entries : List MemmapEntry) : Nat :=
  entries.foldl (fun maxAddress e =>
    if e.type ≠ .usable ∧ e.type ≠ .acpiReclaimable ∧ e.type ≠ .bootloaderReclaimable then
      maxAddress
    else
      let top := u64 (e.base + e.length)
      if top > maxAddress then top else maxAddress) 0

/-- The first usable region that holds a bitmap of the given memory, `-1` if there is none. -/
def getBitmapRegion (entries : List MemmapEntry) (physicalRamSize : Nat) : Int :=
  let bitsNeededForBitmap := physicalRamSize / regularPageSize
  let bytesNeededForBitmap := divRoundUp bitsNeededForBitmap bitsPerByte
  match entries.findIdx? fun e => e.type = .usable ∧ e.length ≥ bytesNeededForBitmap with
  | some i => i
  | none => -1

def markRegionFree (p : Pmm) (entry : MemmapEntry) : Exec Pmm :=
  (List.range (entry.length / regularPageSize)).foldlM (fun p i =>
    setPageAsUnused p (u64 (entry.base + u64 (i * regularPageSize)))) p

/-- `memset` on the first `n` bytes of a bitmap's buffer. -/
def TzBitmap.memset (bm : TzBitmap) (value : Byte) (n : Nat) : TzBitmap where
  bitCount := bm.bitCount
  addr := bm.addr
  bitmap := bm.bitmap.mapIdx fun i b => if i < n then value else b
  length_eq := by rw [List.length_mapIdx, bm.length_eq]

def initPmm (memmapResponse : Option (List MemmapEntry)) (hhdmResponse : Option Nat) : Exec Pmm :=
  match memmapResponse, hhdmResponse with
  | none, _ => .error (.panic "Limine memmap response is NULL cannot initialize PMM")
  | some _, none => .error (.panic "Limine HHDM response is NULL cannot initialize PMM")
  | some entries, some offset => do
    let systemsPhysicalRamSize := getRamMaxSize entries
    let bitmapRegionIndex := getBitmapRegion entries systemsPhysicalRamSize
    kernelAssert (bitmapRegionIndex ≠ -1) "Couldn't find a big enough region for the pmm bitmap"
    let bitmapRegion := entries.getD bitmapRegionIndex.toNat ⟨0, 0, .reserved⟩
    let bitsNeededForBitmap := systemsPhysicalRamSize / regularPageSize
    let bytesNeededForBitmap := divRoundUp bitsNeededForBitmap bitsPerByte
    let pagesNeededForBitmap := divRoundUp bytesNeededForBitmap regularPageSize
    let gBitmap := bitmapCreate (u64 (bitmapRegion.base + offset)) bitsNeededForBitmap
    let p : Pmm := ⟨gBitmap.memset 0xFF bytesNeededForBitmap, offset⟩
    let p ← entries.foldlM (fun p e => if e.type = .usable then markRegionFree p e else pure p) p
    (List.range pagesNeededForBitmap).foldlM (fun p i =>
      setPageAsUsed p (u64 (bitmapRegion.base + u64 (i * regularPageSize)))) p

/-- Returns the lowest free page, or the null pointer. -/
def pmmAllocPage (p : Pmm) : Exec (Nat × Pmm) :=
  match (List.range p.gBitmap.bitCount).find? fun i => bitmapGetBitValue p.gBitmap i = 0 with
  | none => .ok (0, p)
  | some i => do
    let pageAddr := u64 (i * regularPageSize)
    let p ← setPageAsUsed p pageAddr
    return (pageAddr, p)

/-- The outer loop of `pmm_alloc_pages` from index `i`. The index is a 64-bit word that grows in
each turn until it wraps, so a loop that is still running after `2 ^ 64` turns never ends. -/
def pmmAllocPages.loop (p : Pmm) (count : Nat) : (turns : Nat) → (i : Nat) → Exec (Nat × Pmm)
  | 0, _ => .error .hang
  | turns + 1, i =>
    if i ≤ u64Sub p.gBitmap.bitCount count then
      let pages := List.range' i (u64 (i + count) - i)
      match pages.find? fun j => bitmapGetBitValue p.gBitmap j ≠ 0 with
      | some j => pmmAllocPages.loop p count turns (u64 (j + 1))
      | none => do
        let p ← pages.foldlM (fun p j => setPageAsUsed p (u64 (j * regularPageSize))) p
        return (u64 (i * regularPageSize), p)
    else .ok (0, p)

/-- Returns the lowest run of `count` free pages, or the null pointer. -/
def pmmAllocPages (p : Pmm) (count : Nat) : Exec (Nat × Pmm) := do
  kernelAssert (count ≠ 0) "PMM can't allocate 0 pages"
  pmmAllocPages.loop p count (2 ^ 64) 0

def pmmAllocPageHhdm (p : Pmm) : Exec (Nat × Pmm) := do
  let (page, p) ← pmmAllocPage p
  return (if page ≠ 0 then u64 (page + p.gHhdmOffset) else page, p)

def pmmAllocPagesHhdm (p : Pmm) (count : Nat) : Exec (Nat × Pmm) := do
  let (pages, p) ← pmmAllocPages p count
  return (if pages ≠ 0 then u64 (pages + p.gHhdmOffset) else pages, p)

def pmmFreePage (p : Pmm) (physicalAddr : Nat) : Exec Pmm := setPageAsUnused p physicalAddr

def pmmFreePages (p : Pmm) (physicalAddr count : Nat) : Exec Pmm :=
  (List.range count).foldlM (fun p i =>
    setPageAsUnused p (u64 (physicalAddr + u64 (i * regularPageSize)))) p

end TrazelOs
