import TrazelOs.Verify.HeapRun
import TrazelOs.Verify.HeapSizes

/-! # Where freed blocks go

`kmalloc` decides by the size of the request whether a block gets pages of its own, `kfree` by the
size in the block's header. A history notes for each live block what `malloc_largeblock` got from
`pmm_alloc_pages`, and in every history the two decisions agree (`kfree_agrees`). The page allocator
is the bitmap, so there are blocks of more pages than the memory has: they lie outside the direct map,
where no page of the heap can be. -/

namespace TrazelOs
open Theory

/-- What `kmalloc` returned, and for a large block the address and the number of its pages. -/
structure LiveBlock where
  pointer : Nat
  pages : Option (Nat × Nat)
deriving DecidableEq

namespace LiveBlock

def header (b : LiveBlock) : Nat := blockOf b.pointer

/-- The block has more pages than there are. -/
def stray (count : Nat) (b : LiveBlock) : Bool :=
  match b.pages with
  | some (_, n) => count < n
  | none => false

/-- The header fits what the history says about the block. -/
structure Noted (count offset : Nat) (m : Memory) (b : LiveBlock) : Prop where
  pointer : b.pointer = b.header + 32
  small : b.pages = none → blockSize m b.header ≤ 4064
  large : ∀ start n, b.pages = some (start, n) → 1 < n ∧ n ≤ 2 ^ 51 + 1 ∧ start < 2 ^ 64 ∧
    b.header = u64 (start + offset) ∧ blockSize m b.header = n * 4096 - 32
  stray : ∀ start n, b.pages = some (start, n) → count < n → start = 2 ^ 64 - n * 4096

/-- A byte of the block is one of page `f`. -/
def Meets (offset : Nat) (m : Memory) (b : LiveBlock) (f : Nat) : Prop :=
  ∃ c, b.header ≤ c ∧ c < b.header + blockExtent m b.header ∧ InFrame offset f c

end LiveBlock

/-- The kernel, the used pages that are not the heap's, and the blocks that are not freed. -/
structure BlockHistory where
  kernel : Kernel Pmm
  base : Nat → Prop
  live : List LiveBlock

namespace BlockHistory
variable (s : BlockHistory)

def HeapPage (f : Nat) : Prop :=
  f < s.kernel.pmm.pageCount ∧ s.kernel.pmm.used f = true ∧ ¬s.base f

/-- A byte that only the heap writes: of a header, or of the heap's pages and of no payload. -/
def Owned (b : Nat) : Prop :=
  (∃ c ∈ s.live, c.header ≤ b ∧ b < c.header + sizeofMemoryBlock) ∨
    FrameBytes s.kernel.gHhdmOffset s.HeapPage b ∧
      ∀ c ∈ s.live, ¬InPayload s.kernel.mem c.header b

/-- The live blocks that lie in the memory. -/
def backed (count : Nat) (live : List LiveBlock) : List Nat :=
  (live.filter fun b => !b.stray count).map LiveBlock.header

end BlockHistory

/-- What `kmalloc` gets from `pmm_alloc_pages` for a large block. -/
inductive LargePages (p : Pmm) (size : Nat) : Option (Nat × Nat) → Prop
  | large : 4064 < alignUp size sizeofMemoryBlock →
    pmmAllocPages p (heapPages size) = .ok (start, p') → LargePages p size (some (start, heapPages size))
  | small : alignUp size sizeofMemoryBlock ≤ 4064 → LargePages p size none

inductive BlockStep : BlockHistory → BlockHistory → Prop
  | kmalloc : 1 ≤ size → size ≤ 2 ^ 63 → LargePages s.kernel.pmm size pages →
    kmalloc pmmBitmap s.kernel size = .ok (p, k) → BlockStep s ⟨k, s.base, ⟨p, pages⟩ :: s.live⟩
  | kfree : b ∈ s.live → kfree pmmBitmap s.kernel b.pointer = .ok k →
    BlockStep s ⟨k, s.base, s.live.erase b⟩
  /-- The rest of the kernel writes to memory that is not the heap's, takes free pages and gives its
  own pages back. -/
  | others : ByteMemory.AgreeOn s.Owned s.kernel.mem mem →
    pmm.pageCount = s.kernel.pmm.pageCount → pmm.gHhdmOffset = s.kernel.pmm.gHhdmOffset → base 0 →
    (∀ f < pmm.pageCount, pmm.used f = true ↔ base f ∨ s.HeapPage f) →
    (∀ f, base f → ¬s.HeapPage f) →
    BlockStep s ⟨{ s.kernel with mem, pmm }, base, s.live⟩

/-- The invariant of the histories. -/
structure BlockHistory.Inv (count offset : Nat) (s : BlockHistory) : Prop where
  pos : 0 < count
  heap : KernelHeap count offset s.base s.kernel (backed count s.live)
  noted : ∀ b ∈ s.live, b.Noted count offset s.kernel.mem

section Blocks
variable {count offset : Nat} {b : LiveBlock} {m m' : Memory} {live : List LiveBlock}

theorem LiveBlock.Noted.congr (h : b.Noted count offset m)
    (hsize : blockSize m' b.header = blockSize m b.header) : b.Noted count offset m' where
  pointer := h.pointer
  small hpages := by
    rw [hsize]
    exact h.small hpages
  large start n hpages := by
    rw [hsize]
    exact h.large start n hpages
  stray := h.stray

theorem mem_backed (hb : b ∈ live) (hstray : b.stray count = false) :
    b.header ∈ BlockHistory.backed count live :=
  List.mem_map.mpr ⟨b, List.mem_filter.mpr ⟨hb, by rw [hstray]; rfl⟩, rfl⟩

theorem backed_cons (hstray : b.stray count = false) :
    BlockHistory.backed count (b :: live) = b.header :: BlockHistory.backed count live := by
  rw [BlockHistory.backed, List.filter_cons_of_pos (by rw [hstray]; rfl)]
  rfl

theorem backed_cons_stray (hstray : b.stray count = true) :
    BlockHistory.backed count (b :: live) = BlockHistory.backed count live := by
  rw [BlockHistory.backed, List.filter_cons_of_neg (by rw [hstray]; decide)]
  rfl

theorem backed_erase (hb : b ∈ live) (hstray : b.stray count = false) :
    (b.header :: BlockHistory.backed count (live.erase b)).Perm (BlockHistory.backed count live) := by
  rw [← backed_cons hstray]
  exact (((List.perm_cons_erase hb).filter _).map _).symm

/-- A stray block has no byte in common with the direct map. -/
theorem LiveBlock.Noted.outside (D : DirectMapFits count offset) (h : b.Noted count offset m)
    (hstray : b.stray count = true) : 32 ∣ b.header ∧
      (b.header + blockExtent m b.header ≤ offset ∨ offset + count * regularPageSize ≤ b.header) := by
  obtain ⟨hword, hpages, haligned⟩ := D
  unfold LiveBlock.stray at hstray
  split at hstray
  · rename_i start n heq
    obtain ⟨hone, hle, -, hheader, hsize⟩ := h.large start n heq
    have hstart := h.stray start n heq (of_decide_eq_true hstray)
    have hlt : count < n := of_decide_eq_true hstray
    rw [blockExtent, hsize, hheader, hstart]
    simp only [sizeofMemoryBlock, regularPageSize, u64] at *
    omega
  · cases hstray

end Blocks

section Pages
variable {count offset n start a b v z : Nat} {base : Nat → Prop} {p p' : Pmm} {m : Memory}
  {held : List (Nat × Nat)}

theorem PmmHeld.inPages_range (h : PmmHeld count offset base p held) (hb : InPages held b) :
    offset ≤ b ∧ b < offset + count * regularPageSize := by
  obtain ⟨r, hr, h1, h2⟩ := hb
  obtain ⟨i, hi, -, hle⟩ := h.range r hr
  have hle := Nat.mul_le_mul_right regularPageSize hle
  rw [Nat.add_mul] at hle
  omega

theorem blockSize_largeHeader (ha : 32 ∣ a) (hz : 32 ∣ z) (hv : v < 2 ^ 64) :
    blockSize (largeHeader m a v) z = if z = a then v else blockSize m z := by
  rw [largeHeader, blockSize_setBlockSize ha hz hv]
  by_cases hza : z = a
  · rw [if_pos hza, if_pos hza]
  · rw [if_neg hza, if_neg hza]
    exact (memoryBlockField_set_of_ne ha hz (show 3 < 4 by decide) (by decide) (.inl hza)).trans
      (memoryBlockField_setLinks ha hz (by decide) (.inl hza))

theorem largeHeader_of_outside (h : b < a ∨ a + 32 ≤ b) : largeHeader m a v b = m b := by
  simp only [largeHeader, setLinks, setMemoryBlockField_of_outside (b := b) _ h, Nat.reduceLT]

/-- What the page allocator hands out lies in the memory, or it is stray. -/
theorem PmmHeld.allocPages_cases (D : DirectMapFits count offset)
    (h : PmmHeld count offset base p held) (hn : 0 < n) (hlt : n < 2 ^ 52)
    (halloc : pmmAllocPages p n = .ok (start, p')) : p'.gHhdmOffset = offset ∧
      ((n ≤ count ∧ ∃ i, i + n ≤ count ∧ start = i * regularPageSize) ∨
        count < n ∧ start = 2 ^ 64 - n * regularPageSize ∧ p' = p) := by
  have hpages := D.pages
  have heq := h.pageCount_eq
  have hoffset := h.offset_eq
  by_cases hle : n ≤ count
  · rcases pmmAllocPages_spec (p := p) (by omega) hn (by omega) with ⟨hret, -⟩ | ⟨i, hi, -, hret⟩
    · cases hret.symm.trans halloc
      exact ⟨hoffset, .inl ⟨hle, 0, by omega, (Nat.zero_mul _).symm⟩⟩
    · cases hret.symm.trans halloc
      exact ⟨by rw [Pmm.setBits_gHhdmOffset, hoffset], .inl ⟨hle, i, heq ▸ hi.1, rfl⟩⟩
  · cases (pmmAllocPages_stray (by omega) (by omega) hlt).symm.trans halloc
    exact ⟨hoffset, .inr ⟨by omega, rfl, rfl⟩⟩

/-- Either way the address in the direct map is that of a page. -/
theorem PmmHeld.allocPages_address (D : DirectMapFits count offset)
    (h : PmmHeld count offset base p held) (hn : 0 < n) (hlt : n < 2 ^ 52)
    (halloc : pmmAllocPages p n = .ok (start, p')) :
    start < 2 ^ 64 ∧ 4096 ∣ u64 (start + offset) ∧ u64 (start + offset) + 32 < 2 ^ 64 := by
  have hpages := D.pages
  obtain ⟨-, ⟨hle, i, hi, rfl⟩ | ⟨hlt, rfl, -⟩⟩ := h.allocPages_cases D hn hlt halloc
  · have haligned := D.aligned
    simp only [regularPageSize, u64] at haligned ⊢
    refine ⟨?_, ?_, ?_⟩ <;> omega
  · have haligned := D.aligned
    simp only [regularPageSize, u64] at haligned ⊢
    refine ⟨?_, ?_, ?_⟩ <;> omega

/-- The first page of a stray block is out of the bitmap's bounds. -/
theorem pmmFreePages_stray (hp : p.pageCount ≤ 2 ^ 40) (hn : 0 < n) (hle : n ≤ 2 ^ 51 + 1) :
    pmmFreePages p (2 ^ 64 - n * 4096) n ≠ .ok p' := by
  obtain ⟨i, rfl⟩ : ∃ i, n = i + 1 := ⟨n - 1, by omega⟩
  have hbound : p.gBitmap.bitCount ≤
      u64 (2 ^ 64 - (i + 1) * 4096 + u64 (0 * regularPageSize)) / regularPageSize := by
    change p.pageCount ≤ _
    simp only [u64, regularPageSize]
    omega
  have hfirst : setPageAsUnused p (u64 (2 ^ 64 - (i + 1) * 4096 + u64 (0 * regularPageSize))) =
      .error (.panic "PMM bitmap bit set out of bounds") := by
    unfold setPageAsUnused setPageAs bitmapSetBitValue
    rw [if_pos hbound]
    rfl
  unfold pmmFreePages
  rw [List.range_succ_eq_map, List.foldlM_cons, hfirst]
  exact fun h => by cases h

end Pages

/-- A block of the lists does not become a large block. -/
theorem HeapInv.blockSize_le {k k' : Kernel σ} {held : List (Nat × Nat)}
    {live free supers free' supers' : List Nat} {x : Nat} (H : HeapInv k held live free supers)
    (hx : x ∈ free ++ supers) (H' : HeapInv k' held (x :: live) free' supers') :
    blockSize k'.mem x ≤ 4064 := by
  by_contra hlarge
  obtain ⟨n, hn, hr, -⟩ := H'.range_of_large (Nat.lt_of_not_le hlarge)
  exact (List.nodup_append.mp H.nodup).2.2 x hx x (H.large _ hr hn).1 rfl

namespace BlockHistory.Inv
variable {count offset size p : Nat} {s t : BlockHistory} {b : LiveBlock} {k : Kernel Pmm}
  {held held' : List (Nat × Nat)} {pages : Option (Nat × Nat)}
  (D : DirectMapFits count offset) (I : s.Inv count offset)
include D I

/-- The heap's operations keep the sizes of the live blocks. -/
theorem keeps {blocks : List Nat} (hblocks : ∀ x ∈ backed count s.live, x ∈ blocks)
    {base : Nat → Prop} {p p' : Pmm} (hheld : PmmHeld count offset base p held)
    (hheld' : PmmHeld count offset base p' held')
    (hframe : HeapInv.Frame s.kernel held blocks k held') (hb : b ∈ s.live) :
    b.Noted count offset k.mem := by
  have hnoted := I.noted b hb
  refine hnoted.congr ?_
  cases hstray : b.stray count with
  | false => exact hframe.2 _ (hblocks _ (mem_backed hb hstray))
  | true =>
    have hout := (hnoted.outside D hstray).2
    refine memoryBlockField_congr (fun c h1 h2 => hframe.1 c (fun hpriv => ?_) fun hin => ?_) (by decide)
    · have := hheld.inPages_range hpriv.1
      simp only [blockExtent, sizeofMemoryBlock] at hout
      omega
    · have := hheld'.inPages_range hin
      simp only [blockExtent, sizeofMemoryBlock] at hout
      omega

/-- The block of a large request. -/
theorem kmallocLarge (hpos : 1 ≤ size) (hle : size ≤ 2 ^ 63)
    (hlarge : 4064 < alignUp size sizeofMemoryBlock) {start : Nat} {pmm : Pmm}
    (halloc : pmmAllocPages s.kernel.pmm (heapPages size) = .ok (start, pmm))
    (hret : kmalloc pmmBitmap s.kernel size = .ok (p, k)) :
    p = u64 (start + offset) + 32 ∧ k = { s.kernel with
      mem := largeHeader s.kernel.mem (u64 (start + offset)) (heapPages size * 4096 - 32), pmm } := by
  obtain ⟨held, free, supers, H, hheld⟩ := I.heap.heap
  have hn := heapPages_pos hle
  obtain ⟨hoffset, -⟩ := hheld.allocPages_cases D hn heapPages_lt halloc
  obtain ⟨-, -, hbuffer⟩ := hheld.allocPages_address D hn heapPages_lt halloc
  have hsize : u64Sub (alignUp (u64 (alignUp size sizeofMemoryBlock + sizeofMemoryBlock))
      regularPageSize) sizeofMemoryBlock = heapPages size * 4096 - 32 := by
    rw [heapPages_mul, u64Sub_of_le]
    · rfl
    · have : heapPages size < 2 ^ 52 := heapPages_lt
      omega
    · simp only [sizeofMemoryBlock]
      omega
  rw [kmalloc_large hpos hlarge, mallocLargeblock_eq (A := pmmBitmap) (pmmAllocPagesHhdm_eq halloc),
    hsize, hoffset] at hret
  by_cases hstart : start = 0
  · rw [if_neg (not_not.mpr hstart), if_pos hstart] at hret
    cases hret
  · rw [if_pos hstart] at hret
    split at hret
    · cases hret
    · cases hret
      refine ⟨?_, rfl⟩
      rw [getMemoryBlockBuffer, u64_of_lt (by simpa only [sizeofMemoryBlock])]
      rfl

/-- What is noted about a large block is true of the header that `malloc_largeblock` writes. -/
theorem noted_largeHeader (hpos : 1 ≤ size) (hle : size ≤ 2 ^ 63)
    (hlarge : 4064 < alignUp size sizeofMemoryBlock) {start : Nat} {pmm : Pmm} (m : Memory)
    (halloc : pmmAllocPages s.kernel.pmm (heapPages size) = .ok (start, pmm)) :
    LiveBlock.Noted count offset
      (largeHeader m (u64 (start + offset)) (heapPages size * 4096 - 32))
      ⟨u64 (start + offset) + 32, some (start, heapPages size)⟩ := by
  obtain ⟨held, free, supers, H, hheld⟩ := I.heap.heap
  have hn := heapPages_pos hle
  have hlt : heapPages size < 2 ^ 52 := heapPages_lt
  obtain ⟨-, hcases⟩ := hheld.allocPages_cases D hn hlt halloc
  obtain ⟨hstart, haligned, hbuffer⟩ := hheld.allocPages_address D hn hlt halloc
  have hheader : LiveBlock.header ⟨u64 (start + offset) + 32, some (start, heapPages size)⟩ =
      u64 (start + offset) := blockOf_add hbuffer
  have h32 : 32 ∣ u64 (start + offset) := Nat.dvd_trans (by decide) haligned
  obtain ⟨hdvd, hge, hup, -⟩ := alignUp_block (show size ≤ 2 ^ 64 - 32 by omega)
  have hpages := (heapPages_cases (show size ≤ 2 ^ 64 - 32 by omega)).resolve_left (by omega)
  refine ⟨by rw [hheader], nofun, fun start' n h => ?_, fun start' n h hcount => ?_⟩
  · cases h
    refine ⟨by omega, by omega, hstart, hheader, ?_⟩
    rw [hheader, blockSize_largeHeader h32 h32 (by omega), if_pos rfl]
  · cases h
    rcases hcases with ⟨hle, -⟩ | ⟨-, hstray, -⟩
    · omega
    · exact hstray

/-- A block that the memory has room for. -/
theorem kmallocBacked (hpos : 1 ≤ size) (hle : size ≤ 2 ^ 63) (hfits : heapPages size ≤ count)
    (hret : kmalloc pmmBitmap s.kernel size = .ok (p, k))
    (hnew : LiveBlock.Noted count offset k.mem ⟨p, pages⟩)
    (hstray : LiveBlock.stray count ⟨p, pages⟩ = false) :
    Inv count offset ⟨k, s.base, ⟨p, pages⟩ :: s.live⟩ := by
  obtain ⟨held, free, supers, H, hheld⟩ := I.heap.heap
  obtain ⟨x, held', free', supers', rfl, H', hheld', hframe, -, hoffset⟩ :=
    H.kmalloc_spec (pmmBitmap_lawful D) hheld hpos hle hfits hret
  refine ⟨I.pos, ⟨hoffset.trans I.heap.offset_eq, held', free', supers', ?_, hheld'⟩,
    List.forall_mem_cons.mpr ⟨hnew, fun b hb => I.keeps D (fun _ h => h) hheld hheld' hframe hb⟩⟩
  rw [backed_cons hstray, LiveBlock.header, blockOf_add (H'.payload_lt (by simp))]
  exact H'

/-- The size of a small block. -/
theorem noted_small (hpos : 1 ≤ size) (hsmall : alignUp size sizeofMemoryBlock ≤ 4064)
    (hle : size ≤ 2 ^ 63) (hret : kmalloc pmmBitmap s.kernel size = .ok (p, k)) :
    LiveBlock.Noted count offset k.mem ⟨p, none⟩ := by
  obtain ⟨held, free, supers, H, hheld⟩ := I.heap.heap
  obtain ⟨hdvd, hge, -, -⟩ := alignUp_block (show size ≤ 2 ^ 64 - 32 by omega)
  obtain ⟨k₁, held₁, supers₁, x, H₁, -, -, -, hx, hfit, hret, -⟩ :=
    H.kmalloc_small_source (pmmBitmap_lawful D) hheld hpos hsmall I.pos hret
  obtain ⟨k₂, free', supers', hret', H', -⟩ := H₁.mallocFromBlock_spec hx (by omega) hdvd hfit
  cases hret'.symm.trans hret
  have hheader : LiveBlock.header ⟨x + 32, none⟩ = x := blockOf_add (H'.payload_lt (by simp))
  exact ⟨by rw [hheader], fun _ => by rw [hheader]; exact H₁.blockSize_le hx H', nofun, nofun⟩

theorem header_dvd (hb : b ∈ s.live) : 32 ∣ b.header := by
  cases hstray : b.stray count with
  | false =>
    obtain ⟨held, free, supers, H, hheld⟩ := I.heap.heap
    exact (H.liveHeader _ (mem_backed hb hstray)).1
  | true => exact ((I.noted b hb).outside D hstray).1

/-- A live block at the place of a stray block of `n` pages has `n` pages. -/
theorem size_of_header_eq {n : Nat} (hb : b ∈ s.live) (hcount : count < n) (hlt : n ≤ 2 ^ 51 + 1)
    (heq : b.header = u64 (2 ^ 64 - n * regularPageSize + offset)) :
    blockSize s.kernel.mem b.header = n * 4096 - 32 := by
  obtain ⟨hword, hpages, -⟩ := D
  have hnoted := I.noted b hb
  cases hstray : b.stray count with
  | false =>
    obtain ⟨held, free, supers, H, hheld⟩ := I.heap.heap
    obtain ⟨r, hr, h1, h2⟩ := H.extent (List.mem_append_right _ (mem_backed hb hstray))
    have hin := hheld.inPages_range ⟨r, hr, h1, by simp only [blockExtent, sizeofMemoryBlock] at h2; omega⟩
    simp only [u64, regularPageSize] at heq hin hword
    omega
  | true =>
    unfold LiveBlock.stray at hstray
    split at hstray
    · rename_i start n' hpages
      obtain ⟨-, hle, -, hheader, hsize⟩ := hnoted.large start n' hpages
      have hstart := hnoted.stray start n' hpages (of_decide_eq_true hstray)
      rw [hheader, hstart] at heq
      rw [hsize]
      simp only [u64, regularPageSize] at heq
      omega
    · cases hstray

/-- A block that the memory has no room for changes nothing but its own header. -/
theorem kmallocStray (hpos : 1 ≤ size) (hle : size ≤ 2 ^ 63)
    (hlarge : 4064 < alignUp size sizeofMemoryBlock) (hcount : count < heapPages size)
    {start : Nat} {pmm : Pmm}
    (halloc : pmmAllocPages s.kernel.pmm (heapPages size) = .ok (start, pmm))
    (hret : kmalloc pmmBitmap s.kernel size = .ok (p, k)) :
    Inv count offset ⟨k, s.base, ⟨p, some (start, heapPages size)⟩ :: s.live⟩ := by
  have hnew := I.noted_largeHeader D hpos hle hlarge s.kernel.mem halloc
  obtain ⟨rfl, rfl⟩ := I.kmallocLarge D hpos hle hlarge halloc hret
  obtain ⟨held, free, supers, H, hheld⟩ := I.heap.heap
  have hn := heapPages_pos hle
  have hlt : heapPages size < 2 ^ 52 := heapPages_lt
  obtain ⟨-, ⟨hfits, -⟩ | ⟨-, hstart, rfl⟩⟩ := hheld.allocPages_cases D hn hlt halloc
  · omega
  obtain ⟨-, haligned, hbuffer⟩ := hheld.allocPages_address D hn hlt halloc
  have hstray : LiveBlock.stray count ⟨u64 (start + offset) + 32, some (start, heapPages size)⟩ =
    true := decide_eq_true hcount
  obtain ⟨h32, hout⟩ := hnew.outside D hstray
  have hheader : LiveBlock.header ⟨u64 (start + offset) + 32, some (start, heapPages size)⟩ =
      u64 (start + offset) := blockOf_add hbuffer
  rw [hheader] at h32 hout
  have hkeep : ∀ c, InPages held c → largeHeader s.kernel.mem (u64 (start + offset))
      (heapPages size * 4096 - 32) c = s.kernel.mem c := fun c hc => by
    have := hheld.inPages_range hc
    simp only [blockExtent, sizeofMemoryBlock] at hout
    exact largeHeader_of_outside (by omega)
  refine ⟨I.pos, ⟨I.heap.offset_eq, held, free, supers, ?_, hheld⟩,
    List.forall_mem_cons.mpr ⟨hnew, fun b hb => (I.noted b hb).congr ?_⟩⟩
  · rw [backed_cons_stray hstray]
    exact H.others fun c hc => hkeep c hc.1
  · have hb32 : 32 ∣ b.header := I.header_dvd D hb
    rw [blockSize_largeHeader h32 hb32 (by omega)]
    split
    · rename_i heq
      exact (I.size_of_header_eq D hb hcount (hnew.large _ _ rfl).2.1 (hstart ▸ heq)).symm
    · rfl

omit I in
/-- `kfree` of a large block is the release of its pages. -/
theorem kfreeLarge {start n : Nat} (hoffset : k.gHhdmOffset = offset)
    (hnoted : b.Noted count offset k.mem) (hpages : b.pages = some (start, n)) :
    kfree pmmBitmap k b.pointer = do
      let pmm ← pmmFreePages k.pmm start n
      return { k with pmm } := by
  obtain ⟨hone, hle, hstart, hheader, hsize⟩ := hnoted.large start n hpages
  have hword := D.word
  have haddr : u64Sub b.pointer sizeofMemoryBlock = b.header := rfl
  have htotal : u64 (blockSize k.mem b.header + sizeofMemoryBlock) / regularPageSize = n := by
    rw [hsize]
    simp only [sizeofMemoryBlock, regularPageSize, u64]
    omega
  have hphys : u64Sub b.header k.gHhdmOffset = start := by
    rw [hheader, hoffset]
    simp only [u64Sub, u64]
    omega
  unfold kfree
  dsimp only
  rw [haddr, if_pos (by rw [hsize]; simp only [regularPageSize, sizeofMemoryBlock]; omega)]
  unfold freeLargeblock vmmVirtHhdmToPhys
  dsimp only
  rw [haddr, htotal, hphys]
  rfl

/-- The pages of a stray block cannot be given back. -/
theorem kfreeStray (hb : b ∈ s.live) (hstray : b.stray count = true) :
    ∀ k, kfree pmmBitmap s.kernel b.pointer ≠ .ok k := by
  intro k hret
  obtain ⟨held, free, supers, H, hheld⟩ := I.heap.heap
  have hnoted := I.noted b hb
  unfold LiveBlock.stray at hstray
  split at hstray
  · rename_i start n hpages
    obtain ⟨hone, hle, -, -, -⟩ := hnoted.large start n hpages
    rw [kfreeLarge D I.heap.offset_eq hnoted hpages, hnoted.stray start n hpages (of_decide_eq_true hstray)] at hret
    obtain ⟨pmm, hfree, -⟩ := Exec.bind_eq_ok.mp hret
    have hcount := D.pages
    have heq := hheld.pageCount_eq
    exact pmmFreePages_stray (by omega) (by omega) hle hfree
  · cases hstray

theorem kfreeBacked (hb : b ∈ s.live) (hstray : b.stray count = false)
    (hret : kfree pmmBitmap s.kernel b.pointer = .ok k) :
    Inv count offset ⟨k, s.base, s.live.erase b⟩ := by
  obtain ⟨held, free, supers, H, hheld⟩ := I.heap.heap
  have hperm := backed_erase hb hstray
  rw [(I.noted b hb).pointer] at hret
  obtain ⟨held', free', H', hheld', hframe, hoffset⟩ :=
    (H.perm_live hperm).kfree_spec (pmmBitmap_lawful D) hheld I.heap.offset_eq hret
  exact ⟨I.pos, ⟨hoffset.trans I.heap.offset_eq, held', free', supers, H', hheld'⟩,
    fun c hc => I.keeps D (fun _ h => hperm.mem_iff.mpr h) hheld hheld' hframe
      (List.mem_of_mem_erase hc)⟩

omit D I in
/-- The heap's pages are the used pages that are not of `base`. -/
theorem heapPage_iff {f : Nat} (hheld : PmmHeld count offset s.base s.kernel.pmm held) :
    s.HeapPage f ↔ HeldFrame offset held f := by
  have heq := hheld.pageCount_eq
  constructor
  · rintro ⟨hlt, hused, hbase⟩
    exact ((hheld.used f (by omega)).mp hused).resolve_left hbase
  · intro hf
    have hin := hheld.inPages_range hf
    have hlt : f < count := by
      simp only [regularPageSize] at hin
      omega
    exact ⟨by omega, (hheld.used f hlt).mpr (.inr hf), fun hbase => hheld.sep f hbase hf⟩

theorem owned_of_private {c : Nat} (hheld : PmmHeld count offset s.base s.kernel.pmm held)
    (hc : HeapPrivate s.kernel.mem held (backed count s.live) c) : s.Owned c := by
  obtain ⟨hin, hpayload⟩ := hc
  have hrange := hheld.inPages_range hin
  obtain ⟨r, hr, h1, h2⟩ := hin
  obtain ⟨i, hi, -, -⟩ := hheld.range r hr
  refine .inr ⟨⟨(c - offset) / regularPageSize, (heapPage_iff hheld).mpr
    ⟨r, hr, (heldFrame_iff hi).mpr ?_⟩, ?_⟩, fun b hb hbyte => ?_⟩
  · rw [hi] at h1 h2
    simp only [regularPageSize] at h1 h2 ⊢
    omega
  · rw [I.heap.offset_eq]
    simp only [InFrame, regularPageSize]
    omega
  · cases hstray : b.stray count with
    | false => exact hpayload _ (mem_backed hb hstray) hbyte
    | true =>
      have hout := ((I.noted b hb).outside D hstray).2
      simp only [InPayload, blockExtent, sizeofMemoryBlock] at hbyte hout
      omega

theorem others {mem : Memory} {pmm : Pmm} {base : Nat → Prop}
    (hmem : ByteMemory.AgreeOn s.Owned s.kernel.mem mem)
    (hcount : pmm.pageCount = s.kernel.pmm.pageCount)
    (hoffset : pmm.gHhdmOffset = s.kernel.pmm.gHhdmOffset) (hnull : base 0)
    (hused : ∀ f < pmm.pageCount, pmm.used f = true ↔ base f ∨ s.HeapPage f)
    (hsep : ∀ f, base f → ¬s.HeapPage f) :
    Inv count offset ⟨{ s.kernel with mem, pmm }, base, s.live⟩ := by
  obtain ⟨held, free, supers, H, hheld⟩ := I.heap.heap
  have heq : pmm.pageCount = count := hcount.trans hheld.pageCount_eq
  refine ⟨I.pos, ⟨I.heap.offset_eq, held, free, supers, ?_, ?_⟩, fun b hb => ?_⟩
  · exact H.others fun c hc => hmem c (I.owned_of_private D hheld hc)
  · refine ⟨heq, hoffset.trans hheld.offset_eq, fun f hf => ?_, hnull, hheld.range, fun f hf => ?_,
      hheld.apart⟩
    · rw [hused f (heq ▸ hf), heapPage_iff hheld]
    · rw [← heapPage_iff hheld]
      exact hsep f hf
  · refine (I.noted b hb).congr (memoryBlockField_congr (fun c h1 h2 => ?_) (by decide))
    exact hmem c (.inl ⟨b, hb, h1, h2⟩)

theorem kmallocStep (hpos : 1 ≤ size) (hle : size ≤ 2 ^ 63)
    (hpages : LargePages s.kernel.pmm size pages)
    (hret : kmalloc pmmBitmap s.kernel size = .ok (p, k)) :
    Inv count offset ⟨k, s.base, ⟨p, pages⟩ :: s.live⟩ := by
  cases hpages with
  | large hlarge halloc =>
    by_cases hfits : heapPages size ≤ count
    · have hnew := I.noted_largeHeader D hpos hle hlarge s.kernel.mem halloc
      refine I.kmallocBacked D hpos hle hfits hret ?_ (decide_eq_false (Nat.not_lt.mpr hfits))
      obtain ⟨rfl, rfl⟩ := I.kmallocLarge D hpos hle hlarge halloc hret
      exact hnew
    · exact I.kmallocStray D hpos hle hlarge (Nat.lt_of_not_le hfits) halloc hret
  | small hsmall =>
    refine I.kmallocBacked D hpos hle ?_ hret (I.noted_small D hpos hsmall hle hret) rfl
    rw [heapPages_small hpos (by omega) hsmall]
    exact I.pos

theorem kfreeStep (hb : b ∈ s.live) (hret : kfree pmmBitmap s.kernel b.pointer = .ok k) :
    Inv count offset ⟨k, s.base, s.live.erase b⟩ := by
  cases hstray : b.stray count with
  | false => exact I.kfreeBacked D hb hstray hret
  | true => exact absurd hret (I.kfreeStray D hb hstray k)

theorem step (h : BlockStep s t) : t.Inv count offset := by
  cases h with
  | kmalloc hpos hle hpages hret => exact I.kmallocStep D hpos hle hpages hret
  | kfree hb hret => exact I.kfreeStep D hb hret
  | others hmem hcount hoffset hnull hused hsep =>
    exact I.others D hmem hcount hoffset hnull hused hsep

theorem run (h : Relation.ReflTransGen BlockStep s t) : t.Inv count offset := by
  induction h with
  | refl => exact I
  | tail _ h ih => exact ih.step D h

/-- The pages of live blocks are used. -/
theorem used_of_meets {f : Nat} (hb : b ∈ s.live) (hf : f < count)
    (hmeets : b.Meets offset s.kernel.mem f) : s.kernel.pmm.used f = true := by
  obtain ⟨c, h1, h2, h3, h4⟩ := hmeets
  obtain ⟨held, free, supers, H, hheld⟩ := I.heap.heap
  cases hstray : b.stray count with
  | false =>
    obtain ⟨r, hr, h5, h6⟩ := H.extent (List.mem_append_right _ (mem_backed hb hstray))
    obtain ⟨i, hi, -, -⟩ := hheld.range r hr
    refine (hheld.used f hf).mpr (.inr ⟨r, hr, (heldFrame_iff hi).mpr ?_⟩)
    rw [hi] at h5 h6
    simp only [regularPageSize] at h3 h4 h5 h6
    omega
  | true =>
    have hout := ((I.noted b hb).outside D hstray).2
    simp only [regularPageSize] at h3 h4 hout
    omega

end BlockHistory.Inv

/-- `kfree` of a small block leaves the page allocator alone. -/
theorem kfree_small {k : Kernel Pmm} {p : Nat} (hsmall : blockSize k.mem (blockOf p) ≤ 4064) :
    ∃ k', kfree pmmBitmap k p = .ok k' ∧ k'.pmm = k.pmm := by
  unfold kfree
  dsimp only
  rw [if_neg (show ¬blockSize k.mem (u64Sub p sizeofMemoryBlock) > regularPageSize - sizeofMemoryBlock
    from Nat.not_lt.mpr hsmall)]
  split
  · exact ⟨_, rfl, rfl⟩
  · exact ⟨_, rfl, rfl⟩

/-- In every history `kfree` gives the pages of a large block back as they were handed out, leaves the
page allocator alone for every other block, and the pages of live blocks stay used. -/
theorem kfree_agrees {count offset : Nat} {base : Nat → Prop} {k₀ k : Kernel Pmm} {s : BlockHistory}
    (D : DirectMapFits count offset) (hheld : PmmHeld count offset base k₀.pmm [])
    (hoffset : k₀.gHhdmOffset = offset) (hfree : k₀.gFreeBlocks = 0) (htail : k₀.gFreeBlockTail = 0)
    (hinit : initKernelHeap pmmBitmap k₀ = .ok k)
    (hrun : Relation.ReflTransGen BlockStep ⟨k, base, []⟩ s) : ∀ b ∈ s.live,
      (regularPageSize - sizeofMemoryBlock < blockSize s.kernel.mem b.header ↔ b.pages.isSome) ∧
      (∀ start n, b.pages = some (start, n) → kfree pmmBitmap s.kernel b.pointer = do
        let pmm ← pmmFreePages s.kernel.pmm start n
        return { s.kernel with pmm }) ∧
      (b.pages = none → ∃ k', kfree pmmBitmap s.kernel b.pointer = .ok k' ∧ k'.pmm = s.kernel.pmm) ∧
      ∀ f < count, b.Meets offset s.kernel.mem f → s.kernel.pmm.used f = true := by
  have hinitial : BlockHistory.Inv count offset ⟨k, base, []⟩ := by
    obtain ⟨a, H, hheld', hoff⟩ :=
      HeapInv.initKernelHeap_spec (pmmBitmap_lawful D) hheld hfree htail hinit
    obtain ⟨i, -, -, hle⟩ := hheld'.range _ (.head _)
    exact ⟨by dsimp only at hle; omega, ⟨hoff.trans hoffset, _, _, _, H, hheld'⟩, nofun⟩
  have I := hinitial.run D hrun
  intro b hb
  have hnoted := I.noted b hb
  refine ⟨?_, fun start n => BlockHistory.Inv.kfreeLarge D I.heap.offset_eq hnoted,
    fun hpages => kfree_small (hnoted.small hpages), fun f => I.used_of_meets D hb⟩
  cases hpages : b.pages with
  | none => exact iff_of_false (Nat.not_lt.mpr (hnoted.small hpages)) (by decide)
  | some pages =>
    obtain ⟨hone, -, -, -, hsize⟩ := hnoted.large pages.1 pages.2 hpages
    refine iff_of_true ?_ rfl
    rw [hsize]
    simp only [regularPageSize, sizeofMemoryBlock]
    omega

theorem kfree_agrees_eightFrames : ∃ k p k' start, initKernelHeap pmmBitmap eightFrames = .ok k ∧
    kmalloc pmmBitmap k 5000 = .ok (p, k') ∧ kfree pmmBitmap k' p = do
      let pmm ← pmmFreePages k'.pmm start (heapPages 5000)
      return { k' with pmm } := by
  have hreturns : Exec.returns (initKernelHeap pmmBitmap eightFrames) (fun k =>
      (kmalloc pmmBitmap k 5000).returns fun _ =>
        (pmmAllocPages k.pmm (heapPages 5000)).returns fun _ => true) = true := by decide +kernel
  obtain ⟨k, hinit, h⟩ := Exec.returns_iff.mp hreturns
  obtain ⟨⟨p, k'⟩, hret, h⟩ := Exec.returns_iff.mp h
  obtain ⟨⟨start, pmm⟩, halloc, -⟩ := Exec.returns_iff.mp h
  have hagrees := kfree_agrees eightFrames_fits eightFrames_held rfl rfl rfl hinit
    (.single (.kmalloc (show 1 ≤ 5000 by decide) (by decide) (.large (by decide) halloc) hret))
    ⟨p, some (start, heapPages 5000)⟩ (.head _)
  exact ⟨k, p, k', start, hinit, hret, hagrees.2.1 _ _ rfl⟩

end TrazelOs
