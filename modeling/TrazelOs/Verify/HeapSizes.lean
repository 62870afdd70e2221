import TrazelOs.Verify.KernelHeap

/-! # Requests of every size

The size of a request is rounded up in 64-bit arithmetic, and the page allocator does not reject a
count beyond the memory it has. `kmalloc` hands out a block of the size that was asked for as long as
neither goes wrong (`kmalloc_served_iff`). -/

namespace TrazelOs

/-! ## Rounding -/

section Rounding
variable {size count : Nat}

theorem alignUp_block_wraps (hsize : 2 ^ 64 - 32 < size) (hlt : size < 2 ^ 64) :
    alignUp size sizeofMemoryBlock = 0 := by
  have h := alignUp_cases size sizeofMemoryBlock
  simp only [sizeofMemoryBlock] at h ⊢
  omega

theorem heapPages_lt : heapPages size < 2 ^ 52 := by
  have hlt := u64_lt (alignUp size sizeofMemoryBlock + sizeofMemoryBlock)
  have h := alignUp_cases (u64 (alignUp size sizeofMemoryBlock + sizeofMemoryBlock)) regularPageSize
  simp only [heapPages, regularPageSize] at h ⊢
  omega

theorem heapPages_mul : alignUp (u64 (alignUp size sizeofMemoryBlock + sizeofMemoryBlock))
    regularPageSize = heapPages size * 4096 := by
  have hlt := u64_lt (alignUp size sizeofMemoryBlock + sizeofMemoryBlock)
  have h := alignUp_cases (u64 (alignUp size sizeofMemoryBlock + sizeofMemoryBlock)) regularPageSize
  simp only [heapPages, regularPageSize] at h ⊢
  omega

/-- The pages hold the block and its header, unless their number wraps to zero. -/
theorem heapPages_cases (hsize : size ≤ 2 ^ 64 - 32) : heapPages size = 0 ∨
    alignUp size sizeofMemoryBlock + 32 ≤ heapPages size * 4096 ∧
      heapPages size * 4096 < alignUp size sizeofMemoryBlock + 32 + 4096 := by
  have hle := (alignUp_block hsize).2.2.2
  have h := alignUp_cases (u64 (alignUp size sizeofMemoryBlock + sizeofMemoryBlock)) regularPageSize
  unfold heapPages
  generalize alignUp size sizeofMemoryBlock = aligned at hle h ⊢
  simp only [sizeofMemoryBlock, regularPageSize, u64] at h ⊢
  omega

/-- A block that holds the request fits into as many pages. -/
theorem heapPages_le {block : Nat} (hsize : size ≤ block) (hdvd : 32 ∣ block)
    (hfits : block + 32 ≤ count * 4096) (hcount : count ≤ 2 ^ 40) :
    size ≤ 2 ^ 64 - 32 ∧ heapPages size ≤ count := by
  have hsize64 : size ≤ 2 ^ 64 - 32 := by omega
  obtain ⟨hmult, -, hlt, -⟩ := alignUp_block hsize64
  rcases heapPages_cases hsize64 with hzero | ⟨-, hpages⟩
  · exact ⟨hsize64, by omega⟩
  · exact ⟨hsize64, by omega⟩

end Rounding

/-! ## More pages than there are -/

/-- Where a large block of `n` pages is put when there are fewer. -/
def strayBlock (offset n : Nat) : Nat := u64 (2 ^ 64 - n * regularPageSize + offset)

section Stray
variable {p : Pmm} {n : Nat}

theorem pmmAllocPages_stray (hp : p.pageCount ≤ 2 ^ 40) (hn : p.pageCount < n) (hlt : n < 2 ^ 52) :
    pmmAllocPages p n = .ok (2 ^ 64 - n * regularPageSize, p) := by
  have hwraps : p.WrapsAt n (2 ^ 64 - n) := by
    refine ⟨by omega, fun hlow => absurd hlow (by omega), fun j hj hwraps => by omega⟩
  have haddr : u64 ((2 ^ 64 - n) * regularPageSize) = 2 ^ 64 - n * regularPageSize := by
    simp only [u64, regularPageSize]
    omega
  rw [pmmAllocPages_beyond hn (by omega) hwraps, haddr]

theorem pmmAllocPagesHhdm_stray (hp : p.pageCount ≤ 2 ^ 40) (hn : p.pageCount < n)
    (hlt : n < 2 ^ 52) : pmmAllocPagesHhdm p n = .ok (strayBlock p.gHhdmOffset n, p) := by
  rw [pmmAllocPagesHhdm_eq (pmmAllocPages_stray hp hn hlt), if_pos]
  · rfl
  · simp only [regularPageSize]
    omega

theorem strayBlock_eq_zero {offset : Nat} (hn : 0 < n) (hlt : n < 2 ^ 52) (hoffset : offset ≤ 2 ^ 64) :
    strayBlock offset n = 0 ↔ n * regularPageSize = offset := by
  simp only [strayBlock, u64, regularPageSize]
  omega

end Stray

/-! ## What the heap serves -/

section Served
variable {count offset size : Nat} {base : Nat → Prop} {k : Kernel Pmm} {held : List (Nat × Nat)}
  {live free supers : List Nat}

/-- A block is not larger than the memory. -/
theorem HeapInv.extent_le {x : Nat} (H : HeapInv k held live free supers)
    (h : PmmHeld count offset base k.pmm held) (hx : x ∈ free ++ supers ++ live) :
    blockExtent k.mem x ≤ count * regularPageSize := by
  obtain ⟨r, hr, h1, h2⟩ := H.extent hx
  obtain ⟨i, -, -, hcount⟩ := h.range r hr
  have hle := Nat.mul_le_mul_right regularPageSize (show r.2 ≤ count by omega)
  omega

theorem Served.heapPages_le {p : Nat} {k' : Kernel Pmm} (hcount : count ≤ 2 ^ 40)
    (h : HeapInv.Served (PmmHeld count offset base) k held live size p k') :
    size ≤ 2 ^ 64 - 32 ∧ heapPages size ≤ count := by
  obtain ⟨x, held', free', supers', -, H, hheld, -, hsize, -⟩ := h
  have hx : x ∈ free' ++ supers' ++ x :: live := by simp
  have hextent := H.extent_le hheld hx
  simp only [blockExtent, sizeofMemoryBlock, regularPageSize] at hextent
  exact TrazelOs.heapPages_le hsize (H.size x hx).1 (by omega) hcount

/-- `kmalloc` panics, or it returns a live block of the size that was asked for. -/
def KmallocServes (count offset : Nat) (base : Nat → Prop) (k : Kernel Pmm) (held : List (Nat × Nat))
    (live : List Nat) (size : Nat) : Prop :=
  (kmalloc pmmBitmap k size).Panics ∨ ∃ p k', kmalloc pmmBitmap k size = .ok (p, k') ∧
    HeapInv.Served (PmmHeld count offset base) k held live size p k'

/-- The first block of a list is large enough for nothing. -/
theorem findBigEnoughBlock_zero (m : Memory) (head : Nat) :
    findBigEnoughBlock m 0 (2 ^ 64) head = .ok head := by
  rw [show 2 ^ 64 = 2 ^ 64 - 1 + 1 from rfl, findBigEnoughBlock]
  split
  · rename_i h
    rw [h]
  · exact if_pos (Nat.zero_le _)

theorem removeMemoryBlockFromList_head {block : Nat}
    (h : block = k.gFreeBlocks ∨ block = k.gSuperBlocks) :
    ∃ k', removeMemoryBlockFromList k block = .ok k' := by
  unfold removeMemoryBlockFromList
  by_cases hprev : blockPrev k.mem block = 0
  · rw [if_pos hprev]
    by_cases hfree : block = k.gFreeBlocks
    · rw [if_pos hfree]
      dsimp only
      split_ifs <;> exact ⟨_, rfl⟩
    · rw [if_neg hfree, if_pos (h.resolve_left hfree)]
      dsimp only
      split_ifs <;> exact ⟨_, rfl⟩
  · rw [if_neg hprev]
    dsimp only
    split_ifs <;> exact ⟨_, rfl⟩

theorem replaceMemoryBlockInList_head {block : Nat} (newBlock : Nat)
    (h : block = k.gFreeBlocks ∨ block = k.gSuperBlocks) :
    ∃ k', replaceMemoryBlockInList k block newBlock = .ok k' := by
  unfold replaceMemoryBlockInList
  dsimp only
  generalize setBlockPrev (setBlockNext k.mem newBlock (blockNext k.mem block)) newBlock
    (blockPrev (setBlockNext k.mem newBlock (blockNext k.mem block)) block) = m
  have hend : ∀ k₁ : Kernel Pmm, ∃ k', (if blockNext k₁.mem newBlock ≠ 0 then
      (pure { k₁ with mem := setBlockPrev k₁.mem (blockNext k₁.mem newBlock) newBlock } : Exec _)
      else if block = k₁.gFreeBlockTail then pure { k₁ with gFreeBlockTail := newBlock }
      else pure k₁) = .ok k' := by
    intro k₁
    split_ifs <;> exact ⟨_, rfl⟩
  by_cases hprev : blockPrev m newBlock ≠ 0
  · rw [if_pos hprev, Exec.pure_eq_ok, Exec.ok_bind]
    exact hend _
  · rw [if_neg hprev]
    by_cases hfree : block = k.gFreeBlocks
    · rw [if_pos hfree, Exec.pure_eq_ok, Exec.ok_bind]
      exact hend _
    · rw [if_neg hfree, if_pos (h.resolve_left hfree), Exec.pure_eq_ok, Exec.ok_bind]
      exact hend _

theorem mallocFromBlock_zero {block : Nat} (h : block = k.gFreeBlocks ∨ block = k.gSuperBlocks) :
    ∃ r, mallocFromBlock k block 0 = .ok r := by
  rw [mallocFromBlock, kernelAssert_ok (Nat.zero_le _), Exec.ok_bind]
  split
  · obtain ⟨k', hk'⟩ := removeMemoryBlockFromList_head h
    rw [hk']
    exact ⟨_, rfl⟩
  · dsimp only
    obtain ⟨k', hk'⟩ := replaceMemoryBlockInList_head (k := { k with
      mem := setBlockSize k.mem (u64 (getMemoryBlockBuffer block + 0))
        (u64Sub (blockSize k.mem block) (u64 (0 + sizeofMemoryBlock))) })
      (u64 (getMemoryBlockBuffer block + 0)) h
    rw [hk']
    exact ⟨_, rfl⟩

/-- There is no block in the lists and no free page. -/
def HeapExhausted (k : Kernel Pmm) : Prop :=
  k.gFreeBlocks = 0 ∧ k.gSuperBlocks = 0 ∧ ∀ i, ¬k.pmm.FreeRun i 1

section Pages
variable (D : DirectMapFits count offset) (h : PmmHeld count offset base k.pmm held)
include D h

theorem PmmHeld.allocPagesHhdm {n : Nat} (hn : 0 < n) (hle : n ≤ count) :
    (pmmAllocPagesHhdm k.pmm n = .ok (0, k.pmm) ∧ ∀ i, ¬k.pmm.FreeRun i n) ∨
      (∃ i, k.pmm.FreeRun i n) ∧ ∃ a p, a ≠ 0 ∧ pmmAllocPagesHhdm k.pmm n = .ok (a, p) := by
  have hpages := D.pages
  have hcount := h.pageCount_eq
  rcases pmmAllocPages_spec (p := k.pmm) (by omega) hn (by omega) with
    ⟨halloc, hnone⟩ | ⟨i, hi, -, halloc⟩
  · exact .inl ⟨pmmAllocPagesHhdm_eq halloc, hnone⟩
  · obtain ⟨hne, haddr⟩ := h.direct D hi hn
    have halloc := pmmAllocPagesHhdm_eq halloc
    rw [Pmm.setBits_gHhdmOffset, if_pos hne, haddr] at halloc
    exact .inr ⟨⟨i, hi⟩, _, _, by omega, halloc⟩

/-- A size that wraps to zero is served from the first block there is. -/
theorem kmalloc_wrapped (hcount : 0 < count) (hsize : 2 ^ 64 - 32 < size) (hlt : size < 2 ^ 64) :
    HeapExhausted k ∧ (kmalloc pmmBitmap k size).Panics ∨
      ¬HeapExhausted k ∧ ∃ p k', kmalloc pmmBitmap k size = .ok (p, k') := by
  have hserve : ∀ {k' : Kernel Pmm} {block}, block = k'.gFreeBlocks ∨ block = k'.gSuperBlocks →
      ∃ p k'', mallocFromBlock k' block 0 = .ok (p, k'') := fun hblock => by
    obtain ⟨r, hr⟩ := mallocFromBlock_zero hblock
    exact ⟨r.1, r.2, hr⟩
  rw [kmalloc, kernelAssert_ok (by omega), Exec.ok_bind, alignUp_block_wraps hsize hlt]
  dsimp only
  rw [if_neg (by decide), findBigEnoughBlock_zero, Exec.ok_bind]
  by_cases hfree : k.gFreeBlocks ≠ 0
  · rw [if_pos hfree]
    exact .inr ⟨fun h => hfree h.1, hserve (.inl rfl)⟩
  rw [if_neg hfree, findBigEnoughBlock_zero, Exec.ok_bind]
  by_cases hsuper : k.gSuperBlocks ≠ 0
  · rw [if_pos hsuper]
    exact .inr ⟨fun h => hsuper h.2.1, hserve (.inr rfl)⟩
  rw [if_neg hsuper]
  push Not at hfree hsuper
  rcases h.allocPagesHhdm D Nat.one_pos hcount with ⟨halloc, hnone⟩ | ⟨⟨i, hi⟩, a, p, hne, halloc⟩
  · rcases addSuperBlock_total (A := pmmBitmap) halloc (show 0 ≤ 4064 by decide) with
      ⟨hne, -⟩ | ⟨-, msg, hadd⟩
    · exact absurd rfl hne
    · rw [hadd]
      exact .inl ⟨⟨hfree, hsuper, hnone⟩, msg, rfl⟩
  · rcases addSuperBlock_total (A := pmmBitmap) halloc (show 0 ≤ 4064 by decide) with
      ⟨-, k', hadd, -⟩ | ⟨hzero, -⟩
    · rw [hadd, Exec.ok_bind]
      exact .inr ⟨fun h => h.2.2 i hi, hserve (.inr rfl)⟩
    · exact absurd hzero hne

theorem kmalloc_fits (H : HeapInv k held live free supers) (hpos : 1 ≤ size)
    (hsize : size ≤ 2 ^ 64 - 32) (hfits : heapPages size ≤ count) :
    KmallocServes count offset base k held live size := by
  have hpages := D.pages
  rcases heapPages_cases hsize with hzero | ⟨hle, -⟩
  · -- The page allocator does not accept a count of zero.
    have hlarge : 4064 < alignUp size sizeofMemoryBlock := by
      by_contra hsmall
      have := heapPages_small hpos hsize (by omega)
      omega
    left
    rw [kmalloc_large hpos hlarge]
    unfold mallocLargeblock
    rw [heapPages] at hzero
    dsimp only
    rw [hzero]
    exact ⟨_, rfl⟩
  · have hge := (alignUp_block hsize).2.1
    have halloc : ∃ a p, pmmBitmap.pmmAllocPagesHhdm k.pmm (heapPages size) = .ok (a, p) := by
      rcases h.allocPagesHhdm D (show 0 < heapPages size by omega) hfits with
        ⟨halloc, -⟩ | ⟨-, a, p, -, halloc⟩
      · exact ⟨_, _, halloc⟩
      · exact ⟨a, p, halloc⟩
    obtain ⟨a, p, halloc⟩ := halloc
    rcases H.kmalloc_total (pmmBitmap_lawful D) h hpos (by omega) hfits halloc with
      ⟨p, k', hret, -⟩ | ⟨-, hpanics⟩
    · exact .inr ⟨p, k', hret, H.kmalloc_spec (pmmBitmap_lawful D) h hpos (by omega) hfits hret⟩
    · exact .inl hpanics

/-- `kmalloc` keeps its promise for the sizes whose pages exist, and where it notices that it cannot:
the number of pages wraps to zero, or the address of the block does. -/
theorem kmalloc_served_iff (H : HeapInv k held live free supers) (hcount : 0 < count)
    (hpos : 1 ≤ size) (hlt : size < 2 ^ 64) :
    KmallocServes count offset base k held live size ↔
      if size ≤ 2 ^ 64 - 32 then heapPages size ≤ count ∨ heapPages size * regularPageSize = offset
      else HeapExhausted k := by
  have hpages := D.pages
  have heq := h.pageCount_eq
  by_cases hsize : size ≤ 2 ^ 64 - 32
  · rw [if_pos hsize]
    by_cases hfits : heapPages size ≤ count
    · refine iff_of_true ?_ (.inl hfits)
      exact kmalloc_fits D h H hpos hsize hfits
    · have hlarge : 4064 < alignUp size sizeofMemoryBlock := by
        by_contra hsmall
        have := heapPages_small hpos hsize (by omega)
        omega
      have hret := mallocLargeblock_eq (A := pmmBitmap) (k := k)
        (pmmAllocPagesHhdm_stray (p := k.pmm) (n := heapPages size) (by omega) (by omega) heapPages_lt)
      have hzero := strayBlock_eq_zero (n := heapPages size) (by omega) heapPages_lt
        (show offset ≤ 2 ^ 64 by have := D.word; omega)
      rw [← kmalloc_large hpos hlarge, h.offset_eq] at hret
      rw [or_iff_right hfits, ← hzero]
      by_cases ha : strayBlock offset (heapPages size) = 0
      · rw [if_pos ha] at hret
        exact iff_of_true (.inl ⟨_, hret⟩) ha
      · rw [if_neg ha] at hret
        refine iff_of_false ?_ ha
        rintro (⟨msg, hpanics⟩ | ⟨p, k', -, hserved⟩)
        · rw [hret] at hpanics
          cases hpanics
        · exact hfits (Served.heapPages_le hpages hserved).2
  · rw [if_neg hsize]
    rcases kmalloc_wrapped D h hcount (Nat.lt_of_not_le hsize) hlt with
      ⟨hnone, hpanics⟩ | ⟨hsome, p, k', hret⟩
    · exact iff_of_true (.inl hpanics) hnone
    · refine iff_of_false ?_ hsome
      rintro (⟨msg, hpanics⟩ | ⟨p, k', -, hserved⟩)
      · rw [hret] at hpanics
        cases hpanics
      · exact hsize (Served.heapPages_le hpages hserved).1

end Pages

end Served

/-- A kernel with eight pages, of which the first is not for use, before the heap is set up. -/
def eightFrames : Kernel Pmm := ⟨fun _ => 0, 0, eightPagePmm, 0, 0, 0, 0⟩

theorem eightFrames_fits : DirectMapFits 8 0 := ⟨by decide, by decide, by decide⟩

theorem eightFrames_held : PmmHeld 8 0 (· = 0) eightFrames.pmm [] where
  pageCount_eq := rfl
  offset_eq := rfl
  used := by
    simp only [HeldFrame, InPages, List.not_mem_nil, false_and, exists_false, or_false]
    decide
  null := rfl
  range := by simp
  sep := by simp [HeldFrame, InPages]
  apart := .nil

theorem kmalloc_served_eightFrames : ∃ k a, initKernelHeap pmmBitmap eightFrames = .ok k ∧
    KmallocServes 8 0 (· = 0) k [(a, 1)] [] 24 := by
  obtain ⟨k, hinit⟩ : ∃ k, initKernelHeap pmmBitmap eightFrames = .ok k := ⟨_, rfl⟩
  obtain ⟨a, H, hheld, -⟩ := HeapInv.initKernelHeap_spec (pmmBitmap_lawful eightFrames_fits)
    eightFrames_held rfl rfl hinit
  exact ⟨k, a, hinit, (kmalloc_served_iff eightFrames_fits hheld H (by decide) (by decide)
    (by decide)).mpr (by rw [if_pos (by decide)]; exact .inl (by decide))⟩

/-- The largest size is served with an empty block. -/
theorem kmalloc_largest : ∃ k p k', initKernelHeap pmmBitmap eightFrames = .ok k ∧
    kmalloc pmmBitmap k (2 ^ 64 - 1) = .ok (p, k') ∧ blockSize k'.mem (u64Sub p 32) = 0 := by
  refine ⟨_, _, _, rfl, rfl, ?_⟩
  decide +kernel

end TrazelOs
