import TrazelOs.Verify.Heap
import TrazelOs.Verify.Pmm

/-! # The heap on the bitmap

The pages that the bitmap has marked are those of the heap and those of the rest of the machine.
Requests for pages succeed as long as there is a long enough run of free pages, and the lowest run
is taken, so that what is left of a run is as long as can be expected. -/

namespace TrazelOs

/-! ## Room -/

/-- There are `n` free pages in a row. -/
def Pmm.Room (p : Pmm) (n : Nat) : Prop := ∃ i, p.FreeRun i n

namespace Pmm
variable {p : Pmm} {i n r : Nat}

theorem FreeRun.mono (h : p.FreeRun i n) (hle : r ≤ n) : p.FreeRun i r :=
  ⟨by have := h.1; omega, fun j h1 h2 => h.2 j h1 (by omega)⟩

theorem Room.mono (h : p.Room n) (hle : r ≤ n) : p.Room r := by
  obtain ⟨i, hi⟩ := h
  exact ⟨i, hi.mono hle⟩

/-- The lowest run of `n` pages leaves all but `n` pages of a run. -/
theorem Room.take (h : p.Room (r + n)) (hlow : ∀ j < i, ¬p.FreeRun j n) :
    (p.setBits (List.range' i n) true).Room r := by
  obtain ⟨a, ha⟩ := h
  have hle : i ≤ a := Nat.le_of_not_lt fun hlt => hlow a hlt (ha.mono (by omega))
  have hrun : ∀ b, i + n ≤ b → a ≤ b → b + r ≤ a + (r + n) →
      (p.setBits (List.range' i n) true).FreeRun b r := by
    intro b h1 h2 h3
    refine ⟨by rw [setBits_pageCount]; have := ha.1; omega, fun j h4 h5 => ?_⟩
    rw [used_setBits_of_notMem (by rw [List.mem_range'_1]; omega)]
    exact ha.2 j (by omega) (by omega)
  by_cases hbefore : i + n ≤ a
  · exact ⟨a, hrun a hbefore (Nat.le_refl a) (by omega)⟩
  · exact ⟨i + n, hrun (i + n) (Nat.le_refl _) (by omega) (by omega)⟩

theorem Room.release {ks : List Nat} (h : p.Room n) : (p.setBits ks false).Room n := by
  obtain ⟨i, hi⟩ := h
  refine ⟨i, by rw [setBits_pageCount]; exact hi.1, fun j h1 h2 => ?_⟩
  rw [used_setBits]
  split
  · rfl
  · exact hi.2 j h1 h2

theorem Room.pages_le (h : p.Room n) : n ≤ p.pageCount := by
  obtain ⟨i, hi⟩ := h
  have := hi.1
  omega

theorem Room.allocPages (h : p.Room (r + n)) (hp : p.pageCount ≤ 2 ^ 52) (hn : 0 < n) :
    ∃ i, p.FreeRun i n ∧
      pmmAllocPages p n = .ok (i * regularPageSize, p.setBits (List.range' i n) true) ∧
      (p.setBits (List.range' i n) true).Room r := by
  rcases pmmAllocPages_spec hp hn (h.mono (Nat.le_add_left n r)).pages_le with
    ⟨-, hnone⟩ | ⟨i, hi, hlow, halloc⟩
  · obtain ⟨a, ha⟩ := h
    exact absurd (ha.mono (Nat.le_add_left n r)) (hnone a)
  · exact ⟨i, hi, halloc, h.take hlow⟩

end Pmm

/-! ## The pages of the heap -/

/-- Page `f` of the direct map at `offset` is one of the pages. -/
def HeldFrame (offset : Nat) (held : List (Nat × Nat)) (f : Nat) : Prop :=
  InPages held (f * regularPageSize + offset)

/-- Of `count` pages the heap holds `held`, and the others that are used are those of `base`. -/
structure PmmHeld (count offset : Nat) (base : Nat → Prop) (p : Pmm) (held : List (Nat × Nat)) :
    Prop where
  pageCount_eq : p.pageCount = count
  offset_eq : p.gHhdmOffset = offset
  used : ∀ f < count, p.used f = true ↔ base f ∨ HeldFrame offset held f
  null : base 0
  range : ∀ r ∈ held, ∃ i, r.1 = i * regularPageSize + offset ∧ 0 < r.2 ∧ i + r.2 ≤ count
  sep : ∀ f, base f → ¬HeldFrame offset held f
  apart : held.Pairwise Apart

/-- The direct map of `count` pages at `offset` fits into the address space. -/
structure DirectMapFits (count offset : Nat) : Prop where
  word : count * regularPageSize + offset ≤ 2 ^ 64
  pages : count ≤ 2 ^ 40
  aligned : regularPageSize ∣ offset

section Held
variable {count offset f i n : Nat} {base : Nat → Prop} {p : Pmm} {held : List (Nat × Nat)}

theorem heldFrame_iff {r : Nat × Nat} (hr : r.1 = i * regularPageSize + offset) :
    (r.1 ≤ f * regularPageSize + offset ∧ f * regularPageSize + offset < r.1 + r.2 * regularPageSize) ↔
      i ≤ f ∧ f < i + r.2 := by
  rw [hr]
  simp only [regularPageSize]
  omega

theorem heldFrame_cons : HeldFrame offset ((i * regularPageSize + offset, n) :: held) f ↔
    (i ≤ f ∧ f < i + n) ∨ HeldFrame offset held f := by
  unfold HeldFrame InPages
  rw [List.exists_mem_cons_iff, heldFrame_iff rfl]

theorem Pmm.used_setBits_range {v : Bool} (hf : f < p.pageCount) :
    (p.setBits (List.range' i n) v).used f = if i ≤ f ∧ f < i + n then v else p.used f := by
  simp only [Pmm.used_setBits, List.mem_range'_1, hf, and_true]

namespace PmmHeld
variable (D : DirectMapFits count offset) (h : PmmHeld count offset base p held)
include D h

/-- A run of free pages is handed out. -/
theorem grants (hi : p.FreeRun i n) (hn : 0 < n) :
    Grants (PmmHeld count offset base) held n (i * regularPageSize + offset)
      (p.setBits (List.range' i n) true) := by
  have hcount : i + n ≤ count := h.pageCount_eq ▸ hi.1
  have hfree : ∀ f, i ≤ f → f < i + n → ¬(base f ∨ HeldFrame offset held f) := fun f h1 h2 hf =>
    absurd ((h.used f (by omega)).mpr hf) (by rw [hi.2 f h1 h2]; decide)
  have hne : i ≠ 0 := by
    rintro rfl
    exact hfree 0 (Nat.le_refl 0) (by omega) (.inl h.null)
  have hword := D.word
  have hapart : ∀ r ∈ held, Apart (i * regularPageSize + offset, n) r := by
    intro r hr
    obtain ⟨j, hj, hpos, -⟩ := h.range r hr
    by_contra hcon
    -- The later of the two beginnings would be in both ranges.
    refine hfree (max i j) (Nat.le_max_left ..) ?_ (.inr ⟨r, hr, (heldFrame_iff hj).mpr ?_⟩) <;>
    · rw [Apart, hj, not_or] at hcon
      simp only [regularPageSize] at hcon
      omega
  refine .inr ⟨?_, ?_, ?_, hapart, ?_⟩
  · simp only [regularPageSize]
    omega
  · exact Nat.dvd_add (Nat.dvd_mul_left ..) D.aligned
  · have hle := Nat.mul_le_mul_right regularPageSize hcount
    rw [Nat.add_mul] at hle
    omega
  · refine ⟨by rw [Pmm.setBits_pageCount, h.pageCount_eq], by rw [Pmm.setBits_gHhdmOffset, h.offset_eq],
      fun f hf => ?_, h.null, List.forall_mem_cons.mpr ⟨⟨i, rfl, hn, hcount⟩, h.range⟩,
      fun f hf hheld => ?_, List.pairwise_cons.mpr ⟨hapart, h.apart⟩⟩
    · rw [heldFrame_cons, Pmm.used_setBits_range (h.pageCount_eq ▸ hf)]
      by_cases hin : i ≤ f ∧ f < i + n
      · rw [if_pos hin]
        exact iff_of_true rfl (.inr (.inl hin))
      · rw [if_neg hin, h.used f hf, or_iff_right hin]
    · rcases heldFrame_cons.mp hheld with hin | hheld
      · exact hfree f hin.1 hin.2 (.inl hf)
      · exact h.sep f hf hheld

omit D in
/-- Pages that are given back are free. -/
theorem release (hr : (i * regularPageSize + offset, n) ∈ held) :
    PmmHeld count offset base (p.setBits (List.range' i n) false)
      (held.erase (i * regularPageSize + offset, n)) := by
  obtain ⟨j, hj, hpos, hcount⟩ := h.range _ hr
  obtain rfl : i = j := by
    simp only [regularPageSize] at hj
    omega
  have hperm := List.perm_cons_erase hr
  have hapart := List.pairwise_cons.mp (h.apart.perm hperm fun h => Or.symm h)
  have hheld : ∀ f, HeldFrame offset held f ↔ (i ≤ f ∧ f < i + n) ∨
      HeldFrame offset (held.erase (i * regularPageSize + offset, n)) f := fun f => by
    rw [← heldFrame_cons]
    exact exists_congr fun r => and_congr_left fun _ => hperm.mem_iff
  have hrest : ∀ f, i ≤ f → f < i + n →
      ¬HeldFrame offset (held.erase (i * regularPageSize + offset, n)) f := by
    rintro f h1 h2 ⟨r, hr, h3, h4⟩
    have := hapart.1 r hr
    simp only [Apart, regularPageSize] at this h3 h4
    omega
  refine ⟨by rw [Pmm.setBits_pageCount, h.pageCount_eq], by rw [Pmm.setBits_gHhdmOffset, h.offset_eq],
    fun f hf => ?_, h.null, fun r hr => h.range r (List.mem_of_mem_erase hr),
    fun f hf hrest => h.sep f hf ((hheld f).mpr (.inr hrest)), hapart.2⟩
  rw [Pmm.used_setBits_range (h.pageCount_eq ▸ hf)]
  by_cases hin : i ≤ f ∧ f < i + n
  · rw [if_pos hin]
    refine iff_of_false (by decide) ?_
    rintro (hbase | hf)
    · exact h.sep f hbase ((hheld f).mpr (.inl hin))
    · exact hrest f hin.1 hin.2 hf
  · rw [if_neg hin, h.used f hf, hheld f, or_iff_right hin]

end PmmHeld

theorem pmmAllocPagesHhdm_eq {a : Nat} {p' : Pmm} (h : pmmAllocPages p n = .ok (a, p')) :
    pmmAllocPagesHhdm p n = .ok (if a ≠ 0 then u64 (a + p'.gHhdmOffset) else a, p') := by
  rw [pmmAllocPagesHhdm, h]
  rfl

variable (D : DirectMapFits count offset)
include D

theorem PmmHeld.direct (h : PmmHeld count offset base p held) (hi : p.FreeRun i n) (hn : 0 < n) :
    i * regularPageSize ≠ 0 ∧
      u64 (i * regularPageSize + p.gHhdmOffset) = i * regularPageSize + offset := by
  have hword := D.word
  have hle := Nat.mul_le_mul_right regularPageSize (show i + 1 ≤ count from h.pageCount_eq ▸ by
    have := hi.1; omega)
  have hne : i ≠ 0 := by
    rintro rfl
    have hzero := hi.2 0 (Nat.le_refl 0) (by omega)
    rw [(h.used 0 (by have := hi.1; have := h.pageCount_eq; omega)).mpr (.inl h.null)] at hzero
    cases hzero
  refine ⟨by simp only [regularPageSize]; omega, ?_⟩
  rw [h.offset_eq]
  simp only [regularPageSize] at hle hword ⊢
  exact u64_of_lt (by omega)

/-- What an allocation of the bitmap hands out, named by its address in the direct map. -/
theorem PmmHeld.allocated {result : Exec (Nat × Pmm)} {a : Nat} {p' : Pmm}
    (h : PmmHeld count offset base p held) (hn : 0 < n)
    (hspec : (result = .ok (0, p) ∧ ∀ i, ¬p.FreeRun i n) ∨
      ∃ i, p.FreeRun i n ∧ (∀ j < i, ¬p.FreeRun j n) ∧
        result = .ok (i * regularPageSize, p.setBits (List.range' i n) true))
    (hret : (do
      let (pages, p) ← result
      return (if pages ≠ 0 then u64 (pages + p.gHhdmOffset) else pages, p)) = .ok (a, p')) :
    Grants (PmmHeld count offset base) held n a p' := by
  rcases hspec with ⟨rfl, -⟩ | ⟨i, hi, -, rfl⟩
  · cases hret
    exact .inl ⟨rfl, h⟩
  · obtain ⟨hne, haddr⟩ := h.direct D hi hn
    have hgrants := h.grants D hi hn
    rw [Exec.ok_bind] at hret
    dsimp only at hret
    rw [Pmm.setBits_gHhdmOffset, if_pos hne, haddr] at hret
    cases hret
    exact hgrants

theorem PmmHeld.freePages_eq {a : Nat} (h : PmmHeld count offset base p held) (hmem : (a, n) ∈ held) :
    ∃ i, a = i * regularPageSize + offset ∧
      pmmFreePages p (u64Sub a offset) n = .ok (p.setBits (List.range' i n) false) := by
  obtain ⟨i, hi, hpos, hle⟩ := h.range _ hmem
  dsimp only at hi hpos hle
  subst hi
  have hcount := D.pages
  have hword := D.word
  have heq := h.pageCount_eq
  have haddr := Nat.mul_le_mul_right regularPageSize (show i + 1 ≤ count by omega)
  have hsub : u64Sub (i * regularPageSize + offset) offset = i * regularPageSize := by
    simp only [regularPageSize] at haddr hword ⊢
    unfold u64Sub u64
    omega
  refine ⟨i, rfl, ?_⟩
  rw [hsub]
  exact pmmFreePages_spec (by omega) (by omega)

theorem pmmBitmap_lawful : pmmBitmap.Lawful offset (· ≤ count) (PmmHeld count offset base) where
  allocPage h hret := by
    have hcount := D.pages
    exact h.allocated D Nat.one_pos (pmmAllocPage_spec (by have := h.pageCount_eq; omega)) hret
  allocPages h hn hle hret := by
    have hcount := D.pages
    have heq := h.pageCount_eq
    exact h.allocated D hn (pmmAllocPages_spec (by omega) hn (by omega)) hret
  freePages h hmem hret := by
    obtain ⟨i, rfl, hfree⟩ := h.freePages_eq D hmem
    cases hfree.symm.trans hret
    exact h.release hmem

end Held

/-! ## Requests that return -/

/-- The program ends in `kernel_panic`. -/
def Exec.Panics (x : Exec α) : Prop := ∃ msg, x = .error (.panic msg)

section Total
variable {σ : Type} {A : PageAllocator σ} {offset size : Nat} {Fits : Nat → Prop}
  {Held : σ → List (Nat × Nat) → Prop} {k : Kernel σ} {held : List (Nat × Nat)}
  {live free supers : List Nat}

/-- The header that `malloc_largeblock` writes. -/
def largeHeader (m : Memory) (block size : Nat) : Memory :=
  setBlockSize (setBlockPadding (setLinks m block 0 0) block 0) block size

theorem mallocLargeblock_eq {a : Nat} {s : σ}
    (halloc : A.pmmAllocPagesHhdm k.pmm
      (alignUp (u64 (size + sizeofMemoryBlock)) regularPageSize / regularPageSize) = .ok (a, s)) :
    mallocLargeblock A k size =
      if a = 0 then .error (.panic "Kernel does not have enough memory to allocate that")
      else .ok (getMemoryBlockBuffer a, { k with
        mem := largeHeader k.mem a
          (u64Sub (alignUp (u64 (size + sizeofMemoryBlock)) regularPageSize) sizeofMemoryBlock)
        pmm := s }) := by
  unfold mallocLargeblock
  dsimp only
  rw [halloc, Exec.ok_bind]
  dsimp only
  by_cases ha : a = 0
  · rw [if_pos ha, kernelAssert, if_neg (not_not.mpr ha)]
    rfl
  · rw [if_neg ha, kernelAssert_ok ha, Exec.ok_bind]
    rfl

theorem addSuperBlock_total {a : Nat} {s : σ}
    (halloc : A.pmmAllocPagesHhdm k.pmm 1 = .ok (a, s)) (hfit : size ≤ 4064) :
    (a ≠ 0 ∧ ∃ k', addSuperBlock A k size = .ok k' ∧ k'.pmm = s) ∨
      a = 0 ∧ (addSuperBlock A k size).Panics := by
  have hcount : divRoundUp (u64 (size + sizeofMemoryBlock)) regularPageSize = 1 := by
    simp only [divRoundUp, sizeofMemoryBlock, regularPageSize, u64Sub, u64]
    omega
  unfold addSuperBlock
  dsimp only
  rw [hcount, halloc, Exec.ok_bind]
  dsimp only
  by_cases ha : a = 0
  · rw [kernelAssert, if_neg (not_not.mpr ha)]
    exact .inr ⟨ha, _, rfl⟩
  · rw [kernelAssert_ok ha, Exec.ok_bind]
    exact .inl ⟨ha, _, rfl, rfl⟩

/-- `kmalloc` returns, or the page allocator has nothing for it and it panics. -/
theorem HeapInv.kmalloc_total {a : Nat} {s : σ} (hA : A.Lawful offset Fits Held)
    (H : HeapInv k held live free supers) (hheld : Held k.pmm held) (hpos : 1 ≤ size)
    (hle : size ≤ 2 ^ 63) (hfits : Fits (heapPages size))
    (halloc : A.pmmAllocPagesHhdm k.pmm (heapPages size) = .ok (a, s)) :
    (∃ p k', kmalloc A k size = .ok (p, k') ∧ (k'.pmm = k.pmm ∨ k'.pmm = s)) ∨
      a = 0 ∧ (kmalloc A k size).Panics := by
  obtain ⟨hdvd, hge, -, -⟩ := alignUp_block (show size ≤ 2 ^ 64 - 32 by omega)
  by_cases hlarge : 4064 < alignUp size sizeofMemoryBlock
  · rw [kmalloc_large hpos hlarge, mallocLargeblock_eq halloc]
    by_cases ha : a = 0
    · rw [if_pos ha]
      exact .inr ⟨ha, _, rfl⟩
    · rw [if_neg ha]
      exact .inl ⟨_, _, rfl, .inr rfl⟩
  have hsmall := Nat.le_of_not_lt hlarge
  rw [heapPages_small hpos (by omega) hsmall] at hfits halloc
  rcases H.kmalloc_small (A := A) hpos hsmall with ⟨x, hx, -, hfit, heq⟩ | ⟨-, heq⟩
  · obtain ⟨k', free', supers', hret, -, -, -, hsame, -⟩ :=
      H.mallocFromBlock_spec hx (by omega) hdvd hfit
    exact .inl ⟨_, k', heq.trans hret, .inl hsame.1⟩
  · rw [heq]
    rcases addSuperBlock_total halloc hsmall with ⟨-, k₁, hadd, hpmm⟩ | ⟨ha, msg, hadd⟩
    · obtain ⟨b, H₁, -, -, hhead, hfit, -⟩ := H.addSuperBlock_spec hA hheld hfits hsmall hadd
      obtain ⟨k₂, free', supers', hret, -, -, -, hsame, -⟩ :=
        H₁.mallocFromBlock_spec (x := b) (by simp) (by omega) hdvd hfit
      rw [hadd, Exec.ok_bind, hhead]
      exact .inl ⟨_, k₂, hret, .inr (hsame.1.trans hpmm)⟩
    · rw [hadd]
      exact .inr ⟨ha, msg, rfl⟩

end Total

/-! ## The heap and the rest -/

/-- A byte of page `f`. -/
def InFrame (offset f b : Nat) : Prop :=
  f * regularPageSize + offset ≤ b ∧ b < f * regularPageSize + offset + regularPageSize

/-- A byte of one of the pages. -/
def FrameBytes (offset : Nat) (frames : Nat → Prop) (b : Nat) : Prop := ∃ f, frames f ∧ InFrame offset f b

/-- The heap has the live blocks `live`, and the used pages that are not its own are those of
`base`. -/
structure KernelHeap (count offset : Nat) (base : Nat → Prop) (k : Kernel Pmm) (live : List Nat) :
    Prop where
  offset_eq : k.gHhdmOffset = offset
  heap : ∃ held free supers, HeapInv k held live free supers ∧ PmmHeld count offset base k.pmm held

/-- The bytes of the pages of `base` and of the live blocks are the same. -/
structure HeapKeeps (offset : Nat) (base : Nat → Prop) (live : List Nat) (k k' : Kernel Pmm) : Prop where
  frames : Theory.ByteMemory.AgreeOn (FrameBytes offset base) k.mem k'.mem
  payload : ∀ x ∈ live, ∀ b, InPayload k.mem x b → k'.mem b = k.mem b
  size : ∀ x ∈ live, blockSize k'.mem x = blockSize k.mem x

section Kernel
variable {count offset f b n x size : Nat} {base : Nat → Prop} {k k' : Kernel Pmm}
  {held held' : List (Nat × Nat)} {live : List Nat}

theorem heapPages_pos (hle : size ≤ 2 ^ 63) : 0 < heapPages size := by
  obtain ⟨-, -, hlt⟩ := alignUp_spec (x := size) (show 0 < sizeofMemoryBlock by decide)
    (by simp only [sizeofMemoryBlock]; omega)
  simp only [heapPages, sizeofMemoryBlock, regularPageSize] at hlt ⊢
  rw [u64_of_lt (by omega)]
  have := alignUp_spec (x := alignUp size 32 + 32) (show 0 < 4096 by decide) (by omega)
  omega

theorem PmmHeld.not_inPages {p : Pmm} (h : PmmHeld count offset base p held) (hf : base f)
    (hb : InFrame offset f b) : ¬InPages held b := by
  rintro ⟨r, hr, h1, h2⟩
  obtain ⟨i, hi, -, -⟩ := h.range r hr
  obtain ⟨h3, h4⟩ := hb
  refine h.sep f hf ⟨r, hr, (heldFrame_iff hi).mpr ?_⟩
  rw [hi] at h1 h2
  simp only [regularPageSize] at h1 h2 h3 h4
  omega

/-- `kfree` of a live block returns. -/
theorem HeapInv.kfree_total {free supers : List Nat} (D : DirectMapFits count offset)
    (H : HeapInv k held (x :: live) free supers) (hheld : PmmHeld count offset base k.pmm held)
    (hoffset : k.gHhdmOffset = offset) : ∃ k', kfree pmmBitmap k (x + 32) = .ok k' ∧
      (k'.pmm = k.pmm ∨ ∃ ks, k'.pmm = k.pmm.setBits ks false) := by
  have hx : x ∈ free ++ supers ++ x :: live := by simp
  obtain ⟨hpage, hlt⟩ := H.extent_lt hx
  have hpos := (H.size x hx).2
  simp only [blockExtent, sizeofMemoryBlock] at hlt
  have hheader : u64Sub (x + 32) sizeofMemoryBlock = x := by
    rw [u64Sub_of_le (by omega) (by simp only [sizeofMemoryBlock]; omega), sizeofMemoryBlock]
    omega
  unfold kfree
  dsimp only
  rw [hheader]
  split
  · rename_i hlarge
    obtain ⟨n, hn, hr, hfull⟩ := H.range_of_large hlarge
    have htotal : u64 (blockSize k.mem x + sizeofMemoryBlock) = n * regularPageSize := by
      rw [← hfull, u64_of_lt (by simp only [sizeofMemoryBlock, regularPageSize] at hpage ⊢; omega),
        Nat.add_comm]
      rfl
    have hcount : n * regularPageSize / regularPageSize = n := Nat.mul_div_cancel n (by decide)
    obtain ⟨i, -, hfree⟩ := hheld.freePages_eq D hr
    unfold freeLargeblock vmmVirtHhdmToPhys
    dsimp only
    rw [hheader, htotal, hcount, hoffset]
    change ∃ k', (pmmFreePages k.pmm (u64Sub x offset) n >>= _) = .ok k' ∧ _
    rw [hfree]
    exact ⟨_, rfl, .inr ⟨_, rfl⟩⟩
  · split
    · exact ⟨_, rfl, .inl rfl⟩
    · exact ⟨_, rfl, .inl rfl⟩

theorem HeapKeeps.of_frame {p p' : Pmm} {free supers : List Nat}
    (H : HeapInv k held live free supers) (h : PmmHeld count offset base p held)
    (h' : PmmHeld count offset base p' held') (hframe : HeapInv.Frame k held live k' held') :
    HeapKeeps offset base live k k' where
  frames := fun b ⟨_, hf, hb⟩ => hframe.1 b (fun hpriv => h.not_inPages hf hb hpriv.1)
    fun hin => absurd hin (h'.not_inPages hf hb)
  payload := fun _ hx _ hb => hframe.payload H hx hb
  size := hframe.2

namespace KernelHeap
variable (D : DirectMapFits count offset)
include D

/-- `kmalloc` with room for the pages it may need. -/
theorem kmalloc {r : Nat} (h : KernelHeap count offset base k live) (hpos : 1 ≤ size)
    (hle : size ≤ 2 ^ 63) (hroom : k.pmm.Room (r + heapPages size)) :
    ∃ x k', TrazelOs.kmalloc pmmBitmap k size = .ok (x + 32, k') ∧
      KernelHeap count offset base k' (x :: live) ∧ size ≤ blockSize k'.mem x ∧
      HeapKeeps offset base live k k' ∧ k'.pmm.Room r := by
  obtain ⟨held, free, supers, H, hheld⟩ := h.heap
  have hcount := D.pages
  have heq := hheld.pageCount_eq
  have hpages : heapPages size ≤ count := by
    have := hroom.pages_le
    omega
  have hn : 0 < heapPages size := heapPages_pos hle
  obtain ⟨i, hi, halloc, hrest⟩ := hroom.allocPages (by omega) hn
  obtain ⟨hne, haddr⟩ := hheld.direct D hi hn
  have halloc := pmmAllocPagesHhdm_eq halloc
  rw [Pmm.setBits_gHhdmOffset, if_pos hne, haddr] at halloc
  obtain ⟨p, k', hret, hpmm⟩ := (H.kmalloc_total (pmmBitmap_lawful D) hheld hpos hle hpages
    halloc).resolve_right fun h => absurd h.1 (by omega)
  obtain ⟨x, held', free', supers', rfl, H', hheld', hframe, hsize, hoffset⟩ :=
    H.kmalloc_spec (pmmBitmap_lawful D) hheld hpos hle hpages hret
  refine ⟨x, k', hret, ⟨hoffset.trans h.offset_eq, held', free', supers', H', hheld'⟩, hsize,
    .of_frame H hheld hheld' hframe, ?_⟩
  rcases hpmm with hpmm | hpmm
  · exact hpmm ▸ hroom.mono (Nat.le_add_right ..)
  · exact hpmm ▸ hrest

/-- `kfree` of a live block. -/
theorem kfree (h : KernelHeap count offset base k live) (hx : x ∈ live) :
    ∃ k', TrazelOs.kfree pmmBitmap k (x + 32) = .ok k' ∧
      KernelHeap count offset base k' (live.erase x) ∧ HeapKeeps offset base live k k' ∧
      ∀ r, k.pmm.Room r → k'.pmm.Room r := by
  obtain ⟨held, free, supers, H, hheld⟩ := h.heap
  have H := H.perm_live (List.perm_cons_erase hx).symm
  obtain ⟨k', hret, hpmm⟩ := H.kfree_total D hheld h.offset_eq
  obtain ⟨held', free', H', hheld', hframe, hoffset⟩ :=
    H.kfree_spec (pmmBitmap_lawful D) hheld h.offset_eq hret
  refine ⟨k', hret, ⟨hoffset.trans h.offset_eq, held', free', supers, H', hheld'⟩, ?_, fun r hr => ?_⟩
  · have hkeeps := HeapKeeps.of_frame H hheld hheld' hframe
    have hmem : ∀ y ∈ live, y ∈ x :: live.erase x := fun y hy =>
      (List.perm_cons_erase hx).mem_iff.mp hy
    exact ⟨hkeeps.frames, fun y hy => hkeeps.payload y (hmem y hy),
      fun y hy => hkeeps.size y (hmem y hy)⟩
  · rcases hpmm with hpmm | ⟨ks, hpmm⟩
    · exact hpmm ▸ hr
    · exact hpmm ▸ hr.release

omit D

/-- A write to the payload of a live block. -/
theorem writePayload {m : Memory} (h : KernelHeap count offset base k live) (hx : x ∈ live)
    (hm : ∀ b, ¬InPayload k.mem x b → m b = k.mem b) :
    KernelHeap count offset base { k with mem := m } live := by
  obtain ⟨held, free, supers, H, hheld⟩ := h.heap
  exact ⟨h.offset_eq, held, free, supers, H.others fun b hb => hm b (hb.2 x hx), hheld⟩

/-- A write to pages that are not the heap's. -/
theorem writeFrames {m : Memory} (h : KernelHeap count offset base k live)
    (hm : ∀ b, ¬FrameBytes offset base b → m b = k.mem b) :
    KernelHeap count offset base { k with mem := m } live := by
  obtain ⟨held, free, supers, H, hheld⟩ := h.heap
  refine ⟨h.offset_eq, held, free, supers, H.others fun b hb => hm b ?_, hheld⟩
  rintro ⟨f, hf, hin⟩
  exact hheld.not_inPages hf hin hb.1

/-- Free pages are taken for something other than the heap. -/
theorem claim {ks : List Nat} (h : KernelHeap count offset base k live)
    (hks : ∀ f ∈ ks, f < k.pmm.pageCount ∧ k.pmm.used f = false) :
    KernelHeap count offset (fun f => base f ∨ f ∈ ks) { k with pmm := k.pmm.setBits ks true } live := by
  obtain ⟨held, free, supers, H, hheld⟩ := h.heap
  refine ⟨h.offset_eq, held, free, supers, H.others fun _ _ => rfl, ?_⟩
  have heq := hheld.pageCount_eq
  refine ⟨by rw [Pmm.setBits_pageCount, heq], by rw [Pmm.setBits_gHhdmOffset, hheld.offset_eq],
    fun f hf => ?_, .inl hheld.null, hheld.range, ?_, hheld.apart⟩
  · by_cases hin : f ∈ ks
    · rw [Pmm.used_setBits_of_mem hin (heq ▸ hf)]
      exact iff_of_true rfl (.inl (.inr hin))
    · rw [Pmm.used_setBits_of_notMem hin, hheld.used f hf, or_iff_left hin]
  · rintro f (hf | hf) hheap
    · exact hheld.sep f hf hheap
    · obtain ⟨hlt, hfree⟩ := hks f hf
      have := (hheld.used f (heq ▸ hlt)).mpr (.inr hheap)
      rw [hfree] at this
      cases this

/-- Pages that are not the heap's are given back. -/
theorem unclaim {ks : List Nat} (h : KernelHeap count offset base k live)
    (hks : ∀ f ∈ ks, base f ∧ f ≠ 0) :
    KernelHeap count offset (fun f => base f ∧ f ∉ ks) { k with pmm := k.pmm.setBits ks false } live := by
  obtain ⟨held, free, supers, H, hheld⟩ := h.heap
  refine ⟨h.offset_eq, held, free, supers, H.others fun _ _ => rfl, ?_⟩
  have heq := hheld.pageCount_eq
  refine ⟨by rw [Pmm.setBits_pageCount, heq], by rw [Pmm.setBits_gHhdmOffset, hheld.offset_eq],
    fun f hf => ?_, ⟨hheld.null, fun hin => (hks 0 hin).2 rfl⟩, hheld.range, fun f hf => hheld.sep f hf.1,
    hheld.apart⟩
  by_cases hin : f ∈ ks
  · rw [Pmm.used_setBits_of_mem hin (heq ▸ hf)]
    refine iff_of_false (by decide) ?_
    rintro (hf | hf)
    · exact hf.2 hin
    · exact hheld.sep f (hks f hin).1 hf
  · rw [Pmm.used_setBits_of_notMem hin, hheld.used f hf, and_iff_left hin]

end KernelHeap

end Kernel

end TrazelOs
