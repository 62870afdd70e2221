import TrazelOs.Verify.HeapLists
import TrazelOs.Theory.Tiling

/-! # The kernel heap

`HeapInv` is the invariant of `heap.c`: the two lists are linked both ways, and the blocks of the
lists and the live blocks tile the pages the heap holds. The specifications `kmalloc_spec` and
`kfree_spec` say that the invariant is kept and that the only bytes written are the heap's own
(`HeapPrivate`). -/

namespace TrazelOs
open Theory

/-- Address `b` lies in one of the page ranges. -/
def InPages (held : List (Nat × Nat)) (b : Nat) : Prop :=
  ∃ r ∈ held, r.1 ≤ b ∧ b < r.1 + r.2 * regularPageSize

/-- The page ranges as regions. -/
def HeldRegion (held : List (Nat × Nat)) (lo hi : Nat) : Prop :=
  ∃ r ∈ held, lo = r.1 ∧ hi = r.1 + r.2 * regularPageSize

theorem heldRegion_cons {r : Nat × Nat} {held : List (Nat × Nat)} {lo hi : Nat} :
    HeldRegion (r :: held) lo hi ↔
      HeldRegion held lo hi ∨ lo = r.1 ∧ hi = r.1 + r.2 * regularPageSize := by
  simp only [HeldRegion, List.mem_cons, exists_eq_or_imp]
  exact or_comm

/-- The ranges have no byte in common. -/
def Apart (r t : Nat × Nat) : Prop :=
  r.1 + r.2 * regularPageSize ≤ t.1 ∨ t.1 + t.2 * regularPageSize ≤ r.1

instance : Std.Symm Apart := ⟨fun _ _ h => Or.symm h⟩

/-- Address `b` lies in the payload of the block at `x`. -/
def InPayload (m : Memory) (x b : Nat) : Prop :=
  x + sizeofMemoryBlock ≤ b ∧ b < x + sizeofMemoryBlock + blockSize m x

/-- A byte of the heap's pages that belongs to no owner of a block. -/
def HeapPrivate (m : Memory) (held : List (Nat × Nat)) (live : List Nat) (b : Nat) : Prop :=
  InPages held b ∧ ∀ x ∈ live, ¬InPayload m x b

/-- The header and the payload of a block. -/
def blockExtent (m : Memory) (x : Nat) : Nat := sizeofMemoryBlock + blockSize m x

/-- The heap holds the page ranges `held` and has given out the blocks `live`. -/
structure HeapInv (k : Kernel σ) (held : List (Nat × Nat)) (live free supers : List Nat) :
    Prop where
  lists : HeapLists k free supers
  liveHeader : ∀ x ∈ live, IsHeader x
  size : ∀ x ∈ free ++ supers ++ live, 32 ∣ blockSize k.mem x ∧ 0 < blockSize k.mem x
  nodup : (free ++ supers ++ live).Nodup
  tiles : Tiles (HeldRegion held) (· ∈ free ++ supers ++ live) (blockExtent k.mem)
  range : ∀ r ∈ held, 0 < r.1 ∧ regularPageSize ∣ r.1 ∧ r.1 + r.2 * regularPageSize ≤ 2 ^ 64
  apart : held.Pairwise Apart
  large : ∀ r ∈ held, r.2 ≠ 1 → r.1 ∈ live ∧ blockExtent k.mem r.1 = r.2 * regularPageSize

namespace HeapInv

variable {k k' : Kernel σ} {held : List (Nat × Nat)} {live free supers free' supers' : List Nat}
  {x y b size : Nat}

/-- A block lies in one of the heap's page ranges. -/
theorem extent (H : HeapInv k held live free supers) (hx : x ∈ free ++ supers ++ live) :
    ∃ r ∈ held, r.1 ≤ x ∧ x + blockExtent k.mem x ≤ r.1 + r.2 * regularPageSize := by
  obtain ⟨lo, hi, ⟨r, hr, rfl, rfl⟩, h⟩ := H.tiles.inside x hx
  exact ⟨r, hr, h⟩

theorem extent_lt (H : HeapInv k held live free supers) (hx : x ∈ free ++ supers ++ live) :
    regularPageSize ≤ x ∧ x + blockExtent k.mem x ≤ 2 ^ 64 := by
  obtain ⟨r, hr, h1, h2⟩ := H.extent hx
  obtain ⟨hpos, hdvd, hle⟩ := H.range r hr
  exact ⟨(Nat.le_of_dvd hpos hdvd).trans h1, h2.trans hle⟩

/-- The payload of a block does not begin past the last address. -/
theorem payload_lt (H : HeapInv k held live free supers) (hx : x ∈ free ++ supers ++ live) :
    x + 32 < 2 ^ 64 := by
  have hlt := (H.extent_lt hx).2
  have hpos := (H.size x hx).2
  simp only [blockExtent, sizeofMemoryBlock] at hlt
  omega

theorem header (H : HeapInv k held live free supers) (hx : x ∈ free ++ supers ++ live) :
    IsHeader x := by
  rcases List.mem_append.mp hx with h | h
  · exact H.lists.header x h
  · exact H.liveHeader x h

/-- Nothing of a block in a list is an owner's. -/
theorem private_of_extent (H : HeapInv k held live free supers) (hx : x ∈ free ++ supers)
    (h1 : x ≤ b) (h2 : b < x + blockExtent k.mem x) : HeapPrivate k.mem held live b := by
  obtain ⟨r, hr, hlo, hhi⟩ := H.extent (List.mem_append_left live hx)
  refine ⟨⟨r, hr, by omega, by omega⟩, fun z hz hpay => ?_⟩
  have hne : x ≠ z := fun h => (List.nodup_append.mp H.nodup).2.2 x hx z hz h
  have hd := H.tiles.disjoint x z (List.mem_append_left live hx) (List.mem_append_right _ hz) hne
  simp only [InPayload, blockExtent] at *
  omega

/-- No header is an owner's. -/
theorem private_of_header (H : HeapInv k held live free supers)
    (h : InHeaders (free ++ supers ++ live) b) : HeapPrivate k.mem held live b := by
  obtain ⟨x, hx, h1, h2⟩ := h
  obtain ⟨r, hr, hlo, hhi⟩ := H.extent hx
  refine ⟨⟨r, hr, by omega, by simp only [blockExtent] at hhi; omega⟩, fun z hz hpay => ?_⟩
  by_cases hne : x = z
  · subst hne
    simp only [InPayload] at hpay
    omega
  · have hd := H.tiles.disjoint x z hx (List.mem_append_right _ hz) hne
    simp only [InPayload, blockExtent] at *
    omega

/-- The payload of a block has no byte of a header. -/
theorem not_inHeaders (H : HeapInv k held live free supers) (hx : x ∈ free ++ supers ++ live)
    (h1 : x + 32 ≤ b) (h2 : b < x + blockExtent k.mem x) : ¬InHeaders (free ++ supers ++ live) b := by
  rintro ⟨z, hz, h3, h4⟩
  by_cases hzx : z = x
  · subst hzx
    simp only [sizeofMemoryBlock] at h4
    omega
  · have hdisjoint := H.tiles.disjoint z x hz hx hzx
    simp only [blockExtent, sizeofMemoryBlock] at hdisjoint h2 h4
    omega

theorem perm_live {live' : List Nat} (H : HeapInv k held live free supers)
    (hperm : live'.Perm live) : HeapInv k held live' free supers := by
  have hblocks := hperm.append_left (free ++ supers)
  have hmem : ∀ z, z ∈ free ++ supers ++ live' ↔ z ∈ free ++ supers ++ live :=
    fun z => hblocks.mem_iff
  refine ⟨H.lists, fun z hz => H.liveHeader z (hperm.mem_iff.mp hz),
    fun z hz => H.size z ((hmem z).mp hz), hblocks.nodup_iff.mpr H.nodup,
    H.tiles.congr hmem fun _ _ => rfl, H.range, H.apart, fun r hr hne => ?_⟩
  obtain ⟨hlive, hfull⟩ := H.large r hr hne
  exact ⟨hperm.mem_iff.mpr hlive, hfull⟩

/-- Others write to memory that is not the heap's. -/
theorem others {m : Memory} {s : σ} (H : HeapInv k held live free supers)
    (hagree : ByteMemory.AgreeOn (HeapPrivate k.mem held live) k.mem m) :
    HeapInv { k with mem := m, pmm := s } held live free supers := by
  have hfield : ∀ z ∈ free ++ supers ++ live, ∀ j < 4,
      memoryBlockField m z j = memoryBlockField k.mem z j := fun z hz j hj =>
    memoryBlockField_congr (fun c h1 h2 => hagree c (H.private_of_header ⟨z, hz, h1, h2⟩)) hj
  have hsize : ∀ z ∈ free ++ supers ++ live, blockSize m z = blockSize k.mem z :=
    fun z hz => hfield z hz 0 (by decide)
  have hextent : ∀ z ∈ free ++ supers ++ live, blockExtent m z = blockExtent k.mem z :=
    fun z hz => congrArg (sizeofMemoryBlock + ·) (hsize z hz)
  refine ⟨H.lists.congr rfl rfl rfl
      (fun z hz => hfield z (List.mem_append_left _ hz) 1 (by decide))
      fun z hz => hfield z (List.mem_append_left _ hz) 2 (by decide),
    H.liveHeader, fun z hz => (hsize z hz).symm ▸ H.size z hz, H.nodup,
    H.tiles.congr (fun _ => Iff.rfl) hextent, H.range, H.apart, fun r hr hne => ?_⟩
  obtain ⟨hlive, hfull⟩ := H.large r hr hne
  exact ⟨hlive, (hextent _ (List.mem_append_right _ hlive)).trans hfull⟩

/-- Blocks move between the lists and their owners, and only links are written. -/
theorem move {live' : List Nat} (H : HeapInv k held live free supers)
    (L : HeapLists k' free' supers')
    (hperm : (free' ++ supers' ++ live').Perm (free ++ supers ++ live))
    (hsize : ∀ a, 32 ∣ a → blockSize k'.mem a = blockSize k.mem a)
    (hlarge : ∀ r ∈ held, r.2 ≠ 1 → r.1 ∈ live → r.1 ∈ live') :
    HeapInv k' held live' free' supers' := by
  have hmem : ∀ z, z ∈ free' ++ supers' ++ live' ↔ z ∈ free ++ supers ++ live :=
    fun z => hperm.mem_iff
  have hextent : ∀ z ∈ free ++ supers ++ live, blockExtent k'.mem z = blockExtent k.mem z :=
    fun z hz => by rw [blockExtent, hsize z (H.header hz).1, blockExtent]
  refine ⟨L, fun z hz => ?_, fun z hz => ?_, hperm.nodup_iff.mpr H.nodup,
    H.tiles.congr hmem hextent, H.range, H.apart, fun r hr hne => ?_⟩
  · exact H.header ((hmem z).mp (List.mem_append_right _ hz))
  · rw [hsize z (H.header ((hmem z).mp hz)).1]
    exact H.size z ((hmem z).mp hz)
  · obtain ⟨hlive, hext⟩ := H.large r hr hne
    exact ⟨hlarge r hr hne hlive, (hextent _ (List.mem_append_right _ hlive)).trans hext⟩

/-- The heap's operations write only its own bytes and bytes of pages it has just got. -/
def Frame (k : Kernel σ) (held : List (Nat × Nat)) (live : List Nat) (k' : Kernel σ)
    (held' : List (Nat × Nat)) : Prop :=
  (∀ b, ¬HeapPrivate k.mem held live b → (InPages held' b → InPages held b) →
    k'.mem b = k.mem b) ∧
  ∀ x ∈ live, blockSize k'.mem x = blockSize k.mem x

/-- The whole block goes to its owner. -/
theorem takeBlock (H : HeapInv k held live free supers) (hx : x ∈ free ++ supers) :
    ∃ k' free' supers', removeMemoryBlockFromList k x = .ok k' ∧
      HeapInv k' held (x :: live) free' supers' ∧ Frame k held live k' held ∧
      blockSize k'.mem x = blockSize k.mem x ∧ SamePages k k' ∧
      ∀ b, x + 32 ≤ b → b < x + blockExtent k.mem x → k'.mem b = k.mem b := by
  obtain ⟨k', free', supers', hret, L, hperm, hlinks, hsame⟩ :=
    removeMemoryBlockFromList_spec H.lists hx
  have hperm' : (free' ++ supers' ++ x :: live).Perm (free ++ supers ++ live) :=
    List.perm_middle.trans (hperm.append_right live)
  refine ⟨k', free', supers', hret, H.move L hperm' hlinks.size fun r _ _ h => .tail _ h,
    ⟨fun b hb _ => hlinks.outside b fun hin => hb ?_, fun z hz => hlinks.size z (H.liveHeader z hz).1⟩,
    hlinks.size x (H.lists.header x hx).1, hsame, fun b h1 h2 => hlinks.outside b fun hin => ?_⟩
  · obtain ⟨z, hz, hzb⟩ := hin
    exact H.private_of_header ⟨z, List.mem_append_left _ hz, hzb⟩
  · obtain ⟨z, hz, hzb⟩ := hin
    exact H.not_inHeaders (List.mem_append_left _ hx) h1 h2 ⟨z, List.mem_append_left _ hz, hzb⟩

/-- The first `size` bytes of the payload go to an owner, and the rest becomes a block of its
own. -/
theorem splitBlock (H : HeapInv k held live free supers) (hx : x ∈ free ++ supers)
    (hpos : 0 < size) (hsize : 32 ∣ size) (hroom : size + 64 < blockSize k.mem x) :
    ∃ k₁ free' supers',
      replaceMemoryBlockInList
        { k with mem := setBlockSize k.mem (x + 32 + size) (blockSize k.mem x - (size + 32)) }
        x (x + 32 + size) = .ok k₁ ∧
      HeapInv { k₁ with mem := setBlockSize k₁.mem x size } held (x :: live) free' supers' ∧
      Frame k held live { k₁ with mem := setBlockSize k₁.mem x size } held ∧
      blockSize (setBlockSize k₁.mem x size) x = size ∧ SamePages k k₁ ∧
      ∀ b, x + 32 ≤ b → b < x + 32 + size → setBlockSize k₁.mem x size b = k.mem b := by
  have hxb : x ∈ free ++ supers ++ live := List.mem_append_left live hx
  have hxh := H.header hxb
  obtain ⟨hpage, hlt⟩ := H.extent_lt hxb
  have hext : blockExtent k.mem x = 32 + blockSize k.mem x := rfl
  obtain ⟨y, hyeq⟩ : ∃ y, y = x + 32 + size := ⟨_, rfl⟩
  have hy : IsHeader y := ⟨by have := hxh.1; omega, by omega⟩
  have hynew : y ∉ free ++ supers ++ live := by
    rw [hyeq, Nat.add_assoc]
    exact H.tiles.not_block_of_inside hxb (by omega) (by omega)
  have hxy : x ≠ y := by omega
  rw [← hyeq]
  obtain ⟨v, hv⟩ : ∃ v, v = blockSize k.mem x - (size + 32) := ⟨_, rfl⟩
  rw [← hv]
  have L₀ : HeapLists { k with mem := setBlockSize k.mem y v } free supers :=
    H.lists.setBlockSize hy.1
  have hynew₀ : y ∉ 0 :: (free ++ supers) := fun h => by
    rcases List.mem_cons.mp h with h | h
    · omega
    · exact hynew (List.mem_append_left _ h)
  obtain ⟨k₁, free', supers', hret, L₁, hperm, hlinks, hsame⟩ :=
    replaceMemoryBlockInList_spec L₀ hx hy hynew₀
  have hsizes : ∀ z, 32 ∣ z → blockSize (setBlockSize k₁.mem x size) z =
      if z = x then size else if z = y then v else blockSize k.mem z := by
    intro z hz
    rw [blockSize_setBlockSize hxh.1 hz (by omega), hlinks.size z hz,
      blockSize_setBlockSize hy.1 hz (by omega)]
  have hperm' : (free' ++ supers' ++ x :: live).Perm (y :: (free ++ supers ++ live)) :=
    List.perm_middle.trans (hperm.append_right live)
  have hcases : ∀ z ∈ free' ++ supers' ++ x :: live, z = y ∨ z ∈ free ++ supers ++ live :=
    fun z hz => List.mem_cons.mp (hperm'.mem_iff.mp hz)
  have hsameByte : ∀ b, b < x ∨ x + 32 ≤ b → b < y ∨ y + 32 ≤ b →
      ¬InHeaders (free ++ supers ++ live) b → setBlockSize k₁.mem x size b = k.mem b := by
    intro b hbx hby hheaders
    calc setBlockSize k₁.mem x size b
      _ = k₁.mem b := setMemoryBlockField_of_outside (by decide) hbx
      _ = setBlockSize k.mem y v b := hlinks.outside b (by
        rintro ⟨z, hz, h1, h2⟩
        rcases List.mem_cons.mp hz with rfl | hz
        · simp only [sizeofMemoryBlock] at h2
          omega
        · exact hheaders ⟨z, List.mem_append_left _ hz, h1, h2⟩)
      _ = k.mem b := setMemoryBlockField_of_outside (by decide) hby
  have hlive : ∀ z ∈ live, blockSize (setBlockSize k₁.mem x size) z = blockSize k.mem z := by
    intro z hz
    have hzx : z ≠ x := fun h => (List.nodup_append.mp H.nodup).2.2 x hx z hz h.symm
    have hzy : z ≠ y := fun h => hynew (h ▸ List.mem_append_right _ hz)
    rw [hsizes z (H.liveHeader z hz).1, if_neg hzx, if_neg hzy]
  refine ⟨k₁, free', supers', hret, ⟨L₁.setBlockSize hxh.1, fun z hz => ?_, fun z hz => ?_, ?_, ?_,
    H.range, H.apart, fun r hr hne => ?_⟩, ⟨fun b hb _ => ?_, hlive⟩,
    by rw [hsizes x hxh.1, if_pos rfl], hsame, fun b h1 h2 => ?_⟩
  · rcases List.mem_cons.mp hz with rfl | hz
    · exact hxh
    · exact H.liveHeader z hz
  · have hx32 := H.size x hxb
    rcases hcases z hz with rfl | hz
    · rw [hsizes z hy.1, if_neg hxy.symm, if_pos rfl]
      omega
    · rw [hsizes z (H.header hz).1]
      split
      · exact ⟨hsize, hpos⟩
      · split
        · omega
        · exact H.size z hz
  · exact hperm'.nodup_iff.mpr (List.nodup_cons.mpr ⟨hynew, H.nodup⟩)
  · refine H.tiles.split hxb (a := 32 + size) (by omega) (by omega) (fun z => ?_) ?_ ?_ ?_
    · rw [hperm'.mem_iff, List.mem_cons, hyeq, Nat.add_assoc, or_comm]
    · rw [blockExtent, hsizes x hxh.1, if_pos rfl, sizeofMemoryBlock]
    · rw [← Nat.add_assoc, ← hyeq, blockExtent, hsizes y hy.1, if_neg hxy.symm, if_pos rfl,
        sizeofMemoryBlock]
      omega
    · intro z hz hzx
      have hzy : z ≠ y := fun h => hynew (h ▸ hz)
      rw [blockExtent, hsizes z (H.header hz).1, if_neg hzx, if_neg hzy, blockExtent]
  · obtain ⟨hmem, hfull⟩ := H.large r hr hne
    exact ⟨.tail _ hmem, by rw [← hfull, blockExtent, hlive _ hmem, blockExtent]⟩
  · have hout : b < x ∨ x + blockExtent k.mem x ≤ b := by
      by_contra hcon
      exact hb (H.private_of_extent hx (by omega) (by omega))
    exact hsameByte b (by omega) (by omega) fun hin => hb (H.private_of_header hin)
  · exact hsameByte b (by omega) (by omega) (H.not_inHeaders hxb h1 (by omega))

theorem mallocFromBlock_spec (H : HeapInv k held live free supers) (hx : x ∈ free ++ supers)
    (hpos : 0 < size) (hsize : 32 ∣ size) (hfit : size ≤ blockSize k.mem x) :
    ∃ k' free' supers', mallocFromBlock k x size = .ok (x + 32, k') ∧
      HeapInv k' held (x :: live) free' supers' ∧ Frame k held live k' held ∧
      size ≤ blockSize k'.mem x ∧ SamePages k k' ∧
      ∀ b, x + 32 ≤ b → b < x + 32 + size → k'.mem b = k.mem b := by
  obtain ⟨hpage, hlt⟩ := H.extent_lt (List.mem_append_left live hx)
  simp only [blockExtent, sizeofMemoryBlock, regularPageSize] at hlt hpage
  have h32 : sizeofMemoryBlock = 32 := rfl
  have hword : u64 (size + 2 * sizeofMemoryBlock) = size + 64 := u64_of_lt (by omega)
  have hbuffer : getMemoryBlockBuffer x = x + 32 := u64_of_lt (by omega)
  rw [mallocFromBlock, kernelAssert_ok hfit, Exec.ok_bind, hword, hbuffer]
  by_cases hwhole : blockSize k.mem x ≤ size + 64
  · obtain ⟨k', free', supers', hret, H', hframe, hsame, hpages, hbytes⟩ := H.takeBlock hx
    rw [if_pos hwhole, hret]
    exact ⟨k', free', supers', rfl, H', hframe, hfit.trans_eq hsame.symm, hpages,
      fun b h1 h2 => hbytes b h1 (by rw [blockExtent, h32]; omega)⟩
  · obtain ⟨k₁, free', supers', hret, H', hframe, hsame, hpages, hbytes⟩ :=
      H.splitBlock hx hpos hsize (by omega)
    have haddr : u64 (x + 32 + size) = x + 32 + size := u64_of_lt (by omega)
    have hrest : u64Sub (blockSize k.mem x) (u64 (size + sizeofMemoryBlock)) =
        blockSize k.mem x - (size + 32) := by
      rw [h32, u64_of_lt (by omega), u64Sub_of_le (by omega) (by omega)]
    rw [if_neg hwhole]
    simp only [haddr, hrest, hret, Exec.ok_bind]
    exact ⟨_, free', supers', rfl, H', hframe, Nat.le_of_eq hsame.symm, hpages, hbytes⟩

end HeapInv

/-! ## The page allocator's part -/

/-- What an allocation of `n` pages may do: fail, or hand out a page range apart from the ranges
`held`. -/
def Grants (Held : σ → List (Nat × Nat) → Prop) (held : List (Nat × Nat)) (n a : Nat) (s : σ) :
    Prop :=
  (a = 0 ∧ Held s held) ∨
    (0 < a ∧ regularPageSize ∣ a ∧ a + n * regularPageSize ≤ 2 ^ 64 ∧ (∀ r ∈ held, Apart (a, n) r) ∧
      Held s ((a, n) :: held))

/-- `Held s held` says that the allocator in the state `s` has handed out the ranges `held`, named
by their addresses in the direct map, and has not got them back. A lawful allocator hands out
only ranges apart from these when it is asked for a number of pages that `Fits`. -/
structure PageAllocator.Lawful (A : PageAllocator σ) (offset : Nat) (Fits : Nat → Prop)
    (Held : σ → List (Nat × Nat) → Prop) : Prop where
  allocPage : Held s held → A.pmmAllocPageHhdm s = .ok (a, s') → Grants Held held 1 a s'
  allocPages : Held s held → 0 < n → Fits n → A.pmmAllocPagesHhdm s n = .ok (a, s') →
    Grants Held held n a s'
  freePages : Held s held → (a, n) ∈ held → A.pmmFreePages s (u64Sub a offset) n = .ok s' →
    Held s' (held.erase (a, n))

/-- How many pages `kmalloc` asks for when it needs new ones for `size` bytes. -/
def heapPages (size : Nat) : Nat :=
  alignUp (u64 (alignUp size sizeofMemoryBlock + sizeofMemoryBlock)) regularPageSize /
    regularPageSize

section Rounding
variable {size : Nat}

theorem alignUp_block (hsize : size ≤ 2 ^ 64 - 32) :
    32 ∣ alignUp size sizeofMemoryBlock ∧ size ≤ alignUp size sizeofMemoryBlock ∧
      alignUp size sizeofMemoryBlock < size + 32 ∧
      alignUp size sizeofMemoryBlock ≤ 2 ^ 64 - 32 := by
  have h := alignUp_cases size sizeofMemoryBlock
  simp only [sizeofMemoryBlock] at h ⊢
  refine ⟨?_, ?_, ?_, ?_⟩ <;> omega

theorem heapPages_small (hpos : 1 ≤ size) (hsize : size ≤ 2 ^ 64 - 32)
    (hsmall : alignUp size sizeofMemoryBlock ≤ 4064) : heapPages size = 1 := by
  obtain ⟨hdvd, hge, -, -⟩ := alignUp_block hsize
  have h := alignUp_cases (u64 (alignUp size sizeofMemoryBlock + sizeofMemoryBlock)) regularPageSize
  unfold heapPages
  generalize alignUp size sizeofMemoryBlock = aligned at *
  simp only [sizeofMemoryBlock, regularPageSize, u64] at h ⊢
  omega

/-- The block of the lists that `kmalloc` takes, or the null pointer. -/
def firstFit (k : Kernel σ) (size : Nat) : Exec Nat := do
  let block ← findBigEnoughBlock k.mem size (2 ^ 64) k.gFreeBlocks
  if block ≠ 0 then return block
  else findBigEnoughBlock k.mem size (2 ^ 64) k.gSuperBlocks

/-- Block `x` is what a small request is served from: the first block of the lists with room for
`size` bytes, or the page that the page allocator has for a new super block. -/
def FitsFirst (A : PageAllocator σ) (k : Kernel σ) (size x : Nat) : Prop :=
  x ≠ 0 ∧ firstFit k size = .ok x ∨
    firstFit k size = .ok 0 ∧ ∃ s, A.pmmAllocPagesHhdm k.pmm 1 = .ok (x, s)

/-- A request for more than a page is one for a large block. -/
theorem kmalloc_large {A : PageAllocator σ} {k : Kernel σ} (hpos : 1 ≤ size)
    (hlarge : 4064 < alignUp size sizeofMemoryBlock) :
    kmalloc A k size = mallocLargeblock A k (alignUp size sizeofMemoryBlock) := by
  rw [kmalloc, kernelAssert_ok (by omega), Exec.ok_bind]
  exact if_pos hlarge

end Rounding

namespace HeapInv

variable {k k' : Kernel σ} {held : List (Nat × Nat)} {live free supers : List Nat} {x b size : Nat}

/-- Nothing of a new page range is in the pages held before. -/
theorem not_inPages_of_apart {a n : Nat} (hapart : ∀ r ∈ held, Apart (a, n) r) (h1 : a ≤ b)
    (h2 : b < a + n * regularPageSize) : ¬InPages held b := by
  rintro ⟨r, hr, h3, h4⟩
  rcases hapart r hr with hap | hap
  · have : a + n * regularPageSize ≤ r.1 := hap
    omega
  · have : r.1 + r.2 * regularPageSize ≤ a := hap
    omega

/-- A new page range begins with no block. -/
theorem notMem_of_apart {a n : Nat} (H : HeapInv k held live free supers) (hn : 0 < n)
    (hapart : ∀ r ∈ held, Apart (a, n) r) : a ∉ free ++ supers ++ live := by
  intro hmem
  obtain ⟨r, hr, h1, h2⟩ := H.extent hmem
  have hpos : 0 < blockExtent k.mem a := H.tiles.pos a hmem
  have hlen : 0 < n * regularPageSize := Nat.mul_pos hn (by decide)
  exact not_inPages_of_apart hapart (Nat.le_refl a) (by omega) ⟨r, hr, h1, by omega⟩

/-- The heap gets a page range and divides it into one block, its own or an owner's. -/
theorem addRange {n a : Nat} {live' supers' : List Nat} (H : HeapInv k held live free supers)
    (ha : 0 < a) (hpage : regularPageSize ∣ a) (hlt : a + n * regularPageSize ≤ 2 ^ 64)
    (hapart : ∀ r ∈ held, Apart (a, n) r) (hn : 0 < n)
    (L : HeapLists k' free supers') (hlive : ∀ z ∈ live', z = a ∨ z ∈ live)
    (hperm : (free ++ supers' ++ live').Perm (a :: (free ++ supers ++ live)))
    (hsize : ∀ z, 32 ∣ z → blockSize k'.mem z =
      if z = a then n * regularPageSize - 32 else blockSize k.mem z)
    (hlarge : n ≠ 1 → a ∈ live') (hkeep : ∀ z ∈ live, z ∈ live') :
    HeapInv k' ((a, n) :: held) live' free supers' := by
  have hlen : 4096 ≤ n * regularPageSize := Nat.le_mul_of_pos_left _ hn
  have hlen32 : 32 ∣ n * regularPageSize := Nat.dvd_mul_left_of_dvd (by decide) n
  have hheader : IsHeader a := ⟨Nat.dvd_trans (by decide) hpage, by omega⟩
  have hnew : a ∉ free ++ supers ++ live := H.notMem_of_apart hn hapart
  have hold : ∀ z ∈ free ++ supers ++ live, blockSize k'.mem z = blockSize k.mem z := by
    intro z hz
    have hne : z ≠ a := fun h => hnew (h ▸ hz)
    rw [hsize z (H.header hz).1, if_neg hne]
  have hsizeA : blockSize k'.mem a = n * regularPageSize - 32 := by
    rw [hsize a hheader.1, if_pos rfl]
  have hcases : ∀ z ∈ free ++ supers' ++ live', z = a ∨ z ∈ free ++ supers ++ live :=
    fun z hz => List.mem_cons.mp (hperm.mem_iff.mp hz)
  have hextentA : blockExtent k'.mem a = n * regularPageSize := by
    rw [blockExtent, hsizeA, sizeofMemoryBlock]
    omega
  refine ⟨L, fun z hz => ?_, fun z hz => ?_, hperm.nodup_iff.mpr (List.nodup_cons.mpr ⟨hnew, H.nodup⟩),
    ?_, fun r hr => ?_, List.pairwise_cons.mpr ⟨hapart, H.apart⟩, fun r hr hne => ?_⟩
  · rcases hlive z hz with rfl | hz
    · exact hheader
    · exact H.liveHeader z hz
  · rcases hcases z hz with rfl | hz
    · rw [hsizeA]
      omega
    · rw [hold z hz]
      exact H.size z hz
  · refine H.tiles.addRegion (show a < a + n * regularPageSize by omega) ?_ (fun lo hi =>
      heldRegion_cons) ?_ ?_ ?_
    · rintro lo hi ⟨r, hr, rfl, rfl⟩
      exact hapart r hr
    · intro z
      rw [hperm.mem_iff, List.mem_cons, or_comm]
    · omega
    · intro z hz
      rw [blockExtent, hold z hz, blockExtent]
  · rcases List.mem_cons.mp hr with rfl | hr
    · exact ⟨ha, hpage, hlt⟩
    · exact H.range r hr
  · rcases List.mem_cons.mp hr with rfl | hr
    · exact ⟨hlarge hne, hextentA⟩
    · obtain ⟨hmem, hfull⟩ := H.large r hr hne
      exact ⟨hkeep _ hmem, by
        rw [← hfull, blockExtent, hold _ (List.mem_append_right _ hmem), blockExtent]⟩

/-- The payload of a live block is not written. -/
theorem Frame.payload {held' : List (Nat × Nat)} (H : HeapInv k held live free supers)
    (h : Frame k held live k' held') (hx : x ∈ live) (hb : InPayload k.mem x b) :
    k'.mem b = k.mem b := by
  refine h.1 b (fun hpriv => hpriv.2 x hx hb) fun _ => ?_
  obtain ⟨r, hr, h1, h2⟩ := H.extent (List.mem_append_right _ hx)
  simp only [InPayload, blockExtent] at hb h2
  exact ⟨r, hr, by omega, by omega⟩

theorem Frame.trans {k₁ k₂ : Kernel σ} {held₁ : List (Nat × Nat)} (h : Frame k held live k₁ held₁)
    (h' : Frame k₁ held₁ live k₂ held₁) : Frame k held live k₂ held₁ := by
  refine ⟨fun b hb hpages => ?_, fun z hz => (h'.2 z hz).trans (h.2 z hz)⟩
  refine (h'.1 b (fun hpriv => hb ⟨hpages hpriv.1, fun z hz hpay => hpriv.2 z hz ?_⟩) id).trans
    (h.1 b hb hpages)
  rwa [InPayload, h.2 z hz]

/-- `kmalloc` of `size` bytes took the heap from `k` to `k'` and returned `p`, the payload of a
block that is now live. -/
def Served (Held : σ → List (Nat × Nat) → Prop) (k : Kernel σ) (held : List (Nat × Nat))
    (live : List Nat) (size p : Nat) (k' : Kernel σ) : Prop :=
  ∃ x held' free' supers', p = x + 32 ∧ HeapInv k' held' (x :: live) free' supers' ∧
    Held k'.pmm held' ∧ Frame k held live k' held' ∧ size ≤ blockSize k'.mem x ∧
    k'.gHhdmOffset = k.gHhdmOffset

section Allocate
variable {A : PageAllocator σ} {offset : Nat} {Fits : Nat → Prop}
  {Held : σ → List (Nat × Nat) → Prop} (hA : A.Lawful offset Fits Held)
include hA

theorem mallocLargeblock_spec {p : Nat} (H : HeapInv k held live free supers)
    (hheld : Held k.pmm held) (hsize : 32 ∣ size) (hlarge : 4064 < size) (hle : size ≤ 2 ^ 63)
    (hfits : Fits (alignUp (u64 (size + sizeofMemoryBlock)) regularPageSize / regularPageSize))
    (hret : mallocLargeblock A k size = .ok (p, k')) :
    ∃ a n, p = a + 32 ∧ HeapInv k' ((a, n) :: held) (a :: live) free supers ∧
      Held k'.pmm ((a, n) :: held) ∧ Frame k held live k' ((a, n) :: held) ∧
      size ≤ blockSize k'.mem a ∧ k'.gHhdmOffset = k.gHhdmOffset := by
  have hsum : u64 (size + sizeofMemoryBlock) = size + 32 := u64_of_lt (by
    simp only [sizeofMemoryBlock]; omega)
  obtain ⟨hdvd, hge, hlt⟩ := alignUp_spec (x := size + 32) (show 0 < regularPageSize by decide)
    (by simp only [regularPageSize]; omega)
  obtain ⟨n, hn⟩ := hdvd
  have hcount : regularPageSize * n / regularPageSize = n := Nat.mul_div_cancel_left n (by decide)
  have hpages : regularPageSize * n = n * 4096 := Nat.mul_comm ..
  rw [hsum, hn, hcount] at hfits
  rw [hn] at hge hlt
  simp only [mallocLargeblock, hsum, hn, hcount, Exec.bind_eq_ok, kernelAssert_eq_ok] at hret
  obtain ⟨⟨a, s⟩, halloc, -, hne, hret⟩ := hret
  cases hret
  rcases hA.allocPages hheld (by omega) hfits halloc with ⟨h0, -⟩ | ⟨hpos, hpage, hlt', hapart, hheld'⟩
  · exact absurd h0 hne
  simp only [regularPageSize] at hge hlt hlt'
  have ha : IsHeader a := ⟨Nat.dvd_trans (by decide) hpage, by omega⟩
  have hv : u64Sub (regularPageSize * n) sizeofMemoryBlock = n * regularPageSize - 32 := by
    rw [hpages, u64Sub_of_le (by omega) (by simp only [sizeofMemoryBlock]; omega)]
    rfl
  rw [hv]
  obtain ⟨m, hm⟩ : ∃ m, m = setBlockSize (setBlockPadding (setLinks k.mem a 0 0) a 0) a
    (n * regularPageSize - 32) := ⟨_, rfl⟩
  have hout : ∀ b, b < a ∨ a + 32 ≤ b → m b = k.mem b := by
    intro b hb
    simp only [hm, setLinks, setMemoryBlockField_of_outside (b := b) _ hb, Nat.reduceLT]
  have hother : ∀ z, 32 ∣ z → z ≠ a → ∀ j < 4, memoryBlockField m z j = memoryBlockField k.mem z j :=
    fun z hz hza j hj => memoryBlockField_congr (fun c h1 h2 => hout c (by have := ha.1; omega)) hj
  have hsizes : ∀ z, 32 ∣ z → blockSize m z =
      if z = a then n * regularPageSize - 32 else blockSize k.mem z := by
    intro z hz
    by_cases hza : z = a
    · rw [if_pos hza, hm, blockSize_setBlockSize ha.1 hz, if_pos hza]
      simp only [regularPageSize]
      omega
    · rw [if_neg hza]
      exact hother z hz hza 0 (by decide)
  have hnotin : ∀ z ∈ free ++ supers ++ live, z ≠ a := fun z hz h =>
    H.notMem_of_apart (by omega) hapart (h ▸ hz)
  have L : HeapLists { k with mem := m, pmm := s } free supers := H.lists.congr rfl rfl rfl
    (fun z hz => hother z (H.lists.header z hz).1 (hnotin z (List.mem_append_left _ hz)) 1 (by decide))
    fun z hz => hother z (H.lists.header z hz).1 (hnotin z (List.mem_append_left _ hz)) 2 (by decide)
  have H' : HeapInv { k with mem := m, pmm := s } ((a, n) :: held) (a :: live) free supers :=
    H.addRange hpos hpage hlt' hapart (by omega) L (fun z hz => List.mem_cons.mp hz)
      List.perm_middle hsizes (fun _ => .head _) fun z hz => .tail _ hz
  have hframe : Frame k held live { k with mem := m, pmm := s } ((a, n) :: held) := by
    refine ⟨fun b hb hin => hout b ?_, fun z hz => ?_⟩
    · by_contra hcon
      have hrange : a ≤ b ∧ b < a + n * regularPageSize := by
        simp only [regularPageSize]
        omega
      exact not_inPages_of_apart hapart hrange.1 hrange.2 (hin ⟨(a, n), .head _, hrange⟩)
    · exact hother z (H.liveHeader z hz).1 (hnotin z (List.mem_append_right _ hz)) 0 (by decide)
  have hfit : size ≤ blockSize m a := by
    rw [hsizes a ha.1, if_pos rfl]
    simp only [regularPageSize]
    omega
  rw [hm] at H' hframe hfit
  exact ⟨a, n, u64_of_lt (by simp only [sizeofMemoryBlock]; omega), H', hheld', hframe, hfit, rfl⟩

theorem addSuperBlock_spec (H : HeapInv k held live free supers) (hheld : Held k.pmm held)
    (hfits : Fits 1) (hfit : size ≤ 4064) (hret : addSuperBlock A k size = .ok k') :
    ∃ a, HeapInv k' ((a, 1) :: held) live free (a :: supers) ∧ Held k'.pmm ((a, 1) :: held) ∧
      Frame k held live k' ((a, 1) :: held) ∧ k'.gSuperBlocks = a ∧ size ≤ blockSize k'.mem a ∧
      k'.gHhdmOffset = k.gHhdmOffset ∧ A.pmmAllocPagesHhdm k.pmm 1 = .ok (a, k'.pmm) ∧
      ∀ b, a + 32 ≤ b → b < a + regularPageSize → k'.mem b = k.mem b := by
  have hcount : divRoundUp (u64 (size + sizeofMemoryBlock)) regularPageSize = 1 := by
    simp only [divRoundUp, sizeofMemoryBlock, regularPageSize, u64Sub, u64]
    omega
  have hv : u64Sub (u64 (1 * regularPageSize)) sizeofMemoryBlock = 1 * regularPageSize - 32 := rfl
  simp only [addSuperBlock, hcount, hv, Exec.bind_eq_ok, kernelAssert_eq_ok] at hret
  obtain ⟨⟨a, s⟩, halloc, -, hne, hret⟩ := hret
  rcases hA.allocPages hheld Nat.one_pos hfits halloc with ⟨h0, -⟩ | ⟨hpos, hpage, hlt, hapart, hheld'⟩
  · exact absurd h0 hne
  have ha : IsHeader a := ⟨Nat.dvd_trans (by decide) hpage, by simp only [regularPageSize] at hlt; omega⟩
  have hnew := H.notMem_of_apart Nat.one_pos hapart
  have hnew₀ : a ∉ 0 :: (free ++ ([] ++ [] ++ supers)) := fun h => by
    rcases List.mem_cons.mp h with h | h
    · omega
    · exact hnew (List.mem_append_left _ h)
  have L₀ : HeapLists { k with mem := setBlockSize k.mem a (1 * regularPageSize - 32), pmm := s }
      free ([] ++ [] ++ supers) :=
    (H.lists.setBlockSize ha.1).congr rfl rfl rfl (fun _ _ => rfl) fun _ _ => rfl
  have hk' : k' = { k with
      mem := relink (setLinks (setBlockSize k.mem a (1 * regularPageSize - 32)) a 0 (supers.headD 0))
        0 a (supers.headD 0) a
      pmm := s, gSuperBlocks := a } := by
    rw [← H.lists.superLinked.head, ← Except.ok.inj hret]
    by_cases hsuper : k.gSuperBlocks = 0 <;> simp [relink, setLinks, hsuper]
  obtain ⟨L, hlinks⟩ := L₀.putSuper ha hnew₀ (hk'.trans (by simp))
  have hsizes : ∀ z, 32 ∣ z → blockSize k'.mem z =
      if z = a then 1 * regularPageSize - 32 else blockSize k.mem z := fun z hz => by
    rw [hlinks.size z hz, blockSize_setBlockSize ha.1 hz (by decide)]
  have hperm : (free ++ a :: supers ++ live).Perm (a :: (free ++ supers ++ live)) :=
    List.perm_middle.append_right live
  have H' : HeapInv k' ((a, 1) :: held) live free (a :: supers) :=
    H.addRange hpos hpage hlt hapart Nat.one_pos L (fun z hz => .inr hz) hperm hsizes
      (fun h => absurd rfl h) fun z hz => hz
  have hfit' : size ≤ blockSize k'.mem a := by
    rw [hsizes a ha.1, if_pos rfl]
    exact hfit
  have hsameByte : ∀ b, b < a ∨ a + 32 ≤ b → ¬InHeaders (free ++ supers ++ live) b →
      k'.mem b = k.mem b := fun b hba hheaders =>
    (hlinks.outside b (by
      rintro ⟨z, hz, h1, h2⟩
      rcases List.mem_cons.mp hz with rfl | hz
      · simp only [sizeofMemoryBlock] at h2
        omega
      · exact hheaders ⟨z, List.mem_append_left _ hz, h1, h2⟩)).trans
      (setMemoryBlockField_of_outside (by decide) hba)
  refine ⟨a, H', by rw [hk']; exact hheld', ⟨fun b hb hin => ?_, fun z hz => ?_⟩, by rw [hk'], hfit',
    by rw [hk'], by rw [hk']; exact halloc, fun b h1 h2 => ?_⟩
  · have hout : b < a ∨ a + 32 ≤ b := by
      by_contra hcon
      have hrange : a ≤ b ∧ b < a + 1 * regularPageSize := by
        simp only [regularPageSize]
        omega
      exact not_inPages_of_apart hapart hrange.1 hrange.2 (hin ⟨(a, 1), .head _, hrange⟩)
    exact hsameByte b hout fun hin => hb (H.private_of_header hin)
  · have hza : z ≠ a := fun h => hnew (h ▸ List.mem_append_right _ hz)
    rw [hsizes z (H.liveHeader z hz).1, if_neg hza]
  · refine hsameByte b (.inr h1) fun hin => ?_
    exact not_inPages_of_apart hapart (by omega) (by omega) (H.private_of_header hin).1

omit hA in
/-- The heap before `init_kernel_heap`, which holds nothing. -/
theorem empty (hfree : k.gFreeBlocks = 0) (htail : k.gFreeBlockTail = 0)
    (hsuper : k.gSuperBlocks = 0) : HeapInv k [] [] [] [] := by
  have hnil : DoublyLinked k.mem 0 [] := ⟨by simp, rfl, by simp⟩
  refine ⟨⟨hfree ▸ hnil, htail, hsuper ▸ hnil, by simp, .nil⟩, by simp, by simp, .nil, ?_, by simp,
    .nil, by simp⟩
  exact ⟨by simp, by simp, by simp, fun _ _ _ ⟨_, h, _⟩ => absurd h List.not_mem_nil⟩

theorem initKernelHeap_spec (hheld : Held k.pmm []) (hfree : k.gFreeBlocks = 0)
    (htail : k.gFreeBlockTail = 0) (hret : initKernelHeap A k = .ok k') :
    ∃ a, HeapInv k' [(a, 1)] [] [] [a] ∧ Held k'.pmm [(a, 1)] ∧ k'.gHhdmOffset = k.gHhdmOffset := by
  simp only [initKernelHeap, Exec.bind_eq_ok] at hret
  obtain ⟨⟨a, s⟩, halloc, hret⟩ := hret
  rcases hA.allocPage hheld halloc with ⟨rfl, -⟩ | ⟨hpos, hpage, hlt, hapart, hheld'⟩
  · simp [throw, throwThe, MonadExceptOf.throw] at hret
  rw [if_neg (Nat.ne_of_gt hpos)] at hret
  have ha : IsHeader a :=
    ⟨Nat.dvd_trans (by decide) hpage, by simp only [regularPageSize] at hlt; omega⟩
  have H₀ : HeapInv { k with gSuperBlocks := 0 } [] [] [] [] := empty hfree htail rfl
  have L₀ : HeapLists { k with
      mem := setBlockSize k.mem a (1 * regularPageSize - 32), pmm := s, gSuperBlocks := 0 } []
      ([] ++ [] ++ []) :=
    (H₀.lists.setBlockSize ha.1).congr rfl rfl rfl (fun _ _ => rfl) fun _ _ => rfl
  have hk' : k' = { k with
      mem := relink (setLinks (setBlockSize k.mem a (1 * regularPageSize - 32)) a 0 0) 0 a 0 a
      pmm := s, gSuperBlocks := a } := (Except.ok.inj hret).symm
  obtain ⟨L, hlinks⟩ := L₀.putSuper ha (by simp; omega) (hk'.trans (by simp))
  have hsizes : ∀ z, 32 ∣ z → blockSize k'.mem z =
      if z = a then 1 * regularPageSize - 32 else blockSize k.mem z := fun z hz => by
    rw [hlinks.size z hz, blockSize_setBlockSize ha.1 hz (by decide)]
  refine ⟨a, H₀.addRange hpos hpage hlt hapart Nat.one_pos L (fun z hz => .inr hz) (.refl _) hsizes
    (fun h => absurd rfl h) fun z hz => hz, by rw [hk']; exact hheld', by rw [hk']⟩

omit hA in
/-- A small request is served from a block of the lists, or from a new super block. -/
theorem kmalloc_small (H : HeapInv k held live free supers) (hpos : 1 ≤ size)
    (hsmall : alignUp size sizeofMemoryBlock ≤ 4064) :
    (∃ x ∈ free ++ supers, firstFit k (alignUp size sizeofMemoryBlock) = .ok x ∧
      alignUp size sizeofMemoryBlock ≤ blockSize k.mem x ∧
      kmalloc A k size = mallocFromBlock k x (alignUp size sizeofMemoryBlock)) ∨
    firstFit k (alignUp size sizeofMemoryBlock) = .ok 0 ∧ kmalloc A k size = (do
      let k ← addSuperBlock A k (alignUp size sizeofMemoryBlock)
      mallocFromBlock k k.gSuperBlocks (alignUp size sizeofMemoryBlock)) := by
  unfold firstFit
  have hword : ∀ x ∈ free ++ supers, x < 2 ^ 64 := fun x hx => (H.lists.header x hx).2
  rw [kmalloc, kernelAssert_ok (by omega), Exec.ok_bind]
  dsimp only
  rw [if_neg (show ¬alignUp size sizeofMemoryBlock > regularPageSize - sizeofMemoryBlock from
    Nat.not_lt.mpr hsmall)]
  obtain ⟨x, hfind, hx⟩ := findBigEnoughBlock_spec H.lists.freeLinked
    fun x hx => hword x (List.mem_append_left _ hx)
  rw [hfind]
  simp only [Exec.ok_bind]
  by_cases hx0 : x ≠ 0
  · simp only [if_pos hx0]
    exact .inl ⟨x, List.mem_append_left _ (hx hx0).1, rfl, (hx hx0).2, rfl⟩
  simp only [if_neg hx0]
  obtain ⟨y, hfind, hy⟩ := findBigEnoughBlock_spec H.lists.superLinked
    fun x hx => hword x (List.mem_append_right _ hx)
  rw [hfind]
  simp only [Exec.ok_bind]
  by_cases hy0 : y ≠ 0
  · simp only [if_pos hy0]
    exact .inl ⟨y, List.mem_append_right _ (hy hy0).1, rfl, (hy hy0).2, rfl⟩
  · rw [if_neg hy0]
    exact .inr ⟨by rw [not_not.mp hy0], rfl⟩

/-- Where the block of a small request comes from. -/
theorem kmalloc_small_source {p : Nat} (H : HeapInv k held live free supers)
    (hheld : Held k.pmm held) (hpos : 1 ≤ size) (hsmall : alignUp size sizeofMemoryBlock ≤ 4064)
    (hfits : Fits 1) (hret : kmalloc A k size = .ok (p, k')) :
    ∃ k₁ held₁ supers₁ x, HeapInv k₁ held₁ live free supers₁ ∧ Held k₁.pmm held₁ ∧
      Frame k held live k₁ held₁ ∧ k₁.gHhdmOffset = k.gHhdmOffset ∧ x ∈ free ++ supers₁ ∧
      alignUp size sizeofMemoryBlock ≤ blockSize k₁.mem x ∧
      mallocFromBlock k₁ x (alignUp size sizeofMemoryBlock) = .ok (p, k') ∧
      FitsFirst A k (alignUp size sizeofMemoryBlock) x ∧
      ∀ b, x + 32 ≤ b → b < x + 32 + alignUp size sizeofMemoryBlock → k₁.mem b = k.mem b := by
  rcases H.kmalloc_small (A := A) hpos hsmall with ⟨x, hx, hfirst, hfit, heq⟩ | ⟨hfirst, heq⟩
  · have hne : x ≠ 0 := by
      have := (H.extent_lt (List.mem_append_left _ hx)).1
      simp only [regularPageSize] at this
      omega
    exact ⟨k, held, supers, x, H, hheld, ⟨fun _ _ _ => rfl, fun _ _ => rfl⟩, rfl, hx, hfit, heq ▸ hret,
      .inl ⟨hne, hfirst⟩, fun _ _ _ => rfl⟩
  · rw [heq] at hret
    obtain ⟨k₁, hadd, hret⟩ := Exec.bind_eq_ok.mp hret
    obtain ⟨a, H₁, hheld₁, hframe₁, hhead, hfit, hoff, halloc, hbytes⟩ :=
      H.addSuperBlock_spec hA hheld hfits hsmall hadd
    exact ⟨k₁, _, _, a, H₁, hheld₁, hframe₁, hoff, by simp, hfit, hhead ▸ hret,
      .inr ⟨hfirst, _, halloc⟩, fun b h1 h2 => hbytes b h1 (by simp only [regularPageSize]; omega)⟩

theorem kmalloc_spec {p : Nat} (H : HeapInv k held live free supers) (hheld : Held k.pmm held)
    (hpos : 1 ≤ size) (hle : size ≤ 2 ^ 63) (hfits : Fits (heapPages size))
    (hret : kmalloc A k size = .ok (p, k')) : Served Held k held live size p k' := by
  obtain ⟨hdvd, hge, hlt, -⟩ := alignUp_block (show size ≤ 2 ^ 64 - 32 by omega)
  by_cases hlarge : 4064 < alignUp size sizeofMemoryBlock
  · rw [kmalloc_large hpos hlarge] at hret
    obtain ⟨a, n, hp, H', hheld', hframe, hsize, hoff⟩ :=
      H.mallocLargeblock_spec hA hheld hdvd hlarge (by omega) hfits hret
    exact ⟨a, (a, n) :: held, free, supers, hp, H', hheld', hframe, hge.trans hsize, hoff⟩
  · have hsmall := Nat.le_of_not_lt hlarge
    rw [heapPages_small hpos (by omega) hsmall] at hfits
    obtain ⟨k₁, held₁, supers₁, x, H₁, hheld₁, hframe₁, hoff, hx, hfit, hret, -⟩ :=
      H.kmalloc_small_source hA hheld hpos hsmall hfits hret
    obtain ⟨k₂, free', supers', hret', H', hframe, hsize, hsame, -⟩ :=
      H₁.mallocFromBlock_spec hx (by omega) hdvd hfit
    cases hret'.symm.trans hret
    exact ⟨x, held₁, free', supers', rfl, H', hsame.1 ▸ hheld₁, hframe₁.trans hframe,
      hge.trans hsize, hsame.2.trans hoff⟩

end Allocate

section Release
variable {A : PageAllocator σ} {offset : Nat} {Fits : Nat → Prop}
  {Held : σ → List (Nat × Nat) → Prop}

/-- A block of more than a page is a page range of its own. -/
theorem range_of_large (H : HeapInv k held (x :: live) free supers)
    (hlarge : 4064 < blockSize k.mem x) :
    ∃ n, n ≠ 1 ∧ (x, n) ∈ held ∧ blockExtent k.mem x = n * regularPageSize := by
  have hx : x ∈ free ++ supers ++ x :: live := by simp
  obtain ⟨⟨a, n⟩, hr, h1, h2⟩ := H.extent hx
  have hn : n ≠ 1 := by
    rintro rfl
    simp only [blockExtent, sizeofMemoryBlock, regularPageSize] at h1 h2
    omega
  obtain ⟨ha, hfull⟩ := H.large _ hr hn
  have hxa : x = a := by
    by_contra hne
    have hpos := H.tiles.pos x hx
    rcases H.tiles.disjoint x a hx (List.mem_append_right _ ha) hne with h | h
    · simp only at h1 h2
      omega
    · simp only at h1 h2 hfull
      omega
  subst hxa
  exact ⟨n, hn, hr, hfull⟩

/-- The heap gives a large block's pages back. -/
theorem dropRange {n : Nat} (H : HeapInv k held (x :: live) free supers) (hr : (x, n) ∈ held)
    (hfull : blockExtent k.mem x = n * regularPageSize) {s : σ} :
    HeapInv { k with pmm := s } (held.erase (x, n)) live free supers := by
  have hx : x ∈ free ++ supers ++ x :: live := by simp
  have hpos := H.tiles.pos x hx
  have hperm : (free ++ supers ++ x :: live).Perm (x :: (free ++ supers ++ live)) := List.perm_middle
  have hnodup := List.nodup_cons.mp (hperm.nodup_iff.mp H.nodup)
  have hheld : held.Perm ((x, n) :: held.erase (x, n)) := List.perm_cons_erase hr
  obtain ⟨hothers, hrest⟩ := List.pairwise_cons.mp
    ((hheld.pairwise_iff fun h => Or.symm h).mp H.apart)
  have hother : ∀ r ∈ held.erase (x, n), x + blockExtent k.mem x ≤ r.1 ∨
      r.1 + r.2 * regularPageSize ≤ x := fun r h => by
    rw [hfull]
    exact hothers r h
  refine ⟨H.lists.congr rfl rfl rfl (fun _ _ => rfl) fun _ _ => rfl,
    fun z hz => H.liveHeader z (.tail _ hz), fun z hz => H.size z (hperm.mem_iff.mpr (.tail _ hz)),
    hnodup.2, H.tiles.removeRegion hx (fun lo hi => ?_) (fun z => ?_) ?_,
    fun r h => H.range r (List.mem_of_mem_erase h), hrest, fun r h hne => ?_⟩
  · constructor
    · rintro ⟨r, h, rfl, rfl⟩
      have := hother r h
      exact ⟨⟨r, List.mem_of_mem_erase h, rfl, rfl⟩, by omega⟩
    · rintro ⟨⟨r, h, rfl, rfl⟩, hne⟩
      refine ⟨r, (List.mem_erase_of_ne ?_).mpr h, rfl, rfl⟩
      rintro rfl
      rw [hfull] at hne
      exact hne.elim (fun h => h rfl) fun h => h rfl
  · rw [hperm.mem_iff, List.mem_cons]
    constructor
    · exact fun h => ⟨.inr h, fun heq => hnodup.1 (heq ▸ h)⟩
    · exact fun h => h.1.resolve_left h.2
  · rintro lo hi ⟨r, h, rfl, rfl⟩
    rcases List.mem_cons.mp (hheld.mem_iff.mp h) with rfl | h
    · exact .inl ⟨rfl, by rw [hfull]⟩
    · exact .inr (hother r h)
  · obtain ⟨hmem, hext⟩ := H.large r (List.mem_of_mem_erase h) hne
    refine ⟨(List.mem_cons.mp hmem).resolve_left fun heq => ?_, hext⟩
    have := hother r h
    rw [heq] at hext
    omega

theorem kfree_spec (hA : A.Lawful offset Fits Held) (H : HeapInv k held (x :: live) free supers)
    (hheld : Held k.pmm held) (hoff : k.gHhdmOffset = offset)
    (hret : kfree A k (x + 32) = .ok k') :
    ∃ held' free', HeapInv k' held' live free' supers ∧ Held k'.pmm held' ∧
      Frame k held (x :: live) k' held' ∧ k'.gHhdmOffset = k.gHhdmOffset := by
  have hx : x ∈ free ++ supers ++ x :: live := by simp
  obtain ⟨hpage, hlt⟩ := H.extent_lt hx
  have hpos := (H.size x hx).2
  simp only [blockExtent, sizeofMemoryBlock] at hlt
  have hheader : u64Sub (x + 32) sizeofMemoryBlock = x := by
    rw [u64Sub_of_le (by omega) (by simp only [sizeofMemoryBlock]; omega), sizeofMemoryBlock]
    omega
  simp only [kfree, hheader] at hret
  split at hret
  · rename_i hlarge
    obtain ⟨n, hn, hr, hfull⟩ := H.range_of_large hlarge
    have htotal : u64 (blockSize k.mem x + sizeofMemoryBlock) = n * regularPageSize := by
      rw [← hfull, u64_of_lt (by simp only [sizeofMemoryBlock, regularPageSize] at hpage ⊢; omega),
        Nat.add_comm]
      rfl
    have hcount : n * regularPageSize / regularPageSize = n := Nat.mul_div_cancel n (by decide)
    subst hoff
    simp only [freeLargeblock, hheader, htotal, hcount, vmmVirtHhdmToPhys, Exec.bind_eq_ok] at hret
    obtain ⟨s, hfree, hret⟩ := hret
    cases hret
    exact ⟨_, free, H.dropRange hr hfull, hA.freePages hheld hr hfree,
      ⟨fun _ _ _ => rfl, fun _ _ => rfl⟩, rfl⟩
  · rename_i hsmall
    have hlists : x ∉ free ++ supers := fun h =>
      (List.nodup_append.mp H.nodup).2.2 x h x (.head _) rfl
    have hnew : x ∉ 0 :: (free ++ [] ++ [] ++ supers) := by
      simp only [List.append_nil, List.mem_cons, not_or]
      exact ⟨by simp only [regularPageSize] at hpage; omega, hlists⟩
    have L : HeapLists k (free ++ [] ++ []) supers := by simpa using H.lists
    have hk' : k' = { k with
        mem := relink (setLinks k.mem x (free.getLastD 0) 0) (free.getLastD 0) x 0 x
        gFreeBlocks := if free.getLastD 0 = 0 then x else k.gFreeBlocks
        gFreeBlockTail := x } := by
      have htail := H.lists.freeTail
      by_cases hfree : k.gFreeBlocks = 0
      · have hnil : free = [] := H.lists.freeLinked.eq_nil (.inl hfree)
        rw [if_pos hfree] at hret
        rw [← Except.ok.inj hret, hnil]
        rfl
      · have htail0 : free.getLastD 0 ≠ 0 := fun h0 => hfree <| by
          rw [H.lists.freeLinked.head, H.lists.freeLinked.eq_nil (.inr h0)]
          rfl
        rw [if_neg hfree] at hret
        rw [← Except.ok.inj hret, htail, if_neg htail0, relink, if_neg htail0]
        rfl
    obtain ⟨L', hlinks⟩ := L.putFree (H.header hx) hnew (hk'.trans (by simp))
    have hperm : (free ++ [x] ++ supers ++ live).Perm (free ++ supers ++ x :: live) := by
      simp only [List.append_assoc, List.cons_append, List.nil_append]
      exact List.Perm.append_left free List.perm_middle.symm
    have hlarge : ∀ r ∈ held, r.2 ≠ 1 → r.1 ∈ x :: live → r.1 ∈ live := by
      intro r hr hne hmem
      refine (List.mem_cons.mp hmem).resolve_left fun heq => ?_
      have hfull := (H.large r hr hne).2
      rw [heq] at hfull
      simp only [blockExtent, sizeofMemoryBlock, regularPageSize] at hfull hsmall
      omega
    refine ⟨held, free ++ [x], H.move (by simpa using L') hperm hlinks.size hlarge,
      by rw [hk']; exact hheld, ⟨fun b hb _ => hlinks.outside b fun hin => hb ?_,
        fun z hz => hlinks.size z (H.liveHeader z hz).1⟩, by rw [hk']⟩
    obtain ⟨z, hz, hzb⟩ := hin
    refine H.private_of_header ⟨z, ?_, hzb⟩
    simp only [List.append_nil, List.mem_cons] at hz
    rcases hz with rfl | hz
    · exact hx
    · exact List.mem_append_left _ hz

end Release

end HeapInv
end TrazelOs
