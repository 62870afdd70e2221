import TrazelOs.Verify.Heap
import TrazelOs.Verify.PmmRun

/-! # Histories of the kernel heap

A history starts from the state `init_kernel_heap` leaves. It allocates and frees blocks in any
order, where only a live block is freed, and between two calls the owners of live blocks and the
rest of the kernel write to memory that is not the heap's. The page allocator is any that hands
out ranges apart from those it has handed out and not got back; `PageAllocator.traced` records
these ranges. `heapHistory_spec` is the invariant of all such histories. -/

namespace TrazelOs
open Theory

/-- The allocator with a record of the ranges it has handed out and not got back, named by their
addresses in the direct map. -/
def PageAllocator.traced (A : PageAllocator σ) (offset : Nat) :
    PageAllocator (σ × List (Nat × Nat)) where
  pmmAllocPageHhdm s := do
    let (a, t) ← A.pmmAllocPageHhdm s.1
    return (a, t, grant a 1 s.2)
  pmmAllocPagesHhdm s n := do
    let (a, t) ← A.pmmAllocPagesHhdm s.1 n
    return (a, t, grant a n s.2)
  pmmFreePages s physicalAddr n := do
    let t ← A.pmmFreePages s.1 physicalAddr n
    return (t, s.2.erase (u64 (physicalAddr + offset), n))

/-- The recorded ranges are `held`. -/
def Traced (Held : σ → List (Nat × Nat) → Prop) (s : σ × List (Nat × Nat))
    (held : List (Nat × Nat)) : Prop :=
  s.2 = held ∧ Held s.1 held ∧ ∀ r ∈ held, r.1 < 2 ^ 64

private theorem Grants.traced {Held : σ → List (Nat × Nat) → Prop} {held : List (Nat × Nat)}
    {n a : Nat} {s : σ} (hn : 0 < n) (hword : ∀ r ∈ held, r.1 < 2 ^ 64)
    (h : Grants Held held n a s) : Grants (Traced Held) held n a (s, grant a n held) := by
  rcases h with ⟨rfl, hheld⟩ | ⟨hpos, hpage, hlt, hapart, hheld⟩
  · exact .inl ⟨rfl, rfl, hheld, hword⟩
  · have hlen : 4096 ≤ n * regularPageSize := Nat.le_mul_of_pos_left _ hn
    refine .inr ⟨hpos, hpage, hlt, hapart, if_neg (Nat.ne_of_gt hpos), hheld, fun r hr => ?_⟩
    rcases List.mem_cons.mp hr with rfl | hr
    · exact Nat.lt_of_lt_of_le (by simp only; omega) hlt
    · exact hword r hr

theorem PageAllocator.Lawful.traced {A : PageAllocator σ} {offset : Nat} {Fits : Nat → Prop}
    {Held : σ → List (Nat × Nat) → Prop} (hA : A.Lawful offset Fits Held)
    (hoffset : offset < 2 ^ 64) : (A.traced offset).Lawful offset Fits (Traced Held) := by
  refine ⟨?_, ?_, ?_⟩
  · rintro ⟨s, _⟩ held a s' ⟨rfl, hheld, hword⟩ hret
    obtain ⟨⟨a, t⟩, halloc, hret⟩ := Exec.bind_eq_ok.mp hret
    cases hret
    exact (hA.allocPage hheld halloc).traced Nat.one_pos hword
  · rintro ⟨s, _⟩ held n a s' ⟨rfl, hheld, hword⟩ hn hfits hret
    obtain ⟨⟨a, t⟩, halloc, hret⟩ := Exec.bind_eq_ok.mp hret
    cases hret
    exact (hA.allocPages hheld hn hfits halloc).traced hn hword
  · rintro ⟨s, _⟩ held a n s' ⟨rfl, hheld, hword⟩ hmem hret
    obtain ⟨t, hfree, hret⟩ := Exec.bind_eq_ok.mp hret
    cases hret
    have haddr : u64 (u64Sub a offset + offset) = a := by
      have := hword _ hmem
      simp only [u64Sub, u64] at this ⊢
      omega
    refine ⟨by rw [haddr], hA.freePages hheld hmem hfree, fun r hr => ?_⟩
    exact hword r (List.mem_of_mem_erase hr)

/-- The header of the block whose payload is at `p`. -/
def blockOf (p : Nat) : Nat := u64Sub p sizeofMemoryBlock

/-- A state of the kernel with the pointers `kmalloc` has returned and `kfree` has not got back. -/
structure HeapHistory (σ : Type) where
  kernel : Kernel (σ × List (Nat × Nat))
  live : List Nat

/-- The page ranges the heap holds. -/
def HeapHistory.held (s : HeapHistory σ) : List (Nat × Nat) := s.kernel.pmm.2

inductive HeapStep (A : PageAllocator σ) (offset : Nat) (Held : σ → List (Nat × Nat) → Prop) :
    HeapHistory σ → HeapHistory σ → Prop
  | kmalloc : 1 ≤ size → size ≤ 2 ^ 63 →
    kmalloc (A.traced offset) s.kernel size = .ok (p, k) → HeapStep A offset Held s ⟨k, p :: s.live⟩
  | kfree : p ∈ s.live → kfree (A.traced offset) s.kernel p = .ok k →
    HeapStep A offset Held s ⟨k, s.live.erase p⟩
  /-- The rest of the kernel writes to memory that is not the heap's and uses the allocator. -/
  | others : ByteMemory.AgreeOn (HeapPrivate s.kernel.mem s.held (s.live.map blockOf))
      s.kernel.mem mem → Held pmm s.held →
    HeapStep A offset Held s ⟨{ s.kernel with mem, pmm := (pmm, s.held) }, s.live⟩

theorem blockOf_add {x : Nat} (h : x + 32 < 2 ^ 64) : blockOf (x + 32) = x := by
  rw [blockOf, u64Sub_of_le h (by simp only [sizeofMemoryBlock]; omega), sizeofMemoryBlock]
  omega

structure HeapHistory.Inv (offset : Nat) (Held : σ → List (Nat × Nat) → Prop) (s : HeapHistory σ) :
    Prop where
  heap : ∃ free supers, HeapInv s.kernel s.held (s.live.map blockOf) free supers
  pmm : Traced Held s.kernel.pmm s.held
  offset : s.kernel.gHhdmOffset = offset
  pointer : ∀ p ∈ s.live, p = blockOf p + 32

namespace HeapHistory.Inv

variable {A : PageAllocator σ} {offset : Nat} {Held : σ → List (Nat × Nat) → Prop}
  {s t : HeapHistory σ}

theorem step (hA : A.Lawful offset (fun _ => True) Held) (hoffset : offset < 2 ^ 64)
    (I : Inv offset Held s) (h : HeapStep A offset Held s t) : Inv offset Held t := by
  obtain ⟨free, supers, H⟩ := I.heap
  have hT := hA.traced hoffset
  cases h with
  | kmalloc hpos hle hret =>
    obtain ⟨x, held', free', supers', rfl, H', hheld', -, -, hoff⟩ :=
      H.kmalloc_spec hT I.pmm hpos hle trivial hret
    have hx : blockOf (x + 32) = x := blockOf_add (H'.payload_lt (by simp))
    obtain rfl := hheld'.1
    refine ⟨⟨free', supers', ?_⟩, hheld', hoff.trans I.offset, fun q hq => ?_⟩
    · rwa [List.map_cons, hx]
    · rcases List.mem_cons.mp hq with rfl | hq
      · rw [hx]
      · exact I.pointer q hq
  | @kfree p _ k hp hret =>
    have hperm : (blockOf p :: (s.live.erase p).map blockOf).Perm (s.live.map blockOf) :=
      ((List.perm_cons_erase hp).map blockOf).symm
    rw [I.pointer p hp] at hret
    obtain ⟨held', free', H', hheld', -, hoff⟩ :=
      (H.perm_live hperm).kfree_spec hT I.pmm I.offset hret
    obtain rfl := hheld'.1
    exact ⟨⟨free', supers, H'⟩, hheld', hoff.trans I.offset,
      fun q hq => I.pointer q (List.mem_of_mem_erase hq)⟩
  | others hagree hheld =>
    exact ⟨⟨free, supers, H.others hagree⟩, ⟨rfl, hheld, I.pmm.2.2⟩, I.offset, I.pointer⟩

theorem run (hA : A.Lawful offset (fun _ => True) Held) (hoffset : offset < 2 ^ 64)
    (I : Inv offset Held s) (h : Relation.ReflTransGen (HeapStep A offset Held) s t) :
    Inv offset Held t := by
  induction h with
  | refl => exact I
  | tail _ hstep ih => exact ih.step hA hoffset hstep

theorem initial (hA : A.Lawful offset (fun _ => True) Held) (hoffset : offset < 2 ^ 64)
    {k₀ k : Kernel (σ × List (Nat × Nat))} (hpmm : k₀.pmm.2 = []) (hheld : Held k₀.pmm.1 [])
    (hoff : k₀.gHhdmOffset = offset) (hfree : k₀.gFreeBlocks = 0) (htail : k₀.gFreeBlockTail = 0)
    (hinit : initKernelHeap (A.traced offset) k₀ = .ok k) : Inv offset Held ⟨k, []⟩ := by
  obtain ⟨a, H, hheld', hoff'⟩ := HeapInv.initKernelHeap_spec (hA.traced hoffset)
    (show Traced Held k₀.pmm [] from ⟨hpmm, hheld, by simp⟩) hfree htail hinit
  have hrec : k.pmm.2 = [(a, 1)] := hheld'.1
  refine ⟨⟨[], [a], ?_⟩, ?_, hoff'.trans hoff, by simp⟩
  · rw [HeapHistory.held, hrec]
    exact H
  · rw [HeapHistory.held, hrec]
    exact hheld'

end HeapHistory.Inv

/-- No byte of the payload of a live block changes. -/
def KeepsPayloads (s : HeapHistory σ) (m : Memory) : Prop :=
  ∀ p ∈ s.live, ∀ b, InPayload s.kernel.mem (blockOf p) b → m b = s.kernel.mem b

/-- **The kernel heap.** In every state of every history that starts from `init_kernel_heap`, the
free list and the super blocks are doubly linked lists, the free list ends at its tail pointer,
block sizes are multiples of 32, and the extents of the blocks in the lists and of the live blocks
tile the pages the heap holds: each page taken for small blocks is tiled on its own, each longer
range is one live block. No allocation and no release writes to the payload of a live block. -/
theorem heapHistory_spec {A : PageAllocator σ} {offset : Nat} {Held : σ → List (Nat × Nat) → Prop}
    {k₀ k : Kernel (σ × List (Nat × Nat))} {s : HeapHistory σ}
    (hA : A.Lawful offset (fun _ => True) Held) (hoffset : offset < 2 ^ 64)
    (hpmm : k₀.pmm.2 = []) (hheld : Held k₀.pmm.1 []) (hoff : k₀.gHhdmOffset = offset)
    (hfree : k₀.gFreeBlocks = 0) (htail : k₀.gFreeBlockTail = 0)
    (hinit : initKernelHeap (A.traced offset) k₀ = .ok k)
    (hrun : Relation.ReflTransGen (HeapStep A offset Held) ⟨k, []⟩ s) :
    (∃ free supers, HeapInv s.kernel s.held (s.live.map blockOf) free supers ∧
      ∀ page, (page, 1) ∈ s.held →
        Tiles (fun lo hi => lo = page ∧ hi = page + regularPageSize)
          (fun x => x ∈ free ++ supers ++ s.live.map blockOf ∧
            page ≤ x ∧ x < page + regularPageSize)
          (blockExtent s.kernel.mem)) ∧
    (∀ size p k', 1 ≤ size → size ≤ 2 ^ 63 →
      kmalloc (A.traced offset) s.kernel size = .ok (p, k') → KeepsPayloads s k'.mem) ∧
    (∀ p k', p ∈ s.live → kfree (A.traced offset) s.kernel p = .ok k' →
      KeepsPayloads s k'.mem) := by
  have I : HeapHistory.Inv offset Held s :=
    (HeapHistory.Inv.initial hA hoffset hpmm hheld hoff hfree htail hinit).run hA hoffset hrun
  obtain ⟨free, supers, H⟩ := I.heap
  have hT := hA.traced hoffset
  refine ⟨⟨free, supers, H, fun page hpage => ?_⟩, fun size p k' hpos hle hret q hq b hb => ?_,
    fun p k' hp hret q hq b hb => ?_⟩
  · have hregion : HeldRegion s.held page (page + regularPageSize) :=
      ⟨(page, 1), hpage, rfl, by rw [Nat.one_mul]⟩
    refine H.tiles.restrict hregion ?_
    rintro lo hi ⟨r, hr, rfl, rfl⟩
    by_cases heq : (page, 1) = r
    · subst heq
      exact .inl ⟨rfl, by rw [Nat.one_mul]⟩
    · have hap : Apart (page, 1) r := H.apart.forall hpage hr heq
      rw [Apart, Nat.one_mul] at hap
      exact .inr hap
  · obtain ⟨x, held', free', supers', -, -, -, hframe, -⟩ :=
      H.kmalloc_spec hT I.pmm hpos hle trivial hret
    exact hframe.payload H (List.mem_map_of_mem hq) hb
  · have hperm : (blockOf p :: (s.live.erase p).map blockOf).Perm (s.live.map blockOf) :=
      ((List.perm_cons_erase hp).map blockOf).symm
    rw [I.pointer p hp] at hret
    obtain ⟨held', free', -, -, hframe, -⟩ :=
      (H.perm_live hperm).kfree_spec hT I.pmm I.offset hret
    exact hframe.payload (H.perm_live hperm) (hperm.mem_iff.mpr (List.mem_map_of_mem hq)) hb

/-- A page allocator that hands out pages in ascending order and reuses none. -/
def bumpAllocator : PageAllocator Nat where
  pmmAllocPageHhdm s :=
    .ok (if (s + 1) * regularPageSize ≤ 2 ^ 64 then (s * regularPageSize, s + 1) else (0, s))
  pmmAllocPagesHhdm s n :=
    .ok (if (s + n) * regularPageSize ≤ 2 ^ 64 then (s * regularPageSize, s + n) else (0, s))
  pmmFreePages s _ _ := .ok s

def BumpHeld (s : Nat) (held : List (Nat × Nat)) : Prop :=
  0 < s ∧ ∀ r ∈ held, r.1 + r.2 * regularPageSize ≤ s * regularPageSize

theorem bumpAllocator_lawful : bumpAllocator.Lawful 0 (fun _ => True) BumpHeld := by
  have hgrants : ∀ {s n a s' : Nat} {held : List (Nat × Nat)}, BumpHeld s held →
      (if (s + n) * regularPageSize ≤ 2 ^ 64 then (s * regularPageSize, s + n) else (0, s)) = (a, s') →
      Grants BumpHeld held n a s' := by
    intro s n a s' held ⟨hs, hheld⟩ hret
    split at hret <;> cases hret
    · rename_i hlt
      rw [Nat.add_mul] at hlt
      refine .inr ⟨Nat.mul_pos hs (by decide), Nat.dvd_mul_left _ _, hlt, fun r hr => .inr (hheld r hr),
        Nat.add_pos_left hs n, fun r hr => ?_⟩
      rw [Nat.add_mul]
      rcases List.mem_cons.mp hr with rfl | hr
      · exact Nat.le_refl _
      · exact Nat.le_add_right_of_le (hheld r hr)
    · exact .inl ⟨rfl, hs, hheld⟩
  refine ⟨fun h hret => hgrants h (Except.ok.inj hret),
    fun h _ _ hret => hgrants h (Except.ok.inj hret), fun h _ hret => ?_⟩
  cases hret
  exact ⟨h.1, fun r hr => h.2 r (List.mem_of_mem_erase hr)⟩

set_option maxRecDepth 100000 in
theorem heapHistory_spec_bump :
    ∃ k p k', initKernelHeap (bumpAllocator.traced 0) ⟨fun _ => 0, 0, (1, []), 0, 0, 0, 0⟩ = .ok k ∧
      kmalloc (bumpAllocator.traced 0) k 24 = .ok (p, k') ∧
      ∃ free supers, HeapInv k' k'.pmm.2 [blockOf p] free supers := by
  obtain ⟨k, p, k', hinit, hret⟩ : ∃ k p k',
      initKernelHeap (bumpAllocator.traced 0) ⟨fun _ => 0, 0, (1, []), 0, 0, 0, 0⟩ = .ok k ∧
        kmalloc (bumpAllocator.traced 0) k 24 = .ok (p, k') := ⟨_, _, _, rfl, rfl⟩
  obtain ⟨⟨free, supers, H, -⟩, -⟩ := heapHistory_spec bumpAllocator_lawful (by decide)
    rfl ⟨by decide, by simp⟩ rfl rfl rfl hinit
    (.single (.kmalloc (show 1 ≤ 24 by decide) (by decide) hret))
  exact ⟨k, p, k', hinit, hret, free, supers, H⟩

end TrazelOs
