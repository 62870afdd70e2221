import TrazelOs.Kernel.Machine
import TrazelOs.Kernel.Memory
import TrazelOs.Verify.HeapSizes
import TrazelOs.Verify.Objects

/-! # New wait queues

`pm_create_wait_queue` does not initialise the queue: its two pointers are the bytes that the block
held before. The queue is empty exactly when these are zero (`pmCreateWaitQueue_empty_iff`). -/

namespace TrazelOs

theorem FitsFirst.unique {A : PageAllocator σ} {k : Kernel σ} {size x y : Nat}
    (hx : FitsFirst A k size x) (hy : FitsFirst A k size y) : x = y := by
  rcases hx with ⟨hne, hx⟩ | ⟨hx, s, halloc⟩ <;> rcases hy with ⟨hne', hy⟩ | ⟨hy, s', halloc'⟩
  · exact Except.ok.inj (hx.symm.trans hy)
  · exact absurd (Except.ok.inj (hx.symm.trans hy)) hne
  · exact absurd (Except.ok.inj (hy.symm.trans hx)) hne'
  · exact congrArg Prod.fst (Except.ok.inj (halloc.symm.trans halloc'))

theorem leValue_eq_zero {bytes : List Byte} : leValue bytes = 0 ↔ ∀ b ∈ bytes, b = 0 := by
  induction bytes with
  | nil => exact iff_of_true rfl nofun
  | cons b bytes ih =>
    have hb : b.toNat = 0 ↔ b = 0 := ⟨fun h => BitVec.eq_of_toNat_eq h, fun h => h ▸ rfl⟩
    rw [leValue, List.forall_mem_cons, ← ih, ← hb]
    omega

theorem leValue_loadBytes_eq_zero {m : Memory} {a n : Nat} (h : a + n ≤ 2 ^ 64) :
    leValue (loadBytes m a n) = 0 ↔ ∀ i < n, m (a + i) = 0 := by
  rw [leValue_eq_zero, loadBytes, List.forall_mem_map]
  simp only [List.mem_range]
  exact forall₂_congr fun i hi => by rw [u64_of_lt (by omega)]

section Queue
variable {count offset : Nat} {base : Nat → Prop} {live : List Nat}

/-- A small block has the bytes that its memory had. -/
theorem KernelHeap.kmalloc_small_bytes {k k' : Kernel Pmm} {size p : Nat}
    (D : DirectMapFits count offset) (h : KernelHeap count offset base k live) (hcount : 0 < count)
    (hpos : 1 ≤ size) (hsize : size ≤ 4064) (hret : TrazelOs.kmalloc pmmBitmap k size = .ok (p, k')) :
    ∃ x, FitsFirst pmmBitmap k (alignUp size sizeofMemoryBlock) x ∧ p = x + 32 ∧
      p + size ≤ 2 ^ 64 ∧ ∀ i < size, k'.mem (p + i) = k.mem (p + i) := by
  obtain ⟨held, free, supers, H, hheld⟩ := h.heap
  obtain ⟨hdvd, hge, hlt, -⟩ := alignUp_block (show size ≤ 2 ^ 64 - 32 by omega)
  obtain ⟨k₁, held₁, supers₁, x, H₁, -, -, -, hx, hfit, hret, hfirst, hbytes₁⟩ :=
    H.kmalloc_small_source (pmmBitmap_lawful D) hheld hpos (by omega) hcount hret
  obtain ⟨k₂, free', supers', hret', -, -, -, -, hbytes⟩ :=
    H₁.mallocFromBlock_spec hx (by omega) hdvd hfit
  cases hret'.symm.trans hret
  have hextent := (H₁.extent_lt (List.mem_append_left _ hx)).2
  simp only [blockExtent, sizeofMemoryBlock] at hextent
  exact ⟨x, hfirst, rfl, by omega, fun i hi =>
    (hbytes (x + 32 + i) (by omega) (by omega)).trans (hbytes₁ (x + 32 + i) (by omega) (by omega))⟩

/-- The queue at `p` is empty, and waking its tasks does nothing. -/
def EmptyQueue (s : System μ) (p : Nat) : Prop :=
  s.waitQueues p = some ⟨0, 0⟩ ∧ pmWaitqueueDequeueAll s p = .ok s

theorem emptyQueue_iff {s : System μ} {p : Nat} :
    EmptyQueue s p ↔ s.waitQueues p = some ⟨0, 0⟩ := by
  refine and_iff_left_of_imp fun hq => ?_
  rw [pmWaitqueueDequeueAll, show 2 ^ 64 = 2 ^ 64 - 1 + 1 from rfl, pmWaitqueueDequeueAll.loop,
    deref_eq_ok.mpr hq, Exec.ok_bind]
  rfl

theorem emptyQueue_setWaitQueue {s : System μ} {p : Nat} {q : TaskQueue} :
    EmptyQueue (s.setWaitQueue p q) p ↔ q = ⟨0, 0⟩ := by
  have hself : (s.setWaitQueue p q).waitQueues p = some q := Function.update_self ..
  rw [emptyQueue_iff, hself, Option.some.injEq]

/-- The new queue is empty exactly when the first sixteen bytes of the block that `kmalloc` takes
for it are zero. -/
theorem pmCreateWaitQueue_empty_iff {s s' : System (Kernel Pmm)} {p : Nat}
    (D : DirectMapFits count offset) (h : KernelHeap count offset base s.mem live) (hcount : 0 < count)
    (hret : pmCreateWaitQueue kernelMemory s = .ok (p, s')) :
    EmptyQueue s' p ↔ ∃ x, FitsFirst pmmBitmap s.mem 32 x ∧ ∀ i < 16, s.mem.mem (x + 32 + i) = 0 := by
  obtain ⟨⟨p', k'⟩, hmalloc, hret⟩ := Exec.bind_eq_ok.mp hret
  obtain ⟨x, hfirst, rfl, hlt, hbytes⟩ := h.kmalloc_small_bytes D hcount
    (show 1 ≤ sizeofPmWaitQueue by decide) (by decide) hmalloc
  simp only [sizeofPmWaitQueue] at hlt hbytes
  dsimp only at hret
  rw [if_neg (by omega), u64_of_lt (by omega)] at hret
  cases hret
  have hqueue : EmptyQueue (({ s with mem := k' } : System (Kernel Pmm)).setWaitQueue (x + 32)
      ⟨leValue (loadBytes k'.mem (x + 32) 8), leValue (loadBytes k'.mem (x + 32 + 8) 8)⟩) (x + 32) ↔
      ∀ i < 16, s.mem.mem (x + 32 + i) = 0 := by
    rw [emptyQueue_setWaitQueue, TaskQueue.mk.injEq, leValue_loadBytes_eq_zero (by omega), leValue_loadBytes_eq_zero (by omega)]
    constructor
    · rintro ⟨hhead, hrear⟩ i hi
      rw [← hbytes i hi]
      by_cases hlow : i < 8
      · exact hhead i hlow
      · have := hrear (i - 8) (by omega)
        rwa [show x + 32 + 8 + (i - 8) = x + 32 + i by omega] at this
    · intro hzero
      refine ⟨fun i hi => ?_, fun i hi => ?_⟩
      · rw [hbytes i (by omega)]
        exact hzero i (by omega)
      · rw [Nat.add_assoc, hbytes (8 + i) (by omega)]
        exact hzero (8 + i) (by omega)
  refine hqueue.trans ⟨fun hzero => ⟨x, hfirst, hzero⟩, ?_⟩
  rintro ⟨y, hy, hzero⟩
  rwa [hfirst.unique hy]

end Queue

/-- A queue that begins with something that is no task. -/
theorem pmWaitqueueDequeueAll_stale {s : System μ} {p : Nat} {q : TaskQueue}
    (hq : s.waitQueues p = some q) (hne : q.queuesHead ≠ 0) (hstale : s.pcbs q.queuesHead = none) :
    pmWaitqueueDequeueAll s p = .error .wild := by
  rw [pmWaitqueueDequeueAll, show 2 ^ 64 = 2 ^ 64 - 1 + 1 from rfl, pmWaitqueueDequeueAll.loop,
    deref_eq_ok.mpr hq, Exec.ok_bind, if_neg hne, wakeFirst, taskDequeue, deref, hstale]
  rfl

theorem pmCreateWaitQueue_empty_eightFrames : ∃ k p s, initKernelHeap pmmBitmap eightFrames = .ok k ∧
    pmCreateWaitQueue kernelMemory (bootSystem k 0 ⟨0, 0⟩) = .ok (p, s) ∧ EmptyQueue s p := by
  have hreturns : Exec.returns (initKernelHeap pmmBitmap eightFrames) (fun k =>
      (pmCreateWaitQueue kernelMemory (bootSystem k 0 ⟨0, 0⟩)).returns fun _ =>
        (firstFit k 32).returns (· = 4096) &&
          (List.range 16).all fun i => k.mem (4096 + 32 + i) = 0) = true := by decide +kernel
  obtain ⟨k, hinit, h⟩ := Exec.returns_iff.mp hreturns
  obtain ⟨⟨p, s⟩, hret, h⟩ := Exec.returns_iff.mp h
  obtain ⟨hfirst, hzero⟩ := Bool.and_eq_true_iff.mp h
  obtain ⟨x, hfirst, hx⟩ := Exec.returns_iff.mp hfirst
  obtain rfl := of_decide_eq_true hx
  obtain ⟨a, H, hheld, hoffset⟩ := HeapInv.initKernelHeap_spec (pmmBitmap_lawful eightFrames_fits)
    eightFrames_held rfl rfl hinit
  refine ⟨k, p, s, hinit, hret, (pmCreateWaitQueue_empty_iff eightFrames_fits
    ⟨hoffset, _, _, _, H, hheld⟩ (by decide) hret).mpr ⟨4096, .inl ⟨by decide, hfirst⟩, fun i hi => ?_⟩⟩
  exact of_decide_eq_true (List.all_eq_true.mp hzero i (List.mem_range.mpr hi))

/-- A queue in a block whose former owner has left a byte there. -/
theorem pmCreateWaitQueue_leftover : ∃ k p k₁ k₂ q s, initKernelHeap pmmBitmap eightFrames = .ok k ∧
    kmalloc pmmBitmap k 16 = .ok (p, k₁) ∧
    kfree pmmBitmap { k₁ with mem := storeBytes k₁.mem p [1] } p = .ok k₂ ∧
    pmCreateWaitQueue kernelMemory (bootSystem k₂ 0 ⟨0, 0⟩) = .ok (q, s) ∧
    s.waitQueues q = some ⟨1, 0⟩ ∧ pmWaitqueueDequeueAll s q = .error .wild := by
  have hreturns : Exec.returns (initKernelHeap pmmBitmap eightFrames) (fun k =>
      (kmalloc pmmBitmap k 16).returns fun r =>
        (kfree pmmBitmap { r.2 with mem := storeBytes r.2.mem r.1 [1] } r.1).returns fun k₂ =>
          (pmCreateWaitQueue kernelMemory (bootSystem k₂ 0 ⟨0, 0⟩)).returns fun r =>
            r.2.waitQueues r.1 = some ⟨1, 0⟩ && (r.2.pcbs 1).isNone) = true := by decide +kernel
  obtain ⟨k, hinit, h⟩ := Exec.returns_iff.mp hreturns
  obtain ⟨⟨p, k₁⟩, hmalloc, h⟩ := Exec.returns_iff.mp h
  obtain ⟨k₂, hfree, h⟩ := Exec.returns_iff.mp h
  obtain ⟨⟨q, s⟩, hret, h⟩ := Exec.returns_iff.mp h
  obtain ⟨hqueue, hstale⟩ := Bool.and_eq_true_iff.mp h
  have hqueue := of_decide_eq_true hqueue
  exact ⟨k, p, k₁, k₂, q, s, hinit, hmalloc, hfree, hret, hqueue,
    pmWaitqueueDequeueAll_stale hqueue (by decide) (Option.isNone_iff_eq_none.mp hstale)⟩

end TrazelOs
