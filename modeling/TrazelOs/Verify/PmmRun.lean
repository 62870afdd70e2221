import TrazelOs.Verify.PmmInit
import Mathlib.Logic.Relation

/-! # Histories of the physical memory manager

A history starts from the state `init_pmm` leaves and allocates and releases page ranges in any
order, where only a range that was handed out and not released since is released. The invariant
`PmmHistory.Inv` says that every free page is usable memory outside the bitmap and that the live
ranges are disjoint ranges of used pages; `pmmHistory_spec` is what follows for the callers. -/

namespace TrazelOs

/-- Page `k` belongs to the range of `r.2` pages at the address `r.1`. -/
def PageOf (r : Nat × Nat) (k : Nat) : Prop :=
  r.1 ≤ k * regularPageSize ∧ k * regularPageSize < r.1 + r.2 * regularPageSize

/-- The ranges have no page in common. -/
def RangeDisjoint (r t : Nat × Nat) : Prop := ∀ k, PageOf r k → ¬PageOf t k

/-- A state of the manager with the ranges it has handed out and not got back. -/
structure PmmHistory where
  pmm : Pmm
  live : List (Nat × Nat)

/-- The live ranges after an allocation of `count` pages returned `addr`. -/
def grant (addr count : Nat) (live : List (Nat × Nat)) : List (Nat × Nat) :=
  if addr = 0 then live else (addr, count) :: live

inductive PmmStep : PmmHistory → PmmHistory → Prop
  | allocPage : pmmAllocPage s.pmm = .ok (a, p) → PmmStep s ⟨p, grant a 1 s.live⟩
  | allocPages : 1 ≤ n → n ≤ s.pmm.pageCount → pmmAllocPages s.pmm n = .ok (a, p) →
    PmmStep s ⟨p, grant a n s.live⟩
  | freePage : (a, 1) ∈ s.live → pmmFreePage s.pmm a = .ok p →
    PmmStep s ⟨p, s.live.erase (a, 1)⟩
  | freePages : (a, n) ∈ s.live → pmmFreePages s.pmm a n = .ok p →
    PmmStep s ⟨p, s.live.erase (a, n)⟩

/-- What an allocation of `n` pages in the state `p` returns: null and the same state when there
is no free run of `n` pages, else the lowest such run, whose bits it sets. -/
def AllocatesLowest (p : Pmm) (n : Nat) (result : Exec (Nat × Pmm)) : Prop :=
  ∃ a p', result = .ok (a, p') ∧ (a = 0 ↔ ∀ i, ¬p.FreeRun i n) ∧ (a = 0 → p' = p) ∧
    (a ≠ 0 → ∃ i, a = i * regularPageSize ∧ p.FreeRun i n ∧ (∀ j < i, ¬p.FreeRun j n) ∧
      ∀ k, p'.used k = (p.used k || decide (i ≤ k ∧ k < i + n)))

/-- What a release of the range `r` in the state `p` does: it clears the bits of the range. -/
def ReleasesExactly (p : Pmm) (r : Nat × Nat) (result : Exec Pmm) : Prop :=
  ∃ p', result = .ok p' ∧ ∀ k, (PageOf r k → p'.used k = false) ∧ (¬PageOf r k → p'.used k = p.used k)

/-- `(a, n)` is a range of `n` existing pages, from page `i` on. -/
private theorem pageOf_iff {i n k : Nat} :
    PageOf (i * regularPageSize, n) k ↔ i ≤ k ∧ k < i + n := by
  simp only [PageOf, regularPageSize]
  omega

@[simp] theorem Pmm.holdsBitmap_setBits {p : Pmm} {ks : List Nat} {v : Bool} {k : Nat} :
    (p.setBits ks v).HoldsBitmap k ↔ p.HoldsBitmap k := by
  have hcount : (p.setBits ks v).gBitmap.bitCount = p.gBitmap.bitCount := Pmm.setBits_pageCount
  simp only [Pmm.HoldsBitmap, Pmm.bitmapPhys, TzBitmap.length_eq, hcount, Pmm.setBits_addr,
    Pmm.setBits_gHhdmOffset]

/-- A page that may be handed out. -/
def Pmm.Grantable (entries : List MemmapEntry) (p : Pmm) (k : Nat) : Prop :=
  UsablePage entries k ∧ k ≠ 0 ∧ ¬p.HoldsBitmap k

structure PmmHistory.Inv (entries : List MemmapEntry) (s : PmmHistory) : Prop where
  pageCount : s.pmm.pageCount < 2 ^ 52
  free : ∀ k < s.pmm.pageCount, s.pmm.used k = false → s.pmm.Grantable entries k
  range : ∀ r ∈ s.live, ∃ i, r.1 = i * regularPageSize ∧ 0 < r.2 ∧ i + r.2 ≤ s.pmm.pageCount
  live : ∀ r ∈ s.live, ∀ k, PageOf r k → s.pmm.used k = true ∧ s.pmm.Grantable entries k
  disjoint : s.live.Pairwise RangeDisjoint

namespace PmmHistory.Inv

variable {entries : List MemmapEntry} {p p' : Pmm} {live : List (Nat × Nat)} {i n a : Nat}

theorem initial {offset : Nat} (hmap : WellFormedMemmap entries) (hoffset : offset < 2 ^ 64)
    (h : initPmm (some entries) (some offset) = .ok p) : Inv entries ⟨p, []⟩ := by
  obtain ⟨hcount, -, hfree⟩ := initPmm_spec hmap hoffset h
  refine ⟨hcount, fun k hk hused => ?_, by simp, by simp, .nil⟩
  obtain ⟨husable, hbitmap⟩ := (hfree k hk).mp hused
  refine ⟨husable, ?_, hbitmap⟩
  rintro rfl
  obtain ⟨e, he, htype, hpage⟩ := husable
  exact hmap.noPageZero e he htype hpage

/-- A free run starts above page 0, so its address is not the null pointer. -/
theorem freeRun_ne_zero (H : Inv entries ⟨p, live⟩) (hn : 0 < n) (h : p.FreeRun i n) : i ≠ 0 := by
  rintro rfl
  have hlt : 0 < p.pageCount := Nat.lt_of_lt_of_le (by omega) h.1
  exact (H.free 0 hlt (h.2 0 (Nat.le_refl _) (by omega))).2.1 rfl

theorem grant (H : Inv entries ⟨p, live⟩) (hn : 0 < n) (h : p.FreeRun i n) :
    Inv entries ⟨p.setBits (List.range' i n) true, (i * regularPageSize, n) :: live⟩ := by
  have hgrant : ∀ k, p.Grantable entries k → (p.setBits (List.range' i n) true).Grantable entries k :=
    fun k hk => ⟨hk.1, hk.2.1, by rw [Pmm.holdsBitmap_setBits]; exact hk.2.2⟩
  have hrun : ∀ k, PageOf (i * regularPageSize, n) k ↔ k ∈ List.range' i n := fun k => by
    rw [pageOf_iff, List.mem_range'_1]
  refine ⟨?_, fun k hk hused => ?_, fun r hr => ?_, fun r hr k hk => ?_, ?_⟩
  · simpa using H.pageCount
  · rw [Pmm.setBits_pageCount] at hk
    by_cases hmem : k ∈ List.range' i n
    · simp [Pmm.used_setBits_of_mem hmem hk] at hused
    · rw [Pmm.used_setBits_of_notMem hmem] at hused
      exact hgrant k (H.free k hk hused)
  · rcases List.mem_cons.mp hr with rfl | hr
    · exact ⟨i, rfl, hn, by simpa using h.1⟩
    · simpa using H.range r hr
  · rcases List.mem_cons.mp hr with rfl | hr
    · have hin := List.mem_range'_1.mp ((hrun k).mp hk)
      have hlt : k < p.pageCount := by have := h.1; omega
      exact ⟨Pmm.used_setBits_of_mem ((hrun k).mp hk) hlt,
        hgrant k (H.free k hlt (h.2 k hin.1 hin.2))⟩
    · obtain ⟨hused, hgr⟩ := H.live r hr k hk
      refine ⟨?_, hgrant k hgr⟩
      rw [Pmm.used_setBits]
      split
      · rfl
      · exact hused
  · refine List.pairwise_cons.mpr ⟨fun r hr k hk hkr => ?_, H.disjoint⟩
    have hin := List.mem_range'_1.mp ((hrun k).mp hk)
    have hfree := h.2 k hin.1 hin.2
    rw [(H.live r hr k hkr).1] at hfree
    cases hfree

theorem release (H : Inv entries ⟨p, live⟩) (hr : (i * regularPageSize, n) ∈ live) :
    Inv entries ⟨p.setBits (List.range' i n) false, live.erase (i * regularPageSize, n)⟩ := by
  have hgrant : ∀ k, p.Grantable entries k → (p.setBits (List.range' i n) false).Grantable entries k :=
    fun k hk => ⟨hk.1, hk.2.1, by rw [Pmm.holdsBitmap_setBits]; exact hk.2.2⟩
  have hrun : ∀ k, PageOf (i * regularPageSize, n) k ↔ k ∈ List.range' i n := fun k => by
    rw [pageOf_iff, List.mem_range'_1]
  have hperm := List.perm_cons_erase hr
  have hpair : ((i * regularPageSize, n) :: live.erase (i * regularPageSize, n)).Pairwise
      RangeDisjoint :=
    (hperm.pairwise_iff fun h k hk hk' => h k hk' hk).mp H.disjoint
  obtain ⟨hothers, hrest⟩ := List.pairwise_cons.mp hpair
  have hmem : ∀ r ∈ live.erase (i * regularPageSize, n), r ∈ live := fun r h =>
    List.mem_of_mem_erase h
  refine ⟨?_, fun k hk hused => ?_, fun r h => ?_, fun r h k hk => ?_, hrest⟩
  · simpa using H.pageCount
  · rw [Pmm.setBits_pageCount] at hk
    by_cases hin : k ∈ List.range' i n
    · exact hgrant k (H.live _ hr k ((hrun k).mpr hin)).2
    · rw [Pmm.used_setBits_of_notMem hin] at hused
      exact hgrant k (H.free k hk hused)
  · simpa using H.range r (hmem r h)
  · obtain ⟨hused, hgr⟩ := H.live r (hmem r h) k hk
    have hnot : k ∉ List.range' i n := fun hin => hothers r h k ((hrun k).mpr hin) hk
    exact ⟨by rw [Pmm.used_setBits_of_notMem hnot]; exact hused, hgrant k hgr⟩

/-- In a state that keeps the invariant, an allocation that finds a lowest free run or none is an
`AllocatesLowest`. -/
theorem allocatesLowest (H : Inv entries ⟨p, live⟩) (hn : 0 < n) {result : Exec (Nat × Pmm)}
    (h : (result = .ok (0, p) ∧ ∀ i, ¬p.FreeRun i n) ∨
      ∃ i, p.FreeRun i n ∧ (∀ j < i, ¬p.FreeRun j n) ∧
        result = .ok (i * regularPageSize, p.setBits (List.range' i n) true)) :
    AllocatesLowest p n result := by
  rcases h with ⟨rfl, hnone⟩ | ⟨i, hrun, hlow, rfl⟩
  · exact ⟨0, p, rfl, ⟨fun _ => hnone, fun _ => rfl⟩, fun _ => rfl, fun h => absurd rfl h⟩
  · have hne : i * regularPageSize ≠ 0 :=
      Nat.mul_ne_zero (H.freeRun_ne_zero hn hrun) (by decide)
    refine ⟨_, _, rfl, ⟨fun h => absurd h hne, fun h => absurd hrun (h i)⟩,
      fun h => absurd h hne, fun _ => ⟨i, rfl, hrun, hlow, fun k => ?_⟩⟩
    have hiff : (k ∈ List.range' i n ∧ k < p.pageCount) ↔ i ≤ k ∧ k < i + n := by
      rw [List.mem_range'_1]
      have := hrun.1
      omega
    rw [Pmm.used_setBits]
    simp only [hiff]
    by_cases hk : i ≤ k ∧ k < i + n <;> simp [hk]

theorem allocPage (H : Inv entries ⟨p, live⟩) :
    (pmmAllocPage p = .ok (0, p) ∧ ∀ i, ¬p.FreeRun i 1) ∨
      ∃ i, p.FreeRun i 1 ∧ (∀ j < i, ¬p.FreeRun j 1) ∧
        pmmAllocPage p = .ok (i * regularPageSize, p.setBits (List.range' i 1) true) :=
  pmmAllocPage_spec (Nat.le_of_lt H.pageCount)

theorem step {s t : PmmHistory} (H : Inv entries s) (h : PmmStep s t) : Inv entries t := by
  have halloc : ∀ {n a : Nat} {p : Pmm} {result : Exec (Nat × Pmm)}, 0 < n →
      (result = .ok (0, s.pmm) ∧ ∀ i, ¬s.pmm.FreeRun i n) ∨
        (∃ i, s.pmm.FreeRun i n ∧ (∀ j < i, ¬s.pmm.FreeRun j n) ∧
          result = .ok (i * regularPageSize, s.pmm.setBits (List.range' i n) true)) →
      result = .ok (a, p) → Inv entries ⟨p, TrazelOs.grant a n s.live⟩ := by
    intro n a p result hn hspec hresult
    rcases hspec with ⟨hnull, -⟩ | ⟨i, hrun, -, hsome⟩
    · cases hnull.symm.trans hresult
      exact H
    · cases hsome.symm.trans hresult
      have hne : i * regularPageSize ≠ 0 :=
        Nat.mul_ne_zero (H.freeRun_ne_zero hn hrun) (by decide)
      rw [TrazelOs.grant, if_neg hne]
      exact H.grant hn hrun
  have hle : s.pmm.pageCount ≤ 2 ^ 52 := Nat.le_of_lt H.pageCount
  cases h with
  | allocPage hresult => exact halloc Nat.one_pos H.allocPage hresult
  | allocPages hn hcount hresult => exact halloc hn (pmmAllocPages_spec hle hn hcount) hresult
  | @freePage _ a p hlive hresult =>
    obtain ⟨i, rfl, -, hi⟩ := H.range _ hlive
    cases (pmmFreePage_spec hi).symm.trans hresult
    exact H.release hlive
  | @freePages _ a n p hlive hresult =>
    obtain ⟨i, rfl, -, hi⟩ := H.range _ hlive
    cases (pmmFreePages_spec hle hi).symm.trans hresult
    exact H.release hlive

theorem run {s t : PmmHistory} (H : Inv entries s) (h : Relation.ReflTransGen PmmStep s t) :
    Inv entries t := by
  induction h with
  | refl => exact H
  | tail _ hstep ih => exact ih.step hstep

end PmmHistory.Inv

private theorem releasesExactly_of_eq {p : Pmm} {i n : Nat} {result : Exec Pmm}
    (hi : i + n ≤ p.pageCount) (h : result = .ok (p.setBits (List.range' i n) false)) :
    ReleasesExactly p (i * regularPageSize, n) result := by
  refine ⟨_, h, fun k => ⟨fun hk => ?_, fun hk => ?_⟩⟩
  · rw [pageOf_iff] at hk
    exact Pmm.used_setBits_of_mem (List.mem_range'_1.mpr hk) (by omega)
  · rw [pageOf_iff] at hk
    exact Pmm.used_setBits_of_notMem fun h => hk (List.mem_range'_1.mp h)

/-- **The physical memory manager.** In every state of every history that starts from `init_pmm`
on a well-formed memory map, the live ranges are disjoint and lie in usable memory outside page 0
and the bitmap, an allocation returns the lowest free run or null when there is none, and a release
of a live range clears the bits of that range. -/
theorem pmmHistory_spec {entries : List MemmapEntry} {offset : Nat} {p₀ : Pmm} {s : PmmHistory}
    (hmap : WellFormedMemmap entries) (hoffset : offset < 2 ^ 64)
    (hinit : initPmm (some entries) (some offset) = .ok p₀)
    (hrun : Relation.ReflTransGen PmmStep ⟨p₀, []⟩ s) :
    s.live.Pairwise RangeDisjoint ∧
      (∀ r ∈ s.live, ∀ k, PageOf r k → UsablePage entries k ∧ k ≠ 0 ∧ ¬s.pmm.HoldsBitmap k) ∧
      AllocatesLowest s.pmm 1 (pmmAllocPage s.pmm) ∧
      (∀ n, 1 ≤ n → n ≤ s.pmm.pageCount → AllocatesLowest s.pmm n (pmmAllocPages s.pmm n)) ∧
      (∀ r ∈ s.live, ReleasesExactly s.pmm r (pmmFreePages s.pmm r.1 r.2) ∧
        (r.2 = 1 → ReleasesExactly s.pmm r (pmmFreePage s.pmm r.1))) := by
  have H : PmmHistory.Inv entries s := (PmmHistory.Inv.initial hmap hoffset hinit).run hrun
  have hle : s.pmm.pageCount ≤ 2 ^ 52 := Nat.le_of_lt H.pageCount
  refine ⟨H.disjoint, fun r hr k hk => (H.live r hr k hk).2,
    H.allocatesLowest Nat.one_pos H.allocPage,
    fun n hn hcount => H.allocatesLowest hn (pmmAllocPages_spec hle hn hcount), ?_⟩
  rintro ⟨a, n⟩ hr
  obtain ⟨i, hbase, -, hi⟩ := H.range _ hr
  obtain rfl : a = i * regularPageSize := hbase
  refine ⟨releasesExactly_of_eq hi (pmmFreePages_spec hle hi), ?_⟩
  rintro ⟨⟩
  exact releasesExactly_of_eq hi (pmmFreePage_spec hi)

theorem pmmHistory_spec_onePage :
    ∃ p q : Pmm, initPmm (some [⟨4096, 8192, .usable⟩]) (some 0) = .ok p ∧
      pmmAllocPage p = .ok (8192, q) ∧ UsablePage [⟨4096, 8192, .usable⟩] 2 ∧ 2 ≠ 0 ∧
        ¬q.HoldsBitmap 2 := by
  have hmap : WellFormedMemmap [⟨4096, 8192, .usable⟩] :=
    ⟨by decide, by decide, .cons (by simp) .nil, by simp [MemmapEntry.HasPage]⟩
  refine ⟨⟨⟨3, 4096, [0xFB], rfl⟩, 0⟩, ⟨⟨3, 4096, [0xFF], rfl⟩, 0⟩, rfl, rfl, ?_⟩
  have hspec := pmmHistory_spec hmap (show 0 < 2 ^ 64 by decide) rfl
    (Relation.ReflTransGen.single (PmmStep.allocPage rfl))
  exact hspec.2.1 (8192, 1) (by decide) 2 ⟨by decide, by decide⟩

/-- **More pages than there are.** The search ends at an index whose run wraps around to nothing, and
that index is returned as an address: it is the null pointer exactly when it is a multiple of the
number of pages of the whole address space. -/
theorem pmmAllocPages_beyond_iff {p : Pmm} {n : Nat} (hn : p.pageCount < n) (hlt : n < 2 ^ 64) :
    pmmAllocPages p n = .ok (0, p) ↔ ∃ i, p.WrapsAt n i ∧ 2 ^ 52 ∣ i := by
  have hzero : ∀ i, u64 (i * regularPageSize) = 0 ↔ 2 ^ 52 ∣ i := by
    intro i
    simp only [u64, regularPageSize]
    omega
  constructor
  · intro hnull
    obtain ⟨i, hi⟩ := p.exists_wrapsAt n
    rw [pmmAllocPages_beyond hn hlt hi] at hnull
    exact ⟨i, hi, (hzero i).mp (congrArg Prod.fst (Except.ok.inj hnull))⟩
  · rintro ⟨i, hi, hdvd⟩
    rw [pmmAllocPages_beyond hn hlt hi, (hzero i).mpr hdvd]

/-- A memory of eight free pages. -/
def eightFree : Pmm := ⟨⟨8, 0, [0], rfl⟩, 0⟩

theorem eightFree_wrapsAt {n : Nat} (hn : 8 < n) (hlt : n + 8 < 2 ^ 64) :
    eightFree.WrapsAt n (2 ^ 64 - n) := by
  refine ⟨by omega, fun h => ?_, fun j hj hwraps => by omega⟩
  have h : 2 ^ 64 - n - 1 < 8 := h
  omega

theorem pmmAllocPages_beyond_null : pmmAllocPages eightFree (2 ^ 52) = .ok (0, eightFree) :=
  (pmmAllocPages_beyond_iff (by decide) (by decide)).mpr
    ⟨_, eightFree_wrapsAt (by decide) (by decide), by decide⟩

/-- The address returned for nine pages belongs to none of them. -/
theorem pmmAllocPages_nine : pmmAllocPages eightFree 9 = .ok (2 ^ 64 - 9 * 4096, eightFree) := by
  rw [pmmAllocPages_beyond (by decide) (by decide) (eightFree_wrapsAt (by decide) (by decide))]
  have haddr : u64 ((2 ^ 64 - 9) * regularPageSize) = 2 ^ 64 - 9 * 4096 := by decide
  rw [haddr]

end TrazelOs
