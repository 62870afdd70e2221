import Mathlib.Data.Nat.Find
import TrazelOs.Kernel.Pmm
import TrazelOs.Verify.Bitmap

/-! # The operations of the physical memory manager, one specification each

`Pmm.used` is the bitmap as a function from page indices to bits. An allocation finds the lowest
run of free pages (`pmmAllocPage_spec`, `pmmAllocPages_spec`) and sets the bits of that run; a
release clears the bits of its range (`pmmFreePages_spec`). -/

namespace TrazelOs

/-- The bit of page `k`. -/
def Pmm.used (p : Pmm) (k : Nat) : Bool := p.gBitmap.bit k

/-- The number of pages the bitmap covers. -/
def Pmm.pageCount (p : Pmm) : Nat := p.gBitmap.bitCount

/-- Store `v` in the bits of the pages `ks`. -/
def Pmm.setBits (p : Pmm) (ks : List Nat) (v : Bool) : Pmm :=
  { p with gBitmap := ks.foldl (fun bm k => (bitmapSetBitValue bm k v).2) p.gBitmap }

/-- The pages `i, …, i + n - 1` exist and are free. -/
def Pmm.FreeRun (p : Pmm) (i n : Nat) : Prop :=
  i + n ≤ p.pageCount ∧ ∀ j, i ≤ j → j < i + n → p.used j = false

variable {p : Pmm} {i n k a : Nat} {v : Bool} {ks : List Nat}

namespace Pmm

@[simp] theorem setBits_nil : p.setBits [] v = p := rfl

theorem setBits_cons : p.setBits (k :: ks) v = (p.setBits [k] v).setBits ks v := rfl

theorem setBits_append {ls : List Nat} :
    p.setBits (ks ++ ls) v = (p.setBits ks v).setBits ls v := by
  simp [setBits]

@[simp] theorem setBits_pageCount : (p.setBits ks v).pageCount = p.pageCount := by
  induction ks generalizing p with
  | nil => rfl
  | cons k ks ih =>
    rw [setBits_cons, ih]
    exact bitmapSetBitValue_bitCount

@[simp] theorem setBits_addr : (p.setBits ks v).gBitmap.addr = p.gBitmap.addr := by
  induction ks generalizing p with
  | nil => rfl
  | cons k ks ih =>
    rw [setBits_cons, ih]
    exact bitmapSetBitValue_addr

@[simp] theorem setBits_gHhdmOffset : (p.setBits ks v).gHhdmOffset = p.gHhdmOffset := rfl

theorem used_setBits :
    (p.setBits ks v).used i = if i ∈ ks ∧ i < p.pageCount then v else p.used i := by
  induction ks generalizing p with
  | nil => simp
  | cons k ks ih =>
    have hone : (p.setBits [k] v).used i = if i = k ∧ k < p.pageCount then v else p.used i :=
      bitmapSetBitValue_bit
    rw [setBits_cons, ih, setBits_pageCount, hone]
    by_cases hi : i < p.pageCount
    · by_cases hks : i ∈ ks
      · simp [hks, hi]
      · by_cases hk : i = k
        · subst hk
          simp [hi]
        · simp [hks, hk]
    · simp [hi]
      rintro rfl h
      exact absurd h hi

theorem used_setBits_of_notMem (h : i ∉ ks) : (p.setBits ks v).used i = p.used i := by
  rw [used_setBits, if_neg fun hi => h hi.1]

theorem used_setBits_of_mem (h : i ∈ ks) (hi : i < p.pageCount) : (p.setBits ks v).used i = v := by
  rw [used_setBits, if_pos ⟨h, hi⟩]

theorem ext_used {p' : Pmm} (hcount : p.pageCount = p'.pageCount)
    (haddr : p.gBitmap.addr = p'.gBitmap.addr) (hoffset : p.gHhdmOffset = p'.gHhdmOffset)
    (hused : ∀ i, p.used i = p'.used i) : p = p' := by
  obtain ⟨bm, offset⟩ := p
  obtain ⟨bm', offset'⟩ := p'
  obtain rfl : bm = bm' := TzBitmap.ext_bit hcount haddr hused
  obtain rfl : offset = offset' := hoffset
  rfl

/-- The order in which bits are stored does not matter. -/
theorem setBits_congr {ls : List Nat} (h : ∀ i, i ∈ ks ↔ i ∈ ls) : p.setBits ks v = p.setBits ls v := by
  refine ext_used (by simp) (by simp) rfl fun i => ?_
  rw [used_setBits, used_setBits]
  simp only [h]

theorem setBits_false_true (h : ∀ i ∈ ks, p.used i = false) :
    (p.setBits ks true).setBits ks false = p := by
  refine ext_used (by simp) (by simp) rfl fun i => ?_
  rw [used_setBits, used_setBits, setBits_pageCount]
  split
  · rename_i hi
    exact (h i hi.1).symm
  · rfl

end Pmm

theorem setPageAs_eq_ok (h : a / regularPageSize < p.pageCount) :
    setPageAs v p a = .ok (p.setBits [a / regularPageSize] v) := by
  have hret : (bitmapSetBitValue p.gBitmap (a / regularPageSize) v).1 ≠ -1 := by
    rw [bitmapSetBitValue_fst h]
    decide
  simp only [setPageAs, kernelAssert_ok hret, Exec.ok_bind]
  rfl

theorem setPageAs_ok {p' : Pmm} (h : setPageAs v p a = .ok p') :
    a / regularPageSize < p.pageCount ∧ p' = p.setBits [a / regularPageSize] v := by
  by_cases hlt : a / regularPageSize < p.pageCount
  · rw [setPageAs_eq_ok hlt] at h
    cases h
    exact ⟨hlt, rfl⟩
  · have hret := bitmapSetBitValue_of_le (v := v) (Nat.le_of_not_lt hlt)
    simp [setPageAs, hret, kernelAssert] at h

section
variable {ι : Type} {l : List ι} {f : ι → Nat}

/-- A loop that stores a bit for each of a list of addresses, all in range. -/
theorem foldlM_setPageAs_eq_ok (h : ∀ x ∈ l, f x / regularPageSize < p.pageCount) :
    l.foldlM (fun p x => setPageAs v p (f x)) p =
      .ok (p.setBits (l.map fun x => f x / regularPageSize) v) := by
  induction l generalizing p with
  | nil => rfl
  | cons x l ih =>
    rw [List.foldlM_cons, setPageAs_eq_ok (h x List.mem_cons_self), Exec.ok_bind,
      ih fun y hy => by rw [Pmm.setBits_pageCount]; exact h y (List.mem_cons_of_mem _ hy)]
    rfl

theorem foldlM_setPageAs_ok {p' : Pmm} (h : l.foldlM (fun p x => setPageAs v p (f x)) p = .ok p') :
    (∀ x ∈ l, f x / regularPageSize < p.pageCount) ∧
      p' = p.setBits (l.map fun x => f x / regularPageSize) v := by
  induction l generalizing p with
  | nil =>
    cases h
    exact ⟨fun _ hx => (List.not_mem_nil hx).elim, rfl⟩
  | cons x l ih =>
    rw [List.foldlM_cons, Exec.bind_eq_ok] at h
    obtain ⟨q, hq, h⟩ := h
    obtain ⟨hx, rfl⟩ := setPageAs_ok hq
    obtain ⟨hl, rfl⟩ := ih h
    refine ⟨fun y hy => ?_, rfl⟩
    rcases List.mem_cons.mp hy with rfl | hy
    · exact hx
    · exact Pmm.setBits_pageCount (p := p) ▸ hl y hy

end

/-! ## Single pages -/

private theorem pageIndex_lt (hp : p.pageCount ≤ 2 ^ 52) (hk : k < p.pageCount) :
    u64 (k * regularPageSize) = k * regularPageSize ∧
      k * regularPageSize / regularPageSize = k := by
  simp only [regularPageSize, u64]
  omega

theorem pmmAllocPage_spec (hp : p.pageCount ≤ 2 ^ 52) :
    (pmmAllocPage p = .ok (0, p) ∧ ∀ i, ¬p.FreeRun i 1) ∨
      ∃ i, p.FreeRun i 1 ∧ (∀ j < i, ¬p.FreeRun j 1) ∧
        pmmAllocPage p = .ok (i * regularPageSize, p.setBits [i] true) := by
  have hget : ∀ i < p.pageCount, bitmapGetBitValue p.gBitmap i = 0 ↔ p.used i = false := by
    intro i hi
    rw [bitmapGetBitValue_of_lt hi]
    cases h : p.used i <;> simp_all [Pmm.used]
  unfold pmmAllocPage
  split
  · rename_i hnone
    refine .inl ⟨rfl, fun i hrun => ?_⟩
    have hi : i < p.pageCount := hrun.1
    have := List.find?_eq_none.mp hnone i (List.mem_range.mpr hi)
    exact this (decide_eq_true ((hget i hi).mpr (hrun.2 i (Nat.le_refl _) (Nat.lt_succ_self _))))
  · rename_i i hsome
    obtain ⟨hfree, hi, hlow⟩ := List.find?_range_eq_some.mp hsome
    have hi : i < p.pageCount := List.mem_range.mp hi
    obtain ⟨haddr, hidx⟩ := pageIndex_lt hp hi
    refine .inr ⟨i, ⟨hi, fun j hij hj => ?_⟩, fun j hj hrun => ?_, ?_⟩
    · obtain rfl : j = i := by omega
      exact (hget j hi).mp (of_decide_eq_true hfree)
    · have hzero := (hget j (by omega)).mpr (hrun.2 j (Nat.le_refl _) (Nat.lt_succ_self _))
      have hset := hlow j hj
      rw [hzero] at hset
      exact Bool.false_ne_true hset
    · simp only [haddr, setPageAsUsed]
      rw [setPageAs_eq_ok (by rw [hidx]; exact hi), hidx]
      rfl

/-- An allocation that returns a page takes a free one. -/
theorem pmmAllocPage_ok {p' : Pmm} (hp : p.pageCount ≤ 2 ^ 52) (h : pmmAllocPage p = .ok (a, p'))
    (ha : a ≠ 0) : ∃ i < p.pageCount, p.used i = false ∧ i ≠ 0 ∧ a = i * regularPageSize ∧
      p' = p.setBits [i] true := by
  rcases pmmAllocPage_spec hp with ⟨hnone, -⟩ | ⟨i, hrun, -, hsome⟩
  · cases hnone.symm.trans h
    exact absurd rfl ha
  · cases hsome.symm.trans h
    refine ⟨i, hrun.1, hrun.2 i (Nat.le_refl _) (Nat.lt_succ_self _), ?_, rfl, rfl⟩
    rintro rfl
    exact ha (Nat.zero_mul _)

theorem pmmAllocPageHhdm_ok {p' : Pmm} (hp : p.pageCount ≤ 2 ^ 52)
    (h : pmmAllocPageHhdm p = .ok (a, p')) (ha : a ≠ 0) :
    ∃ i < p.pageCount, p.used i = false ∧ i ≠ 0 ∧ a = u64 (i * regularPageSize + p.gHhdmOffset) ∧
      p' = p.setBits [i] true := by
  obtain ⟨⟨page, p₁⟩, halloc, h⟩ := Exec.bind_eq_ok.mp h
  obtain ⟨rfl, rfl⟩ := Prod.mk.inj (Except.ok.inj h)
  by_cases hpage : page = 0
  · rw [if_neg (fun hne => hne hpage)] at ha
    exact absurd hpage ha
  · obtain ⟨i, hi, hfree, hne, rfl, rfl⟩ := pmmAllocPage_ok hp halloc hpage
    exact ⟨i, hi, hfree, hne, if_pos hpage, rfl⟩

/-! ## Runs of pages -/

/-- The loop from index `i`, with no free run below `i`. A used page `j` of the run at `i` lies in
every run between `i` and `j`, so none is skipped when the search goes on at `j + 1`. -/
private theorem pmmAllocPages_loop {turns : Nat} (hp : p.pageCount ≤ 2 ^ 52) (hn : 0 < n)
    (hle : n ≤ p.pageCount) (hturns : p.pageCount < i + turns)
    (hbelow : ∀ j < i, ¬p.FreeRun j n) (hi : i ≤ p.pageCount) :
    (pmmAllocPages.loop p n turns i = .ok (0, p) ∧ ∀ j, ¬p.FreeRun j n) ∨
      ∃ j, p.FreeRun j n ∧ (∀ l < j, ¬p.FreeRun l n) ∧
        pmmAllocPages.loop p n turns i =
          .ok (j * regularPageSize, p.setBits (List.range' j n) true) := by
  have hlimit : u64Sub p.gBitmap.bitCount n = p.pageCount - n :=
    u64Sub_of_le (Nat.lt_of_le_of_lt hp (by decide)) hle
  induction turns generalizing i with
  | zero => omega
  | succ turns ih =>
    rw [pmmAllocPages.loop, hlimit]
    by_cases hend : i ≤ p.pageCount - n
    · have hwrap : u64 (i + n) - i = n := by
        rw [u64_of_lt (by omega)]
        omega
      rw [if_pos hend, hwrap]
      dsimp only
      split
      · rename_i j hsome
        have hmem := List.mem_range'_1.mp (List.mem_of_find?_eq_some hsome)
        have hbit := List.find?_some hsome
        rw [decide_eq_true_eq] at hbit
        have hused : p.used j = true :=
          (bitmapGetBitValue_ne_zero (show j < p.pageCount by omega)).mp hbit
        rw [u64_of_lt (by omega)]
        refine ih (by omega) (fun l hl hrun => ?_) (by omega)
        by_cases hli : l < i
        · exact hbelow l hli hrun
        · have := hrun.2 j (by omega) (by omega)
          rw [hused] at this
          cases this
      · rename_i hnone
        have hfree : ∀ j, i ≤ j → j < i + n → p.used j = false := by
          intro j hij hj
          have hnot := List.find?_eq_none.mp hnone j (List.mem_range'_1.mpr ⟨hij, hj⟩)
          rw [decide_eq_true_eq, bitmapGetBitValue_ne_zero (show j < p.pageCount by omega)] at hnot
          exact Bool.eq_false_iff.mpr hnot
        refine .inr ⟨i, ⟨by omega, hfree⟩, hbelow, ?_⟩
        have hidx : ∀ j ∈ List.range' i n, u64 (j * regularPageSize) / regularPageSize = j := by
          intro j hj
          have := List.mem_range'_1.mp hj
          simp only [regularPageSize, u64]
          omega
        have hmap : (List.range' i n).map (fun j => u64 (j * regularPageSize) / regularPageSize) =
            List.range' i n := (List.map_congr_left hidx).trans (List.map_id' _)
        have haddr : u64 (i * regularPageSize) = i * regularPageSize :=
          u64_of_lt (by simp only [regularPageSize]; omega)
        simp only [setPageAsUsed]
        rw [foldlM_setPageAs_eq_ok (fun j hj => ?_), hmap, haddr]
        · rfl
        · have := List.mem_range'_1.mp hj
          rw [hidx j hj]
          omega
    · rw [if_neg hend]
      exact .inl ⟨rfl, fun j hj => hbelow j (by have := hj.1; omega) hj⟩

theorem pmmAllocPages_spec (hp : p.pageCount ≤ 2 ^ 52) (hn : 0 < n) (hle : n ≤ p.pageCount) :
    (pmmAllocPages p n = .ok (0, p) ∧ ∀ i, ¬p.FreeRun i n) ∨
      ∃ i, p.FreeRun i n ∧ (∀ j < i, ¬p.FreeRun j n) ∧
        pmmAllocPages p n = .ok (i * regularPageSize, p.setBits (List.range' i n) true) := by
  have hassert : kernelAssert (n ≠ 0) "PMM can't allocate 0 pages" = .ok () :=
    kernelAssert_ok (Nat.pos_iff_ne_zero.mp hn)
  unfold pmmAllocPages
  rw [hassert, Exec.ok_bind]
  exact pmmAllocPages_loop hp hn hle (by omega) (fun j hj => absurd hj (Nat.not_lt_zero _))
    (Nat.zero_le _)

/-! ## Counts beyond the bitmap -/

/-- The search does not start a run before `i`: there is no page `i - 1`, or it is used, or it lies
beyond the bitmap. -/
def Pmm.FollowsUsed (p : Pmm) (i : Nat) : Prop := i - 1 < p.pageCount → p.used (i - 1) = true

/-- Where the search for more pages than there are ends: `i + n` wraps around there. -/
structure Pmm.WrapsAt (p : Pmm) (n i : Nat) : Prop where
  wraps : 2 ^ 64 ≤ i + n
  follows : p.FollowsUsed i
  first : ∀ j < i, 2 ^ 64 ≤ j + n → ¬p.FollowsUsed j

theorem Pmm.WrapsAt.lt (h : p.WrapsAt n i) (hn : p.pageCount < n) (hlt : n < 2 ^ 64) :
    i < 2 ^ 64 ∧ i + n ≤ 2 ^ 64 + p.pageCount := by
  by_contra hbig
  have hfirst := h.first (max (2 ^ 64 - n) (p.pageCount + 1)) (by omega) (by omega)
  exact hfirst fun hlow => absurd hlow (by omega)

theorem Pmm.exists_wrapsAt (p : Pmm) (n : Nat) : ∃ i, p.WrapsAt n i := by
  classical
  have hex : ∃ i, 2 ^ 64 ≤ i + n ∧ p.FollowsUsed i :=
    ⟨2 ^ 64 + p.pageCount, by omega, fun hlow => absurd hlow (by omega)⟩
  exact ⟨Nat.find hex, (Nat.find_spec hex).1, (Nat.find_spec hex).2,
    fun j hj hwraps hfollows => Nat.find_min hex hj ⟨hwraps, hfollows⟩⟩

theorem Pmm.followsUsed_succ : p.FollowsUsed (i + 1) ↔ bitmapGetBitValue p.gBitmap i ≠ 0 := by
  unfold FollowsUsed
  rw [Nat.add_sub_cancel]
  by_cases hi : i < p.pageCount
  · rw [bitmapGetBitValue_ne_zero hi]
    exact ⟨fun h => h hi, fun h _ => h⟩
  · rw [bitmapGetBitValue_of_le (Nat.le_of_not_lt hi)]
    exact iff_of_true (fun h => absurd h hi) (by decide)

/-- The loop goes from used page to used page up to the index where the end of the run wraps around,
and takes the empty run there. -/
private theorem pmmAllocPages_loop_beyond {turns r : Nat} (hn : p.pageCount < n) (hlt : n < 2 ^ 64)
    (hr : p.WrapsAt n r) (hi : i = 0 ∨ p.FollowsUsed i) (hle : i ≤ r) (hturns : r < i + turns) :
    pmmAllocPages.loop p n turns i = .ok (u64 (r * regularPageSize), p) := by
  obtain ⟨hr64, hrle⟩ := hr.lt hn hlt
  have hrwraps := hr.wraps
  have hlimit : u64Sub p.gBitmap.bitCount n = 2 ^ 64 + p.pageCount - n := by
    change u64Sub p.pageCount n = _
    unfold u64Sub u64
    omega
  induction turns generalizing i with
  | zero => omega
  | succ turns ih =>
    rw [pmmAllocPages.loop, hlimit, if_pos (by omega)]
    dsimp only
    by_cases hwraps : 2 ^ 64 ≤ i + n
    · have heq : i = r := by
        rcases Nat.lt_or_ge i r with hir | hir
        · exact absurd (hi.resolve_left (by omega)) (hr.first i hir hwraps)
        · exact Nat.le_antisymm hle hir
      have hempty : u64 (i + n) - i = 0 := by
        unfold u64
        omega
      rw [hempty, List.range'_zero, List.find?_nil, heq]
      rfl
    · have hlength : u64 (i + n) - i = n := by
        unfold u64
        omega
      rw [hlength]
      split
      · rename_i j hsome
        obtain ⟨hused, hmem, hlow⟩ := List.find?_range'_eq_some.mp hsome
        have hmem := List.mem_range'_1.mp hmem
        have hnext : j + 1 ≤ r := by
          by_contra hgt
          -- Otherwise the page before `r` comes before `j`, and it is used.
          have hprev := hlow (r - 1) (by omega) (by omega)
          have hfollows := hr.follows
          rw [show r = r - 1 + 1 by omega, Pmm.followsUsed_succ] at hfollows
          rw [decide_eq_true hfollows] at hprev
          cases hprev
        rw [u64_of_lt (by omega)]
        exact ih (.inr (Pmm.followsUsed_succ.mpr (of_decide_eq_true hused))) hnext (by omega)
      · rename_i hnone
        have hlast := List.find?_eq_none.mp hnone (i + n - 1) (List.mem_range'_1.mpr (by omega))
        rw [bitmapGetBitValue_of_le (show p.gBitmap.bitCount ≤ i + n - 1 from by
          change p.pageCount ≤ i + n - 1
          omega)] at hlast
        exact absurd (by decide) hlast

theorem pmmAllocPages_beyond {r : Nat} (hn : p.pageCount < n) (hlt : n < 2 ^ 64) (hr : p.WrapsAt n r) :
    pmmAllocPages p n = .ok (u64 (r * regularPageSize), p) := by
  rw [pmmAllocPages, kernelAssert_ok (by omega : n ≠ 0), Exec.ok_bind]
  exact pmmAllocPages_loop_beyond hn hlt hr (.inl rfl) (Nat.zero_le r) (by have := hr.lt hn hlt; omega)

/-- Releasing a range of existing pages clears the bits of that range. -/
theorem pmmFreePages_spec (hp : p.pageCount ≤ 2 ^ 52) (h : i + n ≤ p.pageCount) :
    pmmFreePages p (i * regularPageSize) n = .ok (p.setBits (List.range' i n) false) := by
  have hidx : ∀ j ∈ List.range n,
      u64 (i * regularPageSize + u64 (j * regularPageSize)) / regularPageSize = i + j := by
    intro j hj
    have := List.mem_range.mp hj
    simp only [regularPageSize, u64]
    omega
  have hmap : (List.range n).map (fun j =>
      u64 (i * regularPageSize + u64 (j * regularPageSize)) / regularPageSize) =
        List.range' i n := by
    rw [List.map_congr_left hidx, List.range'_eq_map_range]
  simp only [pmmFreePages, setPageAsUnused]
  rw [foldlM_setPageAs_eq_ok (fun j hj => ?_), hmap]
  have := List.mem_range.mp hj
  rw [hidx j hj]
  omega

theorem pmmFreePage_spec (h : i < p.pageCount) :
    pmmFreePage p (i * regularPageSize) = .ok (p.setBits [i] false) := by
  have hidx : i * regularPageSize / regularPageSize = i := Nat.mul_div_cancel _ (by decide)
  rw [pmmFreePage, setPageAsUnused, setPageAs_eq_ok (by rw [hidx]; exact h), hidx]

/-- An allocator of eight pages, of which page 0 is used. -/
def eightPagePmm : Pmm := ⟨⟨8, 0, [1], rfl⟩, 0⟩

end TrazelOs
