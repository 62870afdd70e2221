import TrazelOs.Verify.Pmm

/-! # The bitmap that `init_pmm` leaves

After `init_pmm` on a well-formed memory map the free pages are the pages of the usable regions
that do not hold the bitmap (`initPmm_spec`). -/

namespace TrazelOs

/-- Page `k` lies in the region. -/
def MemmapEntry.HasPage (e : MemmapEntry) (k : Nat) : Prop :=
  e.base ≤ k * regularPageSize ∧ k * regularPageSize + regularPageSize ≤ e.base + e.length

/-- Page `k` lies in a usable region. -/
def UsablePage (entries : List MemmapEntry) (k : Nat) : Prop :=
  ∃ e ∈ entries, e.type = .usable ∧ e.HasPage k

/-- A memory map whose usable regions are page-aligned, do not overlap and leave out page 0. -/
structure WellFormedMemmap (entries : List MemmapEntry) : Prop where
  word : ∀ e ∈ entries, e.base < 2 ^ 64 ∧ e.length < 2 ^ 64
  aligned : ∀ e ∈ entries, e.type = .usable →
    regularPageSize ∣ e.base ∧ regularPageSize ∣ e.length
  disjoint : entries.Pairwise fun e f => e.type = .usable → f.type = .usable →
    e.base + e.length ≤ f.base ∨ f.base + f.length ≤ e.base
  noPageZero : ∀ e ∈ entries, e.type = .usable → ¬e.HasPage 0

/-- The physical address of the bitmap's buffer. -/
def Pmm.bitmapPhys (p : Pmm) : Nat := u64Sub p.gBitmap.addr p.gHhdmOffset

/-- Some byte of the bitmap's buffer lies in page `k`. -/
def Pmm.HoldsBitmap (p : Pmm) (k : Nat) : Prop :=
  ∃ b < p.gBitmap.bitmap.length, (p.bitmapPhys + b) / regularPageSize = k

/-- The page indices that a loop over `n` pages from the address `base` visits. -/
private def pagesFrom (base n : Nat) : List Nat :=
  (List.range n).map fun i => u64 (base + u64 (i * regularPageSize)) / regularPageSize

private theorem mem_pagesFrom {base n k : Nat} (hbase : regularPageSize ∣ base)
    (hn : base + n * regularPageSize ≤ 2 ^ 64) :
    k ∈ pagesFrom base n ↔ base / regularPageSize ≤ k ∧ k < base / regularPageSize + n := by
  have hidx : ∀ i < n, u64 (base + u64 (i * regularPageSize)) / regularPageSize =
      base / regularPageSize + i := by
    intro i hi
    simp only [regularPageSize, u64] at *
    omega
  simp only [pagesFrom, List.mem_map, List.mem_range]
  constructor
  · rintro ⟨i, hi, rfl⟩
    rw [hidx i hi]
    omega
  · rintro ⟨hlow, hhigh⟩
    refine ⟨k - base / regularPageSize, by omega, ?_⟩
    rw [hidx _ (by omega)]
    omega

/-- A loop whose pages are all below `2 ^ 52 - 1` does not wrap around: the page just below
`2 ^ 64` would be one of them. -/
private theorem pagesFrom_noWrap {base n count : Nat} (hbase : regularPageSize ∣ base)
    (hlt : base < 2 ^ 64) (hcount : count < 2 ^ 52)
    (hrange : ∀ k ∈ pagesFrom base n, k < count) : base + n * regularPageSize ≤ 2 ^ 64 := by
  by_contra hwrap
  simp only [regularPageSize] at hbase hwrap
  have hmem : 2 ^ 52 - 1 ∈ pagesFrom base n := by
    refine List.mem_map.mpr ⟨(2 ^ 64 - 4096 - base) / 4096, List.mem_range.mpr (by omega), ?_⟩
    simp only [regularPageSize, u64]
    omega
  have := hrange _ hmem
  omega

private theorem regionPages_iff {e : MemmapEntry} {k : Nat} (hbase : regularPageSize ∣ e.base)
    (hlen : regularPageSize ∣ e.length)
    (hwrap : e.base + e.length / regularPageSize * regularPageSize ≤ 2 ^ 64) :
    k ∈ pagesFrom e.base (e.length / regularPageSize) ↔ e.HasPage k := by
  rw [mem_pagesFrom hbase hwrap]
  simp only [MemmapEntry.HasPage, regularPageSize] at *
  omega

/-- The pages that `mark_region_free` clears for the usable regions. -/
private def usablePages (entries : List MemmapEntry) : List Nat :=
  entries.flatMap fun e =>
    if e.type = .usable then pagesFrom e.base (e.length / regularPageSize) else []

private theorem foldlM_markRegionFree_eq_ok {entries : List MemmapEntry} {p : Pmm}
    (h : ∀ k ∈ usablePages entries, k < p.pageCount) :
    entries.foldlM (fun p e => if e.type = .usable then markRegionFree p e else pure p) p =
      .ok (p.setBits (usablePages entries) false) := by
  induction entries generalizing p with
  | nil => rfl
  | cons e entries ih =>
    have hsplit : usablePages (e :: entries) = usablePages [e] ++ usablePages entries := by
      simp [usablePages]
    rw [hsplit] at h ⊢
    have hhead : (if e.type = .usable then markRegionFree p e else pure p) =
        .ok (p.setBits (usablePages [e]) false) := by
      simp only [usablePages, List.flatMap_cons, List.flatMap_nil, List.append_nil] at h ⊢
      split
      · rename_i husable
        refine foldlM_setPageAs_eq_ok fun i hi => h _ (List.mem_append_left _ ?_)
        rw [if_pos husable]
        exact List.mem_map_of_mem hi
      · rfl
    rw [List.foldlM_cons, hhead, Exec.ok_bind, Pmm.setBits_append]
    exact ih fun k hk => Pmm.setBits_pageCount (p := p) ▸ h k (List.mem_append_right _ hk)

private theorem foldlM_markRegionFree {entries : List MemmapEntry} {p p' : Pmm}
    (h : entries.foldlM (fun p e => if e.type = .usable then markRegionFree p e else pure p) p =
      .ok p') :
    (∀ k ∈ usablePages entries, k < p.pageCount) ∧ p' = p.setBits (usablePages entries) false := by
  induction entries generalizing p with
  | nil =>
    cases h
    exact ⟨fun _ hk => (List.not_mem_nil hk).elim, rfl⟩
  | cons e entries ih =>
    rw [List.foldlM_cons, Exec.bind_eq_ok] at h
    obtain ⟨q, hq, h⟩ := h
    obtain ⟨hrest, rfl⟩ := ih h
    have hhead : (∀ k ∈ usablePages [e], k < p.pageCount) ∧
        q = p.setBits (usablePages [e]) false := by
      simp only [usablePages, List.flatMap_cons, List.flatMap_nil, List.append_nil]
      split at hq
      · rename_i husable
        obtain ⟨hin, rfl⟩ := foldlM_setPageAs_ok hq
        simp only [husable, if_true]
        exact ⟨fun k hk => by obtain ⟨i, hi, rfl⟩ := List.mem_map.mp hk; exact hin i hi, rfl⟩
      · rename_i husable
        cases hq
        simp [husable]
    obtain ⟨hin, rfl⟩ := hhead
    have hsplit : usablePages (e :: entries) = usablePages [e] ++ usablePages entries := by
      simp [usablePages]
    rw [hsplit, Pmm.setBits_append]
    refine ⟨fun k hk => ?_, rfl⟩
    rcases List.mem_append.mp hk with hk | hk
    · exact hin k hk
    · exact Pmm.setBits_pageCount (p := p) ▸ hrest k hk

private theorem mem_usablePages {entries : List MemmapEntry} {k count : Nat}
    (hmap : WellFormedMemmap entries) (hcount : count < 2 ^ 52)
    (hrange : ∀ k ∈ usablePages entries, k < count) :
    k ∈ usablePages entries ↔ UsablePage entries k := by
  have hregion : ∀ e ∈ entries, e.type = .usable →
      (k ∈ pagesFrom e.base (e.length / regularPageSize) ↔ e.HasPage k) := by
    intro e he husable
    obtain ⟨hbase, hlen⟩ := hmap.aligned e he husable
    refine regionPages_iff hbase hlen (pagesFrom_noWrap hbase (hmap.word e he).1 hcount ?_)
    intro l hl
    exact hrange l (List.mem_flatMap.mpr ⟨e, he, by rwa [if_pos husable]⟩)
  simp only [usablePages, List.mem_flatMap, UsablePage]
  constructor
  · rintro ⟨e, he, hk⟩
    split at hk
    · rename_i husable
      exact ⟨e, he, husable, (hregion e he husable).mp hk⟩
    · exact (List.not_mem_nil hk).elim
  · rintro ⟨e, he, husable, hk⟩
    exact ⟨e, he, by rw [if_pos husable]; exact (hregion e he husable).mpr hk⟩

theorem getRamMaxSize_lt (entries : List MemmapEntry) : getRamMaxSize entries < 2 ^ 64 := by
  have hstep : ∀ acc < 2 ^ 64, List.foldl (fun maxAddress (e : MemmapEntry) =>
      if e.type ≠ .usable ∧ e.type ≠ .acpiReclaimable ∧ e.type ≠ .bootloaderReclaimable then
        maxAddress
      else
        let top := u64 (e.base + e.length)
        if top > maxAddress then top else maxAddress) acc entries < 2 ^ 64 := by
    induction entries with
    | nil => exact fun acc hacc => hacc
    | cons e entries ih =>
      intro acc hacc
      refine ih _ ?_
      have htop := u64_lt (e.base + e.length)
      dsimp only
      split
      · exact hacc
      · split <;> assumption
  exact hstep 0 (by decide)

/-- Every bit of a bitmap filled with `0xFF` is set. -/
private theorem bit_memset {bm : TzBitmap} {n k : Nat} (hk : k < bm.bitCount)
    (hn : bm.bitmap.length ≤ n) : (bm.memset 0xFF n).bit k = true := by
  have hlen := TzBitmap.byteIndex_lt hk
  have hmod : k % bitsInByte < 8 := Nat.mod_lt _ (by decide)
  have hbyte : (bm.memset 0xFF n).byte (k / bitsInByte) = 0xFF := by
    simp only [TzBitmap.byte, TzBitmap.memset, List.getD_eq_getElem?_getD, List.getElem?_mapIdx,
      List.getElem?_eq_getElem hlen, Option.map_some, Option.getD_some]
    rw [if_pos (by omega)]
  rw [TzBitmap.bit, hbyte]
  generalize k % bitsInByte = j at hmod
  have hall : ∀ j < 8, (0xFF : Byte).getLsbD j = true := by decide
  exact hall j hmod

private theorem getBitmapRegion_eq {entries : List MemmapEntry} {size : Nat}
    (h : getBitmapRegion entries size ≠ -1) :
    ∃ i : Nat, getBitmapRegion entries size = i ∧ ∃ hi : i < entries.length,
      entries[i].type = .usable ∧
        entries[i].length ≥ divRoundUp (size / regularPageSize) bitsPerByte := by
  unfold getBitmapRegion at h ⊢
  dsimp only at h ⊢
  split at h
  · rename_i i hfind
    obtain ⟨hi, hpred, _⟩ := List.findIdx?_eq_some_iff_getElem.mp hfind
    rw [decide_eq_true_eq] at hpred
    exact ⟨i, rfl, hi, hpred⟩
  · exact absurd rfl h

/-- The bits, bytes and pages of the bitmap that a memory map needs. -/
def neededBits (entries : List MemmapEntry) : Nat := getRamMaxSize entries / regularPageSize

def neededBytes (entries : List MemmapEntry) : Nat :=
  divRoundUp (neededBits entries) bitsPerByte

def neededPages (entries : List MemmapEntry) : Nat :=
  divRoundUp (neededBytes entries) regularPageSize

private theorem neededBits_lt (entries : List MemmapEntry) : neededBits entries < 2 ^ 52 := by
  have := getRamMaxSize_lt entries
  simp only [neededBits, regularPageSize]
  omega

private theorem neededBytes_eq (entries : List MemmapEntry) :
    neededBytes entries = (neededBits entries + bitsInByte - 1) / bitsInByte := by
  have := neededBits_lt entries
  simp only [neededBytes, divRoundUp, u64Sub, u64, bitsPerByte, bitsInByte]
  omega

private theorem neededPages_eq (entries : List MemmapEntry) :
    neededPages entries = (neededBytes entries + 4095) / 4096 := by
  have hbits := neededBits_lt entries
  have hbytes := neededBytes_eq entries
  simp only [neededPages, divRoundUp, u64Sub, u64, regularPageSize, bitsInByte] at *
  omega

private theorem initPmm_stages {entries : List MemmapEntry} {offset : Nat} {p : Pmm}
    (h : initPmm (some entries) (some offset) = .ok p) :
    ∃ region ∈ entries, (∃ i : Nat, getBitmapRegion entries (getRamMaxSize entries) = i ∧
      entries[i]? = some region) ∧ region.type = .usable ∧ region.length ≥ neededBytes entries ∧
      ∃ q, entries.foldlM (fun p e => if e.type = .usable then markRegionFree p e else pure p)
          ⟨(bitmapCreate (u64 (region.base + offset)) (neededBits entries)).memset 0xFF
            (neededBytes entries), offset⟩ = .ok q ∧
        (List.range (neededPages entries)).foldlM (fun p j =>
          setPageAsUsed p (u64 (region.base + u64 (j * regularPageSize)))) q = .ok p := by
  simp only [initPmm, Exec.bind_eq_ok, kernelAssert_eq_ok] at h
  obtain ⟨_, hregion, q, hq, hp⟩ := h
  obtain ⟨i, hi, hlt, husable, hlen⟩ := getBitmapRegion_eq hregion
  simp only [hi, Int.toNat_natCast, List.getD_eq_getElem?_getD, List.getElem?_eq_getElem hlt,
    Option.getD_some] at hq hp
  exact ⟨entries[i], List.getElem_mem hlt, ⟨i, hi, List.getElem?_eq_getElem hlt⟩, husable, hlen, q,
    hq, hp⟩

private theorem bitmapPhys_eq {base offset : Nat} (hbase : base < 2 ^ 64) (hoffset : offset < 2 ^ 64) :
    u64Sub (u64 (base + offset)) offset = base := by
  simp only [u64Sub, u64]
  omega

/-- After `init_pmm` a page is free exactly when it lies in a usable region and holds no byte of
the bitmap. -/
theorem initPmm_spec {entries : List MemmapEntry} {offset : Nat} {p : Pmm}
    (hmap : WellFormedMemmap entries) (hoffset : offset < 2 ^ 64)
    (h : initPmm (some entries) (some offset) = .ok p) :
    p.pageCount < 2 ^ 52 ∧ (∀ k, UsablePage entries k → k < p.pageCount) ∧
      ∀ k < p.pageCount, p.used k = false ↔ UsablePage entries k ∧ ¬p.HoldsBitmap k := by
  obtain ⟨region, hmem, -, husable, hlen, q, hq, hp⟩ := initPmm_stages h
  obtain ⟨husableIn, rfl⟩ := foldlM_markRegionFree hq
  obtain ⟨hbitmapIn, rfl⟩ := foldlM_setPageAs_ok hp
  have hbits := neededBits_lt entries
  obtain ⟨hbase, hdvd⟩ := hmap.aligned region hmem husable
  obtain ⟨hbase64, -⟩ := hmap.word region hmem
  simp only [Pmm.setBits_pageCount] at hbitmapIn ⊢
  set p₀ : Pmm := ⟨(bitmapCreate (u64 (region.base + offset)) (neededBits entries)).memset 0xFF
    (neededBytes entries), offset⟩ with hp₀
  have hcount : p₀.pageCount = neededBits entries := rfl
  have husablePages : ∀ k, k ∈ usablePages entries ↔ UsablePage entries k := fun k =>
    mem_usablePages hmap hbits husableIn
  have hwrap : region.base + neededPages entries * regularPageSize ≤ 2 ^ 64 :=
    pagesFrom_noWrap hbase hbase64 hbits fun k hk => by
      obtain ⟨j, hj, rfl⟩ := List.mem_map.mp hk
      exact hbitmapIn j hj
  have hbitmapPages : ∀ k, k ∈ pagesFrom region.base (neededPages entries) ↔
      ∃ b < neededBytes entries, (region.base + b) / regularPageSize = k := by
    intro k
    have hpages := neededPages_eq entries
    rw [mem_pagesFrom hbase hwrap]
    simp only [regularPageSize] at *
    constructor
    · rintro ⟨hlow, hhigh⟩
      exact ⟨(k - region.base / 4096) * 4096, by omega, by omega⟩
    · rintro ⟨b, hb, rfl⟩
      omega
  refine ⟨hbits, fun k hk => husableIn k ((husablePages k).mpr hk), fun k hk => ?_⟩
  have hphys := bitmapPhys_eq hbase64 hoffset
  have hholds : ∀ (ks ls : List Nat) (v w : Bool),
      ((p₀.setBits ks v).setBits ls w).HoldsBitmap k ↔
        k ∈ pagesFrom region.base (neededPages entries) := by
    intro ks ls v w
    rw [hbitmapPages, Pmm.HoldsBitmap, Pmm.bitmapPhys, TzBitmap.length_eq]
    simp only [Pmm.setBits_addr, Pmm.setBits_gHhdmOffset]
    have hbc : ((p₀.setBits ks v).setBits ls w).gBitmap.bitCount = neededBits entries :=
      Pmm.setBits_pageCount.trans (Pmm.setBits_pageCount.trans hcount)
    rw [hbc, ← neededBytes_eq]
    simp only [hp₀, TzBitmap.memset, bitmapCreate, hphys]
  have hstart : p₀.used k = true := bit_memset hk (by
    rw [TzBitmap.length_eq, neededBytes_eq]
    exact Nat.le_refl _)
  rw [hholds, ← husablePages, Pmm.used_setBits, Pmm.used_setBits, Pmm.setBits_pageCount, hstart]
  have hk' : k < p₀.pageCount := hk
  simp only [hk', and_true]
  show (if k ∈ pagesFrom region.base (neededPages entries) then _ else _) = _ ↔ _
  by_cases hb : k ∈ pagesFrom region.base (neededPages entries)
  · simp [hb]
  · by_cases hu : k ∈ usablePages entries <;> simp [hb, hu]

/-! ## Completion

The top of memory is the highest end of a region as a 64-bit word. The end of a usable region that
reaches `2 ^ 64` is the word `0`, and its last page then has no bit in the bitmap. -/

private theorem le_getRamMaxSize {entries : List MemmapEntry} {e : MemmapEntry} (he : e ∈ entries)
    (husable : e.type = .usable) : u64 (e.base + e.length) ≤ getRamMaxSize entries := by
  let step (maxAddress : Nat) (e : MemmapEntry) : Nat :=
    if e.type ≠ .usable ∧ e.type ≠ .acpiReclaimable ∧ e.type ≠ .bootloaderReclaimable then
      maxAddress
    else
      let top := u64 (e.base + e.length)
      if top > maxAddress then top else maxAddress
  have hgrows : ∀ (l : List MemmapEntry) acc, acc ≤ l.foldl step acc := by
    intro l
    induction l with
    | nil => exact fun acc => Nat.le_refl acc
    | cons f l ih =>
      intro acc
      refine Nat.le_trans ?_ (ih (step acc f))
      simp only [step]
      split
      · exact Nat.le_refl acc
      · split <;> omega
  have htop : ∀ acc, u64 (e.base + e.length) ≤ step acc e := by
    intro acc
    simp only [step, husable, ne_eq, not_true_eq_false, false_and, if_false]
    split <;> omega
  obtain ⟨front, back, rfl⟩ := List.append_of_mem he
  have hsplit : getRamMaxSize (front ++ e :: back) = back.foldl step (step (front.foldl step 0) e) := by
    rw [getRamMaxSize, List.foldl_append, List.foldl_cons]
  rw [hsplit]
  exact Nat.le_trans (htop _) (hgrows back _)

/-- The pages of a usable region that ends below `2 ^ 64` have bits in the bitmap. -/
private theorem pagesFrom_lt_neededBits {entries : List MemmapEntry} {e : MemmapEntry} {n k : Nat}
    (hmap : WellFormedMemmap entries) (he : e ∈ entries) (husable : e.type = .usable)
    (hend : e.base + e.length < 2 ^ 64) (hn : n * regularPageSize ≤ e.length)
    (hk : k ∈ pagesFrom e.base n) : k < neededBits entries := by
  have hbase := (hmap.aligned e he husable).1
  have htop := le_getRamMaxSize he husable
  rw [u64, Nat.mod_eq_of_lt hend] at htop
  rw [mem_pagesFrom hbase (by omega)] at hk
  simp only [neededBits, regularPageSize] at *
  omega

private theorem initPmm_total {entries : List MemmapEntry} {offset : Nat}
    (hmap : WellFormedMemmap entries)
    (hroom : ∃ e ∈ entries, e.type = .usable ∧ neededBytes entries ≤ e.length)
    (hend : ∀ e ∈ entries, e.type = .usable → e.base + e.length < 2 ^ 64) :
    ∃ p, initPmm (some entries) (some offset) = .ok p := by
  have hfound : getBitmapRegion entries (getRamMaxSize entries) ≠ -1 := by
    obtain ⟨e, he, husable, hlen⟩ := hroom
    unfold getBitmapRegion
    dsimp only
    split
    · omega
    · rename_i hnone
      have := List.findIdx?_eq_none_iff.mp hnone e he
      simp only [husable, true_and, decide_eq_false_iff_not] at this
      exact absurd hlen this
  obtain ⟨i, hi, hlt, husable, hlen⟩ := getBitmapRegion_eq hfound
  have hmem := List.getElem_mem hlt
  have hpages : neededPages entries * regularPageSize ≤ entries[i].length := by
    have hbytes : neededBytes entries ≤ entries[i].length := hlen
    have hdvd := (hmap.aligned _ hmem husable).2
    rw [neededPages_eq]
    simp only [regularPageSize] at *
    omega
  simp only [initPmm, kernelAssert_ok hfound, Exec.ok_bind]
  simp only [hi, Int.toNat_natCast, List.getD_eq_getElem?_getD, List.getElem?_eq_getElem hlt,
    Option.getD_some]
  rw [foldlM_markRegionFree_eq_ok fun k hk => ?_, Exec.ok_bind]
  · refine ⟨_, foldlM_setPageAs_eq_ok fun j hj => ?_⟩
    rw [Pmm.setBits_pageCount]
    exact pagesFrom_lt_neededBits hmap hmem husable (hend _ hmem husable) hpages
      (List.mem_map_of_mem hj)
  · obtain ⟨e, he, hk⟩ := List.mem_flatMap.mp hk
    split at hk
    · rename_i husable
      exact pagesFrom_lt_neededBits hmap he husable (hend e he husable)
        (Nat.div_mul_le_self _ _) hk
    · exact (List.not_mem_nil hk).elim

/-- The bytes of the bitmap lie in the region that `get_bitmap_region` chose. -/
private theorem initPmm_placed {entries : List MemmapEntry} {offset : Nat} {p : Pmm}
    (hmap : WellFormedMemmap entries) (hoffset : offset < 2 ^ 64)
    (h : initPmm (some entries) (some offset) = .ok p) :
    ∃ i : Nat, getBitmapRegion entries (getRamMaxSize entries) = i ∧
      ∃ region, entries[i]? = some region ∧ region.type = .usable ∧
        ∀ b < p.gBitmap.bitmap.length,
          region.base ≤ p.bitmapPhys + b ∧ p.bitmapPhys + b < region.base + region.length := by
  obtain ⟨region, hmem, ⟨i, hi, hregion⟩, husable, hlen, q, hq, hp⟩ := initPmm_stages h
  obtain ⟨-, rfl⟩ := foldlM_markRegionFree hq
  obtain ⟨-, rfl⟩ := foldlM_setPageAs_ok hp
  refine ⟨i, hi, region, hregion, husable, fun b hb => ?_⟩
  rw [TzBitmap.length_eq] at hb
  simp only [Pmm.bitmapPhys, Pmm.setBits_addr, Pmm.setBits_gHhdmOffset, TzBitmap.memset,
    bitmapCreate, bitmapPhys_eq (hmap.word region hmem).1 hoffset]
  have hbytes := neededBytes_eq entries
  have hcount : ∀ (p : Pmm) ks ls v w, ((p.setBits ks v).setBits ls w).gBitmap.bitCount =
      p.gBitmap.bitCount := fun _ _ _ _ _ => Pmm.setBits_pageCount.trans Pmm.setBits_pageCount
  rw [hcount] at hb
  have hb : b < neededBytes entries := hbytes ▸ hb
  omega

/-- What `init_pmm` sets up from a memory map. -/
structure InitializedPmm (entries : List MemmapEntry) (p : Pmm) : Prop where
  covers : ∀ k, UsablePage entries k → k < p.pageCount
  used_eq_false : ∀ k < p.pageCount,
    p.used k = false ↔ UsablePage entries k ∧ ¬p.HoldsBitmap k
  placed : ∃ i : Nat, getBitmapRegion entries (getRamMaxSize entries) = i ∧
    ∃ region, entries[i]? = some region ∧ region.type = .usable ∧
      ∀ b < p.gBitmap.bitmap.length,
        region.base ≤ p.bitmapPhys + b ∧ p.bitmapPhys + b < region.base + region.length

/-- A usable region that reaches `2 ^ 64` has the last page of the address space. -/
private theorem usablePage_last {entries : List MemmapEntry} {e : MemmapEntry}
    (hmap : WellFormedMemmap entries) (he : e ∈ entries) (husable : e.type = .usable)
    (hend : 2 ^ 64 ≤ e.base + e.length) : UsablePage entries (2 ^ 52 - 1) := by
  refine ⟨e, he, husable, ?_⟩
  have hbase := (hmap.aligned e he husable).1
  have hword := (hmap.word e he).1
  simp only [MemmapEntry.HasPage, regularPageSize] at *
  omega

/-- `init_pmm` completes and sets up the bitmap exactly when every usable region ends below
`2 ^ 64`. -/
theorem initPmm_initializes_iff {entries : List MemmapEntry} {offset : Nat}
    (hmap : WellFormedMemmap entries) (hoffset : offset < 2 ^ 64)
    (hroom : ∃ e ∈ entries, e.type = .usable ∧ neededBytes entries ≤ e.length) :
    (∃ p, initPmm (some entries) (some offset) = .ok p ∧ InitializedPmm entries p) ↔
      ∀ e ∈ entries, e.type = .usable → e.base + e.length < 2 ^ 64 := by
  constructor
  · rintro ⟨p, hp, hinit⟩ e he husable
    by_contra hend
    have hlast := hinit.covers _ (usablePage_last hmap he husable (Nat.not_lt.mp hend))
    have hcount := (initPmm_spec hmap hoffset hp).1
    omega
  · intro hend
    obtain ⟨p, hp⟩ := initPmm_total hmap hroom hend
    obtain ⟨-, hcovers, hfree⟩ := initPmm_spec hmap hoffset hp
    exact ⟨p, hp, hcovers, hfree, initPmm_placed hmap hoffset hp⟩

theorem initPmm_initializes_twoRegions :
    ∃ p, initPmm (some [⟨8192, 4096, .usable⟩, ⟨0, 8192, .reserved⟩, ⟨16384, 8192, .usable⟩,
      ⟨40960, 4096, .bootloaderReclaimable⟩]) (some 0xffff800000000000) = .ok p ∧
      InitializedPmm [⟨8192, 4096, .usable⟩, ⟨0, 8192, .reserved⟩, ⟨16384, 8192, .usable⟩,
        ⟨40960, 4096, .bootloaderReclaimable⟩] p := by
  have hmap : WellFormedMemmap [⟨8192, 4096, .usable⟩, ⟨0, 8192, .reserved⟩,
      ⟨16384, 8192, .usable⟩, ⟨40960, 4096, .bootloaderReclaimable⟩] :=
    ⟨by decide, by decide, by decide, by simp [MemmapEntry.HasPage]⟩
  exact (initPmm_initializes_iff hmap (by decide) (by decide)).mpr (by decide)

/-- A usable page at the top of the 64-bit address space. -/
theorem initPmm_topPage :
    WellFormedMemmap [⟨4096, 4096, .usable⟩, ⟨2 ^ 64 - 4096, 4096, .usable⟩] ∧
      (∃ e ∈ [(⟨4096, 4096, .usable⟩ : MemmapEntry), ⟨2 ^ 64 - 4096, 4096, .usable⟩],
        e.type = .usable ∧
          neededBytes [⟨4096, 4096, .usable⟩, ⟨2 ^ 64 - 4096, 4096, .usable⟩] ≤ e.length) ∧
      initPmm (some [⟨4096, 4096, .usable⟩, ⟨2 ^ 64 - 4096, 4096, .usable⟩])
        (some 0xffff800000000000) = .error (.panic "PMM bitmap bit set out of bounds") := by
  exact ⟨⟨by decide, by decide, by decide, by simp [MemmapEntry.HasPage]⟩, by decide, rfl⟩

end TrazelOs
