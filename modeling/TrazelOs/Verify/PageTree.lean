import Mathlib.Data.List.Nodup
import TrazelOs.Verify.Paging

/-! # The tree of page tables

`recursive_pagemap_delete` and `recursive_pagemap_clone` go through the tables of the lower half.
The predicates here follow their recursion: the tables and the pages below an entry, and that no two
entries lead to the same table. -/

namespace TrazelOs
open Theory

/-- A page of the direct map. -/
def FramePage (k : Kernel Pmm) (t : Nat) : Prop := ∃ f < k.pmm.pageCount, t = pageAt k f

/-- A byte of the page at `t`. -/
def InPage (t b : Nat) : Prop := t ≤ b ∧ b < t + regularPageSize

theorem FramePage.eq_or_apart {k : Kernel Pmm} {t t' : Nat} (h : FramePage k t) (h' : FramePage k t') :
    t = t' ∨ PagesApart t t' := by
  obtain ⟨f, -, rfl⟩ := h
  obtain ⟨f', -, rfl⟩ := h'
  by_cases hf : f = f'
  · exact .inl (hf ▸ rfl)
  · exact .inr (pagesApart_of_ne hf)

theorem PagesApart.not_inPage {t t' b : Nat} (h : PagesApart t t') (hb : InPage t b) :
    ¬InPage t' b := by
  simp only [PagesApart, InPage] at h hb ⊢
  omega

theorem tableEntry_congr {m m' : Memory} {t i : Nat} (hi : i < 512)
    (h : ∀ b, InPage t b → m' b = m b) : tableEntry m' t i = tableEntry m t i :=
  ByteMemory.load_congr fun j hj => h _ (by simp only [InPage, regularPageSize]; omega)

theorem setTableEntry_of_not_inPage {m : Memory} {t i v b : Nat} (hi : i < 512) (hb : ¬InPage t b) :
    setTableEntry m t i v b = m b :=
  ByteMemory.store_of_disjoint (by simp only [InPage, regularPageSize] at hb; omega)

theorem levelEntries_le {level : Nat} : levelEntries level ≤ 512 := by
  unfold levelEntries
  split <;> decide

/-! ## Tables and pages below an entry -/

/-- `t'` is one of the tables of the tree of `level` levels at `t`. -/
def SubTable (k : Kernel Pmm) : (level t t' : Nat) → Prop
  | 0, _, _ => False
  | level + 1, t, t' => t' = t ∨ ∃ i < levelEntries (level + 1), tableEntry k.mem t i ≠ 0 ∧
    SubTable k level (getNextPageTable k t i) t'

/-- The pages that entries of the tree of `level` levels at `t` refer to, tables after what is below
them. -/
def framesBelow (k : Kernel Pmm) : (level t : Nat) → List Nat
  | 0, _ => []
  | level + 1, t => (List.range (levelEntries (level + 1))).flatMap fun i =>
    if tableEntry k.mem t i = 0 then []
    else framesBelow k level (getNextPageTable k t i) ++ [entryIndex (tableEntry k.mem t i)]

/-- The entries of `level` levels from `t` are present and not of large pages, and no two of them lead
to the same table. -/
def Tree (k : Kernel Pmm) : (level t : Nat) → Prop
  | 0, _ => True
  | level + 1, t =>
    (∀ i < levelEntries (level + 1), tableEntry k.mem t i ≠ 0 →
      entryPresent (tableEntry k.mem t i) = true ∧ entryHugePage (tableEntry k.mem t i) = false ∧
        Tree k level (getNextPageTable k t i) ∧ ¬SubTable k level (getNextPageTable k t i) t) ∧
    ∀ i < levelEntries (level + 1), ∀ j < levelEntries (level + 1), i ≠ j →
      tableEntry k.mem t i ≠ 0 → tableEntry k.mem t j ≠ 0 → ∀ t',
        SubTable k level (getNextPageTable k t i) t' → ¬SubTable k level (getNextPageTable k t j) t'

section Congr
variable {k k' : Kernel Pmm} {level t t' : Nat}

/-- The tables of the tree have the same entries. -/
def SameTables (k k' : Kernel Pmm) (level t : Nat) : Prop :=
  ∀ t', SubTable k level t t' → ∀ i < 512, tableEntry k'.mem t' i = tableEntry k.mem t' i

theorem SameTables.entry (h : SameTables k k' (level + 1) t) {i : Nat} (hi : i < levelEntries (level + 1)) :
    tableEntry k'.mem t i = tableEntry k.mem t i :=
  h t (.inl rfl) i (Nat.lt_of_lt_of_le hi levelEntries_le)

theorem SameTables.next (h : SameTables k k' (level + 1) t) (hoffset : k'.gHhdmOffset = k.gHhdmOffset)
    {i : Nat} (hi : i < levelEntries (level + 1)) :
    getNextPageTable k' t i = getNextPageTable k t i := by
  rw [getNextPageTable, getNextPageTable, entryTable, entryTable, h.entry hi, hoffset]

theorem SameTables.below (h : SameTables k k' (level + 1) t) {i : Nat}
    (hi : i < levelEntries (level + 1)) (hne : tableEntry k.mem t i ≠ 0) :
    SameTables k k' level (getNextPageTable k t i) :=
  fun t' ht' => h t' (.inr ⟨i, hi, hne, ht'⟩)

theorem SameTables.subTable_iff (h : SameTables k k' level t)
    (hoffset : k'.gHhdmOffset = k.gHhdmOffset) : SubTable k' level t t' ↔ SubTable k level t t' := by
  induction level generalizing t with
  | zero => exact Iff.rfl
  | succ level ih =>
    refine or_congr Iff.rfl (exists_congr fun i => and_congr_right fun hi => ?_)
    rw [h.entry hi, h.next hoffset hi]
    exact and_congr_right fun hne => ih (h.below hi hne)

theorem SameTables.framesBelow_eq (h : SameTables k k' level t)
    (hoffset : k'.gHhdmOffset = k.gHhdmOffset) : framesBelow k' level t = framesBelow k level t := by
  induction level generalizing t with
  | zero => rfl
  | succ level ih =>
    refine List.flatMap_congr fun i hi => ?_
    have hi := List.mem_range.mp hi
    rw [h.entry hi, h.next hoffset hi]
    split
    · rfl
    · rename_i hne
      rw [ih (h.below hi hne)]

theorem SameTables.tree (h : SameTables k k' level t) (hoffset : k'.gHhdmOffset = k.gHhdmOffset)
    (T : Tree k level t) : Tree k' level t := by
  induction level generalizing t with
  | zero => trivial
  | succ level ih =>
    refine ⟨fun i hi hne => ?_, fun i hi j hj hij hne hne' t' => ?_⟩
    · rw [h.entry hi] at hne ⊢
      obtain ⟨hpresent, hhuge, T', hnot⟩ := T.1 i hi hne
      rw [h.next hoffset hi, (h.below hi hne).subTable_iff hoffset]
      exact ⟨hpresent, hhuge, ih (h.below hi hne) T', hnot⟩
    · rw [h.entry hi] at hne
      rw [h.entry hj] at hne'
      rw [h.next hoffset hi, h.next hoffset hj, (h.below hi hne).subTable_iff hoffset,
        (h.below hj hne').subTable_iff hoffset]
      exact T.2 i hi j hj hij hne hne' t'

end Congr

/-! ## `vmm_delete_pagemap` -/

/-- The pages `frames` are given back, and only tables of `tables` were written. -/
structure Freed (k k' : Kernel Pmm) (tables : Nat → Prop) (frames : List Nat) : Prop where
  globals : k' = { k with mem := k'.mem, pmm := k.pmm.setBits frames false }
  mem : ∀ b, (∀ t, tables t → ¬InPage t b) → k'.mem b = k.mem b

namespace Freed
variable {k k' : Kernel Pmm} {tables : Nat → Prop} {frames : List Nat}

theorem offset (h : Freed k k' tables frames) : k'.gHhdmOffset = k.gHhdmOffset := by rw [h.globals]

theorem pmm (h : Freed k k' tables frames) : k'.pmm = k.pmm.setBits frames false := by rw [h.globals]

theorem pageCount (h : Freed k k' tables frames) : k'.pmm.pageCount = k.pmm.pageCount := by
  rw [h.pmm, Pmm.setBits_pageCount]

theorem pmmOffset (h : Freed k k' tables frames) : k'.pmm.gHhdmOffset = k.pmm.gHhdmOffset := by
  rw [h.pmm, Pmm.setBits_gHhdmOffset]

theorem direct (h : Freed k k' tables frames) (D : DirectMap k) : DirectMap k' where
  offset := by rw [h.pmmOffset, h.offset, D.offset]
  word := by rw [h.pageCount, h.offset]; exact D.word
  count := by rw [h.pageCount]; exact D.count

end Freed

theorem freePageHhdm_eq {k : Kernel Pmm} {f : Nat} (D : DirectMap k) (hf : f < k.pmm.pageCount) :
    freePageHhdm k (pageAt k f) = .ok { k with pmm := k.pmm.setBits [f] false } := by
  have hword := D.word
  have hle := Nat.mul_le_mul_right regularPageSize (show f + 1 ≤ k.pmm.pageCount from hf)
  have hsub : u64Sub (pageAt k f) k.gHhdmOffset = f * regularPageSize := by
    simp only [pageAt, regularPageSize] at hle hword ⊢
    unfold u64Sub u64
    omega
  rw [freePageHhdm, hsub, pmmFreePage_spec hf]
  rfl

section Delete
variable {k : Kernel Pmm} {level t : Nat}

/-- The pages at and below the entries before `i`. -/
def framesBefore (k : Kernel Pmm) (level t i : Nat) : List Nat :=
  (List.range i).flatMap fun j =>
    if tableEntry k.mem t j = 0 then []
    else framesBelow k level (getNextPageTable k t j) ++ [entryIndex (tableEntry k.mem t j)]

/-- Before turn `i` the rest of the tree is as it was. -/
structure Deleting (k : Kernel Pmm) (level t i : Nat) (k' : Kernel Pmm) : Prop where
  freed : Freed k k' (SubTable k (level + 1) t) (framesBefore k level t i)
  entry : ∀ j, i ≤ j → j < levelEntries (level + 1) → tableEntry k'.mem t j = tableEntry k.mem t j
  below : ∀ j, i ≤ j → j < levelEntries (level + 1) → tableEntry k.mem t j ≠ 0 →
    ∀ t', SubTable k level (getNextPageTable k t j) t' → ∀ b, InPage t' b → k'.mem b = k.mem b

theorem framesBefore_succ {i : Nat} : framesBefore k level t (i + 1) = framesBefore k level t i ++
    if tableEntry k.mem t i = 0 then []
    else framesBelow k level (getNextPageTable k t i) ++ [entryIndex (tableEntry k.mem t i)] := by
  simp only [framesBefore, List.range_succ, List.flatMap_append, List.flatMap_singleton]

/-- The tables of the tree are pages, and so is what its entries refer to. -/
structure TreeIn (k : Kernel Pmm) (level t : Nat) : Prop where
  direct : DirectMap k
  tree : Tree k level t
  page : ∀ t', SubTable k level t t' → FramePage k t'
  frame : ∀ f ∈ framesBelow k level t, f < k.pmm.pageCount

namespace TreeIn

theorem next_eq {i : Nat} (T : TreeIn k (level + 1) t) (hi : i < levelEntries (level + 1))
    (hne : tableEntry k.mem t i ≠ 0) : entryIndex (tableEntry k.mem t i) < k.pmm.pageCount ∧
      getNextPageTable k t i = pageAt k (entryIndex (tableEntry k.mem t i)) := by
  have hlt : entryIndex (tableEntry k.mem t i) < k.pmm.pageCount := by
    refine T.frame _ (List.mem_flatMap.mpr ⟨i, List.mem_range.mpr hi, ?_⟩)
    rw [if_neg hne]
    exact List.mem_append_right _ (.head _)
  exact ⟨hlt, T.direct.u64_pageAt hlt⟩

theorem below {i : Nat} (T : TreeIn k (level + 1) t) (hi : i < levelEntries (level + 1))
    (hne : tableEntry k.mem t i ≠ 0) : TreeIn k level (getNextPageTable k t i) where
  direct := T.direct
  tree := (T.tree.1 i hi hne).2.2.1
  page := fun t' ht' => T.page t' (.inr ⟨i, hi, hne, ht'⟩)
  frame := fun f hf => by
    refine T.frame f (List.mem_flatMap.mpr ⟨i, List.mem_range.mpr hi, ?_⟩)
    rw [if_neg hne]
    exact List.mem_append_left _ hf

theorem congr {k' : Kernel Pmm} (T : TreeIn k level t) (hsame : SameTables k k' level t)
    (hoffset : k'.gHhdmOffset = k.gHhdmOffset) (hpmm : k'.pmm.gHhdmOffset = k.pmm.gHhdmOffset)
    (hcount : k'.pmm.pageCount = k.pmm.pageCount) : TreeIn k' level t where
  direct := ⟨by rw [hpmm, hoffset, T.direct.offset], by rw [hcount, hoffset]; exact T.direct.word,
    by rw [hcount]; exact T.direct.count⟩
  tree := hsame.tree hoffset T.tree
  page := fun t' ht' => by
    obtain ⟨f, hf, rfl⟩ := T.page t' ((hsame.subTable_iff hoffset).mp ht')
    exact ⟨f, hcount ▸ hf, by rw [pageAt, pageAt, hoffset]⟩
  frame := fun f hf => by
    rw [hsame.framesBelow_eq hoffset] at hf
    exact hcount ▸ T.frame f hf

/-- Different tables of the tree have no byte in common. -/
theorem apart {t₁ t₂ b : Nat} (T : TreeIn k level t) (h₁ : SubTable k level t t₁)
    (h₂ : SubTable k level t t₂) (hne : t₁ ≠ t₂) (hb : InPage t₁ b) : ¬InPage t₂ b :=
  (((T.page t₁ h₁).eq_or_apart (T.page t₂ h₂)).resolve_left hne).not_inPage hb

end TreeIn

theorem Deleting.init : Deleting k level t 0 k where
  freed := ⟨rfl, fun _ _ => rfl⟩
  entry := fun _ _ _ => rfl
  below := fun _ _ _ _ _ _ _ _ => rfl

theorem Deleting.skip {i : Nat} {k₁ : Kernel Pmm} (h : Deleting k level t i k₁)
    (hzero : tableEntry k.mem t i = 0) : Deleting k level t (i + 1) k₁ where
  freed := by
    rw [framesBefore_succ, if_pos hzero, List.append_nil]
    exact h.freed
  entry := fun j hj => h.entry j (by omega)
  below := fun j hj => h.below j (by omega)

/-- One turn of the loop. -/
theorem Deleting.step {i : Nat} {k₁ k₂ : Kernel Pmm} (T : TreeIn k (level + 1) t)
    (h : Deleting k level t i k₁) (hi : i < levelEntries (level + 1))
    (hne : tableEntry k.mem t i ≠ 0)
    (hsub : Freed k₁ k₂ (SubTable k level (getNextPageTable k t i))
      (framesBelow k level (getNextPageTable k t i))) :
    Deleting k level t (i + 1) { k₂ with
      mem := setTableEntry k₂.mem t i 0
      pmm := k₂.pmm.setBits [entryIndex (tableEntry k.mem t i)] false } := by
  have hi' : i < 512 := Nat.lt_of_lt_of_le hi levelEntries_le
  have hroot : SubTable k (level + 1) t t := .inl rfl
  have hmem : ∀ {t'}, SubTable k level (getNextPageTable k t i) t' → SubTable k (level + 1) t t' :=
    fun ht' => .inr ⟨i, hi, hne, ht'⟩
  have hnot := (T.tree.1 i hi hne).2.2.2
  -- The recursive call wrote no byte of `t`.
  have ht : ∀ b, InPage t b → k₂.mem b = k₁.mem b := by
    refine fun b hb => hsub.mem b fun t' ht' => T.apart hroot (hmem ht') ?_ hb
    rintro rfl
    exact hnot ht'
  refine ⟨⟨?_, fun b hb => ?_⟩, fun j hij hj => ?_, fun j hij hj hne' t' ht' b hb => ?_⟩
  · rw [hsub.globals, h.freed.globals, framesBefore_succ, if_neg hne, Pmm.setBits_append,
      Pmm.setBits_append]
  · change setTableEntry k₂.mem t i 0 b = _
    rw [setTableEntry_of_not_inPage hi' (hb t hroot), hsub.mem b fun t' ht' => hb t' (hmem ht'),
      h.freed.mem b hb]
  · have hj' : j < 512 := Nat.lt_of_lt_of_le hj levelEntries_le
    have hset : tableEntry (setTableEntry k₂.mem t i 0) t j = tableEntry k₂.mem t j :=
      tableEntry_set_of_ne (.inl rfl) hi' hj' (.inr (Nat.ne_of_gt hij))
    rw [hset, tableEntry_congr hj' ht, h.entry j (Nat.le_of_succ_le hij) hj]
  · have hsub' : SubTable k (level + 1) t t' := .inr ⟨j, hj, hne', ht'⟩
    have hapart := T.tree.2 j hj i hi (Nat.ne_of_gt hij) hne' hne t' ht'
    have htt : t' ≠ t := by
      rintro rfl
      exact (T.tree.1 j hj hne').2.2.2 ht'
    have hcall : k₂.mem b = k₁.mem b := by
      refine hsub.mem b fun t'' ht'' => T.apart hsub' (hmem ht'') ?_ hb
      rintro rfl
      exact hapart ht''
    change setTableEntry k₂.mem t i 0 b = _
    rw [setTableEntry_of_not_inPage hi' (T.apart hsub' hroot htt hb), hcall,
      h.below j (Nat.le_of_succ_le hij) hj hne' t' ht' b hb]

/-- `freePageHhdm` that notes the page. -/
def freeNoted (s : List Nat × Kernel Pmm) (pageHhdm : Nat) : Exec (List Nat × Kernel Pmm) := do
  let k ← freePageHhdm s.2 pageHhdm
  return (s.1 ++ [pageHhdm], k)

/-- `recursive_pagemap_delete` that notes the pages it passes to `pmm_free_page`, in order. -/
def deletedPages : (level : Nat) → List Nat × Kernel Pmm → (currPageTable : Nat) →
    Exec (List Nat × Kernel Pmm)
  | 0, s, _ => .ok s
  | level + 1, s, currPageTable =>
    (List.range (levelEntries (level + 1))).foldlM (fun s i => do
      let entry := tableEntry s.2.mem currPageTable i
      let clear : List Nat × Kernel Pmm → List Nat × Kernel Pmm := fun s =>
        (s.1, { s.2 with mem := setTableEntry s.2.mem currPageTable i 0 })
      if entry = 0 then return s
      if ¬entryPresent entry then return clear s
      let nextPageTable := getNextPageTable s.2 currPageTable i
      if ¬entryHugePage entry ∨ level + 1 = 1 then
        let s ← deletedPages level s nextPageTable
        let s ← freeNoted s nextPageTable
        return clear s
      else
        let pageSize := if level + 1 = 3 then superHugePageSize else hugePageSize
        let s ← (List.range (pageSize / regularPageSize)).foldlM (fun s j =>
          freeNoted s (u64 (nextPageTable + j * regularPageSize))) s
        return clear s) s

theorem map_freeNoted {s : List Nat × Kernel Pmm} {page : Nat} :
    Prod.snd <$> freeNoted s page = freePageHhdm s.2 page := by
  rw [freeNoted]
  cases freePageHhdm s.2 page <;> rfl

theorem map_deletedPages {s : List Nat × Kernel Pmm} :
    Prod.snd <$> deletedPages level s t = recursivePagemapDelete level s.2 t := by
  induction level generalizing s t with
  | zero => rfl
  | succ level ih =>
    refine Exec.map_foldlM fun s i => ?_
    dsimp only
    split
    · rfl
    split
    · rfl
    split
    · rw [← ih]
      cases deletedPages level s (getNextPageTable s.2 t i) with
      | error e => rfl
      | ok s' =>
        change Prod.snd <$> (freeNoted s' _ >>= _) = freePageHhdm s'.2 _ >>= _
        rw [← map_freeNoted]
        cases freeNoted s' (getNextPageTable s.2 t i) <;> rfl
    · have hloop := Exec.map_foldlM
        (f := fun s' j => freeNoted s' (u64 (getNextPageTable s.2 t i + j * regularPageSize)))
        (g := fun k j => freePageHhdm k (u64 (getNextPageTable s.2 t i + j * regularPageSize)))
        (fun _ _ => map_freeNoted) (b := s)
        (l := List.range ((if level + 1 = 3 then superHugePageSize else hugePageSize) / regularPageSize))
      rw [← hloop]
      cases List.foldlM (fun s' j => freeNoted s' (u64 (getNextPageTable s.2 t i + j * regularPageSize))) s
        (List.range ((if level + 1 = 3 then superHugePageSize else hugePageSize) / regularPageSize)) <;> rfl

/-- The tree below `t` is given back, each of its pages once. -/
theorem deletedPages_spec (T : TreeIn k level t) (log : List Nat) :
    ∃ k', deletedPages level (log, k) t = .ok (log ++ (framesBelow k level t).map (pageAt k), k') ∧
      Freed k k' (SubTable k level t) (framesBelow k level t) := by
  induction level generalizing k t log with
  | zero => exact ⟨k, by rw [framesBelow, List.map_nil, List.append_nil]; rfl, rfl, fun _ _ => rfl⟩
  | succ level ih =>
    have hstep : ∀ i (s : List Nat × Kernel Pmm), i < levelEntries (level + 1) →
        s.1 = log ++ (framesBefore k level t i).map (pageAt k) ∧ Deleting k level t i s.2 →
        ∃ s', (do
          let entry := tableEntry s.2.mem t i
          let clear : List Nat × Kernel Pmm → List Nat × Kernel Pmm := fun s =>
            (s.1, { s.2 with mem := setTableEntry s.2.mem t i 0 })
          if entry = 0 then return s
          if ¬entryPresent entry then return clear s
          let nextPageTable := getNextPageTable s.2 t i
          if ¬entryHugePage entry ∨ level + 1 = 1 then
            let s ← deletedPages level s nextPageTable
            let s ← freeNoted s nextPageTable
            return clear s
          else
            let pageSize := if level + 1 = 3 then superHugePageSize else hugePageSize
            let s ← (List.range (pageSize / regularPageSize)).foldlM (fun s j =>
              freeNoted s (u64 (nextPageTable + j * regularPageSize))) s
            return clear s) = .ok s' ∧
          s'.1 = log ++ (framesBefore k level t (i + 1)).map (pageAt k) ∧ Deleting k level t (i + 1) s'.2 := by
      rintro i ⟨log₁, k₁⟩ hi ⟨rfl, h⟩
      have hoffset := h.freed.offset
      have hnext : getNextPageTable k₁ t i = getNextPageTable k t i := by
        rw [getNextPageTable, getNextPageTable, entryTable, entryTable, h.entry i (Nat.le_refl i) hi, hoffset]
      dsimp only at h ⊢
      rw [h.entry i (Nat.le_refl i) hi, hnext, framesBefore_succ]
      by_cases hzero : tableEntry k.mem t i = 0
      · rw [if_pos hzero, if_pos hzero, List.append_nil]
        exact ⟨_, rfl, rfl, h.skip hzero⟩
      · obtain ⟨hpresent, hhuge, -, -⟩ := T.tree.1 i hi hzero
        obtain ⟨hlt, hpage⟩ := T.next_eq hi hzero
        have hsame : SameTables k k₁ level (getNextPageTable k t i) := fun t' ht' j hj =>
          tableEntry_congr hj (h.below i (Nat.le_refl i) hi hzero t' ht')
        have T₁ := (T.below hi hzero).congr hsame hoffset h.freed.pmmOffset h.freed.pageCount
        obtain ⟨k₂, hdelete, hfreed⟩ := ih T₁ (log ++ (framesBefore k level t i).map (pageAt k))
        have hpages : pageAt k₁ = pageAt k := funext fun f => by rw [pageAt, pageAt, hoffset]
        rw [hsame.framesBelow_eq hoffset, hpages] at hdelete
        have hsub : Freed k₁ k₂ (SubTable k level (getNextPageTable k t i))
            (framesBelow k level (getNextPageTable k t i)) := by
          rw [hsame.framesBelow_eq hoffset] at hfreed
          exact ⟨hfreed.globals, fun b hb => hfreed.mem b fun t' ht' =>
            hb t' ((hsame.subTable_iff hoffset).mp ht')⟩
        have hfree : freePageHhdm k₂ (getNextPageTable k t i) = .ok { k₂ with
            pmm := k₂.pmm.setBits [entryIndex (tableEntry k.mem t i)] false } := by
          have hpage₂ : pageAt k (entryIndex (tableEntry k.mem t i)) =
              pageAt k₂ (entryIndex (tableEntry k.mem t i)) := by
            rw [pageAt, pageAt, hsub.offset, hoffset]
          rw [hpage, hpage₂]
          refine freePageHhdm_eq (hsub.direct T₁.direct) ?_
          rw [hsub.pageCount, h.freed.pageCount]
          exact hlt
        rw [if_neg hzero, if_neg (by simpa using hpresent), if_pos (.inl (by simpa using hhuge)), hdelete,
          Exec.ok_bind, freeNoted, hfree, Exec.ok_bind, if_neg hzero]
        refine ⟨_, rfl, ?_, h.step T hi hzero hsub⟩
        simp only [List.map_append, List.append_assoc, List.map_cons, List.map_nil, hpage]
    obtain ⟨⟨log', k'⟩, hloop, hlog, hdeleted⟩ :=
      Exec.foldlM_range_total (b := (log, k)) hstep ⟨by simp [framesBefore], .init⟩
    obtain rfl : log' = _ := hlog
    exact ⟨k', hloop, hdeleted.freed⟩

/-- `vmm_delete_pagemap` that notes the pages it passes to `pmm_free_page`. -/
def vmmDeletedPages (k : Kernel Pmm) (pagemapHhdm : Nat) : Exec (List Nat × Kernel Pmm) := do
  let s ← deletedPages 4 ([], k) pagemapHhdm
  freeNoted s pagemapHhdm

theorem map_vmmDeletedPages {pagemap : Nat} :
    Prod.snd <$> vmmDeletedPages k pagemap = vmmDeletePagemap k pagemap := by
  rw [vmmDeletedPages, vmmDeletePagemap, ← map_deletedPages (s := ([], k))]
  cases deletedPages 4 ([], k) pagemap with
  | error e => rfl
  | ok s => exact map_freeNoted

/-- `vmm_delete_pagemap` gives back the tree of the lower half and the root, each page once. -/
theorem vmmDeletedPages_spec {f : Nat} (T : TreeIn k 4 (pageAt k f)) (hf : f < k.pmm.pageCount) :
    ∃ k', vmmDeletedPages k (pageAt k f) =
        .ok ((framesBelow k 4 (pageAt k f) ++ [f]).map (pageAt k), k') ∧
      Freed k k' (SubTable k 4 (pageAt k f)) (framesBelow k 4 (pageAt k f) ++ [f]) := by
  obtain ⟨k₁, hdelete, hfreed⟩ := deletedPages_spec T []
  have hpage : pageAt k f = pageAt k₁ f := by rw [pageAt, pageAt, hfreed.offset]
  have hfree := freePageHhdm_eq (hfreed.direct T.direct) (f := f) (hfreed.pageCount ▸ hf)
  rw [← hpage] at hfree
  refine ⟨{ k₁ with pmm := k₁.pmm.setBits [f] false }, ?_, ?_, hfreed.mem⟩
  · rw [vmmDeletedPages, hdelete, Exec.ok_bind, freeNoted, hfree, Exec.ok_bind, Exec.pure_eq_ok,
      List.map_append, List.map_singleton, List.nil_append]
  · rw [Pmm.setBits_append, hfreed.globals]

theorem vmmDeletePagemap_spec {f : Nat} (T : TreeIn k 4 (pageAt k f)) (hf : f < k.pmm.pageCount) :
    ∃ k', vmmDeletePagemap k (pageAt k f) = .ok k' ∧
      Freed k k' (SubTable k 4 (pageAt k f)) (framesBelow k 4 (pageAt k f) ++ [f]) := by
  obtain ⟨k', hdelete, hfreed⟩ := vmmDeletedPages_spec T hf
  exact ⟨k', by rw [← map_vmmDeletedPages, hdelete]; rfl, hfreed⟩

end Delete

/-! ## Trees without shared pages -/

/-- The entries of `level` levels from `t` are present, not of large pages, and refer to pages. -/
def Plain (k : Kernel Pmm) : (level t : Nat) → Prop
  | 0, _ => True
  | level + 1, t => ∀ i < levelEntries (level + 1), tableEntry k.mem t i ≠ 0 →
    entryPresent (tableEntry k.mem t i) = true ∧ entryHugePage (tableEntry k.mem t i) = false ∧
      entryIndex (tableEntry k.mem t i) < k.pmm.pageCount ∧ Plain k level (getNextPageTable k t i)

section Plain
variable {k k' : Kernel Pmm} {level t t' i f : Nat}

instance Plain.decidable : (level t : Nat) → Decidable (Plain k level t)
  | 0, _ => isTrue trivial
  | level + 1, t =>
    haveI := fun i => Plain.decidable level (getNextPageTable k t i)
    inferInstanceAs (Decidable (∀ i < levelEntries (level + 1), tableEntry k.mem t i ≠ 0 →
      entryPresent (tableEntry k.mem t i) = true ∧ entryHugePage (tableEntry k.mem t i) = false ∧
        entryIndex (tableEntry k.mem t i) < k.pmm.pageCount ∧ Plain k level (getNextPageTable k t i)))

/-- The pages at and below the entry `i`. -/
abbrev entryFrames (k : Kernel Pmm) (level t i : Nat) : List Nat :=
  if tableEntry k.mem t i = 0 then []
  else framesBelow k level (getNextPageTable k t i) ++ [entryIndex (tableEntry k.mem t i)]

theorem mem_framesBelow (hi : i < levelEntries (level + 1)) (hf : f ∈ entryFrames k level t i) :
    f ∈ framesBelow k (level + 1) t := List.mem_flatMap.mpr ⟨i, List.mem_range.mpr hi, hf⟩

theorem pageAt_inj (h : pageAt k i = pageAt k f) : i = f := by
  simp only [pageAt, regularPageSize] at h
  omega

theorem Plain.frame_lt (P : Plain k level t) (hf : f ∈ framesBelow k level t) :
    f < k.pmm.pageCount := by
  induction level generalizing t with
  | zero => cases hf
  | succ level ih =>
    obtain ⟨i, hi, hf⟩ := List.mem_flatMap.mp hf
    split at hf
    · cases hf
    · rename_i hne
      obtain ⟨-, -, hlt, P'⟩ := P i (List.mem_range.mp hi) hne
      rcases List.mem_append.mp hf with hf | hf
      · exact ih P' hf
      · exact List.mem_singleton.mp hf ▸ hlt

theorem Plain.next_eq (D : DirectMap k) (P : Plain k (level + 1) t) (hi : i < levelEntries (level + 1))
    (hne : tableEntry k.mem t i ≠ 0) :
    getNextPageTable k t i = pageAt k (entryIndex (tableEntry k.mem t i)) :=
  D.u64_pageAt (P i hi hne).2.2.1

/-- A table of the tree is its root or a page that an entry refers to. -/
theorem Plain.subTable (D : DirectMap k) (P : Plain k level t) (h : SubTable k level t t') :
    t' = t ∨ ∃ f ∈ framesBelow k level t, t' = pageAt k f := by
  induction level generalizing t with
  | zero => cases h
  | succ level ih =>
    rcases h with rfl | ⟨i, hi, hne, h⟩
    · exact .inl rfl
    · have hnext := P.next_eq D hi hne
      rcases ih (P i hi hne).2.2.2 h with rfl | ⟨f, hf, rfl⟩
      · refine .inr ⟨_, mem_framesBelow hi ?_, hnext⟩
        rw [entryFrames, if_neg hne]
        exact List.mem_append_right _ (.head _)
      · refine .inr ⟨f, mem_framesBelow hi ?_, rfl⟩
        rw [entryFrames, if_neg hne]
        exact List.mem_append_left _ hf

/-- Where no page is shared, no table is. -/
theorem Plain.treeIn (D : DirectMap k) (P : Plain k level (pageAt k f)) (hf : f < k.pmm.pageCount)
    (hnodup : (f :: framesBelow k level (pageAt k f)).Nodup) : TreeIn k level (pageAt k f) := by
  have hpage : ∀ t', SubTable k level (pageAt k f) t' → FramePage k t' := fun t' ht' => by
    rcases P.subTable D ht' with rfl | ⟨g, hg, rfl⟩
    · exact ⟨f, hf, rfl⟩
    · exact ⟨g, P.frame_lt hg, rfl⟩
  refine ⟨D, ?_, hpage, fun g => P.frame_lt⟩
  induction level generalizing f with
  | zero => trivial
  | succ level ih =>
    obtain ⟨hroot, hnodup⟩ := List.nodup_cons.mp hnodup
    obtain ⟨hlocal, hpairs⟩ := List.nodup_flatMap.mp hnodup
    have hdisjoint : ∀ i j, i < j → j < levelEntries (level + 1) →
        (entryFrames k level (pageAt k f) i).Disjoint (entryFrames k level (pageAt k f) j) := by
      intro i j hij hj
      have hpair := List.pairwise_iff_getElem.mp hpairs i j (by rw [List.length_range]; omega)
        (by rwa [List.length_range]) hij
      simpa only [Function.onFun, List.getElem_range] using hpair
    have htable : ∀ i < levelEntries (level + 1), tableEntry k.mem (pageAt k f) i ≠ 0 → ∀ t',
        SubTable k level (getNextPageTable k (pageAt k f) i) t' →
          ∃ g ∈ entryFrames k level (pageAt k f) i, t' = pageAt k g := by
      intro i hi hne t' ht'
      rw [entryFrames, if_neg hne]
      rcases (P i hi hne).2.2.2.subTable D ht' with rfl | ⟨g, hg, rfl⟩
      · exact ⟨_, List.mem_append_right _ (.head _), P.next_eq D hi hne⟩
      · exact ⟨g, List.mem_append_left _ hg, rfl⟩
    refine ⟨fun i hi hne => ?_, fun i hi j hj hij hne hne' t' ht' ht'' => ?_⟩
    · obtain ⟨hpresent, hhuge, hlt, P'⟩ := P i hi hne
      refine ⟨hpresent, hhuge, ?_, fun ht => ?_⟩
      · have hbelow := hlocal i (List.mem_range.mpr hi)
        rw [if_neg hne] at hbelow
        rw [P.next_eq D hi hne] at P' hbelow ⊢
        refine ih P' hlt ((List.nodup_cons.mpr ?_)) fun t' ht' => ?_
        · exact ⟨fun hmem => List.disjoint_of_nodup_append hbelow hmem (.head _),
            (List.nodup_append.mp hbelow).1⟩
        · exact hpage t' (.inr ⟨i, hi, hne, by rwa [P.next_eq D hi hne]⟩)
      · obtain ⟨g, hg, heq⟩ := htable i hi hne _ ht
        obtain rfl : g = f := (pageAt_inj heq).symm
        exact hroot (mem_framesBelow hi hg)
    · obtain ⟨g, hg, rfl⟩ := htable i hi hne t' ht'
      obtain ⟨g', hg', heq⟩ := htable j hj hne' _ ht''
      obtain rfl : g' = g := (pageAt_inj heq).symm
      rcases Nat.lt_or_gt_of_ne hij with hlt | hlt
      · exact hdisjoint i j hlt hj hg hg'
      · exact hdisjoint j i hlt hi hg' hg

end Plain

end TrazelOs
