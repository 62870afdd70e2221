import TrazelOs.Verify.VmmMap
import Mathlib.Data.Finmap
import Mathlib.Data.Finset.Card

/-! # Histories of one pagemap

An address space is a finite map from virtual page numbers to mappings. A history starts with
`vmm_create_new_pagemap` and maps and unmaps pages of the lower half in any order;
`vmmHistory_spec` says that the walk of the processor finds at every moment what the finite map
says, and what each further call returns and changes. -/

namespace TrazelOs
open Theory

/-! ## Calls return while pages are free -/

/-- The free pages. -/
def Pmm.freePages (p : Pmm) : Finset Nat := (Finset.range p.pageCount).filter (p.used · = false)

theorem Pmm.mem_freePages {p : Pmm} {i : Nat} :
    i ∈ p.freePages ↔ i < p.pageCount ∧ p.used i = false := by
  simp [freePages]

theorem Pmm.freePages_setBits_true {p : Pmm} {i : Nat} :
    (p.setBits [i] true).freePages = p.freePages.erase i := by
  ext j
  rw [Finset.mem_erase, mem_freePages, mem_freePages, setBits_pageCount, used_setBits]
  by_cases hij : j = i
  · subst hij
    by_cases hj : j < p.pageCount <;> simp [hj]
  · simp [hij]

theorem pmmAllocPage_total {p : Pmm} (hp : p.pageCount ≤ 2 ^ 52) (hzero : p.used 0 = true)
    (hfree : p.freePages.Nonempty) :
    ∃ i ∈ p.freePages, i ≠ 0 ∧ pmmAllocPage p = .ok (i * regularPageSize, p.setBits [i] true) := by
  rcases pmmAllocPage_spec hp with ⟨-, hnone⟩ | ⟨i, hrun, -, hsome⟩
  · obtain ⟨i, hi⟩ := hfree
    obtain ⟨hlt, hunused⟩ := Pmm.mem_freePages.mp hi
    refine absurd ⟨hlt, fun j hij hj => ?_⟩ (hnone i)
    obtain rfl : j = i := by omega
    exact hunused
  · have hunused := hrun.2 i (Nat.le_refl _) (Nat.lt_succ_self _)
    refine ⟨i, Pmm.mem_freePages.mpr ⟨hrun.1, hunused⟩, ?_, hsome⟩
    rintro rfl
    exact absurd hunused (by simp [hzero])

/-- `n` pages are free, and page 0 is not one of them: its address would be taken for null. -/
structure PagesLeft (k : Kernel Pmm) (n : Nat) : Prop where
  direct : DirectMap k
  null : k.pmm.used 0 = true
  free : n ≤ k.pmm.freePages.card

namespace PagesLeft

variable {k : Kernel Pmm} {n : Nat}

/-- An allocation uses up one page. -/
theorem alloc (h : PagesLeft k (n + 1)) : ∃ i < k.pmm.pageCount, i ≠ 0 ∧
    pmmAllocPage k.pmm = .ok (i * regularPageSize, k.pmm.setBits [i] true) ∧
      ∀ m, PagesLeft { k with mem := m, pmm := k.pmm.setBits [i] true } n := by
  have hcount := h.direct.count
  obtain ⟨i, hi, hne, halloc⟩ := pmmAllocPage_total (by omega) h.null
    (Finset.card_pos.mp (Nat.lt_of_lt_of_le n.succ_pos h.free))
  refine ⟨i, (Pmm.mem_freePages.mp hi).1, hne, halloc, fun m => ⟨⟨?_, ?_, ?_⟩, ?_, ?_⟩⟩
  · exact h.direct.offset
  · simpa using h.direct.word
  · simpa using hcount
  · exact (Pmm.used_setBits_of_notMem (by simpa using hne.symm)).trans h.null
  · have := h.free
    rw [Pmm.freePages_setBits_true, Finset.card_erase_of_mem hi]
    omega

theorem of_eq {k' : Kernel Pmm} (h : PagesLeft k n) (hpmm : k'.pmm = k.pmm)
    (hoffset : k'.gHhdmOffset = k.gHhdmOffset) : PagesLeft k' n :=
  ⟨h.direct.of_eq hpmm hoffset, by rw [hpmm, h.null], by rw [hpmm]; exact h.free⟩

section Map
variable (root t vaddr paddr flags : Nat)

theorem mapPageTable_total (level : Nat) (h : PagesLeft k (n + 1)) :
    ∃ t' k', mapPageTable vaddr flags (t, k) level = .ok (t', k') ∧ PagesLeft k' n := by
  by_cases hzero : tableEntry k.mem t (virtualAddrIndex vaddr level) = 0
  · obtain ⟨i, hi, hne, halloc, hleft⟩ := h.alloc
    have hassert : i * regularPageSize ≠ 0 := Nat.mul_ne_zero hne (by decide)
    simp only [mapPageTable, if_pos hzero, allocatePageTablePage, halloc, Exec.ok_bind,
      kernelAssert_ok hassert, Exec.pure_eq_ok]
    refine ⟨_, _, rfl, ?_⟩
    split <;> exact (hleft k.mem).of_eq rfl rfl
  · simp only [mapPageTable, if_neg hzero, Exec.pure_eq_ok, Exec.ok_bind]
    have hn : PagesLeft k n := ⟨h.direct, h.null, Nat.le_of_succ_le h.free⟩
    refine ⟨_, _, rfl, ?_⟩
    split <;> exact hn.of_eq rfl rfl

theorem mapPageTables_total (levels : List Nat) (h : PagesLeft k (n + levels.length)) :
    ∃ t' k', levels.foldlM (mapPageTable vaddr flags) (t, k) = .ok (t', k') ∧ PagesLeft k' n := by
  induction levels generalizing k t with
  | nil => exact ⟨t, k, rfl, h⟩
  | cons level levels ih =>
    obtain ⟨t₁, k₁, h₁, hleft⟩ := mapPageTable_total t vaddr flags level (n := n + levels.length) h
    rw [List.foldlM_cons, h₁]
    exact ih t₁ hleft

/-- Three free pages are enough for one call. -/
theorem vmmMapPage_total (h : PagesLeft k (n + 3)) :
    ∃ r k', vmmMapPage k root vaddr paddr flags = .ok (r, k') ∧ PagesLeft k' n := by
  obtain ⟨t', k', htables, hleft⟩ := mapPageTables_total root vaddr flags [4, 3, 2] h
  simp only [vmmMapPage, htables, Exec.ok_bind]
  split
  · exact ⟨_, _, rfl, hleft⟩
  · exact ⟨_, _, rfl, hleft.of_eq rfl rfl⟩

theorem vmmCreateNewPagemap_total (h : PagesLeft k (n + 1)) :
    ∃ root k', vmmCreateNewPagemap k = .ok (root, k') ∧ PagesLeft k' n := by
  obtain ⟨i, hi, hne, halloc, hleft⟩ := h.alloc
  have hpage : i * regularPageSize ≠ 0 := Nat.mul_ne_zero hne (by decide)
  have hassert : pageAt k i ≠ 0 := by
    simp only [pageAt]
    omega
  simp only [vmmCreateNewPagemap, pmmAllocPageHhdm, halloc, Exec.ok_bind, Exec.pure_eq_ok,
    if_pos hpage, Pmm.setBits_gHhdmOffset, h.direct.offset, h.direct.u64_pageAt hi,
    kernelAssert_ok hassert]
  exact ⟨_, _, rfl, (hleft k.mem).of_eq rfl rfl⟩

end Map

end PagesLeft

/-! ## Address spaces -/

/-- A finite map from virtual page numbers. -/
abbrev AddressSpace := Finmap fun _ : Nat => Mapping

/-- Map `page`, unless it is mapped and may not be overridden. -/
def AddressSpace.map (M : AddressSpace) (page : Nat) (m : Mapping) (override : Bool) :
    Int × AddressSpace :=
  if override = false ∧ page ∈ M then (-1, M) else (0, M.insert page m)

def AddressSpace.unmap (M : AddressSpace) (page : Nat) : Int × AddressSpace :=
  if page ∈ M then (0, M.erase page) else (-1, M)

/-- The mapping that `vmm_map_page` is asked for. -/
def requestedMapping (paddr flags : Nat) : Mapping :=
  ⟨paddr / regularPageSize, flagWritablePage flags, flagUserAccessible flags⟩

/-- The walks from the pagemap `root` find what the address space has. -/
structure Refines (k : Kernel Pmm) (root : Nat) (M : AddressSpace) : Prop where
  inv : PagemapInv k root
  walk : ∀ v < 2 ^ 47, translate k root v = M.lookup (v / regularPageSize)

theorem tablePath_eq_iff {v v' : Nat} (hv : v < 2 ^ 47) (hv' : v' < 2 ^ 47) :
    (tablePath v' = tablePath v ∧ virtualAddrIndex v' 1 = virtualAddrIndex v 1) ↔
      v' / regularPageSize = v / regularPageSize := by
  simp only [tablePath, List.cons.injEq, virtualAddrIndex, regularPageSize, and_true]
  omega

theorem entryMapping_eq_none {raw : Nat} : entryMapping raw = none ↔ raw = 0 := by
  rw [entryMapping]
  split <;> simp_all

theorem entryMapping_makeEntry {w u : Bool} {index : Nat} (h : index < 2 ^ 40) :
    entryMapping (makeEntry w u index) = some ⟨index, w, u⟩ := by
  rw [entryMapping, if_neg makeEntry_ne_zero, entryIndex_makeEntry h, entryWritable_makeEntry,
    entryUserAccess_makeEntry]

/-- One last-level entry changed, so one page did. -/
theorem PagemapInv.translate_update {k k' : Kernel Pmm} {root vaddr raw : Nat} (I : PagemapInv k root)
    (hv : vaddr < 2 ^ 47) (I' : PagemapInv k' root)
    (hleaves : ∀ q j, LowerPath q → q.length = 3 → j < 512 → leafEntry k' root q j =
      if q = tablePath vaddr ∧ j = virtualAddrIndex vaddr 1 then raw else leafEntry k root q j)
    {v : Nat} (hv' : v < 2 ^ 47) : translate k' root v =
      if v / regularPageSize = vaddr / regularPageSize then entryMapping raw
      else translate k root v := by
  rw [I'.translate_eq hv', hleaves _ _ (lowerPath_tablePath hv') rfl virtualAddrIndex_lt,
    I.translate_eq hv']
  by_cases hpage : v / regularPageSize = vaddr / regularPageSize
  · rw [if_pos hpage, if_pos ((tablePath_eq_iff hv hv').mpr hpage)]
  · rw [if_neg hpage, if_neg (mt (tablePath_eq_iff hv hv').mp hpage)]

namespace Refines

variable {k k' : Kernel Pmm} {root vaddr paddr flags : Nat} {M : AddressSpace} {r : Int}

theorem mem_iff (h : Refines k root M) (hv : vaddr < 2 ^ 47) : vaddr / regularPageSize ∈ M ↔
    leafEntry k root (tablePath vaddr) (virtualAddrIndex vaddr 1) ≠ 0 := by
  rw [← Finmap.lookup_isSome, ← h.walk vaddr hv, h.inv.translate_eq hv, ne_eq,
    ← entryMapping_eq_none, Option.isSome_iff_ne_none]

theorem walk_update {raw : Nat} (h : Refines k root M) (hv : vaddr < 2 ^ 47)
    (I' : PagemapInv k' root)
    (hleaves : ∀ q j, LowerPath q → q.length = 3 → j < 512 → leafEntry k' root q j =
      if q = tablePath vaddr ∧ j = virtualAddrIndex vaddr 1 then raw else leafEntry k root q j)
    {v : Nat} (hv' : v < 2 ^ 47) : translate k' root v =
      if v / regularPageSize = vaddr / regularPageSize then entryMapping raw
      else M.lookup (v / regularPageSize) := by
  rw [h.inv.translate_update hv I' hleaves hv', h.walk v hv']

/-- A call of `vmm_map_page` does what the finite map does. -/
theorem map (h : Refines k root M) (hv : vaddr < 2 ^ 47) (hp : paddr < 2 ^ 52)
    (hmap : vmmMapPage k root vaddr paddr flags = .ok (r, k')) :
    r = (M.map (vaddr / regularPageSize) (requestedMapping paddr flags)
        (flagOverridePage flags)).1 ∧
      Refines k' root (M.map (vaddr / regularPageSize) (requestedMapping paddr flags)
        (flagOverridePage flags)).2 ∧ (r = -1 → k' = k) := by
  have hmem := h.mem_iff hv
  rw [AddressSpace.map]
  rcases h.inv.vmmMapPage_ok hv hmap with ⟨I', ⟨hfail, rfl, rfl⟩ | ⟨hfail, rfl, hleaves⟩⟩
  · rw [if_pos ⟨hfail.1, hmem.mpr hfail.2⟩]
    exact ⟨rfl, h, fun _ => rfl⟩
  · rw [if_neg fun hmapped => hfail ⟨hmapped.1, hmem.mp hmapped.2⟩]
    refine ⟨rfl, ⟨I', fun v hv' => ?_⟩, fun h => absurd h (by decide)⟩
    rw [h.walk_update hv I' hleaves hv', entryMapping_makeEntry (by omega)]
    split
    · rename_i hpage
      rw [hpage, Finmap.lookup_insert]
      rfl
    · rename_i hpage
      rw [Finmap.lookup_insert_of_ne _ hpage]

/-- A call of `vmm_unmap_page` does what the finite map does. -/
theorem unmap (h : Refines k root M) (hv : vaddr < 2 ^ 47) :
    (vmmUnmapPage k root vaddr).1 = (M.unmap (vaddr / regularPageSize)).1 ∧
      Refines (vmmUnmapPage k root vaddr).2 root (M.unmap (vaddr / regularPageSize)).2 ∧
      ((vmmUnmapPage k root vaddr).1 = -1 → (vmmUnmapPage k root vaddr).2 = k) := by
  have hmem := h.mem_iff hv
  rw [AddressSpace.unmap]
  rcases h.inv.vmmUnmapPage_spec hv with ⟨I', ⟨hzero, hfail⟩ | ⟨hzero, hret, hleaves⟩⟩
  · rw [if_neg fun hmapped => hmem.mp hmapped hzero, hfail]
    exact ⟨rfl, h, fun _ => rfl⟩
  · rw [if_pos (hmem.mpr hzero)]
    refine ⟨hret, ⟨I', fun v hv' => ?_⟩, fun h => absurd (hret.symm.trans h) (by decide)⟩
    rw [h.walk_update hv I' hleaves hv', entryMapping_eq_none.mpr rfl]
    split
    · rename_i hpage
      rw [hpage, Finmap.lookup_erase]
    · rename_i hpage
      rw [Finmap.lookup_erase_ne hpage]

theorem create {k₀ : Kernel Pmm} (hk : DirectMap k₀)
    (h : vmmCreateNewPagemap k₀ = .ok (root, k)) : Refines k root ∅ := by
  obtain ⟨I, hleaves⟩ := PagemapInv.create hk h
  refine ⟨I, fun v hv => ?_⟩
  rw [I.translate_eq hv, hleaves _ _ (lowerPath_tablePath hv) rfl, Finmap.lookup_empty]
  rfl

end Refines

/-! ## Histories -/

/-- The kernel `k` is reached from `k₀` by making the pagemap `root` and then mapping and unmapping
pages of its lower half; `M` is what the same calls make of the empty address space. -/
inductive VmmHistory (k₀ : Kernel Pmm) (root : Nat) : Kernel Pmm → AddressSpace → Prop
  | create : vmmCreateNewPagemap k₀ = .ok (root, k) → VmmHistory k₀ root k ∅
  | map : VmmHistory k₀ root k M → vaddr < 2 ^ 47 → regularPageSize ∣ paddr → paddr < 2 ^ 52 →
    vmmMapPage k root vaddr paddr flags = .ok (r, k') →
    VmmHistory k₀ root k' (M.map (vaddr / regularPageSize) (requestedMapping paddr flags)
      (flagOverridePage flags)).2
  | unmap : VmmHistory k₀ root k M → vaddr < 2 ^ 47 →
    VmmHistory k₀ root (vmmUnmapPage k root vaddr).2 (M.unmap (vaddr / regularPageSize)).2

theorem VmmHistory.refines {k₀ k : Kernel Pmm} {root : Nat} {M : AddressSpace} (hk : DirectMap k₀)
    (h : VmmHistory k₀ root k M) : Refines k root M := by
  induction h with
  | create h => exact Refines.create hk h
  | map _ hv _ hp hmap ih => exact (ih.map hv hp hmap).2.1
  | unmap _ hv ih => exact (ih.unmap hv).2.1

/-- What a call that returned `r` and left `k'` did to the walks from `root`: it failed and changed
nothing, or it replaced the mapping of the page of `vaddr` by `m` and no other. -/
def ChangesPage (k : Kernel Pmm) (root vaddr : Nat) (m : Option Mapping) (r : Int)
    (k' : Kernel Pmm) : Prop :=
  r = -1 ∧ k' = k ∨ r = 0 ∧ ∀ v < 2 ^ 47, translate k' root v =
    if v / regularPageSize = vaddr / regularPageSize then m else translate k root v

theorem Refines.mapped_iff {k : Kernel Pmm} {root vaddr : Nat} {M : AddressSpace}
    (h : Refines k root M) (hv : vaddr < 2 ^ 47) :
    translate k root vaddr ≠ none ↔ vaddr / regularPageSize ∈ M := by
  rw [h.walk vaddr hv, ← Finmap.lookup_isSome, Option.isSome_iff_ne_none]

theorem vmmHistory_spec {k₀ k : Kernel Pmm} {root : Nat} {M : AddressSpace} (hk : DirectMap k₀)
    (h : VmmHistory k₀ root k M) :
    (∀ v < 2 ^ 47, translate k root v = M.lookup (v / regularPageSize)) ∧
    (∀ vaddr paddr flags r k', vaddr < 2 ^ 47 → regularPageSize ∣ paddr → paddr < 2 ^ 52 →
      vmmMapPage k root vaddr paddr flags = .ok (r, k') →
        (r = -1 ↔ flagOverridePage flags = false ∧ translate k root vaddr ≠ none) ∧
        ChangesPage k root vaddr (some (requestedMapping paddr flags)) r k') ∧
    (∀ vaddr < 2 ^ 47,
      ((vmmUnmapPage k root vaddr).1 = -1 ↔ translate k root vaddr = none) ∧
      ChangesPage k root vaddr none (vmmUnmapPage k root vaddr).1 (vmmUnmapPage k root vaddr).2) ∧
    (PagesLeft k 3 → ∀ vaddr paddr flags, ∃ r k',
      vmmMapPage k root vaddr paddr flags = .ok (r, k')) := by
  have href := h.refines hk
  refine ⟨href.walk, fun vaddr paddr flags r k' hv _ hp hmap => ?_, fun vaddr hv => ?_,
    fun hleft vaddr paddr flags => ?_⟩
  · obtain ⟨hr, href', hfail⟩ := href.map hv hp hmap
    rw [href.mapped_iff hv]
    by_cases hmapped : flagOverridePage flags = false ∧ vaddr / regularPageSize ∈ M
    · rw [AddressSpace.map, if_pos hmapped] at hr
      exact ⟨iff_of_true hr hmapped, .inl ⟨hr, hfail hr⟩⟩
    · rw [AddressSpace.map, if_neg hmapped] at hr href'
      refine ⟨iff_of_false (hr.trans_ne (show (0 : Int) ≠ -1 by decide)) hmapped, .inr ⟨hr, fun v hv' => ?_⟩⟩
      rw [href'.walk v hv', href.walk v hv']
      split
      · rename_i hpage
        rw [hpage, Finmap.lookup_insert]
      · rename_i hpage
        rw [Finmap.lookup_insert_of_ne _ hpage]
  · obtain ⟨hr, href', hfail⟩ := href.unmap hv
    have hmem := href.mapped_iff hv
    by_cases hmapped : vaddr / regularPageSize ∈ M
    · rw [AddressSpace.unmap, if_pos hmapped] at hr href'
      refine ⟨iff_of_false (hr.trans_ne (show (0 : Int) ≠ -1 by decide)) (hmem.mpr hmapped), .inr ⟨hr, fun v hv' => ?_⟩⟩
      rw [href'.walk v hv', href.walk v hv']
      split
      · rename_i hpage
        rw [hpage, Finmap.lookup_erase]
      · rename_i hpage
        rw [Finmap.lookup_erase_ne hpage]
    · rw [AddressSpace.unmap, if_neg hmapped] at hr
      exact ⟨iff_of_true hr (not_not.mp (mt hmem.mp hmapped)), .inl ⟨hr, hfail hr⟩⟩
  · obtain ⟨r, k', hmap, -⟩ := PagesLeft.vmmMapPage_total (n := 0) root vaddr paddr flags hleft
    exact ⟨r, k', hmap⟩

/-- A kernel with eight pages, of which page 0 is used, before the heap is set up. -/
def eightPages : Kernel Pmm where
  mem := fun _ => 0
  cr3 := 0
  pmm := eightPagePmm
  gHhdmOffset := 0
  gSuperBlocks := 0
  gFreeBlocks := 0
  gFreeBlockTail := 0

theorem pagesLeft_eightPages : PagesLeft eightPages 7 :=
  ⟨⟨rfl, by decide, by decide⟩, by decide, by decide⟩

theorem vmmHistory_spec_eightPages : ∃ root k M, VmmHistory eightPages root k M ∧
    translate k root 0x400000 = some ⟨5, true, false⟩ ∧ PagesLeft k 3 := by
  obtain ⟨root, k, hcreate, hleft⟩ :=
    PagesLeft.vmmCreateNewPagemap_total (n := 6) pagesLeft_eightPages
  obtain ⟨r, k', hmap, hleft'⟩ :=
    PagesLeft.vmmMapPage_total (n := 3) root 0x400000 0x5000 mpfWritablePage hleft
  have hhistory := VmmHistory.map (.create hcreate) (by decide) (by decide) (by decide) hmap
  have hspec := vmmHistory_spec pagesLeft_eightPages.direct hhistory
  refine ⟨root, k', _, hhistory, ?_, hleft'⟩
  rw [hspec.1 _ (by decide)]
  exact Finmap.lookup_insert _

end TrazelOs
