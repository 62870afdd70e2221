import TrazelOs.Verify.Paging
import Mathlib.Logic.Relation

/-! # Mapping and unmapping pages

What a store to one entry does to the tree of tables (`PagemapInv.setLeaf`,
`PagemapInv.newTable_inv`), and from it the specifications of `vmm_map_page`, `vmm_unmap_page` and
`vmm_create_new_pagemap` in terms of the last-level entries. -/

namespace TrazelOs
open Theory

namespace PagemapInv

variable {k : Kernel Pmm} {root t i v f : Nat} {p q : List Nat}

/-- The kernel after a store to an entry. -/
abbrev storeEntry (k : Kernel Pmm) (t i v : Nat) : Kernel Pmm :=
  { k with mem := setTableEntry k.mem t i v }

theorem tableAt_concat (ht : tableAt k root p = some t) :
    tableAt k root (p ++ [i]) = childTable k t i := by
  rw [tableAt, follow_concat]
  change (tableAt k root p).bind _ = _
  rw [ht, Option.bind_some]

section Store
variable (I : PagemapInv k root) (hp : LowerPath p) (ht : tableAt k root p = some t) (hi : i < 512)
include I hp ht hi

theorem tableEntry_storeEntry {t' j : Nat} (hq : LowerPath q) (ht' : tableAt k root q = some t')
    (hj : j < 512) (hne : t' ≠ t ∨ j ≠ i) :
    tableEntry (storeEntry k t i v).mem t' j = tableEntry k.mem t' j :=
  tableEntry_set_of_ne ((I.used p t hp ht).eq_or_apart (I.used q t' hq ht')) hi hj hne

theorem childTable_storeEntry {t' j : Nat} (hq : LowerPath q) (ht' : tableAt k root q = some t')
    (hj : j < 512) (hne : t' ≠ t ∨ j ≠ i) : childTable (storeEntry k t i v) t' j = childTable k t' j := by
  have hsame := I.tableEntry_storeEntry hp ht hi (v := v) hq ht' hj hne
  simp only [childTable, getNextPageTable, hsame]
  rfl

/-- Only paths through the entry change. -/
theorem tableAt_storeEntry (hq : LowerPath q) (hnot : ¬p ++ [i] <+: q) :
    tableAt (storeEntry k t i v) root q = tableAt k root q := by
  have hlower : ∀ r j, r ++ [j] <+: q → LowerPath r := fun r j h =>
    hq.of_part ((List.prefix_append r [j]).trans h)
  refine follow_update I.unique hp ht hlower (fun r j c hr hc hne => ?_) hnot
  have hj : j < 512 := hq.index j (hr.subset (by simp))
  exact I.childTable_storeEntry hp ht hi (hlower r j hr) hc hj hne

end Store

/-- A store to a last-level entry. -/
theorem setLeaf (I : PagemapInv k root) (hp : LowerPath p) (hlen : p.length = 3)
    (ht : tableAt k root p = some t) (hi : i < 512) (hv : v < 2 ^ 64)
    (hpresent : v ≠ 0 → entryPresent v = true) :
    PagemapInv (storeEntry k t i v) root ∧ ∀ q j, LowerPath q → q.length = 3 → j < 512 →
      leafEntry (storeEntry k t i v) root q j =
        if q = p ∧ j = i then v else leafEntry k root q j := by
  -- No table is reached through a last-level entry.
  have htables : ∀ q, LowerPath q → tableAt (storeEntry k t i v) root q = tableAt k root q := by
    intro q hq
    refine I.tableAt_storeEntry hp ht hi hq fun hpre => ?_
    have hle := hpre.length_le
    have := hq.length
    rw [List.length_append, List.length_singleton] at hle
    omega
  have hentry : ∀ q t' j, LowerPath q → tableAt k root q = some t' → j < 512 →
      tableEntry (storeEntry k t i v).mem t' j =
        if q = p ∧ j = i then v else tableEntry k.mem t' j := by
    intro q t' j hq ht' hj
    by_cases hsame : q = p ∧ j = i
    · obtain ⟨rfl, rfl⟩ := hsame
      cases ht.symm.trans ht'
      rw [if_pos ⟨rfl, rfl⟩]
      exact tableEntry_set_self hv
    · rw [if_neg hsame]
      refine I.tableEntry_storeEntry hp ht hi hq ht' hj ?_
      by_contra hcon
      obtain ⟨rfl, rfl⟩ : t' = t ∧ j = i := by tauto
      exact hsame ⟨I.unique q p t' hq hp ht' ht, rfl⟩
  refine ⟨⟨I.direct.of_eq rfl rfl, fun q t' hq ht' => ?_, fun q r t' hq hr hqt hrt => ?_,
    fun q j t' hq ht' hne => ?_, fun q j t' hq hlen' hj ht' hne => ?_⟩, fun q j hq hlen' hj => ?_⟩
  · exact (I.used q t' hq ((htables q hq).symm.trans ht')).of_eq rfl rfl
  · exact I.unique q r t' hq hr ((htables q hq).symm.trans hqt) ((htables r hr).symm.trans hrt)
  · have hq' : LowerPath q := hq.of_part (List.prefix_append q [j])
    rw [htables q hq'] at ht'
    have hnot : ¬(q = p ∧ j = i) := by
      rintro ⟨rfl, rfl⟩
      have := hq.length
      rw [List.length_append, hlen, List.length_singleton] at this
      omega
    rw [hentry q t' j hq' ht' (hq.index j (by simp)), if_neg hnot] at hne ⊢
    exact I.inner q j t' hq ht' hne
  · rw [htables q hq] at ht'
    rw [hentry q t' j hq ht' hj] at hne ⊢
    split at hne
    · rw [if_pos ‹_›]
      exact hpresent hne
    · rw [if_neg ‹_›]
      exact I.leaf q j t' hq hlen' hj ht' hne
  · rw [leafEntry, leafEntry, htables q hq]
    cases ht' : tableAt k root q with
    | none =>
      have hnot : ¬(q = p ∧ j = i) := by
        rintro ⟨rfl, -⟩
        cases ht.symm.trans ht'
      rw [if_neg hnot]
    | some t' => exact hentry q t' j hq ht' hj

/-- The kernel after a page was taken and cleared. -/
abbrev freshPage (k : Kernel Pmm) (f : Nat) : Kernel Pmm :=
  { k with mem := k.mem.fill (pageAt k f) 0 regularPageSize, pmm := k.pmm.setBits [f] true }

/-- A page that was free is no table. -/
theorem apart_of_free (I : PagemapInv k root) (hq : LowerPath q) (ht : tableAt k root q = some t)
    (hfree : k.pmm.used f = false) : t ≠ pageAt k f ∧ PagesApart (pageAt k f) t := by
  obtain ⟨f', -, hused, rfl⟩ := I.used q t hq ht
  have hne : f ≠ f' := by
    rintro rfl
    exact absurd hfree (by simp [hused])
  refine ⟨fun h => ?_, pagesApart_of_ne hne⟩
  simp only [pageAt, regularPageSize] at h
  omega

theorem freshPage_spec (I : PagemapInv k root) (hfree : k.pmm.used f = false) :
    PagemapInv (freshPage k f) root ∧
      (∀ q, LowerPath q → tableAt (freshPage k f) root q = tableAt k root q) ∧
      ∀ q t j, LowerPath q → tableAt k root q = some t → j < 512 →
        tableEntry (freshPage k f).mem t j = tableEntry k.mem t j := by
  have hentry : ∀ q t j, LowerPath q → tableAt k root q = some t → j < 512 →
      tableEntry (freshPage k f).mem t j = tableEntry k.mem t j := fun q t j hq ht hj =>
    tableEntry_fill_of_apart (I.apart_of_free hq ht hfree).2 hj
  have htables : ∀ q, LowerPath q → tableAt (freshPage k f) root q = tableAt k root q := by
    intro q hq
    refine follow_congr fun r j b hr hb => ?_
    have hr' : LowerPath r := hq.of_part ((List.prefix_append r [j]).trans hr)
    have hsame := hentry r b j hr' hb (hq.index j (hr.subset (by simp)))
    simp only [childTable, getNextPageTable, hsame]
    rfl
  refine ⟨⟨⟨?_, ?_, ?_⟩, fun q t hq ht => ?_, fun q r t hq hr hqt hrt => ?_,
    fun q j t hq ht hne => ?_, fun q j t hq hlen hj ht hne => ?_⟩, htables, hentry⟩
  · exact (k.pmm.setBits_gHhdmOffset ..).trans I.direct.offset
  · simpa using I.direct.word
  · simpa using I.direct.count
  · obtain ⟨f', hf', hused, rfl⟩ := I.used q t hq ((htables q hq).symm.trans ht)
    refine ⟨f', by simpa using hf', ?_, rfl⟩
    by_cases hmem : f' ∈ [f]
    · exact Pmm.used_setBits_of_mem hmem hf'
    · exact (Pmm.used_setBits_of_notMem hmem).trans hused
  · exact I.unique q r t hq hr ((htables q hq).symm.trans hqt) ((htables r hr).symm.trans hrt)
  · have hq' : LowerPath q := hq.of_part (List.prefix_append q [j])
    rw [htables q hq'] at ht
    rw [hentry q t j hq' ht (hq.index j (by simp))] at hne ⊢
    exact I.inner q j t hq ht hne
  · rw [htables q hq] at ht
    rw [hentry q t j hq ht hj] at hne ⊢
    exact I.leaf q j t hq hlen hj ht hne

/-- The kernel after the page `f` was made the table below `t` at entry `i`. -/
abbrev newTable (k : Kernel Pmm) (t i f : Nat) : Kernel Pmm :=
  storeEntry (freshPage k f) t i (makeEntry true true f)

section NewTable
variable (I : PagemapInv k root) (hp : LowerPath (p ++ [i])) (ht : tableAt k root p = some t)
  (hzero : tableEntry k.mem t i = 0) (hf : f < k.pmm.pageCount) (hfree : k.pmm.used f = false)
include I hp ht hfree

/-- The entry itself refers to the new table, which is empty; everything else is as before. -/
theorem tableEntry_newTable {t' j : Nat} (hq : LowerPath q) (ht' : tableAt k root q = some t')
    (hj : j < 512) : tableEntry (newTable k t i f).mem t' j =
      if t' = t ∧ j = i then makeEntry true true f else tableEntry k.mem t' j := by
  obtain ⟨I', htables, hentry⟩ := I.freshPage_spec hfree
  have hp' : LowerPath p := hp.of_part (List.prefix_append p [i])
  have hi : i < 512 := hp.index i (by simp)
  by_cases hsame : t' = t ∧ j = i
  · obtain ⟨rfl, rfl⟩ := hsame
    rw [if_pos ⟨rfl, rfl⟩]
    exact tableEntry_set_self makeEntry_lt
  · rw [if_neg hsame, ← hentry q t' j hq ht' hj]
    exact I'.tableEntry_storeEntry hp' ((htables p hp').trans ht) hi hq ((htables q hq).trans ht') hj
      (by tauto)

theorem tableEntry_newTable_self {j : Nat} (hj : j < 512) :
    tableEntry (newTable k t i f).mem (pageAt k f) j = 0 := by
  have hp' : LowerPath p := hp.of_part (List.prefix_append p [i])
  obtain ⟨hne, hapart⟩ := I.apart_of_free hp' ht hfree
  refine (tableEntry_set_of_ne (.inr hapart.symm) (hp.index i (by simp)) hj (.inl hne.symm)).trans ?_
  exact tableEntry_fill_self hj

theorem tableAt_newTable_of_not_prefix (hq : LowerPath q) (hnot : ¬p ++ [i] <+: q) :
    tableAt (newTable k t i f) root q = tableAt k root q := by
  obtain ⟨I', htables, -⟩ := I.freshPage_spec hfree
  have hp' : LowerPath p := hp.of_part (List.prefix_append p [i])
  rw [I'.tableAt_storeEntry hp' ((htables p hp').trans ht) (hp.index i (by simp)) hq hnot]
  exact htables q hq

include hf

theorem tableAt_newTable_self : tableAt (newTable k t i f) root (p ++ [i]) = some (pageAt k f) := by
  have hp' : LowerPath p := hp.of_part (List.prefix_append p [i])
  have hnot : ¬p ++ [i] <+: p := fun h => by
    have := h.length_le
    rw [List.length_append, List.length_singleton] at this
    omega
  have hentry : tableEntry (newTable k t i f).mem t i = makeEntry true true f :=
    tableEntry_set_self makeEntry_lt
  have ht' : tableAt (newTable k t i f) root p = some t :=
    (I.tableAt_newTable_of_not_prefix hp ht hfree hp' hnot).trans ht
  rw [tableAt_concat ht', childTable, getNextPageTable, hentry, if_neg makeEntry_ne_zero]
  exact congrArg some (I.direct.entryTable_makeEntry hf)

/-- The tables after the change. -/
theorem tableAt_newTable {t' : Nat} (hq : LowerPath q)
    (ht' : tableAt (newTable k t i f) root q = some t') :
    (¬p ++ [i] <+: q ∧ tableAt k root q = some t') ∨ (q = p ++ [i] ∧ t' = pageAt k f) := by
  by_cases hpre : p ++ [i] <+: q
  · obtain ⟨r, rfl⟩ := hpre
    rw [tableAt, follow_append] at ht'
    change (tableAt (newTable k t i f) root (p ++ [i])).bind _ = _ at ht'
    rw [I.tableAt_newTable_self hp ht hf hfree, Option.bind_some] at ht'
    cases r with
    | nil =>
      cases ht'
      exact .inr ⟨List.append_nil _, rfl⟩
    | cons j r =>
      have hempty := I.tableEntry_newTable_self hp ht hfree (hq.index j (by simp))
      rw [follow, childTable, if_pos hempty] at ht'
      cases ht'
  · exact .inl ⟨hpre, (I.tableAt_newTable_of_not_prefix hp ht hfree hq hpre).symm.trans ht'⟩

theorem newTable_inv : PagemapInv (newTable k t i f) root := by
  have hp' : LowerPath p := hp.of_part (List.prefix_append p [i])
  obtain ⟨I', -, -⟩ := I.freshPage_spec hfree
  have hclass {q t'} (hq : LowerPath q) (ht' : tableAt (newTable k t i f) root q = some t') :=
    I.tableAt_newTable hp ht hf hfree hq ht'
  refine ⟨I'.direct.of_eq rfl rfl, fun q t' hq ht' => ?_, fun q r t' hq hr hqt hrt => ?_,
    fun q j t' hq ht' hne => ?_, fun q j t' hq hlen hj ht' hne => ?_⟩
  · rcases hclass hq ht' with ⟨-, hold⟩ | ⟨rfl, rfl⟩
    · have htables := (I.freshPage_spec hfree).2.1
      exact (I'.used q t' hq ((htables q hq).trans hold)).of_eq rfl rfl
    · exact ⟨f, by simpa using hf, Pmm.used_setBits_of_mem (List.mem_singleton.mpr rfl) hf, rfl⟩
  · rcases hclass hq hqt with ⟨-, hold⟩ | ⟨rfl, rfl⟩ <;>
      rcases hclass hr hrt with ⟨-, hold'⟩ | ⟨rfl, h⟩
    · exact I.unique q r t' hq hr hold hold'
    · exact absurd h (I.apart_of_free hq hold hfree).1
    · exact absurd rfl (I.apart_of_free hr hold' hfree).1
    · rfl
  · have hq' : LowerPath q := hq.of_part (List.prefix_append q [j])
    have hj : j < 512 := hq.index j (by simp)
    rcases hclass hq' ht' with ⟨-, hold⟩ | ⟨rfl, rfl⟩
    · rw [I.tableEntry_newTable hp ht hfree hq' hold hj] at hne ⊢
      split at hne
      · rw [if_pos ‹_›]
        exact tableEntryOk_makeEntry
      · rw [if_neg ‹_›]
        exact I.inner q j t' hq hold hne
    · exact absurd (I.tableEntry_newTable_self hp ht hfree hj) hne
  · rcases hclass hq ht' with ⟨-, hold⟩ | ⟨rfl, rfl⟩
    · have hnot : ¬(t' = t ∧ j = i) := by
        rintro ⟨rfl, -⟩
        cases I.unique q p t' hq hp' hold ht
        have := hp.length
        rw [List.length_append, hlen, List.length_singleton] at this
        omega
      rw [I.tableEntry_newTable hp ht hfree hq hold hj, if_neg hnot] at hne ⊢
      exact I.leaf q j t' hq hlen hj hold hne
    · exact absurd (I.tableEntry_newTable_self hp ht hfree hj) hne

include hzero

/-- A new table has no entry, and no last-level entry changes. -/
theorem leafEntry_newTable {j : Nat} (hq : LowerPath q) (hlen : q.length = 3) (hj : j < 512) :
    leafEntry (newTable k t i f) root q j = leafEntry k root q j := by
  have hp' : LowerPath p := hp.of_part (List.prefix_append p [i])
  by_cases hpre : p ++ [i] <+: q
  · have hnone : tableAt k root q = none := by
      refine follow_eq_none_of_part hpre ?_
      exact (tableAt_concat ht).trans (by rw [childTable, if_pos hzero])
    rw [leafEntry, leafEntry, hnone]
    cases ht' : tableAt (newTable k t i f) root q with
    | none => rfl
    | some t' =>
      rcases I.tableAt_newTable hp ht hf hfree hq ht' with ⟨hnot, -⟩ | ⟨-, rfl⟩
      · exact absurd hpre hnot
      · exact I.tableEntry_newTable_self hp ht hfree hj
  · rw [leafEntry, leafEntry, I.tableAt_newTable_of_not_prefix hp ht hfree hq hpre]
    cases ht' : tableAt k root q with
    | none => rfl
    | some t' =>
      refine (I.tableEntry_newTable hp ht hfree hq ht' hj).trans (if_neg ?_)
      rintro ⟨rfl, -⟩
      cases I.unique q p t' hq hp' ht' ht
      have := hp.length
      rw [List.length_append, hlen, List.length_singleton] at this
      omega

end NewTable

end PagemapInv

/-! ## Pages that are taken -/

theorem PagemapInv.take {k : Kernel Pmm} {root : Nat} {ks : List Nat} (I : PagemapInv k root) :
    PagemapInv { k with pmm := k.pmm.setBits ks true } root where
  direct := ⟨I.direct.offset, by simpa using I.direct.word, by simpa using I.direct.count⟩
  used := fun p t hp ht => by
    obtain ⟨f, hf, hused, rfl⟩ := I.used p t hp ht
    refine ⟨f, by simpa using hf, ?_, rfl⟩
    change (k.pmm.setBits ks true).used f = true
    rw [Pmm.used_setBits]
    split
    · rfl
    · exact hused
  unique := I.unique
  inner := I.inner
  leaf := I.leaf

/-! ## `vmm_map_page` -/

theorem allocatePageTablePage_ok {k k' : Kernel Pmm} {entry : Nat} (hk : DirectMap k)
    (h : allocatePageTablePage k = .ok (entry, k')) :
    ∃ f < k.pmm.pageCount, k.pmm.used f = false ∧ entry = makeEntry true true f ∧
      k' = PagemapInv.freshPage k f := by
  have hcount := hk.count
  obtain ⟨⟨physAddr, pmm⟩, halloc, h⟩ := Exec.bind_eq_ok.mp h
  obtain ⟨_, hassert, h⟩ := Exec.bind_eq_ok.mp h
  obtain ⟨f, hf, hfree, -, rfl, rfl⟩ :=
    pmmAllocPage_ok (by omega) halloc (kernelAssert_eq_ok.mp hassert)
  have hindex : f * regularPageSize / 2 ^ 12 = f := Nat.mul_div_cancel f (by decide)
  have hresult := Except.ok.inj h
  rw [hk.u64_pageAt hf, hindex] at hresult
  obtain ⟨rfl, rfl⟩ := Prod.mk.inj hresult
  exact ⟨f, hf, hfree, rfl, rfl⟩

namespace PagemapInv

variable {k k' : Kernel Pmm} {root t t' i vaddr flags level : Nat} {p : List Nat}

/-- An entry that exists grants user access already, so the word that is stored is the one that
was there. -/
theorem mapPageTable_of_entry (hne : tableEntry k.mem t (virtualAddrIndex vaddr level) ≠ 0)
    (hok : TableEntryOk (tableEntry k.mem t (virtualAddrIndex vaddr level))) :
    mapPageTable vaddr flags (t, k) level =
      .ok (getNextPageTable k t (virtualAddrIndex vaddr level), k) := by
  have huser : setEntryUserAccess (tableEntry k.mem t (virtualAddrIndex vaddr level)) =
      tableEntry k.mem t (virtualAddrIndex vaddr level) := if_pos (of_decide_eq_true hok.userAccess)
  simp only [mapPageTable, if_neg hne, Exec.pure_eq_ok, Exec.ok_bind, huser, setTableEntry_self,
    ite_self]

/-- Without an entry a new table is made, and then the entry exists. -/
theorem mapPageTable_of_zero (hk : DirectMap k)
    (hzero : tableEntry k.mem t (virtualAddrIndex vaddr level) = 0)
    (h : mapPageTable vaddr flags (t, k) level = .ok (t', k')) :
    ∃ f < k.pmm.pageCount, k.pmm.used f = false ∧
      mapPageTable vaddr flags (t, newTable k t (virtualAddrIndex vaddr level) f) level =
        .ok (t', k') := by
  simp only [mapPageTable, if_pos hzero] at h
  obtain ⟨⟨entry, k₁⟩, halloc, h⟩ := Exec.bind_eq_ok.mp h
  obtain ⟨f, hf, hfree, rfl, rfl⟩ := allocatePageTablePage_ok hk halloc
  have hne : tableEntry (newTable k t (virtualAddrIndex vaddr level) f).mem t
      (virtualAddrIndex vaddr level) ≠ 0 := by
    rw [tableEntry_set_self makeEntry_lt]
    exact makeEntry_ne_zero
  refine ⟨f, hf, hfree, ?_⟩
  simp only [mapPageTable, if_neg hne, Exec.pure_eq_ok, Exec.ok_bind]
  exact h

/-- No last-level entry of `k` is changed in `k'`. -/
def SameLeaves (k k' : Kernel Pmm) (root : Nat) : Prop :=
  ∀ q j, LowerPath q → q.length = 3 → j < 512 → leafEntry k' root q j = leafEntry k root q j

/-- One level: afterwards the table exists, and if it existed already nothing changed. -/
theorem mapPageTable_ok (I : PagemapInv k root)
    (hp : LowerPath (p ++ [virtualAddrIndex vaddr level])) (ht : tableAt k root p = some t)
    (h : mapPageTable vaddr flags (t, k) level = .ok (t', k')) :
    PagemapInv k' root ∧ tableAt k' root (p ++ [virtualAddrIndex vaddr level]) = some t' ∧
      SameLeaves k k' root ∧
      (tableAt k root (p ++ [virtualAddrIndex vaddr level]) ≠ none → k' = k) := by
  by_cases hzero : tableEntry k.mem t (virtualAddrIndex vaddr level) = 0
  · obtain ⟨f, hf, hfree, h⟩ := mapPageTable_of_zero I.direct hzero h
    have I₁ := I.newTable_inv hp ht hf hfree
    have hself := I.tableAt_newTable_self hp ht hf hfree
    have hentry : tableEntry (newTable k t (virtualAddrIndex vaddr level) f).mem t
        (virtualAddrIndex vaddr level) = makeEntry true true f := tableEntry_set_self makeEntry_lt
    rw [mapPageTable_of_entry (hentry ▸ makeEntry_ne_zero) (hentry ▸ tableEntryOk_makeEntry)] at h
    cases h
    refine ⟨I₁, ?_, fun q j hq hlen hj => I.leafEntry_newTable hp ht hzero hf hfree hq hlen hj, ?_⟩
    · rw [hself, getNextPageTable, hentry]
      exact congrArg some (I.direct.entryTable_makeEntry hf).symm
    · rw [tableAt_concat ht, childTable, if_pos hzero]
      exact fun h => absurd rfl h
  · rw [mapPageTable_of_entry hzero (I.inner p _ t hp ht hzero)] at h
    cases h
    refine ⟨I, ?_, fun q j _ _ _ => rfl, fun _ => rfl⟩
    rw [tableAt_concat ht, childTable, if_neg hzero]

/-- The loop over the levels. -/
theorem mapPageTables_ok {levels : List Nat} (I : PagemapInv k root)
    (hp : LowerPath (p ++ levels.map (virtualAddrIndex vaddr))) (ht : tableAt k root p = some t)
    (h : levels.foldlM (mapPageTable vaddr flags) (t, k) = .ok (t', k')) :
    PagemapInv k' root ∧ tableAt k' root (p ++ levels.map (virtualAddrIndex vaddr)) = some t' ∧
      SameLeaves k k' root ∧
      (tableAt k root (p ++ levels.map (virtualAddrIndex vaddr)) ≠ none → k' = k) := by
  induction levels generalizing k t p with
  | nil =>
    cases h
    exact ⟨I, by rwa [List.map_nil, List.append_nil], fun q j _ _ _ => rfl, fun _ => rfl⟩
  | cons level levels ih =>
    rw [List.foldlM_cons] at h
    obtain ⟨⟨t₁, k₁⟩, h₁, h⟩ := Exec.bind_eq_ok.mp h
    have happend : p ++ (level :: levels).map (virtualAddrIndex vaddr) =
        (p ++ [virtualAddrIndex vaddr level]) ++ levels.map (virtualAddrIndex vaddr) := by simp
    rw [happend] at hp ⊢
    obtain ⟨I₁, ht₁, hsame₁, hid₁⟩ := I.mapPageTable_ok (hp.of_part (List.prefix_append _ _)) ht h₁
    obtain ⟨I', ht', hsame, hid⟩ := ih I₁ hp ht₁ h
    refine ⟨I', ht', fun q j hq hlen hj => (hsame q j hq hlen hj).trans (hsame₁ q j hq hlen hj),
      fun hne => ?_⟩
    obtain rfl : k₁ = k := hid₁ fun hnone =>
      hne (follow_eq_none_of_part (List.prefix_append _ _) hnone)
    exact hid hne

theorem vmmMapPage_ok {paddr : Nat} {r : Int} (I : PagemapInv k root) (hv : vaddr < 2 ^ 47)
    (h : vmmMapPage k root vaddr paddr flags = .ok (r, k')) :
    PagemapInv k' root ∧
      ((flagOverridePage flags = false ∧
          leafEntry k root (tablePath vaddr) (virtualAddrIndex vaddr 1) ≠ 0) ∧ r = -1 ∧ k' = k ∨
        ¬(flagOverridePage flags = false ∧
          leafEntry k root (tablePath vaddr) (virtualAddrIndex vaddr 1) ≠ 0) ∧ r = 0 ∧
        ∀ q j, LowerPath q → q.length = 3 → j < 512 → leafEntry k' root q j =
          if q = tablePath vaddr ∧ j = virtualAddrIndex vaddr 1 then
            makeEntry (flagWritablePage flags) (flagUserAccessible flags) (paddr / 2 ^ 12)
          else leafEntry k root q j) := by
  have hpath := lowerPath_tablePath hv
  obtain ⟨⟨t₁, k₁⟩, h₁, h⟩ := Exec.bind_eq_ok.mp h
  obtain ⟨I₁, ht₁, hsame, hid⟩ :=
    I.mapPageTables_ok (p := []) (show LowerPath ([] ++ [4, 3, 2].map _) from hpath) rfl h₁
  have hleaf : leafEntry k root (tablePath vaddr) (virtualAddrIndex vaddr 1) =
      tableEntry k₁.mem t₁ (virtualAddrIndex vaddr 1) := by
    rw [← hsame _ _ hpath rfl virtualAddrIndex_lt, leafEntry]
    rw [show tableAt k₁ root (tablePath vaddr) = some t₁ from ht₁]
  rw [hleaf]
  by_cases hfail : flagOverridePage flags = false ∧
      tableEntry k₁.mem t₁ (virtualAddrIndex vaddr 1) ≠ 0
  · simp only [Bool.not_eq_true, if_pos hfail] at h
    cases h
    refine ⟨I₁, .inl ⟨hfail, rfl, hid fun hnone => hfail.2 ?_⟩⟩
    rw [← hleaf, leafEntry]
    rw [show tableAt k root (tablePath vaddr) = none from hnone]
  · simp only [Bool.not_eq_true, if_neg hfail] at h
    obtain ⟨rfl, rfl⟩ := Prod.mk.inj (Except.ok.inj h)
    have hentry : makeEntry (flagWritablePage flags) (flagUserAccessible flags) (paddr / 2 ^ 12) <
        2 ^ 64 := makeEntry_lt
    obtain ⟨I', hleaves⟩ :=
      I₁.setLeaf hpath rfl ht₁ virtualAddrIndex_lt hentry fun _ => entryPresent_makeEntry
    refine ⟨I', .inr ⟨hfail, rfl, fun q j hq hlen hj => ?_⟩⟩
    rw [hleaves q j hq hlen hj, hsame q j hq hlen hj]

/-! ## `vmm_unmap_page` -/

theorem findPageTable_eq {levels : List Nat} :
    findPageTable k vaddr levels t = tableAt k t (levels.map (virtualAddrIndex vaddr)) := by
  induction levels generalizing t with
  | nil => rfl
  | cons level levels ih =>
    rw [findPageTable, List.map_cons, tableAt, follow, childTable]
    by_cases hzero : tableEntry k.mem t (virtualAddrIndex vaddr level) = 0
    · simp only [if_pos hzero]
      rfl
    · simp only [if_neg hzero, ih]
      rfl

theorem vmmUnmapPage_spec (I : PagemapInv k root) (hv : vaddr < 2 ^ 47) :
    PagemapInv (vmmUnmapPage k root vaddr).2 root ∧
      (leafEntry k root (tablePath vaddr) (virtualAddrIndex vaddr 1) = 0 ∧
          vmmUnmapPage k root vaddr = (-1, k) ∨
        leafEntry k root (tablePath vaddr) (virtualAddrIndex vaddr 1) ≠ 0 ∧
          (vmmUnmapPage k root vaddr).1 = 0 ∧
          ∀ q j, LowerPath q → q.length = 3 → j < 512 →
            leafEntry (vmmUnmapPage k root vaddr).2 root q j =
              if q = tablePath vaddr ∧ j = virtualAddrIndex vaddr 1 then 0
              else leafEntry k root q j) := by
  have hpath := lowerPath_tablePath hv
  have hfind : findPageTable k vaddr [4, 3, 2] root = tableAt k root (tablePath vaddr) :=
    findPageTable_eq
  cases ht : tableAt k root (tablePath vaddr) with
  | none =>
    have hleaf : leafEntry k root (tablePath vaddr) (virtualAddrIndex vaddr 1) = 0 := by
      rw [leafEntry, ht]
    have hunmap : vmmUnmapPage k root vaddr = (-1, k) := by rw [vmmUnmapPage, hfind, ht]
    rw [hunmap]
    exact ⟨I, .inl ⟨hleaf, rfl⟩⟩
  | some t =>
    have hleaf : leafEntry k root (tablePath vaddr) (virtualAddrIndex vaddr 1) =
        tableEntry k.mem t (virtualAddrIndex vaddr 1) := by rw [leafEntry, ht]
    rw [hleaf]
    by_cases hzero : tableEntry k.mem t (virtualAddrIndex vaddr 1) = 0
    · have hunmap : vmmUnmapPage k root vaddr = (-1, k) := by
        simp only [vmmUnmapPage, hfind, ht, if_pos hzero]
      rw [hunmap]
      exact ⟨I, .inl ⟨hzero, rfl⟩⟩
    · have hunmap : vmmUnmapPage k root vaddr =
          (0, storeEntry k t (virtualAddrIndex vaddr 1) 0) := by
        simp only [vmmUnmapPage, hfind, ht, if_neg hzero]
      rw [hunmap]
      obtain ⟨I', hleaves⟩ := I.setLeaf hpath rfl ht virtualAddrIndex_lt (v := 0) (by decide)
        fun h => absurd rfl h
      exact ⟨I', .inr ⟨hzero, rfl, hleaves⟩⟩

end PagemapInv

/-! ## `vmm_create_new_pagemap` -/

/-- The kernel after page `f` was made a pagemap: the lower half is empty, the upper half is a copy
of the current one. -/
abbrev newPagemap (k : Kernel Pmm) (f : Nat) : Kernel Pmm :=
  { k with
    mem := (k.mem.copy (u64 (pageAt k f + regularPageSize / 2))
      (u64 (vmmGetCurrPagemap k + regularPageSize / 2)) (regularPageSize / 2)).fill (pageAt k f) 0
        (regularPageSize / 2)
    pmm := k.pmm.setBits [f] true }

theorem vmmCreateNewPagemap_ok {k k' : Kernel Pmm} {root : Nat} (hk : DirectMap k)
    (h : vmmCreateNewPagemap k = .ok (root, k')) :
    ∃ f < k.pmm.pageCount, k.pmm.used f = false ∧ root = pageAt k f ∧ k' = newPagemap k f := by
  have hcount := hk.count
  obtain ⟨⟨newPageMap, pmm⟩, halloc, h⟩ := Exec.bind_eq_ok.mp h
  obtain ⟨_, hassert, h⟩ := Exec.bind_eq_ok.mp h
  obtain ⟨f, hf, hfree, -, rfl, rfl⟩ :=
    pmmAllocPageHhdm_ok (by omega) halloc (kernelAssert_eq_ok.mp hassert)
  obtain ⟨rfl, rfl⟩ := Prod.mk.inj (Except.ok.inj h)
  rw [hk.offset, hk.u64_pageAt hf]
  exact ⟨f, hf, hfree, rfl, rfl⟩

/-- A new pagemap has no entry in its lower half. -/
theorem PagemapInv.create {k k' : Kernel Pmm} {root : Nat} (hk : DirectMap k)
    (h : vmmCreateNewPagemap k = .ok (root, k')) :
    PagemapInv k' root ∧ ∀ q j, LowerPath q → q.length = 3 → leafEntry k' root q j = 0 := by
  obtain ⟨f, hf, hfree, rfl, rfl⟩ := vmmCreateNewPagemap_ok hk h
  have hempty : ∀ i < 256, tableEntry (newPagemap k f).mem (pageAt k f) i = 0 := fun i hi =>
    ByteMemory.load_fill_zero (by simp only [regularPageSize]; omega)
  have htables : ∀ q t, LowerPath q → tableAt (newPagemap k f) (pageAt k f) q = some t →
      q = [] ∧ t = pageAt k f := by
    intro q t hq ht
    cases q with
    | nil => exact ⟨rfl, (Option.some.inj ht).symm⟩
    | cons i q =>
      rw [tableAt, follow, childTable, if_pos (hempty i (hq.lower i rfl))] at ht
      cases ht
  have hdirect : DirectMap (newPagemap k f) :=
    ⟨hk.offset, by simpa using hk.word, by simpa using hk.count⟩
  refine ⟨⟨hdirect, fun p t hp ht => ?_, fun p q t hp hq hpt hqt => ?_, fun p i t hp ht hne => ?_,
    fun p i t hp hlen _ ht _ => ?_⟩, fun q j hq hlen => ?_⟩
  · obtain ⟨-, rfl⟩ := htables p t hp ht
    exact ⟨f, by simpa using hf, Pmm.used_setBits_of_mem (List.mem_singleton.mpr rfl) hf, rfl⟩
  · rw [(htables p t hp hpt).1, (htables q t hq hqt).1]
  · obtain ⟨rfl, rfl⟩ := htables p t (hp.of_part (List.prefix_append _ _)) ht
    exact absurd (hempty i (hp.lower i rfl)) hne
  · obtain ⟨rfl, -⟩ := htables p t hp ht
    cases hlen
  · rw [leafEntry]
    cases ht : tableAt (newPagemap k f) (pageAt k f) q with
    | none => rfl
    | some t =>
      obtain ⟨rfl, -⟩ := htables q t hq ht
      cases hlen

end TrazelOs
