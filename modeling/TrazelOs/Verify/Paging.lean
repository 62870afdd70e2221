import TrazelOs.Kernel.Vmm
import TrazelOs.Verify.Pmm
import TrazelOs.Theory.Path

/-! # Page tables in memory

The tables of a pagemap are the nodes of a graph, its non-zero entries are the edges. For the lower
half, `PagemapInv` says that the graph is a tree of used pages whose inner entries grant every
access. Then the walk of the hardware reads one word, the entry of the last table (`leafEntry`):
`translate_eq`. -/

namespace TrazelOs
open Theory

/-! ## Words of entries -/

section Entry
variable {w u : Bool} {index : Nat}

theorem makeEntry_lt : makeEntry w u index < 2 ^ 64 := by
  have hw := w.toNat_le
  have hu := u.toNat_le
  simp only [makeEntry]
  omega

theorem makeEntry_ne_zero : makeEntry w u index ≠ 0 := by
  simp only [makeEntry]
  omega

@[simp] theorem entryPresent_makeEntry : entryPresent (makeEntry w u index) = true := by
  have hbit : makeEntry w u index % 2 = 1 := by
    simp only [makeEntry]
    omega
  exact decide_eq_true hbit

@[simp] theorem entryWritable_makeEntry : entryWritable (makeEntry w u index) = w := by
  have hw := w.toNat_le
  have hbit : makeEntry w u index / 2 % 2 = w.toNat := by
    simp only [makeEntry]
    omega
  rw [entryWritable, hbit]
  cases w <;> rfl

@[simp] theorem entryUserAccess_makeEntry : entryUserAccess (makeEntry w u index) = u := by
  have hw := w.toNat_le
  have hu := u.toNat_le
  have hbit : makeEntry w u index / 4 % 2 = u.toNat := by
    simp only [makeEntry]
    omega
  rw [entryUserAccess, hbit]
  cases u <;> rfl

@[simp] theorem entryHugePage_makeEntry : entryHugePage (makeEntry w u index) = false := by
  have hw := w.toNat_le
  have hu := u.toNat_le
  have hbit : makeEntry w u index / 128 % 2 = 0 := by
    simp only [makeEntry]
    omega
  rw [entryHugePage, hbit]
  rfl

theorem entryIndex_makeEntry (h : index < 2 ^ 40) : entryIndex (makeEntry w u index) = index := by
  have hw := w.toNat_le
  have hu := u.toNat_le
  simp only [makeEntry, entryIndex]
  omega

end Entry

theorem tableEntry_lt {m : Memory} {t i : Nat} : tableEntry m t i < 2 ^ 64 := ByteMemory.load_lt

/-! ## Pages of the direct map -/

/-- Where the kernel sees page `f`. -/
def pageAt (k : Kernel Pmm) (f : Nat) : Nat := f * regularPageSize + k.gHhdmOffset

/-- The direct map covers the managed pages, and page numbers fit the entries' index field. -/
structure DirectMap (k : Kernel Pmm) : Prop where
  offset : k.pmm.gHhdmOffset = k.gHhdmOffset
  word : k.pmm.pageCount * regularPageSize + k.gHhdmOffset ≤ 2 ^ 64
  count : k.pmm.pageCount ≤ 2 ^ 40

theorem DirectMap.u64_pageAt {k : Kernel Pmm} {f : Nat} (h : DirectMap k)
    (hf : f < k.pmm.pageCount) : u64 (f * regularPageSize + k.gHhdmOffset) = pageAt k f := by
  have hword := h.word
  refine Nat.mod_eq_of_lt ?_
  simp only [regularPageSize] at hword ⊢
  omega

theorem DirectMap.entryTable_makeEntry {k : Kernel Pmm} {w u : Bool} {f : Nat} (h : DirectMap k)
    (hf : f < k.pmm.pageCount) : entryTable k (makeEntry w u f) = pageAt k f := by
  rw [entryTable, entryIndex_makeEntry (Nat.lt_of_lt_of_le hf h.count)]
  exact h.u64_pageAt hf

theorem DirectMap.of_eq {k k' : Kernel Pmm} (h : DirectMap k) (hpmm : k'.pmm = k.pmm)
    (hoffset : k'.gHhdmOffset = k.gHhdmOffset) : DirectMap k' := by
  refine ⟨?_, ?_, ?_⟩
  · rw [hpmm, hoffset, h.offset]
  · rw [hpmm, hoffset]
    exact h.word
  · rw [hpmm]
    exact h.count

/-- The page at `t` is marked used. -/
def UsedPage (k : Kernel Pmm) (t : Nat) : Prop :=
  ∃ f < k.pmm.pageCount, k.pmm.used f = true ∧ t = pageAt k f

theorem UsedPage.of_eq {k k' : Kernel Pmm} {t : Nat} (h : UsedPage k t) (hpmm : k'.pmm = k.pmm)
    (hoffset : k'.gHhdmOffset = k.gHhdmOffset) : UsedPage k' t := by
  obtain ⟨f, hf, hused, rfl⟩ := h
  exact ⟨f, by rwa [hpmm], by rwa [hpmm], by rw [pageAt, pageAt, hoffset]⟩

/-- The pages at `t` and `t'` have no byte in common. -/
def PagesApart (t t' : Nat) : Prop := t + regularPageSize ≤ t' ∨ t' + regularPageSize ≤ t

theorem pagesApart_of_ne {k : Kernel Pmm} {f f' : Nat} (h : f ≠ f') :
    PagesApart (pageAt k f) (pageAt k f') := by
  simp only [PagesApart, pageAt, regularPageSize]
  omega

theorem UsedPage.eq_or_apart {k : Kernel Pmm} {t t' : Nat} (h : UsedPage k t) (h' : UsedPage k t') :
    t = t' ∨ PagesApart t t' := by
  obtain ⟨f, -, -, rfl⟩ := h
  obtain ⟨f', -, -, rfl⟩ := h'
  by_cases hf : f = f'
  · exact .inl (hf ▸ rfl)
  · exact .inr (pagesApart_of_ne hf)

section Store
variable {m : Memory} {t t' i i' v : Nat}

theorem tableEntry_set_self (hv : v < 2 ^ 64) : tableEntry (setTableEntry m t i v) t i = v := by
  rw [tableEntry, setTableEntry, ByteMemory.load_store_self]
  exact Nat.mod_eq_of_lt hv

theorem tableEntry_set_of_ne (h : t = t' ∨ PagesApart t t') (hi : i < 512) (hi' : i' < 512)
    (hne : t' ≠ t ∨ i' ≠ i) : tableEntry (setTableEntry m t i v) t' i' = tableEntry m t' i' := by
  refine ByteMemory.load_store_of_disjoint ?_
  simp only [PagesApart, regularPageSize] at h
  omega

theorem tableEntry_fill_of_apart (h : PagesApart t t') (hi' : i' < 512) :
    tableEntry (m.fill t 0 regularPageSize) t' i' = tableEntry m t' i' := by
  refine ByteMemory.load_congr fun j hj => ?_
  simp only [PagesApart, regularPageSize] at h ⊢
  rw [ByteMemory.fill_apply, if_neg (by omega)]

theorem tableEntry_fill_self (hi : i < 512) : tableEntry (m.fill t 0 regularPageSize) t i = 0 :=
  ByteMemory.load_fill_zero (by simp only [regularPageSize]; omega)

/-- Storing what is there changes nothing. -/
theorem setTableEntry_self : setTableEntry m t i (tableEntry m t i) = m :=
  ByteMemory.store_load_self

end Store

/-! ## The tree of tables of the lower half -/

/-- The table below the table `t` at entry `i`. -/
def childTable (k : Kernel Pmm) (t i : Nat) : Option Nat :=
  if tableEntry k.mem t i = 0 then none else some (getNextPageTable k t i)

/-- The table at the end of a path of indices from the pagemap `root`. -/
abbrev tableAt (k : Kernel Pmm) (root : Nat) (p : List Nat) : Option Nat :=
  follow (childTable k) root p

/-- The indices of a table, from the topmost level down, for an address of the lower half. -/
structure LowerPath (p : List Nat) : Prop where
  length : p.length ≤ 3
  index : ∀ i ∈ p, i < 512
  lower : ∀ i ∈ p.head?, i < 256

theorem LowerPath.of_part {p q : List Nat} (hq : LowerPath q) (h : p <+: q) : LowerPath p := by
  obtain ⟨r, rfl⟩ := h
  refine ⟨?_, fun i hi => hq.index i (List.mem_append_left _ hi), fun i hi => hq.lower i ?_⟩
  · have := hq.length
    rw [List.length_append] at this
    omega
  · rw [List.head?_append]
    simp [Option.mem_def.mp hi]

/-- An entry that refers to a table and grants every access. -/
structure TableEntryOk (raw : Nat) : Prop where
  present : entryPresent raw = true
  writable : entryWritable raw = true
  userAccess : entryUserAccess raw = true
  notHuge : entryHugePage raw = false

theorem tableEntryOk_makeEntry {index : Nat} : TableEntryOk (makeEntry true true index) :=
  ⟨by simp, by simp, by simp, by simp⟩

/-- The lower half of the pagemap `root` is a tree of used pages. -/
structure PagemapInv (k : Kernel Pmm) (root : Nat) : Prop where
  direct : DirectMap k
  used : ∀ p t, LowerPath p → tableAt k root p = some t → UsedPage k t
  unique : UniquePaths LowerPath (childTable k) root
  inner : ∀ p i t, LowerPath (p ++ [i]) → tableAt k root p = some t → tableEntry k.mem t i ≠ 0 →
    TableEntryOk (tableEntry k.mem t i)
  leaf : ∀ p i t, LowerPath p → p.length = 3 → i < 512 → tableAt k root p = some t →
    tableEntry k.mem t i ≠ 0 → entryPresent (tableEntry k.mem t i) = true

/-- The entry `i` of the table at the end of the path, zero if there is no such table. -/
def leafEntry (k : Kernel Pmm) (root : Nat) (p : List Nat) (i : Nat) : Nat :=
  match tableAt k root p with
  | none => 0
  | some t => tableEntry k.mem t i

/-- The indices of the tables on the way to `vaddr`. -/
def tablePath (vaddr : Nat) : List Nat :=
  [virtualAddrIndex vaddr 4, virtualAddrIndex vaddr 3, virtualAddrIndex vaddr 2]

theorem virtualAddrIndex_lt {vaddr level : Nat} : virtualAddrIndex vaddr level < 512 :=
  Nat.mod_lt _ (by decide)

theorem lowerPath_tablePath {vaddr : Nat} (h : vaddr < 2 ^ 47) : LowerPath (tablePath vaddr) := by
  refine ⟨Nat.le_refl 3, ?_, ?_⟩
  · simp only [tablePath, List.mem_cons, List.not_mem_nil, or_false]
    rintro i (rfl | rfl | rfl) <;> exact virtualAddrIndex_lt
  · rintro i ⟨⟩
    simp only [virtualAddrIndex]
    omega

/-- What a last-level entry says about its page. -/
def entryMapping (raw : Nat) : Option Mapping :=
  if raw = 0 then none
  else some ⟨entryIndex raw, entryWritable raw, entryUserAccess raw⟩

namespace PagemapInv

variable {k : Kernel Pmm} {root t i vaddr : Nat} {p : List Nat}

/-- One level of the walk, through an inner entry. -/
theorem walk_inner (I : PagemapInv k root) {level : Nat}
    (hp : LowerPath (p ++ [virtualAddrIndex vaddr (level + 2)])) (ht : tableAt k root p = some t) :
    pageWalk k vaddr (level + 2) t =
      (childTable k t (virtualAddrIndex vaddr (level + 2))).bind (pageWalk k vaddr (level + 1)) := by
  rw [pageWalk]
  by_cases hzero : tableEntry k.mem t (virtualAddrIndex vaddr (level + 2)) = 0
  · simp only [childTable, hzero]
    rfl
  · have hok := I.inner p _ t hp ht hzero
    simp only [childTable, if_neg hzero, hok.present, hok.notHuge, hok.writable, hok.userAccess,
      Bool.and_true]
    simp [getNextPageTable]

/-- The walk reads the last-level entry. -/
theorem translate_eq (I : PagemapInv k root) (hv : vaddr < 2 ^ 47) : translate k root vaddr =
    entryMapping (leafEntry k root (tablePath vaddr) (virtualAddrIndex vaddr 1)) := by
  have hpath := lowerPath_tablePath hv
  have hparts : ∀ q, q <+: tablePath vaddr → LowerPath q := fun q hq => hpath.of_part hq
  rw [translate, leafEntry]
  have hroot : tableAt k root [] = some root := rfl
  rw [I.walk_inner (hparts [_] ⟨[_, _], rfl⟩) hroot]
  cases h4 : childTable k root (virtualAddrIndex vaddr 4) with
  | none =>
    have hnone : tableAt k root (tablePath vaddr) = none := by simp [tableAt, tablePath, follow, h4]
    rw [hnone]
    rfl
  | some t4 =>
    have ht4 : tableAt k root [virtualAddrIndex vaddr 4] = some t4 := by simp [tableAt, follow, h4]
    rw [Option.bind_some, I.walk_inner (hparts [_, _] ⟨[_], rfl⟩) ht4]
    cases h3 : childTable k t4 (virtualAddrIndex vaddr 3) with
    | none =>
      have hnone : tableAt k root (tablePath vaddr) = none := by
        simp [tableAt, tablePath, follow, h4, h3]
      rw [hnone]
      rfl
    | some t3 =>
      have ht3 : tableAt k root [virtualAddrIndex vaddr 4, virtualAddrIndex vaddr 3] = some t3 := by
        simp [tableAt, follow, h4, h3]
      rw [Option.bind_some, I.walk_inner (hparts [_, _, _] ⟨[], rfl⟩) ht3]
      cases h2 : childTable k t3 (virtualAddrIndex vaddr 2) with
      | none =>
        have hnone : tableAt k root (tablePath vaddr) = none := by
          simp [tableAt, tablePath, follow, h4, h3, h2]
        rw [hnone]
        rfl
      | some t2 =>
        have ht2 : tableAt k root (tablePath vaddr) = some t2 := by
          simp [tableAt, tablePath, follow, h4, h3, h2]
        rw [ht2, Option.bind_some, pageWalk, entryMapping]
        by_cases hzero : tableEntry k.mem t2 (virtualAddrIndex vaddr 1) = 0
        · simp only [hzero]
          rfl
        · have hpresent := I.leaf _ _ t2 hpath rfl virtualAddrIndex_lt ht2 hzero
          simp [hpresent, hzero]

end PagemapInv

end TrazelOs
