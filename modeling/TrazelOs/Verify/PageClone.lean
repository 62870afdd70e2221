import TrazelOs.Verify.PageTree
import TrazelOs.Verify.VmmRun

/-! # Copies of address spaces

`vmm_clone_pagemap` makes a tree of the same shape: each entry keeps its attributes and refers to a
new page, and a page that an entry of the last level refers to has the contents of its original. -/

namespace TrazelOs
open Theory

section Entry
variable {raw f : Nat}

/-- All bits of an entry but the index. -/
def entryAttributes (raw : Nat) : Nat := setEntryIndex raw 0

theorem setEntryIndex_lt (h : raw < 2 ^ 64) : setEntryIndex raw f < 2 ^ 64 := by
  unfold setEntryIndex
  omega

theorem entryIndex_setEntryIndex (hf : f < 2 ^ 40) : entryIndex (setEntryIndex raw f) = f := by
  unfold entryIndex setEntryIndex
  omega

@[simp] theorem entryPresent_setEntryIndex :
    entryPresent (setEntryIndex raw f) = entryPresent raw := by
  unfold entryPresent setEntryIndex
  exact decide_eq_decide.mpr (by omega)

@[simp] theorem entryWritable_setEntryIndex :
    entryWritable (setEntryIndex raw f) = entryWritable raw := by
  unfold entryWritable setEntryIndex
  exact decide_eq_decide.mpr (by omega)

@[simp] theorem entryUserAccess_setEntryIndex :
    entryUserAccess (setEntryIndex raw f) = entryUserAccess raw := by
  unfold entryUserAccess setEntryIndex
  exact decide_eq_decide.mpr (by omega)

@[simp] theorem entryHugePage_setEntryIndex :
    entryHugePage (setEntryIndex raw f) = entryHugePage raw := by
  unfold entryHugePage setEntryIndex
  exact decide_eq_decide.mpr (by omega)

@[simp] theorem entryAttributes_setEntryIndex :
    entryAttributes (setEntryIndex raw f) = entryAttributes raw := by
  unfold entryAttributes setEntryIndex
  omega

theorem setEntryIndex_ne_zero (h : entryPresent raw = true) : setEntryIndex raw f ≠ 0 := by
  simp only [entryPresent, decide_eq_true_eq] at h
  unfold setEntryIndex
  omega

end Entry

/-! ## The bytes of a tree -/

/-- The parts of the state that say where the pages are. -/
structure SameLayout (k k' : Kernel Pmm) : Prop where
  offset : k'.gHhdmOffset = k.gHhdmOffset
  pageCount : k'.pmm.pageCount = k.pmm.pageCount
  pmmOffset : k'.pmm.gHhdmOffset = k.pmm.gHhdmOffset

namespace SameLayout
variable {k k' k'' : Kernel Pmm}

theorem refl : SameLayout k k := ⟨rfl, rfl, rfl⟩

theorem symm (h : SameLayout k k') : SameLayout k' k :=
  ⟨h.offset.symm, h.pageCount.symm, h.pmmOffset.symm⟩

theorem trans (h : SameLayout k k') (h' : SameLayout k' k'') : SameLayout k k'' :=
  ⟨h'.offset.trans h.offset, h'.pageCount.trans h.pageCount, h'.pmmOffset.trans h.pmmOffset⟩

theorem pageAt_eq (h : SameLayout k k') (f : Nat) : pageAt k' f = pageAt k f := by
  rw [pageAt, pageAt, h.offset]

theorem direct (h : SameLayout k k') (D : DirectMap k) : DirectMap k' where
  offset := by rw [h.pmmOffset, h.offset, D.offset]
  word := by rw [h.pageCount, h.offset]; exact D.word
  count := by rw [h.pageCount]; exact D.count

end SameLayout

/-- A byte of a used page. -/
def UsedByte (k : Kernel Pmm) (b : Nat) : Prop :=
  ∃ f < k.pmm.pageCount, k.pmm.used f = true ∧ InPage (pageAt k f) b

/-- A byte of a table of the tree or of a page that its entries refer to. -/
def TreeBytes (k : Kernel Pmm) (level t b : Nat) : Prop :=
  InPage t b ∨ ∃ f ∈ framesBelow k level t, InPage (pageAt k f) b

section Bytes
variable {k k' : Kernel Pmm} {level t i f g b : Nat}

theorem inPage_inj (h : InPage (pageAt k f) b) (h' : InPage (pageAt k g) b) : f = g := by
  simp only [InPage, pageAt, regularPageSize] at h h'
  omega

theorem UsedByte.not_inPage (h : UsedByte k b) (hf : k.pmm.used f = false) : ¬InPage (pageAt k f) b := by
  obtain ⟨g, -, hg, hb⟩ := h
  rintro hb'
  obtain rfl := inPage_inj hb hb'
  exact absurd hg (by rw [hf]; decide)

theorem UsedPage.usedByte (h : UsedPage k t) (hb : InPage t b) : UsedByte k b := by
  obtain ⟨f, hf, hused, rfl⟩ := h
  exact ⟨f, hf, hused, hb⟩

theorem mem_entryFrames (hne : tableEntry k.mem t i ≠ 0) :
    f ∈ entryFrames k level t i ↔
      f ∈ framesBelow k level (getNextPageTable k t i) ∨ f = entryIndex (tableEntry k.mem t i) := by
  rw [entryFrames, if_neg hne, List.mem_append, List.mem_singleton]

theorem treeBytes_next (hne : tableEntry k.mem t i ≠ 0)
    (hnext : getNextPageTable k t i = pageAt k (entryIndex (tableEntry k.mem t i)))
    (hb : TreeBytes k level (getNextPageTable k t i) b) :
    ∃ f ∈ entryFrames k level t i, InPage (pageAt k f) b := by
  rcases hb with hb | ⟨f, hf, hb⟩
  · exact ⟨_, (mem_entryFrames hne).mpr (.inr rfl), hnext ▸ hb⟩
  · exact ⟨f, (mem_entryFrames hne).mpr (.inl hf), hb⟩

theorem Plain.treeBytes (D : DirectMap k) (P : Plain k (level + 1) t)
    (hi : i < levelEntries (level + 1)) (hne : tableEntry k.mem t i ≠ 0)
    (hb : TreeBytes k level (getNextPageTable k t i) b) : TreeBytes k (level + 1) t b :=
  .inr ((treeBytes_next hne (P.next_eq D hi hne) hb).imp fun _ h => ⟨mem_framesBelow hi h.1, h.2⟩)

theorem Plain.sameTables (D : DirectMap k) (P : Plain k level t)
    (h : ByteMemory.AgreeOn (TreeBytes k level t) k.mem k'.mem) : SameTables k k' level t := by
  intro t' ht' i hi
  refine tableEntry_congr hi fun b hb => ?_
  rcases P.subTable D ht' with rfl | ⟨f, hf, rfl⟩
  · exact h b (.inl hb)
  · exact h b (.inr ⟨f, hf, hb⟩)

theorem SameTables.plain (h : SameTables k k' level t) (L : SameLayout k k') (P : Plain k level t) :
    Plain k' level t := by
  induction level generalizing t with
  | zero => trivial
  | succ level ih =>
    intro i hi hne
    rw [h.entry hi] at hne ⊢
    obtain ⟨hpresent, hhuge, hlt, P'⟩ := P i hi hne
    rw [h.next L.offset hi]
    exact ⟨hpresent, hhuge, L.pageCount ▸ hlt, ih (h.below hi hne) P'⟩

theorem SameTables.treeBytes_iff (h : SameTables k k' level t) (L : SameLayout k k') :
    TreeBytes k' level t b ↔ TreeBytes k level t b := by
  simp only [TreeBytes, h.framesBelow_eq L.offset, L.pageAt_eq]

end Bytes

/-! ## Copies -/

/-- From `new` on, in `k'`, there is a copy of the tree of `level` levels that is at `curr` in `k`. -/
def Cloned (k k' : Kernel Pmm) : (level curr new : Nat) → Prop
  | 0, curr, new => ∀ j < regularPageSize, k'.mem (new + j) = k.mem (curr + j)
  | level + 1, curr, new => ∀ i < levelEntries (level + 1),
    (tableEntry k.mem curr i = 0 → tableEntry k'.mem new i = 0) ∧
    (tableEntry k.mem curr i ≠ 0 → ∃ f < k.pmm.pageCount,
      tableEntry k'.mem new i = setEntryIndex (tableEntry k.mem curr i) f ∧
        Cloned k k' level (getNextPageTable k curr i) (pageAt k f))

namespace Cloned
variable {k k' k₂ k₂' : Kernel Pmm} {level curr new i f v : Nat}

theorem next_eq (D : DirectMap k) (L : SameLayout k k') (hf : f < k.pmm.pageCount)
    (he : tableEntry k'.mem new i = setEntryIndex (tableEntry k.mem curr i) f) :
    entryIndex (tableEntry k'.mem new i) = f ∧ getNextPageTable k' new i = pageAt k f := by
  have hindex : entryIndex (tableEntry k'.mem new i) = f := by
    rw [he, entryIndex_setEntryIndex (Nat.lt_of_lt_of_le hf D.count)]
  refine ⟨hindex, ?_⟩
  rw [getNextPageTable, entryTable, hindex, L.offset]
  exact D.u64_pageAt hf

theorem plain (D : DirectMap k) (L : SameLayout k k') (P : Plain k level curr)
    (h : Cloned k k' level curr new) : Plain k' level new := by
  induction level generalizing curr new with
  | zero => trivial
  | succ level ih =>
    intro i hi hne
    have hne' : tableEntry k.mem curr i ≠ 0 := mt (h i hi).1 hne
    obtain ⟨hpresent, hhuge, -, P'⟩ := P i hi hne'
    obtain ⟨f, hf, he, hsub⟩ := (h i hi).2 hne'
    obtain ⟨hindex, hnext⟩ := next_eq D L hf he
    rw [hindex, hnext, he, entryPresent_setEntryIndex, entryHugePage_setEntryIndex]
    exact ⟨hpresent, hhuge, L.pageCount ▸ hf, ih P' hsub⟩

/-- What lies in other pages does not matter. -/
theorem congr (D : DirectMap k) (L : SameLayout k k') (hk : SameLayout k k₂)
    (P : Plain k level curr) (hcurr : ByteMemory.AgreeOn (TreeBytes k level curr) k.mem k₂.mem)
    (hnew : ByteMemory.AgreeOn (TreeBytes k' level new) k'.mem k₂'.mem)
    (h : Cloned k k' level curr new) : Cloned k₂ k₂' level curr new := by
  induction level generalizing curr new with
  | zero =>
    intro j hj
    rw [hnew (new + j) (.inl ⟨by omega, by omega⟩), hcurr (curr + j) (.inl ⟨by omega, by omega⟩),
      h j hj]
  | succ level ih =>
    intro i hi
    have hi' : i < 512 := Nat.lt_of_lt_of_le hi levelEntries_le
    have hentry : tableEntry k₂.mem curr i = tableEntry k.mem curr i :=
      tableEntry_congr hi' fun b hb => hcurr b (.inl hb)
    have hentry' : tableEntry k₂'.mem new i = tableEntry k'.mem new i :=
      tableEntry_congr hi' fun b hb => hnew b (.inl hb)
    have hnext : getNextPageTable k₂ curr i = getNextPageTable k curr i := by
      rw [getNextPageTable, getNextPageTable, entryTable, entryTable, hentry, hk.offset]
    rw [hentry, hentry', hnext, hk.pageCount]
    refine ⟨(h i hi).1, fun hne => ?_⟩
    obtain ⟨f, hf, he, hsub⟩ := (h i hi).2 hne
    refine ⟨f, hf, he, ?_⟩
    rw [hk.pageAt_eq]
    have hne' : tableEntry k'.mem new i ≠ 0 := he ▸ setEntryIndex_ne_zero (P i hi hne).1
    refine ih (P i hi hne).2.2.2 (hcurr.mono fun b => P.treeBytes D hi hne) (hnew.mono fun b hb => ?_)
      hsub
    refine (h.plain D L P).treeBytes (L.direct D) hi hne' ?_
    rwa [(next_eq D L hf he).2]

end Cloned

/-! ## The pages a copy takes -/

/-- The pages `frames` are taken, and nothing else is written but them and the table `new`. -/
structure Grown (k k' : Kernel Pmm) (new : Nat) (frames : List Nat) : Prop where
  globals : k' = { k with mem := k'.mem, pmm := k.pmm.setBits frames true }
  fresh : ∀ f ∈ frames, f < k.pmm.pageCount ∧ k.pmm.used f = false
  nodup : frames.Nodup
  mem : ∀ b, ¬InPage new b → (∀ f ∈ frames, ¬InPage (pageAt k f) b) → k'.mem b = k.mem b

namespace Grown
variable {k k' k₃ : Kernel Pmm} {new i f b e : Nat} {frames more : List Nat}

theorem refl : Grown k k new [] := ⟨rfl, by simp, List.nodup_nil, fun _ _ _ => rfl⟩

theorem pmm (h : Grown k k' new frames) : k'.pmm = k.pmm.setBits frames true := by rw [h.globals]

theorem layout (h : Grown k k' new frames) : SameLayout k k' :=
  ⟨by rw [h.globals], by rw [h.pmm, Pmm.setBits_pageCount], by rw [h.pmm, Pmm.setBits_gHhdmOffset]⟩

theorem used (h : Grown k k' new frames) (hf : k.pmm.used f = true) : k'.pmm.used f = true := by
  rw [h.pmm, Pmm.used_setBits]
  split
  · rfl
  · exact hf

theorem usedByte (h : Grown k k' new frames) (hb : UsedByte k b) : UsedByte k' b := by
  obtain ⟨f, hf, hused, hb⟩ := hb
  exact ⟨f, h.layout.pageCount ▸ hf, h.used hused, by rwa [h.layout.pageAt_eq]⟩

theorem not_used (h : Grown k k' new frames) (hf : k'.pmm.used f = false) :
    k.pmm.used f = false ∧ (f < k.pmm.pageCount → f ∉ frames) := by
  refine ⟨?_, fun hlt hmem => ?_⟩
  · cases hused : k.pmm.used f with
    | false => rfl
    | true => exact absurd (h.used hused) (by rw [hf]; decide)
  · rw [h.pmm, Pmm.used_setBits_of_mem hmem hlt] at hf
    cases hf

/-- Pages in use keep their contents. -/
theorem keep (h : Grown k k' new frames) (hb : UsedByte k b) (hnew : ¬InPage new b) :
    k'.mem b = k.mem b :=
  h.mem b hnew fun f hf => hb.not_inPage (h.fresh f hf).2

/-- Before the recursive call: the page `f` is taken and the entry `i` of `new` refers to it. -/
abbrev enter (k : Kernel Pmm) (new i f e : Nat) : Kernel Pmm :=
  { k with
    mem := setTableEntry (k.mem.fill (pageAt k f) 0 regularPageSize) new i e
    pmm := k.pmm.setBits [f] true }

theorem enter_layout : SameLayout k (enter k new i f e) := ⟨rfl, Pmm.setBits_pageCount, rfl⟩

theorem enter_mem (hi : i < 512) (hnew : ¬InPage new b) (hf : ¬InPage (pageAt k f) b) :
    (enter k new i f e).mem b = k.mem b := by
  change setTableEntry _ new i e b = _
  rw [setTableEntry_of_not_inPage hi hnew, ByteMemory.fill_apply]
  exact if_neg hf

theorem enter_used {g : Nat} (hg : k.pmm.used g = true) : (enter k new i f e).pmm.used g = true := by
  change (k.pmm.setBits [f] true).used g = true
  rw [Pmm.used_setBits]
  split
  · rfl
  · exact hg

theorem enter_usedByte (hb : UsedByte k b) : UsedByte (enter k new i f e) b := by
  obtain ⟨g, hg, hused, hb⟩ := hb
  exact ⟨g, by rwa [enter_layout.pageCount], enter_used hused, hb⟩

theorem enter_card (new i e : Nat) (hf : f < k.pmm.pageCount) (hfree : k.pmm.used f = false) :
    (enter k new i f e).pmm.freePages.card + 1 = k.pmm.freePages.card := by
  rw [Pmm.freePages_setBits_true]
  exact Finset.card_erase_add_one (Pmm.mem_freePages.mpr ⟨hf, hfree⟩)

theorem trans {new' : Nat} (h : Grown k k' new frames) (h' : Grown k' k₃ new' more)
    (hnew : new' = new ∨ ∃ f ∈ frames, new' = pageAt k f) : Grown k k₃ new (frames ++ more) := by
  have hmore : ∀ g ∈ more, g < k.pmm.pageCount ∧ k.pmm.used g = false ∧ g ∉ frames := by
    intro g hg
    obtain ⟨hlt, hused⟩ := h'.fresh g hg
    rw [h.layout.pageCount] at hlt
    exact ⟨hlt, (h.not_used hused).1, (h.not_used hused).2 hlt⟩
  refine ⟨?_, fun g hg => ?_, ?_, fun b hb hframes => ?_⟩
  · rw [Pmm.setBits_append, h'.globals, h.globals]
  · rcases List.mem_append.mp hg with hg | hg
    · exact h.fresh g hg
    · exact ⟨(hmore g hg).1, (hmore g hg).2.1⟩
  · exact List.nodup_append'.mpr ⟨h.nodup, h'.nodup, fun g hg hg' => (hmore g hg').2.2 hg⟩
  · have hb' : ¬InPage new' b := by
      rcases hnew with rfl | ⟨f, hf, rfl⟩
      · exact hb
      · exact hframes f (List.mem_append_left _ hf)
    rw [h'.mem b hb' fun g hg => ?_, h.mem b hb fun g hg => hframes g (List.mem_append_left _ hg)]
    rw [h.layout.pageAt_eq]
    exact hframes g (List.mem_append_right _ hg)

theorem perm (h : Grown k k' new frames) (hp : frames.Perm more) : Grown k k' new more where
  globals := by
    rw [← Pmm.setBits_congr fun _ => hp.mem_iff]
    exact h.globals
  fresh := fun f hf => h.fresh f (hp.mem_iff.mpr hf)
  nodup := hp.nodup h.nodup
  mem := fun b hb hframes => h.mem b hb fun f hf => hframes f (hp.mem_iff.mp hf)

theorem enter_grown (hi : i < 512) (hf : f < k.pmm.pageCount) (hfree : k.pmm.used f = false) :
    Grown k (enter k new i f e) new [f] where
  globals := rfl
  fresh := fun g hg => by
    obtain rfl := List.mem_singleton.mp hg
    exact ⟨hf, hfree⟩
  nodup := List.nodup_singleton f
  mem := fun b hb hframes => enter_mem hi hb (hframes f (.head _))

/-- A turn of the loop adds the page of the entry and what is below it. -/
theorem step (h : Grown k k' new frames) (hi : i < 512) (hf : f < k.pmm.pageCount)
    (hfree : k'.pmm.used f = false) (hsub : Grown (enter k' new i f e) k₃ (pageAt k f) more) :
    Grown k k₃ new (frames ++ (more ++ [f])) := by
  have henter := h.trans (enter_grown hi (h.layout.pageCount ▸ hf) hfree (e := e)) (.inl rfl)
  have hall := henter.trans hsub (.inr ⟨f, List.mem_append_right _ (.head _), rfl⟩)
  rw [List.append_assoc] at hall
  exact hall.perm (List.perm_append_comm.append_left frames)

end Grown

/-! ## `recursive_pagemap_clone` -/

/-- The entry `i` of `new` is a copy. -/
abbrev EntryCloned (k k' : Kernel Pmm) (level curr new i : Nat) : Prop :=
  (tableEntry k.mem curr i = 0 → tableEntry k'.mem new i = 0) ∧
  (tableEntry k.mem curr i ≠ 0 → ∃ f < k.pmm.pageCount,
    tableEntry k'.mem new i = setEntryIndex (tableEntry k.mem curr i) f ∧
      Cloned k k' level (getNextPageTable k curr i) (pageAt k f))

/-- The state before the tree at `curr` is copied to the table `new`. -/
structure Clonable (k : Kernel Pmm) (level curr new : Nat) : Prop where
  direct : DirectMap k
  null : k.pmm.used 0 = true
  plain : Plain k level curr
  source : ∀ b, TreeBytes k level curr b → UsedByte k b ∧ ¬InPage new b
  target : UsedPage k new
  zero : ∀ i < 512, i < levelEntries level → tableEntry k.mem new i = 0
  enough : (framesBelow k level curr).length ≤ k.pmm.freePages.card

structure ClonedTo (k k' : Kernel Pmm) (level curr new : Nat) : Prop where
  grown : Grown k k' new (framesBelow k' level new)
  cloned : Cloned k k' level curr new
  spent : k'.pmm.freePages.card + (framesBelow k level curr).length = k.pmm.freePages.card

/-- Before turn `i` the entries before `i` are copied and the others are zero. -/
structure Cloning (k : Kernel Pmm) (level curr new i : Nat) (k' : Kernel Pmm) : Prop where
  grown : Grown k k' new (framesBefore k' level new i)
  cloned : ∀ j < i, j < levelEntries (level + 1) → EntryCloned k k' level curr new j
  rest : ∀ j, i ≤ j → j < levelEntries (level + 1) → tableEntry k'.mem new j = 0
  spent : k'.pmm.freePages.card + (framesBefore k level curr i).length = k.pmm.freePages.card

theorem entryFrames_congr {k k' : Kernel Pmm} {level t i : Nat} (D : DirectMap k) (L : SameLayout k k')
    (hentry : tableEntry k'.mem t i = tableEntry k.mem t i)
    (hbelow : tableEntry k.mem t i ≠ 0 → Plain k level (getNextPageTable k t i) ∧
      ByteMemory.AgreeOn (TreeBytes k level (getNextPageTable k t i)) k.mem k'.mem) :
    entryFrames k' level t i = entryFrames k level t i := by
  have hnext : getNextPageTable k' t i = getNextPageTable k t i := by
    rw [getNextPageTable, getNextPageTable, entryTable, entryTable, hentry, L.offset]
  rw [entryFrames, entryFrames, hentry, hnext]
  split
  · rfl
  · rename_i hne
    obtain ⟨P, hagree⟩ := hbelow hne
    rw [(P.sameTables D hagree).framesBelow_eq L.offset]

theorem length_framesBefore_le {k : Kernel Pmm} {level t i n : Nat} (h : i ≤ n) :
    (framesBefore k level t i).length ≤ (framesBefore k level t n).length := by
  obtain ⟨d, rfl⟩ := Nat.exists_eq_add_of_le h
  rw [framesBefore, framesBefore, List.range_add, List.flatMap_append, List.length_append]
  exact Nat.le_add_right _ _

namespace Cloning
variable {k k₁ k₃ : Kernel Pmm} {level curr new i f b : Nat}

theorem init (C : Clonable k (level + 1) curr new) : Cloning k level curr new 0 k where
  grown := Grown.refl
  cloned := fun _ hj => absurd hj (Nat.not_lt_zero _)
  rest := fun j _ hj => C.zero j (Nat.lt_of_lt_of_le hj levelEntries_le) hj
  spent := rfl

theorem skip (h : Cloning k level curr new i k₁) (hi : i < levelEntries (level + 1))
    (hzero : tableEntry k.mem curr i = 0) : Cloning k level curr new (i + 1) k₁ where
  grown := by
    rw [framesBefore_succ, if_pos (h.rest i (Nat.le_refl i) hi), List.append_nil]
    exact h.grown
  cloned := fun j hj hj' => by
    rcases Nat.lt_succ_iff_lt_or_eq.mp hj with hj | rfl
    · exact h.cloned j hj hj'
    · exact ⟨fun _ => h.rest j (Nat.le_refl j) hi, fun hne => absurd hzero hne⟩
  rest := fun j hj => h.rest j (Nat.le_of_succ_le hj)
  spent := by
    rw [framesBefore_succ, if_pos hzero, List.append_nil]
    exact h.spent

theorem layout_enter {e : Nat} (h : Cloning k level curr new i k₁) :
    SameLayout k (Grown.enter k₁ new i f e) := h.grown.layout.trans Grown.enter_layout

/-- The pages that are left are enough for the turn. -/
theorem enough (h : Cloning k level curr new i k₁) (C : Clonable k (level + 1) curr new)
    (hi : i < levelEntries (level + 1)) (hne : tableEntry k.mem curr i ≠ 0) :
    (framesBelow k level (getNextPageTable k curr i)).length + 1 ≤ k₁.pmm.freePages.card := by
  have hle : (framesBefore k level curr (i + 1)).length ≤ (framesBelow k (level + 1) curr).length :=
    length_framesBefore_le hi
  have henough := C.enough
  have hspent := h.spent
  rw [framesBefore_succ, if_neg hne, List.length_append, List.length_append, List.length_singleton] at hle
  omega

section Step
variable (C : Clonable k (level + 1) curr new) (h : Cloning k level curr new i k₁)
  (hi : i < levelEntries (level + 1)) (hne : tableEntry k.mem curr i ≠ 0) (hf : f < k.pmm.pageCount)
  (hfree : k₁.pmm.used f = false)
include C h hi hfree

/-- The source is as it was. -/
theorem agree_enter {e : Nat} : ByteMemory.AgreeOn (TreeBytes k (level + 1) curr) k.mem
    (Grown.enter k₁ new i f e).mem := by
  intro b hb
  obtain ⟨hused, hnew⟩ := C.source b hb
  have hbf := (h.grown.usedByte hused).not_inPage hfree
  rw [Grown.enter_mem (Nat.lt_of_lt_of_le hi levelEntries_le) hnew hbf, h.grown.keep hused hnew]

include hne hf

theorem clonable {e : Nat} : Clonable (Grown.enter k₁ new i f e) level (getNextPageTable k curr i)
    (pageAt k f) := by
  have hi' : i < 512 := Nat.lt_of_lt_of_le hi levelEntries_le
  have L := h.layout_enter (f := f) (e := e)
  have hagree := h.agree_enter C hi hfree (e := e)
  have P := (C.plain i hi hne).2.2.2
  have hsame : SameTables k (Grown.enter k₁ new i f e) level (getNextPageTable k curr i) :=
    P.sameTables C.direct (hagree.mono fun b => C.plain.treeBytes C.direct hi hne)
  have hpage := h.grown.layout.pageAt_eq
  have hf' : f < k₁.pmm.pageCount := h.grown.layout.pageCount ▸ hf
  have hkeep : ∀ {b}, UsedByte k b → UsedByte (Grown.enter k₁ new i f e) b ∧ ¬InPage (pageAt k f) b := by
    intro b hb
    have hb₁ := h.grown.usedByte hb
    exact ⟨Grown.enter_usedByte hb₁, hpage f ▸ hb₁.not_inPage hfree⟩
  refine ⟨L.direct C.direct, Grown.enter_used (h.grown.used C.null), hsame.plain L P, fun b hb => ?_, ?_,
    fun j hj _ => ?_, ?_⟩
  · have hb := (hsame.treeBytes_iff L).mp hb
    exact hkeep (C.source b (C.plain.treeBytes C.direct hi hne hb)).1
  · exact ⟨f, by rwa [L.pageCount], Pmm.used_setBits_of_mem (.head _) hf', (L.pageAt_eq f).symm⟩
  · have hset : ∀ b, InPage (pageAt k f) b → (Grown.enter k₁ new i f e).mem b =
        k₁.mem.fill (pageAt k₁ f) 0 regularPageSize b := fun b hb =>
      setTableEntry_of_not_inPage hi' fun hnew => (hkeep (C.target.usedByte hnew)).2 hb
    rw [tableEntry_congr hj hset, hpage]
    exact tableEntry_fill_self hj
  · rw [hsame.framesBelow_eq L.offset]
    have hcard := Grown.enter_card new i e hf' hfree
    have henough := h.enough C hi hne
    omega

/-- One turn of the loop. -/
theorem step {e : Nat} (he : e = setEntryIndex (tableEntry k.mem curr i) f)
    (hsub : ClonedTo (Grown.enter k₁ new i f e) k₃ level (getNextPageTable k curr i) (pageAt k f)) :
    Cloning k level curr new (i + 1) k₃ := by
  have hi' : i < 512 := Nat.lt_of_lt_of_le hi levelEntries_le
  have hpage := h.grown.layout.pageAt_eq
  have L := h.layout_enter (f := f) (e := e)
  have L₃ := L.trans hsub.grown.layout
  have htarget : ∀ {b}, InPage new b → UsedByte k b := C.target.usedByte
  -- The turn writes the entry `i` of `new` and pages that were free.
  have hkeep : ∀ {b}, UsedByte k₁ b → k₃.mem b = (Grown.enter k₁ new i f e).mem b := fun hb =>
    hsub.grown.keep (Grown.enter_usedByte hb) (hpage f ▸ hb.not_inPage hfree)
  have hentry : ∀ j < 512, tableEntry k₃.mem new j = if j = i then e else tableEntry k₁.mem new j := by
    intro j hj
    rw [tableEntry_congr hj fun b hb => hkeep (h.grown.usedByte (htarget hb))]
    split
    · rename_i hji
      subst hji
      exact tableEntry_set_self (he ▸ setEntryIndex_lt tableEntry_lt)
    · rename_i hji
      refine (tableEntry_set_of_ne (.inl rfl) hi' hj (.inr hji)).trans (tableEntry_congr hj fun b hb => ?_)
      rw [ByteMemory.fill_apply]
      exact if_neg ((h.grown.usedByte (htarget hb)).not_inPage hfree)
  have hframe : ∀ g ∈ framesBefore k₁ level new i, ∀ b, InPage (pageAt k₁ g) b → k₃.mem b = k₁.mem b := by
    intro g hg b hb
    obtain ⟨hlt, hunused⟩ := h.grown.fresh g hg
    have hused : k₁.pmm.used g = true := by
      rw [h.grown.pmm]
      exact Pmm.used_setBits_of_mem hg hlt
    have hb₁ : UsedByte k₁ b := ⟨g, h.grown.layout.pageCount ▸ hlt, hused, hb⟩
    rw [hpage] at hb
    rw [hkeep hb₁, Grown.enter_mem hi' (fun hnew => (htarget hnew).not_inPage hunused hb)
      (hb₁.not_inPage hfree)]
  have hold : ∀ j < i, ∀ g < k.pmm.pageCount, tableEntry k.mem curr j ≠ 0 →
      tableEntry k₁.mem new j = setEntryIndex (tableEntry k.mem curr j) g →
      Cloned k k₁ level (getNextPageTable k curr j) (pageAt k g) →
      Plain k₁ level (pageAt k g) ∧ ByteMemory.AgreeOn (TreeBytes k₁ level (pageAt k g)) k₁.mem k₃.mem := by
    intro j hj g hg hne hcopy hc
    have hj' : j < levelEntries (level + 1) := Nat.lt_trans hj hi
    obtain ⟨hindex, hnext⟩ := Cloned.next_eq C.direct h.grown.layout hg hcopy
    have hne' : tableEntry k₁.mem new j ≠ 0 := hcopy ▸ setEntryIndex_ne_zero (C.plain j hj' hne).1
    refine ⟨hc.plain C.direct h.grown.layout (C.plain j hj' hne).2.2.2, fun b hb => ?_⟩
    obtain ⟨g', hg', hb⟩ := treeBytes_next hne' (by rw [hnext, hindex, hpage]) (hnext.symm ▸ hb)
    exact hframe g' (List.mem_flatMap.mpr ⟨j, List.mem_range.mpr hj, hg'⟩) b hb
  have hentry' : ∀ j < i, tableEntry k₃.mem new j = tableEntry k₁.mem new j := fun j hj => by
    rw [hentry j (by omega), if_neg (Nat.ne_of_lt hj)]
  have hbefore : framesBefore k₃ level new i = framesBefore k₁ level new i := by
    refine List.flatMap_congr fun j hj => ?_
    have hj := List.mem_range.mp hj
    refine entryFrames_congr (h.grown.layout.direct C.direct) (h.grown.layout.symm.trans L₃) (hentry' j hj)
      fun hne' => ?_
    have hcloned := h.cloned j hj (Nat.lt_trans hj hi)
    obtain ⟨g, hg, hcopy, hc⟩ := hcloned.2 (mt hcloned.1 hne')
    rw [(Cloned.next_eq C.direct h.grown.layout hg hcopy).2]
    exact hold j hj g hg (mt hcloned.1 hne') hcopy hc
  have hself : tableEntry k₃.mem new i = setEntryIndex (tableEntry k.mem curr i) f := by
    rw [hentry i hi', if_pos rfl, he]
  have hagree := h.agree_enter C hi hfree (e := e)
  have P := (C.plain i hi hne).2.2.2
  have hbelow := hagree.mono fun b => C.plain.treeBytes C.direct hi hne (b := b)
  have hsame : SameTables k (Grown.enter k₁ new i f e) level (getNextPageTable k curr i) :=
    P.sameTables C.direct hbelow
  refine ⟨?_, fun j hj hj' => ?_, fun j hj hj' => ?_, ?_⟩
  · obtain ⟨hindex, hnext⟩ := Cloned.next_eq C.direct L₃ hf hself
    rw [framesBefore_succ, hbefore, hnext, hindex,
      if_neg (hself ▸ setEntryIndex_ne_zero (C.plain i hi hne).1)]
    exact h.grown.step hi' hf hfree hsub.grown
  · rcases Nat.lt_succ_iff_lt_or_eq.mp hj with hj | rfl
    · rw [EntryCloned, hentry' j hj]
      refine ⟨(h.cloned j hj hj').1, fun hne => ?_⟩
      obtain ⟨g, hg, hcopy, hc⟩ := (h.cloned j hj hj').2 hne
      exact ⟨g, hg, hcopy, hc.congr C.direct h.grown.layout .refl (C.plain j hj' hne).2.2.2 .refl
        (hold j hj g hg hne hcopy hc).2⟩
    · refine ⟨fun hzero => absurd hzero hne, fun _ => ⟨f, hf, hself, ?_⟩⟩
      refine hsub.cloned.congr (L.direct C.direct) hsub.grown.layout L.symm (hsame.plain L P) ?_ .refl
      intro b hb
      exact (hbelow b ((hsame.treeBytes_iff L).mp hb)).symm
  · rw [hentry j (Nat.lt_of_lt_of_le hj' levelEntries_le), if_neg (Nat.ne_of_gt hj)]
    exact h.rest j (Nat.le_of_succ_le hj) hj'
  · have hspent := hsub.spent
    have hcard := Grown.enter_card new i e (h.grown.layout.pageCount ▸ hf) hfree
    have hbefore' := h.spent
    rw [hsame.framesBelow_eq L.offset] at hspent
    rw [framesBefore_succ, if_neg hne, List.length_append, List.length_append, List.length_singleton]
    omega

end Step

end Cloning

section Clone
variable {k k₁ : Kernel Pmm} {level curr new i f : Nat}

/-- What a turn of the loop does below an entry: the recursive call, or the copy of a page. -/
def cloneBelow (level : Nat) (k : Kernel Pmm) (curr new : Nat) : Exec (Kernel Pmm) :=
  if level ≠ 0 then recursivePagemapClone level k curr new
  else .ok { k with mem := k.mem.copy new curr regularPageSize }

/-- One turn of the loop over the entries of a table. -/
def cloneTurn (level curr new : Nat) (k : Kernel Pmm) (i : Nat) : Exec (Kernel Pmm) := do
  let entry := tableEntry k.mem curr i
  if entry = 0 then return k
  kernelAssert (entryPresent entry) "Page table entry should be present if it is non-zero"
  kernelAssert (¬entryHugePage entry) "Huge pages are not supported"
  let (newPagePhys, pmm) ← pmmAllocPage k.pmm
  let newPageHhdm := vmmPhysToVirtHhdm k newPagePhys
  let mem := k.mem.fill newPageHhdm 0 regularPageSize
  let mem := setTableEntry mem new i (tableEntry mem curr i)
  let mem := setTableEntry mem new i (setEntryIndex (tableEntry mem new i) (newPagePhys / 2 ^ 12))
  let k := { k with mem, pmm }
  if level + 1 ≠ 1 then
    recursivePagemapClone level k (getNextPageTable k curr i) (getNextPageTable k new i)
  else
    let originalPagePhys := u64 (entryIndex (tableEntry k.mem curr i) * 2 ^ 12)
    let originalPageHhdm := vmmPhysToVirtHhdm k originalPagePhys
    return { k with mem := k.mem.copy newPageHhdm originalPageHhdm regularPageSize }

theorem recursivePagemapClone_succ : recursivePagemapClone (level + 1) k curr new =
    (List.range (levelEntries (level + 1))).foldlM (cloneTurn level curr new) k := by
  rw [recursivePagemapClone]
  rfl

/-- The page of the entry is taken and linked, then the copy goes on below it. -/
theorem cloneTurn_eq (level new : Nat) (D : DirectMap k) (hi : i < 512) (hf : f < k.pmm.pageCount)
    (hcurr : ∀ b, InPage curr b → ¬InPage new b ∧ ¬InPage (pageAt k f) b) {raw : Nat}
    (hraw : tableEntry k.mem curr i = raw) :
    (do
      let newPageHhdm := vmmPhysToVirtHhdm k (f * regularPageSize)
      let mem := k.mem.fill newPageHhdm 0 regularPageSize
      let mem := setTableEntry mem new i (tableEntry mem curr i)
      let mem := setTableEntry mem new i
        (setEntryIndex (tableEntry mem new i) (f * regularPageSize / 2 ^ 12))
      let k := { k with mem, pmm := k.pmm.setBits [f] true }
      if level + 1 ≠ 1 then
        recursivePagemapClone level k (getNextPageTable k curr i) (getNextPageTable k new i)
      else
        let originalPagePhys := u64 (entryIndex (tableEntry k.mem curr i) * 2 ^ 12)
        let originalPageHhdm := vmmPhysToVirtHhdm k originalPagePhys
        return { k with mem := k.mem.copy newPageHhdm originalPageHhdm regularPageSize } : Exec (Kernel Pmm)) =
      cloneBelow level (Grown.enter k new i f (setEntryIndex raw f)) (getNextPageTable k curr i)
        (pageAt k f) := by
  have hpage : vmmPhysToVirtHhdm k (f * regularPageSize) = pageAt k f := D.u64_pageAt hf
  have hfill : tableEntry (k.mem.fill (pageAt k f) 0 regularPageSize) curr i = raw := by
    rw [← hraw]
    refine tableEntry_congr hi fun b hb => ?_
    rw [ByteMemory.fill_apply]
    exact if_neg (hcurr b hb).2
  have hraw' : raw < 2 ^ 64 := hraw ▸ tableEntry_lt
  have hentry : tableEntry (Grown.enter k new i f (setEntryIndex raw f)).mem curr i = raw := by
    rw [← hraw]
    exact tableEntry_congr hi fun b hb => Grown.enter_mem hi (hcurr b hb).1 (hcurr b hb).2
  have hnext : getNextPageTable (Grown.enter k new i f (setEntryIndex raw f)) curr i =
      getNextPageTable k curr i := by
    rw [getNextPageTable, getNextPageTable, hentry, hraw]
    rfl
  have hself : tableEntry (Grown.enter k new i f (setEntryIndex raw f)).mem new i = setEntryIndex raw f :=
    tableEntry_set_self (setEntryIndex_lt hraw')
  have hnew : getNextPageTable (Grown.enter k new i f (setEntryIndex raw f)) new i = pageAt k f := by
    rw [getNextPageTable, entryTable, hself, entryIndex_setEntryIndex (Nat.lt_of_lt_of_le hf D.count)]
    exact D.u64_pageAt hf
  have hphys : vmmPhysToVirtHhdm (Grown.enter k new i f (setEntryIndex raw f)) (u64 (entryIndex raw * 2 ^ 12)) =
      getNextPageTable k curr i := by
    change u64 (u64 _ + k.gHhdmOffset) = _
    rw [getNextPageTable, hraw, entryTable]
    unfold u64
    omega
  have hindex : f * regularPageSize / 2 ^ 12 = f := Nat.mul_div_cancel f (by decide)
  have hmem : setTableEntry (setTableEntry (k.mem.fill (pageAt k f) 0 regularPageSize) new i raw) new i
      (setEntryIndex raw f) = (Grown.enter k new i f (setEntryIndex raw f)).mem := ByteMemory.store_store
  dsimp only
  rw [hpage, hfill, tableEntry_set_self hraw', hindex, hmem]
  change (if level + 1 ≠ 1 then recursivePagemapClone level (Grown.enter k new i f (setEntryIndex raw f))
    (getNextPageTable (Grown.enter k new i f (setEntryIndex raw f)) curr i)
    (getNextPageTable (Grown.enter k new i f (setEntryIndex raw f)) new i) else _) = _
  rw [hnext, hnew, hentry]
  rw [cloneBelow]
  by_cases hlevel : level = 0
  · rw [if_neg (by simp [hlevel]), if_neg (by simp [hlevel]), hphys]
    rfl
  · rw [if_pos (by simpa using hlevel), if_pos hlevel]

/-- The tree at `curr` is copied to `new`. -/
theorem cloneBelow_spec (C : Clonable k level curr new) :
    ∃ k', cloneBelow level k curr new = .ok k' ∧ ClonedTo k k' level curr new := by
  induction level generalizing k curr new with
  | zero =>
    have hapart : new + regularPageSize ≤ curr ∨ curr + regularPageSize ≤ new := by
      have hcurr := fun hb => (C.source new (.inl hb)).2
      have hnew := fun hb => (C.source curr (.inl hb)).2
      simp only [InPage, regularPageSize] at hcurr hnew ⊢
      omega
    refine ⟨_, if_neg (by simp), ⟨rfl, by simp [framesBelow], List.nodup_nil, fun b hb _ => ?_⟩,
      fun j hj => ByteMemory.copy_of_disjoint hapart hj, rfl⟩
    exact ByteMemory.copy_of_outside (by simp only [InPage] at hb; omega)
  | succ level ih =>
    have hstep : ∀ i k₁, i < levelEntries (level + 1) → Cloning k level curr new i k₁ →
        ∃ k₂, cloneTurn level curr new k₁ i = .ok k₂ ∧ Cloning k level curr new (i + 1) k₂ := by
      intro i k₁ hi h
      have hi' : i < 512 := Nat.lt_of_lt_of_le hi levelEntries_le
      have hsource : ∀ b, InPage curr b → UsedByte k b ∧ ¬InPage new b := fun b hb => C.source b (.inl hb)
      have hentry : tableEntry k₁.mem curr i = tableEntry k.mem curr i :=
        tableEntry_congr hi' fun b hb => h.grown.keep (hsource b hb).1 (hsource b hb).2
      dsimp only [cloneTurn]
      by_cases hzero : tableEntry k.mem curr i = 0
      · rw [hentry, if_pos hzero]
        exact ⟨k₁, rfl, h.skip hi hzero⟩
      · obtain ⟨hpresent, hhuge, -, -⟩ := C.plain i hi hzero
        have D₁ := h.grown.layout.direct C.direct
        obtain ⟨f, hfree, -, halloc⟩ := pmmAllocPage_total (p := k₁.pmm)
          (Nat.le_trans D₁.count (by decide)) (h.grown.used C.null)
          (Finset.card_pos.mp (by have := h.enough C hi hzero; omega))
        obtain ⟨hf₁, hfree⟩ := Pmm.mem_freePages.mp hfree
        have hf : f < k.pmm.pageCount := h.grown.layout.pageCount ▸ hf₁
        have hnext : getNextPageTable k₁ curr i = getNextPageTable k curr i := by
          rw [getNextPageTable, getNextPageTable, entryTable, entryTable, hentry, h.grown.layout.offset]
        obtain ⟨k₃, hbelow, hcloned⟩ := ih (h.clonable C hi hzero hf hfree
          (e := setEntryIndex (tableEntry k.mem curr i) f))
        refine ⟨k₃, ?_, h.step C hi hzero hf hfree rfl hcloned⟩
        have hturn := cloneTurn_eq level new D₁ hi' hf₁ (fun b hb =>
          ⟨(hsource b hb).2, (h.grown.usedByte (hsource b hb).1).not_inPage hfree⟩) hentry
        rw [hnext, h.grown.layout.pageAt_eq, hbelow] at hturn
        have hhuge' : ¬entryHugePage (tableEntry k.mem curr i) = true := by rw [hhuge]; decide
        rw [hentry, if_neg hzero, kernelAssert_ok hpresent, Exec.ok_bind, kernelAssert_ok hhuge', Exec.ok_bind,
          halloc, Exec.ok_bind]
        exact hturn
    rw [cloneBelow, if_pos (Nat.succ_ne_zero level), recursivePagemapClone_succ]
    exact (Exec.foldlM_range_total hstep (.init C)).imp fun k' h => ⟨h.1, h.2.grown, fun i hi => h.2.cloned i hi hi,
      h.2.spent⟩

end Clone

/-! ## `vmm_clone_pagemap` -/

/-- The tables and pages of the lower half are pages in use. -/
structure AddressTree (k : Kernel Pmm) (root : Nat) : Prop where
  direct : DirectMap k
  lt : root < k.pmm.pageCount
  held : k.pmm.used root = true
  plain : Plain k 4 (pageAt k root)
  used : ∀ f ∈ framesBelow k 4 (pageAt k root), k.pmm.used f = true

section Pagemap
variable {k k' : Kernel Pmm} {root f b i : Nat}

theorem AddressTree.usedByte (T : AddressTree k root) (hb : TreeBytes k 4 (pageAt k root) b) :
    UsedByte k b := by
  rcases hb with hb | ⟨f, hf, hb⟩
  · exact ⟨root, T.lt, T.held, hb⟩
  · exact ⟨f, T.plain.frame_lt hf, T.used f hf, hb⟩

theorem newPagemap_mem (D : DirectMap k) (hf : f < k.pmm.pageCount) (hb : ¬InPage (pageAt k f) b) :
    (newPagemap k f).mem b = k.mem b := by
  have hword := D.word
  have hle := Nat.mul_le_mul_right regularPageSize (show f + 1 ≤ k.pmm.pageCount from hf)
  have hlt : pageAt k f + regularPageSize / 2 < 2 ^ 64 := by
    simp only [pageAt, regularPageSize] at hle hword ⊢
    omega
  change ByteMemory.fill _ _ _ _ b = _
  rw [ByteMemory.fill_apply, if_neg (by simp only [InPage, regularPageSize] at hb ⊢; omega), u64_of_lt hlt]
  exact ByteMemory.copy_of_outside (by simp only [InPage, regularPageSize] at hb ⊢; omega)

theorem newPagemap_layout : SameLayout k (newPagemap k f) := ⟨rfl, Pmm.setBits_pageCount, rfl⟩

theorem newPagemap_entry (hi : i < 256) : tableEntry (newPagemap k f).mem (pageAt k f) i = 0 :=
  ByteMemory.load_fill_zero (by simp only [regularPageSize]; omega)

/-- After `vmm_create_new_pagemap` everything is ready for the copy. -/
theorem AddressTree.clonable (T : AddressTree k root) (hnull : k.pmm.used 0 = true)
    (henough : (framesBelow k 4 (pageAt k root)).length + 1 ≤ k.pmm.freePages.card)
    (hf : f < k.pmm.pageCount) (hfree : k.pmm.used f = false) :
    SameTables k (newPagemap k f) 4 (pageAt k root) ∧
      Clonable (newPagemap k f) 4 (pageAt k root) (pageAt k f) := by
  have L : SameLayout k (newPagemap k f) := newPagemap_layout
  have hsource : ∀ b, TreeBytes k 4 (pageAt k root) b → ¬InPage (pageAt k f) b := fun b hb =>
    (T.usedByte hb).not_inPage hfree
  have hsame : SameTables k (newPagemap k f) 4 (pageAt k root) :=
    T.plain.sameTables T.direct fun b hb => newPagemap_mem T.direct hf (hsource b hb)
  have hused : ∀ {g}, k.pmm.used g = true → (newPagemap k f).pmm.used g = true := by
    intro g hg
    change (k.pmm.setBits [f] true).used g = true
    rw [Pmm.used_setBits]
    split
    · rfl
    · exact hg
  refine ⟨hsame, L.direct T.direct, hused hnull, hsame.plain L T.plain, fun b hb => ?_, ?_, fun i _ hi => ?_, ?_⟩
  · have hb := (hsame.treeBytes_iff L).mp hb
    obtain ⟨g, hg, hgused, hgb⟩ := T.usedByte hb
    exact ⟨⟨g, L.pageCount ▸ hg, hused hgused, hgb⟩, hsource b hb⟩
  · exact ⟨f, L.pageCount ▸ hf, Pmm.used_setBits_of_mem (.head _) hf, rfl⟩
  · exact newPagemap_entry hi
  · rw [hsame.framesBelow_eq L.offset]
    have hcard : (newPagemap k f).pmm.freePages.card + 1 = k.pmm.freePages.card := by
      rw [Pmm.freePages_setBits_true]
      exact Finset.card_erase_add_one (Pmm.mem_freePages.mpr ⟨hf, hfree⟩)
    omega

theorem vmmClonePagemap_spec (T : AddressTree k root) (hnull : k.pmm.used 0 = true)
    (henough : (framesBelow k 4 (pageAt k root)).length + 1 ≤ k.pmm.freePages.card) :
    ∃ f k', vmmClonePagemap k (pageAt k root) = .ok (pageAt k f, k') ∧ f < k.pmm.pageCount ∧
      Grown k k' (pageAt k f) (framesBelow k' 4 (pageAt k f) ++ [f]) ∧
      Cloned k k' 4 (pageAt k root) (pageAt k f) := by
  obtain ⟨_, k₁, hcreate, -⟩ := PagesLeft.vmmCreateNewPagemap_total (k := k) (n := 0)
    ⟨T.direct, hnull, by omega⟩
  obtain ⟨f, hf, hfree, rfl, rfl⟩ := vmmCreateNewPagemap_ok T.direct hcreate
  have L : SameLayout k (newPagemap k f) := newPagemap_layout
  obtain ⟨hsame, C⟩ := T.clonable hnull henough hf hfree
  obtain ⟨k', hclone, hcloned⟩ := cloneBelow_spec C
  rw [cloneBelow, if_pos (by decide)] at hclone
  have hcreated : Grown k (newPagemap k f) (pageAt k f) [f] := by
    refine ⟨rfl, fun g hg => ?_, List.nodup_singleton f, fun b hb _ => newPagemap_mem T.direct hf hb⟩
    obtain rfl := List.mem_singleton.mp hg
    exact ⟨hf, hfree⟩
  refine ⟨f, k', ?_, hf, (hcreated.trans hcloned.grown (.inl rfl)).perm List.perm_append_comm, ?_⟩
  · rw [vmmClonePagemap, hcreate, Exec.ok_bind]
    dsimp only
    rw [hclone, Exec.ok_bind, Exec.pure_eq_ok]
  · refine hcloned.cloned.congr C.direct hcloned.grown.layout L.symm C.plain (fun b hb => ?_) .refl
    have hb := (hsame.treeBytes_iff L).mp hb
    exact (newPagemap_mem T.direct hf ((T.usedByte hb).not_inPage hfree)).symm

end Pagemap

/-! ## What the copy maps -/

/-- The entries on the way to `vaddr`, from the table `t` down to the first that is zero. -/
def pathEntries (k : Kernel Pmm) (vaddr : Nat) : (level t : Nat) → List Nat
  | 0, _ => []
  | level + 1, t =>
    let entry := tableEntry k.mem t (virtualAddrIndex vaddr (level + 1))
    if entry = 0 then []
    else entry :: pathEntries k vaddr level (getNextPageTable k t (virtualAddrIndex vaddr (level + 1)))

/-- In `k'` the page of `vaddr` is mapped by `new` as it is in `k` by `curr`: to a page with the same
contents, through entries with the same attributes. -/
structure MappedAlike (k k' : Kernel Pmm) (curr new vaddr : Nat) : Prop where
  entries : (pathEntries k' vaddr 4 new).map entryAttributes = (pathEntries k vaddr 4 curr).map entryAttributes
  mapped : translate k' new vaddr = none ↔ translate k curr vaddr = none
  contents : ∀ m m', translate k curr vaddr = some m → translate k' new vaddr = some m' →
    m'.writable = m.writable ∧ m'.userAccess = m.userAccess ∧
      ∀ j < regularPageSize, k'.mem (pageAt k' m'.frame + j) = k.mem (pageAt k m.frame + j)

section Walk
variable {k k' : Kernel Pmm} {level curr new v root : Nat}

theorem virtualAddrIndex_lt_levelEntries (level : Nat) (hv : v < 2 ^ 47) : virtualAddrIndex v level < levelEntries level := by
  unfold levelEntries
  split
  · rename_i h
    subst h
    simp only [virtualAddrIndex, regularPageSize]
    omega
  · exact virtualAddrIndex_lt

theorem Cloned.attributes_eq (D : DirectMap k) (L : SameLayout k k') (hv : v < 2 ^ 47)
    (P : Plain k level curr) (h : Cloned k k' level curr new) :
    (pathEntries k' v level new).map entryAttributes = (pathEntries k v level curr).map entryAttributes := by
  induction level generalizing curr new with
  | zero => rfl
  | succ level ih =>
    have hi := virtualAddrIndex_lt_levelEntries (level + 1) hv
    obtain ⟨hzero, hcopy⟩ := h _ hi
    rw [pathEntries, pathEntries]
    by_cases hne : tableEntry k.mem curr (virtualAddrIndex v (level + 1)) = 0
    · rw [if_pos hne, if_pos (hzero hne)]
    · obtain ⟨hpresent, -, -, P'⟩ := P _ hi hne
      obtain ⟨f, hf, he, hsub⟩ := hcopy hne
      rw [if_neg hne, if_neg (he ▸ setEntryIndex_ne_zero hpresent), (next_eq D L hf he).2, List.map_cons,
        List.map_cons, he, entryAttributes_setEntryIndex, ih P' hsub]

theorem pageWalk_of_zero {t : Nat} (h : tableEntry k.mem t (virtualAddrIndex v (level + 1)) = 0) :
    pageWalk k v (level + 1) t = none := by
  rw [pageWalk, h]
  rfl

theorem pageWalk_last {t : Nat} (h : entryPresent (tableEntry k.mem t (virtualAddrIndex v 1)) = true) :
    pageWalk k v 1 t = entryMapping (tableEntry k.mem t (virtualAddrIndex v 1)) := by
  have hne : tableEntry k.mem t (virtualAddrIndex v 1) ≠ 0 := by
    intro hzero
    rw [hzero] at h
    cases h
  rw [pageWalk, entryMapping, if_neg hne]
  exact (if_neg (not_not.mpr h)).trans (if_pos rfl)

theorem pageWalk_inner {t : Nat}
    (h : entryPresent (tableEntry k.mem t (virtualAddrIndex v (level + 2))) = true)
    (hhuge : entryHugePage (tableEntry k.mem t (virtualAddrIndex v (level + 2))) = false) :
    pageWalk k v (level + 2) t =
      (pageWalk k v (level + 1) (getNextPageTable k t (virtualAddrIndex v (level + 2)))).map fun r =>
        ⟨r.frame, r.writable && entryWritable (tableEntry k.mem t (virtualAddrIndex v (level + 2))),
          r.userAccess && entryUserAccess (tableEntry k.mem t (virtualAddrIndex v (level + 2)))⟩ := by
  rw [pageWalk]
  dsimp only
  rw [if_neg (not_not.mpr h), if_neg (Nat.succ_ne_zero level), if_neg (by rw [hhuge]; decide)]
  rfl

theorem Cloned.walk (D : DirectMap k) (L : SameLayout k k') (hv : v < 2 ^ 47)
    (P : Plain k (level + 1) curr) (h : Cloned k k' (level + 1) curr new) :
    (pageWalk k v (level + 1) curr = none ∧ pageWalk k' v (level + 1) new = none) ∨
      ∃ m f, pageWalk k v (level + 1) curr = some m ∧ pageWalk k' v (level + 1) new = some { m with frame := f } ∧
        ∀ j < regularPageSize, k'.mem (pageAt k f + j) = k.mem (pageAt k m.frame + j) := by
  have hi : ∀ {l}, virtualAddrIndex v l < levelEntries l := virtualAddrIndex_lt_levelEntries _ hv
  induction level generalizing curr new with
  | zero =>
    obtain ⟨hzero, hcopy⟩ := h (virtualAddrIndex v 1) hi
    by_cases hne : tableEntry k.mem curr (virtualAddrIndex v 1) = 0
    · exact .inl ⟨pageWalk_of_zero hne, pageWalk_of_zero (hzero hne)⟩
    · obtain ⟨hpresent, -, hlt, -⟩ := P _ hi hne
      obtain ⟨f, hf, he, hsub⟩ := hcopy hne
      rw [P.next_eq D hi hne] at hsub
      rw [pageWalk_last hpresent, pageWalk_last (by rw [he, entryPresent_setEntryIndex, hpresent]), he,
        entryMapping, entryMapping, if_neg hne, if_neg (setEntryIndex_ne_zero hpresent),
        entryIndex_setEntryIndex (Nat.lt_of_lt_of_le hf D.count), entryWritable_setEntryIndex,
        entryUserAccess_setEntryIndex]
      exact .inr ⟨_, f, rfl, rfl, hsub⟩
  | succ level ih =>
    obtain ⟨hzero, hcopy⟩ := h (virtualAddrIndex v (level + 2)) hi
    by_cases hne : tableEntry k.mem curr (virtualAddrIndex v (level + 2)) = 0
    · exact .inl ⟨pageWalk_of_zero hne, pageWalk_of_zero (hzero hne)⟩
    · obtain ⟨hpresent, hhuge, hlt, P'⟩ := P _ hi hne
      obtain ⟨f, hf, he, hsub⟩ := hcopy hne
      rw [pageWalk_inner hpresent hhuge,
        pageWalk_inner (by rw [he, entryPresent_setEntryIndex, hpresent])
          (by rw [he, entryHugePage_setEntryIndex, hhuge]),
        (next_eq D L hf he).2, he, entryWritable_setEntryIndex, entryUserAccess_setEntryIndex]
      rcases ih P' hsub with ⟨hnone, hnone'⟩ | ⟨m, f', hsome, hsome', hcontents⟩
      · rw [hnone, hnone']
        exact .inl ⟨rfl, rfl⟩
      · rw [hsome, hsome']
        exact .inr ⟨_, f', rfl, rfl, hcontents⟩

theorem Cloned.mappedAlike (D : DirectMap k) (L : SameLayout k k') (hv : v < 2 ^ 47)
    (P : Plain k 4 curr) (h : Cloned k k' 4 curr new) : MappedAlike k k' curr new v := by
  have hwalk := h.walk D L hv P
  rw [← translate, ← translate] at hwalk
  refine ⟨h.attributes_eq D L hv P, ?_, fun m m' hm hm' => ?_⟩
  · rcases hwalk with ⟨hnone, hnone'⟩ | ⟨m, f, hsome, hsome', -⟩
    · rw [hnone, hnone']
    · simp only [hsome, hsome', reduceCtorEq]
  · rcases hwalk with ⟨hnone, -⟩ | ⟨m₁, f, hsome, hsome', hcontents⟩
    · rw [hnone] at hm
      cases hm
    · obtain rfl := Option.some.inj (hsome.symm.trans hm)
      obtain rfl := Option.some.inj (hsome'.symm.trans hm')
      exact ⟨rfl, rfl, fun j hj => by rw [L.pageAt_eq]; exact hcontents j hj⟩

/-- The copy maps the same pages with the same contents, in new pages, and leaves its source alone. -/
theorem vmmClonePagemap_copies (T : AddressTree k root) (hnull : k.pmm.used 0 = true)
    (henough : (framesBelow k 4 (pageAt k root)).length + 1 ≤ k.pmm.freePages.card) :
    ∃ f k', vmmClonePagemap k (pageAt k root) = .ok (pageAt k f, k') ∧
      (∀ v < 2 ^ 47, MappedAlike k k' (pageAt k root) (pageAt k f) v) ∧
      (f :: framesBelow k' 4 (pageAt k f)).Nodup ∧
      (∀ g ∈ f :: framesBelow k' 4 (pageAt k f), g < k.pmm.pageCount ∧ k.pmm.used g = false ∧
        k'.pmm.used g = true ∧ g ∉ root :: framesBelow k 4 (pageAt k root)) ∧
      ∀ b, TreeBytes k 4 (pageAt k root) b → k'.mem b = k.mem b := by
  obtain ⟨f, k', hclone, hf, hgrown, hcloned⟩ := vmmClonePagemap_spec T hnull henough
  have hperm := List.perm_append_singleton f (framesBelow k' 4 (pageAt k f))
  refine ⟨f, k', hclone, fun v hv => hcloned.mappedAlike T.direct hgrown.layout hv T.plain,
    hperm.nodup hgrown.nodup, fun g hg => ?_, fun b hb => ?_⟩
  · have hg := hperm.mem_iff.mpr hg
    obtain ⟨hlt, hunused⟩ := hgrown.fresh g hg
    refine ⟨hlt, hunused, by rw [hgrown.pmm, Pmm.used_setBits_of_mem hg hlt], fun hmem => ?_⟩
    have hused : k.pmm.used g = true := by
      rcases List.mem_cons.mp hmem with rfl | hmem
      · exact T.held
      · exact T.used g hmem
    rw [hunused] at hused
    cases hused
  · exact hgrown.keep (T.usedByte hb) ((T.usedByte hb).not_inPage (hgrown.fresh f (by simp)).2)

/-- An address space with one page in sixteen pages of memory, of which the first six are used. -/
def sixteenPages : Kernel Pmm where
  mem := fun b =>
    -- The first entry of each of the pages 1, …, 4 refers to the page after it.
    if 1 < b % 4096 then 0
    else if b / 4096 = 0 ∨ 5 ≤ b / 4096 then 0
    else if b % 4096 = 0 then 7
    else BitVec.ofNat 8 (16 * (b / 4096 + 1))
  cr3 := 0x1000
  pmm := ⟨⟨16, 0, [0x3f, 0], rfl⟩, 0⟩
  gHhdmOffset := 0
  gSuperBlocks := 0
  gFreeBlocks := 0
  gFreeBlockTail := 0

theorem framesBelow_sixteenPages : framesBelow sixteenPages 4 (pageAt sixteenPages 1) = [5, 4, 3, 2] := by
  decide +kernel

theorem addressTree_sixteenPages : AddressTree sixteenPages 1 where
  direct := ⟨rfl, by decide, by decide⟩
  lt := by decide
  held := by decide
  plain := by decide +kernel
  used := by
    rw [framesBelow_sixteenPages]
    decide

theorem vmmClonePagemap_copies_sixteenPages : AddressTree sixteenPages 1 ∧
    ∃ f k', vmmClonePagemap sixteenPages (pageAt sixteenPages 1) = .ok (pageAt sixteenPages f, k') ∧
      ∀ v < 2 ^ 47, MappedAlike sixteenPages k' (pageAt sixteenPages 1) (pageAt sixteenPages f) v := by
  obtain ⟨f, k', hclone, hmapped, -⟩ := vmmClonePagemap_copies addressTree_sixteenPages (by decide)
    (by rw [framesBelow_sixteenPages]; decide)
  exact ⟨addressTree_sixteenPages, f, k', hclone, hmapped⟩

/-- Deletion clears the bits of the pages of the address space, each once, and deletion of a copy
restores the bitmap. -/
theorem vmmDeletePagemap_exact {k : Kernel Pmm} {root : Nat} (T : AddressTree k root)
    (hnodup : (root :: framesBelow k 4 (pageAt k root)).Nodup) :
    (∃ pages k', vmmDeletedPages k (pageAt k root) = .ok (pages, k') ∧
      vmmDeletePagemap k (pageAt k root) = .ok k' ∧ pages.Nodup ∧
      (∀ p, p ∈ pages ↔ ∃ f ∈ root :: framesBelow k 4 (pageAt k root), p = pageAt k f) ∧
      ∀ f, k'.pmm.used f =
        if f ∈ root :: framesBelow k 4 (pageAt k root) then false else k.pmm.used f) ∧
    (k.pmm.used 0 = true → (framesBelow k 4 (pageAt k root)).length + 1 ≤ k.pmm.freePages.card →
      ∃ new k' k'', vmmClonePagemap k (pageAt k root) = .ok (new, k') ∧
        vmmDeletePagemap k' new = .ok k'' ∧ k''.pmm = k.pmm) := by
  refine ⟨?_, fun hnull henough => ?_⟩
  · have hperm := List.perm_append_singleton root (framesBelow k 4 (pageAt k root))
    obtain ⟨k', hdelete, hfreed⟩ := vmmDeletedPages_spec (T.plain.treeIn T.direct T.lt hnodup) T.lt
    refine ⟨_, k', hdelete, map_vmmDeletedPages.symm.trans (Exec.map_eq_ok.mpr ⟨_, hdelete, rfl⟩), ?_, fun p => ?_,
      fun f => ?_⟩
    · exact (hperm.symm.nodup hnodup).map fun f g h => pageAt_inj h
    · simp only [List.mem_map, hperm.mem_iff, eq_comm]
    · rw [hfreed.pmm, Pmm.used_setBits]
      have hlt : f ∈ root :: framesBelow k 4 (pageAt k root) → f < k.pmm.pageCount := by
        intro hf
        rcases List.mem_cons.mp hf with rfl | hf
        · exact T.lt
        · exact T.plain.frame_lt hf
      simp only [hperm.mem_iff, and_iff_left_of_imp hlt]
  · obtain ⟨f, k', hclone, hf, hgrown, hcloned⟩ := vmmClonePagemap_spec T hnull henough
    have hpage : pageAt k f = pageAt k' f := (hgrown.layout.pageAt_eq f).symm
    have P := hcloned.plain T.direct hgrown.layout T.plain
    have hnodup' := (List.perm_append_singleton f _).nodup hgrown.nodup
    rw [hpage] at P hnodup'
    have hf' : f < k'.pmm.pageCount := hgrown.layout.pageCount ▸ hf
    obtain ⟨k'', hdelete, hfreed⟩ := vmmDeletePagemap_spec (P.treeIn (hgrown.layout.direct T.direct) hf' hnodup') hf'
    refine ⟨pageAt k f, k', k'', hclone, by rw [hpage]; exact hdelete, ?_⟩
    rw [hfreed.pmm, hgrown.pmm, hpage]
    refine Pmm.setBits_false_true fun g hg => ?_
    rw [← hpage] at hg
    exact (hgrown.fresh g hg).2

theorem vmmDeletePagemap_exact_sixteenPages : AddressTree sixteenPages 1 ∧
    ∃ new k' k'', vmmClonePagemap sixteenPages (pageAt sixteenPages 1) = .ok (new, k') ∧
      vmmDeletePagemap k' new = .ok k'' ∧ k''.pmm = sixteenPages.pmm :=
  ⟨addressTree_sixteenPages, (vmmDeletePagemap_exact addressTree_sixteenPages
    (by rw [framesBelow_sixteenPages]; decide)).2 (by decide) (by rw [framesBelow_sixteenPages]; decide)⟩

end Walk

end TrazelOs
