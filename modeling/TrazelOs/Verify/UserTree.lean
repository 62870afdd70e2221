import TrazelOs.Verify.PageClone

/-! # Trees of page tables that own their pages

The lower half of a pagemap as a tree: no page occurs twice in it, all its pages are in use, and the
entries of the inner tables grant everything, so that a last-level entry decides. `vmm_map_page` adds
one page and the missing tables to the tree, and of the memory in use it changes one table only. -/

namespace TrazelOs

open Theory (follow follow_congr UniquePaths)

/-- The entries of the inner tables are writable and user-accessible. -/
def Granting (k : Kernel Pmm) : (level t : Nat) → Prop
  | 0, _ => True
  | 1, _ => True
  | level + 2, t => ∀ i < levelEntries (level + 2), tableEntry k.mem t i ≠ 0 →
    entryWritable (tableEntry k.mem t i) = true ∧ entryUserAccess (tableEntry k.mem t i) = true ∧
      Granting k (level + 1) (getNextPageTable k t i)

/-- The pages at and below the entries other than `i`. -/
def otherFrames (k : Kernel Pmm) (level t i : Nat) : List Nat :=
  ((List.range (levelEntries (level + 1))).erase i).flatMap (entryFrames k level t)

section Frames
variable {k k' : Kernel Pmm} {level t t' i j f : Nat}

theorem framesBelow_perm (hi : i < levelEntries (level + 1)) :
    (framesBelow k (level + 1) t).Perm (entryFrames k level t i ++ otherFrames k level t i) :=
  (List.perm_cons_erase (List.mem_range.mpr hi)).flatMap_right _

theorem otherFrames_congr (h : ∀ j < levelEntries (level + 1), j ≠ i →
    entryFrames k' level t j = entryFrames k level t j) :
    otherFrames k' level t i = otherFrames k level t i := by
  refine List.flatMap_congr fun j hj => ?_
  obtain ⟨hne, hj⟩ := List.nodup_range.mem_erase_iff.mp hj
  exact h j (List.mem_range.mp hj) hne

theorem mem_otherFrames (hj : j < levelEntries (level + 1)) (hne : j ≠ i)
    (hf : f ∈ entryFrames k level t j) : f ∈ otherFrames k level t i :=
  List.mem_flatMap.mpr ⟨j, List.nodup_range.mem_erase_iff.mpr ⟨hne, List.mem_range.mpr hj⟩, hf⟩

/-- Where no page occurs twice, no page is below two entries. -/
theorem entryFrames_disjoint (h : (framesBelow k (level + 1) t).Nodup)
    (hi : i < levelEntries (level + 1)) (hj : j < levelEntries (level + 1)) (hne : j ≠ i) :
    (entryFrames k level t i).Disjoint (entryFrames k level t j) := by
  intro f hf hf'
  have hnodup := (framesBelow_perm hi).nodup_iff.mp h
  exact List.disjoint_of_nodup_append hnodup hf (mem_otherFrames hj hne hf')

section Empty
variable (h : ∀ i < levelEntries (level + 1), tableEntry k.mem t i = 0)
include h

theorem framesBelow_of_zero : framesBelow k (level + 1) t = [] :=
  List.flatMap_eq_nil_iff.mpr fun i hi => if_pos (h i (List.mem_range.mp hi))

theorem subTable_of_zero (ht : SubTable k (level + 1) t t') : t' = t := by
  rcases ht with rfl | ⟨i, hi, hne, -⟩
  · rfl
  · exact absurd (h i hi) hne

theorem plain_of_zero : Plain k (level + 1) t := fun i hi hne => absurd (h i hi) hne

theorem granting_of_zero : Granting k (level + 1) t := by
  cases level with
  | zero => trivial
  | succ level => exact fun i hi hne => absurd (h i hi) hne

end Empty

theorem SameTables.granting (h : SameTables k k' level t) (hoffset : k'.gHhdmOffset = k.gHhdmOffset)
    (G : Granting k level t) : Granting k' level t := by
  induction level generalizing t with
  | zero => trivial
  | succ level ih =>
    cases level with
    | zero => trivial
    | succ level =>
      intro i hi hne
      rw [h.entry hi] at hne ⊢
      obtain ⟨hwritable, huser, G'⟩ := G i hi hne
      rw [h.next hoffset hi]
      exact ⟨hwritable, huser, ih (h.below hi hne) G'⟩

theorem SameTables.pageWalk_eq {v : Nat} (h : SameTables k k' level t)
    (hoffset : k'.gHhdmOffset = k.gHhdmOffset) (hv : v < 2 ^ 47) :
    pageWalk k' v level t = pageWalk k v level t := by
  induction level generalizing t with
  | zero => rfl
  | succ level ih =>
    have hi := virtualAddrIndex_lt_levelEntries (level + 1) hv
    have hnext := h.next hoffset hi
    rw [getNextPageTable, getNextPageTable, h.entry hi] at hnext
    simp only [pageWalk, h.entry hi, hnext]
    by_cases hzero : tableEntry k.mem t (virtualAddrIndex v (level + 1)) = 0
    · rw [hzero]
      rfl
    · rw [← getNextPageTable, ih (h.below hi hzero)]

end Frames

/-- The table in page `g` and the tables below it, as a tree of `level` levels. -/
structure UserTree (k : Kernel Pmm) (level g : Nat) : Prop where
  direct : DirectMap k
  lt : g < k.pmm.pageCount
  held : k.pmm.used g = true
  plain : Plain k level (pageAt k g)
  granting : Granting k level (pageAt k g)
  used : ∀ f ∈ framesBelow k level (pageAt k g), k.pmm.used f = true
  nodup : (g :: framesBelow k level (pageAt k g)).Nodup

namespace UserTree
variable {k k' : Kernel Pmm} {level g t i j f b : Nat}

theorem addressTree (T : UserTree k 4 g) : AddressTree k g :=
  ⟨T.direct, T.lt, T.held, T.plain, T.used⟩

theorem frame_lt (T : UserTree k level g) (hf : f ∈ g :: framesBelow k level (pageAt k g)) :
    f < k.pmm.pageCount := by
  rcases List.mem_cons.mp hf with rfl | hf
  · exact T.lt
  · exact T.plain.frame_lt hf

theorem frame_used (T : UserTree k level g) (hf : f ∈ g :: framesBelow k level (pageAt k g)) :
    k.pmm.used f = true := by
  rcases List.mem_cons.mp hf with rfl | hf
  · exact T.held
  · exact T.used f hf

/-- A table of the tree is one of its pages. -/
theorem subTable (T : UserTree k level g) (h : SubTable k level (pageAt k g) t) :
    ∃ f ∈ g :: framesBelow k level (pageAt k g), t = pageAt k f := by
  rcases T.plain.subTable T.direct h with rfl | ⟨f, hf, rfl⟩
  · exact ⟨g, .head _, rfl⟩
  · exact ⟨f, .tail _ hf, rfl⟩

section Below
variable (T : UserTree k (level + 1) g) (hi : i < levelEntries (level + 1))
  (hne : tableEntry k.mem (pageAt k g) i ≠ 0)
include T hi hne

theorem next_eq : getNextPageTable k (pageAt k g) i =
    pageAt k (entryIndex (tableEntry k.mem (pageAt k g) i)) := T.plain.next_eq T.direct hi hne

/-- The pages below an entry are the page it refers to and those below that. -/
theorem mem_entryFrames_iff : f ∈ entryFrames k level (pageAt k g) i ↔
    f ∈ entryIndex (tableEntry k.mem (pageAt k g) i) ::
      framesBelow k level (pageAt k (entryIndex (tableEntry k.mem (pageAt k g) i))) := by
  rw [mem_entryFrames hne, T.next_eq hi hne, List.mem_cons, or_comm]

end Below

theorem below (T : UserTree k (level + 2) g) (hi : i < levelEntries (level + 2))
    (hne : tableEntry k.mem (pageAt k g) i ≠ 0) :
    UserTree k (level + 1) (entryIndex (tableEntry k.mem (pageAt k g) i)) := by
  have hnext := T.next_eq hi hne
  obtain ⟨-, -, hlt, P⟩ := T.plain i hi hne
  have G := (T.granting i hi hne).2.2
  rw [hnext] at P G
  have hsub : ∀ f ∈ entryIndex (tableEntry k.mem (pageAt k g) i) ::
      framesBelow k (level + 1) (pageAt k (entryIndex (tableEntry k.mem (pageAt k g) i))),
      k.pmm.used f = true := fun f hf =>
    T.used f (mem_framesBelow hi ((T.mem_entryFrames_iff hi hne).mpr hf))
  have hnodup := (List.nodup_flatMap.mp (List.nodup_cons.mp T.nodup).2).1 i (List.mem_range.mpr hi)
  rw [if_neg hne, hnext] at hnodup
  exact ⟨T.direct, hlt, hsub _ (.head _), P, G, fun f hf => hsub f (.tail _ hf),
    (List.perm_append_singleton _ _).nodup_iff.mp hnodup⟩

/-- A tree whose tables are left alone stays. -/
theorem congr (T : UserTree k level g) (L : SameLayout k k')
    (hmem : ∀ t, SubTable k level (pageAt k g) t → ∀ b, InPage t b → k'.mem b = k.mem b)
    (hused : ∀ f ∈ g :: framesBelow k level (pageAt k g), k'.pmm.used f = true) :
    UserTree k' level g ∧ framesBelow k' level (pageAt k g) = framesBelow k level (pageAt k g) := by
  have hsame : SameTables k k' level (pageAt k g) := fun t ht i hi => tableEntry_congr hi (hmem t ht)
  have hframes := hsame.framesBelow_eq L.offset
  refine ⟨⟨L.direct T.direct, L.pageCount ▸ T.lt, hused g (.head _), ?_, ?_, ?_, ?_⟩, hframes⟩
  · rw [L.pageAt_eq]
    exact hsame.plain L T.plain
  · rw [L.pageAt_eq]
    exact hsame.granting L.offset T.granting
  · rw [L.pageAt_eq, hframes]
    exact fun f hf => hused f (.tail _ hf)
  · rw [L.pageAt_eq, hframes]
    exact T.nodup

end UserTree

theorem UserTree.translate_congr {k k' : Kernel Pmm} {g v : Nat} (L : SameLayout k k')
    (hmem : ∀ t, SubTable k 4 (pageAt k g) t → ∀ b, InPage t b → k'.mem b = k.mem b) (hv : v < 2 ^ 47) :
    translate k' (pageAt k g) v = translate k (pageAt k g) v := by
  have hsame : SameTables k k' 4 (pageAt k g) := fun t ht i hi => tableEntry_congr hi (hmem t ht)
  exact hsame.pageWalk_eq L.offset hv

/-- A new pagemap. -/
theorem UserTree.create {k : Kernel Pmm} {f : Nat} (D : DirectMap k) (hf : f < k.pmm.pageCount) :
    UserTree (newPagemap k f) 4 f ∧ framesBelow (newPagemap k f) 4 (pageAt k f) = [] := by
  have hempty : ∀ i < levelEntries 4, tableEntry (newPagemap k f).mem (pageAt k f) i = 0 := fun i hi =>
    newPagemap_entry hi
  have hframes := framesBelow_of_zero hempty
  refine ⟨⟨newPagemap_layout.direct D, hf.trans_eq Pmm.setBits_pageCount.symm, ?_, plain_of_zero hempty,
    granting_of_zero hempty, fun f' hf' => ?_, ?_⟩, hframes⟩
  · exact Pmm.used_setBits_of_mem (.head _) hf
  · rw [newPagemap_layout.pageAt_eq, hframes] at hf'
    cases hf'
  · rw [newPagemap_layout.pageAt_eq, hframes]
    exact List.nodup_singleton f

/-! ## The paths of a tree -/

/-- The labels of a path to a table, from a table of the given level. -/
def TablePath : List Nat → (level : Nat) → Prop
  | [], level => 1 ≤ level
  | _ :: _, 0 => False
  | i :: p, level + 1 => i < levelEntries (level + 1) ∧ TablePath p level

theorem TablePath.exists_level {i level : Nat} {p : List Nat} (h : TablePath (i :: p) level) :
    ∃ n, level = n + 2 := by
  obtain _ | _ | level := level
  · cases h
  · cases p <;> exact absurd h.2 (by simp [TablePath])
  · exact ⟨level, rfl⟩

theorem LowerPath.tablePath {p : List Nat} (h : LowerPath p) : TablePath p 4 := by
  have hlength := h.length
  have hindex := h.index
  have hlower := h.lower
  obtain _ | ⟨i, _ | ⟨j, _ | ⟨l, _ | _⟩⟩⟩ := p
  · exact Nat.le_add_left 1 3
  · exact ⟨hlower i rfl, Nat.le_add_left 1 2⟩
  · exact ⟨hlower i rfl, hindex j (by simp), Nat.le_add_left 1 1⟩
  · exact ⟨hlower i rfl, hindex j (by simp), hindex l (by simp), Nat.le_refl 1⟩
  · simp only [List.length_cons] at hlength
    omega

namespace UserTree
variable {k : Kernel Pmm} {level g t i : Nat} {p q : List Nat}

theorem follow_cons (T : UserTree k (level + 1) g) (hi : i < levelEntries (level + 1))
    (ht : tableAt k (pageAt k g) (i :: p) = some t) : tableEntry k.mem (pageAt k g) i ≠ 0 ∧
      tableAt k (pageAt k (entryIndex (tableEntry k.mem (pageAt k g) i))) p = some t := by
  obtain ⟨t₁, hnext, ht⟩ := Option.bind_eq_some_iff.mp ht
  have hne : tableEntry k.mem (pageAt k g) i ≠ 0 := by
    intro hzero
    rw [childTable, if_pos hzero] at hnext
    cases hnext
  rw [childTable, if_neg hne, T.next_eq hi hne] at hnext
  cases hnext
  exact ⟨hne, ht⟩

/-- A path leads to the tree of a page. -/
theorem follow_path (T : UserTree k level g) (hp : TablePath p level)
    (ht : tableAt k (pageAt k g) p = some t) :
    ∃ f, t = pageAt k f ∧ UserTree k (level - p.length) f ∧ p.length < level ∧
      (p = [] ∧ f = g ∨ p ≠ [] ∧ f ∈ framesBelow k level (pageAt k g)) := by
  induction p generalizing level g with
  | nil =>
    cases ht
    exact ⟨g, rfl, T, hp, .inl ⟨rfl, rfl⟩⟩
  | cons i p ih =>
    obtain ⟨level, rfl⟩ := hp.exists_level
    obtain ⟨hi, hp⟩ := hp
    obtain ⟨hne, ht⟩ := T.follow_cons hi ht
    obtain ⟨f, rfl, Tf, hlt, hf⟩ := ih (T.below hi hne) hp ht
    refine ⟨f, rfl, ?_, ?_, .inr ⟨List.cons_ne_nil _ _, mem_framesBelow hi ?_⟩⟩
    · rwa [List.length_cons, Nat.add_sub_add_right (m := p.length) (k := 1)]
    · rw [List.length_cons]
      omega
    · rw [T.mem_entryFrames_iff hi hne]
      rcases hf with ⟨-, rfl⟩ | ⟨-, hf⟩
      · exact .head _
      · exact .tail _ hf

theorem path_mem (T : UserTree k (level + 1) g) (hi : i < levelEntries (level + 1))
    (hp : TablePath p level) (ht : tableAt k (pageAt k g) (i :: p) = some t) :
    ∃ f ∈ entryFrames k level (pageAt k g) i, t = pageAt k f := by
  have hpath : TablePath (i :: p) (level + 1) := ⟨hi, hp⟩
  obtain ⟨n, heq⟩ := hpath.exists_level
  obtain rfl := Nat.succ.inj heq
  obtain ⟨hne, ht⟩ := T.follow_cons hi ht
  obtain ⟨f, rfl, -, -, hf⟩ := (T.below hi hne).follow_path hp ht
  refine ⟨f, (T.mem_entryFrames_iff hi hne).mpr ?_, rfl⟩
  rcases hf with ⟨-, rfl⟩ | ⟨-, hf⟩
  · exact .head _
  · exact .tail _ hf

theorem path_root (T : UserTree k level g) (hp : TablePath p level)
    (ht : tableAt k (pageAt k g) p = some (pageAt k g)) : p = [] := by
  obtain ⟨f, heq, -, -, ⟨hnil, -⟩ | ⟨-, hf⟩⟩ := T.follow_path hp ht
  · exact hnil
  · obtain rfl := pageAt_inj heq
    exact absurd hf (List.nodup_cons.mp T.nodup).1

/-- No two paths lead to one table. -/
theorem path_unique (T : UserTree k level g) (hp : TablePath p level) (hq : TablePath q level)
    (hpt : tableAt k (pageAt k g) p = some t) (hqt : tableAt k (pageAt k g) q = some t) : p = q := by
  induction p generalizing level g q with
  | nil =>
    cases hpt
    exact (T.path_root hq hqt).symm
  | cons i p ih =>
    cases q with
    | nil =>
      cases hqt
      exact T.path_root hp hpt
    | cons j q =>
      obtain ⟨level, rfl⟩ := hp.exists_level
      obtain ⟨hi, hp⟩ := hp
      obtain ⟨hj, hq⟩ := hq
      by_cases hij : j = i
      · subst hij
        obtain ⟨hne, hpt⟩ := T.follow_cons hi hpt
        obtain ⟨-, hqt⟩ := T.follow_cons hi hqt
        rw [ih (T.below hi hne) hp hq hpt hqt]
      · obtain ⟨f, hf, rfl⟩ := T.path_mem hi hp hpt
        obtain ⟨f', hf', heq⟩ := T.path_mem hj hq hqt
        obtain rfl := pageAt_inj heq
        exact (entryFrames_disjoint (List.nodup_cons.mp T.nodup).2 hi hj hij hf hf').elim

/-- The tree of a whole pagemap. -/
theorem pagemapInv (T : UserTree k 4 g) : PagemapInv k (pageAt k g) where
  direct := T.direct
  used p t hp ht := by
    obtain ⟨f, rfl, Tf, -, -⟩ := T.follow_path hp.tablePath ht
    exact ⟨f, Tf.lt, Tf.held, rfl⟩
  unique p q t hp hq hpt hqt := T.path_unique hp.tablePath hq.tablePath hpt hqt
  inner p i t hp ht hne := by
    have hp' := hp.of_part (List.prefix_append p [i])
    obtain ⟨f, rfl, Tf, -, -⟩ := T.follow_path hp'.tablePath ht
    have hlength := hp.length
    rw [List.length_append, List.length_singleton] at hlength
    obtain ⟨level, hlevel⟩ : ∃ n, 4 - p.length = n + 2 := ⟨2 - p.length, by omega⟩
    rw [hlevel] at Tf
    have hi : i < levelEntries (level + 2) := by
      cases p with
      | nil =>
        obtain rfl : level = 2 := by
          simp only [List.length_nil] at hlevel
          omega
        exact hp.lower i rfl
      | cons j p =>
        have hne4 : level + 2 ≠ 4 := by
          simp only [List.length_cons] at hlevel
          omega
        rw [levelEntries, if_neg hne4]
        exact hp.index i (by simp)
    obtain ⟨hpresent, hhuge, -, -⟩ := Tf.plain i hi hne
    obtain ⟨hwritable, huser, -⟩ := Tf.granting i hi hne
    exact ⟨hpresent, hwritable, huser, hhuge⟩
  leaf p i t hp hlength hi ht hne := by
    obtain ⟨f, rfl, Tf, -, -⟩ := T.follow_path hp.tablePath ht
    rw [hlength] at Tf
    exact (Tf.plain i hi hne).1

end UserTree

/-! ## Adding a page -/

/-- Below the table `t` the page `frame` takes the place of the pages `old`, with the new tables `new`
on the way to it; the pages `rest` stay. -/
structure Mapped (k k' : Kernel Pmm) (level t frame : Nat) (old new rest : List Nat) : Prop where
  grown : ∃ t', SubTable k level t t' ∧ Grown k k' t' new
  plain : Plain k' level t
  granting : Granting k' level t
  before : (framesBelow k level t).Perm (old ++ rest)
  after : (framesBelow k' level t).Perm (frame :: (new ++ rest))
  tables : ∀ t', SubTable k' level t t' → SubTable k level t t' ∨ ∃ f ∈ new, t' = pageAt k f

theorem perm_entry {below rest others : List Nat} {f : Nat} (old : List Nat)
    (h : below.Perm (old ++ rest)) : (below ++ [f] ++ others).Perm (old ++ f :: (rest ++ others)) := by
  refine ((h.append_right [f]).append_right others).trans ?_
  simp only [List.append_assoc, List.singleton_append]
  exact List.perm_middle.append_left old

namespace UserTree
variable {k k' : Kernel Pmm} {level g i f frame raw : Nat} {old new rest : List Nat}

/-- The pages of the tree that are not below the entry `i`. -/
theorem mem_of_other (T : UserTree k (level + 1) g) (hi : i < levelEntries (level + 1))
    (hf : f ∈ g :: otherFrames k level (pageAt k g) i) :
    f ∈ g :: framesBelow k (level + 1) (pageAt k g) ∧ f ∉ entryFrames k level (pageAt k g) i := by
  have hperm := (framesBelow_perm (k := k) (t := pageAt k g) hi).cons g
  have hnodup := List.nodup_cons.mp (hperm.nodup_iff.mp T.nodup)
  refine ⟨?_, fun hbelow => ?_⟩
  · rw [hperm.mem_iff]
    exact List.cons_subset_cons g (List.subset_append_right _ _) hf
  · rcases List.mem_cons.mp hf with rfl | hf
    · exact hnodup.1 (List.mem_append_left _ hbelow)
    · exact List.disjoint_of_nodup_append hnodup.2 hbelow hf

section Update
variable (T : UserTree k (level + 1) g) (L : SameLayout k k') (hi : i < levelEntries (level + 1))
  (hentry : ∀ j < 512, j ≠ i → tableEntry k'.mem (pageAt k g) j = tableEntry k.mem (pageAt k g) j)
  (hkeep : ∀ f ∈ otherFrames k level (pageAt k g) i, ∀ b, InPage (pageAt k f) b → k'.mem b = k.mem b)
include T L hentry hkeep

/-- The trees below the other entries are as before. -/
theorem others {j : Nat} (hj : j < levelEntries (level + 1)) (hji : j ≠ i) :
    tableEntry k'.mem (pageAt k g) j = tableEntry k.mem (pageAt k g) j ∧
      getNextPageTable k' (pageAt k g) j = getNextPageTable k (pageAt k g) j ∧
      (tableEntry k.mem (pageAt k g) j ≠ 0 →
        SameTables k k' level (getNextPageTable k (pageAt k g) j)) := by
  have hsame := hentry j (Nat.lt_of_lt_of_le hj levelEntries_le) hji
  refine ⟨hsame, ?_, fun hne t ht n hn => tableEntry_congr hn ?_⟩
  · rw [getNextPageTable, getNextPageTable, entryTable, entryTable, hsame, L.offset]
  · obtain ⟨f, hf, rfl⟩ : ∃ f ∈ entryFrames k level (pageAt k g) j, t = pageAt k f := by
      rcases (T.plain j hj hne).2.2.2.subTable T.direct ht with rfl | ⟨f, hf, rfl⟩
      · exact ⟨_, (mem_entryFrames hne).mpr (.inr rfl), T.next_eq hj hne⟩
      · exact ⟨f, (mem_entryFrames hne).mpr (.inl hf), rfl⟩
    exact hkeep f (mem_otherFrames hj hji hf)

theorem updated_plain (hplain : tableEntry k'.mem (pageAt k g) i ≠ 0 →
      entryPresent (tableEntry k'.mem (pageAt k g) i) = true ∧
      entryHugePage (tableEntry k'.mem (pageAt k g) i) = false ∧
      entryIndex (tableEntry k'.mem (pageAt k g) i) < k'.pmm.pageCount ∧
      Plain k' level (getNextPageTable k' (pageAt k g) i)) : Plain k' (level + 1) (pageAt k g) := by
  intro j hj hne
  by_cases hji : j = i
  · subst hji
    exact hplain hne
  · obtain ⟨hsame, hnext, htables⟩ := T.others L hentry hkeep hj hji
    rw [hsame] at hne ⊢
    obtain ⟨hpresent, hhuge, hlt, P⟩ := T.plain j hj hne
    rw [hnext, L.pageCount]
    exact ⟨hpresent, hhuge, hlt, (htables hne).plain L P⟩

include hi

theorem updated_perm : (framesBelow k' (level + 1) (pageAt k g)).Perm
    (entryFrames k' level (pageAt k g) i ++ otherFrames k level (pageAt k g) i) := by
  refine (framesBelow_perm hi).trans ?_
  rw [otherFrames_congr fun j hj hji => ?_]
  obtain ⟨hsame, hnext, htables⟩ := T.others L hentry hkeep hj hji
  rw [entryFrames, entryFrames, hsame, hnext]
  split
  · rfl
  · rw [(htables ‹_›).framesBelow_eq L.offset]

theorem updated_tables {t : Nat} (ht : SubTable k' (level + 1) (pageAt k g) t) :
    SubTable k (level + 1) (pageAt k g) t ∨ tableEntry k'.mem (pageAt k g) i ≠ 0 ∧
      SubTable k' level (getNextPageTable k' (pageAt k g) i) t := by
  rcases ht with rfl | ⟨j, hj, hne, ht⟩
  · exact .inl (.inl rfl)
  · by_cases hji : j = i
    · subst hji
      exact .inr ⟨hne, ht⟩
    · obtain ⟨hsame, hnext, htables⟩ := T.others L hentry hkeep hj hji
      rw [hsame] at hne
      rw [hnext, (htables hne).subTable_iff L.offset] at ht
      exact .inl (.inr ⟨j, hj, hne, ht⟩)

end Update

theorem updated_granting (T : UserTree k (level + 2) g) (L : SameLayout k k')
    (hentry : ∀ j < 512, j ≠ i → tableEntry k'.mem (pageAt k g) j = tableEntry k.mem (pageAt k g) j)
    (hkeep : ∀ f ∈ otherFrames k (level + 1) (pageAt k g) i, ∀ b, InPage (pageAt k f) b →
      k'.mem b = k.mem b)
    (hgrant : tableEntry k'.mem (pageAt k g) i ≠ 0 →
      entryWritable (tableEntry k'.mem (pageAt k g) i) = true ∧
      entryUserAccess (tableEntry k'.mem (pageAt k g) i) = true ∧
      Granting k' (level + 1) (getNextPageTable k' (pageAt k g) i)) :
    Granting k' (level + 2) (pageAt k g) := by
  intro j hj hne
  by_cases hji : j = i
  · subst hji
    exact hgrant hne
  · obtain ⟨hsame, hnext, htables⟩ := T.others L hentry hkeep hj hji
    rw [hsame] at hne ⊢
    obtain ⟨hwritable, huser, G⟩ := T.granting j hj hne
    rw [hnext]
    exact ⟨hwritable, huser, (htables hne).granting L.offset G⟩

/-- A last-level entry is set. -/
theorem setLeaf (T : UserTree k 1 g) (hi : i < 512) (hraw : raw < 2 ^ 64)
    (hpresent : entryPresent raw = true) (hhuge : entryHugePage raw = false)
    (hlt : entryIndex raw < k.pmm.pageCount) :
    Mapped k (PagemapInv.storeEntry k (pageAt k g) i raw) 1 (pageAt k g) (entryIndex raw)
      (entryFrames k 0 (pageAt k g) i) [] (otherFrames k 0 (pageAt k g) i) := by
  obtain ⟨k', hk'⟩ : ∃ k', PagemapInv.storeEntry k (pageAt k g) i raw = k' := ⟨_, rfl⟩
  have L : SameLayout k k' := hk' ▸ ⟨rfl, rfl, rfl⟩
  have hself : tableEntry k'.mem (pageAt k g) i = raw := hk' ▸ tableEntry_set_self hraw
  have hne : raw ≠ 0 := by
    rintro rfl
    cases hpresent
  have hentry : ∀ j < 512, j ≠ i →
      tableEntry k'.mem (pageAt k g) j = tableEntry k.mem (pageAt k g) j := fun j hj hne =>
    hk' ▸ tableEntry_set_of_ne (.inl rfl) hi hj (.inr hne)
  have hmem : ∀ b, ¬InPage (pageAt k g) b → k'.mem b = k.mem b := fun b hb =>
    hk' ▸ setTableEntry_of_not_inPage hi hb
  have hkeep : ∀ f ∈ otherFrames k 0 (pageAt k g) i, ∀ b, InPage (pageAt k f) b →
      k'.mem b = k.mem b := by
    intro f hf b hb
    refine hmem b fun hb' => ?_
    obtain rfl := inPage_inj hb hb'
    exact (List.nodup_cons.mp T.nodup).1 ((framesBelow_perm hi).mem_iff.mpr (List.mem_append_right _ hf))
  have hgrown : Grown k k' (pageAt k g) [] :=
    ⟨hk' ▸ rfl, by simp, .nil, fun b hb _ => hmem b hb⟩
  rw [hk']
  refine ⟨⟨_, .inl rfl, hgrown⟩, T.updated_plain L hentry hkeep fun _ => ?_, trivial,
    framesBelow_perm hi, ?_, fun t' ht' => ?_⟩
  · rw [hself, L.pageCount]
    exact ⟨hpresent, hhuge, hlt, trivial⟩
  · have hframes : entryFrames k' 0 (pageAt k g) i = [entryIndex raw] := by
      rw [entryFrames, hself, if_neg hne]
      rfl
    have hperm := T.updated_perm L hi hentry hkeep
    rwa [hframes] at hperm
  · rcases T.updated_tables L hi hentry hkeep ht' with ht' | ⟨-, ht'⟩
    · exact .inl ht'
    · cases ht'

/-- What is done below an entry is done below the table. -/
theorem ascend (T : UserTree k (level + 2) g) (hi : i < levelEntries (level + 2))
    (hne : tableEntry k.mem (pageAt k g) i ≠ 0)
    (h : Mapped k k' (level + 1) (pageAt k (entryIndex (tableEntry k.mem (pageAt k g) i))) frame
      old new rest) :
    Mapped k k' (level + 2) (pageAt k g) frame old new
      (entryIndex (tableEntry k.mem (pageAt k g) i) ::
        (rest ++ otherFrames k (level + 1) (pageAt k g) i)) := by
  obtain ⟨t₁, ht₁, G⟩ := h.grown
  have L := G.layout
  have hnext := T.next_eq hi hne
  obtain ⟨f₁, hf₁, rfl⟩ := (T.below hi hne).subTable ht₁
  -- The pages that are not below the entry keep their contents.
  have hkeep : ∀ f ∈ g :: otherFrames k (level + 1) (pageAt k g) i, ∀ b, InPage (pageAt k f) b →
      k'.mem b = k.mem b := by
    intro f hf b hb
    obtain ⟨hmem, hnot⟩ := T.mem_of_other hi hf
    refine G.keep ⟨f, T.frame_lt hmem, T.frame_used hmem, hb⟩ fun hb' => hnot ?_
    obtain rfl := inPage_inj hb hb'
    exact (T.mem_entryFrames_iff hi hne).mpr hf₁
  have hentry : ∀ j < 512, tableEntry k'.mem (pageAt k g) j = tableEntry k.mem (pageAt k g) j :=
    fun j hj => tableEntry_congr hj (hkeep g (.head _))
  have hself := hentry i (Nat.lt_of_lt_of_le hi levelEntries_le)
  have hnext' : getNextPageTable k' (pageAt k g) i =
      pageAt k (entryIndex (tableEntry k.mem (pageAt k g) i)) := by
    rw [← hnext, getNextPageTable, getNextPageTable, entryTable, entryTable, hself, L.offset]
  replace hentry : ∀ j < 512, j ≠ i →
      tableEntry k'.mem (pageAt k g) j = tableEntry k.mem (pageAt k g) j := fun j hj _ => hentry j hj
  replace hkeep := fun f hf => hkeep f (.tail _ hf)
  obtain ⟨hpresent, hhuge, hlt, -⟩ := T.plain i hi hne
  obtain ⟨hwritable, huser, -⟩ := T.granting i hi hne
  refine ⟨⟨_, .inr ⟨i, hi, hne, by rwa [hnext]⟩, G⟩, T.updated_plain L hentry hkeep fun _ => ?_,
    T.updated_granting L hentry hkeep fun _ => ?_, ?_, ?_, fun t' ht' => ?_⟩
  · rw [hself, hnext', L.pageCount]
    exact ⟨hpresent, hhuge, hlt, h.plain⟩
  · rw [hself, hnext']
    exact ⟨hwritable, huser, h.granting⟩
  · refine (framesBelow_perm hi).trans ?_
    rw [entryFrames, if_neg hne, hnext]
    exact perm_entry old h.before
  · refine (T.updated_perm L hi hentry hkeep).trans ?_
    rw [entryFrames, hself, if_neg hne, hnext']
    exact perm_entry (frame :: new) h.after
  · rcases T.updated_tables L hi hentry hkeep ht' with ht' | ⟨-, ht'⟩
    · exact .inl ht'
    · rw [hnext'] at ht'
      rcases h.tables t' ht' with ht' | ht'
      · exact .inl (.inr ⟨i, hi, hne, by rwa [hnext]⟩)
      · exact .inr ht'

/-- The page `f` becomes an empty table, in the entry `i` of the table on the page `g`. -/
abbrev enterTable (k : Kernel Pmm) (g i f : Nat) : Kernel Pmm :=
  Grown.enter k (pageAt k g) i f (makeEntry true true f)

theorem enter_next (D : DirectMap k) (hf : f < k.pmm.pageCount) :
    getNextPageTable (enterTable k g i f) (pageAt k g) i = pageAt k f := by
  rw [getNextPageTable, tableEntry_set_self makeEntry_lt]
  exact D.entryTable_makeEntry hf

section Enter
variable (T : UserTree k (level + 2) g) (hi : i < levelEntries (level + 2))
  (hzero : tableEntry k.mem (pageAt k g) i = 0) (hf : f < k.pmm.pageCount)
  (hfree : k.pmm.used f = false)
include T hi hf hfree

/-- The new table is empty. -/
theorem enter_empty {n j : Nat} (hj : j < levelEntries n) :
    tableEntry (enterTable k g i f).mem (pageAt k f) j = 0 := by
  have hne : g ≠ f := by
    rintro rfl
    exact absurd T.held (by rw [hfree]; decide)
  have hj' := Nat.lt_of_lt_of_le hj levelEntries_le
  refine (tableEntry_set_of_ne (.inr (pagesApart_of_ne hne)) (Nat.lt_of_lt_of_le hi levelEntries_le) hj'
    (.inl fun h => hne (pageAt_inj h).symm)).trans ?_
  exact tableEntry_fill_self hj'

include hzero

/-- A new table is put into the tree. -/
theorem enter : UserTree (enterTable k g i f) (level + 2) g ∧
    (framesBelow (enterTable k g i f) (level + 2) (pageAt k g)).Perm
      (f :: framesBelow k (level + 2) (pageAt k g)) ∧
    ∀ t, SubTable (enterTable k g i f) (level + 2) (pageAt k g) t →
      SubTable k (level + 2) (pageAt k g) t ∨ t = pageAt k f := by
  have hi' : i < 512 := Nat.lt_of_lt_of_le hi levelEntries_le
  have hcount := T.direct.count
  have hfree' : ∀ {f'}, f' ∈ g :: framesBelow k (level + 2) (pageAt k g) → f ≠ f' := by
    rintro f' hf' rfl
    exact absurd (T.frame_used hf') (by rw [hfree]; decide)
  have L : SameLayout k (enterTable k g i f) := Grown.enter_layout
  have hself : tableEntry (enterTable k g i f).mem (pageAt k g) i = makeEntry true true f :=
    tableEntry_set_self makeEntry_lt
  have hnext := enter_next (g := g) (i := i) T.direct hf
  have hempty := fun j hj => T.enter_empty hi hf hfree (n := level + 1) (j := j) hj
  have hbelow : framesBelow (enterTable k g i f) (level + 1) (pageAt k f) = [] :=
    framesBelow_of_zero hempty
  have hindex : entryIndex (makeEntry true true f) = f := entryIndex_makeEntry (by omega)
  have hentry : ∀ j < 512, j ≠ i →
      tableEntry (enterTable k g i f).mem (pageAt k g) j = tableEntry k.mem (pageAt k g) j := by
    intro j hj hji
    refine (tableEntry_set_of_ne (.inl rfl) hi' hj (.inr hji)).trans ?_
    exact tableEntry_fill_of_apart (pagesApart_of_ne (hfree' (.head _))) hj
  have hkeep : ∀ f' ∈ otherFrames k (level + 1) (pageAt k g) i, ∀ b, InPage (pageAt k f') b →
      (enterTable k g i f).mem b = k.mem b := by
    intro f' hf' b hb
    have hmem := (framesBelow_perm hi).mem_iff.mpr (List.mem_append_right _ hf')
    refine Grown.enter_mem hi' (fun hb' => ?_) fun hb' => hfree' (.tail _ hmem) (inPage_inj hb' hb)
    obtain rfl := inPage_inj hb hb'
    exact (List.nodup_cons.mp T.nodup).1 hmem
  have hperm : (framesBelow (enterTable k g i f) (level + 2) (pageAt k g)).Perm
      (f :: framesBelow k (level + 2) (pageAt k g)) := by
    refine (T.updated_perm L hi hentry hkeep).trans ?_
    have hold := framesBelow_perm (k := k) (t := pageAt k g) hi
    rw [entryFrames, if_pos hzero, List.nil_append] at hold
    rw [entryFrames, hself, if_neg makeEntry_ne_zero, hnext, hbelow, hindex]
    exact hold.symm.cons f
  refine ⟨⟨L.direct T.direct, L.pageCount ▸ T.lt, Grown.enter_used T.held, ?_, ?_, ?_, ?_⟩, hperm,
    fun t ht => ?_⟩
  · refine T.updated_plain L hentry hkeep fun _ => ?_
    rw [hself, hnext, hindex, L.pageCount]
    exact ⟨entryPresent_makeEntry, entryHugePage_makeEntry, hf, plain_of_zero hempty⟩
  · refine T.updated_granting L hentry hkeep fun _ => ?_
    rw [hself, hnext]
    exact ⟨entryWritable_makeEntry, entryUserAccess_makeEntry, granting_of_zero hempty⟩
  · intro f' hf'
    rcases List.mem_cons.mp (hperm.mem_iff.mp hf') with rfl | hf'
    · exact Pmm.used_setBits_of_mem (.head _) hf
    · exact Grown.enter_used (T.used f' hf')
  · refine (hperm.cons g).nodup_iff.mpr ((List.Perm.swap f g _).nodup_iff.mpr ?_)
    exact List.nodup_cons.mpr ⟨fun hmem => hfree' hmem rfl, T.nodup⟩
  · rcases T.updated_tables L hi hentry hkeep ht with ht | ⟨-, ht⟩
    · exact .inl ht
    · rw [hnext] at ht
      exact .inr (subTable_of_zero hempty ht)

/-- What is done below a new table. -/
theorem ascend_new {k₁ : Kernel Pmm} (hk₁ : enterTable k g i f = k₁)
    (h : Mapped k₁ k' (level + 1) (pageAt k f) frame old new rest) :
    Mapped k k' (level + 2) (pageAt k g) frame [] (f :: new) (framesBelow k (level + 2) (pageAt k g)) := by
  obtain ⟨T₁, hperm, htables⟩ := T.enter hi hzero hf hfree
  have hempty := fun j hj => T.enter_empty hi hf hfree (n := level + 1) (j := j) hj
  have hcount := T.direct.count
  have hself : tableEntry (enterTable k g i f).mem (pageAt k g) i = makeEntry true true f :=
    tableEntry_set_self makeEntry_lt
  have hindex : entryIndex (makeEntry true true f) = f := entryIndex_makeEntry (by omega)
  have G₁ : Grown k (enterTable k g i f) (pageAt k g) [f] :=
    Grown.enter_grown (Nat.lt_of_lt_of_le hi levelEntries_le) hf hfree
  rw [hk₁] at T₁ hperm htables hempty hself G₁
  have hpage : pageAt k₁ = pageAt k := funext G₁.layout.pageAt_eq
  have hnil := h.before
  rw [framesBelow_of_zero hempty] at hnil
  obtain ⟨rfl, rfl⟩ := List.append_eq_nil_iff.mp hnil.symm.eq_nil
  rw [← hindex, ← hself, ← hpage] at h
  have hmapped := T₁.ascend hi (by rw [hpage, hself]; exact makeEntry_ne_zero) h
  rw [hpage, hself, hindex] at h hmapped
  obtain ⟨t₁, ht₁, G⟩ := h.grown
  obtain rfl := subTable_of_zero hempty ht₁
  have hrest := (hperm.symm.trans hmapped.before).cons_inv
  refine ⟨⟨_, .inl rfl, G₁.trans G (.inr ⟨f, .head _, rfl⟩)⟩, hmapped.plain, hmapped.granting, .refl _, ?_,
    fun t ht => ?_⟩
  · refine hmapped.after.trans (.cons frame ?_)
    exact List.perm_middle.trans ((hrest.symm.append_left new).cons f)
  · rcases hmapped.tables t ht with ht | ⟨f', hf', rfl⟩
    · rcases htables t ht with ht | rfl
      · exact .inl ht
      · exact .inr ⟨f, .head _, rfl⟩
    · exact .inr ⟨f', .tail _ hf', by rw [hpage]⟩

end Enter

end UserTree

/-! ## `vmm_map_page` -/

/-- The levels of the tables below a table of the given level, from the top. -/
def mapLevels : Nat → List Nat
  | 0 => []
  | 1 => []
  | level + 2 => (level + 2) :: mapLevels (level + 1)

/-- `vmm_map_page` from a table of the given level on. -/
def mapFrom (level vaddr paddr flags : Nat) (k : Kernel Pmm) (t : Nat) : Exec (Int × Kernel Pmm) := do
  let (currPageTable, k) ← (mapLevels level).foldlM (mapPageTable vaddr flags) (t, k)
  let i := virtualAddrIndex vaddr 1
  if ¬flagOverridePage flags ∧ tableEntry k.mem currPageTable i ≠ 0 then
    return (-1, k)
  else
    let entry := makeEntry (flagWritablePage flags) (flagUserAccessible flags) (paddr / 2 ^ 12)
    return (0, { k with mem := setTableEntry k.mem currPageTable i entry })

section Map
variable {k k' : Kernel Pmm} {level g vaddr paddr flags : Nat} {r : Int}

theorem mapFrom_succ {t : Nat} : mapFrom (level + 2) vaddr paddr flags k t =
    mapPageTable vaddr flags (t, k) (level + 2) >>= fun s => mapFrom (level + 1) vaddr paddr flags s.2 s.1 := by
  rw [mapFrom, mapLevels, List.foldlM_cons]
  cases mapPageTable vaddr flags (t, k) (level + 2) <;> rfl

namespace UserTree

theorem mapFrom_mapped (T : UserTree k (level + 1) g) (hv : vaddr < 2 ^ 47)
    (hframe : paddr / 2 ^ 12 < k.pmm.pageCount)
    (h : mapFrom (level + 1) vaddr paddr flags k (pageAt k g) = .ok (0, k')) :
    ∃ old new rest, Mapped k k' (level + 1) (pageAt k g) (paddr / 2 ^ 12) old new rest ∧
      (flagOverridePage flags = false → old = []) := by
  induction level generalizing k g with
  | zero =>
    have hcount := T.direct.count
    have hindex : entryIndex (makeEntry (flagWritablePage flags) (flagUserAccessible flags)
        (paddr / 2 ^ 12)) = paddr / 2 ^ 12 := entryIndex_makeEntry (by omega)
    change (if _ then _ else _) = _ at h
    split at h
    · cases h
    · rename_i hfail
      cases h
      have hmapped := T.setLeaf virtualAddrIndex_lt makeEntry_lt entryPresent_makeEntry
        entryHugePage_makeEntry (hindex ▸ hframe) (i := virtualAddrIndex vaddr 1)
      rw [hindex] at hmapped
      refine ⟨_, _, _, hmapped, fun hflag => ?_⟩
      rw [entryFrames, if_pos (by_contra fun hne => hfail ⟨by rw [hflag]; decide, hne⟩)]
  | succ level ih =>
    have hi : virtualAddrIndex vaddr (level + 2) < levelEntries (level + 2) :=
      virtualAddrIndex_lt_levelEntries (level + 2) hv
    rw [mapFrom_succ] at h
    obtain ⟨⟨t₁, k₁⟩, htable, h⟩ := Exec.bind_eq_ok.mp h
    by_cases hzero : tableEntry k.mem (pageAt k g) (virtualAddrIndex vaddr (level + 2)) = 0
    · obtain ⟨f, hf, hfree, htable⟩ := PagemapInv.mapPageTable_of_zero T.direct hzero htable
      obtain ⟨k₂, hk₂⟩ : ∃ k₂, enterTable k g (virtualAddrIndex vaddr (level + 2)) f = k₂ :=
        ⟨_, rfl⟩
      have hentry : tableEntry k₂.mem (pageAt k g) (virtualAddrIndex vaddr (level + 2)) =
          makeEntry true true f := hk₂ ▸ tableEntry_set_self makeEntry_lt
      have hnext : getNextPageTable k₂ (pageAt k g) (virtualAddrIndex vaddr (level + 2)) = pageAt k f :=
        hk₂ ▸ enter_next T.direct hf
      have L : SameLayout k k₂ := hk₂ ▸ Grown.enter_layout
      have T₂ : UserTree k₂ (level + 2) g := hk₂ ▸ (T.enter hi hzero hf hfree).1
      change mapPageTable vaddr flags
        (pageAt k g, enterTable k g (virtualAddrIndex vaddr (level + 2)) f) (level + 2) = _ at htable
      rw [hk₂, PagemapInv.mapPageTable_of_entry (hentry ▸ makeEntry_ne_zero)
        (hentry ▸ tableEntryOk_makeEntry)] at htable
      cases htable
      rw [hnext, ← L.pageAt_eq] at h
      have hcount := T.direct.count
      have Tf := T₂.below hi (by rw [L.pageAt_eq, hentry]; exact makeEntry_ne_zero)
      rw [L.pageAt_eq, hentry, entryIndex_makeEntry (by omega)] at Tf
      obtain ⟨old, new, rest, hmapped, -⟩ := ih Tf (by rwa [L.pageCount]) h
      rw [L.pageAt_eq] at hmapped
      exact ⟨[], f :: new, _, T.ascend_new hi hzero hf hfree hk₂ hmapped, fun _ => rfl⟩
    · obtain ⟨hpresent, hhuge, -, -⟩ := T.plain _ hi hzero
      obtain ⟨hwritable, huser, -⟩ := T.granting _ hi hzero
      rw [PagemapInv.mapPageTable_of_entry hzero ⟨hpresent, hwritable, huser, hhuge⟩] at htable
      cases htable
      dsimp only at h
      rw [T.next_eq hi hzero] at h
      obtain ⟨old, new, rest, hmapped, hold⟩ := ih (T.below hi hzero) hframe h
      exact ⟨old, new, _, T.ascend hi hzero hmapped, hold⟩

/-- After the call the tree owns the new page and the new tables too. -/
theorem of_mapped {frame : Nat} {old new rest : List Nat} (T : UserTree k level g)
    (h : Mapped k k' level (pageAt k g) frame old new rest) (hused : k.pmm.used frame = true)
    (hnew : frame ∉ g :: framesBelow k level (pageAt k g)) : UserTree k' level g := by
  obtain ⟨t, ht, G⟩ := h.grown
  have L := G.layout
  have hold : ∀ f ∈ g :: rest, f ∈ g :: framesBelow k level (pageAt k g) := fun f hf =>
    (h.before.cons g).mem_iff.mpr (List.cons_subset_cons g (List.subset_append_right _ _) hf)
  have hfresh : ∀ f ∈ new, f ∉ g :: framesBelow k level (pageAt k g) := by
    intro f hf hmem
    exact absurd (T.frame_used hmem) (by rw [(G.fresh f hf).2]; decide)
  refine ⟨L.direct T.direct, L.pageCount ▸ T.lt, G.used T.held, ?_, ?_, fun f hf => ?_, ?_⟩
  · rw [L.pageAt_eq]
    exact h.plain
  · rw [L.pageAt_eq]
    exact h.granting
  · rw [L.pageAt_eq, h.after.mem_iff] at hf
    rcases List.mem_cons.mp hf with rfl | hf
    · exact G.used hused
    · rcases List.mem_append.mp hf with hf | hf
      · rw [G.pmm]
        exact Pmm.used_setBits_of_mem hf (G.fresh f hf).1
      · exact G.used (T.frame_used (hold f (.tail _ hf)))
  · rw [L.pageAt_eq, (h.after.cons g).nodup_iff]
    have hrest : (g :: rest).Nodup := by
      refine ((h.before.cons g).nodup_iff.mp T.nodup).sublist ?_
      exact (List.sublist_append_right old rest).cons_cons g
    have hall : (new ++ g :: rest).Nodup := by
      refine List.nodup_append'.mpr ⟨G.nodup, hrest, fun f hf hf' => hfresh f hf (hold f hf')⟩
    refine (List.Perm.swap frame g _).nodup_iff.mpr (List.nodup_cons.mpr ⟨fun hmem => ?_, ?_⟩)
    · rcases List.mem_append.mp (List.perm_middle.symm.mem_iff.mp hmem) with hf | hf
      · exact absurd hused (by rw [(G.fresh _ hf).2]; decide)
      · exact hnew (hold _ hf)
    · exact List.perm_middle.symm.nodup_iff.mpr hall

/-- A call of `vmm_map_page` for a page of the lower half. -/
theorem vmmMapPage (T : UserTree k 4 g) (hv : vaddr < 2 ^ 47) (hframe : paddr / 2 ^ 12 < k.pmm.pageCount)
    (h : vmmMapPage k (pageAt k g) vaddr paddr flags = .ok (r, k')) :
    r = -1 ∧ k' = k ∨ r = 0 ∧ ∃ old new rest,
      Mapped k k' 4 (pageAt k g) (paddr / 2 ^ 12) old new rest ∧
        (flagOverridePage flags = false → old = []) := by
  rcases (T.pagemapInv.vmmMapPage_ok hv h).2 with ⟨-, hr, hk⟩ | ⟨-, rfl, -⟩
  · exact .inl ⟨hr, hk⟩
  · exact .inr ⟨rfl, T.mapFrom_mapped hv hframe h⟩

end UserTree

end Map

end TrazelOs
