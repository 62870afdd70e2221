import TrazelOs.Verify.UserTree
import TrazelOs.Verify.KernelHeap
import TrazelOs.Kernel.Memory

/-! # What a process sees of the memory

`cell k g v` is the byte at the address `v` of the address space with the topmost table in page `g`,
with the rights to it. A space depends only on its own pages (`UserTree.kept`), no two of its
addresses share a byte, and none of them is a byte of its tables: so a store of user code changes one
cell of one space (`UserTree.store`). -/

namespace TrazelOs

structure Cell where
  byte : Byte
  writable : Bool
  userAccess : Bool
deriving Repr, DecidableEq

/-- The cell at `v`, in the lower half of the address space. -/
def cell (k : Kernel Pmm) (g v : Nat) : Option Cell :=
  if v < lowerHalfEnd then
    (translate k (pageAt k g) v).map fun m =>
      ⟨k.mem (pageAt k m.frame + v % regularPageSize), m.writable, m.userAccess⟩
  else none

/-- The pages of an address space. -/
def spaceFrames (k : Kernel Pmm) (g : Nat) : List Nat := g :: framesBelow k 4 (pageAt k g)

/-! ## Walks in a tree -/

section Walk
variable {k k' : Kernel Pmm} {level g t v v' f b : Nat} {m m' : Mapping}

theorem cell_of_some (hv : v < 2 ^ 47) (h : translate k (pageAt k g) v = some m) :
    cell k g v =
      some ⟨k.mem (pageAt k m.frame + v % regularPageSize), m.writable, m.userAccess⟩ := by
  rw [cell, if_pos (show v < lowerHalfEnd from hv), h, Option.map_some]

theorem cell_of_none (h : translate k (pageAt k g) v = none) : cell k g v = none := by
  rw [cell, h, Option.map_none, ite_self]

theorem cell_of_ge (hv : 2 ^ 47 ≤ v) : cell k g v = none :=
  if_neg (show ¬v < lowerHalfEnd from Nat.not_lt.mpr hv)

theorem cell_eq_none_iff (hv : v < 2 ^ 47) :
    cell k g v = none ↔ translate k (pageAt k g) v = none := by
  constructor
  · intro hcell
    by_contra hsome
    obtain ⟨m, hm⟩ := Option.ne_none_iff_exists'.mp hsome
    rw [cell_of_some hv hm] at hcell
    cases hcell
  · exact cell_of_none

/-- A walk that ends at a page goes through an entry to a walk from the table below it. -/
theorem Plain.walk_entry (P : Plain k (level + 1) t) (hv : v < 2 ^ 47)
    (h : pageWalk k v (level + 1) t = some m) :
    tableEntry k.mem t (virtualAddrIndex v (level + 1)) ≠ 0 ∧
      (level = 0 ∧ m.frame = entryIndex (tableEntry k.mem t (virtualAddrIndex v 1)) ∨
        ∃ below m', level = below + 1 ∧ m'.frame = m.frame ∧ pageWalk k v (below + 1)
          (getNextPageTable k t (virtualAddrIndex v (level + 1))) = some m') := by
  have hne : tableEntry k.mem t (virtualAddrIndex v (level + 1)) ≠ 0 := by
    intro hzero
    rw [pageWalk_of_zero hzero] at h
    cases h
  obtain ⟨hpresent, hhuge, -, -⟩ := P _ (virtualAddrIndex_lt_levelEntries (level + 1) hv) hne
  refine ⟨hne, ?_⟩
  cases level with
  | zero =>
    rw [pageWalk_last hpresent, entryMapping, if_neg hne] at h
    cases h
    exact .inl ⟨rfl, rfl⟩
  | succ below =>
    rw [pageWalk_inner hpresent hhuge] at h
    obtain ⟨m', hm', rfl⟩ := Option.map_eq_some_iff.mp h
    exact .inr ⟨below, m', rfl, rfl, hm'⟩

theorem Plain.walk_mem (P : Plain k (level + 1) t) (hv : v < 2 ^ 47)
    (h : pageWalk k v (level + 1) t = some m) :
    m.frame ∈ entryFrames k level t (virtualAddrIndex v (level + 1)) := by
  induction level generalizing t m with
  | zero =>
    obtain ⟨hne, ⟨-, hm⟩ | ⟨below, m', hbelow, -, -⟩⟩ := P.walk_entry hv h
    · exact (mem_entryFrames hne).mpr (.inr hm)
    · cases hbelow
  | succ level ih =>
    obtain ⟨hne, ⟨hlevel, -⟩ | ⟨below, m', hbelow, hm, hwalk⟩⟩ := P.walk_entry hv h
    · cases hlevel
    · cases hbelow
      have hi := virtualAddrIndex_lt_levelEntries (v := v) (level + 2) hv
      have P' := (P _ hi hne).2.2.2
      exact (mem_entryFrames hne).mpr (.inl (hm ▸ mem_framesBelow
        (virtualAddrIndex_lt_levelEntries (level + 1) hv) (ih P' hwalk)))

theorem Plain.walk_index (P : Plain k (level + 1) t)
    (hnodup : (framesBelow k (level + 1) t).Nodup) (hv : v < 2 ^ 47) (hv' : v' < 2 ^ 47)
    (h : pageWalk k v (level + 1) t = some m) (h' : pageWalk k v' (level + 1) t = some m')
    (hframe : m.frame = m'.frame) :
    virtualAddrIndex v (level + 1) = virtualAddrIndex v' (level + 1) := by
  by_contra hne
  exact entryFrames_disjoint hnodup (virtualAddrIndex_lt_levelEntries (level + 1) hv)
    (virtualAddrIndex_lt_levelEntries (level + 1) hv') (Ne.symm hne) (P.walk_mem hv h)
    (hframe ▸ P.walk_mem hv' h')

/-- Walks to the same page take the same entries. -/
theorem Plain.walk_inj (P : Plain k (level + 1) t) (hnodup : (framesBelow k (level + 1) t).Nodup)
    (hv : v < 2 ^ 47) (hv' : v' < 2 ^ 47) (h : pageWalk k v (level + 1) t = some m)
    (h' : pageWalk k v' (level + 1) t = some m') (hframe : m.frame = m'.frame) :
    ∀ l ≤ level, virtualAddrIndex v (l + 1) = virtualAddrIndex v' (l + 1) := by
  have hsame := P.walk_index hnodup hv hv' h h' hframe
  induction level generalizing t m m' with
  | zero =>
    intro l hl
    rw [Nat.le_zero.mp hl]
    exact hsame
  | succ level ih =>
    obtain ⟨hne, ⟨hlevel, -⟩ | ⟨below, w, hbelow, hw, hwalk⟩⟩ := P.walk_entry hv h
    · cases hlevel
    obtain ⟨-, ⟨hlevel, -⟩ | ⟨below', w', hbelow', hw', hwalk'⟩⟩ := P.walk_entry hv' h'
    · cases hlevel
    cases hbelow
    cases hbelow'
    rw [← hsame] at hwalk'
    have hi := virtualAddrIndex_lt_levelEntries (v := v) (level + 2) hv
    have hentry := (List.nodup_flatMap.mp hnodup).1 _ (List.mem_range.mpr hi)
    rw [if_neg hne] at hentry
    have hnodup' := hentry.of_append_left
    have P' := (P _ hi hne).2.2.2
    have hframe' : w.frame = w'.frame := hw.trans (hframe.trans hw'.symm)
    intro l hl
    rcases Nat.le_succ_iff.mp hl with hl | rfl
    · exact ih P' hnodup' hwalk hwalk' hframe' (P'.walk_index hnodup' hv hv' hwalk hwalk' hframe') l hl
    · exact hsame

/-- A table at or below an entry is a page at or below it. -/
theorem Plain.subTable_mem {i : Nat} (D : DirectMap k) (P : Plain k (level + 1) t)
    (hi : i < levelEntries (level + 1)) (hne : tableEntry k.mem t i ≠ 0)
    (h : SubTable k level (getNextPageTable k t i) (pageAt k f)) : f ∈ entryFrames k level t i := by
  apply (mem_entryFrames hne).mpr
  rcases (P i hi hne).2.2.2.subTable D h with heq | ⟨f', hf', heq⟩
  · exact .inr (pageAt_inj (heq.trans (P.next_eq D hi hne)))
  · exact .inl (pageAt_inj heq ▸ hf')

end Walk

namespace UserTree
variable {k k' : Kernel Pmm} {level g t v v' f b : Nat} {m m' : Mapping}

theorem translate_mem (T : UserTree k 4 g) (hv : v < 2 ^ 47)
    (h : translate k (pageAt k g) v = some m) : m.frame ∈ framesBelow k 4 (pageAt k g) :=
  mem_framesBelow (virtualAddrIndex_lt_levelEntries 4 hv) (T.plain.walk_mem hv h)

/-- Different pages of an address space are different pages of the memory. -/
theorem translate_inj (T : UserTree k 4 g) (hv : v < 2 ^ 47) (hv' : v' < 2 ^ 47)
    (h : translate k (pageAt k g) v = some m) (h' : translate k (pageAt k g) v' = some m')
    (hframe : m.frame = m'.frame) : v / regularPageSize = v' / regularPageSize := by
  have hindex := T.plain.walk_inj (List.nodup_cons.mp T.nodup).2 hv hv' h h' hframe
  refine (tablePath_eq_iff hv' hv).mp ⟨?_, hindex 0 (by decide)⟩
  unfold tablePath
  rw [hindex 3 (by decide), hindex 2 (by decide), hindex 1 (by decide)]

theorem root_not_mem (T : UserTree k (level + 1) g) (hv : v < 2 ^ 47)
    (h : pageWalk k v (level + 1) (pageAt k g) = some m) : m.frame ≠ g := by
  rintro rfl
  exact (List.nodup_cons.mp T.nodup).1 (mem_framesBelow
    (virtualAddrIndex_lt_levelEntries (level + 1) hv) (T.plain.walk_mem hv h))

/-- A page that an address leads to is none of the tables. -/
theorem walk_not_table (T : UserTree k (level + 1) g) (hv : v < 2 ^ 47)
    (h : pageWalk k v (level + 1) (pageAt k g) = some m) :
    ¬SubTable k (level + 1) (pageAt k g) (pageAt k m.frame) := by
  induction level generalizing g m with
  | zero =>
    rintro (hroot | ⟨j, -, -, hsub⟩)
    · exact T.root_not_mem hv h (pageAt_inj hroot)
    · exact hsub
  | succ level ih =>
    rintro (hroot | ⟨j, hj, hne, hsub⟩)
    · exact T.root_not_mem hv h (pageAt_inj hroot)
    -- The table is below the entry that the walk takes: the same holds one level down.
    have hij : j = virtualAddrIndex v (level + 2) := by
      by_contra hdiff
      exact entryFrames_disjoint (List.nodup_cons.mp T.nodup).2
        (virtualAddrIndex_lt_levelEntries (level + 2) hv) hj hdiff (T.plain.walk_mem hv h)
        (T.plain.subTable_mem T.direct hj hne hsub)
    subst hij
    obtain ⟨-, ⟨hlevel, -⟩ | ⟨below, w, hbelow, hw, hwalk⟩⟩ := T.plain.walk_entry hv h
    · cases hlevel
    cases hbelow
    rw [T.next_eq hj hne] at hsub hwalk
    exact ih (T.below hj hne) hwalk (hw ▸ hsub)

end UserTree

/-! ## Spaces that stay, and stores -/

/-- The space is in `k'` what it is in `k`. -/
structure Kept (k k' : Kernel Pmm) (g : Nat) : Prop where
  tree : UserTree k' 4 g
  frames : spaceFrames k' g = spaceFrames k g
  cell : cell k' g = cell k g

section Kept
variable {k k' k'' : Kernel Pmm} {g v v' f b addr : Nat} {m : Mapping}

theorem inPage_offset : InPage (pageAt k f) (pageAt k f + v % regularPageSize) :=
  ⟨Nat.le_add_right _ _, Nat.add_lt_add_left (Nat.mod_lt _ (by decide)) _⟩

/-- A space depends on its pages only. -/
theorem UserTree.kept (T : UserTree k 4 g) (L : SameLayout k k')
    (hmem : ∀ f ∈ spaceFrames k g, ∀ b, InPage (pageAt k f) b → k'.mem b = k.mem b)
    (hused : ∀ f ∈ spaceFrames k g, k'.pmm.used f = true) : Kept k k' g := by
  have htables : ∀ t, SubTable k 4 (pageAt k g) t → ∀ b, InPage t b → k'.mem b = k.mem b := by
    intro t ht b hb
    obtain ⟨f, hf, rfl⟩ := T.subTable ht
    exact hmem f hf b hb
  obtain ⟨T', hframes⟩ := T.congr L htables hused
  refine ⟨T', by rw [spaceFrames, spaceFrames, L.pageAt_eq, hframes], ?_⟩
  funext v
  by_cases hv : v < 2 ^ 47
  · have htranslate : translate k' (pageAt k' g) v = translate k (pageAt k g) v := by
      rw [L.pageAt_eq, UserTree.translate_congr L htables hv]
    cases hm : translate k (pageAt k g) v with
    | none => rw [cell_of_none hm, cell_of_none (htranslate.trans hm)]
    | some m =>
      rw [cell_of_some hv hm, cell_of_some hv (htranslate.trans hm), L.pageAt_eq,
        hmem m.frame (.tail _ (T.translate_mem hv hm)) _ inPage_offset]
  · rw [cell_of_ge (Nat.not_lt.mp hv), cell_of_ge (Nat.not_lt.mp hv)]

/-- A store through an address of the space. -/
theorem UserTree.store (byte : Byte) (T : UserTree k 4 g) (hv : v < 2 ^ 47)
    (h : translate k (pageAt k g) v = some m)
    (haddr : addr = pageAt k m.frame + v % regularPageSize) :
    UserTree { k with mem := k.mem.set addr byte } 4 g ∧
      spaceFrames { k with mem := k.mem.set addr byte } g = spaceFrames k g ∧
      cell { k with mem := k.mem.set addr byte } g =
        Function.update (cell k g) v (some ⟨byte, m.writable, m.userAccess⟩) := by
  have L : SameLayout k { k with mem := k.mem.set addr byte } := ⟨rfl, rfl, rfl⟩
  have hin : InPage (pageAt k m.frame) addr := haddr ▸ inPage_offset
  have hother : ∀ b, b ≠ addr → k.mem.set addr byte b = k.mem b := fun b hb =>
    Theory.ByteMemory.set_of_ne hb
  have htables : ∀ t, SubTable k 4 (pageAt k g) t → ∀ b, InPage t b →
      k.mem.set addr byte b = k.mem b := by
    intro t ht b hb
    obtain ⟨f, -, rfl⟩ := T.subTable ht
    apply hother
    rintro rfl
    exact T.walk_not_table hv h (inPage_inj hb hin ▸ ht)
  obtain ⟨T', hframes⟩ := T.congr L htables fun f hf => T.frame_used hf
  refine ⟨T', by rw [spaceFrames, spaceFrames, L.pageAt_eq, hframes], ?_⟩
  funext v'
  by_cases hv' : v' < 2 ^ 47
  · have htranslate : translate { k with mem := k.mem.set addr byte } (pageAt k g) v' =
        translate k (pageAt k g) v' := UserTree.translate_congr L htables hv'
    cases hm' : translate k (pageAt k g) v' with
    | none =>
      have hne : v' ≠ v := by
        rintro rfl
        rw [h] at hm'
        cases hm'
      rw [Function.update_of_ne hne, cell_of_none (htranslate.trans hm'), cell_of_none hm']
    | some m' =>
      have hcell := cell_of_some (k := { k with mem := k.mem.set addr byte }) hv'
        (htranslate.trans hm')
      rw [L.pageAt_eq] at hcell
      rw [hcell]
      by_cases hvv : v' = v
      · subst hvv
        rw [h] at hm'
        cases hm'
        rw [Function.update_self, ← haddr]
        exact congrArg (fun byte => some (Cell.mk byte _ _)) Theory.ByteMemory.set_self
      · -- A shared byte would be on the same page at the same offset.
        have hne : pageAt k m'.frame + v' % regularPageSize ≠ addr := by
          intro heq
          have hframe : m'.frame = m.frame := inPage_inj (heq ▸ inPage_offset) hin
          have hpage := T.translate_inj hv' hv hm' h hframe
          rw [haddr, hframe] at heq
          have hoffset := Nat.add_left_cancel heq
          apply hvv
          rw [← Nat.div_add_mod v' regularPageSize, ← Nat.div_add_mod v regularPageSize, hpage,
            hoffset]
        rw [Function.update_of_ne hvv, cell_of_some hv' hm']
        exact congrArg (fun byte => some (Cell.mk byte _ _)) (hother _ hne)
  · have hne : v' ≠ v := by
      rintro rfl
      exact hv' hv
    rw [Function.update_of_ne hne, cell_of_ge (Nat.not_lt.mp hv'), cell_of_ge (Nat.not_lt.mp hv')]

end Kept

end TrazelOs
