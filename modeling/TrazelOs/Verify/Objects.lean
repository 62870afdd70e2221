import TrazelOs.Kernel.Machine
import Mathlib.Data.List.Basic

/-! # The kernel's objects and the blocks they live in

`MemoryManager.Lawful` is the contract of the memory managers: a new block is none of the live
ones, and nothing but `kmalloc` and `kfree` changes which blocks are live. Under the contract
`Objects` holds in every state: every object lives in a live block, at most one in each, and the
content of a file is in a live block of its own. -/

namespace TrazelOs

variable {μ : Type}

/-- The memory manager with a second state, which its functions leave alone. -/
def MemoryManager.paired (M : MemoryManager μ) (ν : Type) : MemoryManager (μ × ν) where
  kmalloc m size := (fun r => (r.1, r.2, m.2)) <$> M.kmalloc m.1 size
  kfree m addr := (·, m.2) <$> M.kfree m.1 addr
  load m := M.load m.1
  store m buffer bytes := (·, m.2) <$> M.store m.1 buffer bytes
  userStore m vaddr byte := (·, m.2) <$> M.userStore m.1 vaddr byte
  pmmAllocPage m := (fun r => (r.1, r.2, m.2)) <$> M.pmmAllocPage m.1
  pmmAllocPages m count := (fun r => (r.1, r.2, m.2)) <$> M.pmmAllocPages m.1 count
  vmmPhysToVirtHhdm m := M.vmmPhysToVirtHhdm m.1
  vmmCreateNewPagemap m := (fun r => (r.1, r.2, m.2)) <$> M.vmmCreateNewPagemap m.1
  vmmMapPage m pagemap vaddr paddr flags :=
    (fun r => (r.1, r.2, m.2)) <$> M.vmmMapPage m.1 pagemap vaddr paddr flags
  vmmClonePagemap m pagemap := (fun r => (r.1, r.2, m.2)) <$> M.vmmClonePagemap m.1 pagemap
  vmmDeletePagemap m pagemap := (·, m.2) <$> M.vmmDeletePagemap m.1 pagemap
  vmmReloadCr3 m pagemap := (M.vmmReloadCr3 m.1 pagemap, m.2)

/-- In the states of `Live m L` the live blocks are `L`. -/
structure MemoryManager.Lawful (M : MemoryManager μ) (Live : μ → List Nat → Prop) : Prop where
  kmalloc : Live m L → M.kmalloc m size = .ok (p, m') → p ≠ 0 → p ∉ L ∧ Live m' (p :: L)
  kmallocNull : Live m L → M.kmalloc m size = .ok (0, m') → Live m' L
  kfree : Live m L → p ∈ L → M.kfree m p = .ok m' → Live m' (L.erase p)
  kfreeNull : M.kfree m 0 ≠ .ok m'
  store : Live m L → M.store m b bytes = .ok m' → Live m' L
  userStore : Live m L → M.userStore m vaddr byte = .ok m' → Live m' L
  pmmAllocPage : Live m L → M.pmmAllocPage m = .ok (p, m') → Live m' L
  pmmAllocPages : Live m L → M.pmmAllocPages m count = .ok (p, m') → Live m' L
  vmmCreateNewPagemap : Live m L → M.vmmCreateNewPagemap m = .ok (p, m') → Live m' L
  vmmMapPage : Live m L → M.vmmMapPage m p vaddr paddr flags = .ok (r, m') → Live m' L
  vmmClonePagemap : Live m L → M.vmmClonePagemap m p = .ok (p', m') → Live m' L
  vmmDeletePagemap : Live m L → M.vmmDeletePagemap m p = .ok m' → Live m' L
  vmmReloadCr3 : Live m L → Live (M.vmmReloadCr3 m p) L

/-- How many objects are at `p`. -/
def kinds (s : System μ) (p : Nat) : Nat :=
  (s.pcbs p).isSome.toNat + (s.waitQueues p).isSome.toNat + (s.infos p).isSome.toNat +
    (s.files p).isSome.toNat

/-- The block at `p` has the content of the file at `f`. -/
def ContentOf (s : System μ) (f p : Nat) : Prop :=
  ∃ file, s.files f = some file ∧ file.kind = .fat12 ∧ file.fsPrivateData = p

structure Objects (Live : μ → List Nat → Prop) (s : System μ) (L : List Nat) : Prop where
  live : Live s.mem L
  null : 0 ∉ L
  nodup : L.Nodup
  sole : ∀ p, kinds s p ≤ 1
  owned : ∀ p, kinds s p ≠ 0 → p ∈ L
  content : ∀ f p, ContentOf s f p → p ∈ L ∧ kinds s p = 0
  contentOnce : ∀ f f' p, ContentOf s f p → ContentOf s f' p → f = f'

/-- There is no object in the block at `p`, and no content of a file. -/
def Unclaimed (s : System μ) (p : Nat) : Prop := kinds s p = 0 ∧ ∀ f, ¬ContentOf s f p

/-- Only the memory changed. -/
def MemOnly (s s' : System μ) : Prop := ∃ mem, s' = { s with mem }

theorem MemOnly.unclaimed {s s' : System μ} {p : Nat} (h : MemOnly s s') (hu : Unclaimed s p) :
    Unclaimed s' p := by
  obtain ⟨_, rfl⟩ := h
  exact hu

theorem MemOnly.files {s s' : System μ} (h : MemOnly s s') : s'.files = s.files := by
  obtain ⟨_, rfl⟩ := h
  rfl

theorem kinds_eq_zero {s : System μ} {p : Nat} : kinds s p = 0 ↔
    s.pcbs p = none ∧ s.waitQueues p = none ∧ s.infos p = none ∧ s.files p = none := by
  simp only [kinds, Nat.add_eq_zero_iff, Bool.toNat_eq_zero, Option.isSome_eq_false_iff,
    Option.isNone_iff_eq_none, and_assoc]

theorem deref_eq_ok {objects : Nat → Option α} {p : Nat} {x : α} :
    deref objects p = .ok x ↔ objects p = some x := by
  unfold deref
  split <;> simp_all

namespace Objects

variable {M : MemoryManager μ} {Live : μ → List Nat → Prop} {s s' : System μ} {L : List Nat}
  {p q : Nat}

private theorem eq_none_of_toNat {o : Option α} (h : o.isSome.toNat = 0) : o = none := by
  rwa [Bool.toNat_eq_zero, Option.isSome_eq_false_iff, Option.isNone_iff_eq_none] at h

section Sole
variable (O : Objects Live s L)
include O

theorem pcb_only {x : Pcb} (h : s.pcbs p = some x) :
    s.waitQueues p = none ∧ s.infos p = none ∧ s.files p = none := by
  have hsole := O.sole p
  simp only [kinds, h, Option.isSome_some, Bool.toNat_true] at hsole
  exact ⟨eq_none_of_toNat (by omega), eq_none_of_toNat (by omega), eq_none_of_toNat (by omega)⟩

theorem waitQueue_only {x : TaskQueue} (h : s.waitQueues p = some x) :
    s.pcbs p = none ∧ s.infos p = none ∧ s.files p = none := by
  have hsole := O.sole p
  simp only [kinds, h, Option.isSome_some, Bool.toNat_true] at hsole
  exact ⟨eq_none_of_toNat (by omega), eq_none_of_toNat (by omega), eq_none_of_toNat (by omega)⟩

theorem info_only {x : InterruptInfo} (h : s.infos p = some x) :
    s.pcbs p = none ∧ s.waitQueues p = none ∧ s.files p = none := by
  have hsole := O.sole p
  simp only [kinds, h, Option.isSome_some, Bool.toNat_true] at hsole
  exact ⟨eq_none_of_toNat (by omega), eq_none_of_toNat (by omega), eq_none_of_toNat (by omega)⟩

theorem file_only {x : VfsFile} (h : s.files p = some x) :
    s.pcbs p = none ∧ s.waitQueues p = none ∧ s.infos p = none := by
  have hsole := O.sole p
  simp only [kinds, h, Option.isSome_some, Bool.toNat_true] at hsole
  exact ⟨eq_none_of_toNat (by omega), eq_none_of_toNat (by omega), eq_none_of_toNat (by omega)⟩

theorem mem_of_pcb {x : Pcb} (h : s.pcbs p = some x) : p ∈ L :=
  O.owned p (by simp [kinds, h])

theorem mem_of_waitQueue {x : TaskQueue} (h : s.waitQueues p = some x) : p ∈ L :=
  O.owned p (by simp [kinds, h])

theorem mem_of_info {x : InterruptInfo} (h : s.infos p = some x) : p ∈ L :=
  O.owned p (by simp [kinds, h])

theorem mem_of_file {x : VfsFile} (h : s.files p = some x) : p ∈ L :=
  O.owned p (by simp [kinds, h])

/-- The memory changed, but not the objects and the live blocks. -/
theorem withMem {m : μ} (h : Live m L) : Objects Live { s with mem := m } L :=
  ⟨h, O.null, O.nodup, O.sole, O.owned, O.content, O.contentOnce⟩

/-- Objects changed, but not where they are and which content a file has. -/
theorem congr (hmem : s'.mem = s.mem) (hkinds : ∀ p, kinds s' p = kinds s p)
    (hcontent : ∀ f p, ContentOf s' f p → ContentOf s f p) : Objects Live s' L := by
  refine ⟨hmem ▸ O.live, O.null, O.nodup, fun p => ?_, fun p hp => ?_, fun f p h => ?_,
    fun f f' p h h' => O.contentOnce f f' p (hcontent f p h) (hcontent f' p h')⟩
  · rw [hkinds]
    exact O.sole p
  · rw [hkinds] at hp
    exact O.owned p hp
  · rw [hkinds]
    exact O.content f p (hcontent f p h)

/-- A block that is not live holds nothing. -/
theorem unclaimed_of_notMem (hp : p ∉ L) : Unclaimed s p :=
  ⟨by_contra fun h => hp (O.owned p h), fun f h => hp (O.content f p h).1⟩

/-- A new block. -/
theorem grow (hM : M.Lawful Live) {size : Nat} {m : μ} (h : M.kmalloc s.mem size = .ok (p, m))
    (hp : p ≠ 0) : p ∉ L ∧ Objects Live { s with mem := m } (p :: L) := by
  obtain ⟨hfresh, hlive⟩ := hM.kmalloc O.live h hp
  refine ⟨hfresh, hlive, ?_, ?_, O.sole, ?_, ?_, O.contentOnce⟩
  · rw [List.mem_cons, not_or]
    exact ⟨fun h => hp h.symm, O.null⟩
  · exact List.nodup_cons.mpr ⟨hfresh, O.nodup⟩
  · exact fun q hq => .tail _ (O.owned q hq)
  · exact fun f q h => ⟨.tail _ (O.content f q h).1, (O.content f q h).2⟩

theorem newObject_ok (hM : M.Lawful Live) {size : Nat} (h : newObject M s size = .ok (p, s')) :
    p ≠ 0 ∧ p ∉ L ∧ MemOnly s s' ∧ Objects Live s' (p :: L) := by
  obtain ⟨⟨p', m⟩, halloc, h⟩ := Exec.bind_eq_ok.mp h
  by_cases hp : p' = 0
  · simp only [hp, if_pos] at h
    cases h
  · simp only [if_neg hp] at h
    cases h
    obtain ⟨hfresh, O'⟩ := O.grow hM halloc hp
    exact ⟨hp, hfresh, ⟨m, rfl⟩, O'⟩

/-- A new object in a block that held nothing. -/
theorem add (hmem : s'.mem = s.mem) (hp : p ∈ L) (hu : Unclaimed s p)
    (hkinds : ∀ q, kinds s' q = if q = p then 1 else kinds s q)
    (hcontent : ∀ f q, ContentOf s' f q → ContentOf s f q) : Objects Live s' L := by
  refine ⟨hmem ▸ O.live, O.null, O.nodup, fun q => ?_, fun q hq => ?_, fun f q h => ?_,
    fun f f' q h h' => O.contentOnce f f' q (hcontent f q h) (hcontent f' q h')⟩
  · rw [hkinds]
    split
    · exact Nat.le_refl 1
    · exact O.sole q
  · rw [hkinds] at hq
    split at hq
    · rename_i h
      exact h ▸ hp
    · exact O.owned q hq
  · have h' := hcontent f q h
    have hne : q ≠ p := fun heq => hu.2 f (heq ▸ h')
    rw [hkinds, if_neg hne]
    exact O.content f q h'

/-- A block that holds nothing is released. -/
theorem drop {m : μ} (hu : Unclaimed s p) (hlive : Live m (L.erase p)) :
    Objects Live { s with mem := m } (L.erase p) := by
  refine ⟨hlive, fun h => O.null (List.mem_of_mem_erase h), O.nodup.erase p, O.sole, fun q hq => ?_,
    fun f q h => ⟨?_, (O.content f q h).2⟩, O.contentOnce⟩
  · have hne : q ≠ p := fun heq => hq (heq ▸ hu.1)
    exact (List.mem_erase_of_ne hne).mpr (O.owned q hq)
  · have hne : q ≠ p := fun heq => hu.2 f (heq ▸ h)
    exact (List.mem_erase_of_ne hne).mpr (O.content f q h).1

end Sole

/-! ## Stores to objects -/

section Set
variable {x : Pcb} {w : TaskQueue} {info : InterruptInfo} {file : VfsFile}

theorem kinds_setPcb {y : Pcb} (h : s.pcbs p = some y) : kinds (s.setPcb p x) q = kinds s q := by
  by_cases hq : q = p
  · subst hq
    simp [kinds, System.setPcb, h]
  · simp [kinds, System.setPcb, hq]

theorem kinds_setWaitQueue {y : TaskQueue} (h : s.waitQueues p = some y) :
    kinds (s.setWaitQueue p w) q = kinds s q := by
  by_cases hq : q = p
  · subst hq
    simp [kinds, System.setWaitQueue, h]
  · simp [kinds, System.setWaitQueue, hq]

theorem kinds_setInfo {y : InterruptInfo} (h : s.infos p = some y) :
    kinds (s.setInfo p info) q = kinds s q := by
  by_cases hq : q = p
  · subst hq
    simp [kinds, System.setInfo, h]
  · simp [kinds, System.setInfo, hq]

theorem kinds_setFile {y : VfsFile} (h : s.files p = some y) :
    kinds (s.setFile p file) q = kinds s q := by
  by_cases hq : q = p
  · subst hq
    simp [kinds, System.setFile, h]
  · simp [kinds, System.setFile, hq]

theorem setPcb {y : Pcb} (O : Objects Live s L) (h : s.pcbs p = some y) :
    Objects Live (s.setPcb p x) L := O.congr rfl (fun _ => kinds_setPcb h) fun _ _ h => h

theorem setWaitQueue {y : TaskQueue} (O : Objects Live s L) (h : s.waitQueues p = some y) :
    Objects Live (s.setWaitQueue p w) L :=
  O.congr rfl (fun _ => kinds_setWaitQueue h) fun _ _ h => h

theorem setInfo {y : InterruptInfo} (O : Objects Live s L) (h : s.infos p = some y) :
    Objects Live (s.setInfo p info) L := O.congr rfl (fun _ => kinds_setInfo h) fun _ _ h => h

/-- The kind and the content of a file do not change. -/
theorem setFile {y : VfsFile} (O : Objects Live s L) (h : s.files p = some y)
    (hkind : file.kind = y.kind) (hdata : file.fsPrivateData = y.fsPrivateData) :
    Objects Live (s.setFile p file) L := by
  refine O.congr rfl (fun _ => kinds_setFile h) fun f q hq => ?_
  obtain ⟨z, hz, hk, hd⟩ := hq
  by_cases hf : f = p
  · subst hf
    obtain rfl : file = z := by simpa [System.setFile] using hz
    exact ⟨y, h, hkind ▸ hk, hdata ▸ hd⟩
  · refine ⟨z, ?_, hk, hd⟩
    simpa [System.setFile, hf] using hz

theorem addPcb (O : Objects Live s L) (hp : p ∈ L) (hu : Unclaimed s p) :
    Objects Live (s.setPcb p x) L := by
  obtain ⟨h1, h2, h3, h4⟩ := kinds_eq_zero.mp hu.1
  refine O.add rfl hp hu (fun q => ?_) fun _ _ h => h
  by_cases hq : q = p
  · subst hq
    simp [kinds, System.setPcb, h2, h3, h4]
  · simp [kinds, System.setPcb, hq]

theorem addWaitQueue (O : Objects Live s L) (hp : p ∈ L) (hu : Unclaimed s p) :
    Objects Live (s.setWaitQueue p w) L := by
  obtain ⟨h1, h2, h3, h4⟩ := kinds_eq_zero.mp hu.1
  refine O.add rfl hp hu (fun q => ?_) fun _ _ h => h
  by_cases hq : q = p
  · subst hq
    simp [kinds, System.setWaitQueue, h1, h3, h4]
  · simp [kinds, System.setWaitQueue, hq]

theorem addInfo (O : Objects Live s L) (hp : p ∈ L) (hu : Unclaimed s p) :
    Objects Live (s.setInfo p info) L := by
  obtain ⟨h1, h2, h3, h4⟩ := kinds_eq_zero.mp hu.1
  refine O.add rfl hp hu (fun q => ?_) fun _ _ h => h
  by_cases hq : q = p
  · subst hq
    simp [kinds, System.setInfo, h1, h2, h4]
  · simp [kinds, System.setInfo, hq]

theorem addDeviceFile {dev : CharDevice} (O : Objects Live s L) (hp : p ∈ L) (hu : Unclaimed s p)
    (hkind : file.kind = .charDev dev) : Objects Live (s.setFile p file) L := by
  obtain ⟨h1, h2, h3, h4⟩ := kinds_eq_zero.mp hu.1
  refine O.add rfl hp hu (fun q => ?_) fun f q ⟨z, hz, hk, hd⟩ => ?_
  · by_cases hq : q = p
    · subst hq
      simp [kinds, System.setFile, h1, h2, h3]
    · simp [kinds, System.setFile, hq]
  · by_cases hf : f = p
    · subst hf
      obtain rfl : file = z := by simpa [System.setFile] using hz
      rw [hkind] at hk
      cases hk
    · refine ⟨z, ?_, hk, hd⟩
      simpa [System.setFile, hf] using hz

/-- A FAT12 file with its content. -/
theorem addFat12File {c : Nat} (O : Objects Live s L) (hp : p ∈ L) (hu : Unclaimed s p)
    (hc : c ∈ L) (huc : Unclaimed s c) (hne : c ≠ p) (hdata : file.fsPrivateData = c) :
    Objects Live (s.setFile p file) L := by
  obtain ⟨h1, h2, h3, h4⟩ := kinds_eq_zero.mp hu.1
  have hkinds : ∀ q, kinds (s.setFile p file) q = if q = p then 1 else kinds s q := by
    intro q
    by_cases hq : q = p
    · subst hq
      simp [kinds, System.setFile, h1, h2, h3]
    · simp [kinds, System.setFile, hq]
  have hcontent : ∀ f q, ContentOf (s.setFile p file) f q → f = p ∧ q = c ∨ ContentOf s f q := by
    rintro f q ⟨z, hz, hk, hd⟩
    by_cases hf : f = p
    · subst hf
      obtain rfl : file = z := by simpa [System.setFile] using hz
      exact .inl ⟨rfl, hd.symm.trans hdata⟩
    · refine .inr ⟨z, ?_, hk, hd⟩
      simpa [System.setFile, hf] using hz
  refine ⟨O.live, O.null, O.nodup, fun q => ?_, fun q hq => ?_, fun f q h => ?_,
    fun f f' q h h' => ?_⟩
  · rw [hkinds]
    split
    · exact Nat.le_refl 1
    · exact O.sole q
  · rw [hkinds] at hq
    split at hq
    · rename_i h
      exact h ▸ hp
    · exact O.owned q hq
  · rw [hkinds]
    rcases hcontent f q h with ⟨-, rfl⟩ | h
    · rw [if_neg hne]
      exact ⟨hc, huc.1⟩
    · have hqp : q ≠ p := fun heq => hu.2 f (heq ▸ h)
      rw [if_neg hqp]
      exact O.content f q h
  · rcases hcontent f q h with ⟨hf, hq⟩ | h <;> rcases hcontent f' q h' with ⟨hf', hq'⟩ | h'
    · exact hf.trans hf'.symm
    · exact absurd (hq ▸ h') (huc.2 f')
    · exact absurd (hq' ▸ h) (huc.2 f)
    · exact O.contentOnce f f' q h h'

end Set

/-! ## Releases -/

theorem kfree_eq_ok : s.kfree M p = .ok s' ↔ ∃ m, M.kfree s.mem p = .ok m ∧
    s' = { s with
      mem := m
      pcbs := Function.update s.pcbs p none
      waitQueues := Function.update s.waitQueues p none
      infos := Function.update s.infos p none
      files := Function.update s.files p none } := by
  simp only [System.kfree, Exec.bind_eq_ok, Exec.pure_eq_ok, Except.ok.injEq, eq_comm (b := s')]

/-- A file is forgotten; the blocks stay live. -/
theorem dropFile (O : Objects Live s L) :
    Objects Live { s with files := Function.update s.files p none } L := by
  have hkinds : ∀ q, kinds { s with files := Function.update s.files p none } q ≤ kinds s q := by
    intro q
    by_cases hq : q = p
    · subst hq
      simp [kinds]
    · simp [kinds, hq]
  have hcontent : ∀ f q, ContentOf { s with files := Function.update s.files p none } f q →
      ContentOf s f q := by
    rintro f q ⟨z, hz, hk, hd⟩
    by_cases hf : f = p
    · subst hf
      simp at hz
    · exact ⟨z, by simpa [hf] using hz, hk, hd⟩
  refine ⟨O.live, O.null, O.nodup, fun q => Nat.le_trans (hkinds q) (O.sole q),
    fun q hq => O.owned q ?_,
    fun f q h => ⟨(O.content f q (hcontent f q h)).1, ?_⟩,
    fun f f' q h h' => O.contentOnce f f' q (hcontent f q h) (hcontent f' q h')⟩
  · have := hkinds q
    omega
  · have := (O.content f q (hcontent f q h)).2
    have := hkinds q
    omega

theorem update_none {objects : Nat → Option α} (h : objects p = none) :
    Function.update objects p none = objects := by
  rw [← h, Function.update_eq_self]

/-- Releasing a block without process, queue or context. -/
theorem kfree_frame (h : s.kfree M p = .ok s') (hpcb : s.pcbs p = none)
    (hqueue : s.waitQueues p = none) (hinfo : s.infos p = none) :
    ∃ m, M.kfree s.mem p = .ok m ∧
      s' = { s with mem := m, files := Function.update s.files p none } := by
  obtain ⟨m, hfree, rfl⟩ := kfree_eq_ok.mp h
  rw [update_none hpcb, update_none hqueue, update_none hinfo]
  exact ⟨m, hfree, rfl⟩

/-- Releasing a block that holds nothing. -/
theorem kfree_unclaimed (O : Objects Live s L) (hM : M.Lawful Live) (hp : p ∈ L)
    (hu : Unclaimed s p) (h : s.kfree M p = .ok s') :
    MemOnly s s' ∧ Objects Live s' (L.erase p) := by
  obtain ⟨hpcb, hqueue, hinfo, hfile⟩ := kinds_eq_zero.mp hu.1
  obtain ⟨m, hfree, rfl⟩ := kfree_frame h hpcb hqueue hinfo
  rw [update_none hfile]
  exact ⟨⟨m, rfl⟩, O.drop hu (hM.kfree O.live hp hfree)⟩

/-- Releasing an object that is no file's content. -/
theorem kfree_object (O : Objects Live s L) (hM : M.Lawful Live) (hp : p ∈ L)
    (hcontent : ∀ f, ¬ContentOf s f p) (h : s.kfree M p = .ok s') :
    Objects Live s' (L.erase p) := by
  obtain ⟨m, hfree, rfl⟩ := kfree_eq_ok.mp h
  have hsub : ∀ f q, ContentOf { s with
      mem := m
      pcbs := Function.update s.pcbs p none
      waitQueues := Function.update s.waitQueues p none
      infos := Function.update s.infos p none
      files := Function.update s.files p none } f q → ContentOf s f q := by
    rintro f q ⟨z, hz, hk, hd⟩
    by_cases hf : f = p
    · subst hf
      simp at hz
    · exact ⟨z, by simpa [hf] using hz, hk, hd⟩
  have hkinds : ∀ q, kinds { s with
      mem := m
      pcbs := Function.update s.pcbs p none
      waitQueues := Function.update s.waitQueues p none
      infos := Function.update s.infos p none
      files := Function.update s.files p none } q = if q = p then 0 else kinds s q := by
    intro q
    by_cases hq : q = p
    · subst hq
      simp [kinds]
    · simp [kinds, hq]
  refine ⟨hM.kfree O.live hp hfree, fun h => O.null (List.mem_of_mem_erase h), O.nodup.erase p,
    fun q => ?_, fun q hq => ?_, fun f q h => ?_,
    fun f f' q h h' => O.contentOnce f f' q (hsub f q h) (hsub f' q h')⟩
  · rw [hkinds]
    split
    · exact Nat.zero_le 1
    · exact O.sole q
  · rw [hkinds] at hq
    split at hq
    · exact absurd rfl hq
    · rename_i hne
      exact (List.mem_erase_of_ne hne).mpr (O.owned q hq)
  · obtain ⟨hmem, hzero⟩ := O.content f q (hsub f q h)
    have hne : q ≠ p := fun heq => hcontent f (heq ▸ hsub f q h)
    rw [hkinds, if_neg hne]
    exact ⟨(List.mem_erase_of_ne hne).mpr hmem, hzero⟩

/-- An object is not the content of a file. -/
theorem not_content (O : Objects Live s L) (hp : kinds s p ≠ 0) : ∀ f, ¬ContentOf s f p :=
  fun f h => hp (O.content f p h).2

theorem kfree_pcb {x : Pcb} (O : Objects Live s L) (hM : M.Lawful Live) (hp : s.pcbs p = some x)
    (h : s.kfree M p = .ok s') : Objects Live s' (L.erase p) ∧
      ∃ m, s' = { s with mem := m, pcbs := Function.update s.pcbs p none } := by
  obtain ⟨hqueue, hinfo, hfile⟩ := O.pcb_only hp
  have hkinds : kinds s p ≠ 0 := by simp [kinds, hp]
  refine ⟨O.kfree_object hM (O.owned p hkinds) (O.not_content hkinds) h, ?_⟩
  obtain ⟨m, -, rfl⟩ := kfree_eq_ok.mp h
  rw [update_none hqueue, update_none hinfo, update_none hfile]
  exact ⟨m, rfl⟩

theorem kfree_waitQueue {x : TaskQueue} (O : Objects Live s L) (hM : M.Lawful Live)
    (hp : s.waitQueues p = some x) (h : s.kfree M p = .ok s') : Objects Live s' (L.erase p) ∧
      ∃ m, s' = { s with mem := m, waitQueues := Function.update s.waitQueues p none } := by
  obtain ⟨hpcb, hinfo, hfile⟩ := O.waitQueue_only hp
  have hkinds : kinds s p ≠ 0 := by simp [kinds, hp]
  refine ⟨O.kfree_object hM (O.owned p hkinds) (O.not_content hkinds) h, ?_⟩
  obtain ⟨m, -, rfl⟩ := kfree_eq_ok.mp h
  rw [update_none hpcb, update_none hinfo, update_none hfile]
  exact ⟨m, rfl⟩

theorem kfree_info {x : InterruptInfo} (O : Objects Live s L) (hM : M.Lawful Live)
    (hp : s.infos p = some x) (h : s.kfree M p = .ok s') : Objects Live s' (L.erase p) ∧
      ∃ m, s' = { s with mem := m, infos := Function.update s.infos p none } := by
  obtain ⟨hpcb, hqueue, hfile⟩ := O.info_only hp
  have hkinds : kinds s p ≠ 0 := by simp [kinds, hp]
  refine ⟨O.kfree_object hM (O.owned p hkinds) (O.not_content hkinds) h, ?_⟩
  obtain ⟨m, -, rfl⟩ := kfree_eq_ok.mp h
  rw [update_none hpcb, update_none hqueue, update_none hfile]
  exact ⟨m, rfl⟩

end Objects

end TrazelOs
