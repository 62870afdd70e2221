import TrazelOs.Verify.Objects
import Mathlib.Tactic.Tauto

/-! # What the file functions change

`FilesOnly` is the frame of the functions of `vfs.c` and of the ELF loader: they change memory and
files, but no process and no queue. The one exception is a read of the keyboard, which takes
characters from its buffer, or makes the process wait when there is none. -/

namespace TrazelOs

variable {μ : Type}

/-- Only the memory and the files changed. -/
def FilesOnly (s s' : System μ) : Prop := ∃ mem files, s' = { s with mem, files }

theorem FilesOnly.refl (s : System μ) : FilesOnly s s := ⟨_, _, rfl⟩

theorem FilesOnly.trans {s₁ s₂ s₃ : System μ} (h : FilesOnly s₁ s₂) (h' : FilesOnly s₂ s₃) :
    FilesOnly s₁ s₃ := by
  obtain ⟨_, _, rfl⟩ := h
  obtain ⟨_, _, rfl⟩ := h'
  exact ⟨_, _, rfl⟩

theorem MemOnly.filesOnly {s s' : System μ} (h : MemOnly s s') : FilesOnly s s' := by
  obtain ⟨_, rfl⟩ := h
  exact ⟨_, _, rfl⟩

theorem FilesOnly.mem {s : System μ} {mem : μ} : FilesOnly s { s with mem } := ⟨_, _, rfl⟩

theorem FilesOnly.setFile {s : System μ} {p : Nat} {file : VfsFile} :
    FilesOnly s (s.setFile p file) := ⟨_, _, rfl⟩

/-- What of a file its position and its size do not change. -/
def VfsFile.key (file : VfsFile) : FileKind × Nat × Nat :=
  (file.kind, file.fsPrivateData, file.fileRefCount)

/-- The files are the same but for their positions and sizes. -/
def SameFiles (s s' : System μ) : Prop :=
  ∀ f, (s'.files f).map VfsFile.key = (s.files f).map VfsFile.key

theorem SameFiles.of_eq {s s' : System μ} (h : s'.files = s.files) : SameFiles s s' :=
  fun f => by rw [h]

theorem SameFiles.trans {s₁ s₂ s₃ : System μ} (h : SameFiles s₁ s₂) (h' : SameFiles s₂ s₃) :
    SameFiles s₁ s₃ := fun f => (h' f).trans (h f)

theorem SameFiles.setFile {s : System μ} {p : Nat} {file file' : VfsFile}
    (h : s.files p = some file) (hkey : file'.key = file.key) : SameFiles s (s.setFile p file') := by
  intro f
  by_cases hf : f = p
  · subst hf
    simp [System.setFile, h, hkey]
  · simp [System.setFile, hf]

theorem SameFiles.exists {s s' : System μ} {f : Nat} {file : VfsFile} (h : SameFiles s s')
    (hfile : s.files f = some file) : ∃ file', s'.files f = some file' ∧ file'.key = file.key := by
  have := h f
  rw [hfile, Option.map_some, Option.map_eq_some_iff] at this
  exact this

/-- The kind of a file, and its content. -/
def VfsFile.content (file : VfsFile) : FileKind × Nat := (file.kind, file.fsPrivateData)

/-- The files have the same kinds and contents. -/
def SameContents (s s' : System μ) : Prop :=
  ∀ f, (s'.files f).map VfsFile.content = (s.files f).map VfsFile.content

theorem SameFiles.contents {s s' : System μ} (h : SameFiles s s') : SameContents s s' := by
  have hkey : ∀ o : Option VfsFile, o.map VfsFile.content = (o.map VfsFile.key).map fun k => (k.1, k.2.1) := by
    intro o
    cases o <;> rfl
  intro f
  rw [hkey, hkey, h f]

/-- How often the open file `f` is counted. -/
def System.refCount (s : System μ) (f : Nat) : Option Nat := (s.files f).map VfsFile.fileRefCount

theorem System.refCount_setFile {s : System μ} {f : Nat} {file : VfsFile} :
    (s.setFile f file).refCount = Function.update s.refCount f (some file.fileRefCount) := by
  funext g
  by_cases hg : g = f
  · subst hg
    simp only [System.refCount, System.setFile, Function.update_self, Option.map_some]
  · simp only [System.refCount, System.setFile, Function.update_of_ne hg]

theorem SameFiles.refCount {s s' : System μ} (h : SameFiles s s') : s'.refCount = s.refCount := by
  have hkey : ∀ o : Option VfsFile,
      o.map VfsFile.fileRefCount = (o.map VfsFile.key).map fun k => k.2.2 := by
    intro o
    cases o <;> rfl
  funext f
  rw [System.refCount, System.refCount, hkey, hkey, h f]

theorem SameContents.of_eq {s s' : System μ} (h : s'.files = s.files) : SameContents s s' :=
  fun f => by rw [h]

theorem SameContents.trans {s₁ s₂ s₃ : System μ} (h : SameContents s₁ s₂) (h' : SameContents s₂ s₃) :
    SameContents s₁ s₃ := fun f => (h' f).trans (h f)

theorem SameContents.setFile {s : System μ} {p : Nat} {file file' : VfsFile}
    (h : s.files p = some file) (hcontent : file'.content = file.content) :
    SameContents s (s.setFile p file') := by
  intro f
  by_cases hf : f = p
  · subst hf
    simp [System.setFile, h, hcontent]
  · simp [System.setFile, hf]

theorem Unclaimed.congr {s s' : System μ} {p : Nat} (hu : Unclaimed s p) (hpcb : s'.pcbs p = s.pcbs p)
    (hqueue : s'.waitQueues p = s.waitQueues p) (hinfo : s'.infos p = s.infos p)
    (hfiles : SameContents s s') : Unclaimed s' p := by
  obtain ⟨hpcb₀, hqueue₀, hinfo₀, hfile₀⟩ := kinds_eq_zero.mp hu.1
  refine ⟨kinds_eq_zero.mpr ⟨hpcb.trans hpcb₀, hqueue.trans hqueue₀, hinfo.trans hinfo₀, ?_⟩,
    fun f ⟨file', hfile', hk, hd⟩ => ?_⟩
  · have := hfiles p
    rwa [hfile₀, Option.map_none, Option.map_eq_none_iff] at this
  · have := hfiles f
    rw [hfile', Option.map_some, eq_comm, Option.map_eq_some_iff] at this
    obtain ⟨file, hfile, hcontent⟩ := this
    obtain ⟨hkind, hdata⟩ := Prod.mk.inj hcontent
    exact hu.2 f ⟨file, hfile, hkind.trans hk, hdata.trans hd⟩

theorem FilesOnly.unclaimed {s s' : System μ} {p : Nat} (h : FilesOnly s s')
    (hfiles : SameContents s s') (hu : Unclaimed s p) : Unclaimed s' p := by
  obtain ⟨_, _, rfl⟩ := h
  exact hu.congr rfl rfl rfl hfiles

/-- A read of the file waits for the keyboard. -/
def FileKind.fromKeyboard : FileKind → Bool
  | .charDev .ps2Keyboard | .charDev .tty => true
  | _ => false

/-- A step that uses files and opens and closes none. -/
structure UsesFiles (Live : μ → List Nat → Prop) (L : List Nat) (s s' : System μ) : Prop where
  objects : Objects Live s' L
  frame : FilesOnly s s'
  files : SameFiles s s'

section
variable {M : MemoryManager μ} {Live : μ → List Nat → Prop} {s s' : System μ} {L : List Nat}

namespace UsesFiles

theorem refl (O : Objects Live s L) : UsesFiles Live L s s := ⟨O, .refl s, fun _ => rfl⟩

theorem trans {s₁ s₂ s₃ : System μ} (h : UsesFiles Live L s₁ s₂) (h' : UsesFiles Live L s₂ s₃) :
    UsesFiles Live L s₁ s₃ := ⟨h'.objects, h.frame.trans h'.frame, h.files.trans h'.files⟩

theorem mem {m : μ} (O : Objects Live s L) (h : Live m L) : UsesFiles Live L s { s with mem := m } :=
  ⟨O.withMem h, .mem, .of_eq rfl⟩

theorem setFile {p : Nat} {file file' : VfsFile} (O : Objects Live s L)
    (h : s.files p = some file) (hkey : file'.key = file.key) :
    UsesFiles Live L s (s.setFile p file') := by
  obtain ⟨hkind, hrest⟩ := Prod.mk.inj hkey
  exact ⟨O.setFile h hkind (Prod.mk.inj hrest).1, .setFile, .setFile h hkey⟩

theorem unclaimed {p : Nat} (h : UsesFiles Live L s s') (hu : Unclaimed s p) : Unclaimed s' p :=
  h.frame.unclaimed h.files.contents hu

end UsesFiles

/-! ## Reading -/

/-- The characters that are taken from a ring buffer one after the other. -/
inductive Pops : RingBuffer → List Byte → RingBuffer → Prop
  | nil {rb : RingBuffer} : Pops rb [] rb
  | cons {rb rb₁ rb₂ : RingBuffer} {key : Byte} {keys : List Byte} :
    ringBufferPop rb = (some key, rb₁) → Pops rb₁ keys rb₂ → Pops rb (key :: keys) rb₂

/-- The characters are stored from byte `i` of the buffer on. -/
def storeKeys (M : MemoryManager μ) (buffer : Buffer) : (i : Nat) → List Byte → μ → Exec μ
  | _, [], m => .ok m
  | i, key :: keys, m => do
    let m ← M.store m (buffer.offset i) [key]
    storeKeys M buffer (i + 1) keys m

/-- Characters go from the keyboard to the buffer. -/
def KeysRead (M : MemoryManager μ) (s : System μ) (buffer : Buffer) (i : Nat) (keys : List Byte)
    (s' : System μ) : Prop :=
  ∃ m ringBuffer, Pops s.keyboard.ringBuffer keys ringBuffer ∧
    storeKeys M buffer i keys s.mem = .ok m ∧
    s' = { s with mem := m, keyboard := { s.keyboard with ringBuffer } }

theorem storeKeys_live (hM : M.Lawful Live) {buffer : Buffer} {i : Nat} {keys : List Byte} {m m' : μ}
    (hlive : Live m L) (h : storeKeys M buffer i keys m = .ok m') : Live m' L := by
  induction keys generalizing i m with
  | nil =>
    cases h
    exact hlive
  | cons key keys ih =>
    obtain ⟨m₁, hstore, h⟩ := Exec.bind_eq_ok.mp h
    exact ih (hM.store hlive hstore) h

theorem KeysRead.objects (hM : M.Lawful Live) (O : Objects Live s L) {buffer : Buffer} {i : Nat}
    {keys : List Byte} (h : KeysRead M s buffer i keys s') : Objects Live s' L := by
  obtain ⟨m, rb, -, hstore, rfl⟩ := h
  exact (O.withMem (storeKeys_live hM O.live hstore)).congr rfl (fun _ => rfl) fun _ _ h => h

theorem ps2Read_loop_ok {buffer : Buffer} {left i : Nat} {n : Int}
    (h : ps2Read.loop M buffer left i s = .ok (n, s')) :
    (∃ keys, n = toInt64 (i + keys.length) ∧ KeysRead M s buffer i keys s') ∨
      n = 0 ∧ i = 0 ∧ (ringBufferPop s.keyboard.ringBuffer).1 = none ∧
        pmWaitqueueEnqueue s s.keyboard.deviceWaitQueue = .ok s' := by
  induction left generalizing i s with
  | zero =>
    cases h
    exact .inl ⟨[], rfl, _, _, .nil, rfl, rfl⟩
  | succ left ih =>
    unfold ps2Read.loop at h
    split at h
    · rename_i hpop
      split at h
      · rename_i hi
        obtain ⟨s₁, henqueue, h⟩ := Exec.bind_eq_ok.mp h
        cases h
        exact .inr ⟨rfl, hi, by rw [hpop], henqueue⟩
      · cases h
        exact .inl ⟨[], rfl, _, _, .nil, rfl, rfl⟩
    · rename_i key ringBuffer hpop
      obtain ⟨m, hstore, h⟩ := Exec.bind_eq_ok.mp h
      rcases ih h with ⟨keys, rfl, m', rb, hpops, hstores, rfl⟩ | ⟨-, hi, -⟩
      · refine .inl ⟨key :: keys, ?_, m', rb, .cons hpop hpops, ?_, rfl⟩
        · rw [List.length_cons]
          congr 1
          omega
        · rw [storeKeys, hstore]
          exact hstores
      · cases hi

/-- How a read of a file ends: with nothing, with bytes of the disk, with characters of the keyboard,
or with the process waiting for them. -/
inductive FileRead (M : MemoryManager μ) (Live : μ → List Nat → Prop) (L : List Nat) (s : System μ)
    (f : Nat) (buffer : Buffer) : Int → System μ → Prop
  | none {n : Int} : (∀ file, s.files f = some file → file.kind.fromKeyboard = true → n = 0) →
    FileRead M Live L s f buffer n s
  | disk {n : Int} {s' : System μ} {file : VfsFile} : s.files f = some file → file.kind = .fat12 →
    UsesFiles Live L s s' → FileRead M Live L s f buffer n s'
  | keys {s₁ s' : System μ} {file : VfsFile} {keys : List Byte} : s.files f = some file →
    file.kind.fromKeyboard = true → KeysRead M s buffer 0 keys s₁ → UsesFiles Live L s₁ s' →
    s'.mem = s₁.mem → s'.keyboard = s₁.keyboard →
    FileRead M Live L s f buffer (toInt64 keys.length) s'
  | waits {s' : System μ} {file : VfsFile} : s.files f = some file →
    file.kind.fromKeyboard = true → (ringBufferPop s.keyboard.ringBuffer).1 = .none →
    pmWaitqueueEnqueue s s.keyboard.deviceWaitQueue = .ok s' → FileRead M Live L s f buffer 0 s'

private theorem advance_ok {s₁ : System μ} {f : Nat} {n n' : Int} (O : Objects Live s₁ L)
    (h : (if n' > 0 then do
        let file ← deref s₁.files f
        let filePosition := u64 (file.filePosition + n'.toNat)
        pure (n', s₁.setFile f { file with filePosition })
      else pure (n', s₁)) = Except.ok (n, s')) :
    n = n' ∧ UsesFiles Live L s₁ s' ∧ s'.mem = s₁.mem ∧ s'.keyboard = s₁.keyboard := by
  split at h
  · obtain ⟨file, hfile, h⟩ := Exec.bind_eq_ok.mp h
    cases h
    exact ⟨rfl, .setFile O (deref_eq_ok.mp hfile) rfl, rfl, rfl⟩
  · cases h
    exact ⟨rfl, .refl O, rfl, rfl⟩

theorem vfsRead_ok (hM : M.Lawful Live) (O : Objects Live s L) {f : Nat} {buffer : Buffer}
    {size : Nat} {n : Int} (h : vfsRead M s f buffer size = .ok (n, s')) :
    FileRead M Live L s f buffer n s' := by
  unfold vfsRead at h
  split at h
  · rename_i hnull
    cases h
    exact .none fun file hfile => absurd (hnull ▸ O.mem_of_file hfile) O.null
  obtain ⟨file, hfile, h⟩ := Exec.bind_eq_ok.mp h
  rw [deref_eq_ok] at hfile
  split at h
  · cases h
    exact .none fun _ _ _ => rfl
  dsimp only at h
  split at h
  · rename_i dev hkind
    obtain ⟨⟨n', s₁⟩, hread, h⟩ := Exec.bind_eq_ok.mp h
    have hps2 : ∀ {size}, file.kind.fromKeyboard = true → ps2Read M s buffer size = .ok (n', s₁) →
        FileRead M Live L s f buffer n s' := by
      intro size hkeyboard hread
      rcases ps2Read_loop_ok hread with ⟨keys, rfl, hkeys⟩ | ⟨rfl, -, hpop, henqueue⟩
      · obtain ⟨rfl, huses, hmem, hring⟩ := advance_ok (hkeys.objects hM O) h
        rw [Nat.zero_add]
        exact .keys hfile hkeyboard hkeys huses hmem hring
      · cases h
        exact .waits hfile hkeyboard hpop henqueue
    cases dev with
    | com1 | vgaText | framebuffer =>
      cases hread
      cases h
      refine .none fun file' hfile' hkeyboard => ?_
      rw [hfile] at hfile'
      cases hfile'
      rw [hkind] at hkeyboard
      cases hkeyboard
    | ps2Keyboard | tty => exact hps2 (by rw [hkind]; rfl) hread
  · rename_i hkind
    obtain ⟨m, hstore, h⟩ := Exec.bind_eq_ok.mp h
    obtain ⟨-, huses, -⟩ := advance_ok (O.withMem (hM.store O.live hstore)) h
    exact .disk hfile hkind (.trans (.mem O (hM.store O.live hstore)) huses)

theorem vfsRead_of_disk (hM : M.Lawful Live) (O : Objects Live s L) {f : Nat} {file : VfsFile}
    (hfile : s.files f = some file) (hkind : file.kind.fromKeyboard = false) {buffer : Buffer}
    {size : Nat} {n : Int} (h : vfsRead M s f buffer size = .ok (n, s')) : UsesFiles Live L s s' := by
  have hnot : ∀ file', s.files f = some file' → file'.kind.fromKeyboard ≠ true := by
    intro file' hfile' hkind'
    rw [hfile] at hfile'
    cases hfile'
    rw [hkind] at hkind'
    cases hkind'
  cases vfsRead_ok hM O h with
  | none _ => exact .refl O
  | disk _ _ huses => exact huses
  | keys hfile' hkind' _ _ _ _ => exact absurd hkind' (hnot _ hfile')
  | waits hfile' hkind' _ _ => exact absurd hkind' (hnot _ hfile')

theorem vfsWrite_ok (O : Objects Live s L) {f size : Nat} {n : Int}
    (h : vfsWrite s f size = .ok (n, s')) : UsesFiles Live L s s' := by
  unfold vfsWrite at h
  split at h
  · cases h
    exact .refl O
  obtain ⟨file, hfile, h⟩ := Exec.bind_eq_ok.mp h
  dsimp only at h
  split at h
  · obtain ⟨n', -, h⟩ := Exec.bind_eq_ok.mp h
    cases h
    exact .setFile O (deref_eq_ok.mp hfile) rfl
  · cases h

theorem vfsSeek_ok (O : Objects Live s L) {f whence : Nat} {offset n : Int}
    (h : vfsSeek s f offset whence = .ok (n, s')) : UsesFiles Live L s s' := by
  unfold vfsSeek at h
  split at h
  · cases h
    exact .refl O
  obtain ⟨file, hfile, h⟩ := Exec.bind_eq_ok.mp h
  dsimp only at h
  split at h
  · cases h
    exact .refl O
  · split at h
    · cases h
      exact .refl O
    · cases h
      exact .setFile O (deref_eq_ok.mp hfile) rfl

/-! ## Opening -/

private theorem ne_of_mem_eraseIdx {blocks : List Nat} {i p q : Nat}
    (hnodup : (blocks.filter (· ≠ 0)).Nodup) (hp : blocks[i]? = some p) (hne : p ≠ 0)
    (hq : q ∈ blocks.eraseIdx i) (hq0 : q ≠ 0) : q ≠ p := by
  induction blocks generalizing i with
  | nil => cases hq
  | cons b blocks ih =>
    cases i with
    | zero =>
      obtain rfl : b = p := by simpa using hp
      rw [List.filter_cons_of_pos (by simpa using hne), List.nodup_cons] at hnodup
      rintro rfl
      exact hnodup.1 (List.mem_filter.mpr ⟨hq, by simpa using hne⟩)
    | succ i =>
      rw [List.getElem?_cons_succ] at hp
      rcases List.mem_cons.mp hq with rfl | hq
      · rw [List.filter_cons_of_pos (by simpa using hq0), List.nodup_cons] at hnodup
        rintro rfl
        exact hnodup.1 (List.mem_filter.mpr ⟨List.mem_of_getElem? hp, by simpa using hne⟩)
      · exact ih (hnodup.sublist ((List.sublist_cons_self b blocks).filter _)) hp hq

/-- The driver's calls keep the blocks `K` that are not the driver's. -/
theorem runDriverCalls_ok (hM : M.Lawful Live) {K : List Nat} {calls : List DriverCall}
    {blocks : List Nat} (O : Objects Live s L) (hK : K ⊆ L)
    (hblocks : ∀ p ∈ blocks, p ≠ 0 → p ∈ L ∧ p ∉ K ∧ Unclaimed s p)
    (hnodup : (blocks.filter (· ≠ 0)).Nodup) (h : runDriverCalls M calls blocks s = .ok s') :
    ∃ m L', s' = { s with mem := m } ∧ K ⊆ L' ∧ Objects Live s' L' := by
  induction calls generalizing s L blocks with
  | nil =>
    cases h
    exact ⟨_, L, rfl, hK, O⟩
  | cons call calls ih =>
    cases call with
    | alloc size =>
      obtain ⟨⟨p, m⟩, halloc, h⟩ := Exec.bind_eq_ok.mp h
      by_cases hp : p = 0
      · subst hp
        have O' := O.withMem (hM.kmallocNull O.live halloc)
        obtain ⟨m', L', rfl, hrest⟩ := ih O' hK (fun q hq hne => by
          rcases List.mem_cons.mp hq with rfl | hq
          · exact absurd rfl hne
          · exact hblocks q hq hne) (by simpa using hnodup) h
        exact ⟨m', L', rfl, hrest⟩
      · obtain ⟨hfresh, O'⟩ := O.grow hM halloc hp
        have hnotMem : p ∉ blocks := fun h => hfresh (hblocks p h hp).1
        have hnodup' : ((p :: blocks).filter (· ≠ 0)).Nodup := by
          rw [List.filter_cons_of_pos (by simpa using hp), List.nodup_cons]
          exact ⟨fun h => hnotMem (List.mem_of_mem_filter h), hnodup⟩
        obtain ⟨m', L', rfl, hrest⟩ := ih O' (List.Subset.trans hK (List.subset_cons_self p L))
          (fun q hq hne => by
            rcases List.mem_cons.mp hq with rfl | hq
            · exact ⟨.head _, fun h => hfresh (hK h), O.unclaimed_of_notMem hfresh⟩
            · obtain ⟨hmem, hrest⟩ := hblocks q hq hne
              exact ⟨.tail _ hmem, hrest⟩) hnodup' h
        exact ⟨m', L', rfl, hrest⟩
    | store block bytes =>
      simp only [runDriverCalls] at h
      split at h
      · cases h
      · obtain ⟨m, hstore, h⟩ := Exec.bind_eq_ok.mp h
        obtain ⟨m', L', rfl, hrest⟩ := ih (O.withMem (hM.store O.live hstore)) hK hblocks hnodup h
        exact ⟨m', L', rfl, hrest⟩
    | release block =>
      simp only [runDriverCalls] at h
      split at h
      · cases h
      · rename_i p hp
        obtain ⟨s₁, hfree, h⟩ := Exec.bind_eq_ok.mp h
        have hmem : p ∈ blocks := List.mem_of_getElem? hp
        have hne : p ≠ 0 := by
          rintro rfl
          obtain ⟨m, hfree, -⟩ := Objects.kfree_eq_ok.mp hfree
          exact hM.kfreeNull hfree
        obtain ⟨hpL, hpK, hu⟩ := hblocks p hmem hne
        obtain ⟨⟨m, rfl⟩, O'⟩ := O.kfree_unclaimed hM hpL hu hfree
        have hrest : ∀ q ∈ blocks.eraseIdx block, q ≠ 0 → q ≠ p :=
          fun q hq hq0 => ne_of_mem_eraseIdx hnodup hp hne hq hq0
        obtain ⟨m', L', rfl, hrest⟩ := ih O'
          (fun q hq => (List.mem_erase_of_ne (ne_of_mem_of_not_mem hq hpK)).mpr (hK hq))
          (fun q hq hq0 => by
            obtain ⟨hqL, hrest'⟩ := hblocks q (List.mem_of_mem_eraseIdx hq) hq0
            exact ⟨(List.mem_erase_of_ne (hrest q hq hq0)).mpr hqL, hrest'⟩)
          (hnodup.sublist ((List.eraseIdx_sublist blocks block).filter _)) h
        exact ⟨m', L', rfl, hrest⟩

/-- The files after an `open` that returned `f`. -/
structure Opened (Live : μ → List Nat → Prop) (L : List Nat) (path : Lookup) (f : Nat)
    (s s' : System μ) (L' : List Nat) : Prop where
  objects : Objects Live s' L'
  kept : L ⊆ L'
  frame : FilesOnly s s'
  files : f = 0 ∧ s'.files = s.files ∨ f ≠ 0 ∧ f ∉ L ∧ ∃ file,
    s'.files = Function.update s.files f (some file) ∧ file.fileRefCount = 1 ∧
      (file.kind = .fat12 → file.fsPrivateData ∉ L) ∧
      (file.kind.fromKeyboard = true → ∃ dev, path.target = .device dev ∧ file.kind = .charDev dev)

private theorem devfsOpen_ok (hM : M.Lawful Live) (O : Objects Live s L) {dev : CharDevice} {f : Nat}
    (h : devfsOpen M s dev = .ok (f, s')) :
    f ≠ 0 ∧ f ∉ L ∧ Objects Live s' (f :: L) ∧ FilesOnly s s' ∧
      ∃ file, s'.files = Function.update s.files f (some file) ∧ file.kind = .charDev dev := by
  obtain ⟨⟨p, s₁⟩, hnew, h⟩ := Exec.bind_eq_ok.mp h
  obtain ⟨hp, hfresh, ⟨m, rfl⟩, O'⟩ := O.newObject_ok hM hnew
  cases h
  exact ⟨hp, hfresh, O'.addDeviceFile (.head _) (O.unclaimed_of_notMem hfresh) rfl,
    .trans .mem .setFile, _, rfl, rfl⟩

private theorem fat12Open_none_ok (hM : M.Lawful Live) (O : Objects Live s L)
    {calls : List DriverCall} {f : Nat} (h : fat12Open M s calls none = .ok (f, s')) :
    f = 0 ∧ ∃ m L', s' = { s with mem := m } ∧ L ⊆ L' ∧ Objects Live s' L' := by
  obtain ⟨⟨p, s₁⟩, hnew, h⟩ := Exec.bind_eq_ok.mp h
  obtain ⟨hp, hfresh, ⟨m, rfl⟩, O₁⟩ := O.newObject_ok hM hnew
  obtain ⟨s₂, hcalls, h⟩ := Exec.bind_eq_ok.mp h
  obtain ⟨m₂, L₂, rfl, hkept, O₂⟩ :=
    runDriverCalls_ok hM O₁ (List.Subset.refl _) (by simp) (by simp) hcalls
  obtain ⟨s₃, hfree, h⟩ := Exec.bind_eq_ok.mp h
  cases h
  obtain ⟨⟨m₃, rfl⟩, O₃⟩ :=
    O₂.kfree_unclaimed hM (hkept (.head _)) (O.unclaimed_of_notMem hfresh) hfree
  exact ⟨rfl, m₃, L₂.erase p, rfl,
    fun q hq => (List.mem_erase_of_ne (ne_of_mem_of_not_mem hq hfresh)).mpr (hkept (.tail _ hq)), O₃⟩

private theorem fat12Open_some_ok (hM : M.Lawful Live) (O : Objects Live s L)
    {calls : List DriverCall} {found : Nat × List Byte} {f : Nat}
    (h : fat12Open M s calls (some found) = .ok (f, s')) :
    f ≠ 0 ∧ f ∉ L ∧ (∃ L', L ⊆ L' ∧ Objects Live s' L') ∧ FilesOnly s s' ∧
      ∃ file, s'.files = Function.update s.files f (some file) ∧ file.kind = .fat12 ∧
        file.fsPrivateData ∉ L := by
  obtain ⟨⟨p, s₁⟩, hnew, h⟩ := Exec.bind_eq_ok.mp h
  obtain ⟨hp, hfresh, ⟨m, rfl⟩, O₁⟩ := O.newObject_ok hM hnew
  obtain ⟨s₂, hcalls, h⟩ := Exec.bind_eq_ok.mp h
  obtain ⟨m₂, L₂, rfl, hkept, O₂⟩ :=
    runDriverCalls_ok hM O₁ (List.Subset.refl _) (by simp) (by simp) hcalls
  obtain ⟨⟨c, s₃⟩, hnew, h⟩ := Exec.bind_eq_ok.mp h
  obtain ⟨hc, hfreshC, ⟨m₃, rfl⟩, O₃⟩ := O₂.newObject_ok hM hnew
  obtain ⟨m₄, hstore, h⟩ := Exec.bind_eq_ok.mp h
  cases h
  have O₄ := O₃.withMem (hM.store O₃.live hstore)
  have hcf : c ≠ f := fun h => hfreshC (h ▸ hkept (.head _))
  refine ⟨hp, hfresh, ⟨c :: L₂, fun q hq => .tail _ (hkept (.tail _ hq)), ?_⟩,
    ⟨_, _, rfl⟩, _, rfl, rfl, fun hc => hfreshC (hkept (.tail _ hc))⟩
  exact O₄.addFat12File (.tail _ (hkept (.head _))) (O.unclaimed_of_notMem hfresh) (.head _)
    (O₂.unclaimed_of_notMem hfreshC) hcf rfl

/-- `vfs_open` sets the position and the count of a file that was found. -/
private theorem opened_of_found {L L' : List Nat} {path : Lookup} {f : Nat} {file : VfsFile}
    (hf : f ≠ 0) (hfresh : f ∉ L) (hkept : L ⊆ L') (O : Objects Live s' L') (hframe : FilesOnly s s')
    (hfiles : s'.files = Function.update s.files f (some file))
    (hdata : file.kind = .fat12 → file.fsPrivateData ∉ L)
    (hkind : file.kind.fromKeyboard = true →
      ∃ dev, path.target = .device dev ∧ file.kind = .charDev dev) :
    Opened Live L path f s
      (s'.setFile f { file with filePosition := 0, fileRefCount := 1 }) L' := by
  have hfile : s'.files f = some file := by rw [hfiles, Function.update_self]
  refine ⟨O.setFile hfile rfl rfl, hkept, hframe.trans .setFile,
    .inr ⟨hf, hfresh, { file with filePosition := 0, fileRefCount := 1 }, ?_, rfl, hdata,
      hkind⟩⟩
  rw [System.setFile, hfiles, Function.update_idem]

theorem vfsOpen_ok (hM : M.Lawful Live) (O : Objects Live s L) {path : Lookup} {f : Nat}
    (h : vfsOpen M s path = .ok (f, s')) : ∃ L', Opened Live L path f s s' L' := by
  have hfound : ∀ {f' s₁}, f' ≠ 0 → f' ∉ L → (∃ L', L ⊆ L' ∧ Objects Live s₁ L') →
      FilesOnly s s₁ → (∃ file, s₁.files = Function.update s.files f' (some file) ∧
        (file.kind = .fat12 → file.fsPrivateData ∉ L) ∧ (file.kind.fromKeyboard = true →
          ∃ dev, path.target = .device dev ∧ file.kind = .charDev dev)) →
      (if f' = 0 then pure (0, s₁) else do
        let file ← deref s₁.files f'
        pure (f', s₁.setFile f' { file with filePosition := 0, fileRefCount := 1 })) =
          (Except.ok (f, s') : Exec _) → ∃ L', Opened Live L path f s s' L' := by
    intro f' s₁ hf hfresh ⟨L', hkept, O'⟩ hframe ⟨file, hfiles, hdata, hkind⟩ h
    rw [if_neg hf] at h
    obtain ⟨file', hfile, h⟩ := Exec.bind_eq_ok.mp h
    rw [deref_eq_ok, hfiles, Function.update_self] at hfile
    cases hfile
    cases h
    exact ⟨L', opened_of_found hf hfresh hkept O' hframe hfiles hdata hkind⟩
  unfold vfsOpen at h
  dsimp only at h
  split at h
  · rename_i dev htarget
    obtain ⟨⟨f', s₁⟩, hopen, h⟩ := Exec.bind_eq_ok.mp h
    obtain ⟨hf, hfresh, O', hframe, file, hfiles, hkind⟩ := devfsOpen_ok hM O hopen
    exact hfound hf hfresh ⟨_, List.subset_cons_self _ _, O'⟩ hframe
      ⟨file, hfiles, fun h => FileKind.noConfusion (hkind.symm.trans h),
        fun _ => ⟨dev, htarget, hkind⟩⟩ h
  · obtain ⟨⟨f', s₁⟩, hopen, h⟩ := Exec.bind_eq_ok.mp h
    obtain ⟨hf, hfresh, hO, hframe, file, hfiles, hkind, hdata⟩ := fat12Open_some_ok hM O hopen
    refine hfound hf hfresh hO hframe ⟨file, hfiles, fun _ => hdata, fun h => ?_⟩ h
    rw [hkind] at h
    cases h
  · obtain ⟨⟨f', s₁⟩, hopen, h⟩ := Exec.bind_eq_ok.mp h
    obtain ⟨rfl, m, L', rfl, hkept, O'⟩ := fat12Open_none_ok hM O hopen
    cases h
    exact ⟨L', O', hkept, .mem, .inl ⟨rfl, rfl⟩⟩
  · cases h
    exact ⟨L, O, List.Subset.refl _, .refl _, .inl ⟨rfl, rfl⟩⟩

theorem Opened.unclaimed {path : Lookup} {f p : Nat} {L' : List Nat}
    (h : Opened Live L path f s s' L') (hp : p ∈ L) (hu : Unclaimed s p) : Unclaimed s' p := by
  obtain ⟨_, _, _, rfl⟩ := h.frame
  obtain ⟨hpcb, hqueue, hinfo, hfile⟩ := kinds_eq_zero.mp hu.1
  obtain ⟨-, hfiles⟩ | ⟨-, hf, file, hfiles, -, hdata, -⟩ := h.files
  · exact hu.congr rfl rfl rfl (.of_eq hfiles)
  have hne : p ≠ f := ne_of_mem_of_not_mem hp hf
  refine ⟨kinds_eq_zero.mpr ⟨hpcb, hqueue, hinfo, ?_⟩, ?_⟩
  · rw [hfiles, Function.update_of_ne hne, hfile]
  · rintro g ⟨file', hfile', hkind, hp'⟩
    by_cases hg : g = f
    · rw [hfiles, hg, Function.update_self] at hfile'
      cases hfile'
      exact hdata hkind (hp' ▸ hp)
    · rw [hfiles, Function.update_of_ne hg] at hfile'
      exact hu.2 g ⟨file', hfile', hkind, hp'⟩

/-! ## Closing -/

/-- The files after a `close` of `f`. -/
structure Closed (Live : μ → List Nat → Prop) (L : List Nat) (f : Nat) (file : VfsFile)
    (s s' : System μ) (L' : List Nat) : Prop where
  objects : Objects Live s' L'
  kept : ∀ p ∈ L, Unclaimed s p → p ∈ L' ∧ Unclaimed s' p
  frame : FilesOnly s s'
  files : s'.files = Function.update s.files f
    (if file.fileRefCount ≤ 1 then none
      else some { file with fileRefCount := file.fileRefCount - 1 })

private theorem Unclaimed.dropFile {p f : Nat} {m : μ} (hu : Unclaimed s p) :
    Unclaimed { s with mem := m, files := Function.update s.files f none } p := by
  obtain ⟨hpcb, hqueue, hinfo, hfile⟩ := kinds_eq_zero.mp hu.1
  refine ⟨kinds_eq_zero.mpr ⟨hpcb, hqueue, hinfo, ?_⟩, fun g ⟨z, hz, hk, hd⟩ => ?_⟩
  · by_cases hp : p = f
    · subst hp
      exact Function.update_self ..
    · exact (Function.update_of_ne hp _ _).trans hfile
  · by_cases hg : g = f
    · subst hg
      simp at hz
    · exact hu.2 g ⟨z, by simpa [hg] using hz, hk, hd⟩

/-- The last close: the content of a FAT12 file is released and then the file. -/
private theorem closed_of_last (hM : M.Lawful Live) (O : Objects Live s L) {f : Nat} {file : VfsFile}
    (hfile : s.files f = some file) (hlast : file.fileRefCount ≤ 1) {s₁ : System μ}
    (hcontent : (if file.kind = .fat12 then
      (s.setFile f { file with fileRefCount := 0 }).kfree M file.fsPrivateData
      else pure (s.setFile f { file with fileRefCount := 0 })) = .ok s₁)
    (h : s₁.kfree M f = .ok s') : ∃ L', Closed Live L f file s s' L' := by
  obtain ⟨hpcb, hqueue, hinfo⟩ := O.file_only hfile
  have hfL := O.mem_of_file hfile
  have hkind : kinds s f ≠ 0 := by simp [kinds, hfile]
  have O₀ : Objects Live { s with files := Function.update s.files f none } L := O.dropFile
  have hu : Unclaimed { s with files := Function.update s.files f none } f := by
    refine ⟨kinds_eq_zero.mpr ⟨hpcb, hqueue, hinfo, Function.update_self ..⟩, ?_⟩
    rintro g ⟨z, hz, hk, hd⟩
    by_cases hg : g = f
    · subst hg
      simp at hz
    · exact hkind (O.content g f ⟨z, by simpa [hg] using hz, hk, hd⟩).2
  have hfiles : Function.update s.files f none = Function.update s.files f
      (if file.fileRefCount ≤ 1 then none
        else some { file with fileRefCount := file.fileRefCount - 1 }) := by rw [if_pos hlast]
  split at hcontent
  · rename_i hfat
    obtain ⟨hcL, hc0⟩ := O.content f _ ⟨file, hfile, hfat, rfl⟩
    obtain ⟨hcpcb, hcqueue, hcinfo, hcfile⟩ := kinds_eq_zero.mp hc0
    have hcf : file.fsPrivateData ≠ f := fun heq => hkind (heq ▸ hc0)
    obtain ⟨m, hfree, rfl⟩ := Objects.kfree_frame hcontent hcpcb hcqueue hcinfo
    obtain ⟨m', hfree', rfl⟩ := Objects.kfree_frame h hpcb hqueue hinfo
    have huc : Unclaimed { s with files := Function.update s.files f none } file.fsPrivateData := by
      refine ⟨kinds_eq_zero.mpr ⟨hcpcb, hcqueue, hcinfo, ?_⟩, ?_⟩
      · exact (Function.update_of_ne hcf _ _).trans hcfile
      · rintro g ⟨z, hz, hk, hd⟩
        by_cases hg : g = f
        · subst hg
          simp at hz
        · exact hg (O.contentOnce g f _ ⟨z, by simpa [hg] using hz, hk, hd⟩ ⟨file, hfile, hfat, rfl⟩)
    have O₁ := O₀.drop huc (hM.kfree O.live hcL hfree)
    have hfL' : f ∈ L.erase file.fsPrivateData := (List.mem_erase_of_ne hcf.symm).mpr hfL
    have O₂ := O₁.drop hu (hM.kfree O₁.live hfL' hfree')
    have heq : Function.update (Function.update (Function.update s.files f
        (some { file with fileRefCount := 0 })) file.fsPrivateData none) f none =
        Function.update s.files f none := by
      rw [Function.update_comm hcf, Function.update_idem, Function.update_comm hcf.symm,
        Objects.update_none hcfile]
    simp only [System.setFile, heq]
    refine ⟨_, O₂, fun p hp hup => ⟨?_, hup.dropFile⟩, ⟨_, _, rfl⟩, hfiles⟩
    have hpf : p ≠ f := by
      rintro rfl
      exact hkind hup.1
    have hpc : p ≠ file.fsPrivateData := by
      rintro rfl
      exact hup.2 f ⟨file, hfile, hfat, rfl⟩
    exact (List.mem_erase_of_ne hpf).mpr ((List.mem_erase_of_ne hpc).mpr hp)
  · cases hcontent
    obtain ⟨m, hfree, rfl⟩ := Objects.kfree_frame h hpcb hqueue hinfo
    have O₁ := O₀.drop hu (hM.kfree O.live hfL hfree)
    simp only [System.setFile, Function.update_idem]
    refine ⟨_, O₁, fun p hp hup => ⟨?_, hup.dropFile⟩, ⟨_, _, rfl⟩, hfiles⟩
    have hpf : p ≠ f := by
      rintro rfl
      exact hkind hup.1
    exact (List.mem_erase_of_ne hpf).mpr hp

theorem vfsClose_ok (hM : M.Lawful Live) (O : Objects Live s L) {f : Nat} (hf : f ≠ 0) {n : Int}
    (h : vfsClose M s f = .ok (n, s')) :
    n = 0 ∧ ∃ file, s.files f = some file ∧ ∃ L', Closed Live L f file s s' L' := by
  unfold vfsClose at h
  rw [if_neg hf] at h
  obtain ⟨file, hfile, h⟩ := Exec.bind_eq_ok.mp h
  rw [deref_eq_ok] at hfile
  dsimp only at h
  by_cases hlast : file.fileRefCount ≤ 1
  · have hzero : (if file.fileRefCount > 0 then file.fileRefCount - 1 else 0) = 0 := by
      split <;> omega
    rw [hzero, if_pos rfl] at h
    split at h
    · rename_i hkind
      obtain ⟨s₁, hcontent, h⟩ := Exec.bind_eq_ok.mp h
      obtain ⟨s₂, hfree, h⟩ := Exec.bind_eq_ok.mp h
      cases h
      exact ⟨rfl, file, hfile, closed_of_last hM O hfile hlast ((if_pos hkind).trans hcontent) hfree⟩
    · rename_i hkind
      obtain ⟨s₁, hcontent, h⟩ := Exec.bind_eq_ok.mp h
      obtain ⟨s₂, hfree, h⟩ := Exec.bind_eq_ok.mp h
      cases h
      exact ⟨rfl, file, hfile, closed_of_last hM O hfile hlast ((if_neg hkind).trans hcontent) hfree⟩
  · have hcount : (if file.fileRefCount > 0 then file.fileRefCount - 1 else 0) =
        file.fileRefCount - 1 := if_pos (by omega)
    rw [hcount, if_neg (by omega)] at h
    cases h
    refine ⟨rfl, file, hfile, L, O.setFile hfile rfl rfl, fun p hp hup => ⟨hp, ?_⟩, .setFile, ?_⟩
    · refine ⟨(Objects.kinds_setFile hfile).trans hup.1, fun g ⟨z, hz, hk, hd⟩ => ?_⟩
      by_cases hg : g = f
      · subst hg
        obtain rfl : { file with fileRefCount := file.fileRefCount - 1 } = z := by
          simpa [System.setFile] using hz
        exact hup.2 g ⟨file, hfile, hk, hd⟩
      · exact hup.2 g ⟨z, (Function.update_of_ne hg _ _).symm.trans hz, hk, hd⟩
    · rw [if_neg hlast]
      rfl

/-! ## Loading a program -/

theorem mapSegmentPages_ok (hM : M.Lawful Live) {pagemap vaddr physPages count : Nat} {m m' : μ}
    (hlive : Live m L) (h : mapSegmentPages M pagemap vaddr physPages count m = .ok m') :
    Live m' L := by
  refine Exec.foldlM_ok (p := (Live · L)) (fun m i m' _ hlive h => ?_) hlive h
  obtain ⟨⟨status, m₁⟩, hmap, h⟩ := Exec.bind_eq_ok.mp h
  obtain ⟨_, -, h⟩ := Exec.bind_eq_ok.mp h
  cases h
  exact hM.vmmMapPage hlive hmap

/-- A relation `F` that contains what loading the program `f` does besides its reads, and that the
reads respect in states with the property `K`. -/
structure LoadFrame (M : MemoryManager μ) (Live : μ → List Nat → Prop) (f : Nat)
    (F : System μ → System μ → Prop) (K : System μ → Prop) : Prop where
  trans : ∀ {s₁ s₂ s₃}, F s₁ s₂ → F s₂ s₃ → F s₁ s₃
  files : ∀ {s s'}, FilesOnly s s' → SameFiles s s' → F s s'
  unclaimed : ∀ {s s' p}, F s s' → Unclaimed s p → Unclaimed s' p
  keeps : ∀ {s s'}, F s s' → K s → K s'
  read : ∀ {s s' L buffer size n}, K s → Objects Live s L →
    vfsRead M s f buffer size = .ok (n, s') → Objects Live s' L ∧ F s s'

namespace LoadFrame
variable {f : Nat} {F : System μ → System μ → Prop} {K : System μ → Prop}
  (hF : LoadFrame M Live f F K)
include hF

theorem refl : F s s := hF.files (.refl s) (.of_eq rfl)

theorem uses (h : UsesFiles Live L s s') : F s s' := hF.files h.frame h.files

theorem mem (h : MemOnly s s') : F s s' := hF.files h.filesOnly (.of_eq h.files)

private theorem loadSegment_ok (hM : M.Lawful Live) (O : Objects Live s L) {ph : Elf64Phdr}
    {pagemap : Nat} (hK : K s) (h : loadSegment M s ph f pagemap = .ok s') :
    Objects Live s' L ∧ F s s' := by
  obtain ⟨⟨physPages, m⟩, halloc, h⟩ := Exec.bind_eq_ok.mp h
  obtain ⟨m₁, hmap, h⟩ := Exec.bind_eq_ok.mp h
  have h₁ := UsesFiles.mem O (mapSegmentPages_ok hM (hM.pmmAllocPages O.live halloc) hmap)
  obtain ⟨⟨_, s₂⟩, hseek, h⟩ := Exec.bind_eq_ok.mp h
  have h₂ := h₁.trans (vfsSeek_ok h₁.objects hseek)
  obtain ⟨⟨_, s₃⟩, hread, h⟩ := Exec.bind_eq_ok.mp h
  obtain ⟨O₃, h₃⟩ := hF.read (hF.keeps (hF.uses h₂) hK) h₂.objects hread
  replace h₃ := hF.trans (hF.uses h₂) h₃
  dsimp only at h
  split at h
  · obtain ⟨m₄, hstore, h⟩ := Exec.bind_eq_ok.mp h
    cases h
    have h₄ := UsesFiles.mem O₃ (hM.store O₃.live hstore)
    exact ⟨h₄.objects, hF.trans h₃ (hF.uses h₄)⟩
  · cases h
    exact ⟨O₃, h₃⟩

private theorem loadBinarySegments_ok (hM : M.Lawful Live) (O : Objects Live s L)
    {programHeaders phCount pagemap : Nat} (hK : K s)
    (h : loadBinarySegments M s programHeaders phCount f pagemap = .ok s') :
    Objects Live s' L ∧ F s s' := by
  refine Exec.foldlM_ok (p := fun s₁ => Objects Live s₁ L ∧ F s s₁)
    (fun s₁ i s₂ _ ⟨O₁, h₁⟩ h => ?_) ⟨O, hF.refl⟩ h
  dsimp only at h
  split at h
  · obtain ⟨O₂, h₂⟩ := hF.loadSegment_ok hM O₁ (hF.keeps h₁ hK) h
    exact ⟨O₂, hF.trans h₁ h₂⟩
  · cases h
    exact ⟨O₁, h₁⟩

/-- What `load_elf_to_memory` leaves: a block with the information, or nothing. -/
theorem loadElfToMemory_ok (hM : M.Lawful Live) (O : Objects Live s L) {pagemap : Nat} (hK : K s)
    {info? : Option ElfFileInfo} (h : loadElfToMemory M s f pagemap = .ok (info?, s')) :
    F s s' ∧ (info? = none ∧ Objects Live s' L ∨
      ∃ info, info? = some info ∧ Unclaimed s' info.addr ∧ Objects Live s' (info.addr :: L)) := by
  obtain ⟨⟨header, s₁⟩, hnew, h⟩ := Exec.bind_eq_ok.mp h
  obtain ⟨-, hheader, h₁, O₁⟩ := O.newObject_ok hM hnew
  obtain ⟨⟨_, s₂⟩, hread, h⟩ := Exec.bind_eq_ok.mp h
  obtain ⟨O₂, h₂⟩ := hF.read (hF.keeps (hF.mem h₁) hK) O₁ hread
  have huHeader := hF.unclaimed h₂ (h₁.unclaimed (O.unclaimed_of_notMem hheader))
  replace h₂ := hF.trans (hF.mem h₁) h₂
  dsimp only at h
  split at h
  · obtain ⟨s₃, hfree, h⟩ := Exec.bind_eq_ok.mp h
    obtain ⟨h₃, O₃⟩ := O₂.kfree_unclaimed hM (.head _) huHeader hfree
    cases h
    rw [List.erase_cons_head] at O₃
    exact ⟨hF.trans h₂ (hF.mem h₃), .inl ⟨rfl, O₃⟩⟩
  obtain ⟨⟨headers, s₃⟩, hnew, h⟩ := Exec.bind_eq_ok.mp h
  obtain ⟨-, hheaders, h₃, O₃⟩ := O₂.newObject_ok hM hnew
  obtain ⟨⟨_, s₄⟩, hseek, h⟩ := Exec.bind_eq_ok.mp h
  have h₄ := vfsSeek_ok O₃ hseek
  have h₃₄ := hF.trans (hF.mem h₃) (hF.uses h₄)
  obtain ⟨⟨_, s₅⟩, hread, h⟩ := Exec.bind_eq_ok.mp h
  obtain ⟨O₅, h₅⟩ := hF.read (hF.keeps (hF.trans h₂ h₃₄) hK) h₄.objects hread
  replace h₅ := hF.trans h₃₄ h₅
  obtain ⟨s₆, hload, h⟩ := Exec.bind_eq_ok.mp h
  obtain ⟨O₆, h₆⟩ := hF.loadBinarySegments_ok hM O₅ (hF.keeps (hF.trans h₂ h₅) hK) hload
  replace h₆ := hF.trans h₅ h₆
  replace huHeader := hF.unclaimed h₆ huHeader
  have huHeaders := hF.unclaimed h₆ (O₂.unclaimed_of_notMem hheaders)
  obtain ⟨⟨fileInfo, s₇⟩, hnew, h⟩ := Exec.bind_eq_ok.mp h
  obtain ⟨-, hfileInfo, h₇, O₇⟩ := O₆.newObject_ok hM hnew
  obtain ⟨heapStart, -, h⟩ := Exec.bind_eq_ok.mp h
  obtain ⟨s₈, hfree, h⟩ := Exec.bind_eq_ok.mp h
  obtain ⟨h₈, O₈⟩ :=
    O₇.kfree_unclaimed hM (.tail _ (.tail _ (.head _))) (h₇.unclaimed huHeader) hfree
  obtain ⟨s₉, hfree, h⟩ := Exec.bind_eq_ok.mp h
  have hne₁ : fileInfo ≠ header := fun heq => hfileInfo (heq ▸ .tail _ (.head _))
  have hne₂ : fileInfo ≠ headers := fun heq => hfileInfo (heq ▸ .head _)
  have hne₃ : headers ≠ header := fun heq => hheaders (heq ▸ .head _)
  have herase : (fileInfo :: headers :: header :: L).erase header = fileInfo :: headers :: L := by
    rw [List.erase_cons_tail (by simpa using hne₁), List.erase_cons_tail (by simpa using hne₃),
      List.erase_cons_head]
  rw [herase] at O₈
  obtain ⟨h₉, O₉⟩ := O₈.kfree_unclaimed hM (.tail _ (.head _))
    (h₈.unclaimed (h₇.unclaimed huHeaders)) hfree
  rw [List.erase_cons_tail (by simpa using hne₂), List.erase_cons_head] at O₉
  have hframe : F s s₉ := hF.trans h₂ <| hF.trans h₆ <| hF.trans (hF.mem h₇) <|
    hF.trans (hF.mem h₈) (hF.mem h₉)
  have huInfo : Unclaimed s₉ fileInfo := h₉.unclaimed <| h₈.unclaimed <| h₇.unclaimed <|
    O₆.unclaimed_of_notMem hfileInfo
  dsimp only at h
  split at h
  · obtain ⟨s₁₀, hfree, h⟩ := Exec.bind_eq_ok.mp h
    obtain ⟨h₁₀, O₁₀⟩ := O₉.kfree_unclaimed hM (.head _) huInfo hfree
    cases h
    rw [List.erase_cons_head] at O₁₀
    exact ⟨hF.trans hframe (hF.mem h₁₀), .inl ⟨rfl, O₁₀⟩⟩
  · cases h
    exact ⟨hframe, .inr ⟨_, rfl, huInfo, O₉⟩⟩

end LoadFrame

/-- Loading a program that is not read from the keyboard only uses files. -/
theorem loadFrame_disk (hM : M.Lawful Live) {f : Nat} :
    LoadFrame M Live f (fun s s' => FilesOnly s s' ∧ SameFiles s s')
      fun s => ∃ file, s.files f = some file ∧ file.kind.fromKeyboard = false where
  trans h h' := ⟨h.1.trans h'.1, h.2.trans h'.2⟩
  files h h' := ⟨h, h'⟩
  unclaimed h hu := h.1.unclaimed h.2.contents hu
  keeps := by
    rintro s s' ⟨-, hsame⟩ ⟨file, hfile, hkind⟩
    obtain ⟨file', hfile', hkey⟩ := hsame.exists hfile
    exact ⟨file', hfile', (congrArg (·.1.fromKeyboard) hkey).trans hkind⟩
  read := by
    rintro s s' L _ _ _ ⟨file, hfile, hkind⟩ O h
    have huses := vfsRead_of_disk hM O hfile hkind h
    exact ⟨huses.objects, huses.frame, huses.files⟩

end

end TrazelOs
