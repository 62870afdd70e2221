import TrazelOs.Verify.ClusterChains
import TrazelOs.Verify.FailedOpen
import TrazelOs.Verify.FileCursor

/-! # The bounds of an open file

The size of a file is what its directory entry says, the buffer with its content is as long as its
cluster chain. Nothing compares the two, on whatever volume. -/

namespace TrazelOs

open Theory

/-! ## The entry that a path leads to -/

section Entry
variable (dev : BlockDevice) (info : Fat12Info)

/-- The walk along a path, up to the entry of the file. -/
def walkEntry : (dirEntries : List DirectoryEntry) → (dirEntriesCount : Nat) →
    (pathElement rest : List Byte) → Exec (Option DirectoryEntry)
  | dirEntries, dirEntriesCount, pathElement, [] =>
    getPathElementDirEntry dirEntries pathElement pathElement.length dirEntriesCount
  | dirEntries, dirEntriesCount, pathElement, c :: rest =>
    if c = 0x2F then do
      match ← getPathElementDirEntry dirEntries pathElement pathElement.length dirEntriesCount with
      | none => return none
      | some dirEntry =>
        let (dirEntries, dirEntriesCount) ← getFilteredDirectoryEntries dev info dirEntry
        walkEntry dirEntries dirEntriesCount [] rest
    else walkEntry dirEntries dirEntriesCount (pathElement ++ [c]) rest

/-- The directory entry that a path leads to. -/
def pathEntry (filepath : CString) : Exec (Option DirectoryEntry) := do
  let (dirEntries, dirEntriesCount) ← getRootDirectoryEntries dev info
  walkEntry dev info dirEntries dirEntriesCount [] (dropSeparator filepath.chars)

def entryContent : Option DirectoryEntry → Exec (Option (Nat × List Byte))
  | none => .ok none
  | some entry => some <$> getFileContent dev info entry

variable {dev info}

theorem walkPath_eq_walkEntry {dirEntries : List DirectoryEntry} {count : Nat} {element rest : List Byte} :
    walkPath dev info dirEntries count element rest =
      walkEntry dev info dirEntries count element rest >>= entryContent dev info := by
  induction rest generalizing dirEntries count element with
  | nil =>
    unfold walkPath walkEntry
    cases getPathElementDirEntry dirEntries element element.length count with
    | error e => rfl
    | ok found => cases found <;> rfl
  | cons c rest ih =>
    unfold walkPath walkEntry
    split
    · cases getPathElementDirEntry dirEntries element element.length count with
      | error e => rfl
      | ok found =>
        cases found with
        | none => rfl
        | some entry =>
          change (getFilteredDirectoryEntries dev info entry >>= _) =
            (getFilteredDirectoryEntries dev info entry >>= _) >>= _
          cases getFilteredDirectoryEntries dev info entry with
          | error e => rfl
          | ok listed => exact ih
    · exact ih

theorem fat12OpenPath_eq_pathEntry {filepath : CString} :
    fat12OpenPath dev info filepath = pathEntry dev info filepath >>= entryContent dev info := by
  unfold fat12OpenPath pathEntry
  cases getRootDirectoryEntries dev info with
  | error e => rfl
  | ok listed => exact walkPath_eq_walkEntry

/-- `BYTES_PER_CLUSTER`. -/
def Fat12Info.bytesPerCluster (info : Fat12Info) : Nat :=
  u32 (info.bytesPerSector * info.sectorsPerCluster)

theorem length_readClusters {fat content : List Byte} {left clusterId : Nat}
    (h : readClusters dev info fat left clusterId = .ok content) :
    content.length = left * info.bytesPerCluster := by
  induction left generalizing clusterId content with
  | zero =>
    cases h
    exact (Nat.zero_mul _).symm
  | succ left ih =>
    obtain ⟨data, hdata, h⟩ := Exec.bind_eq_ok.mp h
    obtain ⟨next, -, h⟩ := Exec.bind_eq_ok.mp h
    obtain ⟨rest, hrest, h⟩ := Exec.bind_eq_ok.mp h
    obtain ⟨_, -, hdata⟩ := Exec.bind_eq_ok.mp hdata
    cases h
    cases hdata
    rw [List.length_append, preadDevice_eq, length_slice, ih hrest, Nat.succ_mul, Nat.add_comm,
      Fat12Info.bytesPerCluster, Nat.mul_comm info.sectorsPerCluster]

/-- What `get_file_content` returns on any volume. -/
theorem getFileContent_ok {entry : DirectoryEntry} {size : Nat} {content : List Byte}
    (h : getFileContent dev info entry = .ok (size, content)) :
    ∃ fat ids, getFat dev info = .ok fat ∧ ClusterChain fat entry.firstClusterId ids ∧
      content.length = ids.length * info.bytesPerCluster ∧
      size = if entry.isDirectory then u32 (info.bytesPerCluster * ids.length)
        else entry.fileSizeInBytes := by
  obtain ⟨fat, hfat, h⟩ := Exec.bind_eq_ok.mp h
  obtain ⟨count, hcount, h⟩ := Exec.bind_eq_ok.mp h
  obtain ⟨_, -, h⟩ := Exec.bind_eq_ok.mp h
  obtain ⟨content', hread, h⟩ := Exec.bind_eq_ok.mp h
  obtain ⟨ids, hchain, rfl⟩ := countFileClusters_ok hcount
  refine ⟨fat, ids, hfat, hchain, ?_⟩
  split at h
  · rename_i hdir
    cases h
    exact ⟨length_readClusters hread, (if_pos hdir).symm⟩
  · rename_i hdir
    cases h
    exact ⟨length_readClusters hread, (if_neg hdir).symm⟩

end Entry

/-- The entry is a directory, or its size is at most that of its clusters. -/
def SizeFits (dev : BlockDevice) (info : Fat12Info) (entry : DirectoryEntry) : Prop :=
  entry.isDirectory = true ∨ ∃ fat ids, getFat dev info = .ok fat ∧
    ClusterChain fat entry.firstClusterId ids ∧
    entry.fileSizeInBytes ≤ ids.length * info.bytesPerCluster

section Open
variable {dev : BlockDevice} {info : Fat12Info} {entry : DirectoryEntry} {size : Nat}
  {content : List Byte} {filepath : CString}

theorem getFileContent_size_le_iff (h : getFileContent dev info entry = .ok (size, content)) :
    size ≤ content.length ↔ SizeFits dev info entry := by
  obtain ⟨fat, ids, hfat, hchain, hlength, hsize⟩ := getFileContent_ok h
  rw [hlength, hsize, SizeFits]
  split
  · rename_i hdir
    refine iff_of_true ?_ (.inl hdir)
    rw [Nat.mul_comm]
    exact Nat.mod_le _ _
  · rename_i hdir
    constructor
    · intro hle
      exact .inr ⟨fat, ids, hfat, hchain, hle⟩
    · rintro (hdir' | ⟨fat', ids', hfat', hchain', hle⟩)
      · exact absurd hdir' hdir
      · rw [hfat] at hfat'
        cases hfat'
        rwa [hchain.unique hchain']

theorem length_content_lt (h : getFileContent dev info entry = .ok (size, content)) :
    content.length < 2 ^ 64 := by
  obtain ⟨fat, ids, -, hchain, hlength, -⟩ := getFileContent_ok h
  have hcluster : info.bytesPerCluster ≤ 2 ^ 32 := Nat.le_of_lt (Nat.mod_lt _ (by decide))
  calc content.length = ids.length * info.bytesPerCluster := hlength
    _ ≤ (2 ^ 12 + 1) * 2 ^ 32 := Nat.mul_le_mul hchain.length_le hcluster
    _ < 2 ^ 64 := by decide

theorem fat12OpenPath_some (h : fat12OpenPath dev info filepath = .ok (some (size, content))) :
    ∃ entry, pathEntry dev info filepath = .ok (some entry) ∧
      getFileContent dev info entry = .ok (size, content) := by
  rw [fat12OpenPath_eq_pathEntry] at h
  obtain ⟨found, hfound, h⟩ := Exec.bind_eq_ok.mp h
  cases found with
  | none => cases h
  | some entry =>
    obtain ⟨r, hr, hsome⟩ := Exec.map_eq_ok.mp h
    cases hsome
    exact ⟨entry, hfound, hr⟩

theorem vfsLookup_file {path : Lookup} (h : vfsLookup dev info filepath = .ok path)
    (htarget : path.target = .file size content) :
    fat12OpenPath dev info filepath = .ok (some (size, content)) := by
  unfold vfsLookup at h
  split at h
  · cases h
    unfold devfsLookup at htarget
    dsimp only at htarget
    split at htarget <;> cases htarget
  · obtain ⟨⟨dirEntries, count⟩, hroot, h⟩ := Exec.bind_eq_ok.mp h
    obtain ⟨⟨found, calls⟩, hwalk, h⟩ := Exec.bind_eq_ok.mp h
    refine Exec.bind_eq_ok.mpr ⟨_, hroot, ?_⟩
    cases found with
    | none =>
      cases h
      cases htarget
    | some r =>
      cases h
      cases htarget
      exact walkPathCalls_found hwalk

end Open

/-! ## Reads and seeks -/

namespace FileOp

/-- The bytes that a read has `vfs_fat12_read` copy lie in the first `n` bytes of the buffer. -/
def Inside (n : Nat) (file : VfsFile) : FileOp → Prop
  | read _ size => ∀ length ∈ readLength file size, file.filePosition + length ≤ n
  | seek _ _ => True

/-- A read inside of the file has a size whose sum with the position is a word. -/
def NoWrap (file : VfsFile) : FileOp → Prop
  | read _ size => file.filePosition + size < 2 ^ 64 ∨ file.fileSize ≤ file.filePosition
  | seek _ _ => True

/-- The size of a read is a word. -/
def SizeIsWord : FileOp → Prop
  | read _ size => size < 2 ^ 64
  | seek _ _ => True

theorem inside_iff {op : FileOp} {file : VfsFile} {n : Nat} (hop : op.SizeIsWord)
    (hn : file.fileSize ≤ n) (hlt : n < 2 ^ 64) : op.Inside n file ↔ op.NoWrap file := by
  cases op with
  | seek offset whence => exact Iff.rfl
  | read buffer size => exact readLength_inside_iff hn hlt hop

end FileOp

section Calls
variable {μ : Type} {M : MemoryManager μ} {s s' : System μ} {f n : Nat} {file : VfsFile}

/-- `P` holds of every call and of the file before it. -/
def AllCalls (M : MemoryManager μ) (f : Nat) (P : VfsFile → FileOp → Prop) :
    List FileOp → System μ → Prop
  | [], _ => True
  | op :: ops, s => (∀ file, s.files f = some file → P file op) ∧
    ∀ value s', op.exec M f s = .ok (value, s') → AllCalls M f P ops s'

/-- A call changes nothing of the file but its position. -/
theorem FileOp.exec_file {op : FileOp} {value : Int} (hf : f ≠ 0) (hfile : s.files f = some file)
    (hkind : file.kind = .fat12) (h : op.exec M f s = .ok (value, s')) :
    ∃ position, s'.files f = some { file with filePosition := position } := by
  have hderef : deref s.files f = .ok file := deref_eq_ok.mpr hfile
  cases op with
  | read buffer size =>
    have h : vfsRead M s f buffer size = .ok (value, s') := h
    rw [vfsRead_eq hf hfile] at h
    cases hlength : readLength file size with
    | none =>
      rw [hlength] at h
      cases h
      exact ⟨file.filePosition, hfile⟩
    | some length =>
      rw [hlength] at h
      obtain ⟨⟨result, s₁⟩, hread, h⟩ := Exec.bind_eq_ok.mp h
      unfold readCallback at hread
      rw [hkind] at hread
      obtain ⟨mem, -, hread⟩ := Exec.bind_eq_ok.mp hread
      cases hread
      unfold advance at h
      split at h
      · obtain ⟨file', hfile', h⟩ := Exec.bind_eq_ok.mp h
        rw [hderef] at hfile'
        cases hfile'
        cases h
        exact ⟨_, Function.update_self ..⟩
      · cases h
        exact ⟨file.filePosition, hfile⟩
  | seek offset whence =>
    have h : vfsSeek s f offset whence = .ok (value, s') := h
    unfold vfsSeek at h
    rw [if_neg hf, hderef] at h
    dsimp only [bind, Except.bind, pure, Except.pure] at h
    split at h
    · cases h
      exact ⟨file.filePosition, hfile⟩
    · split at h
      · cases h
        exact ⟨file.filePosition, hfile⟩
      · cases h
        exact ⟨_, Function.update_self ..⟩

theorem allCalls_iff {P Q : VfsFile → FileOp → Prop} {ops : List FileOp} (hf : f ≠ 0)
    (hfile : s.files f = some file) (hkind : file.kind = .fat12)
    (hPQ : ∀ op ∈ ops, ∀ position,
      P { file with filePosition := position } op ↔ Q { file with filePosition := position } op) :
    AllCalls M f P ops s ↔ AllCalls M f Q ops s := by
  induction ops generalizing s file with
  | nil => exact Iff.rfl
  | cons op ops ih =>
    have hop := hPQ op (.head _) file.filePosition
    refine and_congr ?_ ?_
    · refine forall_congr' fun file' => forall_congr' fun hfile' => ?_
      rw [hfile] at hfile'
      cases hfile'
      exact hop
    · refine forall_congr' fun value => forall_congr' fun s' => forall_congr' fun hexec => ?_
      obtain ⟨position, hfile'⟩ := op.exec_file hf hfile hkind hexec
      exact ih hfile' hkind fun op hop => hPQ op (.tail _ hop)

end Calls

/-! ## Opened files -/

section Opened
variable {μ : Type} {M : MemoryManager μ} {s s' : System μ} {f : Nat} {dev : BlockDevice}
  {info : Fat12Info} {filepath : CString} {path : Lookup} {size : Nat} {content : List Byte}

/-- What `vfs_open` returns for a file of the volume. -/
theorem vfsOpen_file (htarget : path.target = .file size content)
    (h : vfsOpen M s path = .ok (f, s')) :
    f ≠ 0 ∧ ∃ p, s'.files f = some ⟨size, 0, 1, .fat12, p⟩ := by
  unfold vfsOpen at h
  rw [htarget] at h
  obtain ⟨⟨f₁, s₁⟩, hopen, h⟩ := Exec.bind_eq_ok.mp h
  obtain ⟨⟨f₂, s₂⟩, hnew, hopen⟩ := Exec.bind_eq_ok.mp hopen
  obtain ⟨s₃, -, hopen⟩ := Exec.bind_eq_ok.mp hopen
  obtain ⟨⟨p, s₄⟩, -, hopen⟩ := Exec.bind_eq_ok.mp hopen
  obtain ⟨mem, -, hopen⟩ := Exec.bind_eq_ok.mp hopen
  cases hopen
  have hne := newObject_ne hnew
  dsimp only at h
  rw [if_neg hne] at h
  obtain ⟨file, hfile, h⟩ := Exec.bind_eq_ok.mp h
  rw [deref_eq_ok] at hfile
  change Function.update _ _ _ _ = _ at hfile
  rw [Function.update_self] at hfile
  cases hfile
  cases h
  exact ⟨hne, p, Function.update_self ..⟩

/-- For every volume and every path that opens a file: the size of the file is at most that of the
buffer with its content, and all reads of a sequence of reads and seeks stay in the buffer, exactly
when the size in the directory entry fits the cluster chain, or it is a directory, and no read inside
of the file has a size that makes the sum with the position wrap. -/
theorem openedFile_inside_iff (hpath : vfsLookup dev info filepath = .ok path)
    (htarget : path.target = .file size content) (hopen : vfsOpen M s path = .ok (f, s'))
    (ops : List FileOp) (hops : ∀ op ∈ ops, op.SizeIsWord) :
    ((∃ file, s'.files f = some file ∧ file.fileSize ≤ content.length) ∧
      AllCalls M f (fun file op => op.Inside content.length file) ops s') ↔
    (∃ entry, pathEntry dev info filepath = .ok (some entry) ∧ SizeFits dev info entry) ∧
      AllCalls M f (fun file op => op.NoWrap file) ops s' := by
  obtain ⟨entry, hentry, hcontent⟩ := fat12OpenPath_some (vfsLookup_file hpath htarget)
  obtain ⟨hne, p, hfile⟩ := vfsOpen_file htarget hopen
  have hle := getFileContent_size_le_iff hcontent
  have hleft : (∃ file, s'.files f = some file ∧ file.fileSize ≤ content.length) ↔
      size ≤ content.length := by
    rw [hfile]
    constructor
    · rintro ⟨file, hfile, hle⟩
      cases hfile
      exact hle
    · intro hle
      exact ⟨_, rfl, hle⟩
  have hright : (∃ entry, pathEntry dev info filepath = .ok (some entry) ∧ SizeFits dev info entry) ↔
      SizeFits dev info entry := by
    rw [hentry]
    constructor
    · rintro ⟨entry', hentry', hfits⟩
      cases hentry'
      exact hfits
    · intro hfits
      exact ⟨entry, rfl, hfits⟩
  rw [hleft, hright, ← hle]
  refine and_congr_right fun hsize => ?_
  exact allCalls_iff hne hfile rfl fun op hop _ =>
    FileOp.inside_iff (hops op hop) hsize (length_content_lt hcontent)

end Opened

/-! ### A volume -/

theorem forgedFile_sizeFits : SizeFits forgedVolume (volumeInfo forgedHeader) forgedFile :=
  .inr ⟨_, [2], forgedHeader_valid.getFat_eq (loadFat12Header_forged ▸ loadFat12Header_fits),
    forgedFile_clusters.1, by decide⟩

def PathTarget.isFile : PathTarget → Bool
  | .file _ _ => true
  | _ => false

theorem PathTarget.isFile_iff {target : PathTarget} :
    target.isFile = true ↔ ∃ size content, target = .file size content := by
  cases target <;> simp [isFile]

/-- The file of `forgedVolume` is opened, and a read of 8 bytes stays in its buffer. -/
theorem openedFile_inside_forgedFile :
    ∃ path f s' size content, vfsLookup forgedVolume (volumeInfo forgedHeader) filePath = .ok path ∧
      path.target = .file size content ∧
      vfsOpen Flat.manager (bootSystem ⟨2, fun _ => 0, []⟩ Flat.slotSize ⟨0, 0⟩) path = .ok (f, s') ∧
      AllCalls Flat.manager f (fun file op => op.Inside content.length file)
        [.read (.kernel 0) 8] s' := by
  have hrun : (vfsLookup forgedVolume (volumeInfo forgedHeader) filePath).returns (fun path =>
      path.target.isFile &&
        (vfsOpen Flat.manager (bootSystem ⟨2, fun _ => 0, []⟩ Flat.slotSize ⟨0, 0⟩) path).returns
          fun _ => true) = true := by decide +kernel
  have hentry : pathEntry forgedVolume (volumeInfo forgedHeader) filePath =
      .ok (some forgedFile) := by decide +kernel
  obtain ⟨path, hpath, hrun⟩ := Exec.returns_iff.mp hrun
  obtain ⟨htarget, hrun⟩ := Bool.and_eq_true_iff.mp hrun
  obtain ⟨size, content, htarget⟩ := PathTarget.isFile_iff.mp htarget
  obtain ⟨⟨f, s'⟩, hopen, -⟩ := Exec.returns_iff.mp hrun
  have hiff := openedFile_inside_iff hpath htarget hopen [.read (.kernel 0) 8] fun op hop => by
    obtain rfl := List.mem_singleton.mp hop
    exact show 8 < 2 ^ 64 by decide
  refine ⟨path, f, s', size, content, hpath, htarget, hopen, (hiff.mpr ⟨⟨_, hentry, ?_⟩, ?_, ?_⟩).2⟩
  · exact forgedFile_sizeFits
  · intro file hfile
    obtain ⟨-, p, hopened⟩ := vfsOpen_file htarget hopen
    rw [hopened] at hfile
    cases hfile
    exact .inl (show 0 + 8 < 2 ^ 64 by decide)
  · intro value s₁ _
    trivial

/-- `forgedVolume` with a file `A` of 1000 bytes that has one cluster of 512. -/
def longFileVolume : BlockDevice := fun address =>
  if address = 1052 then 0xE8 else if address = 1053 then 0x03 else forgedVolume address

/-- The file is opened with a size of 1000 and a buffer of 512 bytes, and a read of 1000 bytes is
passed on as it is. In the file of 32 bytes a read at position 1 with the largest size is, too. -/
theorem openedFile_beyond :
    (initFat12 longFileVolume >>= fun info => fat12OpenPath longFileVolume info filePath).returns
        (fun found => found.any fun r => r.1 = 1000 ∧ r.2.length = 512) = true ∧
      ¬FileOp.Inside 512 ⟨1000, 0, 1, .fat12, 0x1000⟩ (.read (.kernel 0) 1000) ∧
      (initFat12 forgedVolume >>= fun info => fat12OpenPath forgedVolume info filePath).returns
        (fun found => found.any fun r => r.1 = 32 ∧ r.2.length = 512) = true ∧
      ¬FileOp.Inside 512 ⟨32, 1, 1, .fat12, 0x1000⟩ (.read (.kernel 0) (2 ^ 64 - 1)) := by
  refine ⟨by decide +kernel, fun hinside => ?_, by decide +kernel, fun hinside => ?_⟩
  · exact absurd (hinside 1000 (by decide)) (by decide)
  · exact absurd (hinside (2 ^ 64 - 1) (by decide)) (by decide)

end TrazelOs
