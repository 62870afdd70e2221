import TrazelOs.Verify.Fat12

/-! # Paths of a FAT12 volume

What a path stands for, in terms of the format, and what `fat12_open` makes of it: the same, where
every component but the last names a directory. The driver does not check that, and reads any other
file as a directory, too. -/

namespace TrazelOs

variable {dev : BlockDevice} {h : Fat12Header}

/-! ## The reference -/

theorem tolower_ne_zero {ch : Byte} (hne : ch ≠ 0) : tolower ch ≠ 0 := by
  revert ch
  unfold tolower
  decide +kernel

theorem filter_padded {l : List Byte} {n : Nat} (hl : ∀ ch ∈ l, ch ≠ 0x20) :
    (l ++ List.replicate n 0x20).filter (· ≠ 0x20) = l := by
  have hfill : (List.replicate n (0x20 : Byte)).filter (· ≠ 0x20) = [] :=
    List.filter_eq_nil_iff.mpr fun ch hch => by
      rw [List.eq_of_mem_replicate hch]
      decide
  rw [List.filter_append, hfill, List.append_nil]
  exact List.filter_eq_self.mpr fun ch hch => decide_eq_true (hl ch hch)

/-- The string of a name whose two parts are filled up at their ends only. -/
theorem fatFileNameToStr_eq {filename name extension : List Byte}
    (hfilename : filename = name ++ List.replicate (8 - name.length) 0x20 ++
      (extension ++ List.replicate (3 - extension.length) 0x20))
    (hname : name.length ≤ 8) (hextension : extension.length ≤ 3)
    (hplain : ∀ ch ∈ name ++ extension, ch ≠ 0x20) :
    fatFileNameToStr filename =
      (name ++ if extension = [] then [] else 0x2E :: extension).map tolower := by
  have hlength : (name ++ List.replicate (8 - name.length) (0x20 : Byte)).length = 8 := by
    rw [List.length_append, List.length_replicate]
    omega
  have htake : (filename.take 8).filter (· ≠ 0x20) = name := by
    rw [hfilename, List.take_left' hlength]
    exact filter_padded fun ch hch => hplain ch (List.mem_append_left _ hch)
  have hdrop : filename.drop 8 = extension ++ List.replicate (3 - extension.length) 0x20 := by
    rw [hfilename, List.drop_left' hlength]
  have hext : ((filename.drop 8).take 3).filter (· ≠ 0x20) = extension := by
    rw [hdrop, List.take_of_length_le (by rw [List.length_append, List.length_replicate]; omega)]
    exact filter_padded fun ch hch => hplain ch (List.mem_append_right _ hch)
  have hfirst : filename.getD 8 0 = (filename.drop 8).getD 0 0 := by
    simp only [List.getD_eq_getElem?_getD, List.getElem?_drop]
  unfold fatFileNameToStr
  dsimp only
  refine congrArg (List.map tolower) ?_
  rw [List.filter_append, htake, hfirst]
  refine congrArg (name ++ ·) ?_
  rw [hdrop]
  rw [hdrop] at hext
  cases extension with
  | nil => rfl
  | cons ch extension =>
    have hch : ch ≠ 0x20 := hplain ch (List.mem_append_right _ List.mem_cons_self)
    rw [if_neg (List.cons_ne_nil _ _), if_pos (by rwa [List.cons_append, List.getD_cons_zero]),
      List.filter_cons_of_pos (by decide), hext]

/-- The name of an entry whose name and extension are filled up at their ends only. -/
theorem DirectoryEntry.shortName_eq {entry : DirectoryEntry} {name extension : List Byte}
    (hentry : entry.fileName = name ++ List.replicate (8 - name.length) 0x20 ++
      (extension ++ List.replicate (3 - extension.length) 0x20))
    (hname : name.length ≤ 8) (hextension : extension.length ≤ 3)
    (hplain : ∀ ch ∈ name ++ extension, ch ≠ 0x20 ∧ ch ≠ 0) :
    entry.shortName =
      (name ++ if extension = [] then [] else 0x2E :: extension).map tolower := by
  rw [← fatFileNameToStr_takeWhile,
    fatFileNameToStr_eq hentry hname hextension fun ch hch => (hplain ch hch).1]
  refine List.takeWhile_eq_self_iff.mpr fun ch hch => ?_
  obtain ⟨ch', hch', rfl⟩ := List.mem_map.mp hch
  refine decide_eq_true (tolower_ne_zero ?_)
  rcases List.mem_append.mp hch' with hch' | hch'
  · exact (hplain ch' (List.mem_append_left _ hch')).2
  · split at hch'
    · cases hch'
    · rcases List.mem_cons.mp hch' with rfl | hch'
      · decide
      · exact (hplain ch' (List.mem_append_right _ hch')).2

namespace Fat12Header
variable (h : Fat12Header) (dev : BlockDevice)

/-- The clusters of the data area. -/
def IsDataCluster (clusterId : Nat) : Prop := 2 ≤ clusterId ∧ clusterId < h.clusterCount + 2

/-- The bytes of a cluster of the data area. -/
def dataBytes (clusterId : Nat) : List Byte :=
  slice dev ((h.dataStart + (clusterId - 2) * h.sectorsPerCluster) * h.bytesPerSector) h.bytesPerCluster

/-- The chain of the entry: clusters of the data area, the last of which has 0xFFF in the table. -/
def IsChain (entry : DirectoryEntry) (ids : List Nat) : Prop :=
  h.FileClusters dev entry ids ∧ ∀ id ∈ ids, h.IsDataCluster id

open Classical in
/-- The bytes of the chain of the entry. -/
noncomputable def chainBytes (entry : DirectoryEntry) : List Byte :=
  if hchain : ∃ ids, h.IsChain dev entry ids then hchain.choose.flatMap (h.dataBytes dev) else []

/-- The files and directories of a directory. -/
noncomputable def children (entry : DirectoryEntry) : List DirectoryEntry :=
  listing (directoryEntries (h.chainBytes dev entry))

/-- The entry that the components lead to from a directory. -/
noncomputable def resolve : List DirectoryEntry → List (List Byte) → Option DirectoryEntry
  | _, [] => none
  | entries, [c] => lookupEntry entries c
  | entries, c :: c' :: cs => (lookupEntry entries c).bind fun entry =>
    resolve (h.children dev entry) (c' :: cs)

/-- Every directory on the way has entries, every entry on the way has a chain, and those before the
last one are directories. -/
def Passable : List DirectoryEntry → List (List Byte) → Prop
  | _, [] => True
  | entries, c :: cs => entries ≠ [] ∧ ∀ entry, lookupEntry entries c = some entry →
    (∃ ids, h.IsChain dev entry ids) ∧
      (cs ≠ [] → entry.isDirectory = true ∧ Passable (h.children dev entry) cs)

/-- The file of an entry: its size and the bytes of its chain. -/
noncomputable def fileOf (entry : DirectoryEntry) : Nat × List Byte :=
  (if entry.isDirectory then (h.chainBytes dev entry).length else entry.fileSizeInBytes,
    h.chainBytes dev entry)

end Fat12Header

section Reference
variable {entry : DirectoryEntry} {ids ids' : List Nat}

theorem Fat12Header.FileClusters.unique (hids : h.FileClusters dev entry ids)
    (hids' : h.FileClusters dev entry ids') : ids = ids' := Theory.Chain.unique hids.1 hids'.1

theorem Fat12Header.IsChain.chainBytes_eq (hchain : h.IsChain dev entry ids) :
    h.chainBytes dev entry = ids.flatMap (h.dataBytes dev) := by
  have hex : ∃ ids, h.IsChain dev entry ids := ⟨ids, hchain⟩
  rw [Fat12Header.chainBytes, dif_pos hex, hex.choose_spec.1.unique hchain.1]

variable (V : ValidHeader h) (F : HeaderFits h)
include V F

/-- The driver finds a cluster where the format has it: the offset of a 12-bit id is a 32-bit
word. -/
theorem ValidHeader.clusterBytes_eq {clusterId : Nat} (hle : 2 ≤ clusterId) (hlt : clusterId < 2 ^ 12) :
    h.clusterBytes dev clusterId = h.dataBytes dev clusterId := by
  have hstart := V.dataStart_le F
  have hin : (clusterId - 2) * h.sectorsPerCluster ≤ 2 ^ 12 * 128 :=
    Nat.mul_le_mul (by omega) V.sectorsPerCluster_le
  have hbytes : (h.dataStart + (clusterId - 2) * h.sectorsPerCluster) * h.bytesPerSector < 2 ^ 32 :=
    Nat.lt_of_le_of_lt (Nat.mul_le_mul (Nat.add_le_add hstart hin) V.bytesPerSector_le) (by decide)
  rw [Fat12Header.clusterBytes, Fat12Header.dataBytes, u32Sub_of_le (by omega) hle,
    u32_of_lt (n := (clusterId - 2) * _) (by omega), u32_of_lt (n := h.dataStart + _) (by omega),
    u32_of_lt hbytes]

theorem Fat12Header.IsChain.content_eq (hchain : h.IsChain dev entry ids) :
    h.content dev ids = h.chainBytes dev entry := by
  rw [hchain.chainBytes_eq, Fat12Header.content, List.flatMap, List.flatMap]
  refine congrArg List.flatten (List.map_congr_left fun id hid => ?_)
  have hid := hchain.2 id hid
  have hcount := V.clusterCount
  exact V.clusterBytes_eq F hid.1 (by have := hid.2; omega)

omit V F in
theorem Fat12Header.length_content : (h.content dev ids).length = ids.length * h.bytesPerCluster := by
  induction ids with
  | nil => rw [List.length_nil, Nat.zero_mul]; rfl
  | cons id ids ih =>
    rw [Fat12Header.content, List.flatMap_cons, List.length_append, Fat12Header.clusterBytes, length_slice,
      List.length_cons, Nat.succ_mul, Nat.add_comm, ← ih]
    rfl

theorem Fat12Header.IsChain.fileOf_eq (hchain : h.IsChain dev entry ids) :
    h.fileOf dev entry = (h.contentSize entry ids.length, h.content dev ids) := by
  rw [Fat12Header.fileOf, ← hchain.content_eq V F, Fat12Header.length_content, Fat12Header.contentSize]

/-- A directory with entries is read as what it is. -/
theorem Fat12Header.IsChain.readsAs (hchain : h.IsChain dev entry ids)
    (hdirectory : entry.isDirectory = true) (hne : h.children dev entry ≠ []) :
    h.ReadsAs dev entry (h.children dev entry) := by
  have hsize : h.contentSize entry ids.length = (h.content dev ids).length := by
    rw [Fat12Header.contentSize, if_pos hdirectory, Fat12Header.length_content]
  have hlength : (directoryEntries (h.content dev ids)).length =
      h.contentSize entry ids.length / sizeofDirectoryEntry := by
    rw [directoryEntries, List.length_map, List.length_range, hsize]
  refine ⟨ids, hchain.1, .inl (Nat.le_of_eq hlength.symm), ?_, hne⟩
  rw [List.take_of_length_le (Nat.le_of_eq hlength), Fat12Header.children, hchain.content_eq V F]

theorem ValidHeader.walk_resolve {entries : List DirectoryEntry} {cs : List (List Byte)} (hcs : cs ≠ [])
    (hpass : h.Passable dev entries cs) :
    h.Walk dev entries cs ((h.resolve dev entries cs).map (h.fileOf dev)) := by
  induction cs generalizing entries with
  | nil => exact absurd rfl hcs
  | cons c cs ih =>
    obtain ⟨-, hpass⟩ := hpass
    cases cs with
    | nil =>
      rw [Fat12Header.walk_single, Fat12Header.resolve]
      cases hlookup : lookupEntry entries c with
      | none => rfl
      | some entry =>
        obtain ⟨⟨ids, hchain⟩, -⟩ := hpass entry hlookup
        exact ⟨ids, hchain.1, congrArg some (hchain.fileOf_eq V F)⟩
    | cons c' cs =>
      rw [Fat12Header.walk_cons (List.cons_ne_nil _ _), Fat12Header.resolve]
      cases hlookup : lookupEntry entries c with
      | none => rfl
      | some entry =>
        obtain ⟨⟨ids, hchain⟩, hnext⟩ := hpass entry hlookup
        obtain ⟨hdirectory, hnext⟩ := hnext (List.cons_ne_nil _ _)
        exact ⟨_, hchain.readsAs V F hdirectory hnext.1, ih (List.cons_ne_nil _ _) hnext⟩

end Reference

/-- On a path that can be passed, `fat12_open` returns what the path stands for. -/
theorem fat12OpenPath_resolve (V : ValidVolume dev) (filepath : CString)
    (hpass : (loadFat12Header dev).Passable dev ((loadFat12Header dev).rootListing dev)
      (components (dropSeparator filepath.chars))) :
    (initFat12 dev >>= fun info => fat12OpenPath dev info filepath) =
      .ok (((loadFat12Header dev).resolve dev ((loadFat12Header dev).rootListing dev)
        (components (dropSeparator filepath.chars))).map ((loadFat12Header dev).fileOf dev)) := by
  refine (fat12OpenPath_eq V).mpr ⟨?_, V.walk_resolve loadFat12Header_fits components_ne_nil hpass⟩
  have hne : components (dropSeparator filepath.chars) ≠ [] := components_ne_nil
  obtain ⟨c, cs, hcs⟩ := List.exists_cons_of_ne_nil hne
  rw [hcs] at hpass
  exact hpass.1

/-! ### A volume -/

theorem lookupEntry_ne_nil {entries : List DirectoryEntry} {c : List Byte} {entry : DirectoryEntry}
    (hlookup : lookupEntry entries c = some entry) : entries ≠ [] := by
  rintro rfl
  cases hlookup

/-- The bytes of an entry for a file with a name of one letter. -/
def plainEntry (base : Nat) (letter clusterId size : Byte) : List (Nat × Byte) :=
  (base, letter) :: (List.range 10).map (fun i => (base + 1 + i, 0x20)) ++
    [(base + 11, 0x20), (base + 26, clusterId), (base + 28, size)]

/-- Eight sectors: the header, a table, the root directory with the file `A`, and five clusters. The
cluster of `A` has the bytes of an entry `B` for the cluster after it. -/
def forgedBytes : List (Nat × Byte) :=
  [(12, 0x02), (13, 1), (14, 1), (16, 1), (17, 16), (19, 8), (22, 1),
    (515, 0xFF), (516, 0xFF), (517, 0xFF)] ++
    plainEntry 1024 0x41 2 32 ++ plainEntry 1536 0x42 3 1

def forgedVolume : BlockDevice := fun address => (forgedBytes.lookup address).getD 0

def forgedHeader : Fat12Header where
  bytesPerSector := 512
  sectorsPerCluster := 1
  reservedSectorCount := 1
  tableCount := 1
  rootEntryCount := 16
  totalSectors16 := 8
  tableSize16 := 1
  totalSectors32 := 0

def forgedFile : DirectoryEntry where
  fileName := 0x41 :: List.replicate 10 0x20
  attributes := 0x20
  firstClusterId := 2
  fileSizeInBytes := 32

theorem loadFat12Header_forged : loadFat12Header forgedVolume = forgedHeader := by decide +kernel

theorem forgedHeader_valid : ValidHeader forgedHeader := by constructor <;> decide +kernel

theorem forgedVolume_valid : ValidVolume forgedVolume := by
  rw [ValidVolume, loadFat12Header_forged]
  exact forgedHeader_valid

theorem forgedFile_listed :
    lookupEntry (forgedHeader.rootListing forgedVolume) [0x61] = some forgedFile := by decide +kernel

theorem forgedFile_clusters : forgedHeader.FileClusters forgedVolume forgedFile [2] :=
  ⟨.step (by decide) (show nextCluster _ 2 = some 0xFFF by decide +kernel) .stop,
    List.cons_ne_nil _ _⟩

/-- `/a`, the path of the file. -/
def filePath : CString := ⟨[0x2F, 0x61], by decide⟩

theorem components_filePath : components (dropSeparator filePath.chars) = [[0x61]] := by
  decide +kernel

/-- `/a` is opened as the file of the entry. -/
theorem fat12OpenPath_resolve_file :
    (loadFat12Header forgedVolume).resolve forgedVolume
        ((loadFat12Header forgedVolume).rootListing forgedVolume)
        (components (dropSeparator filePath.chars)) = some forgedFile ∧
      (initFat12 forgedVolume >>= fun info => fat12OpenPath forgedVolume info filePath) =
        .ok (some ((loadFat12Header forgedVolume).fileOf forgedVolume forgedFile)) := by
  have hpass : (loadFat12Header forgedVolume).Passable forgedVolume
      ((loadFat12Header forgedVolume).rootListing forgedVolume)
      (components (dropSeparator filePath.chars)) := by
    rw [components_filePath, loadFat12Header_forged]
    refine ⟨lookupEntry_ne_nil forgedFile_listed, fun entry hentry => ⟨⟨[2], ?_⟩, (absurd rfl ·)⟩⟩
    rw [forgedFile_listed] at hentry
    cases hentry
    exact ⟨forgedFile_clusters, fun id hid => List.mem_singleton.mp hid ▸ ⟨by decide, by decide⟩⟩
  have hresolve : (loadFat12Header forgedVolume).resolve forgedVolume
      ((loadFat12Header forgedVolume).rootListing forgedVolume)
      (components (dropSeparator filePath.chars)) = some forgedFile := by
    rw [components_filePath, loadFat12Header_forged, Fat12Header.resolve, forgedFile_listed]
  refine ⟨hresolve, ?_⟩
  rw [fat12OpenPath_resolve forgedVolume_valid filePath hpass, hresolve, Option.map_some]

/-! ## Files that are read as directories -/

/-- The components lead through directories to a file that is no directory, and go on with `rest`. -/
inductive Fat12Header.ThroughFile (h : Fat12Header) (dev : BlockDevice) :
    List DirectoryEntry → List (List Byte) → DirectoryEntry → List (List Byte) → Prop
  | file {entries : List DirectoryEntry} {c : List Byte} {rest : List (List Byte)}
    {file : DirectoryEntry} : lookupEntry entries c = some file → file.isDirectory = false →
    rest ≠ [] → ThroughFile h dev entries (c :: rest) file rest
  | enter {entries entries' : List DirectoryEntry} {c : List Byte} {cs rest : List (List Byte)}
    {entry file : DirectoryEntry} : lookupEntry entries c = some entry → entry.isDirectory = true →
    h.ReadsAs dev entry entries' → ThroughFile h dev entries' cs file rest →
    ThroughFile h dev entries (c :: cs) file rest

theorem Fat12Header.ReadsAs.unique {entry : DirectoryEntry} {entries entries' : List DirectoryEntry}
    (hreads : h.ReadsAs dev entry entries) (hreads' : h.ReadsAs dev entry entries') :
    entries = entries' := by
  obtain ⟨ids, hids, -, rfl, -⟩ := hreads
  obtain ⟨ids', hids', -, rfl, -⟩ := hreads'
  rw [hids.unique hids']

section
variable {entries : List DirectoryEntry} {cs rest : List (List Byte)} {file : DirectoryEntry}

theorem Fat12Header.ThroughFile.ne_nil (hthrough : h.ThroughFile dev entries cs file rest) :
    entries ≠ [] ∧ cs ≠ [] := by
  cases hthrough with
  | file hlookup _ _ => exact ⟨lookupEntry_ne_nil hlookup, List.cons_ne_nil _ _⟩
  | enter hlookup _ _ _ => exact ⟨lookupEntry_ne_nil hlookup, List.cons_ne_nil _ _⟩

/-- Beyond the file the walk goes on in what the file is read as. -/
theorem Fat12Header.ThroughFile.walk_iff {r : Option (Nat × List Byte)}
    (hthrough : h.ThroughFile dev entries cs file rest) :
    h.Walk dev entries cs r ↔
      ∃ entries', h.ReadsAs dev file entries' ∧ h.Walk dev entries' rest r := by
  induction hthrough with
  | file hlookup _ hrest => rw [Fat12Header.walk_cons hrest, hlookup]
  | @enter _ entries' _ _ _ _ _ hlookup _ hreads hthrough ih =>
    rw [Fat12Header.walk_cons hthrough.ne_nil.2, hlookup]
    constructor
    · rintro ⟨entries'', hreads', hwalk⟩
      rw [← hreads.unique hreads'] at hwalk
      exact ih.mp hwalk
    · intro hwalk
      exact ⟨entries', hreads, ih.mpr hwalk⟩

end

/-- A path that goes on after a file that is no directory is rejected exactly when the rest of the
path leads nowhere in the bytes of the file, read as a directory. -/
theorem fat12OpenPath_through_file_iff (V : ValidVolume dev) {filepath : CString}
    {file : DirectoryEntry} {rest : List (List Byte)}
    (hthrough : (loadFat12Header dev).ThroughFile dev ((loadFat12Header dev).rootListing dev)
      (components (dropSeparator filepath.chars)) file rest) :
    (initFat12 dev >>= fun info => fat12OpenPath dev info filepath) = .ok none ↔
      ∃ entries, (loadFat12Header dev).ReadsAs dev file entries ∧
        (loadFat12Header dev).Walk dev entries rest none := by
  rw [fat12OpenPath_eq V, hthrough.walk_iff]
  exact and_iff_right hthrough.ne_nil.1

/-- `/a/c`, which the bytes of the file have no entry for. -/
def missingPath : CString := ⟨[0x2F, 0x61, 0x2F, 0x63], by decide⟩

/-- `/a/b`, which the bytes of the file have an entry for. -/
def forgedPath : CString := ⟨[0x2F, 0x61, 0x2F, 0x62], by decide⟩

theorem forgedVolume_through (c : List Byte) :
    forgedHeader.ThroughFile forgedVolume (forgedHeader.rootListing forgedVolume) [[0x61], c]
      forgedFile [c] := .file forgedFile_listed (by decide) (List.cons_ne_nil _ _)

theorem fat12OpenPath_through_file_missing :
    (initFat12 forgedVolume >>= fun info => fat12OpenPath forgedVolume info missingPath) =
      .ok none := by
  have hcomponents : components (dropSeparator missingPath.chars) = [[0x61], [0x63]] := by
    decide +kernel
  have hthrough := forgedVolume_through [0x63]
  rw [← hcomponents, ← loadFat12Header_forged] at hthrough
  refine (fat12OpenPath_through_file_iff forgedVolume_valid hthrough).mpr ?_
  rw [loadFat12Header_forged]
  exact ⟨_, ⟨[2], forgedFile_clusters, .inl (by decide +kernel), rfl, by decide +kernel⟩,
    .missing (by decide +kernel)⟩

/-- `/a/b` goes on after a file, and is opened. -/
theorem forgedPath_opens : ValidVolume forgedVolume ∧
    (loadFat12Header forgedVolume).ThroughFile forgedVolume
      ((loadFat12Header forgedVolume).rootListing forgedVolume)
      (components (dropSeparator forgedPath.chars)) forgedFile [[0x62]] ∧
    ∃ content, (initFat12 forgedVolume >>= fun info => fat12OpenPath forgedVolume info forgedPath) =
      .ok (some (1, content)) := by
  have hcomponents : components (dropSeparator forgedPath.chars) = [[0x61], [0x62]] := by
    decide +kernel
  have hthrough := forgedVolume_through [0x62]
  rw [← hcomponents, ← loadFat12Header_forged] at hthrough
  exact ⟨forgedVolume_valid, hthrough, List.replicate 512 0, by decide +kernel⟩

end TrazelOs
