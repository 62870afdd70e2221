import Mathlib.Data.List.Chain
import TrazelOs.Kernel.Lookup
import TrazelOs.Verify.Resolution

/-! # The two passes over the clusters of a file

`get_file_content` follows the chain of a file twice: `count_file_clusters` counts the clusters up to
the mark `0xFFF`, and the loop that reads them takes that many steps. The format lets a chain end in
any of the marks `0xFF8` to `0xFFF`; the others are followed like the id of a cluster. -/

namespace TrazelOs

open Theory

/-- The clusters that the loop of `count_file_clusters` counts. -/
def countedClusters (fat : List Byte) : (turns currClusterId : Nat) → Exec (List Nat)
  | 0, _ => .error .hang
  | turns + 1, currClusterId =>
    if currClusterId = fatLastClusterNum then .ok []
    else do
      let next ← getNextClusterId currClusterId fat
      let rest ← countedClusters fat turns next
      return currClusterId :: rest

/-- The clusters that the loop of `get_file_content` reads. -/
def clustersToRead (fat : List Byte) : (left currClusterId : Nat) → Exec (List Nat)
  | 0, _ => .ok []
  | left + 1, currClusterId => do
    let next ← getNextClusterId currClusterId fat
    let rest ← clustersToRead fat left next
    return currClusterId :: rest

section Passes
variable {fat : List Byte} {clusterId turns left : Nat} {ids : List Nat}

theorem countFileClusters_counted :
    countFileClusters fat turns clusterId = List.length <$> countedClusters fat turns clusterId := by
  induction turns generalizing clusterId with
  | zero => rfl
  | succ turns ih =>
    unfold countFileClusters countedClusters
    split
    · rfl
    · simp only [ih]
      cases getNextClusterId clusterId fat with
      | error e => rfl
      | ok next =>
        rw [Exec.ok_bind, Exec.ok_bind]
        cases countedClusters fat turns next <;> rfl

theorem ValidHeader.readClusters_toRead {h : Fat12Header} (V : ValidHeader h) {dev : BlockDevice} :
    readClusters dev (volumeInfo h) fat left clusterId =
      (·.flatMap (h.clusterBytes dev)) <$> clustersToRead fat left clusterId := by
  induction left generalizing clusterId with
  | zero => rfl
  | succ left ih =>
    unfold readClusters clustersToRead
    simp only [V.readCluster_eq, Exec.ok_bind, ih]
    cases getNextClusterId clusterId fat with
    | error e => rfl
    | ok next =>
      rw [Exec.ok_bind, Exec.ok_bind]
      cases clustersToRead fat left next <;> rfl

theorem countedClusters_eq (hchain : ClusterChain fat clusterId ids) (hlt : ids.length < turns) :
    countedClusters fat turns clusterId = .ok ids := by
  induction hchain generalizing turns with
  | stop =>
    obtain ⟨turns, rfl⟩ := Nat.exists_eq_succ_of_ne_zero (Nat.ne_of_gt hlt)
    exact if_pos rfl
  | step hne hnext _ ih =>
    obtain ⟨turns, rfl⟩ := Nat.exists_eq_succ_of_ne_zero (Nat.ne_of_gt (Nat.zero_lt_of_lt hlt))
    rw [countedClusters, if_neg hne, getNextClusterId_eq.mpr hnext, Exec.ok_bind,
      ih (Nat.lt_of_succ_lt_succ hlt)]
    rfl

theorem clustersToRead_eq (hchain : ClusterChain fat clusterId ids) :
    clustersToRead fat ids.length clusterId = .ok ids := by
  induction hchain with
  | stop => rfl
  | step _ hnext _ ih =>
    rw [List.length_cons, clustersToRead, getNextClusterId_eq.mpr hnext, Exec.ok_bind, ih]
    rfl

end Passes

/-! ## Chains of the format -/

/-- The id of a cluster whose entry lies in the table: none of the reserved ids and marks. -/
def IsClusterId (fat : List Byte) (id : Nat) : Prop :=
  2 ≤ id ∧ id < 0xFF7 ∧ id + id / 2 + 1 < fat.length

/-- Each of the ids links to the next one, and the last one has `mark` in the table. -/
structure LinkedTo (fat : List Byte) (mark : Nat) (ids : List Nat) : Prop where
  isClusterId : ∀ id ∈ ids, IsClusterId fat id
  links : ids.IsChain fun id next => tableEntry12 fat id = next
  last : ∀ id, ids.getLast? = some id → tableEntry12 fat id = mark

/-- The cluster chain of a directory entry, with the mark that it ends in. -/
structure Fat12Header.EntryChain (h : Fat12Header) (dev : BlockDevice) (entry : DirectoryEntry)
    (mark : Nat) (ids : List Nat) : Prop where
  first : ids.head? = some entry.firstClusterId
  nodup : ids.Nodup
  linked : LinkedTo (h.fatBytes dev) mark ids

section Linked
variable {fat : List Byte} {mark id turns : Nat} {ids : List Nat}

theorem LinkedTo.tail (hlinked : LinkedTo fat mark (id :: ids)) : LinkedTo fat mark ids where
  isClusterId := fun i hi => hlinked.isClusterId i (List.mem_cons_of_mem _ hi)
  links := hlinked.links.tail
  last := fun i hi => hlinked.last i (by
    cases ids with
    | nil => cases hi
    | cons next ids => rwa [List.getLast?_cons_cons])

/-- What follows a cluster of the chain in the table. -/
theorem LinkedTo.nextCluster_eq (hlinked : LinkedTo fat mark (id :: ids)) :
    nextCluster fat id = some (ids.headD mark) := by
  rw [nextCluster, if_pos (hlinked.isClusterId id List.mem_cons_self).2.2]
  cases ids with
  | nil => exact congrArg some (hlinked.last id rfl)
  | cons next ids => exact congrArg some (List.isChain_cons_cons.mp hlinked.links).1

theorem LinkedTo.ne_mark (hlinked : LinkedTo fat mark (id :: ids)) : id ≠ fatLastClusterNum := by
  have := (hlinked.isClusterId id List.mem_cons_self).2.1
  simp only [fatLastClusterNum]
  omega

theorem LinkedTo.length_le (hlinked : LinkedTo fat mark ids) (hnodup : ids.Nodup) :
    ids.length ≤ 2 ^ 12 := by
  have hsub : ids ⊆ List.range (2 ^ 12) := fun i hi =>
    List.mem_range.mpr (Nat.lt_trans (hlinked.isClusterId i hi).2.1 (by decide))
  have := (hnodup.subperm hsub).length_le
  rwa [List.length_range] at this

/-- The chain that ends in the mark of the driver is the one that it follows. -/
theorem LinkedTo.clusterChain (hlinked : LinkedTo fat fatLastClusterNum ids) :
    ClusterChain fat (ids.headD fatLastClusterNum) ids := by
  induction ids with
  | nil => exact .stop
  | cons id ids ih => exact .step hlinked.ne_mark hlinked.nextCluster_eq (ih hlinked.tail)

/-- The counting pass goes on at the mark of the chain as if it were a cluster. -/
theorem LinkedTo.countFileClusters_eq (hlinked : LinkedTo fat mark ids) :
    countFileClusters fat (turns + ids.length) (ids.headD mark) =
      (· + ids.length) <$> countFileClusters fat turns mark := by
  induction ids with
  | nil =>
    simp only [List.headD_nil, List.length_nil, Nat.add_zero]
    cases countFileClusters fat turns mark <;> rfl
  | cons id ids ih =>
    rw [List.length_cons, ← Nat.add_assoc, List.headD_cons, countFileClusters,
      if_neg hlinked.ne_mark, getNextClusterId_eq.mpr hlinked.nextCluster_eq, Exec.ok_bind,
      ih hlinked.tail]
    cases countFileClusters fat turns mark <;> rfl

/-- A mark behind the end of the table is read as the id of a cluster. -/
theorem LinkedTo.countFileClusters_wild (hlinked : LinkedTo fat mark ids)
    (hne : mark ≠ fatLastClusterNum) (hout : fat.length ≤ mark + mark / 2) :
    countFileClusters fat (turns + 1 + ids.length) (ids.headD mark) = .error .wild := by
  rw [hlinked.countFileClusters_eq, countFileClusters, if_neg hne, getNextClusterId, arrayGet_none hout]
  rfl

theorem countFileClusters_eq_zero (hcount : countFileClusters fat turns id = .ok 0) :
    id = fatLastClusterNum := by
  obtain ⟨ids, hchain, hlength⟩ := countFileClusters_ok hcount
  rw [List.length_eq_zero_iff.mp hlength] at hchain
  cases hchain
  rfl

end Linked

/-! ## The content of a file -/

section Content
variable {dev : BlockDevice} {entry : DirectoryEntry} {mark : Nat} {ids : List Nat}

theorem Fat12Header.EntryChain.headD_eq {h : Fat12Header} (hchain : h.EntryChain dev entry mark ids) :
    ids.headD mark = entry.firstClusterId := by
  rw [List.headD_eq_head?_getD, hchain.first, Option.getD_some]

theorem Fat12Header.EntryChain.ne_nil {h : Fat12Header} (hchain : h.EntryChain dev entry mark ids) :
    ids ≠ [] := by
  rintro rfl
  cases hchain.first

theorem Fat12Header.EntryChain.fileClusters {h : Fat12Header}
    (hchain : h.EntryChain dev entry fatLastClusterNum ids) : h.FileClusters dev entry ids :=
  ⟨hchain.headD_eq ▸ hchain.linked.clusterChain, hchain.ne_nil⟩

theorem ValidHeader.flatMap_clusterBytes {h : Fat12Header} (V : ValidHeader h) (F : HeaderFits h)
    (hchain : h.EntryChain dev entry mark ids) :
    ids.flatMap (h.clusterBytes dev) = ids.flatMap (h.dataBytes dev) := by
  rw [List.flatMap, List.flatMap]
  refine congrArg List.flatten (List.map_congr_left fun id hid => ?_)
  obtain ⟨hle, hlt, -⟩ := hchain.linked.isClusterId id hid
  exact V.clusterBytes_eq F hle (Nat.lt_trans hlt (by decide))

theorem initFat12_eq (V : ValidVolume dev) :
    initFat12 dev = .ok (volumeInfo (loadFat12Header dev)) := V.loadFat12Info_eq loadFat12Header_fits

/-- The heap calls of `get_file_content` for a chain of the driver. -/
theorem ValidHeader.getFileContentCalls_eq {h : Fat12Header} (V : ValidHeader h) (F : HeaderFits h)
    (hids : h.FileClusters dev entry ids) :
    getFileContentCalls dev (volumeInfo h) entry =
      .ok ([.alloc (h.fatBytes dev).length, .alloc (ids.length * h.bytesPerCluster)] ++
        clusterCalls ids.length h.bytesPerCluster ++ [.release 1]) := by
  have hcluster : u32 (h.bytesPerSector * h.sectorsPerCluster) = h.bytesPerCluster := by
    rw [Nat.mul_comm]
    exact u32_of_lt (Nat.lt_of_le_of_lt V.bytesPerCluster_le (by decide))
  have htable : u32 (h.tableSize16 * h.bytesPerSector) = (h.fatBytes dev).length := by
    rw [Fat12Header.fatBytes, length_slice]
    exact u32_of_lt (Nat.lt_of_le_of_lt
      (Nat.mul_le_mul (Nat.le_of_lt F.tableSize16) V.bytesPerSector_le) (by decide))
  have hlt : ids.length < 2 ^ 16 + 1 := Nat.lt_of_le_of_lt hids.1.length_le (by decide)
  unfold getFileContentCalls
  rw [V.getFat_eq F, Exec.ok_bind, countFileClusters_eq hids.1 hlt, Exec.ok_bind]
  simp only [volumeInfo, hcluster, htable]
  rfl

/-- For a chain that ends in `0xFFF`, `get_file_content` allocates a buffer of the length of the
clusters and fills it with them in the order of the chain. Both passes visit its clusters. -/
theorem getFileContent_entryChain (V : ValidVolume dev)
    (hchain : (loadFat12Header dev).EntryChain dev entry 0xFFF ids) :
    ∃ info fat, initFat12 dev = .ok info ∧ getFat dev info = .ok fat ∧
      getFileContent dev info entry =
        .ok (if entry.isDirectory then ids.length * (loadFat12Header dev).bytesPerCluster
          else entry.fileSizeInBytes, ids.flatMap ((loadFat12Header dev).dataBytes dev)) ∧
      (ids.flatMap ((loadFat12Header dev).dataBytes dev)).length =
        ids.length * (loadFat12Header dev).bytesPerCluster ∧
      getFileContentCalls dev info entry = .ok ([.alloc fat.length,
        .alloc (ids.length * (loadFat12Header dev).bytesPerCluster)] ++
          clusterCalls ids.length (loadFat12Header dev).bytesPerCluster ++ [.release 1]) ∧
      countedClusters fat (2 ^ 16 + 1) entry.firstClusterId = .ok ids ∧
      clustersToRead fat ids.length entry.firstClusterId = .ok ids := by
  have F : HeaderFits (loadFat12Header dev) := loadFat12Header_fits
  have hids := hchain.fileClusters
  have hlt : ids.length < 2 ^ 16 + 1 := Nat.lt_of_le_of_lt hids.1.length_le (by decide)
  refine ⟨_, _, initFat12_eq V, V.getFat_eq F, ?_, ?_, V.getFileContentCalls_eq F hids,
    countedClusters_eq hids.1 hlt, clustersToRead_eq hids.1⟩
  · rw [V.getFileContent_eq F, ← V.flatMap_clusterBytes F hchain]
    exact ⟨ids, hids, rfl⟩
  · rw [← V.flatMap_clusterBytes F hchain]
    exact Fat12Header.length_content

/-- The chain of the file of `forgedVolume`. -/
theorem forgedFile_chain : (loadFat12Header forgedVolume).EntryChain forgedVolume forgedFile 0xFFF [2] := by
  rw [loadFat12Header_forged]
  refine ⟨rfl, List.nodup_singleton 2, fun id hid => ?_, .singleton 2, fun id hid => ?_⟩
  · obtain rfl := List.mem_singleton.mp hid
    exact ⟨by decide, by decide, by decide +kernel⟩
  · obtain rfl : 2 = id := by simpa using hid
    decide +kernel

theorem getFileContent_forgedFile :
    ∃ info, initFat12 forgedVolume = .ok info ∧ getFileContent forgedVolume info forgedFile =
      .ok (32, [2].flatMap ((loadFat12Header forgedVolume).dataBytes forgedVolume)) := by
  obtain ⟨info, -, hinfo, -, hcontent, -⟩ :=
    getFileContent_entryChain forgedVolume_valid forgedFile_chain
  exact ⟨info, hinfo, hcontent⟩

/-- `count_file_clusters` returns the number of the clusters and `get_file_content` reads just them. -/
def ReadsClusters (dev : BlockDevice) (entry : DirectoryEntry) (ids : List Nat) : Prop :=
  ∃ info fat, initFat12 dev = .ok info ∧ getFat dev info = .ok fat ∧
    countFileClusters fat (2 ^ 16 + 1) entry.firstClusterId = .ok ids.length ∧
    ∃ size, getFileContent dev info entry =
      .ok (size, ids.flatMap ((loadFat12Header dev).dataBytes dev))

/-- A chain is read as the format has it exactly when it ends in `0xFFF`. -/
theorem readsClusters_iff (V : ValidVolume dev) (hmark : 0xFF8 ≤ mark ∧ mark ≤ 0xFFF)
    (hchain : (loadFat12Header dev).EntryChain dev entry mark ids) :
    ReadsClusters dev entry ids ↔ mark = 0xFFF := by
  have F : HeaderFits (loadFat12Header dev) := loadFat12Header_fits
  constructor
  · rintro ⟨info, fat, hinfo, hfat, hcount, -⟩
    rw [initFat12_eq V] at hinfo
    obtain rfl := Except.ok.inj hinfo
    rw [V.getFat_eq F] at hfat
    obtain rfl := Except.ok.inj hfat
    obtain ⟨turns, hturns⟩ := Nat.exists_eq_add_of_le' (n := 2 ^ 16 + 1) (m := ids.length)
      (Nat.le_trans (hchain.linked.length_le hchain.nodup) (by decide))
    rw [hturns, ← hchain.headD_eq, hchain.linked.countFileClusters_eq] at hcount
    obtain ⟨n, hn, hsum⟩ := Exec.map_eq_ok.mp hcount
    obtain rfl : n = 0 := by omega
    exact countFileClusters_eq_zero hn
  · rintro rfl
    have hids := hchain.fileClusters
    have hlt : ids.length < 2 ^ 16 + 1 := Nat.lt_of_le_of_lt hids.1.length_le (by decide)
    refine ⟨_, _, initFat12_eq V, V.getFat_eq F, countFileClusters_eq hids.1 hlt,
      (loadFat12Header dev).contentSize entry ids.length, ?_⟩
    rw [V.getFileContent_eq F, ← V.flatMap_clusterBytes F hchain]
    exact ⟨ids, hids, rfl⟩

end Content

theorem readsClusters_forgedFile : ReadsClusters forgedVolume forgedFile [2] :=
  (readsClusters_iff forgedVolume_valid (by decide) forgedFile_chain).mpr rfl

/-- The bytes of a volume of 8 sectors with one file `A` in its root directory: the clusters 2 and 3,
of which 3 has the mark `0xFF8` in the table. -/
def shortMarkBytes : List (Nat × Byte) :=
  [(12, 0x02), (13, 1), (14, 1), (16, 1), (17, 16), (19, 8), (22, 1),
    (515, 0x03), (516, 0x80), (517, 0xFF)] ++ plainEntry 1024 0x41 2 32

def shortMarkVolume : BlockDevice := fun address => (shortMarkBytes.lookup address).getD 0

theorem loadFat12Header_shortMark : loadFat12Header shortMarkVolume = forgedHeader := by
  decide +kernel

theorem shortMarkVolume_valid : ValidVolume shortMarkVolume := by
  rw [ValidVolume, loadFat12Header_shortMark]
  exact forgedHeader_valid

theorem shortMarkVolume_linked :
    LinkedTo (forgedHeader.fatBytes shortMarkVolume) 0xFF8 [2, 3] where
  isClusterId := by
    rintro id hid
    rcases List.mem_cons.mp hid with rfl | hid
    · exact ⟨by decide, by decide, by decide +kernel⟩
    · obtain rfl := List.mem_singleton.mp hid
      exact ⟨by decide, by decide, by decide +kernel⟩
  links := .cons_cons (by decide +kernel) (.singleton 3)
  last := by
    intro id hid
    obtain rfl : 3 = id := by simpa using hid
    decide +kernel

/-- The table has no entry `0xFF8`, so the counting pass reads behind it. -/
theorem readsClusters_shortMark : ValidVolume shortMarkVolume ∧
    lookupEntry ((loadFat12Header shortMarkVolume).rootListing shortMarkVolume) [0x61] =
      some forgedFile ∧
    (loadFat12Header shortMarkVolume).EntryChain shortMarkVolume forgedFile 0xFF8 [2, 3] ∧
    (initFat12 shortMarkVolume >>= fun info => getFileContent shortMarkVolume info forgedFile) =
      .error .wild := by
  have hcount : countFileClusters (forgedHeader.fatBytes shortMarkVolume) (2 ^ 16 + 1) 2 =
      .error .wild :=
    shortMarkVolume_linked.countFileClusters_wild (by decide) (by decide +kernel)
  rw [initFat12_eq shortMarkVolume_valid, loadFat12Header_shortMark, Exec.ok_bind, getFileContent,
    forgedHeader_valid.getFat_eq (loadFat12Header_shortMark ▸ loadFat12Header_fits), Exec.ok_bind]
  refine ⟨shortMarkVolume_valid, by decide +kernel, ⟨rfl, by decide, shortMarkVolume_linked⟩, ?_⟩
  show countFileClusters _ _ 2 >>= _ = _
  rw [hcount]
  rfl

/-! ## Tables of any content -/

/-- The loop of `count_file_clusters` ends, without an access outside of the table, exactly when the
links of the table lead from the first cluster to `0xFFF` and the entries on the way lie in it. -/
theorem countFileClusters_returns_iff (fat : List Byte) (initialClusterId : BitVec 16) :
    (∃ turns count, countFileClusters fat turns initialClusterId.toNat = .ok count) ↔
      ∃ ids, ClusterChain fat initialClusterId.toNat ids := by
  constructor
  · rintro ⟨turns, count, hcount⟩
    obtain ⟨ids, hchain, -⟩ := countFileClusters_ok hcount
    exact ⟨ids, hchain⟩
  · rintro ⟨ids, hchain⟩
    exact ⟨_, _, countFileClusters_eq hchain (Nat.lt_succ_self _)⟩

/-- A cluster that links to itself is counted forever. -/
theorem countFileClusters_selfLink {fat : List Byte} {id : Nat} (hne : id ≠ fatLastClusterNum)
    (hself : getNextClusterId id fat = .ok id) (turns count : Nat) :
    countFileClusters fat turns id ≠ .ok count := by
  induction turns generalizing count with
  | zero => intro h; cases h
  | succ turns ih =>
    rw [countFileClusters, if_neg hne, hself, Exec.ok_bind]
    intro h
    obtain ⟨n, hn, -⟩ := Exec.bind_eq_ok.mp h
    exact ih n hn

/-- In a table of six bytes, a cluster 2 that links to itself, and a first cluster behind the table. -/
theorem countFileClusters_corrupted :
    (∀ turns count, countFileClusters [0, 0, 0, 2, 0, 0] turns 2 ≠ .ok count) ∧
      ∀ turns, countFileClusters [0, 0, 0, 2, 0, 0] (turns + 1) 0xFFF0 = .error .wild :=
  ⟨fun turns count => countFileClusters_selfLink (by decide) (by decide) turns count,
    fun _ => rfl⟩

end TrazelOs
