import TrazelOs.Verify.Fat12

/-! # The layout of a volume

The sections that the driver computes from the boot sector, and the ranges of bytes of its clusters.
`LayoutRules` is what the computation needs: without these rules a division or a subtraction of it
goes wrong. -/

namespace TrazelOs

variable {dev : BlockDevice} {h : Fat12Header}

/-! ## Sections and clusters -/

/-- The words that `read_cluster` computes. -/
structure ClusterRange where
  clusterNum : Nat
  bytesPerCluster : Nat
  dataSectionSectorOffset : Nat
  deviceSectorOffset : Nat
  deviceBytesOffset : Nat
deriving Repr, DecidableEq

def clusterRange (info : Fat12Info) (clusterId : Nat) : ClusterRange :=
  let clusterNum := u32Sub clusterId 2
  let dataSectionSectorOffset := u32 (clusterNum * info.sectorsPerCluster)
  let deviceSectorOffset := u32 (info.dataSectionSectorOffset + dataSectionSectorOffset)
  { clusterNum
    bytesPerCluster := u32 (info.sectorsPerCluster * info.bytesPerSector)
    dataSectionSectorOffset
    deviceSectorOffset
    deviceBytesOffset := u32 (deviceSectorOffset * info.bytesPerSector) }

theorem readCluster_range {info : Fat12Info} {clusterId : Nat} :
    readCluster dev info clusterId = (do
      allocBuffer (clusterRange info clusterId).bytesPerCluster
      return preadDevice dev (clusterRange info clusterId).bytesPerCluster
        (clusterRange info clusterId).deviceBytesOffset) := rfl

/-- The same without the words. -/
def exactRange (info : Fat12Info) (clusterId : Nat) : ClusterRange where
  clusterNum := clusterId - 2
  bytesPerCluster := info.sectorsPerCluster * info.bytesPerSector
  dataSectionSectorOffset := (clusterId - 2) * info.sectorsPerCluster
  deviceSectorOffset := info.dataSectionSectorOffset + (clusterId - 2) * info.sectorsPerCluster
  deviceBytesOffset :=
    (info.dataSectionSectorOffset + (clusterId - 2) * info.sectorsPerCluster) * info.bytesPerSector

/-- The reserved sectors, the tables, the root directory and the data follow one another from the
first sector of the volume to the last. -/
structure SectionsTile (h : Fat12Header) (info : Fat12Info) : Prop where
  reserved : info.fatSectionSectorOffset = h.reservedSectorCount
  tables : info.fatSectionSectorSize = h.tableCount * h.tableSize16
  root : info.rootDirSectorOffset = info.fatSectionSectorOffset + info.fatSectionSectorSize
  rootEntries : h.rootEntryCount * sizeofDirectoryEntry ≤ info.rootDirSectorsSize * h.bytesPerSector
  data : info.dataSectionSectorOffset = info.rootDirSectorOffset + info.rootDirSectorsSize
  total : info.dataSectionSectorOffset + info.dataSectorsSize = h.totalSectors

theorem LayoutRules.tiles (L : LayoutRules h) : SectionsTile h (layoutInfo h) where
  reserved := rfl
  tables := rfl
  root := rfl
  rootEntries := by
    have hpos : 0 < h.bytesPerSector := Nat.pos_of_ne_zero L.bytesPerSector
    have hlt := Nat.lt_div_mul_add
      (a := h.rootEntryCount * sizeofDirectoryEntry + h.bytesPerSector - 1) hpos
    change _ ≤ (_ + h.bytesPerSector - 1) / h.bytesPerSector * h.bytesPerSector
    omega
  data := rfl
  total := Nat.add_sub_cancel' L.fits

/-- A cluster ends before the data section does. -/
theorem LayoutRules.cluster_le (L : LayoutRules h) {id : Nat} (h2 : 2 ≤ id)
    (hid : id < (layoutInfo h).clusterCount + 2) :
    h.dataOffset + (id - 2) * h.sectorsPerCluster + h.sectorsPerCluster ≤ h.totalSectors := by
  have hcount : (layoutInfo h).clusterCount = (h.totalSectors - h.dataOffset) / h.sectorsPerCluster := rfl
  have hclusters : (id - 2 + 1) * h.sectorsPerCluster ≤ h.totalSectors - h.dataOffset :=
    Nat.le_trans (Nat.mul_le_mul_right _ (by omega)) (Nat.div_mul_le_self _ _)
  have hfits := L.fits
  rw [Nat.succ_mul] at hclusters
  omega

theorem LayoutRules.clusterRange_eq (L : LayoutRules h) (F : HeaderFits h)
    (hbytes : h.totalSectors * h.bytesPerSector < 2 ^ 32) {id : Nat} (h2 : 2 ≤ id)
    (hid : id < (layoutInfo h).clusterCount + 2) (h16 : id < 2 ^ 16) :
    clusterRange (layoutInfo h) id = exactRange (layoutInfo h) id := by
  have hle := L.cluster_le h2 hid
  have htotal := F.totalSectors_lt
  have hsector {n : Nat} (hn : n ≤ h.totalSectors) : n * h.bytesPerSector < 2 ^ 32 :=
    Nat.lt_of_le_of_lt (Nat.mul_le_mul_right _ hn) hbytes
  have hnum : u32Sub id 2 = id - 2 := u32Sub_of_le (by omega) h2
  have hproduct : u32 ((id - 2) * h.sectorsPerCluster) = (id - 2) * h.sectorsPerCluster :=
    u32_of_lt (by omega)
  have hsum : u32 (h.dataOffset + (id - 2) * h.sectorsPerCluster) =
      h.dataOffset + (id - 2) * h.sectorsPerCluster := u32_of_lt (by omega)
  have hoffset : u32 ((h.dataOffset + (id - 2) * h.sectorsPerCluster) * h.bytesPerSector) =
      (h.dataOffset + (id - 2) * h.sectorsPerCluster) * h.bytesPerSector :=
    u32_of_lt (hsector (by omega))
  have hcluster : u32 (h.sectorsPerCluster * h.bytesPerSector) = h.sectorsPerCluster * h.bytesPerSector :=
    u32_of_lt (hsector (by omega))
  simp only [clusterRange, exactRange, layoutInfo, hnum, hproduct, hsum, hoffset, hcluster]

/-- Where a cluster begins and ends, in bytes. -/
theorem exactRange_end {info : Fat12Info} {id : Nat} :
    (exactRange info id).deviceBytesOffset + (exactRange info id).bytesPerCluster =
      (info.dataSectionSectorOffset + (id - 2 + 1) * info.sectorsPerCluster) * info.bytesPerSector := by
  rw [exactRange, ← Nat.add_mul, Nat.add_assoc, ← Nat.succ_mul]

theorem exactRange_disjoint {info : Fat12Info} {a b : Nat} (ha : 2 ≤ a) (hab : a < b) :
    (exactRange info a).deviceBytesOffset + (exactRange info a).bytesPerCluster ≤
      (exactRange info b).deviceBytesOffset := by
  rw [exactRange_end]
  exact Nat.mul_le_mul_right _ (Nat.add_le_add_left (Nat.mul_le_mul_right _ (by omega)) _)

theorem LayoutRules.exactRange_end_le (L : LayoutRules h) {id : Nat} (h2 : 2 ≤ id)
    (hid : id < (layoutInfo h).clusterCount + 2) :
    (exactRange (layoutInfo h) id).deviceBytesOffset + (exactRange (layoutInfo h) id).bytesPerCluster ≤
      ((layoutInfo h).dataSectionSectorOffset + (layoutInfo h).dataSectorsSize) *
        (layoutInfo h).bytesPerSector := by
  rw [exactRange_end, L.tiles.total, Nat.succ_mul, ← Nat.add_assoc]
  exact Nat.mul_le_mul_right _ (L.cluster_le h2 hid)

/-- Under the rules of the format the sections tile the volume, and `read_cluster`, which takes an
`uint16_t`, computes the range of every cluster without a wrap; it lies in the data section and apart
from the other clusters. -/
theorem sections_tile_and_clusters_disjoint (dev : BlockDevice)
    (hbps : (loadFat12Header dev).bytesPerSector ≠ 0)
    (hspc : (loadFat12Header dev).sectorsPerCluster ≠ 0)
    (hfits : (loadFat12Header dev).dataOffset ≤ (loadFat12Header dev).totalSectors)
    (hbytes : (loadFat12Header dev).totalSectors * (loadFat12Header dev).bytesPerSector < 2 ^ 32) :
    ∃ info, initFat12 dev = .ok info ∧ SectionsTile (loadFat12Header dev) info ∧
      ∀ id : BitVec 16, 2 ≤ id.toNat → id.toNat < info.clusterCount + 2 →
        let range := clusterRange info id.toNat
        range = exactRange info id.toNat ∧
        info.dataSectionSectorOffset * info.bytesPerSector ≤ range.deviceBytesOffset ∧
        range.deviceBytesOffset + range.bytesPerCluster ≤
          (info.dataSectionSectorOffset + info.dataSectorsSize) * info.bytesPerSector ∧
        ∀ id' : BitVec 16, 2 ≤ id'.toNat → id'.toNat < info.clusterCount + 2 → id ≠ id' →
          let range' := clusterRange info id'.toNat
          range.deviceBytesOffset + range.bytesPerCluster ≤ range'.deviceBytesOffset ∨
            range'.deviceBytesOffset + range'.bytesPerCluster ≤ range.deviceBytesOffset := by
  have F : HeaderFits (loadFat12Header dev) := loadFat12Header_fits
  have L : LayoutRules (loadFat12Header dev) := ⟨hbps, hspc, hfits⟩
  refine ⟨_, L.loadFat12Info_eq F, L.tiles, fun id h2 hid => ?_⟩
  dsimp only
  rw [L.clusterRange_eq F hbytes h2 hid id.isLt]
  refine ⟨rfl, Nat.mul_le_mul_right _ (Nat.le_add_right _ _), L.exactRange_end_le h2 hid,
    fun id' h2' hid' hne => ?_⟩
  rw [L.clusterRange_eq F hbytes h2' hid' id'.isLt]
  rcases Nat.lt_or_gt_of_ne (mt BitVec.eq_of_toNat_eq hne) with hlt | hlt
  · exact .inl (exactRange_disjoint h2 hlt)
  · exact .inr (exactRange_disjoint h2' hlt)

/-- A volume of ten sectors with one table of one sector, one reserved and one of the root directory:
seven clusters of 512 bytes. -/
theorem sections_tile_and_clusters_disjoint_ten :
    let dev : BlockDevice := fun i =>
      if i = 12 then 2 else if i = 13 ∨ i = 14 ∨ i = 16 ∨ i = 22 then 1 else if i = 17 then 16
      else if i = 19 then 10 else 0
    ∃ info, initFat12 dev = .ok info ∧ SectionsTile (loadFat12Header dev) info ∧ info.clusterCount = 7 := by
  intro dev
  obtain ⟨info, hinfo, htiles, _⟩ := sections_tile_and_clusters_disjoint dev (by decide +kernel)
    (by decide +kernel) (by decide +kernel) (by decide +kernel)
  have hseven : (initFat12 dev).returns (·.clusterCount = 7) = true := by decide +kernel
  obtain ⟨info', hinfo', hcount⟩ := Exec.returns_iff.mp hseven
  cases hinfo.symm.trans hinfo'
  exact ⟨info, hinfo, htiles, of_decide_eq_true hcount⟩

/-! ## Boot sectors that are not checked -/

/-- `load_fat12_info` with the subtractions it makes. -/
def loadFat12InfoWith (sub : Nat → Nat → Exec Nat) (h : Fat12Header) : Exec Fat12Info := do
  let rootDirBytes := u32 (h.rootEntryCount * sizeofDirectoryEntry)
  let totalSectors := if h.totalSectors16 ≠ 0 then h.totalSectors16 else h.totalSectors32
  let fatSectionSectorSize := u32 (h.tableCount * h.tableSize16)
  let roundedUp ← sub (u32 (rootDirBytes + h.bytesPerSector)) 1
  let rootDirSectorsSize ← divide roundedUp h.bytesPerSector
  let afterReserved ← sub totalSectors h.reservedSectorCount
  let afterTables ← sub afterReserved fatSectionSectorSize
  let dataSectorsSize ← sub afterTables rootDirSectorsSize
  let clusterCount ← divide dataSectorsSize h.sectorsPerCluster
  let dataSectionSectorOffset :=
    u32 (u32 (h.reservedSectorCount + fatSectionSectorSize) + rootDirSectorsSize)
  let rootDirSectorOffset ← sub dataSectionSectorOffset rootDirSectorsSize
  return {
    bytesPerSector := h.bytesPerSector
    sectorsPerCluster := h.sectorsPerCluster
    totalSectors
    fatSectorSize := h.tableSize16
    fatSectionSectorSize
    rootDirSectorsSize
    dataSectorsSize
    clusterCount
    dataSectionSectorOffset
    fatSectionSectorOffset := h.reservedSectorCount
    rootDirSectorOffset }

theorem loadFat12InfoWith_u32Sub :
    loadFat12InfoWith (fun a b => .ok (u32Sub a b)) h = loadFat12Info h := rfl

/-- A subtraction for which a wrap is a fault. -/
def checkedSub (a b : Nat) : Exec Nat := if b ≤ a then .ok (a - b) else .error .wild

theorem checkedSub_eq_ok {a b c : Nat} : checkedSub a b = .ok c ↔ b ≤ a ∧ a - b = c := by
  unfold checkedSub
  split <;> simp [*]

theorem divide_eq_ok {a b c : Nat} : divide a b = .ok c ↔ b ≠ 0 ∧ a / b = c := by
  unfold divide
  split <;> simp [*]

/-- The words that `get_root_directory_entries` computes. -/
structure RootLocation where
  directoryBytesSize : Nat
  bytesOffset : Nat
  maxEntries : Nat
deriving Repr, DecidableEq

def rootLocation (info : Fat12Info) : Exec RootLocation := do
  let directoryBytesSize := u32 (info.rootDirSectorsSize * info.bytesPerSector)
  let bytesOffset := u32 (info.rootDirSectorOffset * info.bytesPerSector)
  let maxEntries ← divide directoryBytesSize sizeofDirectoryEntry
  return { directoryBytesSize, bytesOffset, maxEntries }

theorem getRootDirectoryEntries_location {info : Fat12Info} :
    getRootDirectoryEntries dev info = (do
      let location ← rootLocation info
      allocBuffer location.directoryBytesSize
      filterValidDirectoryEntries
        (directoryEntries (preadDevice dev location.directoryBytesSize location.bytesOffset))
        location.maxEntries) := rfl

/-- Mounting the volume and locating its root directory, where a division by zero or a subtraction
that wraps is a fault. -/
def checkedMount (dev : BlockDevice) : Exec (Fat12Info × RootLocation) := do
  let info ← loadFat12InfoWith checkedSub (loadFat12Header dev)
  let location ← rootLocation info
  return (info, location)

theorem checkedSub_of_le {a b : Nat} (h : b ≤ a) : checkedSub a b = .ok (a - b) := if_pos h

theorem LayoutRules.checked (L : LayoutRules h) (F : HeaderFits h) :
    loadFat12InfoWith checkedSub h = .ok (layoutInfo h) := by
  have htotal := F.totalSectors_lt
  have hfits := L.fits
  rw [Fat12Header.dataOffset, Fat12Header.rootStart] at hfits
  have hround : checkedSub (u32 (h.rootEntryCount * sizeofDirectoryEntry + h.bytesPerSector)) 1 =
      .ok (h.rootEntryCount * sizeofDirectoryEntry + h.bytesPerSector - 1) := by
    have hbps := L.bytesPerSector
    rw [u32_of_lt F.roundUp_lt, checkedSub_of_le (by omega)]
  have hroot : (h.rootEntryCount * sizeofDirectoryEntry + h.bytesPerSector - 1) / h.bytesPerSector =
      h.rootSectorsUp := rfl
  have htotal' : (if h.totalSectors16 ≠ 0 then h.totalSectors16 else h.totalSectors32) =
      h.totalSectors := rfl
  have hdata : h.totalSectors - h.reservedSectorCount - h.tableCount * h.tableSize16 -
      h.rootSectorsUp = h.totalSectors - h.dataOffset := by
    rw [Fat12Header.dataOffset, Fat12Header.rootStart]
    omega
  have hstart : u32 (u32 (h.reservedSectorCount + h.tableCount * h.tableSize16) + h.rootSectorsUp) =
      h.dataOffset := by
    rw [u32_of_lt (n := h.reservedSectorCount + _) (by omega), u32_of_lt (by omega)]
    rfl
  have hrootStart : checkedSub h.dataOffset h.rootSectorsUp = .ok h.rootStart := by
    rw [Fat12Header.dataOffset, checkedSub_of_le (Nat.le_add_left _ _), Nat.add_sub_cancel]
  unfold loadFat12InfoWith
  simp only [F.rootDirBytes_eq, F.tables_eq, htotal', hround, Exec.ok_bind, divide,
    if_neg L.bytesPerSector, if_neg L.sectorsPerCluster, hroot, hstart, hrootStart,
    checkedSub_of_le (show h.reservedSectorCount ≤ h.totalSectors by omega),
    checkedSub_of_le (show h.tableCount * h.tableSize16 ≤
      h.totalSectors - h.reservedSectorCount by omega),
    checkedSub_of_le (show h.rootSectorsUp ≤
      h.totalSectors - h.reservedSectorCount - h.tableCount * h.tableSize16 by omega), hdata]
  rfl

theorem LayoutRules.of_checked (F : HeaderFits h) {info : Fat12Info}
    (hinfo : loadFat12InfoWith checkedSub h = .ok info) : LayoutRules h := by
  simp only [loadFat12InfoWith, Exec.bind_eq_ok, checkedSub_eq_ok, divide_eq_ok,
    F.rootDirBytes_eq, F.tables_eq, u32_of_lt F.roundUp_lt] at hinfo
  obtain ⟨_, ⟨_, rfl⟩, _, ⟨hbps, rfl⟩, _, ⟨hreserved, rfl⟩, _, ⟨htables, rfl⟩, _,
    ⟨hroot, rfl⟩, _, ⟨hspc, _⟩, _⟩ := hinfo
  change _ ≤ h.totalSectors at hreserved
  change _ ≤ h.totalSectors - _ at htables
  change h.rootSectorsUp ≤ h.totalSectors - _ - _ at hroot
  refine ⟨hbps, hspc, ?_⟩
  rw [Fat12Header.dataOffset, Fat12Header.rootStart]
  omega

theorem LayoutRules.sizes_le (L : LayoutRules h) :
    (layoutInfo h).fatSectionSectorSize ≤ (layoutInfo h).totalSectors ∧
      (layoutInfo h).rootDirSectorsSize ≤ (layoutInfo h).totalSectors ∧
      (layoutInfo h).dataSectorsSize ≤ (layoutInfo h).totalSectors := by
  have hfits := L.fits
  rw [Fat12Header.dataOffset, Fat12Header.rootStart] at hfits
  dsimp only [layoutInfo]
  omega

/-- Mounting a volume and locating its root directory makes no division by zero and no subtraction
that wraps, and no section is larger than the volume, exactly when sectors and clusters are not empty
and the sections before the data fit the volume. None of this is checked. -/
theorem checkedMount_returns_iff (dev : BlockDevice) :
    (∃ info location, checkedMount dev = .ok (info, location) ∧
      info.fatSectionSectorSize ≤ info.totalSectors ∧
      info.rootDirSectorsSize ≤ info.totalSectors ∧ info.dataSectorsSize ≤ info.totalSectors) ↔
    (loadFat12Header dev).bytesPerSector ≠ 0 ∧ (loadFat12Header dev).sectorsPerCluster ≠ 0 ∧
      (loadFat12Header dev).dataOffset ≤ (loadFat12Header dev).totalSectors := by
  have F : HeaderFits (loadFat12Header dev) := loadFat12Header_fits
  constructor
  · rintro ⟨info, location, hmount, _⟩
    obtain ⟨info', hinfo, _⟩ := Exec.bind_eq_ok.mp hmount
    have L := LayoutRules.of_checked F hinfo
    exact ⟨L.bytesPerSector, L.sectorsPerCluster, L.fits⟩
  · rintro ⟨hbps, hspc, hfits⟩
    have L : LayoutRules (loadFat12Header dev) := ⟨hbps, hspc, hfits⟩
    obtain ⟨location, hlocation⟩ : ∃ location, rootLocation (layoutInfo (loadFat12Header dev)) =
      .ok location := ⟨_, rfl⟩
    refine ⟨layoutInfo (loadFat12Header dev), location, ?_, L.sizes_le⟩
    rw [checkedMount, L.checked F, Exec.ok_bind, hlocation]
    rfl

/-- On a volume whose clusters have no sectors the division faults. On one with a reserved sector but
no sectors in all, mounting goes on with a data section of `2 ^ 32 - 1` sectors. -/
theorem checkedMount_fails :
    let noSectorsPerCluster : BlockDevice := fun i => if i = 12 then 2 else 0
    let reservedOnly : BlockDevice := fun i => if i = 12 then 2 else if i = 13 ∨ i = 14 then 1 else 0
    checkedMount noSectorsPerCluster = .error (.panic "Unexpected CPU exception occurred") ∧
      initFat12 noSectorsPerCluster = .error (.panic "Unexpected CPU exception occurred") ∧
      checkedMount reservedOnly = .error .wild ∧
      (initFat12 reservedOnly).returns (fun info =>
        info.totalSectors = 0 ∧ info.dataSectorsSize = 2 ^ 32 - 1) = true ∧
      ¬∃ info location, checkedMount reservedOnly = .ok (info, location) ∧
        info.fatSectionSectorSize ≤ info.totalSectors ∧
        info.rootDirSectorsSize ≤ info.totalSectors ∧
        info.dataSectorsSize ≤ info.totalSectors := by
  intro noSectorsPerCluster reservedOnly
  have hfault : checkedMount reservedOnly = .error .wild := by decide +kernel
  refine ⟨by decide +kernel, by decide +kernel, hfault, by decide +kernel, ?_⟩
  rintro ⟨info, location, hmount, _⟩
  cases hfault.symm.trans hmount

end TrazelOs
