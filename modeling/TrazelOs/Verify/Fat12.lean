import Mathlib.Data.List.GetD
import Mathlib.Data.List.TakeWhile
import TrazelOs.Kernel.Fat12
import TrazelOs.Theory.Chain
import TrazelOs.Verify.MemUtils

/-! # Opening a file of a FAT12 volume

The functions of the driver in terms of the volume: the bytes of the device that they read, the
chain of clusters of a file, the entries of a directory that count, and the walk along a path. -/

namespace TrazelOs

open Theory (Chain)

variable {dev : BlockDevice}

/-! ## Reading the device -/

/-- The `count` bytes of the device from `offset`. -/
def slice (dev : BlockDevice) (offset count : Nat) : List Byte :=
  (List.range count).map fun i => dev (offset + i)

@[simp] theorem length_slice {offset count : Nat} : (slice dev offset count).length = count := by
  simp only [slice, List.length_map, List.length_range]

@[simp] theorem slice_zero {offset : Nat} : slice dev offset 0 = [] := rfl

theorem getElem?_slice {offset count i : Nat} (h : i < count) :
    (slice dev offset count)[i]? = some (dev (offset + i)) := by
  simp only [slice, List.getElem?_map, List.getElem?_range h, Option.map_some]

theorem slice_add {offset a b : Nat} :
    slice dev offset (a + b) = slice dev offset a ++ slice dev (offset + a) b := by
  simp only [slice, List.range_add, List.map_append, List.map_map, Function.comp_def, Nat.add_assoc]

theorem take_slice {offset a b : Nat} (h : a ≤ b) :
    (slice dev offset b).take a = slice dev offset a := by
  obtain ⟨c, rfl⟩ := Nat.exists_eq_add_of_le h
  rw [slice_add, List.take_left' length_slice]

theorem drop_slice {offset a b : Nat} (h : a ≤ b) :
    (slice dev offset b).drop a = slice dev (offset + a) (b - a) := by
  obtain ⟨c, rfl⟩ := Nat.exists_eq_add_of_le h
  rw [slice_add, List.drop_left' length_slice, Nat.add_sub_cancel_left]

theorem readBlock_eq {lba : Nat} : readBlock dev lba = slice dev (lba * sectorSize) sectorSize := rfl

theorem readBlocks_eq {count lba : Nat} :
    readBlocks dev count lba = slice dev (lba * sectorSize) (count * sectorSize) := by
  induction count generalizing lba with
  | zero => rw [Nat.zero_mul]; rfl
  | succ count ih =>
    rw [readBlocks, ih, readBlock_eq, Nat.succ_mul lba, ← slice_add, Nat.succ_mul, Nat.add_comm]

/-- Blocks are put together to the bytes that were asked for, wherever they begin and end. -/
theorem readBlkDeviceBytes_eq {offset size : Nat} :
    readBlkDeviceBytes dev offset size = slice dev offset size := by
  have hoffset : offset / sectorSize * sectorSize + offset % sectorSize = offset :=
    Nat.div_add_mod' offset sectorSize
  have hlt : offset % sectorSize < sectorSize := Nat.mod_lt _ (by decide)
  have hbody : ∀ {lba remaining : Nat}, readBlocks dev (remaining / sectorSize) lba ++
      (readBlock dev (lba + remaining / sectorSize)).take (remaining % sectorSize) =
        slice dev (lba * sectorSize) remaining := by
    intro lba remaining
    have hrem : remaining / sectorSize * sectorSize + remaining % sectorSize = remaining :=
      Nat.div_add_mod' remaining sectorSize
    have hlt : remaining % sectorSize < sectorSize := Nat.mod_lt _ (by decide)
    rw [readBlocks_eq, readBlock_eq, take_slice (Nat.le_of_lt hlt), Nat.add_mul, ← slice_add, hrem]
  unfold readBlkDeviceBytes
  dsimp only
  rw [List.append_assoc, hbody, readBlock_eq, drop_slice (Nat.le_of_lt hlt), hoffset]
  by_cases hhead : offset % sectorSize > 0
  · simp only [if_pos hhead]
    split
    · rename_i hsmall
      rw [take_slice (by omega), Nat.sub_self, slice_zero, List.append_nil]
    · have hnext : (offset / sectorSize + 1) * sectorSize = offset + (sectorSize - offset % sectorSize) := by
        rw [Nat.succ_mul]
        omega
      rw [take_slice (Nat.le_refl _), hnext, ← slice_add]
      congr 1
      omega
  · have hzero : offset % sectorSize = 0 := by omega
    rw [hzero, Nat.add_zero] at hoffset
    simp only [if_neg hhead, List.take_zero, List.nil_append, Nat.sub_zero, hoffset]

theorem preadDevice_eq {size offset : Nat} : preadDevice dev size offset = slice dev offset size :=
  readBlkDeviceBytes_eq

/-! ## The layout of a volume -/

theorem leValue_lt (bytes : List Byte) : leValue bytes < 256 ^ bytes.length := by
  induction bytes with
  | nil => decide
  | cons b bytes ih =>
    have hb := b.isLt
    rw [leValue, List.length_cons, Nat.pow_succ]
    omega

theorem field_lt (bytes : List Byte) (offset count : Nat) : field bytes offset count < 256 ^ count := by
  refine Nat.lt_of_lt_of_le (leValue_lt _) (Nat.pow_le_pow_right (by decide) ?_)
  rw [List.length_take]
  exact Nat.min_le_left ..

namespace Fat12Header
variable (h : Fat12Header)

def totalSectors : Nat := if h.totalSectors16 ≠ 0 then h.totalSectors16 else h.totalSectors32

/-- The sectors of the root directory. -/
def rootSectors : Nat := h.rootEntryCount * sizeofDirectoryEntry / h.bytesPerSector

/-- The first sector of the root directory, after the reserved sectors and the tables. -/
def rootStart : Nat := h.reservedSectorCount + h.tableCount * h.tableSize16

def dataStart : Nat := h.rootStart + h.rootSectors

def clusterCount : Nat := (h.totalSectors - h.dataStart) / h.sectorsPerCluster

def bytesPerCluster : Nat := h.sectorsPerCluster * h.bytesPerSector

/-- The sectors of the root directory when its last sector need not be full. -/
def rootSectorsUp : Nat :=
  (h.rootEntryCount * sizeofDirectoryEntry + h.bytesPerSector - 1) / h.bytesPerSector

/-- The first sector of the data section behind such a root directory. -/
def dataOffset : Nat := h.rootStart + h.rootSectorsUp

end Fat12Header

/-- The rules without which the layout cannot be computed. -/
structure LayoutRules (h : Fat12Header) : Prop where
  bytesPerSector : h.bytesPerSector ≠ 0
  sectorsPerCluster : h.sectorsPerCluster ≠ 0
  fits : h.dataOffset ≤ h.totalSectors

/-- What `load_fat12_info` computes under these rules, without the words it computes in. -/
def layoutInfo (h : Fat12Header) : Fat12Info where
  bytesPerSector := h.bytesPerSector
  sectorsPerCluster := h.sectorsPerCluster
  totalSectors := h.totalSectors
  fatSectorSize := h.tableSize16
  fatSectionSectorSize := h.tableCount * h.tableSize16
  rootDirSectorsSize := h.rootSectorsUp
  dataSectorsSize := h.totalSectors - h.dataOffset
  clusterCount := (h.totalSectors - h.dataOffset) / h.sectorsPerCluster
  dataSectionSectorOffset := h.dataOffset
  fatSectionSectorOffset := h.reservedSectorCount
  rootDirSectorOffset := h.rootStart

/-- The header of a FAT12 volume: sectors and clusters of the sizes that the format allows, one or
two tables that are long enough for all clusters, and fewer clusters than tell FAT16 apart. -/
structure ValidHeader (h : Fat12Header) : Prop where
  bytesPerSector : h.bytesPerSector ∈ [512, 1024, 2048, 4096]
  sectorsPerCluster : h.sectorsPerCluster ∈ [1, 2, 4, 8, 16, 32, 64, 128]
  tableCount : h.tableCount ∈ [1, 2]
  rootEntryCount : h.rootEntryCount ≠ 0
  rootAligned : h.rootEntryCount * sizeofDirectoryEntry % h.bytesPerSector = 0
  dataFits : h.dataStart ≤ h.totalSectors
  clusterCount : h.clusterCount < 4085
  tableFits : 3 * (h.clusterCount + 2) ≤ 2 * (h.tableSize16 * h.bytesPerSector)

/-- A device with a FAT12 volume. -/
abbrev ValidVolume (dev : BlockDevice) : Prop := ValidHeader (loadFat12Header dev)

/-- What `load_fat12_info` computes, without the words it computes in. -/
def volumeInfo (h : Fat12Header) : Fat12Info where
  bytesPerSector := h.bytesPerSector
  sectorsPerCluster := h.sectorsPerCluster
  totalSectors := h.totalSectors
  fatSectorSize := h.tableSize16
  fatSectionSectorSize := h.tableCount * h.tableSize16
  rootDirSectorsSize := h.rootSectors
  dataSectorsSize := h.totalSectors - h.dataStart
  clusterCount := h.clusterCount
  dataSectionSectorOffset := h.dataStart
  fatSectionSectorOffset := h.reservedSectorCount
  rootDirSectorOffset := h.rootStart

/-- The fields fit their types. -/
structure HeaderFits (h : Fat12Header) : Prop where
  bytesPerSector : h.bytesPerSector < 2 ^ 16
  tableCount : h.tableCount < 2 ^ 8
  reservedSectorCount : h.reservedSectorCount < 2 ^ 16
  rootEntryCount : h.rootEntryCount < 2 ^ 16
  totalSectors16 : h.totalSectors16 < 2 ^ 16
  tableSize16 : h.tableSize16 < 2 ^ 16
  totalSectors32 : h.totalSectors32 < 2 ^ 32

theorem loadFat12Header_fits : HeaderFits (loadFat12Header dev) := by
  have h16 (bytes : List Byte) (offset : Nat) : field bytes offset 2 < 2 ^ 16 := field_lt bytes offset 2
  unfold loadFat12Header
  generalize preadDevice dev sizeofFat12Header 0 = buffer
  exact ⟨h16 _ _, field_lt buffer 16 1, h16 _ _, h16 _ _, h16 _ _, h16 _ _, field_lt buffer 32 4⟩

namespace HeaderFits
variable {h : Fat12Header} (F : HeaderFits h)
include F

theorem totalSectors_lt : h.totalSectors < 2 ^ 32 := by
  have h16 := F.totalSectors16
  have h32 := F.totalSectors32
  rw [Fat12Header.totalSectors]
  split <;> omega

theorem rootDirBytes_eq :
    u32 (h.rootEntryCount * sizeofDirectoryEntry) = h.rootEntryCount * sizeofDirectoryEntry := by
  have hroot := F.rootEntryCount
  exact u32_of_lt (by rw [sizeofDirectoryEntry]; omega)

theorem tables_eq : u32 (h.tableCount * h.tableSize16) = h.tableCount * h.tableSize16 := by
  have hcount := F.tableCount
  have hsize := F.tableSize16
  have hle : h.tableCount * h.tableSize16 ≤ 2 ^ 8 * 2 ^ 16 :=
    Nat.mul_le_mul (Nat.le_of_lt hcount) (Nat.le_of_lt hsize)
  exact u32_of_lt (by omega)

theorem roundUp_lt : h.rootEntryCount * sizeofDirectoryEntry + h.bytesPerSector < 2 ^ 32 := by
  have hroot := F.rootEntryCount
  have hbytes := F.bytesPerSector
  rw [sizeofDirectoryEntry]
  omega

/-- The dividend of `bytes_to_sectors_round_up` when a sector has bytes. -/
theorem roundUp_eq (hbps : h.bytesPerSector ≠ 0) :
    u32Sub (u32 (h.rootEntryCount * sizeofDirectoryEntry + h.bytesPerSector)) 1 =
      h.rootEntryCount * sizeofDirectoryEntry + h.bytesPerSector - 1 := by
  rw [u32_of_lt F.roundUp_lt, u32Sub_of_le F.roundUp_lt (by omega)]

end HeaderFits

theorem LayoutRules.loadFat12Info_eq {h : Fat12Header} (L : LayoutRules h) (F : HeaderFits h) :
    loadFat12Info h = .ok (layoutInfo h) := by
  have htotal := F.totalSectors_lt
  have hfits := L.fits
  rw [Fat12Header.dataOffset, Fat12Header.rootStart] at hfits
  have hround : bytesToSectorsRoundUp (h.rootEntryCount * sizeofDirectoryEntry) h.bytesPerSector =
      .ok h.rootSectorsUp := by
    rw [bytesToSectorsRoundUp, F.roundUp_eq L.bytesPerSector, divide, if_neg L.bytesPerSector]
    rfl
  have htotal' : (if h.totalSectors16 ≠ 0 then h.totalSectors16 else h.totalSectors32) =
      h.totalSectors := rfl
  have hdata : u32Sub (u32Sub (u32Sub h.totalSectors h.reservedSectorCount)
      (h.tableCount * h.tableSize16)) h.rootSectorsUp = h.totalSectors - h.dataOffset := by
    rw [u32Sub_of_le (a := h.totalSectors) (by omega) (by omega),
      u32Sub_of_le (a := h.totalSectors - h.reservedSectorCount) (by omega) (by omega),
      u32Sub_of_le (by omega) (by omega), Fat12Header.dataOffset, Fat12Header.rootStart]
    omega
  have hstart : u32 (u32 (h.reservedSectorCount + h.tableCount * h.tableSize16) + h.rootSectorsUp) =
      h.dataOffset := by
    rw [u32_of_lt (n := h.reservedSectorCount + _) (by omega), u32_of_lt (by omega)]
    rfl
  have hrootStart : u32Sub h.dataOffset h.rootSectorsUp = h.rootStart := by
    rw [Fat12Header.dataOffset, Fat12Header.rootStart, u32Sub_of_le (by omega) (by omega)]
    omega
  unfold loadFat12Info
  simp only [F.rootDirBytes_eq, F.tables_eq, htotal', hround, Exec.ok_bind, hdata, hstart,
    hrootStart, divide, if_neg L.sectorsPerCluster]
  rfl

namespace ValidHeader
variable {h : Fat12Header} (V : ValidHeader h) (F : HeaderFits h)
include V

theorem bytesPerSector_pos : 0 < h.bytesPerSector := by
  have := V.bytesPerSector
  simp only [List.mem_cons, List.not_mem_nil, or_false] at this
  omega

theorem sectorsPerCluster_pos : 0 < h.sectorsPerCluster := by
  have := V.sectorsPerCluster
  simp only [List.mem_cons, List.not_mem_nil, or_false] at this
  omega

theorem bytesPerCluster_pos : 0 < h.bytesPerCluster :=
  Nat.mul_pos V.sectorsPerCluster_pos V.bytesPerSector_pos

theorem bytesPerSector_le : h.bytesPerSector ≤ 4096 := by
  have := V.bytesPerSector
  simp only [List.mem_cons, List.not_mem_nil, or_false] at this
  omega

theorem sectorsPerCluster_le : h.sectorsPerCluster ≤ 128 := by
  have := V.sectorsPerCluster
  simp only [List.mem_cons, List.not_mem_nil, or_false] at this
  omega

theorem bytesPerCluster_le : h.bytesPerCluster ≤ 2 ^ 19 := by
  have hle : h.bytesPerCluster ≤ 128 * 4096 := Nat.mul_le_mul V.sectorsPerCluster_le V.bytesPerSector_le
  exact hle

theorem rootSectors_mul : h.rootSectors * h.bytesPerSector = h.rootEntryCount * sizeofDirectoryEntry :=
  Nat.div_mul_cancel (Nat.dvd_of_mod_eq_zero V.rootAligned)

/-- A root directory that fills its last sector. -/
theorem rootSectorsUp_eq : h.rootSectorsUp = h.rootSectors := by
  have hbps := V.bytesPerSector_pos
  rw [Fat12Header.rootSectorsUp, ← V.rootSectors_mul, Nat.add_sub_assoc hbps, Nat.add_comm,
    Nat.add_mul_div_right _ _ hbps, Nat.div_eq_of_lt (by omega), Nat.zero_add]

theorem dataOffset_eq : h.dataOffset = h.dataStart := by
  rw [Fat12Header.dataOffset, V.rootSectorsUp_eq]
  rfl

theorem layoutRules : LayoutRules h where
  bytesPerSector := Nat.pos_iff_ne_zero.mp V.bytesPerSector_pos
  sectorsPerCluster := Nat.pos_iff_ne_zero.mp V.sectorsPerCluster_pos
  fits := V.dataOffset_eq ▸ V.dataFits

theorem layoutInfo_eq : layoutInfo h = volumeInfo h := by
  rw [layoutInfo, V.rootSectorsUp_eq, V.dataOffset_eq]
  rfl

theorem sectors_lt : h.totalSectors - h.dataStart < 4085 * 128 := by
  have hlt := (Nat.div_lt_iff_lt_mul V.sectorsPerCluster_pos).mp V.clusterCount
  exact Nat.lt_of_lt_of_le hlt (Nat.mul_le_mul_left _ V.sectorsPerCluster_le)

include F

theorem rootSectors_le : h.rootSectors ≤ 2 ^ 12 := by
  have hroot := F.rootEntryCount
  have h512 : 512 ≤ h.bytesPerSector := by
    have := V.bytesPerSector
    simp only [List.mem_cons, List.not_mem_nil, or_false] at this
    omega
  refine Nat.le_trans (Nat.div_le_div_left h512 (by decide)) ?_
  rw [sizeofDirectoryEntry]
  omega

theorem fatSectors_le : h.tableCount * h.tableSize16 ≤ 2 * 2 ^ 16 := by
  have hcount := V.tableCount
  simp only [List.mem_cons, List.not_mem_nil, or_false] at hcount
  exact Nat.mul_le_mul (by omega) (Nat.le_of_lt F.tableSize16)

/-- The volume ends before the bytes that a 32-bit word counts. -/
theorem dataStart_le : h.dataStart ≤ 3 * 2 ^ 16 + 2 ^ 12 := by
  have hreserved := F.reservedSectorCount
  have hroot := V.rootSectors_le F
  have hfat := V.fatSectors_le F
  rw [Fat12Header.dataStart, Fat12Header.rootStart]
  omega

theorem totalSectors_lt : h.totalSectors < 2 ^ 20 := by
  have hdata := V.dataStart_le F
  have hsectors := V.sectors_lt
  have hfits := V.dataFits
  omega

theorem bytes_lt {n : Nat} (hn : n ≤ h.totalSectors) : n * h.bytesPerSector < 2 ^ 32 := by
  have hlt := V.totalSectors_lt F
  calc n * h.bytesPerSector ≤ n * 4096 := Nat.mul_le_mul_left _ V.bytesPerSector_le
    _ < 2 ^ 32 := by omega

theorem loadFat12Info_eq : loadFat12Info h = .ok (volumeInfo h) := by
  rw [V.layoutRules.loadFat12Info_eq F, V.layoutInfo_eq]

end ValidHeader

/-! ## Chains of clusters -/

/-- The entry of a cluster in the table: twelve bits, one entry after the other. -/
def tableEntry12 (fat : List Byte) (clusterId : Nat) : Nat := leValue fat / 2 ^ (12 * clusterId) % 2 ^ 12

/-- The cluster after the given one, while the table has an entry for it. -/
def nextCluster (fat : List Byte) (clusterId : Nat) : Option Nat :=
  if clusterId + clusterId / 2 + 1 < fat.length then some (tableEntry12 fat clusterId) else none

theorem leValue_drop (bytes : List Byte) (n : Nat) : leValue bytes / 256 ^ n = leValue (bytes.drop n) := by
  induction n generalizing bytes with
  | zero => rw [Nat.pow_zero, Nat.div_one, List.drop_zero]
  | succ n ih =>
    cases bytes with
    | nil => rw [leValue, Nat.zero_div, List.drop_nil, leValue]
    | cons b bytes =>
      have hb := b.isLt
      have htail : leValue (b :: bytes) / 256 = leValue bytes := by
        rw [leValue]
        omega
      rw [Nat.pow_succ', ← Nat.div_div_eq_div_mul, htail, ih, List.drop_succ_cons]

theorem leValue_two {bytes : List Byte} {low high : Byte} (hlow : bytes[0]? = some low)
    (hhigh : bytes[1]? = some high) : leValue bytes % 2 ^ 16 = low.toNat + high.toNat * 2 ^ 8 := by
  match bytes, hlow, hhigh with
  | _ :: _ :: rest, rfl, rfl =>
    have hlow := low.isLt
    have hhigh := high.isLt
    rw [leValue, leValue]
    omega

/-- The two bytes of an entry hold twelve bits of it. -/
theorem tableEntry12_eq {fat : List Byte} {clusterId : Nat} {low high : Byte}
    (hlow : fat[clusterId + clusterId / 2]? = some low)
    (hhigh : fat[clusterId + clusterId / 2 + 1]? = some high) :
    tableEntry12 fat clusterId = if clusterId % 2 ≠ 0 then (low.toNat + high.toNat * 2 ^ 8) / 2 ^ 4
      else (low.toNat + high.toNat * 2 ^ 8) % 2 ^ 12 := by
  have hlow' : (fat.drop (clusterId + clusterId / 2))[0]? = some low := by
    rw [List.getElem?_drop, Nat.add_zero, hlow]
  have hhigh' : (fat.drop (clusterId + clusterId / 2))[1]? = some high := by
    rw [List.getElem?_drop, hhigh]
  have htwo := leValue_two hlow' hhigh'
  rw [← leValue_drop] at htwo
  rw [tableEntry12, ← htwo]
  by_cases heven : clusterId % 2 = 0
  · have hexp : 12 * clusterId = 8 * (clusterId + clusterId / 2) := by omega
    rw [if_neg (by omega), hexp, Nat.pow_mul, show (2 : Nat) ^ 8 = 256 from rfl]
    omega
  · have hexp : 12 * clusterId = 8 * (clusterId + clusterId / 2) + 4 := by omega
    rw [if_pos (by omega), hexp, Nat.pow_add, Nat.pow_mul, ← Nat.div_div_eq_div_mul,
      show (2 : Nat) ^ 8 = 256 from rfl]
    omega

theorem getNextClusterId_eq {fat : List Byte} {clusterId next : Nat} :
    getNextClusterId clusterId fat = .ok next ↔ nextCluster fat clusterId = some next := by
  unfold getNextClusterId nextCluster
  by_cases hin : clusterId + clusterId / 2 + 1 < fat.length
  · obtain ⟨low, hlow⟩ : ∃ low, fat[clusterId + clusterId / 2]? = some low :=
      ⟨_, List.getElem?_eq_getElem (by omega)⟩
    obtain ⟨high, hhigh⟩ : ∃ high, fat[clusterId + clusterId / 2 + 1]? = some high :=
      ⟨_, List.getElem?_eq_getElem hin⟩
    rw [if_pos hin, tableEntry12_eq hlow hhigh]
    simp only [arrayGet_eq.mpr hlow, arrayGet_eq.mpr hhigh, Exec.ok_bind, Exec.pure_eq_ok]
    split <;> simp only [Except.ok.injEq, Option.some.injEq]
  · rw [if_neg hin]
    refine iff_of_false (fun h => ?_) nofun
    obtain ⟨low, -, h⟩ := Exec.bind_eq_ok.mp h
    obtain ⟨high, hhigh, -⟩ := Exec.bind_eq_ok.mp h
    rw [arrayGet_none (by omega)] at hhigh
    cases hhigh

theorem nextCluster_lt {fat : List Byte} {clusterId next : Nat}
    (h : nextCluster fat clusterId = some next) : next < 2 ^ 12 := by
  unfold nextCluster at h
  split at h
  · cases h
    exact Nat.mod_lt _ (by decide)
  · cases h

/-- The clusters from the given one to the end of the file. -/
abbrev ClusterChain (fat : List Byte) : Nat → List Nat → Prop :=
  Chain (nextCluster fat) fatLastClusterNum

section Clusters
variable {fat : List Byte} {clusterId turns n : Nat} {ids : List Nat}

theorem ClusterChain.lt (h : ClusterChain fat clusterId ids) (hlt : clusterId < 2 ^ 12) :
    ∀ id ∈ ids, id < 2 ^ 12 := by
  induction h with
  | stop => exact nofun
  | step _ hnext _ ih => exact List.forall_mem_cons.mpr ⟨hlt, ih (nextCluster_lt hnext)⟩

theorem ClusterChain.length_le (h : ClusterChain fat clusterId ids) : ids.length ≤ 2 ^ 12 + 1 := by
  cases h with
  | stop => exact Nat.zero_le _
  | step _ hnext h => exact Nat.succ_le_succ (h.length_le (ClusterChain.lt h (nextCluster_lt hnext)))

theorem countFileClusters_eq (h : ClusterChain fat clusterId ids) (hlt : ids.length < turns) :
    countFileClusters fat turns clusterId = .ok ids.length := by
  induction h generalizing turns with
  | stop =>
    obtain ⟨turns, rfl⟩ := Nat.exists_eq_succ_of_ne_zero (Nat.ne_of_gt hlt)
    exact if_pos rfl
  | step hne hnext _ ih =>
    obtain ⟨turns, rfl⟩ := Nat.exists_eq_succ_of_ne_zero (Nat.ne_of_gt (Nat.zero_lt_of_lt hlt))
    rw [countFileClusters, if_neg hne, getNextClusterId_eq.mpr hnext, Exec.ok_bind,
      ih (Nat.lt_of_succ_lt_succ hlt)]
    rfl

theorem countFileClusters_ok (h : countFileClusters fat turns clusterId = .ok n) :
    ∃ ids, ClusterChain fat clusterId ids ∧ ids.length = n := by
  induction turns generalizing clusterId n with
  | zero => cases h
  | succ turns ih =>
    unfold countFileClusters at h
    split at h
    · rename_i hlast
      cases h
      exact ⟨[], hlast ▸ .stop, rfl⟩
    · rename_i hne
      obtain ⟨next, hnext, h⟩ := Exec.bind_eq_ok.mp h
      obtain ⟨count, hcount, h⟩ := Exec.bind_eq_ok.mp h
      cases h
      obtain ⟨ids, hchain, rfl⟩ := ih hcount
      exact ⟨clusterId :: ids, .step hne (getNextClusterId_eq.mp hnext) hchain, rfl⟩

end Clusters

/-! ## Contents of files -/

namespace Fat12Header
variable (h : Fat12Header) (dev : BlockDevice)

/-- The first table of the volume. -/
def fatBytes : List Byte :=
  slice dev (h.reservedSectorCount * h.bytesPerSector) (h.tableSize16 * h.bytesPerSector)

/-- The bytes that are read for a cluster. -/
def clusterBytes (clusterId : Nat) : List Byte :=
  slice dev (u32 (u32 (h.dataStart + u32 (u32Sub clusterId 2 * h.sectorsPerCluster)) * h.bytesPerSector))
    h.bytesPerCluster

/-- The size that `get_file_content` returns for a file with so many clusters. -/
def contentSize (entry : DirectoryEntry) (clusters : Nat) : Nat :=
  if entry.isDirectory then clusters * h.bytesPerCluster else entry.fileSizeInBytes

/-- The clusters of the file of an entry, of which there is at least one. -/
def FileClusters (entry : DirectoryEntry) (ids : List Nat) : Prop :=
  ClusterChain (h.fatBytes dev) entry.firstClusterId ids ∧ ids ≠ []

end Fat12Header

theorem allocBuffer_eq {size : Nat} {u : Unit} : allocBuffer size = .ok u ↔ size ≠ 0 := kernelAssert_eq_ok

theorem allocBuffer_ok {size : Nat} (h : size ≠ 0) : allocBuffer size = .ok () := kernelAssert_ok h

namespace ValidHeader
variable {h : Fat12Header} (V : ValidHeader h) {fat : List Byte} {clusterId : Nat} {ids : List Nat}
  {entry : DirectoryEntry}
include V

theorem getFat_eq (F : HeaderFits h) : getFat dev (volumeInfo h) = .ok (h.fatBytes dev) := by
  have hfits := V.dataFits
  have htables : h.tableSize16 ≤ h.tableCount * h.tableSize16 := by
    have hcount := V.tableCount
    simp only [List.mem_cons, List.not_mem_nil, or_false] at hcount
    exact Nat.le_mul_of_pos_left _ (by omega)
  rw [Fat12Header.dataStart, Fat12Header.rootStart] at hfits
  have hsize := V.bytes_lt F (n := h.tableSize16) (by omega)
  have hoffset := V.bytes_lt F (n := h.reservedSectorCount) (by omega)
  have hne : h.tableSize16 * h.bytesPerSector ≠ 0 := by
    have hfit := V.tableFits
    omega
  simp only [getFat, volumeInfo, u32_of_lt hsize, Nat.mul_comm h.bytesPerSector, u32_of_lt hoffset,
    allocBuffer_ok hne, Exec.ok_bind, preadDevice_eq, Fat12Header.fatBytes]
  rfl

theorem readCluster_eq :
    readCluster dev (volumeInfo h) clusterId = .ok (h.clusterBytes dev clusterId) := by
  have hcluster : u32 (h.sectorsPerCluster * h.bytesPerSector) = h.bytesPerCluster :=
    u32_of_lt (Nat.lt_of_le_of_lt V.bytesPerCluster_le (by decide))
  simp only [readCluster, volumeInfo, hcluster, allocBuffer_ok (Nat.ne_of_gt V.bytesPerCluster_pos),
    Exec.ok_bind, preadDevice_eq, Fat12Header.clusterBytes]
  rfl

theorem readClusters_eq (hchain : ClusterChain fat clusterId ids) :
    readClusters dev (volumeInfo h) fat ids.length clusterId =
      .ok (ids.flatMap (h.clusterBytes dev)) := by
  induction hchain with
  | stop => rfl
  | step _ hnext _ ih =>
    rw [List.length_cons, readClusters, V.readCluster_eq, Exec.ok_bind, getNextClusterId_eq.mpr hnext,
      Exec.ok_bind, ih, Exec.ok_bind, List.flatMap_cons]
    rfl

/-- A file has the bytes of its clusters, and it has at least one. -/
theorem getFileContent_eq (F : HeaderFits h) {r : Nat × List Byte} :
    getFileContent dev (volumeInfo h) entry = .ok r ↔
      ∃ ids, h.FileClusters dev entry ids ∧
        r = (h.contentSize entry ids.length, ids.flatMap (h.clusterBytes dev)) := by
  have hle := V.bytesPerCluster_le
  have hcluster : u32 (h.bytesPerSector * h.sectorsPerCluster) = h.bytesPerCluster := by
    rw [Nat.mul_comm]
    exact u32_of_lt (Nat.lt_of_le_of_lt hle (by decide))
  have hend : ∀ {ids}, h.FileClusters dev entry ids → (do
      allocBuffer (ids.length * h.bytesPerCluster)
      let content ← readClusters dev (volumeInfo h) (h.fatBytes dev) ids.length entry.firstClusterId
      if entry.isDirectory then return (u32 (h.bytesPerCluster * ids.length), content)
      else return (entry.fileSizeInBytes, content)) =
        .ok (h.contentSize entry ids.length, ids.flatMap (h.clusterBytes dev)) := by
    rintro ids ⟨hchain, hne⟩
    have hlength : 0 < ids.length := List.length_pos_iff.mpr hne
    have hlt : h.bytesPerCluster * ids.length < 2 ^ 32 :=
      Nat.lt_of_le_of_lt (Nat.mul_le_mul hle hchain.length_le) (by decide)
    rw [allocBuffer_ok (Nat.ne_of_gt (Nat.mul_pos hlength V.bytesPerCluster_pos)), Exec.ok_bind,
      V.readClusters_eq hchain, Exec.ok_bind, u32_of_lt hlt, Fat12Header.contentSize, Nat.mul_comm]
    split <;> rfl
  unfold getFileContent
  rw [V.getFat_eq F, Exec.ok_bind]
  simp only [volumeInfo, hcluster] at hend ⊢
  constructor
  · intro hread
    obtain ⟨n, hcount, hread⟩ := Exec.bind_eq_ok.mp hread
    obtain ⟨ids, hchain, rfl⟩ := countFileClusters_ok hcount
    have hids : h.FileClusters dev entry ids := by
      refine ⟨hchain, ?_⟩
      rintro rfl
      obtain ⟨u, halloc, -⟩ := Exec.bind_eq_ok.mp hread
      exact allocBuffer_eq.mp halloc (Nat.zero_mul _)
    exact ⟨ids, hids, (Except.ok.inj ((hend hids).symm.trans hread)).symm⟩
  · rintro ⟨ids, hids, rfl⟩
    have hlt : ids.length < 2 ^ 16 + 1 := Nat.lt_of_le_of_lt hids.1.length_le (by decide)
    rw [countFileClusters_eq hids.1 hlt, Exec.ok_bind]
    exact hend hids

end ValidHeader

/-! ## Entries of directories -/

/-- The entry is of a file or a directory. -/
def DirectoryEntry.isListed (entry : DirectoryEntry) : Bool := !entry.isDeleted && !entry.isVolumeLabel

/-- The files and directories up to the final entry. -/
def listing (entries : List DirectoryEntry) : List DirectoryEntry :=
  (entries.takeWhile (!·.isFinal)).filter (·.isListed)

/-- A loop over `max` entries stays within the array. -/
def InBounds (entries : List DirectoryEntry) (max : Nat) : Prop :=
  max ≤ entries.length ∨ ∃ entry ∈ entries, entry.isFinal = true

section Listing
variable {entry : DirectoryEntry} {entries : List DirectoryEntry} {left i n : Nat}

theorem listing_final (h : entry.isFinal = true) : listing (entry :: entries) = [] := by
  simp only [listing, List.takeWhile_cons, h, Bool.not_true, Bool.false_eq_true, if_false, List.filter_nil]

theorem listing_cons (h : entry.isFinal = false) : listing (entry :: entries) =
    if entry.isListed then entry :: listing entries else listing entries := by
  simp only [listing, List.takeWhile_cons, h, Bool.not_false, if_true, List.filter_cons]

theorem inBounds_cons (h : entry.isFinal = false) :
    InBounds (entry :: entries) (left + 1) ↔ InBounds entries left := by
  simp only [InBounds, List.length_cons, Nat.add_le_add_iff_right, List.mem_cons, exists_eq_or_imp, h,
    Bool.false_eq_true, false_or]

theorem mapValidEntries_eq {f : DirectoryEntry → α} {r : List α} :
    mapValidEntries f entries left i = .ok r ↔
      InBounds (entries.drop i) left ∧ r = (listing ((entries.drop i).take left)).map f := by
  induction left generalizing i r with
  | zero =>
    rw [List.take_zero]
    exact ⟨fun h => ⟨.inl (Nat.zero_le _), (Except.ok.inj h).symm⟩, fun h => h.2 ▸ rfl⟩
  | succ left ih =>
    cases hget : entries[i]? with
    | none =>
      have hlength : entries.length ≤ i := List.getElem?_eq_none_iff.mp hget
      rw [mapValidEntries, arrayGet_none hlength, List.drop_eq_nil_of_le hlength]
      refine iff_of_false nofun fun h => ?_
      obtain hlt | ⟨_, hmem, -⟩ := h.1
      · cases hlt
      · cases hmem
    | some entry =>
      have hdrop : entries.drop i = entry :: entries.drop (i + 1) := by
        obtain ⟨hlt, rfl⟩ := List.getElem?_eq_some_iff.mp hget
        exact List.drop_eq_getElem_cons hlt
      rw [mapValidEntries, arrayGet_eq.mpr hget, Exec.ok_bind, hdrop, List.take_succ_cons]
      cases hfinal : entry.isFinal with
      | true =>
        rw [if_pos rfl, listing_final hfinal, List.map_nil]
        exact ⟨fun h => ⟨.inr ⟨entry, .head _, hfinal⟩, (Except.ok.inj h).symm⟩, fun h => h.2 ▸ rfl⟩
      | false =>
        rw [if_neg nofun, inBounds_cons hfinal, listing_cons hfinal, DirectoryEntry.isListed]
        cases entry.isDeleted with
        | true => exact ih
        | false =>
          cases entry.isVolumeLabel with
          | true => exact ih
          | false =>
            simp only [Bool.false_eq_true, if_false, Bool.not_false, Bool.and_self, if_true,
              List.map_cons, Exec.bind_eq_ok, ih]
            constructor
            · rintro ⟨l, ⟨hin, rfl⟩, h⟩
              cases h
              exact ⟨hin, rfl⟩
            · rintro ⟨hin, rfl⟩
              exact ⟨_, ⟨hin, rfl⟩, rfl⟩

/-- The count is the number of entries that the loops over them find. -/
theorem countValidEntries_eq :
    countValidEntries entries false left i n = (n + ·.length) <$> mapValidEntries id entries left i := by
  induction left generalizing i n with
  | zero => rfl
  | succ left ih =>
    rw [countValidEntries, mapValidEntries]
    cases arrayGet entries i with
    | error _ => rfl
    | ok entry =>
      simp only [Exec.ok_bind]
      cases entry.isFinal with
      | true => rfl
      | false =>
        cases entry.isDeleted with
        | true => exact ih
        | false =>
          cases entry.isVolumeLabel with
          | true => exact ih
          | false =>
            refine ih.trans ?_
            cases mapValidEntries id entries left (i + 1) with
            | error _ => rfl
            | ok l => exact congrArg Except.ok (Nat.add_right_comm n 1 l.length)

theorem filterValidDirectoryEntries_eq {r : List DirectoryEntry × Nat} :
    filterValidDirectoryEntries entries n = .ok r ↔ InBounds entries n ∧
      listing (entries.take n) ≠ [] ∧ r = (listing (entries.take n), (listing (entries.take n)).length) := by
  unfold filterValidDirectoryEntries
  rw [countValidEntries_eq]
  constructor
  · intro h
    obtain ⟨count, hcount, h⟩ := Exec.bind_eq_ok.mp h
    obtain ⟨l, hl, rfl⟩ := Exec.map_eq_ok.mp hcount
    obtain ⟨hin, rfl⟩ := mapValidEntries_eq.mp hl
    obtain ⟨u, halloc, h⟩ := Exec.bind_eq_ok.mp h
    obtain ⟨l', hl', h⟩ := Exec.bind_eq_ok.mp h
    rw [hl] at hl'
    cases hl'
    cases h
    rw [List.drop_zero, List.map_id] at *
    refine ⟨hin, fun hnil => ?_, by rw [Nat.zero_add]⟩
    rw [hnil] at halloc
    exact allocBuffer_eq.mp halloc rfl
  · rintro ⟨hin, hne, rfl⟩
    have hmap : mapValidEntries id entries n 0 = .ok (listing (entries.take n)) :=
      mapValidEntries_eq.mpr ⟨hin, by rw [List.drop_zero, List.map_id]⟩
    have hpos : 0 < (listing (entries.take n)).length := List.length_pos_iff.mpr hne
    have halloc : allocBuffer ((0 + (listing (entries.take n)).length) * sizeofDirectoryEntry) = .ok () :=
      allocBuffer_ok (by rw [sizeofDirectoryEntry]; omega)
    rw [hmap]
    change (do
      allocBuffer ((0 + (listing (entries.take n)).length) * sizeofDirectoryEntry)
      let filteredEntries ← Except.ok (listing (entries.take n))
      pure (filteredEntries, 0 + (listing (entries.take n)).length)) = _
    rw [halloc, Nat.zero_add]
    rfl

theorem listing_listed : ∀ e ∈ listing entries, e.isFinal = false ∧ e.isListed = true := by
  intro e he
  obtain ⟨he, hlisted⟩ := List.mem_filter.mp he
  have := List.mem_takeWhile_imp he
  exact ⟨by simpa using this, hlisted⟩

/-- A listing lists itself. -/
theorem listing_self (h : ∀ e ∈ entries, e.isFinal = false ∧ e.isListed = true) :
    listing entries = entries := by
  rw [listing, List.takeWhile_eq_self_iff.mpr fun e he => by rw [(h e he).1]; rfl]
  exact List.filter_eq_self.mpr fun e he => (h e he).2

end Listing

/-! ## Names -/

/-- The name of an entry in a path: the characters of the name and, after a point, of the extension,
without the spaces that fill them up and in lower case. -/
def DirectoryEntry.shortName (entry : DirectoryEntry) : List Byte :=
  let name := (entry.fileName.take 8).filter (· ≠ 0x20)
  let point : List Byte := if entry.fileName.getD 8 0 = 0x20 then [] else [0x2E]
  let extension := ((entry.fileName.drop 8).take 3).filter (· ≠ 0x20)
  ((name ++ point ++ extension).map tolower).takeWhile (· ≠ 0)

theorem fatFileNameToStr_takeWhile {entry : DirectoryEntry} :
    (fatFileNameToStr entry.fileName).takeWhile (· ≠ 0) = entry.shortName := by
  unfold fatFileNameToStr DirectoryEntry.shortName
  dsimp only
  rw [List.filter_append, List.filter_cons, List.append_assoc]
  by_cases hspace : entry.fileName.getD 8 0 = 0x20
  · simp only [hspace, ne_eq, not_true_eq_false, if_false, if_true, decide_false, Bool.false_eq_true,
      List.nil_append]
  · have hpoint : (0x2E : Byte) ≠ 0x20 := by decide
    simp only [hspace, ne_eq, not_false_eq_true, if_true, if_false, hpoint, decide_true,
      List.cons_append, List.nil_append]

section Names
variable {element name : List Byte}

theorem strncmp_eq_zero {n i : Nat} (hzero : 0 ∉ element) (hn : n = (element.drop i).length) :
    strncmp element name n i = 0 ↔ element.drop i <+: name.drop i := by
  induction n generalizing i with
  | zero =>
    rw [List.eq_nil_of_length_eq_zero hn.symm]
    exact iff_of_true rfl (List.nil_prefix ..)
  | succ n ih =>
    have hi : i < element.length := by
      rw [List.length_drop] at hn
      omega
    have hne : element[i] ≠ 0 := fun h => hzero (h ▸ List.getElem_mem hi)
    have hdrop := List.drop_eq_getElem_cons hi
    rw [hdrop, List.length_cons, Nat.succ_inj] at hn
    rw [strncmp, hdrop, List.getD_eq_getElem _ _ hi]
    by_cases hname : i < name.length
    · rw [List.getD_eq_getElem _ _ hname, List.drop_eq_getElem_cons hname, List.cons_prefix_cons]
      by_cases heq : element[i] = name[i]
      · rw [if_neg (not_not_intro heq), if_neg hne, ih hn]
        exact (and_iff_right heq).symm
      · rw [if_pos heq]
        have htoNat : element[i].toNat ≠ name[i].toNat := fun h => heq (BitVec.eq_of_toNat_eq h)
        exact iff_of_false (by omega) fun h => heq h.1
    · have hend : name.getD i 0 = 0 := List.getD_eq_default _ _ (Nat.le_of_not_lt hname)
      rw [hend, if_pos hne, List.drop_eq_nil_of_le (Nat.le_of_not_lt hname)]
      have htoNat : element[i].toNat ≠ (0 : Byte).toNat := fun h => hne (BitVec.eq_of_toNat_eq h)
      exact iff_of_false (by omega) fun h => by cases List.prefix_nil.mp h

/-- The comparison of a prefix and the check for the end of the string together compare the strings. -/
theorem strncmp_and_end (hzero : 0 ∉ element) :
    (strncmp element name element.length 0 = 0 ∧ name.getD element.length 0 = 0) ↔
      name.takeWhile (· ≠ 0) = element := by
  have hall : ∀ c ∈ element, decide (c ≠ 0) = true := fun c hc =>
    decide_eq_true fun h => hzero (h ▸ hc)
  rw [strncmp_eq_zero hzero (by rw [List.drop_zero]), List.drop_zero, List.drop_zero]
  constructor
  · rintro ⟨⟨rest, rfl⟩, hend⟩
    rw [List.takeWhile_append_of_pos hall]
    cases rest with
    | nil => rw [List.takeWhile_nil, List.append_nil]
    | cons c rest =>
      have hc : c = 0 := by
        rwa [List.getD_append_right _ _ _ _ (Nat.le_refl _), Nat.sub_self, List.getD_cons_zero] at hend
      rw [List.takeWhile_cons_of_neg (by simp [hc]), List.append_nil]
  · intro h
    have happend := List.takeWhile_append_dropWhile (p := (· ≠ 0)) (l := name)
    rw [h] at happend
    refine ⟨⟨_, happend⟩, ?_⟩
    rw [← happend, List.getD_append_right _ _ _ _ (Nat.le_refl _), Nat.sub_self]
    cases hrest : name.dropWhile (· ≠ 0) with
    | nil => rfl
    | cons c rest =>
      have hc := List.head?_dropWhile_not (p := (· ≠ 0)) name
      rw [hrest] at hc
      simpa using hc

end Names

/-- The entry of a directory with the given name. -/
def lookupEntry (entries : List DirectoryEntry) (element : List Byte) : Option DirectoryEntry :=
  entries.find? fun entry => entry.shortName = element

section Lookup
variable {entries : List DirectoryEntry} {element : List Byte}

theorem findPathElement_eq {left i : Nat} (hzero : 0 ∉ element) (hleft : left = (entries.drop i).length) :
    findPathElement entries (entries.map fun entry => fatFileNameToStr entry.fileName) element
      element.length left i = .ok (lookupEntry (entries.drop i) element) := by
  induction left generalizing i with
  | zero =>
    rw [List.eq_nil_of_length_eq_zero hleft.symm]
    rfl
  | succ left ih =>
    have hi : i < entries.length := by
      rw [List.length_drop] at hleft
      omega
    have hdrop := List.drop_eq_getElem_cons hi
    rw [hdrop, List.length_cons, Nat.succ_inj] at hleft
    have hentry : entries[i]? = some entries[i] := List.getElem?_eq_getElem hi
    have hname : (entries.map fun entry => fatFileNameToStr entry.fileName)[i]? =
        some (fatFileNameToStr entries[i].fileName) := by
      rw [List.getElem?_map, hentry, Option.map_some]
    rw [findPathElement, arrayGet_eq.mpr hname, Exec.ok_bind, lookupEntry, hdrop, List.find?_cons,
      ← fatFileNameToStr_takeWhile]
    by_cases hmatch : (fatFileNameToStr entries[i].fileName).takeWhile (· ≠ 0) = element
    · rw [if_pos ((strncmp_and_end hzero).mpr hmatch), arrayGet_eq.mpr hentry, decide_eq_true hmatch]
      rfl
    · rw [if_neg fun h => hmatch ((strncmp_and_end hzero).mp h), ih hleft, decide_eq_false hmatch]
      rfl

/-- A listing has one name for each of its entries. -/
theorem getEntriesFileNames_eq (hne : entries ≠ [])
    (hlisted : ∀ e ∈ entries, e.isFinal = false ∧ e.isListed = true) :
    getEntriesFileNames entries entries.length =
      .ok (entries.map fun entry => fatFileNameToStr entry.fileName) := by
  have hmap : ∀ {α : Type} (f : DirectoryEntry → α),
      mapValidEntries f entries entries.length 0 = .ok (entries.map f) := fun f =>
    mapValidEntries_eq.mpr ⟨.inl (Nat.le_refl _), by
      rw [List.drop_zero, List.take_length, listing_self hlisted]⟩
  have hpos : 0 < entries.length := List.length_pos_iff.mpr hne
  have hcount : countValidEntries entries false entries.length 0 0 = .ok entries.length := by
    rw [countValidEntries_eq, hmap, List.map_id]
    exact congrArg Except.ok (Nat.zero_add _)
  rw [getEntriesFileNames, hcount, Exec.ok_bind, allocBuffer_ok (by omega), Exec.ok_bind, hmap]

theorem getPathElementDirEntry_eq (hzero : 0 ∉ element) (hne : entries ≠ [])
    (hlisted : ∀ e ∈ entries, e.isFinal = false ∧ e.isListed = true) :
    getPathElementDirEntry entries element element.length entries.length =
      .ok (lookupEntry entries element) := by
  rw [getPathElementDirEntry, getEntriesFileNames_eq hne hlisted, Exec.ok_bind,
    findPathElement_eq hzero (by rw [List.drop_zero]), List.drop_zero]

end Lookup

/-! ## The walk along a path -/

namespace Fat12Header
variable (h : Fat12Header) (dev : BlockDevice)

/-- The content of a file with the given clusters. -/
def content (ids : List Nat) : List Byte := ids.flatMap (h.clusterBytes dev)

/-- The entries of the root directory. -/
def rootListing : List DirectoryEntry :=
  listing (directoryEntries (slice dev (h.rootStart * h.bytesPerSector)
    (h.rootEntryCount * sizeofDirectoryEntry)))

/-- The driver reads the file of the entry as a directory with these entries. -/
def ReadsAs (entry : DirectoryEntry) (entries : List DirectoryEntry) : Prop :=
  ∃ ids, h.FileClusters dev entry ids ∧
    InBounds (directoryEntries (h.content dev ids))
      (h.contentSize entry ids.length / sizeofDirectoryEntry) ∧
    entries = listing ((directoryEntries (h.content dev ids)).take
      (h.contentSize entry ids.length / sizeofDirectoryEntry)) ∧ entries ≠ []

/-- What the components of a path lead to from a directory: nothing, or a size and a content. -/
inductive Walk : List DirectoryEntry → List (List Byte) → Option (Nat × List Byte) → Prop
  | missing {entries : List DirectoryEntry} {c : List Byte} {cs : List (List Byte)} :
    lookupEntry entries c = none → Walk entries (c :: cs) none
  | file {entries : List DirectoryEntry} {c : List Byte} {entry : DirectoryEntry} {ids : List Nat} :
    lookupEntry entries c = some entry → h.FileClusters dev entry ids →
    Walk entries [c] (some (h.contentSize entry ids.length, h.content dev ids))
  | enter {entries entries' : List DirectoryEntry} {c c' : List Byte} {cs : List (List Byte)}
    {entry : DirectoryEntry} {r : Option (Nat × List Byte)} :
    lookupEntry entries c = some entry → h.ReadsAs dev entry entries' → Walk entries' (c' :: cs) r →
    Walk entries (c :: c' :: cs) r

end Fat12Header

/-- What the last component leads to. -/
theorem Fat12Header.walk_single {h : Fat12Header} {entries : List DirectoryEntry} {c : List Byte}
    {r : Option (Nat × List Byte)} : h.Walk dev entries [c] r ↔ match lookupEntry entries c with
      | none => r = none
      | some entry => ∃ ids, h.FileClusters dev entry ids ∧
        r = some (h.contentSize entry ids.length, h.content dev ids) := by
  constructor
  · intro hwalk
    cases hwalk with
    | missing hnone => rw [hnone]
    | file hsome hids =>
      rw [hsome]
      exact ⟨_, hids, rfl⟩
  · intro hlookup
    split at hlookup
    · rename_i hnone
      exact hlookup ▸ .missing hnone
    · rename_i hsome
      obtain ⟨ids, hids, rfl⟩ := hlookup
      exact .file hsome hids

/-- What a component before the last one leads to. -/
theorem Fat12Header.walk_cons {h : Fat12Header} {entries : List DirectoryEntry} {c : List Byte}
    {cs : List (List Byte)} {r : Option (Nat × List Byte)} (hne : cs ≠ []) :
    h.Walk dev entries (c :: cs) r ↔ match lookupEntry entries c with
      | none => r = none
      | some entry => ∃ entries', h.ReadsAs dev entry entries' ∧ h.Walk dev entries' cs r := by
  constructor
  · intro hwalk
    cases hwalk with
    | missing hnone => rw [hnone]
    | file _ _ => exact absurd rfl hne
    | enter hsome hreads hwalk =>
      rw [hsome]
      exact ⟨_, hreads, hwalk⟩
  · intro hlookup
    split at hlookup
    · rename_i hnone
      exact hlookup ▸ .missing hnone
    · rename_i hsome
      obtain ⟨entries', hreads, hwalk⟩ := hlookup
      obtain ⟨c', cs, rfl⟩ := List.exists_cons_of_ne_nil hne
      exact .enter hsome hreads hwalk

/-- The components of a path. -/
def components (path : List Byte) : List (List Byte) := path.splitOn 0x2F

theorem components_ne_nil {path : List Byte} : components path ≠ [] := List.splitOn_ne_nil 0x2F path

theorem components_cons {c : Byte} {path : List Byte} : components (c :: path) =
    if c = 0x2F then [] :: components path else (components path).modifyHead (List.cons c) := by
  simp only [components, List.splitOn_cons_eq_if_modifyHead, beq_iff_eq]

theorem modifyHead_nil_append {l : List (List Byte)} : l.modifyHead ([] ++ ·) = l := by
  cases l <;> rfl

namespace ValidHeader
variable {h : Fat12Header} (V : ValidHeader h) (F : HeaderFits h) {entry : DirectoryEntry}
  {entries : List DirectoryEntry}
include V F

theorem getFilteredDirectoryEntries_eq {r : List DirectoryEntry × Nat} :
    getFilteredDirectoryEntries dev (volumeInfo h) entry = .ok r ↔
      h.ReadsAs dev entry r.1 ∧ r.2 = r.1.length := by
  unfold getFilteredDirectoryEntries
  constructor
  · intro hread
    obtain ⟨⟨size, content⟩, hcontent, hread⟩ := Exec.bind_eq_ok.mp hread
    obtain ⟨ids, hids, heq⟩ := (V.getFileContent_eq F).mp hcontent
    cases heq
    obtain ⟨hin, hne, rfl⟩ := filterValidDirectoryEntries_eq.mp hread
    exact ⟨⟨ids, hids, hin, rfl, hne⟩, rfl⟩
  · rintro ⟨⟨ids, hids, hin, heq, hne⟩, hlength⟩
    rw [(V.getFileContent_eq F).mpr ⟨ids, hids, rfl⟩]
    exact filterValidDirectoryEntries_eq.mpr ⟨hin, heq ▸ hne, Prod.ext heq (hlength.trans (heq ▸ rfl))⟩

theorem getRootDirectoryEntries_eq {r : List DirectoryEntry × Nat} :
    getRootDirectoryEntries dev (volumeInfo h) = .ok r ↔
      h.rootListing dev ≠ [] ∧ r = (h.rootListing dev, (h.rootListing dev).length) := by
  have hfits := V.dataFits
  rw [Fat12Header.dataStart] at hfits
  have hsize : u32 (h.rootSectors * h.bytesPerSector) = h.rootEntryCount * sizeofDirectoryEntry := by
    rw [u32_of_lt (V.bytes_lt F (by omega)), V.rootSectors_mul]
  have hoffset := V.bytes_lt F (n := h.rootStart) (by omega)
  have hne : h.rootEntryCount * sizeofDirectoryEntry ≠ 0 := by
    have := V.rootEntryCount
    rw [sizeofDirectoryEntry]
    omega
  have hcount : h.rootEntryCount * sizeofDirectoryEntry / sizeofDirectoryEntry = h.rootEntryCount :=
    Nat.mul_div_cancel _ (by decide)
  have hlength : (directoryEntries (slice dev (h.rootStart * h.bytesPerSector)
      (h.rootEntryCount * sizeofDirectoryEntry))).length = h.rootEntryCount := by
    rw [directoryEntries, List.length_map, List.length_range, length_slice, hcount]
  simp only [getRootDirectoryEntries, volumeInfo, hsize, u32_of_lt hoffset, allocBuffer_ok hne,
    Exec.ok_bind, preadDevice_eq, hcount]
  rw [filterValidDirectoryEntries_eq, List.take_of_length_le (Nat.le_of_eq hlength)]
  exact and_iff_right (.inl (Nat.le_of_eq hlength.symm))

/-- The loop of `fat12_open` is the walk along the components, of which it has read a part of the
first one. -/
theorem walkPath_eq {element rest : List Byte} {r : Option (Nat × List Byte)} (hne : entries ≠ [])
    (hlisted : ∀ e ∈ entries, e.isFinal = false ∧ e.isListed = true) (helement : 0 ∉ element)
    (hrest : 0 ∉ rest) :
    walkPath dev (volumeInfo h) entries entries.length element rest = .ok r ↔
      h.Walk dev entries ((components rest).modifyHead (element ++ ·)) r := by
  induction rest generalizing entries element with
  | nil =>
    rw [walkPath, getPathElementDirEntry_eq helement hne hlisted, Exec.ok_bind, components,
      List.splitOn_nil, List.modifyHead_cons, List.append_nil, Fat12Header.walk_single]
    cases lookupEntry entries element with
    | none => exact ⟨fun heq => (Except.ok.inj heq).symm, fun heq => heq ▸ rfl⟩
    | some entry =>
      dsimp only
      rw [Exec.map_eq_ok]
      constructor
      · rintro ⟨content, hcontent, rfl⟩
        obtain ⟨ids, hids, rfl⟩ := (V.getFileContent_eq F).mp hcontent
        exact ⟨ids, hids, rfl⟩
      · rintro ⟨ids, hids, rfl⟩
        exact ⟨_, (V.getFileContent_eq F).mpr ⟨ids, hids, rfl⟩, rfl⟩
  | cons c rest ih =>
    obtain ⟨hc, hrest⟩ : c ≠ 0 ∧ 0 ∉ rest :=
      ⟨fun h => hrest (h ▸ .head _), fun h => hrest (.tail _ h)⟩
    rw [walkPath, components_cons]
    by_cases hslash : c = 0x2F
    · rw [if_pos hslash, if_pos hslash, List.modifyHead_cons, List.append_nil,
        getPathElementDirEntry_eq helement hne hlisted, Exec.ok_bind,
        Fat12Header.walk_cons components_ne_nil]
      cases lookupEntry entries element with
      | none => exact ⟨fun heq => (Except.ok.inj heq).symm, fun heq => heq ▸ rfl⟩
      | some entry =>
        dsimp only
        rw [Exec.bind_eq_ok]
        have hnext : ∀ entries', h.ReadsAs dev entry entries' →
            (walkPath dev (volumeInfo h) entries' entries'.length [] rest = .ok r ↔
              h.Walk dev entries' (components rest) r) := by
          rintro entries' ⟨_, _, _, hlisting, hne'⟩
          rw [ih hne' (hlisting ▸ listing_listed) List.not_mem_nil hrest, modifyHead_nil_append]
        constructor
        · rintro ⟨⟨entries', n⟩, hread, heq⟩
          obtain ⟨hreads, hn⟩ := (V.getFilteredDirectoryEntries_eq F).mp hread
          obtain rfl : n = entries'.length := hn
          exact ⟨entries', hreads, (hnext entries' hreads).mp heq⟩
        · rintro ⟨entries', hreads, hwalk⟩
          exact ⟨(entries', entries'.length),
            (V.getFilteredDirectoryEntries_eq F).mpr ⟨hreads, rfl⟩, (hnext entries' hreads).mpr hwalk⟩
    · have helement' : 0 ∉ element ++ [c] := by
        rw [List.mem_append, List.mem_singleton]
        rintro (h₀ | h₀)
        · exact helement h₀
        · exact hc h₀.symm
      rw [if_neg hslash, if_neg hslash, List.modifyHead_modifyHead, ih hne hlisted helement' hrest]
      simp only [Function.comp_def, List.append_assoc, List.singleton_append]

end ValidHeader

theorem dropSeparator_subset (path : List Byte) : dropSeparator path ⊆ path := by
  cases path with
  | nil => exact List.Subset.refl _
  | cons c path =>
    rw [dropSeparator]
    split
    · exact List.subset_cons_self ..
    · exact List.Subset.refl _

/-- `fat12_open` returns exactly when the walk along the path ends. -/
theorem fat12OpenPath_eq (V : ValidVolume dev) {filepath : CString} {r : Option (Nat × List Byte)} :
    (initFat12 dev >>= fun info => fat12OpenPath dev info filepath) = .ok r ↔
      (loadFat12Header dev).rootListing dev ≠ [] ∧ (loadFat12Header dev).Walk dev
        ((loadFat12Header dev).rootListing dev) (components (dropSeparator filepath.chars)) r := by
  have F : HeaderFits (loadFat12Header dev) := loadFat12Header_fits
  have hzero : 0 ∉ dropSeparator filepath.chars := fun h =>
    filepath.nonzero (dropSeparator_subset _ h)
  rw [initFat12, V.loadFat12Info_eq F, Exec.ok_bind, fat12OpenPath]
  constructor
  · intro hopen
    obtain ⟨⟨entries, n⟩, hroot, hopen⟩ := Exec.bind_eq_ok.mp hopen
    obtain ⟨hne, heq⟩ := (V.getRootDirectoryEntries_eq F).mp hroot
    cases heq
    have hwalk := (V.walkPath_eq F hne listing_listed List.not_mem_nil hzero).mp hopen
    rw [modifyHead_nil_append] at hwalk
    exact ⟨hne, hwalk⟩
  · rintro ⟨hne, hwalk⟩
    rw [(V.getRootDirectoryEntries_eq F).mpr ⟨hne, rfl⟩]
    refine (V.walkPath_eq F hne listing_listed List.not_mem_nil hzero).mpr ?_
    rwa [modifyHead_nil_append]

end TrazelOs
