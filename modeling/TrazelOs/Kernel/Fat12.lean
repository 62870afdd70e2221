import TrazelOs.Kernel.MemUtils
import TrazelOs.Kernel.Vfs

/-! # The FAT12 driver (`drivers/fat12/fat12.c`, `fat12_defs.h`, `drivers/block_device.c`)

The buffers the driver allocates are lists of bytes here: of the heap the model has the assertion
that no buffer of size 0 is asked for, and an access outside of a buffer is wild. -/

namespace TrazelOs

/-! ## The block device -/

/-- `SECTOR_SIZE`, the `block_size` of the ATA driver. -/
def sectorSize : Nat := 512

/-- The bytes of a partition. -/
abbrev BlockDevice := Nat → Byte

section Device
variable (dev : BlockDevice)

def readBlock (lba : Nat) : List Byte :=
  (List.range sectorSize).map fun i => dev (lba * sectorSize + i)

/-- The loop over whole blocks. -/
def readBlocks : (count currLba : Nat) → List Byte
  | 0, _ => []
  | count + 1, currLba => readBlock dev currLba ++ readBlocks count (currLba + 1)

def readBlkDeviceBytes (byteOffset size : Nat) : List Byte :=
  let currLba := byteOffset / sectorSize
  let headOffset := byteOffset % sectorSize
  let headBytesToCopy :=
    if headOffset > 0 then
      if sectorSize - headOffset > size then size else sectorSize - headOffset
    else 0
  let head := ((readBlock dev currLba).drop headOffset).take headBytesToCopy
  let currLba := if headOffset > 0 then currLba + 1 else currLba
  let remaining := size - headBytesToCopy
  let body := readBlocks dev (remaining / sectorSize) currLba
  let currLba := currLba + remaining / sectorSize
  let tail := (readBlock dev currLba).take (remaining % sectorSize)
  head ++ body ++ tail

def preadDevice (readBytes offset : Nat) : List Byte := readBlkDeviceBytes dev offset readBytes

end Device

/-! ## The header of the volume -/

/-- The fields of `struct fat12_header` that are used. -/
structure Fat12Header where
  bytesPerSector : Nat
  sectorsPerCluster : Nat
  reservedSectorCount : Nat
  tableCount : Nat
  rootEntryCount : Nat
  totalSectors16 : Nat
  tableSize16 : Nat
  totalSectors32 : Nat
deriving Repr, DecidableEq

/-- `sizeof(struct fat12_header)`. -/
def sizeofFat12Header : Nat := 62

def loadFat12Header (dev : BlockDevice) : Fat12Header :=
  let buffer := preadDevice dev sizeofFat12Header 0
  { bytesPerSector := field buffer 11 2
    sectorsPerCluster := field buffer 13 1
    reservedSectorCount := field buffer 14 2
    tableCount := field buffer 16 1
    rootEntryCount := field buffer 17 2
    totalSectors16 := field buffer 19 2
    tableSize16 := field buffer 22 2
    totalSectors32 := field buffer 32 4 }

/-- `struct fat12_info`. -/
structure Fat12Info where
  bytesPerSector : Nat
  sectorsPerCluster : Nat
  totalSectors : Nat
  fatSectorSize : Nat
  fatSectionSectorSize : Nat
  rootDirSectorsSize : Nat
  dataSectorsSize : Nat
  clusterCount : Nat
  dataSectionSectorOffset : Nat
  fatSectionSectorOffset : Nat
  rootDirSectorOffset : Nat
deriving Repr, DecidableEq

/-- A division by zero raises an exception that no handler of the kernel resumes from. -/
def divide (a b : Nat) : Exec Nat :=
  if b = 0 then .error (.panic "Unexpected CPU exception occurred") else .ok (a / b)

def bytesToSectorsRoundUp (bytes bytesPerSector : Nat) : Exec Nat :=
  divide (u32Sub (u32 (bytes + bytesPerSector)) 1) bytesPerSector

/-- `sizeof(struct fat12_directory_entry)`. -/
def sizeofDirectoryEntry : Nat := 32

def loadFat12Info (h : Fat12Header) : Exec Fat12Info := do
  let rootDirBytes := u32 (h.rootEntryCount * sizeofDirectoryEntry)
  let totalSectors := if h.totalSectors16 ≠ 0 then h.totalSectors16 else h.totalSectors32
  let fatSectionSectorSize := u32 (h.tableCount * h.tableSize16)
  let rootDirSectorsSize ← bytesToSectorsRoundUp rootDirBytes h.bytesPerSector
  let dataSectorsSize := u32Sub (u32Sub (u32Sub totalSectors h.reservedSectorCount)
    fatSectionSectorSize) rootDirSectorsSize
  let clusterCount ← divide dataSectorsSize h.sectorsPerCluster
  let dataSectionSectorOffset :=
    u32 (u32 (h.reservedSectorCount + fatSectionSectorSize) + rootDirSectorsSize)
  return {
    bytesPerSector := h.bytesPerSector
    sectorsPerCluster := h.sectorsPerCluster
    totalSectors
    fatSectorSize := h.tableSize16
    fatSectionSectorSize
    rootDirSectorsSize
    dataSectorsSize
    clusterCount
    dataSectionSectorOffset
    fatSectionSectorOffset := h.reservedSectorCount
    rootDirSectorOffset := u32Sub dataSectionSectorOffset rootDirSectorsSize }

def initFat12 (dev : BlockDevice) : Exec Fat12Info := loadFat12Info (loadFat12Header dev)

/-! ## Directories -/

/-- The fields of `struct fat12_directory_entry` that are used. -/
structure DirectoryEntry where
  fileName : List Byte
  attributes : Nat
  firstClusterId : Nat
  fileSizeInBytes : Nat
deriving Repr, DecidableEq

def parseDirectoryEntry (bytes : List Byte) : DirectoryEntry where
  fileName := bytes.take 11
  attributes := field bytes 11 1
  firstClusterId := field bytes 26 2
  fileSizeInBytes := field bytes 28 4

/-- The bytes as an array of directory entries. -/
def directoryEntries (bytes : List Byte) : List DirectoryEntry :=
  (List.range (bytes.length / sizeofDirectoryEntry)).map fun i =>
    parseDirectoryEntry ((bytes.drop (i * sizeofDirectoryEntry)).take sizeofDirectoryEntry)

namespace DirectoryEntry
variable (entry : DirectoryEntry)

def isFinal : Bool := entry.fileName.getD 0 0 = 0x00
def isDeleted : Bool := entry.fileName.getD 0 0 = 0xE5
def isVolumeLabel : Bool := entry.attributes / 0x08 % 2 = 1
def isDirectory : Bool := entry.attributes / 0x10 % 2 = 1

end DirectoryEntry

/-- The assertion of `kmalloc` on the size of a buffer. -/
def allocBuffer (size : Nat) : Exec Unit := kernelAssert (size ≠ 0) "Trying to allocate size 0"

def countValidEntries (dirEntries : List DirectoryEntry) (includeNoneFileOrDirEntries : Bool) :
    (left i count : Nat) → Exec Nat
  | 0, _, count => .ok count
  | left + 1, i, count => do
    let entry ← arrayGet dirEntries i
    if entry.isFinal then return count
    else if includeNoneFileOrDirEntries then
      countValidEntries dirEntries includeNoneFileOrDirEntries left (i + 1) (count + 1)
    else if ¬entry.isDeleted ∧ ¬entry.isVolumeLabel then
      countValidEntries dirEntries includeNoneFileOrDirEntries left (i + 1) (count + 1)
    else countValidEntries dirEntries includeNoneFileOrDirEntries left (i + 1) count

/-- The loop over the entries that are neither deleted nor a volume label, up to the final one. -/
def mapValidEntries (f : DirectoryEntry → α) (dirEntries : List DirectoryEntry) :
    (left i : Nat) → Exec (List α)
  | 0, _ => .ok []
  | left + 1, i => do
    let entry ← arrayGet dirEntries i
    if entry.isFinal then return []
    else if entry.isDeleted then mapValidEntries f dirEntries left (i + 1)
    else if entry.isVolumeLabel then mapValidEntries f dirEntries left (i + 1)
    else
      let entries ← mapValidEntries f dirEntries left (i + 1)
      return f entry :: entries

def filterValidDirectoryEntries (dirEntries : List DirectoryEntry) (entriesCount : Nat) :
    Exec (List DirectoryEntry × Nat) := do
  let fileTypeEntriesCount ← countValidEntries dirEntries false entriesCount 0 0
  allocBuffer (fileTypeEntriesCount * sizeofDirectoryEntry)
  let filteredEntries ← mapValidEntries id dirEntries entriesCount 0
  return (filteredEntries, fileTypeEntriesCount)

/-! ## Names -/

def tolower (ch : Byte) : Byte := if 0x41 ≤ ch ∧ ch ≤ 0x5A then ch + 0x20 else ch

/-- The characters before the terminating null. -/
def fatFileNameToStr (filenameFatFormat : List Byte) : List Byte :=
  let dot : Byte := if filenameFatFormat.getD 8 0 ≠ 0x20 then 0x2E else 0x20
  let name := filenameFatFormat.take 8 ++ dot :: (filenameFatFormat.drop 8).take 3
  (name.filter (· ≠ 0x20)).map tolower

/-- The loop that removes the spaces of `name` in place. Returns the array and `j`. -/
def removeSpaces (name : List Byte) (length : Nat) : Exec (List Byte × Nat) :=
  (List.range length).foldlM (fun state i => do
    let ch ← arrayGet state.1 i
    if ch ≠ 0x20 then
      let name ← arraySet state.1 state.2 (tolower ch)
      return (name, state.2 + 1)
    else return state) (name, 0)

/-- `fat_file_name_to_str` in the array that it has allocated, whatever the array holds. -/
def fatFileNameToStrIn (name filenameFatFormat : List Byte) : Exec (List Byte) := do
  let name ← memcpyArray name 0 filenameFatFormat 0 8
  let ch ← arrayGet filenameFatFormat 8
  let name ← arraySet name 8 (if ch ≠ 0x20 then 0x2E else 0x20)
  let name ← memcpyArray name 9 filenameFatFormat 8 3
  let state ← removeSpaces name 12
  arraySet state.1 state.2 0

def getEntriesFileNames (dirEntries : List DirectoryEntry) (dirEntriesCount : Nat) :
    Exec (List (List Byte)) := do
  let fileTypeEntriesCount ← countValidEntries dirEntries false dirEntriesCount 0 0
  allocBuffer (fileTypeEntriesCount * 8)
  mapValidEntries (fun entry => fatFileNameToStr entry.fileName) dirEntries dirEntriesCount 0

/-- The strings end where their lists do. -/
def strncmp (str1 str2 : List Byte) : (n i : Nat) → Int
  | 0, _ => 0
  | n + 1, i =>
    let a := str1.getD i 0
    let b := str2.getD i 0
    if a ≠ b then (a.toNat : Int) - b.toNat
    else if a = 0 then 0
    else strncmp str1 str2 n (i + 1)

/-- The loop over the names. -/
def findPathElement (dirEntries : List DirectoryEntry) (elementsNames : List (List Byte))
    (pathElement : List Byte) (pathElementLen : Nat) :
    (left i : Nat) → Exec (Option DirectoryEntry)
  | 0, _ => .ok none
  | left + 1, i => do
    let name ← arrayGet elementsNames i
    if strncmp pathElement name pathElementLen 0 = 0 ∧ name.getD pathElementLen 0 = 0 then
      let entry ← arrayGet dirEntries i
      return some entry
    else findPathElement dirEntries elementsNames pathElement pathElementLen left (i + 1)

def getPathElementDirEntry (dirEntries : List DirectoryEntry) (pathElement : List Byte)
    (pathElementLen dirEntriesCount : Nat) : Exec (Option DirectoryEntry) := do
  let elementsNames ← getEntriesFileNames dirEntries dirEntriesCount
  findPathElement dirEntries elementsNames pathElement pathElementLen dirEntriesCount 0

/-! ## Clusters -/

def fatLastClusterNum : Nat := 0xFFF

def getNextClusterId (clusterId : Nat) (fat : List Byte) : Exec Nat := do
  let offset := clusterId + clusterId / 2
  let low ← arrayGet fat offset
  let high ← arrayGet fat (offset + 1)
  let packed := low.toNat + high.toNat * 2 ^ 8
  if clusterId % 2 ≠ 0 then return packed / 2 ^ 4 else return packed % 2 ^ 12

/-- A call with any number, which is converted to the `uint16_t` of the parameter. -/
def getNextClusterIdOf (clusterId : Nat) (fat : List Byte) : Exec Nat :=
  getNextClusterId (clusterId % 2 ^ 16) fat

/-- A chain of more than `2 ^ 16` clusters has come back to one it has seen and never ends. -/
def countFileClusters (fat : List Byte) : (turns currClusterId : Nat) → Exec Nat
  | 0, _ => .error .hang
  | turns + 1, currClusterId =>
    if currClusterId = fatLastClusterNum then .ok 0
    else do
      let next ← getNextClusterId currClusterId fat
      let clusterCount ← countFileClusters fat turns next
      return clusterCount + 1

section Volume
variable (dev : BlockDevice) (info : Fat12Info)

def getFat : Exec (List Byte) := do
  let fat12TableSize := u32 (info.fatSectorSize * info.bytesPerSector)
  let fatByteOffset := u32 (info.bytesPerSector * info.fatSectionSectorOffset)
  allocBuffer fat12TableSize
  return preadDevice dev fat12TableSize fatByteOffset

def readCluster (clusterId : Nat) : Exec (List Byte) := do
  let clusterNum := u32Sub clusterId 2
  let bytesPerCluster := u32 (info.sectorsPerCluster * info.bytesPerSector)
  let dataSectionSectorOffset := u32 (clusterNum * info.sectorsPerCluster)
  let deviceSectorOffset := u32 (info.dataSectionSectorOffset + dataSectionSectorOffset)
  let deviceBytesOffset := u32 (deviceSectorOffset * info.bytesPerSector)
  allocBuffer bytesPerCluster
  return preadDevice dev bytesPerCluster deviceBytesOffset

/-- The loop of `get_file_content` over the clusters. -/
def readClusters (fat : List Byte) : (left currClusterId : Nat) → Exec (List Byte)
  | 0, _ => .ok []
  | left + 1, currClusterId => do
    let clusterData ← readCluster dev info currClusterId
    let next ← getNextClusterId currClusterId fat
    let rest ← readClusters fat left next
    return clusterData ++ rest

/-- Returns the size and the buffer. -/
def getFileContent (entry : DirectoryEntry) : Exec (Nat × List Byte) := do
  let bytesPerCluster := u32 (info.bytesPerSector * info.sectorsPerCluster)
  let fat ← getFat dev info
  let fileClusterCount ← countFileClusters fat (2 ^ 16 + 1) entry.firstClusterId
  allocBuffer (fileClusterCount * bytesPerCluster)
  let content ← readClusters dev info fat fileClusterCount entry.firstClusterId
  if entry.isDirectory then return (u32 (bytesPerCluster * fileClusterCount), content)
  else return (entry.fileSizeInBytes, content)

def getFilteredDirectoryEntries (dirEntry : DirectoryEntry) :
    Exec (List DirectoryEntry × Nat) := do
  let (directoryBytes, content) ← getFileContent dev info dirEntry
  filterValidDirectoryEntries (directoryEntries content) (directoryBytes / sizeofDirectoryEntry)

def getRootDirectoryEntries : Exec (List DirectoryEntry × Nat) := do
  let directoryBytesSize := u32 (info.rootDirSectorsSize * info.bytesPerSector)
  let bytesOffset := u32 (info.rootDirSectorOffset * info.bytesPerSector)
  allocBuffer directoryBytesSize
  filterValidDirectoryEntries (directoryEntries (preadDevice dev directoryBytesSize bytesOffset))
    (directoryBytesSize / sizeofDirectoryEntry)

/-! ## Opening a file -/

/-- The characters of a string in the C sense. -/
structure CString where
  chars : List Byte
  nonzero : 0 ∉ chars

/-- The loop of `fat12_open` over the path. `pathElement` has the characters since the last
separator. -/
def walkPath : (dirEntries : List DirectoryEntry) → (dirEntriesCount : Nat) →
    (pathElement rest : List Byte) → Exec (Option (Nat × List Byte))
  | dirEntries, dirEntriesCount, pathElement, [] => do
    match ← getPathElementDirEntry dirEntries pathElement pathElement.length dirEntriesCount with
    | none => return none
    | some fileDirectoryEntry => some <$> getFileContent dev info fileDirectoryEntry
  | dirEntries, dirEntriesCount, pathElement, c :: rest =>
    if c = 0x2F then do
      match ← getPathElementDirEntry dirEntries pathElement pathElement.length dirEntriesCount with
      | none => return none
      | some dirEntry =>
        let (dirEntries, dirEntriesCount) ← getFilteredDirectoryEntries dev info dirEntry
        walkPath dirEntries dirEntriesCount [] rest
    else walkPath dirEntries dirEntriesCount (pathElement ++ [c]) rest

/-- The path without one separator in front. -/
def dropSeparator : List Byte → List Byte
  | [] => []
  | c :: path => if c = 0x2F then path else c :: path

/-- Returns the size and the content of the file, or nothing for the null pointer. -/
def fat12OpenPath (filepath : CString) : Exec (Option (Nat × List Byte)) := do
  let (dirEntries, dirEntriesCount) ← getRootDirectoryEntries dev info
  walkPath dev info dirEntries dirEntriesCount [] (dropSeparator filepath.chars)

end Volume

end TrazelOs
