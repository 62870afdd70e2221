import TrazelOs.Kernel.Lookup
import TrazelOs.Theory.Ownership

/-! # The FAT12 driver on its heap (`drivers/fat12/fat12.c`, `vfs_close`)

The functions of the driver with the blocks they allocate, read, fill and release, in the order of the
source; a pointer is the name of a block. An access through the name of a block that is not live, or a
second release of one, is a `misuse`. An access outside of a live block is wild, as it is for the
lists of `Kernel.Fat12`, and ends the run. Where `kmalloc` finds no room it returns a null pointer that
its callers use at once: the run ends there. -/

namespace TrazelOs

/-- What a block of the driver holds. The buffers are filled from the front; `size` counts their
elements. -/
inductive Block
  | file (vfsFile : VfsFile)
  | bytes (size : Nat) (data : List Byte)
  | entries (size : Nat) (data : List DirectoryEntry)
  | names (size : Nat) (data : List Nat)
deriving Repr, DecidableEq

namespace Block

def bytes? : Block → Option (List Byte)
  | .bytes _ data => some data
  | _ => none

def names? : Block → Option (List Nat)
  | .names _ data => some data
  | _ => none

/-- A buffer of bytes is read as an array of entries, too. -/
def dirEntries? : Block → Option (List DirectoryEntry)
  | .bytes _ data => some (directoryEntries data)
  | .entries _ data => some data
  | _ => none

def pushBytes (added : List Byte) : Block → Option Block
  | .bytes size data =>
    if data.length + added.length ≤ size then some (.bytes size (data ++ added)) else none
  | _ => none

def pushEntry (entry : DirectoryEntry) : Block → Option Block
  | .entries size data => if data.length < size then some (.entries size (data ++ [entry])) else none
  | _ => none

def pushName (val : Nat) : Block → Option Block
  | .names size data => if data.length < size then some (.names size (data ++ [val])) else none
  | _ => none

def setContent (fileSize fsPrivateData : Nat) : Block → Option Block
  | .file vfsFile => some (.file { vfsFile with fileSize, fsPrivateData, kind := .fat12 })
  | _ => none

end Block

inductive HeapFault
  | fault (f : Fault)
  | noRoom
  | misuse
deriving Repr, DecidableEq

abbrev DriverHeap := Theory.BlockHeap Block

abbrev HeapM := StateT DriverHeap (Except HeapFault)

namespace Driver

/-! ## Blocks -/

/-- A computation that leaves the heap alone. -/
def lift (x : Exec α) : HeapM α := fun heap =>
  match x with
  | .ok a => .ok (a, heap)
  | .error e => .error (.fault e)

def wild : HeapM α := lift (.error .wild)

def load (p : Nat) : HeapM Block := fun heap =>
  match heap.blocks p with
  | some block => .ok (block, heap)
  | none => .error .misuse

def store (p : Nat) (block : Block) : HeapM Unit := fun heap =>
  match heap.set p block with
  | some heap => .ok ((), heap)
  | none => .error .misuse

def kfree (p : Nat) : HeapM Unit := fun heap =>
  match heap.free p with
  | some heap => .ok ((), heap)
  | none => .error .misuse

/-- `room` tells whether the heap finds a block of the size. -/
def kmalloc (room : DriverHeap → Nat → Bool) (size : Nat) (block : Block) : HeapM Nat := do
  lift (allocBuffer size)
  fun heap => if room heap size then .ok (heap.alloc block) else .error .noRoom

/-- Read a block as `view` has it; any other block is no such array. -/
def viewBlock (view : Block → Option α) (p : Nat) : HeapM α := do
  match view (← load p) with
  | some a => return a
  | none => wild

/-- Change a block in place. The result of `change` is nothing where it would write past the end. -/
def changeBlock (change : Block → Option Block) (p : Nat) : HeapM Unit := do
  match change (← load p) with
  | some block => store p block
  | none => wild

def bytesAt : Nat → HeapM (List Byte) := viewBlock Block.bytes?
def namesAt : Nat → HeapM (List Nat) := viewBlock Block.names?

/-- `dir_entries[i]`. -/
def readEntry (dirEntries i : Nat) : HeapM DirectoryEntry := do
  let entries ← viewBlock Block.dirEntries? dirEntries
  lift (arrayGet entries i)

def fillBytes (p : Nat) (bytes : List Byte) : HeapM Unit := changeBlock (Block.pushBytes bytes) p
def fillEntry (p : Nat) (entry : DirectoryEntry) : HeapM Unit := changeBlock (Block.pushEntry entry) p
def fillName (p : Nat) (val : Nat) : HeapM Unit := changeBlock (Block.pushName val) p

/-! ## Directories -/

def countValidEntries (dirEntries : Nat) (includeNoneFileOrDirEntries : Bool) :
    (left i count : Nat) → HeapM Nat
  | 0, _, count => pure count
  | left + 1, i, count => do
    let entry ← readEntry dirEntries i
    if entry.isFinal then return count
    else if includeNoneFileOrDirEntries then
      countValidEntries dirEntries includeNoneFileOrDirEntries left (i + 1) (count + 1)
    else if ¬entry.isDeleted ∧ ¬entry.isVolumeLabel then
      countValidEntries dirEntries includeNoneFileOrDirEntries left (i + 1) (count + 1)
    else countValidEntries dirEntries includeNoneFileOrDirEntries left (i + 1) count

/-- The loop over the entries that are neither deleted nor a volume label, up to the final one. -/
def forValidEntries (visit : DirectoryEntry → HeapM Unit) (dirEntries : Nat) :
    (left i : Nat) → HeapM Unit
  | 0, _ => pure ()
  | left + 1, i => do
    let entry ← readEntry dirEntries i
    if entry.isFinal then return ()
    else if entry.isDeleted then forValidEntries visit dirEntries left (i + 1)
    else if entry.isVolumeLabel then forValidEntries visit dirEntries left (i + 1)
    else
      visit entry
      forValidEntries visit dirEntries left (i + 1)

section Room
variable (room : DriverHeap → Nat → Bool)

/-- Returns the array that replaces the other one. -/
def filterValidDirectoryEntries (dirEntries entriesCount : Nat) : HeapM (Nat × Nat) := do
  let fileTypeEntriesCount ← countValidEntries dirEntries false entriesCount 0 0
  let filteredEntries ← kmalloc room (fileTypeEntriesCount * sizeofDirectoryEntry)
    (.entries fileTypeEntriesCount [])
  forValidEntries (fillEntry filteredEntries) dirEntries entriesCount 0
  kfree dirEntries
  return (filteredEntries, fileTypeEntriesCount)

/-! ## Names -/

/-- The name with the terminating null. -/
def fatFileNameToStr (filenameFatFormat : List Byte) : HeapM Nat := do
  let name ← kmalloc room fileNameBufferSize (.bytes fileNameBufferSize [])
  fillBytes name (TrazelOs.fatFileNameToStr filenameFatFormat ++ [0])
  return name

/-- One turn of the loop of `get_entries_file_names`. -/
def nameEntry (fileNames : Nat) (entry : DirectoryEntry) : HeapM Unit := do
  let val ← fatFileNameToStr room entry.fileName
  fillName fileNames val

def getEntriesFileNames (dirEntries dirEntriesCount : Nat) : HeapM Nat := do
  let fileTypeEntriesCount ← countValidEntries dirEntries false dirEntriesCount 0 0
  let fileNames ← kmalloc room (fileTypeEntriesCount * 8) (.names fileTypeEntriesCount [])
  forValidEntries (nameEntry room fileNames) dirEntries dirEntriesCount 0
  return fileNames

/-- The index of the entry. -/
def findPathElement (elementsNames : Nat) (pathElement : List Byte) (pathElementLen : Nat) :
    (left i : Nat) → HeapM (Option Nat)
  | 0, _ => pure none
  | left + 1, i => do
    let names ← namesAt elementsNames
    let elementName ← lift (arrayGet names i)
    let name ← bytesAt elementName
    if strncmp pathElement name pathElementLen 0 = 0 ∧ name.getD pathElementLen 0 = 0 then
      return some i
    else findPathElement elementsNames pathElement pathElementLen left (i + 1)

/-- The loop that releases the names. -/
def freeNames (elementsNames : Nat) : (left i : Nat) → HeapM Unit
  | 0, _ => pure ()
  | left + 1, i => do
    let names ← namesAt elementsNames
    let elementName ← lift (arrayGet names i)
    kfree elementName
    freeNames elementsNames left (i + 1)

def getPathElementDirEntry (dirEntries : Nat) (pathElement : List Byte)
    (pathElementLen dirEntriesCount : Nat) : HeapM (Option Nat) := do
  let elementsNames ← getEntriesFileNames room dirEntries dirEntriesCount
  let returnEntry ← findPathElement elementsNames pathElement pathElementLen dirEntriesCount 0
  freeNames elementsNames dirEntriesCount 0
  kfree elementsNames
  return returnEntry

end Room

/-! ## Clusters -/

def getNextClusterId (clusterId fat : Nat) : HeapM Nat := do
  let bytes ← bytesAt fat
  lift (TrazelOs.getNextClusterId clusterId bytes)

def countFileClusters (fat : Nat) : (turns currClusterId : Nat) → HeapM Nat
  | 0, _ => lift (.error .hang)
  | turns + 1, currClusterId =>
    if currClusterId = fatLastClusterNum then pure 0
    else do
      let next ← getNextClusterId currClusterId fat
      let clusterCount ← countFileClusters fat turns next
      return clusterCount + 1

section Volume
variable (room : DriverHeap → Nat → Bool) (dev : BlockDevice) (info : Fat12Info)

/-- A buffer that is filled from the device. -/
def kmallocPread (size offset : Nat) : HeapM Nat := do
  let buffer ← kmalloc room size (.bytes size [])
  fillBytes buffer (preadDevice dev size offset)
  return buffer

def getFat : HeapM Nat :=
  let fat12TableSize := u32 (info.fatSectorSize * info.bytesPerSector)
  let fatByteOffset := u32 (info.bytesPerSector * info.fatSectionSectorOffset)
  kmallocPread room dev fat12TableSize fatByteOffset

def readCluster (clusterId : Nat) : HeapM Nat :=
  let clusterNum := u32Sub clusterId 2
  let bytesPerCluster := u32 (info.sectorsPerCluster * info.bytesPerSector)
  let dataSectionSectorOffset := u32 (clusterNum * info.sectorsPerCluster)
  let deviceSectorOffset := u32 (info.dataSectionSectorOffset + dataSectionSectorOffset)
  let deviceBytesOffset := u32 (deviceSectorOffset * info.bytesPerSector)
  kmallocPread room dev bytesPerCluster deviceBytesOffset

/-- The loop of `get_file_content`. -/
def readClusters (fileContent fat : Nat) : (left currClusterId : Nat) → HeapM Unit
  | 0, _ => pure ()
  | left + 1, currClusterId => do
    let clusterData ← readCluster room dev info currClusterId
    let bytes ← bytesAt clusterData
    fillBytes fileContent bytes
    kfree clusterData
    let next ← getNextClusterId currClusterId fat
    readClusters fileContent fat left next

/-- Returns the size and the buffer. The entry is the one with the index in the array. -/
def getFileContent (dirEntries i : Nat) : HeapM (Nat × Nat) := do
  let bytesPerCluster := u32 (info.bytesPerSector * info.sectorsPerCluster)
  let fat ← getFat room dev info
  let entry ← readEntry dirEntries i
  let fileClusterCount ← countFileClusters fat (2 ^ 16 + 1) entry.firstClusterId
  let fileContent ← kmalloc room (fileClusterCount * bytesPerCluster)
    (.bytes (fileClusterCount * bytesPerCluster) [])
  let entry ← readEntry dirEntries i
  readClusters room dev info fileContent fat fileClusterCount entry.firstClusterId
  kfree fat
  let entry ← readEntry dirEntries i
  if entry.isDirectory then return (u32 (bytesPerCluster * fileClusterCount), fileContent)
  else return (entry.fileSizeInBytes, fileContent)

def getFilteredDirectoryEntries (dirEntries i : Nat) : HeapM (Nat × Nat) := do
  let (directoryBytes, dirs) ← getFileContent room dev info dirEntries i
  filterValidDirectoryEntries room dirs (directoryBytes / sizeofDirectoryEntry)

def getRootDirectoryEntries : HeapM (Nat × Nat) := do
  let directoryBytesSize := u32 (info.rootDirSectorsSize * info.bytesPerSector)
  let bytesOffset := u32 (info.rootDirSectorOffset * info.bytesPerSector)
  let dirEntries ← kmallocPread room dev directoryBytesSize bytesOffset
  filterValidDirectoryEntries room dirEntries (directoryBytesSize / sizeofDirectoryEntry)

/-! ## Opening and closing a file -/

/-- The stores to the file that was found. -/
def setContent (fileVfs fileSize fsPrivateData : Nat) : HeapM Unit :=
  changeBlock (Block.setContent fileSize fsPrivateData) fileVfs

/-- The array of a directory is kept until the one it leads to has been read. -/
def walkPath (fileVfs : Nat) : (dirEntries dirEntriesCount : Nat) →
    (pathElement rest : List Byte) → HeapM (Option Nat)
  | dirEntries, dirEntriesCount, pathElement, [] => do
    match ← getPathElementDirEntry room dirEntries pathElement pathElement.length dirEntriesCount with
    | none =>
      kfree dirEntries
      kfree fileVfs
      return none
    | some i =>
      let (fileSize, fsPrivateData) ← getFileContent room dev info dirEntries i
      setContent fileVfs fileSize fsPrivateData
      kfree dirEntries
      return some fileVfs
  | dirEntries, dirEntriesCount, pathElement, c :: rest =>
    if c = 0x2F then do
      match ← getPathElementDirEntry room dirEntries pathElement pathElement.length
        dirEntriesCount with
      | none =>
        kfree dirEntries
        kfree fileVfs
        return none
      | some i =>
        let dirEntriesBackup := dirEntries
        let (dirEntries, dirEntriesCount) ← getFilteredDirectoryEntries room dev info dirEntries i
        kfree dirEntriesBackup
        walkPath fileVfs dirEntries dirEntriesCount [] rest
    else walkPath fileVfs dirEntries dirEntriesCount (pathElement ++ [c]) rest

/-- `stale` is what the memory of the file held when it was allocated. -/
def fat12Open (stale : VfsFile) (filepath : CString) : HeapM (Option Nat) := do
  let fileVfs ← kmalloc room sizeofVfsFile (.file stale)
  let (dirEntries, dirEntriesCount) ← getRootDirectoryEntries room dev info
  walkPath room dev info fileVfs dirEntries dirEntriesCount [] (dropSeparator filepath.chars)

end Volume

def vfsClose (vfsNode : Nat) : HeapM Int := do
  match ← load vfsNode with
  | .file vfsFile =>
    let fileRefCount := if vfsFile.fileRefCount > 0 then vfsFile.fileRefCount - 1 else 0
    store vfsNode (.file { vfsFile with fileRefCount })
    if fileRefCount = 0 then
      if vfsFile.kind = .fat12 then kfree vfsFile.fsPrivateData
      kfree vfsNode
      return 0
    else return 0
  | _ => wild

end Driver

end TrazelOs
