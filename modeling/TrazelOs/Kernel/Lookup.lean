import TrazelOs.Kernel.Fat12

/-! # What a path leads to (`vfs_open`, `devfs_open` and `fat12_open`)

The path lookup with the calls that the FAT12 driver makes on the heap, in the order of the source.
The driver's blocks are numbered from the last one on. The block with the content of the file that is
opened is not among them: it is allocated by `fat12Open`, after the driver has released its buffers.
The stores to the buffers are left out. -/

namespace TrazelOs

/-! ## Devices -/

def asciiBytes (str : String) : List Byte := str.toList.map fun c => BitVec.ofNat 8 c.toNat

/-- The devices of `init_devfs`, in the order of their registration. -/
def gCharDevices : List (List Byte × CharDevice) :=
  [(asciiBytes "com1", .com1), (asciiBytes "vga_text", .vgaText),
    (asciiBytes "ps2_keyboard", .ps2Keyboard), (asciiBytes "framebuffer", .framebuffer),
    (asciiBytes "tty", .tty)]

/-- The strings end where their lists do. -/
def strcmp : List Byte → List Byte → Int
  | [], str2 => -(str2.headD 0).toNat
  | a :: _, [] => a.toNat
  | a :: str1, b :: str2 => if a = b then strcmp str1 str2 else (a.toNat : Int) - b.toNat

/-- No block device is registered. -/
def devfsLookup (filepath : List Byte) : PathTarget :=
  match gCharDevices.find? fun device => strcmp filepath device.1 = 0 with
  | some device => .device device.2
  | none => .missingDevice

/-! ## Files -/

/-- The buffers of `filter_valid_directory_entries`: the filtered entries replace the others. -/
def filterCalls (fileTypeEntriesCount : Nat) : List DriverCall :=
  [.alloc (fileTypeEntriesCount * sizeofDirectoryEntry), .release 1]

/-- The length of the buffer of `fat_file_name_to_str`. -/
def fileNameBufferSize : Nat := 13

/-- The buffers of `get_path_element_dir_entry`: the array of names and the names, which are released
from the first one on. -/
def pathElementCalls (dirEntries : List DirectoryEntry) (dirEntriesCount : Nat) :
    Exec (List DriverCall) := do
  let elementsNames ← getEntriesFileNames dirEntries dirEntriesCount
  let releases ← (List.range dirEntriesCount).mapM fun i => do
    let _ ← arrayGet elementsNames i
    return DriverCall.release (elementsNames.length - 1 - i)
  return .alloc (elementsNames.length * 8) ::
    (List.replicate elementsNames.length (.alloc fileNameBufferSize) ++ releases ++ [.release 0])

/-- The buffers of `read_cluster`. -/
def clusterCalls (fileClusterCount bytesPerCluster : Nat) : List DriverCall :=
  (List.replicate fileClusterCount [.alloc bytesPerCluster, .release 0]).flatten

section Volume
variable (dev : BlockDevice) (info : Fat12Info)

/-- The buffers of `get_file_content`: the table, the content, which stays, and the clusters. -/
def getFileContentCalls (entry : DirectoryEntry) : Exec (List DriverCall) := do
  let bytesPerCluster := u32 (info.bytesPerSector * info.sectorsPerCluster)
  let fat ← getFat dev info
  let fileClusterCount ← countFileClusters fat (2 ^ 16 + 1) entry.firstClusterId
  return [.alloc (u32 (info.fatSectorSize * info.bytesPerSector)),
    .alloc (fileClusterCount * bytesPerCluster)] ++
      clusterCalls fileClusterCount bytesPerCluster ++ [.release 1]

/-- The buffers of `get_file_content` for the file that is opened, without the content. -/
def fileContentCalls (entry : DirectoryEntry) : Exec (List DriverCall) := do
  let bytesPerCluster := u32 (info.bytesPerSector * info.sectorsPerCluster)
  let fat ← getFat dev info
  let fileClusterCount ← countFileClusters fat (2 ^ 16 + 1) entry.firstClusterId
  return .alloc (u32 (info.fatSectorSize * info.bytesPerSector)) ::
    (clusterCalls fileClusterCount bytesPerCluster ++ [.release 0])

/-- `walkPath` with the calls on the heap. The array of the directory's entries is released at the
end, and when the path leads on. -/
def walkPathCalls : (dirEntries : List DirectoryEntry) → (dirEntriesCount : Nat) →
    (pathElement rest : List Byte) → Exec (Option (Nat × List Byte) × List DriverCall)
  | dirEntries, dirEntriesCount, pathElement, [] => do
    let names ← pathElementCalls dirEntries dirEntriesCount
    match ← getPathElementDirEntry dirEntries pathElement pathElement.length dirEntriesCount with
    | none => return (none, names ++ [.release 0])
    | some fileDirectoryEntry =>
      let content ← getFileContent dev info fileDirectoryEntry
      let calls ← fileContentCalls dev info fileDirectoryEntry
      return (some content, names ++ calls ++ [.release 0])
  | dirEntries, dirEntriesCount, pathElement, c :: rest =>
    if c = 0x2F then do
      let names ← pathElementCalls dirEntries dirEntriesCount
      match ← getPathElementDirEntry dirEntries pathElement pathElement.length dirEntriesCount with
      | none => return (none, names ++ [.release 0])
      | some dirEntry =>
        let content ← getFileContentCalls dev info dirEntry
        let (dirEntries, dirEntriesCount) ← getFilteredDirectoryEntries dev info dirEntry
        let (found, calls) ← walkPathCalls dirEntries dirEntriesCount [] rest
        return (found, names ++ content ++ filterCalls dirEntriesCount ++ [.release 1] ++ calls)
    else walkPathCalls dirEntries dirEntriesCount (pathElement ++ [c]) rest

def fat12Lookup (filepath : CString) : Exec Lookup := do
  let (dirEntries, dirEntriesCount) ← getRootDirectoryEntries dev info
  let (found, calls) ←
    walkPathCalls dev info dirEntries dirEntriesCount [] (dropSeparator filepath.chars)
  let root := .alloc (u32 (info.rootDirSectorsSize * info.bytesPerSector)) ::
    filterCalls dirEntriesCount
  match found with
  | none => return ⟨.missing, root ++ calls⟩
  | some (fileSize, content) => return ⟨.file fileSize content, root ++ calls⟩

def vfsLookup (filepath : CString) : Exec Lookup :=
  if strncmp filepath.chars (asciiBytes "/dev/") 5 0 = 0 then
    .ok ⟨devfsLookup (filepath.chars.drop 5), []⟩
  else fat12Lookup dev info filepath

end Volume

end TrazelOs
