import TrazelOs.Kernel.Task

/-! # Files and devices (`vfs.c`, `devfs.c`, `char_device.c`, `ps2_keyboard.c`, `ring_buffer.c`)

What a path leads to depends on the disk and on the user's memory, and is an input of the model.
Of the FAT12 driver's `fat12_open` the model has the calls it makes on the heap: any sequence of
allocations, of stores to its own blocks and of releases of its own blocks. -/

namespace TrazelOs

/-- `(int64_t)n`. -/
def toInt64 (n : Nat) : Int := if u64 n < 2 ^ 63 then u64 n else (u64 n : Int) - 2 ^ 64

/-- `(uint64_t)i`. -/
def ofInt64 (i : Int) : Nat := (i % 2 ^ 64).toNat

/-! ## The ring buffer

The indices stay below the size, which is an `uint64_t`: `write_ptr + 1` does not wrap. -/

/-- A NULL pointer for a buffer is `none`. -/
def ringBufferInit (rb : RingBuffer) (buffer : Option (Nat → Byte)) (bufferSize : Nat) :
    Bool × RingBuffer :=
  match buffer with
  | none => (false, rb)
  | some buffer =>
    if bufferSize = 0 then (false, rb)
    else (true, { rb with buffer, bufferSize, writePtr := 0, readPtr := 0 })

def ringBufferPush (rb : RingBuffer) (data : Byte) : Bool × RingBuffer :=
  if (rb.writePtr + 1) % rb.bufferSize = rb.readPtr then (false, rb)
  else
    (true, { rb with
      buffer := Function.update rb.buffer rb.writePtr data
      writePtr := (rb.writePtr + 1) % rb.bufferSize })

def ringBufferPop (rb : RingBuffer) : Option Byte × RingBuffer :=
  if rb.readPtr = rb.writePtr then (none, rb)
  else (some (rb.buffer rb.readPtr), { rb with readPtr := (rb.readPtr + 1) % rb.bufferSize })

def ringBufferIsEmpty (rb : RingBuffer) : Bool := rb.readPtr = rb.writePtr

section Devices
variable {μ : Type} (M : MemoryManager μ)

/-! ## The keyboard -/

def ps2Read.loop (buffer : Buffer) : (left i : Nat) → System μ → Exec (Int × System μ)
  | 0, i, s => .ok (toInt64 i, s)
  | left + 1, i, s =>
    match ringBufferPop s.keyboard.ringBuffer with
    | (none, _) => do
      if i = 0 then
        let s ← pmWaitqueueEnqueue s s.keyboard.deviceWaitQueue
        return (0, s)
      else return (toInt64 i, s)
    | (some inputChar, ringBuffer) => do
      let s := { s with keyboard := { s.keyboard with ringBuffer } }
      let mem ← M.store s.mem (buffer.offset i) [inputChar]
      ps2Read.loop buffer left (i + 1) { s with mem }

def ps2Read (s : System μ) (buffer : Buffer) (size : Nat) : Exec (Int × System μ) :=
  ps2Read.loop M buffer size 0 s

/-- The characters of the scan codes 0, 1, …. -/
def scanCodeLookupTable : List Char :=
  ['\x00', '\x00', '1', '2', '3', '4', '5', '6', '7', '8', '9', '0', '-', '=', '\x08',
    '\x00', 'q', 'w', 'e', 'r', 't', 'y', 'u', 'i', 'o', 'p', '[', ']', '\n', '\n',
    'a', 's', 'd', 'f', 'g', 'h', 'j', 'k', 'l', ';', '\x27', '\x60', '\x00', '\x5c', 'z',
    'x', 'c', 'v', 'b', 'n', 'm', ',', '.', '/', '\x00', '*', '\x00', ' ']

/-- The character is dropped when the ring buffer is full; the readers are woken all the same. -/
def keyboardInterruptHandler (s : System μ) (scanCode : Nat) : Exec (System μ) := do
  if scanCode ≥ scanCodeLookupTable.length then return s
  else
    let inputChar := BitVec.ofNat 8 (scanCodeLookupTable.getD scanCode '\x00').toNat
    let (_, ringBuffer) := ringBufferPush s.keyboard.ringBuffer inputChar
    let s := { s with keyboard := { s.keyboard with ringBuffer } }
    pmWaitqueueDequeueAll s s.keyboard.deviceWaitQueue

/-- The devices without input return -1; `tty` reads from the keyboard. -/
def charDevRead (s : System μ) (dev : CharDevice) (buffer : Buffer) (size : Nat) :
    Exec (Int × System μ) :=
  match dev with
  | .com1 | .vgaText | .framebuffer => .ok (-1, s)
  | .ps2Keyboard | .tty => ps2Read M s buffer size

/-- The state of the output devices is not part of the system: see `Kernel.Console`. -/
def charDevWrite (dev : CharDevice) (size : Nat) : Exec Int :=
  match dev with
  | .com1 | .vgaText | .tty => .ok (toInt64 size)
  | .framebuffer => .ok 0
  | .ps2Keyboard => .error (.panic "PS/2 Keyboard driver does not support write operation.")

end Devices

/-! ## Opening files -/

/-- A call of the FAT12 driver on the heap; its blocks are numbered from the last one on. -/
inductive DriverCall
  | alloc (size : Nat)
  | store (block : Nat) (bytes : List Byte)
  | release (block : Nat)

/-- What a path leads to. The size of a FAT12 file is the one its directory entry has. -/
inductive PathTarget
  | missing
  | missingDevice
  | device (dev : CharDevice)
  | file (fileSize : Nat) (content : List Byte)

/-- The outcome of a path lookup and the calls the driver makes on the way. -/
structure Lookup where
  target : PathTarget
  driverCalls : List DriverCall

/-- `sizeof(struct vfs_file)`. -/
def sizeofVfsFile : Nat := 160

section Vfs
variable {μ : Type} (M : MemoryManager μ)

def runDriverCalls : List DriverCall → (blocks : List Nat) → System μ → Exec (System μ)
  | [], _, s => .ok s
  | .alloc size :: calls, blocks, s => do
    let (p, mem) ← M.kmalloc s.mem size
    runDriverCalls calls (p :: blocks) { s with mem }
  | .store block bytes :: calls, blocks, s =>
    match blocks[block]? with
    | none => .error .wild
    | some p => do
      let mem ← M.store s.mem (.kernel p) bytes
      runDriverCalls calls blocks { s with mem }
  | .release block :: calls, blocks, s =>
    match blocks[block]? with
    | none => .error .wild
    | some p => do
      let s ← s.kfree M p
      runDriverCalls calls (blocks.eraseIdx block) s

variable (s : System μ)

/-- `kmalloc` of an object whose fields are stored next. -/
def newObject (size : Nat) : Exec (Nat × System μ) := do
  let (p, mem) ← M.kmalloc s.mem size
  if p = 0 then throw .wild
  return (p, { s with mem })

def devfsOpen (dev : CharDevice) : Exec (Nat × System μ) := do
  let (vfsNode, s) ← newObject M s sizeofVfsFile
  return (vfsNode, s.setFile vfsNode ⟨2 ^ 64 - 1, 0, 0, .charDev dev, 0⟩)

/-- The file is released again when the path leads nowhere. -/
def fat12Open (calls : List DriverCall) (found : Option (Nat × List Byte)) :
    Exec (Nat × System μ) := do
  let (fileVfs, s) ← newObject M s sizeofVfsFile
  let s ← runDriverCalls M calls [] s
  match found with
  | none =>
    let s ← s.kfree M fileVfs
    return (0, s)
  | some (fileSize, content) =>
    let (fsPrivateData, s) ← newObject M s content.length
    let mem ← M.store s.mem (.kernel fsPrivateData) content
    let s := { s with mem }
    return (fileVfs, s.setFile fileVfs ⟨fileSize, 0, 0, .fat12, fsPrivateData⟩)

def vfsOpen (path : Lookup) : Exec (Nat × System μ) := do
  let (fileVfs, s) ←
    match path.target with
    | .device dev => devfsOpen M s dev
    | .file fileSize content => fat12Open M s path.driverCalls (some (fileSize, content))
    | .missing => fat12Open M s path.driverCalls none
    | .missingDevice => pure (0, s)
  if fileVfs = 0 then return (0, s)
  else
    let file ← deref s.files fileVfs
    return (fileVfs, s.setFile fileVfs { file with filePosition := 0, fileRefCount := 1 })

/-! ## Reading, writing, closing -/

def vfsRead (vfsNode : Nat) (buffer : Buffer) (size : Nat) : Exec (Int × System μ) := do
  if vfsNode = 0 then return (-1, s)
  let file ← deref s.files vfsNode
  if file.filePosition ≥ file.fileSize then return (0, s)
  let bytesToRead :=
    if u64 (file.filePosition + size) > file.fileSize then file.fileSize - file.filePosition
    else size
  let (bytesRead, s) ←
    match file.kind with
    | .charDev dev => charDevRead M s dev buffer bytesToRead
    | .fat12 => do
      let bytes := M.load s.mem (u64 (file.fsPrivateData + file.filePosition)) bytesToRead
      let mem ← M.store s.mem buffer bytes
      pure (toInt64 bytesToRead, { s with mem })
  if bytesRead > 0 then
    let file ← deref s.files vfsNode
    let filePosition := u64 (file.filePosition + bytesRead.toNat)
    return (bytesRead, s.setFile vfsNode { file with filePosition })
  else return (bytesRead, s)

def vfsWrite (vfsNode : Nat) (size : Nat) : Exec (Int × System μ) := do
  if vfsNode = 0 then return (-1, s)
  let file ← deref s.files vfsNode
  let bytesWritten ←
    match file.kind with
    | .charDev dev => charDevWrite dev size
    | .fat12 => throw (.panic "FAT12 write is not supported yet")
  let filePosition :=
    if bytesWritten > 0 then u64 (file.filePosition + bytesWritten.toNat) else file.filePosition
  let fileSize := if filePosition > file.fileSize then filePosition else file.fileSize
  return (bytesWritten, s.setFile vfsNode { file with filePosition, fileSize })

def vfsClose (vfsNode : Nat) : Exec (Int × System μ) := do
  if vfsNode = 0 then return (-1, s)
  let file ← deref s.files vfsNode
  let fileRefCount := if file.fileRefCount > 0 then file.fileRefCount - 1 else 0
  let s := s.setFile vfsNode { file with fileRefCount }
  if fileRefCount = 0 then
    let s ← if file.kind = .fat12 then s.kfree M file.fsPrivateData else pure s
    let s ← s.kfree M vfsNode
    return (0, s)
  else return (0, s)

def vfsSeek (vfsNode : Nat) (offset : Int) (whence : Nat) : Exec (Int × System μ) := do
  if vfsNode = 0 then return (-1, s)
  let file ← deref s.files vfsNode
  let newPos? : Option Int :=
    match whence with
    | 0 => some offset
    | 1 => some (toInt64 (ofInt64 (toInt64 file.filePosition + offset)))
    | 2 => some (toInt64 (ofInt64 (toInt64 file.fileSize + offset)))
    | _ => none
  match newPos? with
  | none => return (-1, s)
  | some newPos =>
    if newPos < 0 ∨ newPos > toInt64 file.fileSize then return (-1, s)
    else return (newPos, s.setFile vfsNode { file with filePosition := newPos.toNat })

end Vfs

end TrazelOs
