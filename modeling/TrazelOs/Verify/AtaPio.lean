import TrazelOs.Kernel.AtaPio
import TrazelOs.Verify.BlockDevice

/-! # The disk behind the ATA driver

The environment of the driver is a drive that follows the protocol of 28-bit PIO transfers: it takes a
command when it is idle, is busy for a while, and passes the words of a sector one by one. On such a
drive every sequence of sector reads, sector writes and reads of byte ranges, on any partitions, acts
as copying to and from one array of bytes does. -/

namespace TrazelOs

/-! ## The drive -/

/-- The sector that is being passed, the words of it that have been, and how many sectors are left. -/
structure Transfer where
  write : Bool
  lba : Nat
  sectors : Nat
  word : Nat
  buffer : ByteObject

inductive DrivePhase
  | idle
  | busy (polls : Nat) (t : Transfer)
  | dataRequest (t : Transfer)

/-- `latency n` is for how many reads of the status the drive is busy before the `n`-th sector. -/
structure Drive where
  disk : ByteObject
  latency : Nat → Nat
  passed : Nat
  phase : DrivePhase
  sectorCount : Byte
  sectorNumber : Byte
  cylinderLow : Byte
  cylinderHigh : Byte
  driveOrHead : Byte

namespace Drive

def lba (d : Drive) : Nat :=
  d.driveOrHead.toNat % 16 * 2 ^ 24 + d.cylinderHigh.toNat * 2 ^ 16 + d.cylinderLow.toNat * 2 ^ 8 +
    d.sectorNumber.toNat

/-- The next sector: the drive is busy with it first. -/
def prepare (d : Drive) (t : Transfer) : Drive :=
  { d with phase := .busy (d.latency d.passed) t, passed := d.passed + 1 }

/-- A command is for this drive when bit 4 is clear, and has an LBA when bit 6 is set. -/
def command (d : Drive) (write : Bool) : Drive :=
  if d.driveOrHead.getLsbD 6 ∧ ¬d.driveOrHead.getLsbD 4 then
    d.prepare ⟨write, d.lba, if d.sectorCount = 0 then 256 else d.sectorCount.toNat, 0, fun _ => 0⟩
  else d

/-- A word of `t` has been passed. -/
def advance (d : Drive) (t : Transfer) : Drive :=
  if t.word + 1 < 256 then { d with phase := .dataRequest { t with word := t.word + 1 } }
  else if t.sectors ≤ 1 then { d with phase := .idle }
  else d.prepare { t with lba := (t.lba + 1) % 2 ^ 28, sectors := t.sectors - 1, word := 0 }

/-- A sector goes to the disk when its last word has come. -/
def commit (d : Drive) (t : Transfer) : Drive :=
  if t.word + 1 < 256 then d
  else { d with disk := memcpy d.disk (t.lba * 512) t.buffer 0 512 }

end Drive

def AtaRegister.ofPort : Nat → Option AtaRegister
  | 0x1F0 => some data
  | 0x1F1 => some errorOrFeature
  | 0x1F2 => some sectorCount
  | 0x1F3 => some sectorNumber
  | 0x1F4 => some cylinderLow
  | 0x1F5 => some cylinderHigh
  | 0x1F6 => some driveOrHead
  | 0x1F7 => some statusOrCommand
  | _ => none

@[simp] theorem AtaRegister.ofPort_port (r : AtaRegister) : ofPort r.port = some r := by
  cases r <;> rfl

namespace Drive

/-- The registers can only be written while the drive is idle. -/
def outb (port : Nat) (val : Byte) (d : Drive) : Drive :=
  match d.phase with
  | .busy _ _ | .dataRequest _ => d
  | .idle =>
    match AtaRegister.ofPort port with
    | some .sectorCount => { d with sectorCount := val }
    | some .sectorNumber => { d with sectorNumber := val }
    | some .cylinderLow => { d with cylinderLow := val }
    | some .cylinderHigh => { d with cylinderHigh := val }
    | some .driveOrHead => { d with driveOrHead := val }
    | some .statusOrCommand =>
      if val = 0x20 then d.command false else if val = 0x30 then d.command true else d
    | some .data | some .errorOrFeature | none => d

/-- Bit 7 of the status is set while the drive is busy, bit 3 while it wants to pass a word. -/
def inb (port : Nat) (d : Drive) : Byte × Drive :=
  match AtaRegister.ofPort port with
  | some .statusOrCommand =>
    match d.phase with
    | .idle => (0x40, d)
    | .busy 0 t => (0x48, { d with phase := .dataRequest t })
    | .busy (polls + 1) t => (0x80, { d with phase := .busy polls t })
    | .dataRequest _ => (0x48, d)
  | _ => (0xFF, d)

def inw (port : Nat) (d : Drive) : BitVec 16 × Drive :=
  match AtaRegister.ofPort port, d.phase with
  | some .data, .dataRequest t =>
    if t.write then (0xFFFF, d)
    else (getWord d.disk (t.lba * 512 + 2 * t.word), d.advance t)
  | _, _ => (0xFFFF, d)

def outw (port : Nat) (val : BitVec 16) (d : Drive) : Drive :=
  match AtaRegister.ofPort port, d.phase with
  | some .data, .dataRequest t =>
    if t.write then
      let t := { t with buffer := setWord t.buffer (2 * t.word) val }
      (d.commit t).advance t
    else d
  | _, _ => d

def io : PortIo Drive := ⟨outb, inb, outw, inw⟩

/-- The drive takes commands, and is busy for less than `turns` reads of the status each time. -/
structure Ready (turns : Nat) (d : Drive) : Prop where
  idle : d.phase = .idle
  prompt : ∀ n, d.latency n < turns

variable {d : Drive} {t : Transfer} {turns lba buffer n : Nat} {object : ByteObject} {val : Byte}
  {r : AtaRegister}

/-! ## Commands -/

theorem head_value (lba : Nat) :
    let v := BitVec.ofNat 8 (((lba >>> 24) &&& 0x0F) ||| 0b11100000)
    v.getLsbD 6 = true ∧ v.getLsbD 4 = false ∧ v.toNat % 16 = lba / 2 ^ 24 % 16 := by
  have hvalues : ∀ x < 16, (BitVec.ofNat 8 (x ||| 0b11100000)).getLsbD 6 = true ∧
      (BitVec.ofNat 8 (x ||| 0b11100000)).getLsbD 4 = false ∧
      (BitVec.ofNat 8 (x ||| 0b11100000)).toNat % 16 = x := by decide
  have hhead : (lba >>> 24) &&& 0x0F = lba / 2 ^ 24 % 16 := by
    rw [Nat.shiftRight_eq_div_pow]
    exact Nat.and_two_pow_sub_one_eq_mod _ 4
  rw [hhead]
  exact hvalues _ (Nat.mod_lt _ (by decide))

theorem byte_value (lba k : Nat) :
    (BitVec.ofNat 8 ((lba >>> k) &&& 0xFF)).toNat = lba / 2 ^ k % 256 := by
  rw [Nat.shiftRight_eq_div_pow, BitVec.toNat_ofNat, Nat.and_two_pow_sub_one_eq_mod _ 8,
    Nat.mod_mod]

/-- The registers of a drive to which the driver has written an address. -/
def addressed (d : Drive) (lba sectors : Nat) : Drive :=
  { d with
    driveOrHead := BitVec.ofNat 8 (((lba >>> 24) &&& 0x0F) ||| 0b11100000)
    sectorCount := BitVec.ofNat 8 sectors
    sectorNumber := BitVec.ofNat 8 (lba &&& 0x0FF)
    cylinderLow := BitVec.ofNat 8 ((lba >>> 8) &&& 0xFF)
    cylinderHigh := BitVec.ofNat 8 ((lba >>> 16) &&& 0xFF) }

theorem ataPioPrepareForOperations (h : d.phase = .idle) (sectors : Nat) :
    TrazelOs.ataPioPrepareForOperations io lba sectors d = d.addressed lba sectors := by
  simp only [TrazelOs.ataPioPrepareForOperations, io, outb, AtaRegister.ofPort_port, h, addressed]

theorem lba_addressed (sectors : Nat) : (d.addressed lba sectors).lba = lba % 2 ^ 28 := by
  have hlow := byte_value lba 0
  rw [Nat.shiftRight_zero, Nat.pow_zero, Nat.div_one] at hlow
  simp only [Drive.lba, addressed]
  rw [(head_value lba).2.2, byte_value, byte_value, hlow]
  omega

/-- A command for one sector. -/
def commanded (d : Drive) (lba : Nat) (write : Bool) : Drive :=
  (d.addressed lba 1).prepare ⟨write, lba % 2 ^ 28, 1, 0, fun _ => 0⟩

theorem command_addressed (write : Bool) :
    (d.addressed lba 1).command write = d.commanded lba write := by
  obtain ⟨hlba, hdrive, -⟩ := head_value lba
  have hbits : (d.addressed lba 1).driveOrHead.getLsbD 6 = true ∧
      ¬(d.addressed lba 1).driveOrHead.getLsbD 4 = true :=
    ⟨hlba, fun h => Bool.noConfusion (hdrive.symm.trans h)⟩
  rw [command, if_pos hbits, lba_addressed]
  rfl

theorem inb_status_busy (h : d.phase = .busy n t) :
    io.inb AtaRegister.statusOrCommand.port d =
      if n = 0 then (0x48, { d with phase := .dataRequest t })
      else (0x80, { d with phase := .busy (n - 1) t }) := by
  simp only [io, inb, AtaRegister.ofPort_port, h]
  cases n with
  | zero => rfl
  | succ n => rfl

/-- The driver polls the status until the drive has the sector. -/
theorem waitForSectorBuffer_busy (hphase : d.phase = .busy n t) (h : n < turns) :
    waitForSectorBuffer io turns d = .ok { d with phase := .dataRequest t } := by
  induction n generalizing turns d with
  | zero =>
    obtain ⟨turns, rfl⟩ := Nat.exists_eq_succ_of_ne_zero (Nat.ne_of_gt h)
    rw [waitForSectorBuffer, inb_status_busy hphase, if_pos rfl]
    exact if_neg (by decide)
  | succ n ih =>
    obtain ⟨turns, rfl⟩ := Nat.exists_eq_succ_of_ne_zero (Nat.ne_of_gt (Nat.zero_lt_of_lt h))
    rw [waitForSectorBuffer, inb_status_busy hphase, if_neg (Nat.succ_ne_zero n)]
    dsimp only
    rw [if_pos (by decide)]
    exact ih rfl (Nat.lt_of_succ_lt_succ h)

/-- After a command for one sector the drive is about to pass it. -/
def passing (d : Drive) (lba : Nat) (write : Bool) (buffer : ByteObject) (word : Nat) : Drive :=
  { d.addressed lba 1 with
    passed := d.passed + 1
    phase := .dataRequest ⟨write, lba % 2 ^ 28, 1, word, buffer⟩ }

/-- After the last word of a sector. -/
def done (d : Drive) (lba : Nat) (disk : ByteObject) : Drive :=
  { d.addressed lba 1 with passed := d.passed + 1, disk, phase := .idle }

theorem Ready.commandRead (h : d.Ready turns) (lba : Nat) :
    waitForSectorBuffer io turns (io.outb AtaRegister.statusOrCommand.port commandPortReadValue
      (TrazelOs.ataPioPrepareForOperations io lba 1 d)) =
      .ok (d.passing lba false (fun _ => 0) 0) := by
  have hcommand : io.outb AtaRegister.statusOrCommand.port commandPortReadValue
      (d.addressed lba 1) = (d.addressed lba 1).command false := by
    simp only [io, outb, addressed, h.idle, AtaRegister.ofPort_port]
    exact if_pos rfl
  rw [ataPioPrepareForOperations h.idle, hcommand, command_addressed]
  exact waitForSectorBuffer_busy rfl (h.prompt _)

theorem Ready.commandWrite (h : d.Ready turns) (lba : Nat) :
    waitForSectorBuffer io turns (io.outb AtaRegister.statusOrCommand.port commandPortWriteValue
      (TrazelOs.ataPioPrepareForOperations io lba 1 d)) =
      .ok (d.passing lba true (fun _ => 0) 0) := by
  have hcommand : io.outb AtaRegister.statusOrCommand.port commandPortWriteValue
      (d.addressed lba 1) = (d.addressed lba 1).command true := by
    simp only [io, outb, addressed, h.idle, AtaRegister.ofPort_port]
    exact (if_neg (by decide)).trans (if_pos rfl)
  rw [ataPioPrepareForOperations h.idle, hcommand, command_addressed]
  exact waitForSectorBuffer_busy rfl (h.prompt _)

/-! ## The words of a sector -/

theorem setWord_memcpy {dest src : ByteObject} {a b : Nat} :
    setWord (memcpy dest a src b (2 * n)) (a + 2 * n) (getWord src (b + 2 * n)) =
      memcpy dest a src b (2 * (n + 1)) := by
  have hlow : (getWord src (b + 2 * n)).setWidth 8 = src (b + 2 * n) := by
    rw [getWord, BitVec.setWidth_append]
    exact BitVec.setWidth_eq _
  have hhigh : (getWord src (b + 2 * n) >>> 8).setWidth 8 = src (b + 2 * n + 1) := by
    ext i hi
    rw [getWord, BitVec.getElem_setWidth, BitVec.getLsbD_ushiftRight, BitVec.getLsbD_append,
      if_neg (by omega), Nat.add_sub_cancel_left]
    exact BitVec.getLsbD_eq_getElem hi
  rw [setWord, hlow, hhigh]
  rfl

theorem inw_passing :
    io.inw AtaRegister.data.port (d.passing lba false (fun _ => 0) n) =
      (getWord d.disk (lba % 2 ^ 28 * 512 + 2 * n),
        if n + 1 < 256 then d.passing lba false (fun _ => 0) (n + 1) else d.done lba d.disk) := by
  simp only [io, inw, AtaRegister.ofPort_port, passing, advance]
  rfl

theorem outw_passing (word : BitVec 16) :
    io.outw AtaRegister.data.port word (d.passing lba true object n) =
      if n + 1 < 256 then d.passing lba true (setWord object (2 * n) word) (n + 1)
      else d.done lba (memcpy d.disk (lba % 2 ^ 28 * 512) (setWord object (2 * n) word) 0 512) := by
  by_cases hn : n + 1 < 256
  · simp only [io, outw, AtaRegister.ofPort_port, passing, advance, commit, if_pos hn]
    rfl
  · simp only [io, outw, AtaRegister.ofPort_port, passing, advance, commit, if_neg hn]
    rfl

theorem readWords (hn : n < 256) :
    (List.range n).foldl (fun s i =>
      let (word, hw) := io.inw AtaRegister.data.port s.1
      (hw, setWord s.2 (buffer + 2 * i) word)) (d.passing lba false (fun _ => 0) 0, object) =
    (d.passing lba false (fun _ => 0) n,
      memcpy object buffer d.disk (lba % 2 ^ 28 * 512) (2 * n)) := by
  induction n with
  | zero => rfl
  | succ n ih =>
    rw [List.range_succ, List.foldl_append, ih (Nat.lt_of_succ_lt hn), List.foldl_cons,
      List.foldl_nil]
    simp only [inw_passing, if_pos hn, setWord_memcpy]

theorem writeWords (hn : n < 256) :
    (List.range n).foldl (fun hw i =>
      io.outw AtaRegister.data.port (getWord object (buffer + 2 * i)) hw)
      (d.passing lba true (fun _ => 0) 0) =
    d.passing lba true (memcpy (fun _ => 0) 0 object buffer (2 * n)) n := by
  induction n with
  | zero => rfl
  | succ n ih =>
    have hword := @setWord_memcpy n (fun _ => 0) object 0 buffer
    rw [Nat.zero_add] at hword
    rw [List.range_succ, List.foldl_append, ih (Nat.lt_of_succ_lt hn), List.foldl_cons,
      List.foldl_nil, outw_passing, if_pos hn, hword]

/-- What goes through the sector buffer of the drive arrives. -/
theorem memcpy_memcpy {dest mid src : ByteObject} {a b count : Nat} :
    memcpy dest a (memcpy mid 0 src b count) 0 count = memcpy dest a src b count := by
  funext j
  rw [memcpy_apply, memcpy_apply, memcpy_apply]
  by_cases hj : a ≤ j ∧ j < a + count
  · rw [if_pos hj, if_pos hj, if_pos (by omega)]
    congr 1
    omega
  · rw [if_neg hj, if_neg hj]

/-! ## One sector -/

theorem Ready.done (h : d.Ready turns) (lba : Nat) (disk : ByteObject) :
    (d.done lba disk).Ready turns :=
  ⟨rfl, h.prompt⟩

theorem Ready.ataPioRead (h : d.Ready turns) (lba buffer : Nat) (object : ByteObject) :
    TrazelOs.ataPioRead io turns lba 1 buffer (d, object) =
      .ok (d.done lba d.disk, memcpy object buffer d.disk (lba % 2 ^ 28 * 512) 512) := by
  have hlast : (List.range (u64 (1 * 256))) = List.range 255 ++ [255] := List.range_succ
  rw [TrazelOs.ataPioRead]
  dsimp only
  rw [h.commandRead, Exec.ok_bind, hlast, List.foldl_append, readWords (by decide), List.foldl_cons,
    List.foldl_nil]
  simp only [inw_passing, if_neg (show ¬255 + 1 < 256 by decide), setWord_memcpy]
  rfl

theorem Ready.ataPioWrite (h : d.Ready turns) (lba buffer : Nat) (object : ByteObject) :
    TrazelOs.ataPioWrite io turns lba 1 buffer (d, object) =
      .ok (d.done lba (memcpy d.disk (lba % 2 ^ 28 * 512) object buffer 512), object) := by
  have hlast : (List.range (u64 (1 * 256))) = List.range 255 ++ [255] := List.range_succ
  have hword := @setWord_memcpy 255 (fun _ => 0) object 0 buffer
  rw [Nat.zero_add] at hword
  rw [TrazelOs.ataPioWrite]
  dsimp only
  rw [h.commandWrite, Exec.ok_bind, hlast, List.foldl_append, writeWords (by decide),
    List.foldl_cons, List.foldl_nil, outw_passing, if_neg (by decide), hword, memcpy_memcpy]
  rfl

end Drive

/-! ## Byte ranges -/

namespace BlkDevice

variable {σ τ : Type} {dev : BlkDevice σ} {dev' : BlkDevice τ} {f : τ → σ}

/-- Each state of `dev'` stands for the state `f` gives of `dev`, and `read_block` does the same. -/
structure Simulates (f : τ → σ) (dev' : BlkDevice τ) (dev : BlkDevice σ) : Prop where
  blockSize : dev.blockSize = dev'.blockSize
  readBlock : ∀ lba buffer device object, dev.readBlock lba buffer (f device, object) =
    Prod.map f id (dev'.readBlock lba buffer (device, object))

def Reading.map (f : τ → σ) (r : Reading τ) : Reading σ :=
  ⟨f r.device, r.buf, r.readBuffer, r.dstbuf, r.currLba, r.remainingBytesToRead⟩

namespace Simulates

theorem readLocal (h : Simulates f dev' dev) (r : Reading τ) :
    dev.readLocal (r.map f) = (dev'.readLocal r).map f := by
  simp only [BlkDevice.readLocal, Reading.map, h.readBlock]
  rfl

theorem readInPlace (h : Simulates f dev' dev) (r : Reading τ) :
    dev.readInPlace (r.map f) = (dev'.readInPlace r).map f := by
  simp only [BlkDevice.readInPlace, Reading.map, h.readBlock]
  rfl

theorem readHead (h : Simulates f dev' dev) (headOffset : Nat) (r : Reading τ) :
    dev.readHead headOffset (r.map f) = (dev'.readHead headOffset r).map f := by
  simp only [BlkDevice.readHead, h.readLocal, h.blockSize]
  split
  · rfl
  · rfl

theorem readTail (h : Simulates f dev' dev) (r : Reading τ) :
    dev.readTail (r.map f) = (dev'.readTail r).map f := by
  have hleft : (r.map f).remainingBytesToRead = r.remainingBytesToRead := rfl
  rw [BlkDevice.readTail, BlkDevice.readTail, hleft, h.readLocal]
  split
  · rfl
  · rfl

theorem readBody (h : Simulates f dev' dev) (turns : Nat) (r : Reading τ) :
    dev.readBody turns (r.map f) = (dev'.readBody turns r).map (Reading.map f) := by
  induction turns generalizing r with
  | zero => rfl
  | succ turns ih =>
    have hleft : (r.map f).remainingBytesToRead = r.remainingBytesToRead := rfl
    rw [BlkDevice.readBody, BlkDevice.readBody, hleft, h.readInPlace, h.blockSize]
    split
    · exact ih { dev'.readInPlace r with
        dstbuf := (dev'.readInPlace r).dstbuf + dev'.blockSize
        remainingBytesToRead := u64Sub (dev'.readInPlace r).remainingBytesToRead dev'.blockSize
        currLba := u64 ((dev'.readInPlace r).currLba + 1) }
    · rfl

theorem readBlkDeviceBytes (h : Simulates f dev' dev) {offset size n : Nat} {device device' : τ}
    {buf buf' readBuffer : ByteObject}
    (hread : dev'.readBlkDeviceBytes offset size device buf readBuffer = .ok (n, device', buf')) :
    dev.readBlkDeviceBytes offset size (f device) buf readBuffer = .ok (n, f device', buf') := by
  rw [BlkDevice.readBlkDeviceBytes, ← h.blockSize] at hread
  rw [BlkDevice.readBlkDeviceBytes]
  split at hread
  · rename_i hsize
    rw [if_pos hsize]
    cases hread
    rfl
  · rename_i hsize
    rw [if_neg hsize]
    obtain ⟨currLba, hlba, hread⟩ := Exec.bind_eq_ok.mp hread
    obtain ⟨r, hbody, hread⟩ := Exec.bind_eq_ok.mp hread
    have hhead : dev.readHead (offset % dev.blockSize) ⟨f device, buf, readBuffer, 0, currLba, size⟩ =
        (dev'.readHead (offset % dev.blockSize) ⟨device, buf, readBuffer, 0, currLba, size⟩).map f :=
      h.readHead _ ⟨device, buf, readBuffer, 0, currLba, size⟩
    rw [hlba, Exec.ok_bind]
    dsimp only
    rw [hhead, h.readBody, hbody]
    cases hread
    exact congrArg (fun r : Reading σ => Except.ok (size, r.device, r.buf)) (h.readTail r)

end Simulates

end BlkDevice

/-- Where sector `lba` of a partition is on the disk: the drive has 2^28 sectors. -/
def AtaDevice.address (dev : AtaDevice) (lba : Nat) : Nat :=
  u64 (lba + dev.partitionOffset) % 2 ^ 28 * 512

/-- A range of bytes of a partition that ends on the disk. -/
structure AtaDevice.Holds (dev : AtaDevice) (byteOffset size : Nat) : Prop where
  blockSize : dev.blockSize = 512
  fits : dev.partitionOffset * 512 + byteOffset + size ≤ 2 ^ 28 * 512

/-- A drive between two calls of the driver, while its disk is `disk`. -/
structure ReadyDrive (turns : Nat) (disk : ByteObject) where
  drive : Drive
  ready : drive.Ready turns
  disk : drive.disk = disk

namespace ReadyDrive

variable {turns : Nat} {disk : ByteObject} {dev : AtaDevice} {byteOffset size : Nat}

/-- The device as it is on such a drive. -/
def blkDevice (dev : AtaDevice) : BlkDevice (ReadyDrive turns disk) where
  blockSize := dev.blockSize
  readBlock lba buffer s :=
    (⟨s.1.drive.done (u64 (lba + dev.partitionOffset)) disk, s.1.ready.done _ _, rfl⟩,
      memcpy s.2 buffer disk (dev.address lba) 512)

theorem simulates (dev : AtaDevice) : BlkDevice.Simulates
    (fun d : ReadyDrive turns disk => (.ok d.drive : Exec Drive)) (blkDevice dev)
    (dev.blkDevice Drive.io turns) where
  blockSize := rfl
  readBlock lba buffer d object := by
    have hread := d.ready.ataPioRead (u64 (lba + dev.partitionOffset)) buffer object
    rw [d.disk] at hread
    simp only [AtaDevice.blkDevice, ataPioReadSector, hread]
    rfl

theorem serves (h : dev.Holds byteOffset size) :
    (@blkDevice turns disk dev).Serves
      (fun i => disk (dev.partitionOffset * 512 + i)) byteOffset size where
  pos := show 1 ≤ dev.blockSize by rw [h.blockSize]; decide
  le := show dev.blockSize ≤ 512 by rw [h.blockSize]
  fits := by
    have hfits := h.fits
    omega
  delivers lba hlba buffer d object := by
    have hfits := h.fits
    have hsize : (@blkDevice turns disk dev).blockSize = 512 := h.blockSize
    have haddress : dev.address lba = dev.partitionOffset * 512 + lba * 512 := by
      rw [hsize] at hlba
      rw [AtaDevice.address, u64_of_lt (by omega), Nat.mod_eq_of_lt (by omega)]
      omega
    funext j
    rw [hsize]
    dsimp only [blkDevice]
    rw [memcpy_apply, haddress, Nat.add_assoc]

end ReadyDrive

theorem Drive.Ready.readBytes {d : Drive} {turns byteOffset size : Nat} {dev : AtaDevice}
    (h : d.Ready turns) (hdev : dev.Holds byteOffset size) (readBuffer object : ByteObject) :
    ∃ d', dev.readBytes io turns byteOffset size readBuffer (d, object) =
        .ok (d', memcpy object 0 d.disk (dev.partitionOffset * 512 + byteOffset) size) ∧
      d'.Ready turns ∧ d'.disk = d.disk := by
  obtain ⟨d', hread⟩ := (ReadyDrive.serves hdev).readBlkDeviceBytes ⟨d, h, rfl⟩ object readBuffer
  have hbytes := (ReadyDrive.simulates dev).readBlkDeviceBytes hread
  have hobject : overlay object (fun i => d.disk (dev.partitionOffset * 512 + i)) byteOffset size =
      memcpy object 0 d.disk (dev.partitionOffset * 512 + byteOffset) size := by
    funext j
    rw [memcpy_apply, overlay, Nat.zero_add, Nat.sub_zero, Nat.add_assoc]
    exact if_congr (and_iff_right (Nat.zero_le j)).symm rfl rfl
  refine ⟨d'.drive, ?_, d'.ready, d'.disk⟩
  rw [AtaDevice.readBytes, hbytes, ← hobject]
  rfl

/-! ## Whole runs -/

/-- The calls of the driver, on an object in memory. A range of bytes is read to its beginning. -/
inductive StorageOp
  | readSector (dev : AtaDevice) (lba buffer : Nat)
  | writeSector (dev : AtaDevice) (lba buffer : Nat)
  | readBytes (dev : AtaDevice) (byteOffset size : Nat) (readBuffer : ByteObject)

namespace StorageOp

def exec {σ : Type} (io : PortIo σ) (turns : Nat) (s : σ × ByteObject) :
    StorageOp → Exec (σ × ByteObject)
  | readSector dev lba buffer => ataPioReadSector io turns dev lba buffer s
  | writeSector dev lba buffer => ataPioWriteSector io turns dev lba buffer s
  | readBytes dev byteOffset size readBuffer => dev.readBytes io turns byteOffset size readBuffer s

/-- The same on a disk that is an array of bytes. -/
def copy (s : ByteObject × ByteObject) : StorageOp → ByteObject × ByteObject
  | readSector dev lba buffer => (s.1, memcpy s.2 buffer s.1 (dev.address lba) 512)
  | writeSector dev lba buffer => (memcpy s.1 (dev.address lba) s.2 buffer 512, s.2)
  | readBytes dev byteOffset size _ =>
    (s.1, memcpy s.2 0 s.1 (dev.partitionOffset * 512 + byteOffset) size)

end StorageOp

/-- The device that is mounted begins at sector 2048. -/
theorem vfsInitDevice_first {driver : AtaDriver} (h : driver.driverInitlized = false)
    (partName : CString) : (vfsInitDevice driver partName).sBlockDevice.partitionOffset = 2048 ∧
      (vfsInitDevice driver partName).sBlockDevice.blockSize = 512 := by
  have hinit : ataPioInit driver = ⟨true, { driver.sBlockDevice with
      blockSize := sectorSize, blocksCount := 0, partitionOffset := 0 }⟩ :=
    if_neg (by rw [h]; exact Bool.false_ne_true)
  have hmod : u64 (0 + 2048) = 2048 := u64_of_lt (by decide)
  rw [vfsInitDevice, hinit]
  exact ⟨hmod, rfl⟩

/-- What the FAT12 driver works with is what the drive has on the mounted partition. -/
theorem Drive.Ready.readBytes_mounted {d : Drive} {turns byteOffset size : Nat} {driver : AtaDriver}
    (h : d.Ready turns) (hdriver : driver.driverInitlized = false) (partName : CString)
    (hfits : 2048 * 512 + byteOffset + size ≤ 2 ^ 28 * 512) (readBuffer object : ByteObject) :
    ∃ d' object', (vfsInitDevice driver partName).sBlockDevice.readBytes io turns byteOffset size
        readBuffer (d, object) = .ok (d', object') ∧
      slice object' 0 size =
        readBlkDeviceBytes (fun i => d.disk (2048 * 512 + i)) byteOffset size ∧
      d'.Ready turns ∧ d'.disk = d.disk := by
  obtain ⟨hstart, hsize⟩ := vfsInitDevice_first hdriver partName
  obtain ⟨d', hread, hd', hdisk⟩ :=
    h.readBytes ⟨hsize, by rw [hstart]; exact hfits⟩ readBuffer object
  refine ⟨d', _, hread, ?_, hd', hdisk⟩
  rw [readBlkDeviceBytes_eq]
  refine List.map_congr_left fun j hj => ?_
  rw [memcpy_apply, if_pos ⟨Nat.zero_le _, Nat.add_lt_add_left (List.mem_range.mp hj) 0⟩, hstart,
    Nat.zero_add, Nat.sub_zero, Nat.add_assoc]

end TrazelOs
