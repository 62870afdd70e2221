import TrazelOs.Kernel.BlockDevice
import TrazelOs.Kernel.Ports

/-! # The ATA driver (`drivers/ata_pio/read_write.c`) and partitions (`drivers/block_device.c`)

A buffer is a place in an object. -/

namespace TrazelOs

/-- `enum base_registers_offset`. -/
inductive AtaRegister
  | data
  | errorOrFeature
  | sectorCount
  | sectorNumber
  | cylinderLow
  | cylinderHigh
  | driveOrHead
  | statusOrCommand
deriving Repr, DecidableEq

/-- `s_ctrl.base`, set by `ata_pio_init`. -/
def ataBase : Nat := 0x1F0

def AtaRegister.port : AtaRegister → Nat
  | data => ataBase + 0
  | errorOrFeature => ataBase + 1
  | sectorCount => ataBase + 2
  | sectorNumber => ataBase + 3
  | cylinderLow => ataBase + 4
  | cylinderHigh => ataBase + 5
  | driveOrHead => ataBase + 6
  | statusOrCommand => ataBase + 7

def commandPortReadValue : Byte := 0x20
def commandPortWriteValue : Byte := 0x30

/-- `((unsigned short*)(object + addr))[0]`. -/
def getWord (object : ByteObject) (addr : Nat) : BitVec 16 := object (addr + 1) ++ object addr

def setWord (object : ByteObject) (addr : Nat) (word : BitVec 16) : ByteObject :=
  Function.update (Function.update object addr (word.setWidth 8)) (addr + 1)
    ((word >>> 8).setWidth 8)

section Driver
variable {σ : Type} (io : PortIo σ)

def ataPioPrepareForOperations (lbaAddressing sectorsToOperate : Nat) (hw : σ) : σ :=
  let hw := io.outb AtaRegister.driveOrHead.port
    (BitVec.ofNat 8 (((lbaAddressing >>> 24) &&& 0x0F) ||| 0b11100000)) hw
  let hw := io.outb AtaRegister.errorOrFeature.port 0 hw
  let hw := io.outb AtaRegister.sectorCount.port (BitVec.ofNat 8 sectorsToOperate) hw
  let hw := io.outb AtaRegister.sectorNumber.port (BitVec.ofNat 8 (lbaAddressing &&& 0x0FF)) hw
  let hw := io.outb AtaRegister.cylinderLow.port
    (BitVec.ofNat 8 ((lbaAddressing >>> 8) &&& 0xFF)) hw
  io.outb AtaRegister.cylinderHigh.port (BitVec.ofNat 8 ((lbaAddressing >>> 16) &&& 0xFF)) hw

/-- `while (!(inb(command_port) & 8));`, with at most `turns` turns. -/
def waitForSectorBuffer : (turns : Nat) → σ → Exec σ
  | 0, _ => .error .hang
  | turns + 1, hw =>
    let (status, hw) := io.inb AtaRegister.statusOrCommand.port hw
    if status &&& 8 = 0 then waitForSectorBuffer turns hw else .ok hw

variable (turns : Nat)

def ataPioRead (lbaAddressing sectorsToRead buf : Nat) (s : σ × ByteObject) :
    Exec (σ × ByteObject) := do
  let hw := ataPioPrepareForOperations io lbaAddressing sectorsToRead s.1
  let hw := io.outb AtaRegister.statusOrCommand.port commandPortReadValue hw
  let hw ← waitForSectorBuffer io turns hw
  return (List.range (u64 (sectorsToRead * 256))).foldl (fun s i =>
    let (word, hw) := io.inw AtaRegister.data.port s.1
    (hw, setWord s.2 (buf + 2 * i) word)) (hw, s.2)

def ataPioWrite (lbaAddressing sectorsToWrite buf : Nat) (s : σ × ByteObject) :
    Exec (σ × ByteObject) := do
  let hw := ataPioPrepareForOperations io lbaAddressing sectorsToWrite s.1
  let hw := io.outb AtaRegister.statusOrCommand.port commandPortWriteValue hw
  let hw ← waitForSectorBuffer io turns hw
  return ((List.range (u64 (sectorsToWrite * 256))).foldl (fun hw i =>
    io.outw AtaRegister.data.port (getWord s.2 (buf + 2 * i)) hw) hw, s.2)

/-- `struct block_device` of this driver, whose callbacks are the two functions below. -/
structure AtaDevice where
  name : ByteObject
  blockSize : Nat
  blocksCount : Nat
  partitionOffset : Nat

def ataPioReadSector (dev : AtaDevice) (lba buffer : Nat) (s : σ × ByteObject) :
    Exec (σ × ByteObject) :=
  ataPioRead io turns (u64 (lba + dev.partitionOffset)) 1 buffer s

def ataPioWriteSector (dev : AtaDevice) (lba buffer : Nat) (s : σ × ByteObject) :
    Exec (σ × ByteObject) :=
  ataPioWrite io turns (u64 (lba + dev.partitionOffset)) 1 buffer s

/-- The device for `read_blk_device_bytes`. Its state is that of the hardware, or the fault that a
call of `read_block` ended in. -/
def AtaDevice.blkDevice (dev : AtaDevice) : BlkDevice (Exec σ) where
  blockSize := dev.blockSize
  readBlock lba buffer s :=
    match s.1 with
    | .error _ => s
    | .ok hw =>
      match ataPioReadSector io turns dev lba buffer (hw, s.2) with
      | .error fault => (.error fault, s.2)
      | .ok (hw, object) => (.ok hw, object)

/-- `read_blk_device_bytes` on a device of this driver, to the beginning of the object. -/
def AtaDevice.readBytes (dev : AtaDevice) (byteOffset size : Nat) (readBuffer : ByteObject)
    (s : σ × ByteObject) : Exec (σ × ByteObject) := do
  let (_, hw, object) ←
    (dev.blkDevice io turns).readBlkDeviceBytes byteOffset size (.ok s.1) s.2 readBuffer
  let hw ← hw
  return (hw, object)

end Driver

/-! ## Partitions -/

/-- `BLOCK_DEVICE_NAME_LEN`. -/
def blockDeviceNameLen : Nat := 100

/-- The loop over `part_name` and the final `\0`. -/
def copyPartName : (partName : List Byte) → (i : Nat) → (name : ByteObject) → ByteObject
  | [], i, name => Function.update name i 0
  | c :: partName, i, name =>
    if i < blockDeviceNameLen - 1 then copyPartName partName (i + 1) (Function.update name i c)
    else Function.update name i 0

def createPartitionWrapper (parentDisk : AtaDevice) (startLba : Nat) (partName : CString)
    (partitionSize : Nat) : AtaDevice :=
  { parentDisk with
    name := copyPartName partName.chars 0 parentDisk.name
    blocksCount := partitionSize
    partitionOffset := u64 (parentDisk.partitionOffset + startLba) }

/-- The static variables of the driver. -/
structure AtaDriver where
  driverInitlized : Bool
  sBlockDevice : AtaDevice

def ataPioInit (driver : AtaDriver) : AtaDriver :=
  if driver.driverInitlized then driver
  else
    { driverInitlized := true
      sBlockDevice := { driver.sBlockDevice with
        blockSize := sectorSize
        blocksCount := 0
        partitionOffset := 0 } }

/-- `FIRST_PARTITION_MBR_OFFSET`. -/
def firstPartitionMbrOffset : Nat := 2048

/-- The device that `vfs_init` mounts: the driver's only one, which becomes its own partition. -/
def vfsInitDevice (driver : AtaDriver) (partName : CString) : AtaDriver :=
  let driver := ataPioInit (ataPioInit driver)
  { driver with
    sBlockDevice :=
      createPartitionWrapper driver.sBlockDevice firstPartitionMbrOffset partName (2 ^ 64 - 1) }

end TrazelOs
