import TrazelOs.Kernel.Fat12

/-! # Block devices (`drivers/block_device.c`)

`read_blk_device_bytes` on the buffer it fills and on its local buffer of one block. -/

namespace TrazelOs

/-- `memcpy` to `dest` from another object, `src`. -/
def memcpy (dest : ByteObject) (currDest : Nat) (src : ByteObject) (currSrc : Nat) : Nat → ByteObject
  | 0 => dest
  | n + 1 =>
    Function.update (memcpy dest currDest src currSrc n) (currDest + n) (src (currSrc + n))

/-- The fields of `struct block_device` that a read uses. `read_block` works on the state `σ` of the
device and on the object that the buffer is part of; its result is not looked at. -/
structure BlkDevice (σ : Type) where
  blockSize : Nat
  readBlock : (lba buffer : Nat) → σ × ByteObject → σ × ByteObject

namespace BlkDevice

def maxBlockSize : Nat := 512

/-- The variables of `read_blk_device_bytes`. -/
structure Reading (σ : Type) where
  device : σ
  buf : ByteObject
  readBuffer : ByteObject
  dstbuf : Nat
  currLba : Nat
  remainingBytesToRead : Nat

variable {σ : Type} (dev : BlkDevice σ)

/-- `dev->read_block(dev, curr_lba, read_buffer)`. -/
def readLocal (r : Reading σ) : Reading σ :=
  let (device, readBuffer) := dev.readBlock r.currLba 0 (r.device, r.readBuffer)
  { r with device, readBuffer }

/-- `dev->read_block(dev, curr_lba, dstbuf)`. -/
def readInPlace (r : Reading σ) : Reading σ :=
  let (device, buf) := dev.readBlock r.currLba r.dstbuf (r.device, r.buf)
  { r with device, buf }

/-- The unaligned initial bytes. -/
def readHead (headOffset : Nat) (r : Reading σ) : Reading σ :=
  if headOffset > 0 then
    let headBytesToCopy := u64Sub dev.blockSize headOffset
    let headBytesToCopy :=
      if headBytesToCopy > r.remainingBytesToRead then r.remainingBytesToRead else headBytesToCopy
    let r := dev.readLocal r
    { r with
      buf := memcpy r.buf r.dstbuf r.readBuffer headOffset headBytesToCopy
      dstbuf := r.dstbuf + headBytesToCopy
      currLba := u64 (r.currLba + 1)
      remainingBytesToRead := u64Sub r.remainingBytesToRead headBytesToCopy }
  else r

/-- The loop over the whole blocks. -/
def readBody : (turns : Nat) → Reading σ → Exec (Reading σ)
  | 0, _ => .error .hang
  | turns + 1, r =>
    if r.remainingBytesToRead ≥ dev.blockSize then
      let r := dev.readInPlace r
      readBody turns { r with
        dstbuf := r.dstbuf + dev.blockSize
        remainingBytesToRead := u64Sub r.remainingBytesToRead dev.blockSize
        currLba := u64 (r.currLba + 1) }
    else .ok r

/-- The unaligned last bytes. -/
def readTail (r : Reading σ) : Reading σ :=
  if r.remainingBytesToRead = 0 then r
  else
    let r := dev.readLocal r
    { r with buf := memcpy r.buf r.dstbuf r.readBuffer 0 r.remainingBytesToRead }

/-- The number of bytes read, and what the device and the buffer are then. With blocks of at least
one byte, `size + 1` turns are enough for the loop. -/
def readBlkDeviceBytes (byteOffset size : Nat) (device : σ) (buf readBuffer : ByteObject) :
    Exec (Nat × σ × ByteObject) :=
  if dev.blockSize > maxBlockSize then .ok (0, device, buf)
  else do
    let currLba ← divide byteOffset dev.blockSize
    let headOffset := byteOffset % dev.blockSize
    let r := dev.readHead headOffset
      { device, buf, readBuffer, dstbuf := 0, currLba, remainingBytesToRead := size }
    let r ← dev.readBody (size + 1) r
    let r := dev.readTail r
    return (size, r.device, r.buf)

end BlkDevice

end TrazelOs
