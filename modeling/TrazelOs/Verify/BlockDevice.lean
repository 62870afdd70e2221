import TrazelOs.Kernel.BlockDevice
import TrazelOs.Verify.Fat12

/-! # Reading bytes of a block device

However the requested range lies over the blocks, the buffer gets exactly the bytes of the range, and
what is behind them stays as it is. The invariant of the three parts is `Reading.Filled`. -/

namespace TrazelOs

/-- The first bytes of the buffer are those of `D` from `offset` on, the others are as in `buf`. -/
def overlay (buf D : ByteObject) (offset count : Nat) : ByteObject := fun j =>
  if j < count then D (offset + j) else buf j

theorem overlay_zero {buf D : ByteObject} {offset : Nat} : overlay buf D offset 0 = buf := by
  funext j
  exact if_neg (Nat.not_lt_zero j)

/-- The next `b` bytes. -/
theorem overlay_add {buf D new : ByteObject} {offset a b : Nat}
    (hnew : ∀ j, a ≤ j → j < a + b → new j = D (offset + j))
    (hold : ∀ j, ¬(a ≤ j ∧ j < a + b) → new j = overlay buf D offset a j) :
    new = overlay buf D offset (a + b) := by
  funext j
  by_cases hj : a ≤ j ∧ j < a + b
  · rw [hnew j hj.1 hj.2, overlay, if_pos hj.2]
  · rw [hold j hj, overlay, overlay]
    by_cases hlt : j < a
    · rw [if_pos hlt, if_pos (by omega)]
    · rw [if_neg hlt, if_neg (by omega)]

theorem memcpy_apply {dest src : ByteObject} {d s n j : Nat} :
    memcpy dest d src s n j = if d ≤ j ∧ j < d + n then src (s + (j - d)) else dest j := by
  induction n with
  | zero => exact (if_neg (by omega)).symm
  | succ n ih =>
    rw [memcpy, Function.update_apply, ih]
    by_cases hj : j = d + n
    · rw [if_pos hj, if_pos (by omega), hj, Nat.add_sub_cancel_left]
    · rw [if_neg hj]
      by_cases hin : d ≤ j ∧ j < d + n
      · rw [if_pos hin, if_pos (by omega)]
      · rw [if_neg hin, if_neg (by omega)]

namespace BlkDevice

variable {σ : Type} {dev : BlkDevice σ} {D buf : ByteObject}
  {offset size turns : Nat} {r : Reading σ}

/-- `read_block` stores block `lba` of `D` to the buffer, and nothing else. -/
def DeliversBlock (dev : BlkDevice σ) (D : ByteObject) (lba : Nat) : Prop :=
  ∀ buffer device object, (dev.readBlock lba buffer (device, object)).2 = fun j =>
    if buffer ≤ j ∧ j < buffer + dev.blockSize then D (lba * dev.blockSize + (j - buffer))
    else object j

/-- The blocks that begin before the end of the range are those of `D`. -/
structure Serves (dev : BlkDevice σ) (D : ByteObject) (offset size : Nat) : Prop where
  pos : 1 ≤ dev.blockSize
  le : dev.blockSize ≤ 512
  fits : offset + size < 2 ^ 64
  delivers : ∀ lba, lba * dev.blockSize < offset + size → dev.DeliversBlock D lba

/-- The bytes before `dstbuf` are read; if any are left, the next one begins block `currLba`. -/
structure Reading.Filled (dev : BlkDevice σ) (D buf : ByteObject) (offset size : Nat)
    (r : Reading σ) : Prop where
  total : r.dstbuf + r.remainingBytesToRead = size
  buf : r.buf = overlay buf D offset r.dstbuf
  aligned : r.remainingBytesToRead ≠ 0 → r.currLba * dev.blockSize = offset + r.dstbuf

theorem readHead_filled (h : dev.Serves D offset size) (device : σ) (buf readBuffer : ByteObject) :
    Reading.Filled dev D buf offset size (dev.readHead (offset % dev.blockSize)
      ⟨device, buf, readBuffer, 0, offset / dev.blockSize, size⟩) := by
  have hfits := h.fits
  have hle := h.le
  have hlt : offset % dev.blockSize < dev.blockSize := Nat.mod_lt _ h.pos
  have hoffset : offset / dev.blockSize * dev.blockSize + offset % dev.blockSize = offset :=
    Nat.div_add_mod' offset dev.blockSize
  unfold readHead
  split
  · rename_i hpos
    have hblock := h.delivers (offset / dev.blockSize) (by omega) 0 device readBuffer
    dsimp only [readLocal]
    rw [hblock, u64Sub_of_le (by omega) (Nat.le_of_lt hlt)]
    obtain ⟨count, hcount⟩ : ∃ count, (if dev.blockSize - offset % dev.blockSize > size then size
      else dev.blockSize - offset % dev.blockSize) = count := ⟨_, rfl⟩
    have hbound : count ≤ size ∧ count ≤ dev.blockSize - offset % dev.blockSize ∧
        (count ≠ size → count = dev.blockSize - offset % dev.blockSize) := by
      rw [← hcount]
      split <;> omega
    rw [hcount, u64Sub_of_le (by omega) hbound.1]
    refine ⟨by dsimp only; omega, overlay_add (fun j hj hlt => ?_) fun j hj => ?_, fun hleft => ?_⟩
    · dsimp only
      rw [memcpy_apply, if_pos ⟨hj, hlt⟩, if_pos (by omega)]
      congr 1
      omega
    · dsimp only
      rw [memcpy_apply, if_neg hj, overlay_zero]
    · dsimp only at hleft ⊢
      have hdiv : offset / dev.blockSize ≤ offset := Nat.div_le_self _ _
      rw [u64_of_lt (by omega), Nat.succ_mul, hbound.2.2 (by omega)]
      omega
  · rename_i hpos
    exact ⟨Nat.zero_add size, overlay_zero.symm, fun _ => by dsimp only; omega⟩

/-- The turn of the loop that reads block `currLba`. -/
theorem readInPlace_filled (h : dev.Serves D offset size) (hr : r.Filled dev D buf offset size)
    (hle : dev.blockSize ≤ r.remainingBytesToRead) :
    Reading.Filled dev D buf offset size { dev.readInPlace r with
      dstbuf := r.dstbuf + dev.blockSize
      remainingBytesToRead := u64Sub r.remainingBytesToRead dev.blockSize
      currLba := u64 (r.currLba + 1) } := by
  have hpos := h.pos
  have hfits := h.fits
  have htotal := hr.total
  have haligned := hr.aligned (by omega)
  have hblock := h.delivers r.currLba (by omega) r.dstbuf r.device r.buf
  have hlba : r.currLba ≤ r.currLba * dev.blockSize := Nat.le_mul_of_pos_right _ hpos
  dsimp only [readInPlace]
  rw [hblock, u64Sub_of_le (by omega) hle, u64_of_lt (by omega)]
  refine ⟨by dsimp only; omega, overlay_add (fun j hj hlt => ?_) fun j hj => ?_, fun _ => ?_⟩
  · dsimp only
    rw [if_pos ⟨hj, hlt⟩, haligned]
    congr 1
    omega
  · dsimp only
    rw [if_neg hj, hr.buf]
  · dsimp only
    rw [Nat.succ_mul, haligned, Nat.add_assoc]

theorem readBody_filled (h : dev.Serves D offset size) (hr : r.Filled dev D buf offset size)
    (hturns : r.remainingBytesToRead < turns) :
    ∃ r', dev.readBody turns r = .ok r' ∧ r'.Filled dev D buf offset size ∧
      r'.remainingBytesToRead < dev.blockSize := by
  induction turns generalizing r with
  | zero => omega
  | succ turns ih =>
    have hpos := h.pos
    have hfits := h.fits
    have htotal := hr.total
    rw [readBody]
    split
    · rename_i hle
      refine ih (readInPlace_filled h hr hle) ?_
      dsimp only [readInPlace]
      rw [u64Sub_of_le (by omega) hle]
      omega
    · rename_i hlt
      exact ⟨r, rfl, hr, Nat.lt_of_not_le hlt⟩

theorem readTail_filled (h : dev.Serves D offset size) (hr : r.Filled dev D buf offset size)
    (hlt : r.remainingBytesToRead < dev.blockSize) :
    (dev.readTail r).buf = overlay buf D offset size := by
  have htotal := hr.total
  unfold readTail
  split
  · rename_i hzero
    rw [hr.buf, ← htotal, hzero, Nat.add_zero]
  · rename_i hne
    have haligned := hr.aligned hne
    have hblock := h.delivers r.currLba (by omega) 0 r.device r.readBuffer
    dsimp only [readLocal]
    rw [hblock, ← htotal]
    refine overlay_add (fun j hj hlt => ?_) fun j hj => ?_
    · rw [memcpy_apply, if_pos ⟨hj, hlt⟩, if_pos (by omega), haligned]
      congr 1
      omega
    · rw [memcpy_apply, if_neg hj, hr.buf]

theorem Serves.readBlkDeviceBytes (h : dev.Serves D offset size) (device : σ)
    (buf readBuffer : ByteObject) :
    ∃ device', dev.readBlkDeviceBytes offset size device buf readBuffer =
      .ok (size, device', overlay buf D offset size) := by
  have hpos := h.pos
  have hhead := readHead_filled h device buf readBuffer
  obtain ⟨r, hbody, hr, hlt⟩ := readBody_filled h hhead
    (Nat.lt_succ_of_le (Nat.le_of_add_left_le (Nat.le_of_eq hhead.total)))
  refine ⟨(dev.readTail r).device, ?_⟩
  have hle : ¬dev.blockSize > maxBlockSize := Nat.not_lt.mpr h.le
  rw [BlkDevice.readBlkDeviceBytes, if_neg hle, divide,
    if_neg (Nat.ne_of_gt hpos), Exec.ok_bind]
  dsimp only
  rw [hbody, Exec.ok_bind, readTail_filled h hr hlt]
  rfl

end BlkDevice

/-- For every range that the device has, `read_blk_device_bytes` returns the size, the buffer then
begins with exactly the bytes of the range, and nothing behind them is written. -/
theorem readBlkDeviceBytes_fills_buffer {σ : Type} (dev : BlkDevice σ) (D : ByteObject)
    (offset size : Nat) (hpos : 1 ≤ dev.blockSize) (hle : dev.blockSize ≤ 512)
    (hfits : offset + size < 2 ^ 64)
    (hdelivers : ∀ lba, lba * dev.blockSize < offset + size → dev.DeliversBlock D lba)
    (device : σ) (buf readBuffer : ByteObject) :
    ∃ device' buf', dev.readBlkDeviceBytes offset size device buf readBuffer =
        .ok (size, device', buf') ∧
      (∀ j < size, buf' j = D (offset + j)) ∧ ∀ j ≥ size, buf' j = buf j := by
  obtain ⟨device', hread⟩ := BlkDevice.Serves.readBlkDeviceBytes ⟨hpos, hle, hfits, hdelivers⟩
    device buf readBuffer
  exact ⟨device', _, hread, fun j hj => if_pos hj, fun j hj => if_neg (Nat.not_lt.mpr hj)⟩

/-! ## The disk of the FAT12 driver -/

/-- The partition as a device of the ATA driver. -/
def BlockDevice.blkDevice (dev : BlockDevice) : BlkDevice Unit where
  blockSize := sectorSize
  readBlock lba buffer s := (s.1, fun j =>
    if buffer ≤ j ∧ j < buffer + sectorSize then dev (lba * sectorSize + (j - buffer)) else s.2 j)

theorem BlockDevice.serves {dev : BlockDevice} {offset size : Nat} (h : offset + size < 2 ^ 64) :
    dev.blkDevice.Serves dev offset size where
  pos := show 1 ≤ 512 by decide
  le := show 512 ≤ 512 by decide
  fits := h
  delivers _ _ _ _ _ := rfl

/-- A range over three blocks, with a head and a tail. -/
theorem readBlkDeviceBytes_fills_buffer_disk :
    ∃ device' buf', (BlockDevice.blkDevice fun i => BitVec.ofNat 8 i).readBlkDeviceBytes 500 600 ()
        (fun _ => 0) (fun _ => 0) = .ok (600, device', buf') ∧
      (∀ j < 600, buf' j = BitVec.ofNat 8 (500 + j)) ∧ ∀ j ≥ 600, buf' j = 0 :=
  readBlkDeviceBytes_fills_buffer (BlockDevice.blkDevice fun i => BitVec.ofNat 8 i)
    (fun i => BitVec.ofNat 8 i) 500 600 (by decide) (by decide) (by decide) (fun _ _ _ _ _ => rfl)
    () (fun _ => 0) (fun _ => 0)

/-- What the driver works with is what `read_blk_device_bytes` leaves in its buffer. -/
theorem BlockDevice.readBlkDeviceBytes_refines {dev : BlockDevice} {offset size : Nat}
    (h : offset + size < 2 ^ 64) (buf readBuffer : ByteObject) :
    ∃ buf', dev.blkDevice.readBlkDeviceBytes offset size () buf readBuffer = .ok (size, (), buf') ∧
      slice buf' 0 size = readBlkDeviceBytes dev offset size := by
  obtain ⟨_, hread⟩ := (BlockDevice.serves h).readBlkDeviceBytes () buf readBuffer
  refine ⟨_, hread, ?_⟩
  rw [readBlkDeviceBytes_eq]
  refine List.map_congr_left fun j hj => ?_
  rw [Nat.zero_add]
  exact if_pos (List.mem_range.mp hj)

end TrazelOs
