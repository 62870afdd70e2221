import TrazelOs.Kernel.MemUtils

/-! # The packed bitmap (`utils/libc_tz/bitmap.c`) -/

namespace TrazelOs

def bitsInByte : Nat := 8

/-- `struct tz_bitmap`: the number of bits, the address of the buffer and the bytes in it. -/
structure TzBitmap where
  bitCount : Nat
  addr : Nat
  bitmap : List Byte
  length_eq : bitmap.length = (bitCount + bitsInByte - 1) / bitsInByte

/-- All bits of the buffer start as zero. -/
def bitmapCreate (buffer bitCount : Nat) : TzBitmap where
  bitCount := bitCount
  addr := buffer
  bitmap := List.replicate ((bitCount + bitsInByte - 1) / bitsInByte) 0
  length_eq := List.length_replicate

/-- The byte at `index` of the buffer. -/
def TzBitmap.byte (bm : TzBitmap) (index : Nat) : Byte := bm.bitmap.getD index 0

def TzBitmap.setByte (bm : TzBitmap) (index : Nat) (value : Byte) : TzBitmap where
  bitCount := bm.bitCount
  addr := bm.addr
  bitmap := bm.bitmap.set index value
  length_eq := by rw [List.length_set, bm.length_eq]

/-- Returns 0, or -1 and the bitmap as it was when `bitIndex` is out of bounds. -/
def bitmapSetBitValue (bm : TzBitmap) (bitIndex : Nat) (value : Bool) : Int × TzBitmap :=
  if bitIndex ≥ bm.bitCount then (-1, bm)
  else
    let byteIndex := bitIndex / bitsInByte
    let bitOffset := bitIndex % bitsInByte
    let mask := (1 : Byte) <<< bitOffset
    if value then (0, bm.setByte byteIndex (bm.byte byteIndex ||| mask))
    else (0, bm.setByte byteIndex (bm.byte byteIndex &&& ~~~mask))

/-- The bit at `bitIndex`, or -1 when it is out of bounds. -/
def bitmapGetBitValue (bm : TzBitmap) (bitIndex : Nat) : Int :=
  if bitIndex ≥ bm.bitCount then -1
  else
    let byteIndex := bitIndex / bitsInByte
    let bitOffset := bitIndex % bitsInByte
    ((bm.byte byteIndex >>> bitOffset) &&& 1).toNat

/-! ## The bytes of the buffer

The same functions on the bytes that the caller provides. -/

/-- `struct tz_bitmap` with the bytes its pointer leads to. -/
structure PackedBitmap where
  bitCount : Nat
  bitmap : List Byte

namespace PackedBitmap

def bitmapCreate (buffer : List Byte) (bitCount : Nat) : Exec PackedBitmap := do
  let byteCount := u64Sub (u64 (bitCount + bitsInByte)) 1 / bitsInByte
  let bitmap ← (List.range byteCount).foldlM (fun bitmap i => arraySet bitmap i 0) buffer
  return ⟨bitCount, bitmap⟩

variable (bm : PackedBitmap)

def bitmapSetBitValue (bitIndex : Nat) (value : Bool) : Exec (Int × PackedBitmap) := do
  if bitIndex ≥ bm.bitCount then return (-1, bm)
  else
    let byteIndex := bitIndex / bitsInByte
    let bitOffset := bitIndex % bitsInByte
    let mask := (1 : Byte) <<< bitOffset
    let byte ← arrayGet bm.bitmap byteIndex
    let bitmap ← arraySet bm.bitmap byteIndex (if value then byte ||| mask else byte &&& ~~~mask)
    return (0, { bm with bitmap })

def bitmapGetBitValue (bitIndex : Nat) : Exec Int := do
  if bitIndex ≥ bm.bitCount then return -1
  else
    let byteIndex := bitIndex / bitsInByte
    let bitOffset := bitIndex % bitsInByte
    let byte ← arrayGet bm.bitmap byteIndex
    return ((byte >>> bitOffset) &&& 1).toNat

end PackedBitmap

end TrazelOs
