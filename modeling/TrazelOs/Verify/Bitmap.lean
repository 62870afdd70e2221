import TrazelOs.Kernel.Bitmap

/-! # The packed bitmap as a function from indices to bits

`TzBitmap.bit` is the bit at an index. `bitmapGetBitValue` reads it and `bitmapSetBitValue`
changes it at one index and nowhere else. -/

namespace TrazelOs

variable {bm : TzBitmap} {i j : Nat} {v : Bool}

/-- The bit stored at index `i`. -/
def TzBitmap.bit (bm : TzBitmap) (i : Nat) : Bool := (bm.byte (i / bitsInByte)).getLsbD (i % bitsInByte)

namespace TzBitmap

theorem byteIndex_lt (h : i < bm.bitCount) : i / bitsInByte < bm.bitmap.length := by
  rw [bm.length_eq]
  simp only [bitsInByte]
  omega

@[simp] theorem setByte_bitCount {b : Byte} : (bm.setByte i b).bitCount = bm.bitCount := rfl

theorem byte_setByte {b : Byte} (hi : i < bm.bitmap.length) :
    (bm.setByte i b).byte j = if j = i then b else bm.byte j := by
  simp only [byte, setByte, List.getD_eq_getElem?_getD, List.getElem?_set]
  by_cases h : j = i
  · subst h
    simp [hi]
  · rw [if_neg h, if_neg (Ne.symm h)]

/-- A bitmap is its bits. -/
theorem ext_bit {bm' : TzBitmap} (hcount : bm.bitCount = bm'.bitCount) (haddr : bm.addr = bm'.addr)
    (hbit : ∀ i, bm.bit i = bm'.bit i) : bm = bm' := by
  obtain ⟨count, addr, bytes, hlen⟩ := bm
  obtain ⟨count', addr', bytes', hlen'⟩ := bm'
  obtain rfl : count = count' := hcount
  obtain rfl : addr = addr' := haddr
  have hbytes : bytes = bytes' := by
    refine List.ext_getElem (by rw [hlen, hlen']) fun i hi hi' => ?_
    refine BitVec.eq_of_getLsbD_eq fun j hj => ?_
    have h := hbit (i * 8 + j)
    simp only [bit, byte, bitsInByte, show (i * 8 + j) / 8 = i by omega,
      show (i * 8 + j) % 8 = j by omega, List.getD_eq_getElem?_getD, List.getElem?_eq_getElem hi,
      List.getElem?_eq_getElem hi', Option.getD_some] at h
    exact h
  subst hbytes
  rfl

end TzBitmap

private theorem getLsbD_mask {k l : Nat} (hk : k < 8) :
    ((1 : Byte) <<< l).getLsbD k = decide (k = l) := by
  rw [BitVec.getLsbD_shiftLeft]
  by_cases h : k = l
  · subst h
    simp [hk]
  · by_cases hlt : k < l
    · simp [hlt, h]
    · have : k - l ≠ 0 := by omega
      simp [h, this, BitVec.getLsbD_one]

@[simp] theorem bitmapSetBitValue_bitCount : (bitmapSetBitValue bm i v).2.bitCount = bm.bitCount := by
  unfold bitmapSetBitValue
  split
  · rfl
  · cases v <;> rfl

@[simp] theorem bitmapSetBitValue_addr : (bitmapSetBitValue bm i v).2.addr = bm.addr := by
  unfold bitmapSetBitValue
  split
  · rfl
  · cases v <;> rfl

/-- The four cases of a set: out of range, or a new byte under the mask. -/
private theorem bitmapSetBitValue_snd (hi : i < bm.bitCount) :
    bitmapSetBitValue bm i v = (0, bm.setByte (i / bitsInByte)
      (if v then bm.byte (i / bitsInByte) ||| (1 : Byte) <<< (i % bitsInByte)
        else bm.byte (i / bitsInByte) &&& ~~~((1 : Byte) <<< (i % bitsInByte)))) := by
  unfold bitmapSetBitValue
  rw [if_neg (by omega)]
  cases v <;> rfl

theorem bitmapSetBitValue_of_le (hi : bm.bitCount ≤ i) : bitmapSetBitValue bm i v = (-1, bm) :=
  if_pos hi

/-- An in-range set returns 0. -/
theorem bitmapSetBitValue_fst (hi : i < bm.bitCount) : (bitmapSetBitValue bm i v).1 = 0 := by
  rw [bitmapSetBitValue_snd hi]

private theorem getLsbD_masked {b : Byte} {k l : Nat} (hk : k < 8) :
    (if v then b ||| (1 : Byte) <<< l else b &&& ~~~((1 : Byte) <<< l)).getLsbD k =
      if k = l then v else b.getLsbD k := by
  cases v with
  | false =>
    rw [if_neg Bool.false_ne_true, BitVec.getLsbD_and, BitVec.getLsbD_not, getLsbD_mask hk]
    by_cases h : k = l <;> simp [h, hk]
  | true =>
    rw [if_pos rfl, BitVec.getLsbD_or, getLsbD_mask hk]
    by_cases h : k = l <;> simp [h]

/-- A set changes the bit at its own index, when that is in range, and no other bit. -/
theorem bitmapSetBitValue_bit :
    (bitmapSetBitValue bm i v).2.bit j = if j = i ∧ i < bm.bitCount then v else bm.bit j := by
  by_cases hi : i < bm.bitCount
  · rw [bitmapSetBitValue_snd hi, TzBitmap.bit, TzBitmap.byte_setByte (TzBitmap.byteIndex_lt hi)]
    by_cases hbyte : j / bitsInByte = i / bitsInByte
    · have hsame : j % bitsInByte = i % bitsInByte ↔ j = i ∧ i < bm.bitCount := by
        simp only [bitsInByte] at hbyte ⊢
        omega
      have hmod : j % bitsInByte < 8 := Nat.mod_lt _ (by decide)
      rw [if_pos hbyte, getLsbD_masked hmod, TzBitmap.bit, hbyte]
      simp only [hsame]
    · have hne : ¬(j = i ∧ i < bm.bitCount) := fun h => hbyte (by rw [h.1])
      rw [if_neg hbyte, if_neg hne, TzBitmap.bit]
  · rw [if_neg (fun h => hi h.2), bitmapSetBitValue_of_le (by omega)]

theorem bitmapGetBitValue_of_lt (h : i < bm.bitCount) :
    bitmapGetBitValue bm i = if bm.bit i then 1 else 0 := by
  have hval : (bm.byte (i / bitsInByte) >>> (i % bitsInByte) &&& 1).toNat =
      if bm.bit i then 1 else 0 := by
    rw [BitVec.toNat_and, BitVec.toNat_ushiftRight, TzBitmap.bit, BitVec.getLsbD,
      Nat.testBit_eq_decide_div_mod_eq, show (1 : Byte).toNat = 1 from rfl, Nat.and_one_is_mod,
      Nat.shiftRight_eq_div_pow]
    rcases Nat.mod_two_eq_zero_or_one
      ((bm.byte (i / bitsInByte)).toNat / 2 ^ (i % bitsInByte)) with h0 | h1
    · simp [h0]
    · simp [h1]
  unfold bitmapGetBitValue
  rw [if_neg (by omega)]
  simp only [hval]
  split <;> rfl

theorem bitmapGetBitValue_of_le (h : bm.bitCount ≤ i) : bitmapGetBitValue bm i = -1 := if_pos h

theorem bitmapGetBitValue_ne_zero (h : i < bm.bitCount) :
    bitmapGetBitValue bm i ≠ 0 ↔ bm.bit i = true := by
  rw [bitmapGetBitValue_of_lt h]
  cases bm.bit i <;> simp

end TrazelOs
