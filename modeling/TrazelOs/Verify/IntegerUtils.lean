import TrazelOs.Kernel.IntegerUtils
import TrazelOs.Theory.Numeral
import TrazelOs.Verify.MemUtils

/-! # Numerals of 64-bit numbers

What `itoa_unsigned` and `itoa_signed` write is read back by a parser of numerals. The digits are
written from the last to the first and reversed in place; the sign stands before them. No number needs
more than the 30 bytes of the arrays in `printk`. -/

namespace TrazelOs

open Theory

/-! ## Reading a numeral -/

def digitValue (ch : Byte) : Option Nat :=
  if 0x30 ≤ ch ∧ ch ≤ 0x39 then some (ch.toNat - 0x30)
  else if 0x41 ≤ ch ∧ ch ≤ 0x46 then some (ch.toNat - 0x41 + 10)
  else none

/-- One more digit. -/
def parseDigit (base value : Nat) (ch : Byte) : Option Nat :=
  (digitValue ch).bind fun digit => if digit < base then some (value * base + digit) else none

/-- The value of a string of digits of a base. -/
def parseUnsigned (base : Nat) (str : List Byte) : Option Nat :=
  if str = [] then none else str.foldlM (parseDigit base) 0

/-- The value of a string of digits with a sign or without one. -/
def parseSigned (base : Nat) (str : List Byte) : Option Int :=
  if str.head? = some 0x2D then (parseUnsigned base str.tail).map fun value : Nat => -(value : Int)
  else (parseUnsigned base str).map fun value : Nat => (value : Int)

/-- The first digit is 0 in the numeral of 0 only. -/
def NoLeadingZero (str : List Byte) : Prop := str.head? = some 0x30 → str = [0x30]

theorem digitValue_numberToBaseDigit {digit : Nat} (h : digit < 16) :
    digitValue (numberToBaseDigit digit) = some digit := by
  revert digit
  decide

theorem foldlM_parseDigit {base : Nat} (hbase : base ≤ 16) {digits : List Nat}
    (h : ∀ d ∈ digits, d < base) :
    (digits.map numberToBaseDigit).reverse.foldlM (parseDigit base) 0 =
      some (Nat.ofDigits base digits) := by
  induction digits with
  | nil => rfl
  | cons d digits ih =>
    have hd : d < base := h d (.head _)
    rw [List.map_cons, List.reverse_cons, List.foldlM_append, ih fun d' hd' => h d' (.tail _ hd')]
    change (parseDigit base _ _).bind some = _
    unfold parseDigit
    rw [digitValue_numberToBaseDigit (Nat.lt_of_lt_of_le hd hbase)]
    change ((if d < base then _ else _) : Option Nat).bind some = _
    rw [if_pos hd, Nat.ofDigits_cons, Nat.add_comm, Nat.mul_comm]
    rfl

/-! ## Reversing in place -/

theorem strlenFrom_append {str rest : List Byte} (h : 0 ∉ str) :
    strlenFrom (str ++ 0 :: rest) = .ok str.length := by
  induction str with
  | nil => rfl
  | cons ch str ih =>
    have hch : ch ≠ 0 := fun hzero => h (hzero ▸ List.mem_cons_self)
    rw [List.cons_append, strlenFrom, if_neg hch, ih fun hstr => h (.tail _ hstr)]
    rfl

theorem strlen_append {front str rest : List Byte} (h : 0 ∉ str) :
    strlen (front ++ (str ++ 0 :: rest)) front.length = .ok str.length := by
  rw [strlen, List.drop_left, strlenFrom_append h]

/-- The first `i` characters of the string have changed places with the last `i`. -/
structure EndsSwapped (array : List Byte) (str strLen i : Nat) (array' : List Byte) : Prop where
  length_eq : array'.length = array.length
  ends : ∀ j < strLen, j < i ∨ strLen - i ≤ j → array'[str + j]? = array[str + (strLen - j - 1)]?
  middle : ∀ j < strLen - i, i ≤ j → array'[str + j]? = array[str + j]?
  outside : ∀ k, k < str ∨ str + strLen ≤ k → array'[k]? = array[k]?

section Reverse
variable {array array' : List Byte} {str strLen i : Nat}

theorem EndsSwapped.zero : EndsSwapped array str strLen 0 array :=
  ⟨rfl, fun j hj h => by omega, fun _ _ _ => rfl, fun _ _ => rfl⟩

theorem EndsSwapped.swapEnds (h : EndsSwapped array str strLen i array') (hi : i < strLen / 2)
    (hlength : str + strLen ≤ array.length) : ∃ array'',
      TrazelOs.swapEnds str strLen array' i = .ok array'' ∧
      EndsSwapped array str strLen (i + 1) array'' := by
  have hleft : str + i < array'.length := by rw [h.length_eq]; omega
  have hright : str + (strLen - i - 1) < array'.length := by rw [h.length_eq]; omega
  obtain ⟨temp, htemp, hget⟩ := arrayGet_lt hleft
  obtain ⟨ch, hch, hget'⟩ := arrayGet_lt hright
  have hset : ((array'.set (str + i) ch).set (str + (strLen - i - 1)) temp).length = array.length := by
    rw [List.length_set, List.length_set, h.length_eq]
  refine ⟨(array'.set (str + i) ch).set (str + (strLen - i - 1)) temp, ?_, hset, ?_, ?_, ?_⟩
  · unfold TrazelOs.swapEnds
    rw [hget, Exec.ok_bind, hget', Exec.ok_bind, arraySet_lt hleft, Exec.ok_bind,
      arraySet_lt (by rwa [List.length_set])]
  -- Which of the two stores a place sees, if any.
  all_goals
    rw [h.middle i (by omega) (Nat.le_refl _)] at htemp
    rw [h.middle (strLen - i - 1) (by omega) (by omega)] at hch
  · intro j hj hends
    rw [getElem?_set (by rwa [List.length_set]), getElem?_set hleft]
    by_cases hlast : j = strLen - i - 1
    · rw [if_pos (by rw [hlast]), ← htemp]
      exact congrArg (array[·]?) (by omega)
    · rw [if_neg (by omega)]
      by_cases hfirst : j = i
      · rw [if_pos (by rw [hfirst]), ← hch, hfirst]
      · rw [if_neg (by omega), h.ends j hj (by omega)]
  · intro j hj hij
    rw [getElem?_set (by rwa [List.length_set]), getElem?_set hleft, if_neg (by omega),
      if_neg (by omega), h.middle j (by omega) (by omega)]
  · intro k hk
    rw [getElem?_set (by rwa [List.length_set]), getElem?_set hleft, if_neg (by omega),
      if_neg (by omega), h.outside k hk]

/-- With half of the characters, all have changed their places. -/
theorem EndsSwapped.half (h : EndsSwapped array str strLen (strLen / 2) array') (j : Nat)
    (hj : j < strLen) : array'[str + j]? = array[str + (strLen - j - 1)]? := by
  by_cases hends : j < strLen / 2 ∨ strLen - strLen / 2 ≤ j
  · exact h.ends j hj hends
  · rw [h.middle j (by omega) (by omega)]
    exact congrArg (array[·]?) (by omega)

end Reverse

theorem stringReverse_eq {front str rest : List Byte} (h : 0 ∉ str) :
    stringReverse (front ++ (str ++ 0 :: rest)) front.length =
      .ok (front ++ (str.reverse ++ 0 :: rest)) := by
  have hlength : front.length + str.length ≤ (front ++ (str ++ 0 :: rest)).length := by
    rw [List.length_append, List.length_append]
    omega
  obtain ⟨array', hloop, hswapped⟩ : ∃ array',
      (List.range (str.length / 2)).foldlM (swapEnds front.length str.length)
        (front ++ (str ++ 0 :: rest)) = .ok array' ∧
      EndsSwapped (front ++ (str ++ 0 :: rest)) front.length str.length (str.length / 2) array' :=
    Exec.foldlM_range_total (p := EndsSwapped _ front.length str.length)
      (fun i array' hi hinv => hinv.swapEnds hi hlength) .zero
  unfold stringReverse
  rw [strlen_append h, Exec.ok_bind, hloop]
  refine congrArg Except.ok (List.ext_getElem? fun k => ?_)
  by_cases hin : front.length ≤ k ∧ k < front.length + str.length
  · obtain ⟨j, rfl⟩ : ∃ j, k = front.length + j := ⟨k - front.length, by omega⟩
    have hj : j < str.length := by omega
    have hfront (l : List Byte) (j : Nat) : (front ++ l)[front.length + j]? = l[j]? := by
      rw [List.getElem?_append_right (Nat.le_add_right ..), Nat.add_sub_cancel_left]
    rw [hswapped.half j hj, hfront, hfront, List.getElem?_append_left (by omega),
      List.getElem?_append_left (by rwa [List.length_reverse]), List.getElem?_reverse hj]
    exact congrArg (str[·]?) (by omega)
  · rw [hswapped.outside k (by omega)]
    rcases Nat.lt_or_ge k front.length with hk | hk
    · rw [List.getElem?_append_left hk, List.getElem?_append_left hk]
    · rw [List.getElem?_append_right hk, List.getElem?_append_right hk,
        List.getElem?_append_right (by omega), List.getElem?_append_right
        (by rw [List.length_reverse]; omega), List.length_reverse]

/-! ## Writing a numeral -/

section Write
variable {base : IntegerBase} {front rest : List Byte} {buffer value bufferIndex : Nat}

/-- The characters of a numeral, the last first. -/
def numeralChars (base : IntegerBase) (value : Nat) : List Byte :=
  (numeral (baseToDigitsTable base) value).map numberToBaseDigit

theorem numeralChars_eq : numeralChars base value =
    numberToBaseDigit (value % baseToDigitsTable base) ::
      if value / baseToDigitsTable base = 0 then []
      else numeralChars base (value / baseToDigitsTable base) := by
  unfold numeralChars
  rw [numeral_eq (one_lt_baseToDigitsTable base), List.map_cons, apply_ite (List.map numberToBaseDigit)]
  rfl

theorem arraySet_append {a b : Byte} {i : Nat} (hi : i = front.length) :
    arraySet (front ++ a :: rest) i b = .ok (front ++ b :: rest) := by
  rw [arraySet_lt (by rw [hi, List.length_append, List.length_cons]; omega),
    List.set_append_right _ _ (Nat.le_of_eq hi.symm), hi, Nat.sub_self]
  rfl

theorem itoaLoop_eq (hfront : buffer + bufferIndex = front.length)
    (hrest : (numeralChars base value).length ≤ rest.length) :
    itoaLoop base buffer (front ++ rest) value bufferIndex =
      .ok (front ++ (numeralChars base value ++ rest.drop (numeralChars base value).length),
        bufferIndex + (numeralChars base value).length) := by
  induction value using Nat.strong_induction_on generalizing front rest bufferIndex with
  | _ value ih =>
    rw [numeralChars_eq] at hrest ⊢
    obtain ⟨a, rest, rfl⟩ : ∃ a rest', rest = a :: rest' := by
      cases rest with
      | nil => cases hrest
      | cons a rest => exact ⟨a, rest, rfl⟩
    rw [itoaLoop, arraySet_append hfront, Exec.ok_bind]
    by_cases hlast : value / baseToDigitsTable base = 0
    · rw [if_pos hlast, if_pos hlast]
      rfl
    · rw [if_neg hlast, if_neg hlast]
      rw [if_neg hlast] at hrest
      have hpos : 0 < value := Nat.pos_of_ne_zero fun hzero => hlast (by rw [hzero, Nat.zero_div])
      rw [List.append_cons, ih _ (Nat.div_lt_self hpos (one_lt_baseToDigitsTable base))
        (by rw [List.length_append, ← hfront]; rfl) (Nat.le_of_succ_le_succ hrest)]
      simp only [List.length_cons, List.append_assoc, List.cons_append,
        List.nil_append, List.drop_succ_cons, Nat.add_assoc, Nat.add_comm 1]

theorem baseToDigitsTable_le : baseToDigitsTable base ≤ 16 := by cases base <;> decide

/-- The characters are those of digits. -/
theorem numeralChars_digit {ch : Byte} (h : ch ∈ numeralChars base value) : digitValue ch ≠ none := by
  obtain ⟨digit, hdigit, rfl⟩ := List.mem_map.mp h
  have hlt := numeral_lt (one_lt_baseToDigitsTable base) digit hdigit
  rw [digitValue_numberToBaseDigit (Nat.lt_of_lt_of_le hlt baseToDigitsTable_le)]
  exact Option.some_ne_none _

theorem numeralChars_ne_zero : 0 ∉ numeralChars base value := fun h => numeralChars_digit h rfl

theorem itoaUnsigned_eq (hbuffer : buffer = front.length)
    (hrest : (numeralChars base value).length < rest.length) :
    itoaUnsigned value (front ++ rest) buffer base =
      .ok (front ++ ((numeralChars base value).reverse ++
        0 :: rest.drop ((numeralChars base value).length + 1))) := by
  unfold itoaUnsigned
  rw [itoaLoop_eq (show buffer + 0 = front.length from hbuffer) (Nat.le_of_lt hrest), Exec.ok_bind,
    Nat.zero_add,
    List.drop_eq_getElem_cons hrest, ← List.append_assoc,
    arraySet_append (by rw [List.length_append, hbuffer]), Exec.ok_bind, List.append_assoc, hbuffer,
    stringReverse_eq numeralChars_ne_zero]

end Write

/-! ## Reading back what has been written -/

section Numerals
variable {base : IntegerBase} {value : Nat}

theorem numeralChars_ne_nil : numeralChars base value ≠ [] := by
  rw [numeralChars_eq]
  exact List.cons_ne_nil _ _

theorem parseUnsigned_numeralChars :
    parseUnsigned (baseToDigitsTable base) (numeralChars base value).reverse = some value := by
  unfold parseUnsigned
  rw [if_neg (List.reverse_ne_nil_iff.mpr numeralChars_ne_nil)]
  unfold numeralChars
  rw [foldlM_parseDigit baseToDigitsTable_le (numeral_lt (one_lt_baseToDigitsTable base)), ofDigits_numeral]

theorem numberToBaseDigit_eq_zero {digit : Nat} (h : digit < 16) (hzero : numberToBaseDigit digit = 0x30) :
    digit = 0 := by
  have hparse := digitValue_numberToBaseDigit h
  rw [hzero] at hparse
  exact (Option.some.inj hparse).symm

theorem noLeadingZero_numeralChars : NoLeadingZero (numeralChars base value).reverse := by
  intro hhead
  rw [List.head?_reverse, numeralChars, List.getLast?_map] at hhead
  obtain ⟨digit, hlast, hzero⟩ := Option.map_eq_some_iff.mp hhead
  have hlt := numeral_lt (one_lt_baseToDigitsTable base) digit (List.mem_of_getLast? hlast)
  rw [numberToBaseDigit_eq_zero (Nat.lt_of_lt_of_le hlt baseToDigitsTable_le) hzero] at hlast
  rw [numeralChars, numeral_of_getLast_eq_zero hlast]
  rfl

theorem length_numeralChars_le (h : value < 2 ^ 64) : (numeralChars base value).length ≤ 22 := by
  unfold numeralChars
  rw [List.length_map]
  refine length_numeral_le (one_lt_baseToDigitsTable base) (by decide) (Nat.lt_of_lt_of_le h ?_)
  cases base <;> decide

/-- A numeral does not begin with a sign. -/
theorem head_numeralChars : (numeralChars base value).reverse.head? ≠ some 0x2D := fun h =>
  numeralChars_digit (List.mem_reverse.mp (List.mem_of_head? h)) rfl

end Numerals

/-! ## Signed numbers -/

section Signed
variable {value : BitVec 64}

/-- The least number is its own negation, which is 2 ^ 63 without a sign. -/
theorem toInt_of_neg (h : value.toInt < 0) : -((-value).toNat : Int) = value.toInt := by
  rw [BitVec.toInt_eq_toNat_cond] at h ⊢
  rw [BitVec.toNat_neg]
  have hlt := value.isLt
  split at h <;> omega

theorem toInt_of_nonneg (h : ¬ value.toInt < 0) : (value.toNat : Int) = value.toInt := by
  rw [BitVec.toInt_eq_toNat_cond] at h ⊢
  have hlt := value.isLt
  split at h <;> omega

/-- The numeral of a number with a sign. -/
def signedChars (base : IntegerBase) (value : BitVec 64) : List Byte :=
  if value.toInt < 0 then 0x2D :: (numeralChars base (-value).toNat).reverse
  else (numeralChars base value.toNat).reverse

variable {base : IntegerBase}

theorem parseSigned_signedChars :
    parseSigned (baseToDigitsTable base) (signedChars base value) = some value.toInt := by
  unfold signedChars
  split
  · rename_i hneg
    rw [parseSigned, if_pos List.head?_cons, List.tail_cons, parseUnsigned_numeralChars, Option.map_some,
      toInt_of_neg hneg]
  · rename_i hneg
    rw [parseSigned, if_neg head_numeralChars, parseUnsigned_numeralChars, Option.map_some,
      toInt_of_nonneg hneg]

theorem signedChars_ne_zero : 0 ∉ signedChars base value := by
  unfold signedChars
  split
  · intro h
    rcases List.mem_cons.mp h with hsign | hdigits
    · cases hsign
    · exact numeralChars_ne_zero (List.mem_reverse.mp hdigits)
  · exact fun h => numeralChars_ne_zero (List.mem_reverse.mp h)

end Signed

/-! ## The arrays of the callers -/

section Callers
variable {array : List Byte} {base : IntegerBase}

/-- What is left of an array behind a string and its null. -/
theorem length_holds {str rest : List Byte} (hrest : rest = array.drop (str.length + 1))
    (hstr : str.length < array.length) : (str ++ 0 :: rest).length = array.length := by
  rw [List.length_append, List.length_cons, hrest, List.length_drop]
  omega

theorem itoaUnsigned_holds {value : Nat} (hvalue : value < 2 ^ 64) (h : array.length = maxBufferSize) :
    ∃ rest, itoaUnsigned value array 0 base = .ok ((numeralChars base value).reverse ++ 0 :: rest) ∧
      ((numeralChars base value).reverse ++ 0 :: rest).length = maxBufferSize := by
  have hle : (numeralChars base value).length ≤ 22 := length_numeralChars_le hvalue
  have hlt : (numeralChars base value).length < array.length := by
    rw [h, maxBufferSize]
    omega
  have hrun : itoaUnsigned value ([] ++ array) 0 base = .ok ([] ++ ((numeralChars base value).reverse ++
      0 :: array.drop ((numeralChars base value).length + 1))) := itoaUnsigned_eq rfl hlt
  refine ⟨_, hrun, ?_⟩
  rw [← h]
  exact length_holds (by rw [List.length_reverse]) (by rwa [List.length_reverse])

theorem itoaSigned_holds {value : BitVec 64} (h : array.length = maxBufferSize) :
    ∃ rest, itoaSigned value array 0 base = .ok (signedChars base value ++ 0 :: rest) ∧
      (signedChars base value ++ 0 :: rest).length = maxBufferSize := by
  by_cases hneg : value.toInt < 0
  · -- The digits are written behind the place of the sign.
    obtain ⟨a, array, rfl⟩ : ∃ a rest, array = a :: rest := by
      cases array with
      | nil => cases h
      | cons a rest => exact ⟨a, rest, rfl⟩
    have hle : (numeralChars base (-value).toNat).length ≤ 22 := length_numeralChars_le (-value).isLt
    have hlt : (numeralChars base (-value).toNat).length < array.length := by
      rw [List.length_cons, maxBufferSize] at h
      omega
    have hrun : itoaUnsigned (-value).toNat ([a] ++ array) 1 base =
        .ok ([a] ++ ((numeralChars base (-value).toNat).reverse ++
          0 :: array.drop ((numeralChars base (-value).toNat).length + 1))) := itoaUnsigned_eq rfl hlt
    refine ⟨array.drop ((numeralChars base (-value).toNat).length + 1), ?_, ?_⟩
    · unfold itoaSigned signedChars
      rw [if_pos hneg, if_pos hneg]
      change (itoaUnsigned (-value).toNat ([a] ++ array) 1 base >>= _) = _
      rw [hrun, Exec.ok_bind]
      rfl
    · unfold signedChars
      rw [if_pos hneg, ← h, List.cons_append, List.length_cons, List.length_cons]
      refine congrArg Nat.succ (length_holds (by rw [List.length_reverse]) ?_)
      rwa [List.length_reverse]
  · unfold itoaSigned signedChars
    rw [if_neg hneg, if_neg hneg]
    exact itoaUnsigned_holds value.isLt h

end Callers

/-- Every 64-bit number is written as its numeral, in an array of the size that the callers provide. A
store outside of the array would be a fault. -/
theorem itoa_numerals (array : List Byte) (h : array.length = maxBufferSize) :
    (∀ value < 2 ^ 64, ∀ base, ∃ str rest,
      itoaUnsigned value array 0 base = .ok (str ++ 0 :: rest) ∧
      (str ++ 0 :: rest).length = maxBufferSize ∧ 0 ∉ str ∧ NoLeadingZero str ∧
      parseUnsigned (baseToDigitsTable base) str = some value) ∧
    ∀ (value : BitVec 64) (base : IntegerBase), ∃ str rest,
      itoaSigned value array 0 base = .ok (str ++ 0 :: rest) ∧
      (str ++ 0 :: rest).length = maxBufferSize ∧ 0 ∉ str ∧
      parseSigned (baseToDigitsTable base) str = some value.toInt := by
  constructor
  · intro value hvalue base
    obtain ⟨rest, hrun, hlength⟩ := itoaUnsigned_holds hvalue h
    exact ⟨_, rest, hrun, hlength, fun hmem => numeralChars_ne_zero (List.mem_reverse.mp hmem),
      noLeadingZero_numeralChars, parseUnsigned_numeralChars⟩
  · intro value base
    obtain ⟨rest, hrun, hlength⟩ := itoaSigned_holds h
    exact ⟨_, rest, hrun, hlength, signedChars_ne_zero, parseSigned_signedChars⟩

/-- The least number of 64 bits. -/
theorem itoa_numerals_min : ∃ str rest,
    itoaSigned (BitVec.intMin 64) (List.replicate 30 0xFF) 0 .decimal = .ok (str ++ 0 :: rest) ∧
    parseSigned 10 str = some (-9223372036854775808) := by
  obtain ⟨str, rest, hrun, _, _, hparse⟩ :=
    (itoa_numerals (List.replicate 30 0xFF) (by decide)).2 (BitVec.intMin 64) .decimal
  exact ⟨str, rest, hrun, hparse⟩

/-! ## Printing -/

theorem writeBuffer_eq {str rest : List Byte} (h : 0 ∉ str) : writeBuffer (str ++ 0 :: rest) = .ok str := by
  have hlength : strlen ([] ++ (str ++ 0 :: rest)) 0 = .ok str.length := strlen_append h
  unfold writeBuffer
  rw [List.nil_append] at hlength
  rw [hlength, Exec.ok_bind, List.take_left]
  rfl

section Print
variable {buffer : List Byte} (h : buffer.length = maxBufferSize)
include h

theorem printInt_eq (val : BitVec 64) : printInt buffer val = .ok (signedChars .decimal val) := by
  obtain ⟨rest, hrun, _⟩ := itoaSigned_holds h
  rw [printInt, hrun, Exec.ok_bind, writeBuffer_eq signedChars_ne_zero]

theorem writeBuffer_itoaUnsigned {val : Nat} (hval : val < 2 ^ 64) (base : IntegerBase) :
    (itoaUnsigned val buffer 0 base >>= writeBuffer) = .ok (numeralChars base val).reverse := by
  obtain ⟨rest, hrun, _⟩ := itoaUnsigned_holds hval h
  rw [hrun, Exec.ok_bind, writeBuffer_eq fun hmem => numeralChars_ne_zero (List.mem_reverse.mp hmem)]

theorem printUnsignedint_eq {val : Nat} (hval : val < 2 ^ 64) :
    printUnsignedint buffer val = .ok (numeralChars .decimal val).reverse :=
  writeBuffer_itoaUnsigned h hval .decimal

theorem printHex_eq {val : Nat} (hval : val < 2 ^ 64) :
    printHex buffer val = .ok (numeralChars .hex val).reverse :=
  writeBuffer_itoaUnsigned h hval .hex

end Print

end TrazelOs
