import Mathlib.Data.Nat.Digits.Lemmas

/-! # The digits that a loop of divisions finds

A loop that takes the remainder and divides, until nothing is left, finds the digits of a number from
the last to the first. Its first turn is made for 0, too: the numeral of 0 is one digit. -/

namespace Theory

variable {base value k : Nat}

/-- The digits of a number, the last first. -/
def numeral (base value : Nat) : List Nat := if value = 0 then [0] else Nat.digits base value

theorem numeral_eq (hbase : 1 < base) : numeral base value =
    value % base :: if value / base = 0 then [] else numeral base (value / base) := by
  unfold numeral
  by_cases hvalue : value = 0
  · rw [if_pos hvalue, hvalue, Nat.zero_mod, Nat.zero_div, if_pos rfl]
  · rw [if_neg hvalue, Nat.digits_def' hbase (Nat.pos_of_ne_zero hvalue)]
    split
    · rename_i hzero
      rw [hzero, Nat.digits_zero]
    · rfl

theorem numeral_lt (hbase : 1 < base) : ∀ d ∈ numeral base value, d < base := by
  intro d hd
  unfold numeral at hd
  split at hd
  · rw [List.mem_singleton.mp hd]
    exact Nat.lt_of_succ_lt hbase
  · exact Nat.digits_lt_base hbase hd

theorem ofDigits_numeral : Nat.ofDigits base (numeral base value) = value := by
  unfold numeral
  split
  · rename_i hvalue
    rw [hvalue, Nat.ofDigits_singleton]
  · exact Nat.ofDigits_digits base value

/-- Only the numeral of 0 begins with 0. -/
theorem numeral_of_getLast_eq_zero (h : (numeral base value).getLast? = some 0) :
    numeral base value = [0] := by
  unfold numeral at h ⊢
  split at h
  · rw [if_pos ‹_›]
  · rename_i hvalue
    rw [List.getLast?_eq_some_getLast (Nat.digits_ne_nil_iff_ne_zero.mpr hvalue)] at h
    exact absurd (Option.some.inj h) (Nat.getLast_digit_ne_zero base hvalue)

theorem length_numeral_le (hbase : 1 < base) (hk : 0 < k) (h : value < base ^ k) :
    (numeral base value).length ≤ k := by
  unfold numeral
  split
  · exact hk
  · exact (Nat.digits_length_le_iff hbase value).mpr h

end Theory
