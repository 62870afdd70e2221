import TrazelOs.Kernel.MemUtils
import Mathlib.Tactic.Common

/-! # What `memset` and `memcpy` leave in an array

Each is described element by element. A copy inside of an array goes to lower addresses, so that no
element is overwritten before it has been read. -/

namespace TrazelOs

variable {array src : List α} {dest currSrc i j n : Nat} {a : α}

theorem arrayGet_eq {array : List α} {i : Nat} {a : α} : arrayGet array i = .ok a ↔ array[i]? = some a := by
  unfold arrayGet
  split <;> simp_all

theorem arrayGet_none {array : List α} {i : Nat} (h : array.length ≤ i) :
    arrayGet array i = .error .wild := by
  unfold arrayGet
  rw [List.getElem?_eq_none h]

theorem arrayGet_lt (h : i < array.length) : ∃ a, array[i]? = some a ∧ arrayGet array i = .ok a :=
  ⟨array[i], List.getElem?_eq_getElem h, arrayGet_eq.mpr (List.getElem?_eq_getElem h)⟩

theorem arraySet_lt (h : i < array.length) : arraySet array i a = .ok (array.set i a) := if_pos h

theorem getElem?_set (h : i < array.length) :
    (array.set i a)[j]? = if j = i then some a else array[j]? := by
  rw [List.getElem?_set]
  by_cases hj : i = j
  · rw [if_pos hj, if_pos h, if_pos hj.symm]
  · rw [if_neg hj, if_neg (Ne.symm hj)]

/-- The array `array'` is `array` with other elements in `n` places from `dest` on. -/
structure Replaced (array : List α) (dest n : Nat) (elem : Nat → Option α) (array' : List α) : Prop where
  length_eq : array'.length = array.length
  inside : ∀ i < n, array'[dest + i]? = elem i
  outside : ∀ j, j < dest ∨ dest + n ≤ j → array'[j]? = array[j]?

namespace Replaced

variable {elem : Nat → Option α} {array' : List α}

theorem zero : Replaced array dest 0 elem array :=
  ⟨rfl, fun _ hi => absurd hi (Nat.not_lt_zero _), fun _ _ => rfl⟩

/-- One more element is stored. -/
theorem set (h : Replaced array dest n elem array') (hlt : dest + n < array.length)
    (ha : elem n = some a) : Replaced array dest (n + 1) elem (array'.set (dest + n) a) := by
  have hlt' : dest + n < array'.length := h.length_eq ▸ hlt
  refine ⟨by rw [List.length_set, h.length_eq], fun i hi => ?_, fun j hj => ?_⟩
  · rw [getElem?_set hlt']
    by_cases heq : i = n
    · rw [if_pos (by rw [heq]), heq, ha]
    · rw [if_neg (by omega), h.inside i (by omega)]
  · rw [getElem?_set hlt', if_neg (by omega), h.outside j (by omega)]

theorem getElem? (h : Replaced array dest n elem array') : array'[j]? =
    if dest ≤ j ∧ j < dest + n then elem (j - dest) else array[j]? := by
  split
  · rename_i hj
    have := h.inside (j - dest) (by omega)
    rwa [Nat.add_sub_cancel' hj.1] at this
  · exact h.outside j (by omega)

end Replaced

theorem memsetArray_replaced (h : dest + n ≤ array.length) : ∃ array',
    memsetArray array dest a n = .ok array' ∧ Replaced array dest n (fun _ => some a) array' := by
  refine Exec.foldlM_range_total (p := fun i array' => Replaced array dest i (fun _ => some a) array')
    (fun i array' hi hr => ?_) .zero
  exact ⟨_, arraySet_lt (by rw [hr.length_eq]; omega), hr.set (by omega) rfl⟩

theorem memcpyArray_replaced (hsrc : currSrc + n ≤ src.length) (h : dest + n ≤ array.length) :
    ∃ array', memcpyArray array dest src currSrc n = .ok array' ∧
      Replaced array dest n (fun i => src[currSrc + i]?) array' := by
  refine Exec.foldlM_range_total
    (p := fun i array' => Replaced array dest i (fun i => src[currSrc + i]?) array')
    (fun i array' hi hr => ?_) .zero
  have hlt : currSrc + i < src.length := by omega
  obtain ⟨a, ha, hget⟩ := arrayGet_lt hlt
  refine ⟨_, ?_, hr.set (by omega) ha⟩
  rw [hget, Exec.ok_bind, arraySet_lt (by rw [hr.length_eq]; omega)]

theorem memcpyWithin_replaced (hle : dest ≤ currSrc) (h : currSrc + n ≤ array.length) :
    ∃ array', memcpyWithin array dest currSrc n = .ok array' ∧
      Replaced array dest n (fun i => array[currSrc + i]?) array' := by
  refine Exec.foldlM_range_total
    (p := fun i array' => Replaced array dest i (fun i => array[currSrc + i]?) array')
    (fun i array' hi hr => ?_) .zero
  -- The element that is read is not among the `i` that have been replaced.
  have hlt : currSrc + i < array'.length := by
    rw [hr.length_eq]
    omega
  obtain ⟨a, ha, hget⟩ := arrayGet_lt hlt
  rw [hr.outside _ (by omega)] at ha
  refine ⟨_, ?_, hr.set (by omega) ha⟩
  rw [hget, Exec.ok_bind, arraySet_lt (by rw [hr.length_eq]; omega)]

end TrazelOs
