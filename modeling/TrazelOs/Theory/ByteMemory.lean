import Mathlib.Algebra.Group.Int.Defs
import Mathlib.Algebra.Ring.Nat
import Mathlib.Tactic.Common
import Mathlib.Data.List.Basic

/-! # Byte-addressed memories

A memory is a function from addresses to bytes. `load` and `store` move little-endian numbers of
a given width, `copy` and `fill` move byte ranges one byte at a time, in ascending order. The
lemmas say what an access reads after a write (`load_store_self`) and that it reads the same in
two memories that agree on its range (`load_congr`, `load_store_of_disjoint`). -/

namespace Theory

/-- A byte-addressed memory. -/
abbrev ByteMemory := Nat → BitVec 8

namespace ByteMemory

variable {m m' : ByteMemory} {a b n k v : Nat}

/-- The little-endian number in the `n` bytes from `a`. -/
def load (m : ByteMemory) (a : Nat) : Nat → Nat
  | 0 => 0
  | n + 1 => (m a).toNat + 256 * load m (a + 1) n

/-- Write the `n` low bytes of `v` at `a`, least significant first. -/
def store (m : ByteMemory) (a n v : Nat) : ByteMemory :=
  fun b => if a ≤ b ∧ b < a + n then BitVec.ofNat 8 (v / 256 ^ (b - a)) else m b

/-- Replace the byte at `a`. -/
def set (m : ByteMemory) (a : Nat) (v : BitVec 8) : ByteMemory :=
  fun b => if b = a then v else m b

/-- Copy `n` bytes from `src` to `dest`, one at a time, in ascending order. -/
def copy (m : ByteMemory) (dest src : Nat) : Nat → ByteMemory
  | 0 => m
  | n + 1 => (copy m dest src n).set (dest + n) (copy m dest src n (src + n))

/-- Write `v` to the `n` bytes from `dest`. -/
def fill (m : ByteMemory) (dest : Nat) (v : BitVec 8) : Nat → ByteMemory
  | 0 => m
  | n + 1 => (fill m dest v n).set (dest + n) v

/-- The two memories agree on the addresses of `S`. -/
def AgreeOn (S : Nat → Prop) (m m' : ByteMemory) : Prop := ∀ b, S b → m' b = m b

theorem set_self {v : BitVec 8} : m.set a v a = v := by simp [set]

theorem set_of_ne {v : BitVec 8} (h : b ≠ a) : m.set a v b = m b := by simp [set, h]

theorem store_of_disjoint (h : b < a ∨ a + n ≤ b) : m.store a n v b = m b := by
  unfold store
  rw [if_neg (by omega)]

theorem load_congr (h : ∀ i < n, m (a + i) = m' (b + i)) : m.load a n = m'.load b n := by
  induction n generalizing a b with
  | zero => rfl
  | succ n ih =>
    have hhead : m a = m' b := h 0 (by omega)
    have htail : m.load (a + 1) n = m'.load (b + 1) n := by
      refine ih fun i hi => ?_
      have := h (i + 1) (by omega)
      rwa [← Nat.add_assoc, ← Nat.add_assoc, Nat.add_right_comm a, Nat.add_right_comm b] at this
    simp only [load, hhead, htail]

theorem load_lt : m.load a n < 256 ^ n := by
  induction n generalizing a with
  | zero => exact Nat.one_pos
  | succ n ih =>
    have hbyte := (m a).isLt
    have hrest := ih (a := a + 1)
    simp only [load, Nat.pow_succ]
    omega

theorem load_store_self : (m.store a n v).load a n = v % 256 ^ n := by
  induction n generalizing a v m with
  | zero => simp [load, Nat.mod_one]
  | succ n ih =>
    have hhead : (m.store a (n + 1) v a).toNat = v % 256 := by
      simp [store]
    have htail : (m.store a (n + 1) v).load (a + 1) n = v / 256 % 256 ^ n := by
      rw [← ih (m := m) (a := a + 1) (v := v / 256)]
      refine load_congr fun i hi => ?_
      have h1 : a ≤ a + 1 + i ∧ a + 1 + i < a + (n + 1) := by omega
      have h2 : a + 1 ≤ a + 1 + i ∧ a + 1 + i < a + 1 + n := by omega
      have h3 : a + 1 + i - a = i + 1 := by omega
      have h4 : a + 1 + i - (a + 1) = i := by omega
      simp only [store, if_pos h1, if_pos h2, h3, h4, Nat.pow_succ', Nat.div_div_eq_div_mul]
    rw [load, hhead, htail, Nat.pow_succ', Nat.mod_mul]

/-- The byte `i` of a little-endian number. -/
theorem load_div {i : Nat} (hi : i < n) : m.load a n / 256 ^ i % 256 = (m (a + i)).toNat := by
  induction n generalizing a i with
  | zero => omega
  | succ n ih =>
    have hbyte := (m a).isLt
    cases i with
    | zero =>
      simp only [load, Nat.pow_zero, Nat.div_one, Nat.add_zero]
      omega
    | succ i =>
      have hshift : m.load a (n + 1) / 256 = m.load (a + 1) n := by
        simp only [load]
        omega
      rw [Nat.pow_succ', ← Nat.div_div_eq_div_mul, hshift, ih (by omega), Nat.add_right_comm]
      rfl

theorem store_load_self : m.store a n (m.load a n) = m := by
  funext b
  by_cases hb : a ≤ b ∧ b < a + n
  · have hload := load_div (m := m) (a := a) (n := n) (show b - a < n by omega)
    rw [show a + (b - a) = b by omega] at hload
    apply BitVec.eq_of_toNat_eq
    rw [store, if_pos hb, BitVec.toNat_ofNat, ← hload]
  · rw [store, if_neg hb]

theorem store_store {w : Nat} : (m.store a n v).store a n w = m.store a n w := by
  funext b
  by_cases hb : a ≤ b ∧ b < a + n
  · simp only [store, if_pos hb]
  · simp only [store, if_neg hb]

theorem load_store_of_disjoint (h : a + n ≤ b ∨ b + k ≤ a) :
    (m.store a n v).load b k = m.load b k :=
  load_congr fun i hi => store_of_disjoint (by omega)

theorem copy_of_outside (h : b < a ∨ a + n ≤ b) : m.copy a k n b = m b := by
  induction n with
  | zero => rfl
  | succ n ih => rw [copy, set_of_ne (by omega), ih (by omega)]

theorem copy_of_disjoint (h : a + n ≤ k ∨ k + n ≤ a) {i : Nat} (hi : i < n) :
    m.copy a k n (a + i) = m (k + i) := by
  induction n with
  | zero => omega
  | succ n ih =>
    by_cases hin : i = n
    · subst hin
      rw [copy, set_self, copy_of_outside (by omega)]
    · rw [copy, set_of_ne (by omega), ih (by omega) (by omega)]

theorem fill_apply {v : BitVec 8} :
    m.fill a v n b = if a ≤ b ∧ b < a + n then v else m b := by
  induction n with
  | zero => rw [fill, if_neg (by omega)]
  | succ n ih =>
    by_cases hb : b = a + n
    · rw [fill, hb, set_self, if_pos (by omega)]
    · rw [fill, set_of_ne hb, ih]
      by_cases hin : a ≤ b ∧ b < a + n
      · rw [if_pos hin, if_pos (by omega)]
      · rw [if_neg hin, if_neg (by omega)]

theorem load_fill_zero (h : a ≤ b ∧ b + k ≤ a + n) : (m.fill a 0 n).load b k = 0 := by
  induction k generalizing b with
  | zero => rfl
  | succ k ih =>
    have hbyte : m.fill a 0 n b = 0 := by rw [fill_apply, if_pos (by omega)]
    rw [load, hbyte, ih (by omega)]
    rfl

theorem AgreeOn.refl {S : Nat → Prop} : AgreeOn S m m := fun _ _ => rfl

theorem AgreeOn.mono {S T : Nat → Prop} (h : AgreeOn T m m') (hle : ∀ b, S b → T b) :
    AgreeOn S m m' := fun b hb => h b (hle b hb)

end ByteMemory
end Theory
