import Mathlib.Algebra.BigOperators.Group.Finset.Basic
import Mathlib.Algebra.BigOperators.Group.Finset.Piecewise
import Mathlib.Data.Fintype.Card
import Mathlib.Tactic.Common

/-! # Reference counts

Finitely many slots refer to objects, or to none when they hold `0`; an object that exists carries
the count of its references. Closing a slot that holds the last counted reference destroys the
object. `Even d` says that every count is the number of the slots less `d`, and `Sound` that no
slot refers to an object that was destroyed. -/

namespace Theory

variable {σ α : Type*} [DecidableEq α]

/-- The number of slots that refer to `a`. -/
def holders [Fintype σ] (refs : σ → α) (a : α) : Nat := (Finset.univ.filter fun x => refs x = a).card

open Classical in
/-- The number of slots outside `D` that refer to `a`. -/
noncomputable def holdersOutside [Fintype σ] (D : σ → Prop) (refs : σ → α) (a : α) : Nat :=
  (Finset.univ.filter fun x => refs x = a ∧ ¬D x).card

section Holders
variable [Fintype σ] {refs : σ → α} {x : σ} {a b : α}

theorem holders_eq_zero : holders refs a = 0 ↔ ∀ x, refs x ≠ a := by
  rw [holders, Finset.card_eq_zero, Finset.filter_eq_empty_iff]
  exact ⟨fun h x => h (Finset.mem_univ x), fun h x _ => h x⟩

theorem holders_ne_zero : holders refs a ≠ 0 ↔ ∃ x, refs x = a := by
  rw [ne_eq, holders_eq_zero]
  push Not
  rfl

theorem holders_le : holders refs a ≤ Fintype.card σ := Finset.card_le_univ _

variable [DecidableEq σ]

theorem holders_update : holders (Function.update refs x b) a + (if refs x = a then 1 else 0) =
    holders refs a + (if b = a then 1 else 0) := by
  have hrest : ∑ y ∈ Finset.univ.erase x, (if Function.update refs x b y = a then 1 else 0) =
      ∑ y ∈ Finset.univ.erase x, if refs y = a then 1 else 0 := by
    refine Finset.sum_congr rfl fun y hy => ?_
    rw [Function.update_of_ne (Finset.ne_of_mem_erase hy)]
  simp only [holders, Finset.card_filter]
  rw [← Finset.add_sum_erase _ _ (Finset.mem_univ x), ← Finset.add_sum_erase _ _ (Finset.mem_univ x),
    hrest, Function.update_self]
  omega

/-- The slots of `a` after one of them is emptied. -/
theorem holders_clear [Zero α] (ha : a ≠ 0) :
    holders (Function.update refs x 0) a + (if refs x = a then 1 else 0) = holders refs a := by
  rw [holders_update, if_neg ha.symm, Nat.add_zero]

/-- The slots of `a` after an empty one is filled. -/
theorem holders_fill [Zero α] (hx : refs x = 0) (ha : a ≠ 0) :
    holders (Function.update refs x b) a = holders refs a + (if b = a then 1 else 0) := by
  rw [← holders_update (x := x), hx, if_neg ha.symm, Nat.add_zero]

end Holders

structure RefTable (σ α : Type*) where
  refs : σ → α
  count : α → Option Nat

namespace RefTable

section Operations
variable (R : RefTable σ α) {x : σ} {a b : α}

/-- A new object, to which no slot refers. -/
def create (a : α) : RefTable σ α := { R with count := Function.update R.count a (some 1) }

theorem create_count_of_ne (h : a ≠ b) : (R.create a).count b = R.count b :=
  Function.update_of_ne h.symm ..

variable [DecidableEq σ]

/-- A new object and the slot that refers to it. -/
def install (x : σ) (a : α) : RefTable σ α where
  refs := Function.update R.refs x a
  count := Function.update R.count a (some 1)

theorem install_count_self : (R.install x a).count a = some 1 := Function.update_self ..

theorem install_count_of_ne (h : a ≠ b) : (R.install x a).count b = R.count b :=
  Function.update_of_ne h.symm ..

/-- One more slot refers to an object. -/
def share (x : σ) (a : α) : RefTable σ α where
  refs := Function.update R.refs x a
  count := Function.update R.count a ((R.count a).map (· + 1))

theorem share_count_self : (R.share x a).count a = (R.count a).map (· + 1) :=
  Function.update_self ..

theorem share_count_of_ne (h : a ≠ b) : (R.share x a).count b = R.count b :=
  Function.update_of_ne h.symm ..

variable [Zero α]

/-- The slot is emptied, and its object is destroyed with the last reference that was counted. -/
def close (x : σ) : RefTable σ α where
  refs := Function.update R.refs x 0
  count := Function.update R.count (R.refs x)
    ((R.count (R.refs x)).bind fun n => if n ≤ 1 then none else some (n - 1))

theorem close_count_self : (R.close x).count (R.refs x) =
    (R.count (R.refs x)).bind fun n => if n ≤ 1 then none else some (n - 1) :=
  Function.update_self ..

theorem close_count_of_ne (h : R.refs x ≠ a) : (R.close x).count a = R.count a :=
  Function.update_of_ne h.symm ..

end Operations

variable [Fintype σ] [Zero α] (R : RefTable σ α)

def Even (d : α → Nat) : Prop :=
  ∀ a n, a ≠ 0 → R.count a = some n → holders R.refs a ≠ 0 → n + d a = holders R.refs a

def Sound : Prop := ∀ x, R.refs x ≠ 0 → (R.count (R.refs x)).isSome

/-- From `R` to `R'` exactly the objects are destroyed whose last slot was emptied, and no slot
comes to refer to an object that none referred to. -/
structure Tracked (R' : RefTable σ α) : Prop where
  destroyed : ∀ a, a ≠ 0 → (R.count a).isSome →
    (R'.count a = none ↔ holders R.refs a ≠ 0 ∧ holders R'.refs a = 0)
  unheld : ∀ a, a ≠ 0 → holders R.refs a = 0 → holders R'.refs a = 0
  absent : ∀ a, R.count a = none → R'.count a = none

variable {R} {R' R'' : RefTable σ α} {x : σ} {a b : α} {d : α → Nat}

theorem Tracked.refl : Tracked R R where
  destroyed a _ ha := by
    refine ⟨fun h => ?_, fun h => absurd h.2 h.1⟩
    rw [h] at ha
    cases ha
  unheld _ _ h := h
  absent _ h := h

theorem Tracked.trans (h : Tracked R R') (h' : Tracked R' R'') : Tracked R R'' where
  destroyed a ha hsome := by
    constructor
    · intro hnone
      cases hcount : R'.count a with
      | none =>
        obtain ⟨hheld, hlast⟩ := (h.destroyed a ha hsome).mp hcount
        exact ⟨hheld, h'.unheld a ha hlast⟩
      | some n =>
        obtain ⟨hheld, hlast⟩ := (h'.destroyed a ha (hcount ▸ rfl)).mp hnone
        exact ⟨fun h₀ => hheld (h.unheld a ha h₀), hlast⟩
    · rintro ⟨hheld, hlast⟩
      cases hcount : R'.count a with
      | none => exact h'.absent a hcount
      | some n =>
        have hheld' : holders R'.refs a ≠ 0 := fun h₀ => by
          have := (h.destroyed a ha hsome).mpr ⟨hheld, h₀⟩
          rw [hcount] at this
          cases this
        exact (h'.destroyed a ha (hcount ▸ rfl)).mpr ⟨hheld', hlast⟩
  unheld a ha h₀ := h'.unheld a ha (h.unheld a ha h₀)
  absent a h₀ := h'.absent a (h.absent a h₀)

/-- A count that is even with its slots is at most the number of all slots. -/
theorem Even.le_card {n : Nat} (E : R.Even d) (ha : a ≠ 0) (hn : R.count a = some n)
    (hheld : holders R.refs a ≠ 0) : n ≤ Fintype.card σ := by
  have heven := E a n ha hn hheld
  have hle : holders R.refs a ≤ Fintype.card σ := holders_le
  omega

/-! ## New objects -/

/-- No slot refers to an address where there is no object. -/
theorem Sound.holders_fresh (S : R.Sound) (hfresh : R.count a = none) (ha : a ≠ 0) :
    holders R.refs a = 0 := by
  rw [holders_eq_zero]
  rintro x rfl
  have := S x ha
  rw [hfresh] at this
  cases this

theorem Even.create (S : R.Sound) (hfresh : R.count a = none) (E : R.Even d) : (R.create a).Even d := by
  intro b n hb hn hheld
  have hab : a ≠ b := fun h => hheld (S.holders_fresh (h ▸ hfresh) hb)
  exact E b n hb (by rwa [create_count_of_ne _ hab] at hn) hheld

theorem Sound.create (S : R.Sound) (hfresh : R.count a = none) : (R.create a).Sound := by
  intro y hy
  have hne : a ≠ R.refs y := by
    rintro rfl
    exact holders_eq_zero.mp (S.holders_fresh hfresh hy) y rfl
  exact (create_count_of_ne _ hne).symm ▸ S y hy

/-! ## Closing -/

variable [DecidableEq σ]

theorem holders_close (R : RefTable σ α) (x : σ) (ha : a ≠ 0) :
    holders (R.close x).refs a + (if R.refs x = a then 1 else 0) = holders R.refs a :=
  holders_clear ha

section Close
variable (hx : R.refs x ≠ 0)

theorem Even.close (E : R.Even d) : (R.close x).Even d := by
  intro a n ha hn hheld
  have hholders := R.holders_close x ha
  by_cases hxa : R.refs x = a
  · subst hxa
    rw [close_count_self, Option.bind_eq_some_iff] at hn
    obtain ⟨m, hm, hn⟩ := hn
    have heven := E _ m ha hm (by rw [if_pos rfl] at hholders; omega)
    split at hn <;> cases hn
    rw [if_pos rfl] at hholders
    omega
  · rw [if_neg hxa] at hholders
    have hcount : R.count a = some n := by rwa [close_count_of_ne _ hxa] at hn
    have heven := E _ n ha hcount (by omega)
    omega

include hx

/-- Nothing is left to dangle when the object survives or was counted exactly. -/
theorem Sound.close (S : R.Sound) (E : R.Even d)
    (hd : d (R.refs x) = 0 ∨ d (R.refs x) < holders (R.close x).refs (R.refs x)) :
    (R.close x).Sound := by
  intro y hy
  have hyx : y ≠ x := by
    rintro rfl
    exact hy (Function.update_self ..)
  have hrefs : (R.close x).refs y = R.refs y := Function.update_of_ne hyx ..
  rw [hrefs] at hy ⊢
  by_cases hxa : R.refs x = R.refs y
  · obtain ⟨n, hn⟩ := Option.isSome_iff_exists.mp (S x hx)
    have heven := E _ n hx hn (holders_ne_zero.mpr ⟨x, rfl⟩)
    have hholders := R.holders_close x hx
    rw [if_pos rfl] at hholders
    have hstill : holders (R.close x).refs (R.refs x) ≠ 0 :=
      holders_ne_zero.mpr ⟨y, hrefs.trans hxa.symm⟩
    rw [← hxa, close_count_self, hn, Option.bind_some, if_neg (by omega)]
    rfl
  · rw [close_count_of_ne _ hxa]
    exact S y hy

end Close

/-- Slots of `D` are closed one after the other. -/
inductive Closes (D : σ → Prop) (R : RefTable σ α) : RefTable σ α → Prop
  | refl : Closes D R R
  | close {R' : RefTable σ α} {x : σ} : Closes D R R' → D x → R'.refs x ≠ 0 →
    (R'.count (R'.refs x)).isSome → Closes D R (R'.close x)

variable {D D' : σ → Prop}

omit [Fintype σ] in
theorem Closes.mono (h : Closes D R R') (hD : ∀ x, D x → D' x) : Closes D' R R' := by
  induction h with
  | refl => exact .refl
  | close _ hx hne hsome ih => exact .close ih (hD _ hx) hne hsome

omit [Fintype σ] in
theorem Closes.kept (h : Closes D R R') {z : σ} (hz : ¬D z) : R'.refs z = R.refs z := by
  induction h with
  | refl => rfl
  | @close _ x _ hx _ _ ih =>
    have hne : z ≠ x := fun h => hz (h ▸ hx)
    exact (Function.update_of_ne hne ..).trans ih

theorem Closes.even (h : Closes D R R') (E : R.Even d) : R'.Even d := by
  induction h with
  | refl => exact E
  | close _ _ _ _ ih => exact ih.close

theorem Closes.holders_le (h : Closes D R R') (ha : a ≠ 0) : holders R'.refs a ≤ holders R.refs a := by
  induction h with
  | refl => exact Nat.le_refl _
  | @close R' x _ _ _ _ ih =>
    have hholders := R'.holders_close x ha
    omega

/-- What is destroyed had a slot. -/
theorem Closes.held (h : Closes D R R') (ha : a ≠ 0) (hsome : (R.count a).isSome)
    (hnone : R'.count a = none) : holders R.refs a ≠ 0 := by
  induction h with
  | refl =>
    rw [hnone] at hsome
    cases hsome
  | @close R' x h _ hx _ ih =>
    by_cases hxa : R'.refs x = a
    · have hheld : holders R'.refs a ≠ 0 := holders_ne_zero.mpr ⟨x, hxa⟩
      have hle := h.holders_le ha
      omega
    · exact ih ((close_count_of_ne _ hxa).symm.trans hnone)

/-- Enough slots at the end were enough slots all along. -/
theorem Closes.sound (h : Closes D R R') (E : R.Even d) (S : R.Sound)
    (hd : ∀ a, a ≠ 0 → d a = 0 ∨ d a < holders R'.refs a) : R'.Sound := by
  induction h with
  | refl => exact S
  | @close R' x h _ hx hsome ih =>
    have hd' : ∀ a, a ≠ 0 → d a = 0 ∨ d a < holders R'.refs a := fun a ha => by
      have hholders := R'.holders_close x ha
      have := hd a ha
      omega
    exact (ih hd').close hx (h.even E) (hd _ hx)

/-! ## Sharing -/

section Share
variable (hx : R.refs x = 0) (ha : a ≠ 0)

include hx in
theorem holders_share (hb : b ≠ 0) :
    holders (R.share x a).refs b = holders R.refs b + (if a = b then 1 else 0) :=
  holders_fill hx hb

include hx in
theorem Even.share (E : R.Even d) (hheld : holders R.refs a ≠ 0) : (R.share x a).Even d := by
  intro b n hb hn hholds
  have hholders := holders_share (a := a) hx hb
  by_cases hab : a = b
  · subst hab
    rw [share_count_self, Option.map_eq_some_iff] at hn
    obtain ⟨m, hm, rfl⟩ := hn
    have heven := E _ m hb hm hheld
    rw [if_pos rfl] at hholders
    omega
  · rw [if_neg hab] at hholders
    have hcount : R.count b = some n := by
      rwa [share_count_of_ne _ hab] at hn
    have heven := E _ n hb hcount (by omega)
    omega

omit [Fintype σ] in
theorem Sound.share (S : R.Sound) (hsome : (R.count a).isSome) : (R.share x a).Sound := by
  intro y hy
  have hcount : ∀ b, (R.count b).isSome → ((R.share x a).count b).isSome := by
    intro b hb
    by_cases hab : a = b
    · subst hab
      rwa [share_count_self, Option.isSome_map]
    · rwa [share_count_of_ne _ hab]
  by_cases hyx : y = x
  · subst hyx
    have hrefs : (R.share y a).refs y = a := Function.update_self ..
    rw [hrefs]
    exact hcount _ hsome
  · have hrefs : (R.share x a).refs y = R.refs y := Function.update_of_ne hyx ..
    rw [hrefs] at hy ⊢
    exact hcount _ (S y hy)

end Share

/-- Empty slots come to refer to objects that a slot of `R` refers to. -/
inductive Shares (R : RefTable σ α) : RefTable σ α → Prop
  | refl : Shares R R
  | share {R' : RefTable σ α} {x : σ} {a : α} : Shares R R' → R'.refs x = 0 → a ≠ 0 →
    (R'.count a).isSome → holders R.refs a ≠ 0 → Shares R (R'.share x a)

omit [Fintype σ] [DecidableEq α] in
theorem update_kept {refs : σ → α} {x z : σ} (hx : refs x = 0) (hz : refs z ≠ 0) :
    Function.update refs x a z = refs z := by
  have hne : z ≠ x := fun h => hz (h ▸ hx)
  exact Function.update_of_ne hne ..

theorem Shares.kept (h : Shares R R') {z : σ} (hz : R.refs z ≠ 0) : R'.refs z = R.refs z := by
  induction h with
  | refl => rfl
  | share _ hx _ _ _ ih => exact (update_kept hx (ih ▸ hz)).trans ih

theorem Shares.held (h : Shares R R') (ha : a ≠ 0) (hheld : holders R.refs a ≠ 0) :
    holders R'.refs a ≠ 0 := by
  induction h with
  | refl => exact hheld
  | @share R' x b h hx _ _ _ ih =>
    have hholders := holders_share (a := b) hx ha
    omega

theorem Shares.count_isSome (h : Shares R R') (hsome : (R.count a).isSome) :
    (R'.count a).isSome := by
  induction h with
  | refl => exact hsome
  | @share R' x b _ _ _ _ _ ih =>
    by_cases hab : b = a
    · subst hab
      rwa [share_count_self, Option.isSome_map]
    · rwa [share_count_of_ne _ hab]

theorem Shares.even (h : Shares R R') (E : R.Even d) : R'.Even d := by
  induction h with
  | refl => exact E
  | share h hx ha _ hheld ih => exact ih.share hx (h.held ha hheld)

theorem Shares.sound (h : Shares R R') (S : R.Sound) : R'.Sound := by
  induction h with
  | refl => exact S
  | share _ _ _ hsome _ ih => exact ih.share hsome

/-! ## Installing -/

theorem Even.install (S : R.Sound) (hfresh : R.count a = none) (E : R.Even d) (hx : R.refs x = 0)
    (hd : d a = 0) : (R.install x a).Even d := by
  intro b n hb hn hheld
  have hholders : holders (R.install x a).refs b = holders R.refs b + (if a = b then 1 else 0) :=
    holders_fill hx hb
  by_cases hab : a = b
  · subst hab
    rw [install_count_self] at hn
    cases hn
    rw [hholders, S.holders_fresh hfresh hb, hd, if_pos rfl]
  · rw [if_neg hab] at hholders
    have hcount : R.count b = some n := by
      rwa [install_count_of_ne _ hab] at hn
    have heven := E b n hb hcount (by omega)
    omega

omit [Fintype σ] in
theorem Sound.install (S : R.Sound) : (R.install x a).Sound := by
  intro y hy
  by_cases hya : a = (R.install x a).refs y
  · rw [← hya, install_count_self]
    rfl
  · have hyx : y ≠ x := by
      rintro rfl
      have hrefs : (R.install y a).refs y = a := Function.update_self ..
      exact hya hrefs.symm
    have hrefs : (R.install x a).refs y = R.refs y := Function.update_of_ne hyx ..
    rw [install_count_of_ne _ hya, hrefs]
    exact S y (hrefs ▸ hy)

end RefTable

end Theory
