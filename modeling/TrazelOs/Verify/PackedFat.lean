import Mathlib.Data.List.GetD
import Mathlib.Data.List.Induction
import TrazelOs.Verify.MemUtils
import TrazelOs.Kernel.Fat12

/-! # The packed file allocation table

Two entries of twelve bits share three bytes. `get_next_cluster_id` reads a window of two of these
bytes and finds the entry in it, for every index that its parameter can hold
(`getNextClusterIdOf_packed`). -/

namespace TrazelOs

/-- The number in the three bytes from `3 * k` on, the first one lowest. -/
def packedPair (packed : List Byte) (k : Nat) : Nat :=
  (packed.getD (3 * k) 0).toNat + 2 ^ 8 * (packed.getD (3 * k + 1) 0).toNat +
    2 ^ 16 * (packed.getD (3 * k + 2) 0).toNat

/-- The bytes hold the entries: an even one in the low twelve bits of its three bytes, and the one
behind it in the high ones. -/
structure Packs (entries : List Nat) (packed : List Byte) : Prop where
  bytes : ∀ k, 2 * k < entries.length → 3 * k + 2 < packed.length
  even : ∀ k, 2 * k < entries.length → entries[2 * k]? = some (packedPair packed k % 2 ^ 12)
  odd : ∀ k, 2 * k + 1 < entries.length → entries[2 * k + 1]? = some (packedPair packed k / 2 ^ 12)

/-- The three bytes of two entries. -/
def packPair (low high : Nat) : List Byte :=
  let pair := low + 2 ^ 12 * high
  [BitVec.ofNat 8 pair, BitVec.ofNat 8 (pair / 2 ^ 8), BitVec.ofNat 8 (pair / 2 ^ 16)]

/-- A table of the entries; behind the last one of an odd number the bits are zero. -/
def packFat : List Nat → List Byte
  | [] => []
  | [entry] => packPair entry 0
  | low :: high :: entries => packPair low high ++ packFat entries

section
variable {entries : List Nat} {packed : List Byte} {low high i k : Nat}

/-! ## Reading an entry -/

theorem Packs.arrayGet (h : Packs entries packed) (hk : 2 * k < entries.length) {j : Nat} (hj : j < 3) :
    TrazelOs.arrayGet packed (3 * k + j) = .ok (packed.getD (3 * k + j) 0) := by
  have hlt : 3 * k + j < packed.length := by
    have := h.bytes k hk
    omega
  rw [arrayGet_eq, List.getD_eq_getElem?_getD, List.getElem?_eq_getElem hlt, Option.getD_some]

theorem Packs.getNextClusterId_even (h : Packs entries packed) (hk : 2 * k < entries.length) :
    getNextClusterId (2 * k) packed = .ok (packedPair packed k % 2 ^ 12) := by
  have hoffset : 2 * k + 2 * k / 2 = 3 * k + 0 := by omega
  unfold getNextClusterId
  dsimp only
  rw [hoffset, h.arrayGet hk (by decide), Exec.ok_bind]
  rw [show 3 * k + 0 + 1 = 3 * k + 1 from rfl, h.arrayGet hk (by decide), Exec.ok_bind,
    if_neg (by omega)]
  refine congrArg Except.ok ?_
  unfold packedPair
  rw [Nat.add_zero]
  omega

theorem Packs.getNextClusterId_odd (h : Packs entries packed) (hk : 2 * k + 1 < entries.length) :
    getNextClusterId (2 * k + 1) packed = .ok (packedPair packed k / 2 ^ 12) := by
  have hoffset : 2 * k + 1 + (2 * k + 1) / 2 = 3 * k + 1 := by omega
  have hk' : 2 * k < entries.length := by omega
  have hlow := (packed.getD (3 * k) 0).isLt
  unfold getNextClusterId
  dsimp only
  rw [hoffset, h.arrayGet hk' (by decide), Exec.ok_bind, show 3 * k + 1 + 1 = 3 * k + 2 from rfl,
    h.arrayGet hk' (by decide), Exec.ok_bind, if_pos (by omega)]
  refine congrArg Except.ok ?_
  unfold packedPair
  omega

theorem Packs.getNextClusterId (h : Packs entries packed) (hi : i < entries.length) :
    TrazelOs.getNextClusterId i packed = .ok entries[i] := by
  have hget := List.getElem?_eq_getElem hi
  obtain ⟨k, rfl | rfl⟩ : ∃ k, i = 2 * k ∨ i = 2 * k + 1 := ⟨i / 2, by omega⟩
  · rw [h.even k hi] at hget
    rw [h.getNextClusterId_even hi, Option.some.inj hget]
  · rw [h.odd k hi] at hget
    rw [h.getNextClusterId_odd hi, Option.some.inj hget]

/-- The word that is passed for an index of more than sixteen bits is another index. -/
theorem Packs.getNextClusterIdOf (h : Packs entries packed) (hi : i < entries.length) :
    TrazelOs.getNextClusterIdOf i packed =
      .ok (entries.get ⟨i % 2 ^ 16, Nat.lt_of_le_of_lt (Nat.mod_le _ _) hi⟩) :=
  h.getNextClusterId (Nat.lt_of_le_of_lt (Nat.mod_le _ _) hi)

/-! ## Packing -/

theorem packedPair_packPair (hlow : low < 2 ^ 12) (hhigh : high < 2 ^ 12) {rest : List Byte} :
    packedPair (packPair low high ++ rest) 0 = low + 2 ^ 12 * high := by
  change (BitVec.ofNat 8 _).toNat + 2 ^ 8 * (BitVec.ofNat 8 _).toNat +
    2 ^ 16 * (BitVec.ofNat 8 _).toNat = _
  simp only [BitVec.toNat_ofNat]
  omega

theorem packedPair_append {rest : List Byte} :
    packedPair (packPair low high ++ rest) (k + 1) = packedPair rest k := by
  have hshift (j : Nat) : (packPair low high ++ rest).getD (3 * (k + 1) + j) 0 =
      rest.getD (3 * k + j) 0 := by
    rw [List.getD_append_right _ _ _ _ (by change 3 ≤ _; omega)]
    refine congrArg (rest.getD · 0) ?_
    change 3 * (k + 1) + j - 3 = _
    omega
  unfold packedPair
  rw [hshift 1, hshift 2, show 3 * (k + 1) = 3 * (k + 1) + 0 from rfl, hshift 0, Nat.add_zero]

/-- One pair in front of a packed table. -/
theorem Packs.cons_pair {rest : List Byte} (h : Packs entries rest) (hlow : low < 2 ^ 12)
    (hhigh : high < 2 ^ 12) : Packs (low :: high :: entries) (packPair low high ++ rest) where
  bytes := by
    intro k hk
    have hlength : (packPair low high ++ rest).length = 3 + rest.length := List.length_append
    cases k with
    | zero => omega
    | succ k =>
      have := h.bytes k (by rw [List.length_cons, List.length_cons] at hk; omega)
      omega
  even := by
    intro k hk
    cases k with
    | zero =>
      rw [packedPair_packPair hlow hhigh]
      refine congrArg some ?_
      omega
    | succ k =>
      rw [packedPair_append, ← h.even k (by rw [List.length_cons, List.length_cons] at hk; omega)]
      rfl
  odd := by
    intro k hk
    cases k with
    | zero =>
      rw [packedPair_packPair hlow hhigh]
      refine congrArg some ?_
      omega
    | succ k =>
      rw [packedPair_append, ← h.odd k (by rw [List.length_cons, List.length_cons] at hk; omega)]
      rfl

theorem Packs.nil : Packs [] packed where
  bytes := fun _ hk => absurd hk (Nat.not_lt_zero _)
  even := fun _ hk => absurd hk (Nat.not_lt_zero _)
  odd := fun _ hk => absurd hk (Nat.not_lt_zero _)

/-- The last entry of an odd number is packed like one with another behind it. -/
theorem Packs.singleton (hlow : low < 2 ^ 12) : Packs [low] (packPair low 0) := by
  have hpair : Packs [low, 0] (packPair low 0 ++ []) := Packs.nil.cons_pair hlow (by decide)
  rw [List.append_nil] at hpair
  refine ⟨fun k hk => hpair.bytes k (Nat.lt_succ_of_lt hk), fun k hk => ?_, fun k hk => ?_⟩
  · rw [← hpair.even k (Nat.lt_succ_of_lt hk)]
    obtain rfl : k = 0 := by
      rw [List.length_singleton] at hk
      omega
    rfl
  · rw [List.length_singleton] at hk
    omega

theorem packs_packFat (h : ∀ entry ∈ entries, entry < 2 ^ 12) : Packs entries (packFat entries) := by
  induction entries using packFat.induct with
  | case1 => exact .nil
  | case2 entry => exact .singleton (h entry (.head _))
  | case3 low high entries ih =>
    exact (ih fun entry he => h entry (.tail _ (.tail _ he))).cons_pair (h low (.head _))
      (h high (.tail _ (.head _)))

/-! ## The whole table -/

theorem mapM_range_eq {f : Nat → Exec α} {l : List α} (h : ∀ i a, l[i]? = some a → f i = .ok a) :
    (List.range l.length).mapM f = .ok l := by
  induction l using List.reverseRecOn with
  | nil => rfl
  | append_singleton l a ih =>
    have hl : (List.range l.length).mapM f = .ok l := ih fun i b hb => by
      have hlt := (List.getElem?_eq_some_iff.mp hb).1
      exact h i b (by rw [List.getElem?_append_left hlt, hb])
    rw [List.length_append, List.length_singleton, List.range_succ, List.mapM_append, hl, Exec.ok_bind,
      List.mapM_cons, h l.length a (List.getElem?_concat_length ..)]
    rfl

/-- Every entry of a packed table is decoded at its index, as far as the parameter of the function can
hold the index. -/
theorem getNextClusterIdOf_packed (entries : List Nat) (h : ∀ entry ∈ entries, entry < 2 ^ 12) :
    Packs entries (packFat entries) ∧ ∀ packed, Packs entries packed →
      (∀ i (hi : i < entries.length), i < 2 ^ 16 → getNextClusterIdOf i packed = .ok entries[i]) ∧
      (entries.length ≤ 2 ^ 16 →
        (List.range entries.length).mapM (fun i => getNextClusterIdOf i packed) = .ok entries) := by
  refine ⟨packs_packFat h, fun packed hpacks => ?_⟩
  have hword (i : Nat) (hi : i < entries.length) (hlt : i < 2 ^ 16) :
      getNextClusterIdOf i packed = .ok entries[i] := by
    unfold getNextClusterIdOf
    rw [Nat.mod_eq_of_lt hlt]
    exact hpacks.getNextClusterId hi
  refine ⟨hword, fun hlength => mapM_range_eq fun i entry hentry => ?_⟩
  obtain ⟨hi, rfl⟩ := List.getElem?_eq_some_iff.mp hentry
  exact hword i hi (Nat.lt_of_lt_of_le hi hlength)

/-- The first entries of a table as it is formatted, with a file of one cluster. -/
theorem getNextClusterIdOf_packed_three : packFat [0xFF8, 0xFFF, 0xFFF] =
      [0xF8, 0xFF, 0xFF, 0xFF, 0x0F, 0x00] ∧
    getNextClusterIdOf 2 [0xF8, 0xFF, 0xFF, 0xFF, 0x0F, 0x00] = .ok 0xFFF := by
  have hpacked : packFat [0xFF8, 0xFFF, 0xFFF] = [0xF8, 0xFF, 0xFF, 0xFF, 0x0F, 0x00] := by decide
  have h := getNextClusterIdOf_packed [0xFF8, 0xFFF, 0xFFF] (by decide)
  exact ⟨hpacked, (h.2 _ (hpacked ▸ h.1)).1 2 (by decide) (by decide)⟩

/-- A table with an entry that no word of sixteen bits is the index of. -/
def longTable : List Nat := List.replicate (2 ^ 16) 0 ++ [1]

theorem length_longTable : longTable.length = 2 ^ 16 + 1 := by
  rw [longTable, List.length_append, List.length_replicate, List.length_singleton]

/-- The index `2 ^ 16` is converted to 0, and the first entry is returned instead of the last. -/
theorem getNextClusterIdOf_wraps : Packs longTable (packFat longTable) ∧
    longTable[2 ^ 16]? = some 1 ∧ getNextClusterIdOf (2 ^ 16) (packFat longTable) = .ok 0 := by
  have hsmall : ∀ entry ∈ longTable, entry < 2 ^ 12 := by
    intro entry hentry
    rcases List.mem_append.mp hentry with hzero | hone
    · rw [List.eq_of_mem_replicate hzero]
      decide
    · rw [List.mem_singleton.mp hone]
      decide
  have hpacks := packs_packFat hsmall
  have hlt : 0 < longTable.length := by
    rw [length_longTable]
    decide
  have hfirst : longTable[0] = 0 := by
    have hget := List.getElem?_eq_getElem hlt
    unfold longTable at hget
    rw [List.getElem?_append_left (by rw [List.length_replicate]; decide),
      List.getElem?_replicate_of_lt (by decide)] at hget
    exact (Option.some.inj hget).symm
  refine ⟨hpacks, ?_, ?_⟩
  · rw [longTable, List.getElem?_append_right (by rw [List.length_replicate]), List.length_replicate,
      Nat.sub_self]
    rfl
  · unfold getNextClusterIdOf
    rw [Nat.mod_self, hpacks.getNextClusterId hlt, hfirst]

end

end TrazelOs
