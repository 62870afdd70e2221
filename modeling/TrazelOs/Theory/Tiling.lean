import Mathlib.Tactic.Common

/-! # Tilings of regions by extents

Regions are intervals of addresses; a block is named by the address where its extent begins.
`Tiles` says that the extents of the blocks divide the regions exactly: none is lost and no two
overlap. The lemmas are the ways an allocator changes such a division. -/

namespace Theory

/-- The extents `[x, x + len x)` of the blocks are disjoint and cover each region exactly. -/
structure Tiles (region : Nat → Nat → Prop) (block : Nat → Prop) (len : Nat → Nat) : Prop where
  pos : ∀ x, block x → 0 < len x
  inside : ∀ x, block x → ∃ lo hi, region lo hi ∧ lo ≤ x ∧ x + len x ≤ hi
  disjoint : ∀ x y, block x → block y → x ≠ y → x + len x ≤ y ∨ y + len y ≤ x
  cover : ∀ lo hi b, region lo hi → lo ≤ b → b < hi → ∃ x, block x ∧ x ≤ b ∧ b < x + len x

namespace Tiles

variable {region region' : Nat → Nat → Prop} {block block' : Nat → Prop} {len len' : Nat → Nat}
  {x a lo hi : Nat}

theorem congr (T : Tiles region block len) (hblock : ∀ y, block' y ↔ block y)
    (hlen : ∀ y, block y → len' y = len y) : Tiles region block' len' := by
  refine ⟨fun y hy => ?_, fun y hy => ?_, fun y z hy hz hne => ?_, fun lo hi b hr h1 h2 => ?_⟩
  · rw [hlen y ((hblock y).mp hy)]
    exact T.pos y ((hblock y).mp hy)
  · rw [hlen y ((hblock y).mp hy)]
    exact T.inside y ((hblock y).mp hy)
  · rw [hlen y ((hblock y).mp hy), hlen z ((hblock z).mp hz)]
    exact T.disjoint y z ((hblock y).mp hy) ((hblock z).mp hz) hne
  · obtain ⟨y, hy, hyb⟩ := T.cover lo hi b hr h1 h2
    exact ⟨y, (hblock y).mpr hy, by rwa [hlen y hy]⟩

/-- No block begins inside the extent of another. -/
theorem not_block_of_inside (T : Tiles region block len) (hx : block x) (ha : 0 < a)
    (hlt : a < len x) : ¬block (x + a) := by
  intro hblock
  have hpos := T.pos _ hblock
  rcases T.disjoint x (x + a) hx hblock (by omega) with h | h <;> omega

/-- Cut the extent of `x` after `a` bytes. -/
theorem split (T : Tiles region block len) (hx : block x) (ha : 0 < a) (hlt : a < len x)
    (hblock : ∀ y, block' y ↔ block y ∨ y = x + a) (hlenX : len' x = a)
    (hlenA : len' (x + a) = len x - a) (hlen : ∀ y, block y → y ≠ x → len' y = len y) :
    Tiles region block' len' := by
  have hnew := T.not_block_of_inside hx ha hlt
  -- A block of the new division is a piece of `x` or an old block apart from `x`.
  have hcases : ∀ y, block' y → (y = x ∧ len' y = a) ∨ (y = x + a ∧ len' y = len x - a) ∨
      (block y ∧ len' y = len y ∧ (x + len x ≤ y ∨ y + len y ≤ x)) := by
    intro y hy
    rcases (hblock y).mp hy with hy | rfl
    · by_cases hyx : y = x
      · subst hyx
        exact .inl ⟨rfl, hlenX⟩
      · exact .inr (.inr ⟨hy, hlen y hy hyx, T.disjoint x y hx hy fun h => hyx h.symm⟩)
    · exact .inr (.inl ⟨rfl, hlenA⟩)
  refine ⟨fun y hy => ?_, fun y hy => ?_, fun y z hy hz hne => ?_, fun lo hi b hr h1 h2 => ?_⟩
  · rcases hcases y hy with ⟨-, h⟩ | ⟨-, h⟩ | ⟨hold, h, -⟩
    · omega
    · omega
    · rw [h]
      exact T.pos y hold
  · obtain ⟨lo, hi, hr, h1, h2⟩ := T.inside x hx
    rcases hcases y hy with ⟨rfl, h⟩ | ⟨rfl, h⟩ | ⟨hold, h, -⟩
    · exact ⟨lo, hi, hr, h1, by omega⟩
    · exact ⟨lo, hi, hr, by omega, by omega⟩
    · rw [h]
      exact T.inside y hold
  · rcases hcases y hy with ⟨rfl, h⟩ | ⟨rfl, h⟩ | ⟨hold, h, hd⟩ <;>
      rcases hcases z hz with ⟨rfl, h'⟩ | ⟨rfl, h'⟩ | ⟨hold', h', hd'⟩
    case inr.inr.inr.inr =>
      rw [h, h']
      exact T.disjoint y z hold hold' hne
    all_goals omega
  · obtain ⟨y, hy, hyb, hby⟩ := T.cover lo hi b hr h1 h2
    by_cases hyx : y = x
    · subst hyx
      by_cases hcut : b < y + a
      · exact ⟨y, (hblock y).mpr (.inl hy), hyb, by omega⟩
      · exact ⟨y + a, (hblock _).mpr (.inr rfl), by omega, by omega⟩
    · exact ⟨y, (hblock y).mpr (.inl hy), hyb, by rw [hlen y hy hyx]; exact hby⟩

/-- A new region with one block. -/
theorem addRegion (T : Tiles region block len) (hlt : lo < hi)
    (hapart : ∀ lo' hi', region lo' hi' → hi ≤ lo' ∨ hi' ≤ lo)
    (hregion : ∀ lo' hi', region' lo' hi' ↔ region lo' hi' ∨ lo' = lo ∧ hi' = hi)
    (hblock : ∀ y, block' y ↔ block y ∨ y = lo) (hlenLo : len' lo = hi - lo)
    (hlen : ∀ y, block y → len' y = len y) : Tiles region' block' len' := by
  have hold : ∀ y, block y → hi ≤ y ∨ y + len y ≤ lo := by
    intro y hy
    obtain ⟨lo', hi', hr, h1, h2⟩ := T.inside y hy
    rcases hapart lo' hi' hr with h | h <;> omega
  refine ⟨fun y hy => ?_, fun y hy => ?_, fun y z hy hz hne => ?_, fun lo' hi' b hr h1 h2 => ?_⟩
  · rcases (hblock y).mp hy with hy | rfl
    · rw [hlen y hy]
      exact T.pos y hy
    · omega
  · rcases (hblock y).mp hy with hy | rfl
    · obtain ⟨lo', hi', hr, h⟩ := T.inside y hy
      exact ⟨lo', hi', (hregion _ _).mpr (.inl hr), by rwa [hlen y hy]⟩
    · exact ⟨y, hi, (hregion _ _).mpr (.inr ⟨rfl, rfl⟩), Nat.le_refl _, by omega⟩
  · rcases (hblock y).mp hy with hy | rfl <;> rcases (hblock z).mp hz with hz | rfl
    · rw [hlen y hy, hlen z hz]
      exact T.disjoint y z hy hz hne
    · rw [hlen y hy]
      have := hold y hy
      omega
    · rw [hlen z hz]
      have := hold z hz
      omega
    · exact absurd rfl hne
  · rcases (hregion _ _).mp hr with hr | ⟨rfl, rfl⟩
    · obtain ⟨y, hy, hyb⟩ := T.cover lo' hi' b hr h1 h2
      exact ⟨y, (hblock y).mpr (.inl hy), by rwa [hlen y hy]⟩
    · exact ⟨lo', (hblock _).mpr (.inr rfl), h1, by omega⟩

/-- Give up a region that is one block. -/
theorem removeRegion (T : Tiles region block len) (hx : block x)
    (hregion : ∀ lo hi, region' lo hi ↔ region lo hi ∧ (lo ≠ x ∨ hi ≠ x + len x))
    (hblock : ∀ y, block' y ↔ block y ∧ y ≠ x)
    (hapart : ∀ lo hi, region lo hi → lo = x ∧ hi = x + len x ∨ x + len x ≤ lo ∨ hi ≤ x) :
    Tiles region' block' len := by
  refine ⟨fun y hy => T.pos y ((hblock y).mp hy).1, fun y hy => ?_, fun y z hy hz hne =>
    T.disjoint y z ((hblock y).mp hy).1 ((hblock z).mp hz).1 hne, fun lo hi b hr h1 h2 => ?_⟩
  · obtain ⟨hold, hne⟩ := (hblock y).mp hy
    obtain ⟨lo, hi, hr, h1, h2⟩ := T.inside y hold
    have hpos := T.pos y hold
    have hd := T.disjoint x y hx hold fun h => hne h.symm
    exact ⟨lo, hi, (hregion _ _).mpr ⟨hr, by omega⟩, h1, h2⟩
  · obtain ⟨hold, hne⟩ := (hregion _ _).mp hr
    obtain ⟨y, hy, hyb, hby⟩ := T.cover lo hi b hold h1 h2
    refine ⟨y, (hblock y).mpr ⟨hy, ?_⟩, hyb, hby⟩
    rintro rfl
    rcases hapart lo hi hold with h | h <;> omega

/-- A region that overlaps no other is tiled by the blocks that begin in it. -/
theorem restrict (T : Tiles region block len) (hregion : region lo hi)
    (hapart : ∀ lo' hi', region lo' hi' → lo' = lo ∧ hi' = hi ∨ hi ≤ lo' ∨ hi' ≤ lo) :
    Tiles (fun lo' hi' => lo' = lo ∧ hi' = hi) (fun x => block x ∧ lo ≤ x ∧ x < hi) len := by
  refine ⟨fun y hy => T.pos y hy.1, fun y hy => ?_, fun y z hy hz => T.disjoint y z hy.1 hz.1, ?_⟩
  · obtain ⟨lo', hi', hr, h1, h2⟩ := T.inside y hy.1
    have hpos := T.pos y hy.1
    have := hapart lo' hi' hr
    exact ⟨lo, hi, ⟨rfl, rfl⟩, hy.2.1, by omega⟩
  · rintro _ _ b ⟨rfl, rfl⟩ h1 h2
    obtain ⟨y, hy, hyb, hby⟩ := T.cover _ _ b hregion h1 h2
    obtain ⟨lo', hi', hr, h3, h4⟩ := T.inside y hy
    have := hapart lo' hi' hr
    exact ⟨y, ⟨hy, by omega, by omega⟩, hyb, hby⟩

end Tiles
end Theory
