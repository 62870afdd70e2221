import Mathlib.Data.List.Nodup
import Mathlib.Data.List.Perm.Basic
import Mathlib.Logic.Function.Basic
import Mathlib.Tactic.Common

/-! # Blocks that are owned

A heap whose blocks have names that are never used again: an access to a block that was released is
not one to a later block. `Owns start heap l` says that since `start` the blocks of `l` were allocated
and not released, and that nothing else has changed. It is kept by the operations of the heap
(`Owns.alloc`, `Owns.free`, `Owns.set`). -/

namespace Theory

variable {β : Type}

structure BlockHeap (β : Type) where
  next : Nat
  blocks : Nat → Option β
  /-- The names that are still to come have no block. -/
  fresh : ∀ p, next ≤ p → blocks p = none

namespace BlockHeap

theorem lt_next {heap : BlockHeap β} {p : Nat} {b : β} (h : heap.blocks p = some b) :
    p < heap.next := by
  by_contra hge
  rw [heap.fresh p (Nat.le_of_not_lt hge)] at h
  cases h

def alloc (heap : BlockHeap β) (b : β) : Nat × BlockHeap β :=
  (heap.next,
    { next := heap.next + 1
      blocks := Function.update heap.blocks heap.next (some b)
      fresh := fun p hp => (Function.update_of_ne (by omega) _ _).trans (heap.fresh p (by omega)) })

/-- Release a block, unless it is not live. -/
def free (heap : BlockHeap β) (p : Nat) : Option (BlockHeap β) :=
  if heap.blocks p = none then none
  else some
    { next := heap.next
      blocks := Function.update heap.blocks p none
      fresh := fun q hq => by
        by_cases h : q = p
        · exact h ▸ Function.update_self ..
        · exact (Function.update_of_ne h _ _).trans (heap.fresh q hq) }

/-- Replace what a block holds, unless it is not live. -/
def set (heap : BlockHeap β) (p : Nat) (b : β) : Option (BlockHeap β) :=
  if h : heap.blocks p = none then none
  else some
    { next := heap.next
      blocks := Function.update heap.blocks p (some b)
      fresh := fun q hq => by
        have hne : q ≠ p := fun heq => h (heq ▸ heap.fresh q hq)
        exact (Function.update_of_ne hne _ _).trans (heap.fresh q hq) }

variable {start heap : BlockHeap β} {l l' : List (Nat × β)} {p : Nat} {b : β}

theorem free_live (h : heap.blocks p = some b) :
    ∃ heap', heap.free p = some heap' ∧ heap'.next = heap.next ∧
      heap'.blocks = Function.update heap.blocks p none := by
  refine ⟨_, if_neg ?_, rfl, rfl⟩
  rw [h]
  exact Option.some_ne_none b

theorem set_live (h : heap.blocks p = some b) (b' : β) :
    ∃ heap', heap.set p b' = some heap' ∧ heap'.next = heap.next ∧
      heap'.blocks = Function.update heap.blocks p (some b') := by
  refine ⟨_, dif_neg ?_, rfl, rfl⟩
  rw [h]
  exact Option.some_ne_none b

structure Owns (start heap : BlockHeap β) (l : List (Nat × β)) : Prop where
  next : start.next ≤ heap.next
  since : ∀ e ∈ l, start.next ≤ e.1
  live : ∀ e ∈ l, heap.blocks e.1 = some e.2
  nodup : (l.map Prod.fst).Nodup
  rest : ∀ q, q ∉ l.map Prod.fst → heap.blocks q = start.blocks q

namespace Owns

theorem refl (heap : BlockHeap β) : Owns heap heap [] where
  next := Nat.le_refl _
  since := fun _ he => absurd he List.not_mem_nil
  live := fun _ he => absurd he List.not_mem_nil
  nodup := List.nodup_nil
  rest := fun _ _ => rfl

theorem perm (h : Owns start heap l) (hperm : l.Perm l') : Owns start heap l' where
  next := h.next
  since := fun e he => h.since e (hperm.mem_iff.mpr he)
  live := fun e he => h.live e (hperm.mem_iff.mpr he)
  nodup := (hperm.map Prod.fst).nodup_iff.mp h.nodup
  rest := fun q hq => h.rest q fun hmem => hq ((hperm.map Prod.fst).mem_iff.mp hmem)

/-- The last of three blocks is taken to the front. -/
theorem rotate {e₁ e₂ e₃ : Nat × β} (h : Owns start heap [e₁, e₂, e₃]) :
    Owns start heap [e₃, e₁, e₂] :=
  h.perm (List.perm_append_comm : ([e₁, e₂] ++ [e₃]).Perm _)

theorem blocks_eq (h : Owns start heap []) : heap.blocks = start.blocks :=
  funext fun q => h.rest q List.not_mem_nil

/-- The blocks were not there at the start. -/
theorem start_none (h : Owns start heap l) {e : Nat × β} (he : e ∈ l) : start.blocks e.1 = none :=
  start.fresh e.1 (h.since e he)

theorem alloc (h : Owns start heap l) (b : β) :
    Owns start (heap.alloc b).2 (((heap.alloc b).1, b) :: l) where
  next := Nat.le_succ_of_le h.next
  since := List.forall_mem_cons.mpr ⟨h.next, h.since⟩
  live := by
    refine List.forall_mem_cons.mpr ⟨Function.update_self .., fun e he => ?_⟩
    exact (Function.update_of_ne (Nat.ne_of_lt (lt_next (h.live e he))) _ _).trans (h.live e he)
  nodup := by
    refine List.nodup_cons.mpr ⟨fun hmem => ?_, h.nodup⟩
    obtain ⟨e, he, heq⟩ := List.mem_map.mp hmem
    exact Nat.ne_of_lt (lt_next (h.live e he)) heq
  rest := by
    intro q hq
    obtain ⟨hne, hq⟩ := not_or.mp (mt List.mem_cons.mpr hq)
    exact (Function.update_of_ne hne _ _).trans (h.rest q hq)

/-- The other blocks have other names. -/
theorem ne_head (h : Owns start heap ((p, b) :: l)) {e : Nat × β} (he : e ∈ l) : e.1 ≠ p :=
  fun heq => (List.nodup_cons.mp h.nodup).1 (List.mem_map.mpr ⟨e, he, heq⟩)

theorem free (h : Owns start heap ((p, b) :: l)) :
    ∃ heap', heap.free p = some heap' ∧ Owns start heap' l := by
  obtain ⟨heap', hfree, hnext, hblocks⟩ := free_live (h.live _ (.head _))
  refine ⟨heap', hfree, hnext ▸ h.next, fun e he => h.since e (.tail _ he), fun e he => ?_,
    (List.nodup_cons.mp h.nodup).2, fun q hq => ?_⟩
  · rw [hblocks, Function.update_of_ne (h.ne_head he)]
    exact h.live e (.tail _ he)
  · rw [hblocks]
    by_cases heq : q = p
    · rw [heq, Function.update_self]
      exact (h.start_none (.head _)).symm
    · rw [Function.update_of_ne heq]
      exact h.rest q fun hmem => (List.mem_cons.mp hmem).elim heq hq

theorem set (h : Owns start heap ((p, b) :: l)) (b' : β) :
    ∃ heap', heap.set p b' = some heap' ∧ Owns start heap' ((p, b') :: l) := by
  obtain ⟨heap', hset, hnext, hblocks⟩ := set_live (h.live _ (.head _)) b'
  have hsince := List.forall_mem_cons.mp h.since
  refine ⟨heap', hset, hnext ▸ h.next, List.forall_mem_cons.mpr hsince,
    List.forall_mem_cons.mpr ⟨?_, fun e he => ?_⟩, h.nodup, fun q hq => ?_⟩
  · rw [hblocks]
    exact Function.update_self ..
  · rw [hblocks, Function.update_of_ne (h.ne_head he)]
    exact h.live e (.tail _ he)
  · rw [hblocks, Function.update_of_ne (not_or.mp (mt List.mem_cons.mpr hq)).1]
    exact h.rest q hq

end Owns

/-! ## The blocks of any heap -/

/-- The heap without blocks. -/
def empty : BlockHeap β := ⟨0, fun _ => none, fun _ _ => rfl⟩

def liveBlocks (heap : BlockHeap β) : List (Nat × β) :=
  (List.range heap.next).filterMap fun q => (heap.blocks q).map (q, ·)

theorem mem_liveBlocks {e : Nat × β} : e ∈ heap.liveBlocks ↔ heap.blocks e.1 = some e.2 := by
  rw [liveBlocks, List.mem_filterMap]
  constructor
  · rintro ⟨q, -, he⟩
    obtain ⟨b, hb, rfl⟩ := Option.map_eq_some_iff.mp he
    exact hb
  · intro he
    exact ⟨e.1, List.mem_range.mpr (lt_next he), by rw [he]; rfl⟩

/-- All blocks have been allocated since there were none. -/
theorem owns_liveBlocks : Owns empty heap heap.liveBlocks where
  next := Nat.zero_le _
  since := fun _ _ => Nat.zero_le _
  live := fun _ he => mem_liveBlocks.mp he
  nodup := by
    rw [liveBlocks, List.map_filterMap]
    refine List.nodup_range.filterMap fun q q' r hq hq' => ?_
    rw [Option.mem_def, Option.map_map] at hq hq'
    obtain ⟨_, -, rfl⟩ := Option.map_eq_some_iff.mp hq
    obtain ⟨_, -, heq⟩ := Option.map_eq_some_iff.mp hq'
    exact heq.symm
  rest := by
    intro q hq
    cases hb : heap.blocks q with
    | none => rfl
    | some b => exact absurd (List.mem_map.mpr ⟨(q, b), mem_liveBlocks.mpr hb, rfl⟩) hq

theorem owns_of_live (h : heap.blocks p = some b) : ∃ l, Owns empty heap ((p, b) :: l) := by
  have hmem : (p, b) ∈ heap.liveBlocks := mem_liveBlocks.mpr h
  obtain ⟨front, back, heq⟩ := List.append_of_mem hmem
  exact ⟨front ++ back, (heq ▸ owns_liveBlocks).perm List.perm_middle⟩

end BlockHeap

end Theory
