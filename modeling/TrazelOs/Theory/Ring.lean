import Mathlib.Data.List.Chain
import Mathlib.Data.List.Basic
import Mathlib.Tactic.Common

/-! # Doubly linked lists as rings through a sentinel

A list that is linked through `next` and `prev` and ends in null pointers is a ring of links when
its head and tail pointers are read as the `next` and the `prev` of the null pointer. In this view
the head, middle and tail cases of an update are one case: `Ring.splice` replaces any segment of
the list, and only the links of the two nodes around the segment change. -/

namespace Theory

variable {α : Type*} {next prev next' prev' : α → α} {s x : α} {l mid mid' r xs : List α}

/-- Each node of the list is linked to the one after it, in both directions. -/
def Linked (next prev : α → α) (xs : List α) : Prop :=
  xs.IsChain fun x y => next x = y ∧ prev y = x

/-- The nodes `xs`, in this order, and the sentinel `s` form a ring. -/
def Ring (next prev : α → α) (s : α) (xs : List α) : Prop :=
  Linked next prev (s :: (xs ++ [s]))

theorem Linked.congr {y : α} (h : Linked next prev (xs ++ [y]))
    (hnext : ∀ x ∈ xs, next' x = next x) (hprev : ∀ x ∈ (xs ++ [y]).tail, prev' x = prev x) :
    Linked next' prev' (xs ++ [y]) := by
  induction xs with
  | nil => exact .singleton _
  | cons x xs ih =>
    have htail : Linked next' prev' (xs ++ [y]) :=
      ih (List.IsChain.tail h) (fun z hz => hnext z (.tail _ hz))
        fun z hz => hprev z (List.mem_of_mem_tail hz)
    refine List.IsChain.cons htail fun z hz => ?_
    obtain ⟨h1, h2⟩ := List.IsChain.rel_head? h hz
    exact ⟨(hnext x (.head _)).trans h1, (hprev z (List.mem_of_mem_head? hz)).trans h2⟩

private theorem cons_eq_concat (s : α) (l : List α) : ∃ l', s :: l = l' ++ [l.getLastD s] := by
  rcases List.eq_nil_or_concat l with rfl | ⟨l', p, rfl⟩
  · exact ⟨[], rfl⟩
  · exact ⟨s :: l', by simp⟩

private theorem concat_eq_cons (s : α) (r : List α) : ∃ r', r ++ [s] = r.headD s :: r' := by
  cases r with
  | nil => exact ⟨[], rfl⟩
  | cons q r => exact ⟨r ++ [s], rfl⟩

/-- The two nodes around a segment are nodes of the ring. -/
theorem neighbours_mem : l.getLastD s ∈ s :: (l ++ r) ∧ r.headD s ∈ s :: (l ++ r) := by
  obtain ⟨l', hl⟩ := cons_eq_concat s l
  constructor
  · rw [← List.cons_append, hl]
    exact List.mem_append_left _ (List.mem_append_right _ (.head _))
  · cases r with
    | nil => exact .head _
    | cons q r => exact .tail _ (List.mem_append_right _ (.head _))

/-- A ring is the links up to a segment, those through it and those after it. -/
private theorem ring_split {l' r' : List α} (hl : s :: l = l' ++ [l.getLastD s])
    (hr : r ++ [s] = r.headD s :: r') :
    Ring next prev s (l ++ mid ++ r) ↔ Linked next prev (l' ++ [l.getLastD s]) ∧
      Linked next prev (l.getLastD s :: (mid ++ [r.headD s])) ∧
      Linked next prev (r.headD s :: r') := by
  have hring : s :: (l ++ mid ++ r ++ [s]) = l' ++ l.getLastD s :: (mid ++ r.headD s :: r') := by
    rw [List.append_assoc, List.append_assoc, hr, ← List.cons_append, hl, List.append_assoc]
    rfl
  unfold Ring Linked
  rw [hring, List.isChain_split, List.isChain_cons_split]

theorem Ring.linked_mid (h : Ring next prev s (l ++ mid ++ r)) :
    Linked next prev (l.getLastD s :: (mid ++ [r.headD s])) := by
  obtain ⟨l', hl⟩ := cons_eq_concat s l
  obtain ⟨r', hr⟩ := concat_eq_cons s r
  exact ((ring_split hl hr).mp h).2.1

/-- **Replacing a segment.** The links of the nodes outside the segment stay, except the `next` of
the node before it and the `prev` of the node after it. -/
theorem Ring.splice (h : Ring next prev s (l ++ mid ++ r)) (hnodup : (s :: (l ++ r)).Nodup)
    (hnext : ∀ y ∈ s :: (l ++ r), y ≠ l.getLastD s → next' y = next y)
    (hprev : ∀ y ∈ s :: (l ++ r), y ≠ r.headD s → prev' y = prev y)
    (hmid : Linked next' prev' (l.getLastD s :: (mid' ++ [r.headD s]))) :
    Ring next' prev' s (l ++ mid' ++ r) := by
  obtain ⟨l', hl⟩ := cons_eq_concat s l
  obtain ⟨r', hr⟩ := concat_eq_cons s r
  obtain ⟨hleft, -, hright⟩ := (ring_split hl hr).mp h
  have hnodupL : (l' ++ [l.getLastD s] ++ r).Nodup := by rw [← hl]; exact hnodup
  have hnodupR : (l ++ (r.headD s :: r')).Nodup := by
    rw [← hr, ← List.append_assoc]
    exact (List.perm_append_singleton s (l ++ r)).nodup_iff.mpr hnodup
  refine (ring_split hl hr).mpr ⟨hleft.congr (fun y hy => ?_) (fun y hy => ?_), hmid, ?_⟩
  · refine hnext y ?_ ?_
    · rw [← List.cons_append, hl]
      exact List.mem_append_left _ (List.mem_append_left _ hy)
    · rintro rfl
      exact (List.nodup_append.mp (List.nodup_append.mp hnodupL).1).2.2 _ hy _ (.head _) rfl
  · rw [← hl] at hy
    refine hprev y (.tail _ (List.mem_append_left _ hy)) ?_
    rintro rfl
    exact (List.nodup_append.mp hnodupR).2.2 _ hy _ (.head _) rfl
  · rw [← hr] at hright ⊢
    refine hright.congr (fun y hy => ?_) (fun y hy => ?_)
    · refine hnext y (.tail _ (List.mem_append_right _ hy)) ?_
      rintro rfl
      exact (List.nodup_append.mp hnodupL).2.2 _ (List.mem_append_right _ (.head _)) _ hy rfl
    · have hmem : y ∈ s :: (l ++ r) := by
        have : y ∈ r ++ [s] := List.mem_of_mem_tail hy
        rcases List.mem_append.mp this with h | h
        · exact .tail _ (List.mem_append_right _ h)
        · cases List.mem_singleton.mp h
          exact .head _
      refine hprev y hmem ?_
      rintro rfl
      rw [hr, List.tail_cons] at hy
      exact (List.nodup_cons.mp (List.nodup_append.mp hnodupR).2.1).1 hy

theorem Ring.next_eq (h : Ring next prev s (l ++ x :: r)) : next x = r.headD s := by
  have hmid : Linked next prev (l.getLastD s :: ([x] ++ [r.headD s])) :=
    Ring.linked_mid (by simpa using h)
  exact (List.isChain_cons_cons.mp (List.isChain_cons_cons.mp hmid).2).1.1

theorem Ring.prev_eq (h : Ring next prev s (l ++ x :: r)) : prev x = l.getLastD s := by
  have hmid : Linked next prev (l.getLastD s :: ([x] ++ [r.headD s])) :=
    Ring.linked_mid (by simpa using h)
  exact (List.isChain_cons_cons.mp hmid).1.2

theorem Ring.next_sentinel (h : Ring next prev s xs) : next s = xs.headD s := by
  have hmid : Linked next prev (s :: ([] ++ [xs.headD s])) := Ring.linked_mid (l := []) h
  exact (List.isChain_cons_cons.mp hmid).1.1

theorem Ring.prev_sentinel (h : Ring next prev s xs) : prev s = xs.getLastD s := by
  have hmid : Linked next prev (xs.getLastD s :: ([] ++ [s])) :=
    Ring.linked_mid (r := []) (by simpa using h)
  exact (List.isChain_cons_cons.mp hmid).1.2

/-- Links from `p` through `xs` to `s`, in terms of the neighbours of each node. -/
private theorem linked_of_neighbours {p : α} (hhead : next p = xs.headD s)
    (hlast : prev s = xs.getLastD p)
    (hlinks : ∀ l x r, xs = l ++ x :: r → next x = r.headD s ∧ prev x = l.getLastD p) :
    Linked next prev (p :: (xs ++ [s])) := by
  induction xs generalizing p with
  | nil => exact List.isChain_pair.mpr ⟨hhead, hlast⟩
  | cons x xs ih =>
    obtain ⟨hnext, hprev⟩ := hlinks [] x xs rfl
    refine List.isChain_cons_cons.mpr ⟨⟨hhead, hprev⟩, ih hnext (hlast.trans ?_) ?_⟩
    · exact List.getLastD_cons ..
    · rintro l y r rfl
      have := hlinks (x :: l) y r rfl
      rwa [List.getLastD_cons] at this

theorem ring_iff : Ring next prev s xs ↔ next s = xs.headD s ∧ prev s = xs.getLastD s ∧
    ∀ l x r, xs = l ++ x :: r → next x = r.headD s ∧ prev x = l.getLastD s := by
  refine ⟨fun h => ⟨h.next_sentinel, h.prev_sentinel, ?_⟩, fun ⟨hhead, hlast, hlinks⟩ =>
    linked_of_neighbours hhead hlast hlinks⟩
  rintro l x r rfl
  exact ⟨h.next_eq, h.prev_eq⟩

section Update
variable [DecidableEq α] {y : α}

/-- Take a segment out. -/
theorem Ring.cut (h : Ring next prev s (l ++ mid ++ r)) (hnodup : (s :: (l ++ r)).Nodup)
    (hnext : ∀ z ∈ s :: (l ++ r), next' z = if z = l.getLastD s then r.headD s else next z)
    (hprev : ∀ z ∈ s :: (l ++ r), prev' z = if z = r.headD s then l.getLastD s else prev z) :
    Ring next' prev' s (l ++ r) := by
  have hmem := neighbours_mem (s := s) (l := l) (r := r)
  have hres : Ring next' prev' s (l ++ [] ++ r) := h.splice hnodup
    (fun z hz hne => by rw [hnext z hz, if_neg hne])
    (fun z hz hne => by rw [hprev z hz, if_neg hne])
    (List.isChain_pair.mpr ⟨by rw [hnext _ hmem.1, if_pos rfl], by rw [hprev _ hmem.2, if_pos rfl]⟩)
  simpa using hres

/-- Put the node `y` in the place of a segment. -/
theorem Ring.put (h : Ring next prev s (l ++ mid ++ r)) (hnodup : (s :: (l ++ r)).Nodup)
    (hnext : ∀ z ∈ s :: (l ++ r), next' z = if z = l.getLastD s then y else next z)
    (hprev : ∀ z ∈ s :: (l ++ r), prev' z = if z = r.headD s then y else prev z)
    (hnextY : next' y = r.headD s) (hprevY : prev' y = l.getLastD s) :
    Ring next' prev' s (l ++ y :: r) := by
  have hmem := neighbours_mem (s := s) (l := l) (r := r)
  have hres : Ring next' prev' s (l ++ [y] ++ r) := h.splice hnodup
    (fun z hz hne => by rw [hnext z hz, if_neg hne])
    (fun z hz hne => by rw [hprev z hz, if_neg hne])
    (List.isChain_cons_cons.mpr ⟨⟨by rw [hnext _ hmem.1, if_pos rfl], hprevY⟩,
      List.isChain_pair.mpr ⟨hnextY, by rw [hprev _ hmem.2, if_pos rfl]⟩⟩)
  simpa using hres

end Update

end Theory
