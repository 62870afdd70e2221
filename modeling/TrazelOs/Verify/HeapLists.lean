import TrazelOs.Kernel.Heap
import TrazelOs.Theory.Ring
import Mathlib.Data.List.Perm.Subperm

/-! # The heap's block lists

The two lists of `heap.c` as lists of header addresses (`HeapLists`), and what the list functions
do to them: `removeMemoryBlockFromList_spec` and `replaceMemoryBlockInList_spec`, whichever list
the block is in and wherever in it. Both write the links of a block's two neighbours (`relink`),
where the null pointer stands for the static variables. -/

namespace TrazelOs
open Theory

section Fields
variable {m : Memory} {a b i j v : Nat}

/-- Headers are aligned, so a store to a field of one changes that field and no other. -/
theorem memoryBlockField_set (ha : 32 ∣ a) (hb : 32 ∣ b) (hi : i < 4) (hj : j < 4)
    (hv : v < 2 ^ 64) : memoryBlockField (setMemoryBlockField m a i v) b j =
      if b = a ∧ j = i then v else memoryBlockField m b j := by
  unfold memoryBlockField setMemoryBlockField
  split
  · rename_i h
    obtain ⟨rfl, rfl⟩ := h
    rw [ByteMemory.load_store_self]
    exact Nat.mod_eq_of_lt hv
  · exact ByteMemory.load_store_of_disjoint (by omega)

theorem memoryBlockField_set_of_ne (ha : 32 ∣ a) (hb : 32 ∣ b) (hi : i < 4) (hj : j < 4)
    (h : b ≠ a ∨ j ≠ i) :
    memoryBlockField (setMemoryBlockField m a i v) b j = memoryBlockField m b j :=
  ByteMemory.load_store_of_disjoint (by omega)

theorem blockSize_setBlockSize (ha : 32 ∣ a) (hb : 32 ∣ b) (hv : v < 2 ^ 64) :
    blockSize (setBlockSize m a v) b = if b = a then v else blockSize m b := by
  have h : blockSize (setBlockSize m a v) b = if b = a ∧ 0 = 0 then v else blockSize m b :=
    memoryBlockField_set ha hb (by decide) (by decide) hv
  exact h.trans (if_congr (and_iff_left rfl) rfl rfl)

theorem setMemoryBlockField_of_outside (hi : i < 4) (h : b < a ∨ a + 32 ≤ b) :
    setMemoryBlockField m a i v b = m b :=
  ByteMemory.store_of_disjoint (by omega)

theorem memoryBlockField_congr {m' : Memory} (h : ∀ c, a ≤ c → c < a + 32 → m' c = m c)
    (hi : i < 4) : memoryBlockField m' a i = memoryBlockField m a i :=
  ByteMemory.load_congr fun j hj => h _ (by omega) (by omega)

end Fields

/-- An address where a header may be, or null. -/
def IsHeader (a : Nat) : Prop := 32 ∣ a ∧ a < 2 ^ 64

/-- Address `b` lies in one of the headers `hs`. -/
def InHeaders (hs : List Nat) (b : Nat) : Prop := ∃ h ∈ hs, h ≤ b ∧ b < h + sizeofMemoryBlock

/-- The blocks `xs`, in this order, are linked in both directions from the head pointer on. -/
structure DoublyLinked (m : Memory) (head : Nat) (xs : List Nat) : Prop where
  nodup : (0 :: xs).Nodup
  head : head = xs.headD 0
  links : ∀ l x r, xs = l ++ x :: r → blockNext m x = r.headD 0 ∧ blockPrev m x = l.getLastD 0

/-! ## Links through the null pointer -/

/-- The `next` of a block, and for the null pointer the head of the list. -/
def nextVia (m : Memory) (head z : Nat) : Nat := if z = 0 then head else blockNext m z

/-- The `prev` of a block, and for the null pointer the tail of the list. -/
def prevVia (m : Memory) (tail z : Nat) : Nat := if z = 0 then tail else blockPrev m z

/-- Memory after the `next` of `p` became `a` and the `prev` of `q` became `b`, where these are
blocks. -/
def relink (m : Memory) (p a q b : Nat) : Memory :=
  let m := if p = 0 then m else setBlockNext m p a
  if q = 0 then m else setBlockPrev m q b

section Relink
variable {m : Memory} {p a q b z head tail : Nat}

theorem nextVia_relink (hp : IsHeader p) (hq : IsHeader q) (hz : IsHeader z) (ha : IsHeader a) :
    nextVia (relink m p a q b) (if p = 0 then a else head) z =
      if z = p then a else nextVia m head z := by
  unfold relink nextVia
  split_ifs <;> simp_all [IsHeader, memoryBlockField_set, memoryBlockField_set_of_ne]

theorem prevVia_relink (hp : IsHeader p) (hq : IsHeader q) (hz : IsHeader z) (hb : IsHeader b) :
    prevVia (relink m p a q b) (if q = 0 then b else tail) z =
      if z = q then b else prevVia m tail z := by
  unfold relink prevVia
  split_ifs <;> simp_all [IsHeader, memoryBlockField_set, memoryBlockField_set_of_ne]

theorem relink_of_outside {c : Nat} (hp : p ≠ 0 → c < p ∨ p + 32 ≤ c)
    (hq : q ≠ 0 → c < q ∨ q + 32 ≤ c) : relink m p a q b c = m c := by
  have hnext : (if p = 0 then m else setBlockNext m p a) c = m c := by
    split
    · rfl
    · exact setMemoryBlockField_of_outside (by decide) (hp ‹_›)
  by_cases hq0 : q = 0
  · simpa only [relink, if_pos hq0] using hnext
  · simp only [relink, if_neg hq0]
    exact (setMemoryBlockField_of_outside (by decide) (hq hq0)).trans hnext

/-- Only the links of `p` and `q` change. -/
theorem memoryBlockField_relink {j : Nat} (hp : IsHeader p) (hq : IsHeader q) (hz : 32 ∣ z)
    (hj : j < 4) (h : j = 0 ∨ j = 3 ∨ (z ≠ p ∧ z ≠ q)) :
    memoryBlockField (relink m p a q b) z j = memoryBlockField m z j := by
  have hnext : memoryBlockField (if p = 0 then m else setBlockNext m p a) z j =
      memoryBlockField m z j := by
    split
    · rfl
    · exact memoryBlockField_set_of_ne hp.1 hz (by decide) hj (by omega)
  by_cases hq0 : q = 0
  · simpa only [relink, if_pos hq0] using hnext
  · simp only [relink, if_neg hq0]
    exact (memoryBlockField_set_of_ne hq.1 hz (by decide) hj (by omega)).trans hnext

end Relink

namespace DoublyLinked

variable {m m' : Memory} {head head' tail : Nat} {xs l r : List Nat} {x y : Nat}

theorem ring (h : DoublyLinked m head xs) :
    Ring (nextVia m head) (prevVia m (xs.getLastD 0)) 0 xs := by
  refine ring_iff.mpr ⟨h.head, rfl, ?_⟩
  rintro l x r rfl
  have hx : x ≠ 0 := by
    rintro rfl
    exact (List.nodup_cons.mp h.nodup).1 (by simp)
  simpa [nextVia, prevVia, hx] using h.links l x r rfl

theorem of_ring (hnodup : (0 :: xs).Nodup) (h : Ring (nextVia m head) (prevVia m tail) 0 xs) :
    DoublyLinked m head xs ∧ tail = xs.getLastD 0 := by
  obtain ⟨hhead, htail, hlinks⟩ := ring_iff.mp h
  refine ⟨⟨hnodup, hhead, ?_⟩, htail⟩
  rintro l x r rfl
  have hx : x ≠ 0 := by
    rintro rfl
    exact (List.nodup_cons.mp hnodup).1 (by simp)
  simpa [nextVia, prevVia, hx] using hlinks l x r rfl

/-- The links of a list are fields of its own headers. -/
theorem congr (h : DoublyLinked m head xs) (hnext : ∀ x ∈ xs, blockNext m' x = blockNext m x)
    (hprev : ∀ x ∈ xs, blockPrev m' x = blockPrev m x) : DoublyLinked m' head xs := by
  refine ⟨h.nodup, h.head, ?_⟩
  rintro l x r rfl
  rw [hnext x (by simp), hprev x (by simp)]
  exact h.links l x r rfl

/-- Links of other blocks do not matter. -/
theorem relink_of_notMem (h : DoublyLinked m head xs) (hxs : ∀ z ∈ xs, IsHeader z) {p q a b : Nat}
    (hp : IsHeader p) (hq : IsHeader q) (hpn : p ∉ xs) (hqn : q ∉ xs) :
    DoublyLinked (relink m p a q b) head xs := by
  have hsame : ∀ z ∈ xs, ∀ j < 4, memoryBlockField (relink m p a q b) z j = memoryBlockField m z j :=
    fun z hz j hj => memoryBlockField_relink hp hq (hxs z hz).1 hj
      (.inr (.inr ⟨fun h => hpn (h ▸ hz), fun h => hqn (h ▸ hz)⟩))
  exact h.congr (fun z hz => hsame z hz 1 (by decide)) fun z hz => hsame z hz 2 (by decide)

theorem isHeader_getLastD (h : ∀ z ∈ l, IsHeader z) : IsHeader (l.getLastD 0) := by
  rcases List.eq_nil_or_concat l with rfl | ⟨l, p, rfl⟩
  · exact ⟨Nat.dvd_zero _, by decide⟩
  · simpa using h p (by simp)

theorem isHeader_headD (h : ∀ z ∈ r, IsHeader z) : IsHeader (r.headD 0) := by
  cases r with
  | nil => exact ⟨Nat.dvd_zero _, by decide⟩
  | cons q r => exact h q (.head _)

section Update
variable {mid : List Nat} (h : DoublyLinked m head (l ++ mid ++ r))
  (hheader : ∀ z ∈ l ++ r, IsHeader z)
include h hheader

theorem around : IsHeader (l.getLastD 0) ∧ IsHeader (r.headD 0) ∧
    (∀ z ∈ 0 :: (l ++ r), IsHeader z) ∧ (0 :: (l ++ r)).Nodup := by
  refine ⟨isHeader_getLastD fun z hz => hheader z (List.mem_append_left _ hz),
    isHeader_headD fun z hz => hheader z (List.mem_append_right _ hz), fun z hz => ?_, ?_⟩
  · rcases List.mem_cons.mp hz with rfl | hz
    · exact ⟨Nat.dvd_zero _, by decide⟩
    · exact hheader z hz
  · refine h.nodup.sublist (List.Sublist.cons_cons _ ?_)
    rw [List.append_assoc]
    exact (List.sublist_append_right mid r).append_left l

/-- Taking a segment out of a list. -/
theorem cut : DoublyLinked (relink m (l.getLastD 0) (r.headD 0) (r.headD 0) (l.getLastD 0))
      (if l.getLastD 0 = 0 then r.headD 0 else head) (l ++ r) ∧
    (if r.headD 0 = 0 then l.getLastD 0 else (l ++ mid ++ r).getLastD 0) = (l ++ r).getLastD 0 := by
  obtain ⟨hp, hq, hz, hnodup⟩ := h.around hheader
  exact of_ring hnodup (h.ring.cut hnodup (fun z hmem => nextVia_relink hp hq (hz z hmem) hq)
    fun z hmem => prevVia_relink hp hq (hz z hmem) hp)

/-- Putting a block that is in no list in the place of a segment. -/
theorem put (hy : IsHeader y) (hnew : y ∉ 0 :: (l ++ mid ++ r))
    (hm' : m' = setBlockPrev (setBlockNext m y (r.headD 0)) y (l.getLastD 0)) :
    DoublyLinked (relink m' (l.getLastD 0) y (r.headD 0) y)
        (if l.getLastD 0 = 0 then y else head) (l ++ y :: r) ∧
      (if r.headD 0 = 0 then y else (l ++ mid ++ r).getLastD 0) = (l ++ y :: r).getLastD 0 := by
  obtain ⟨hp, hq, hz, hnodup⟩ := h.around hheader
  have hy0 : y ≠ 0 := fun h => hnew (h ▸ .head _)
  have hsub : ∀ z ∈ 0 :: (l ++ r), z ∈ 0 :: (l ++ mid ++ r) := by
    intro z hz
    simp only [List.mem_cons, List.mem_append] at hz ⊢
    tauto
  have hne : ∀ z ∈ 0 :: (l ++ r), y ≠ z := fun z hz heq => hnew (heq ▸ hsub z hz)
  have hnodup' : (0 :: (l ++ y :: r)).Nodup :=
    ((List.perm_middle.cons 0).trans (List.Perm.swap ..)).nodup_iff.mpr
      (List.nodup_cons.mpr ⟨fun hmem => hne y hmem rfl, hnodup⟩)
  obtain ⟨hpmem, hqmem⟩ := neighbours_mem (s := 0) (l := l) (r := r)
  subst hm'
  refine of_ring hnodup' (h.ring.put hnodup (fun z hmem => ?_) (fun z hmem => ?_) ?_ ?_)
  · have hzy := (hne z hmem).symm
    rw [nextVia_relink hp hq (hz z hmem) hy]
    simp [nextVia, memoryBlockField_set_of_ne hy.1 (hz z hmem).1, hzy]
  · have hzy := (hne z hmem).symm
    rw [prevVia_relink hp hq (hz z hmem) hy]
    simp [prevVia, memoryBlockField_set_of_ne hy.1 (hz z hmem).1, hzy]
  · rw [nextVia_relink hp hq hy hy, if_neg (hne _ hpmem), nextVia, if_neg hy0]
    simp only [memoryBlockField_set hy.1 hy.1, hq.2, hp.2, Nat.reduceLT]
    simp
  · rw [prevVia_relink hp hq hy hy, if_neg (hne _ hqmem), prevVia, if_neg hy0]
    simp only [memoryBlockField_set hy.1 hy.1, hp.2, Nat.reduceLT, and_self, if_true]

end Update

end DoublyLinked

theorem DoublyLinked.neighbours {m : Memory} {head x : Nat} {l r : List Nat}
    (h : DoublyLinked m head (l ++ x :: r)) :
    x ≠ 0 ∧ (l.getLastD 0 = 0 → l = []) ∧ (r.headD 0 = 0 → r = []) ∧ x ≠ l.getLastD 0 := by
  have hnodup : (0 :: x :: (l ++ r)).Nodup := (List.perm_middle.cons 0).nodup_iff.mp h.nodup
  obtain ⟨h0, hrest⟩ := List.nodup_cons.mp hnodup
  have hx0 : x ≠ 0 := fun h => h0 (h ▸ .head _)
  refine ⟨hx0, fun hl => ?_, fun hr => ?_, fun hx => ?_⟩
  · rcases List.eq_nil_or_concat l with rfl | ⟨l, p, rfl⟩
    · rfl
    · exact absurd (by simp_all) h0
  · cases r with
    | nil => rfl
    | cons q r => exact absurd (by simp_all) h0
  · have hmem := (neighbours_mem (s := 0) (l := l) (r := r)).1
    rw [← hx] at hmem
    rcases List.mem_cons.mp hmem with h | h
    · exact hx0 h
    · exact (List.nodup_cons.mp hrest).1 h

/-- The head pointer is null only for the empty list, and so is the last block's address. -/
theorem DoublyLinked.eq_nil {m : Memory} {head : Nat} {xs : List Nat} (h : DoublyLinked m head xs)
    (h0 : head = 0 ∨ xs.getLastD 0 = 0) : xs = [] := by
  have hnot : 0 ∉ xs := (List.nodup_cons.mp h.nodup).1
  rcases h0 with h0 | h0
  · have hhead := h.head
    cases xs with
    | nil => rfl
    | cons x xs =>
      rw [List.headD_cons] at hhead
      exact absurd (hhead ▸ h0 ▸ .head _) hnot
  · rcases List.eq_nil_or_concat xs with rfl | ⟨l, p, rfl⟩
    · rfl
    · rw [List.concat_eq_append, List.getLastD_concat] at h0
      exact absurd (by simp [h0]) hnot

/-- The search visits the blocks in order and ends. -/
private theorem find_suffix {m : Memory} {head size : Nat} {xs : List Nat}
    (h : DoublyLinked m head xs) {l r : List Nat} (hxs : xs = l ++ r) {turns : Nat}
    (hturns : r.length < turns) : findBigEnoughBlock m size turns (r.headD 0) =
      .ok ((r.find? fun x => size ≤ blockSize m x).getD 0) := by
  induction r generalizing l turns with
  | nil =>
    obtain ⟨turns, rfl⟩ := Nat.exists_eq_succ_of_ne_zero (Nat.ne_of_gt hturns)
    rfl
  | cons x r ih =>
    obtain ⟨turns, rfl⟩ := Nat.exists_eq_succ_of_ne_zero (Nat.ne_zero_of_lt hturns)
    subst hxs
    have hx0 : x ≠ 0 := h.neighbours.1
    rw [findBigEnoughBlock, List.headD_cons, if_neg hx0, List.find?_cons]
    by_cases hfit : size ≤ blockSize m x
    · simp [hfit]
    · rw [if_neg hfit, (h.links l x r rfl).1]
      simpa [hfit] using ih (List.append_cons l x r) (Nat.lt_of_succ_lt_succ hturns)

theorem findBigEnoughBlock_spec {m : Memory} {head size : Nat} {xs : List Nat}
    (h : DoublyLinked m head xs) (hword : ∀ x ∈ xs, x < 2 ^ 64) :
    ∃ x, findBigEnoughBlock m size (2 ^ 64) head = .ok x ∧
      (x ≠ 0 → x ∈ xs ∧ size ≤ blockSize m x) := by
  have hlength : xs.length < 2 ^ 64 := by
    have hsub : 0 :: xs ⊆ List.range (2 ^ 64) := by
      intro x hx
      rcases List.mem_cons.mp hx with rfl | hx
      · exact List.mem_range.mpr (by decide)
      · exact List.mem_range.mpr (hword x hx)
    have hle := (h.nodup.subperm hsub).length_le
    rwa [List.length_cons, List.length_range] at hle
  have hfind : findBigEnoughBlock m size (2 ^ 64) (xs.headD 0) =
      .ok ((xs.find? fun x => size ≤ blockSize m x).getD 0) := find_suffix h (l := []) rfl hlength
  rw [← h.head] at hfind
  refine ⟨_, hfind, fun hne => ?_⟩
  cases hcase : xs.find? fun x => size ≤ blockSize m x with
  | none => simp [hcase] at hne
  | some x =>
    have hfit := List.find?_some hcase
    exact ⟨List.mem_of_find?_eq_some hcase, by simpa using hfit⟩

/-! ## The two lists of the heap -/

/-- The headers in `g_free_blocks` and in `g_super_blocks`. -/
structure HeapLists (k : Kernel σ) (free supers : List Nat) : Prop where
  freeLinked : DoublyLinked k.mem k.gFreeBlocks free
  freeTail : k.gFreeBlockTail = free.getLastD 0
  superLinked : DoublyLinked k.mem k.gSuperBlocks supers
  header : ∀ x ∈ free ++ supers, IsHeader x
  nodup : (free ++ supers).Nodup

/-- The lists are what the links of their blocks and the static variables say. -/
theorem HeapLists.congr {k k' : Kernel σ} {free supers : List Nat} (L : HeapLists k free supers)
    (hfree : k'.gFreeBlocks = k.gFreeBlocks) (htail : k'.gFreeBlockTail = k.gFreeBlockTail)
    (hsuper : k'.gSuperBlocks = k.gSuperBlocks)
    (hnext : ∀ z ∈ free ++ supers, blockNext k'.mem z = blockNext k.mem z)
    (hprev : ∀ z ∈ free ++ supers, blockPrev k'.mem z = blockPrev k.mem z) :
    HeapLists k' free supers := by
  refine ⟨?_, htail.trans L.freeTail, ?_, L.header, L.nodup⟩
  · rw [hfree]
    exact L.freeLinked.congr (fun z hz => hnext z (List.mem_append_left _ hz))
      fun z hz => hprev z (List.mem_append_left _ hz)
  · rw [hsuper]
    exact L.superLinked.congr (fun z hz => hnext z (List.mem_append_right _ hz))
      fun z hz => hprev z (List.mem_append_right _ hz)

theorem HeapLists.setBlockSize {k : Kernel σ} {free supers : List Nat} {a v : Nat}
    (L : HeapLists k free supers) (ha : 32 ∣ a) :
    HeapLists { k with mem := setBlockSize k.mem a v } free supers :=
  L.congr rfl rfl rfl
    (fun z hz => memoryBlockField_set_of_ne ha (L.header z hz).1 (by decide) (by decide)
      (.inr (by decide)))
    fun z hz => memoryBlockField_set_of_ne ha (L.header z hz).1 (by decide) (by decide)
      (.inr (by decide))

/-- The only bytes of memory that changed are in the headers `hs`, block sizes excepted. -/
structure OnlyLinks (hs : List Nat) (m m' : Memory) : Prop where
  size : ∀ a, 32 ∣ a → blockSize m' a = blockSize m a
  outside : ∀ b, ¬InHeaders hs b → m' b = m b

theorem OnlyLinks.append {hs hs' : List Nat} {m m' m'' : Memory} (h : OnlyLinks hs m m')
    (h' : OnlyLinks hs' m' m'') : OnlyLinks (hs ++ hs') m m'' := by
  refine ⟨fun a ha => (h'.size a ha).trans (h.size a ha), fun b hb => ?_⟩
  have hleft : ¬InHeaders hs b := fun ⟨x, hx, hxb⟩ => hb ⟨x, List.mem_append_left _ hx, hxb⟩
  have hright : ¬InHeaders hs' b := fun ⟨x, hx, hxb⟩ => hb ⟨x, List.mem_append_right _ hx, hxb⟩
  exact (h'.outside b hright).trans (h.outside b hleft)

theorem OnlyLinks.perm {hs hs' : List Nat} {m m' : Memory} (h : OnlyLinks hs m m')
    (hperm : hs.Perm hs') : OnlyLinks hs' m m' :=
  ⟨h.size, fun b hb => h.outside b fun ⟨x, hx, hxb⟩ => hb ⟨x, hperm.mem_iff.mp hx, hxb⟩⟩

theorem onlyLinks_relink {m : Memory} {p a q b : Nat} {hs : List Nat} (hp : IsHeader p)
    (hq : IsHeader q) (hpmem : p ∈ 0 :: hs) (hqmem : q ∈ 0 :: hs) :
    OnlyLinks hs m (relink m p a q b) := by
  refine ⟨fun z hz => memoryBlockField_relink hp hq hz (by decide) (.inl rfl), fun c hc => ?_⟩
  have hout : ∀ h ∈ 0 :: hs, h ≠ 0 → c < h ∨ h + 32 ≤ c := by
    intro h hmem hne
    have hin : h ∈ hs := (List.mem_cons.mp hmem).resolve_left hne
    by_contra hcon
    exact hc ⟨h, hin, by omega, by simp only [sizeofMemoryBlock]; omega⟩
  exact relink_of_outside (hout p hpmem) (hout q hqmem)

section
variable {k : Kernel σ} {free supers l r : List Nat} {x y : Nat}

/-- The heap's variables that its list functions leave alone. -/
def SamePages (k k' : Kernel σ) : Prop := k'.pmm = k.pmm ∧ k'.gHhdmOffset = k.gHhdmOffset

/-- A neighbour in one list is in no other. -/
private theorem notMem_other {xs ys : List Nat} {z : Nat} (h0 : 0 ∉ ys) (hnodup : (xs ++ ys).Nodup)
    (hz : z ∈ 0 :: xs) : z ∉ ys := by
  rcases List.mem_cons.mp hz with rfl | hz
  · exact h0
  · exact fun hy => (List.nodup_append.mp hnodup).2.2 z hz z hy rfl

/-- Memory after the links `p` and `q` were written to the header `y`. -/
def setLinks (m : Memory) (y p q : Nat) : Memory := setBlockPrev (setBlockNext m y q) y p

theorem memoryBlockField_setLinks {m : Memory} {p q z j : Nat} (hy : 32 ∣ y) (hz : 32 ∣ z)
    (hj : j < 4) (h : z ≠ y ∨ j = 0) :
    memoryBlockField (setLinks m y p q) z j = memoryBlockField m z j :=
  (memoryBlockField_set_of_ne hy hz (by decide) hj (by omega)).trans
    (memoryBlockField_set_of_ne hy hz (by decide) hj (by omega))

theorem onlyLinks_setLinks {m : Memory} {p q : Nat} (hy : 32 ∣ y) :
    OnlyLinks [y] m (setLinks m y p q) := by
  refine ⟨fun a ha => memoryBlockField_setLinks hy ha (by decide) (.inr rfl), fun b hb => ?_⟩
  have hout : b < y ∨ y + 32 ≤ b := by
    by_contra hcon
    exact hb ⟨y, .head _, by omega, by simp only [sizeofMemoryBlock]; omega⟩
  exact (setMemoryBlockField_of_outside (by decide) hout).trans
    (setMemoryBlockField_of_outside (by decide) hout)

section TwoLists
variable {m : Memory} {head head' : Nat} {mid ys : List Nat}
  (h : DoublyLinked m head (l ++ mid ++ r)) (h' : DoublyLinked m head' ys)
  (hheader : ∀ z ∈ l ++ mid ++ r ++ ys, IsHeader z) (hnodup : (l ++ mid ++ r ++ ys).Nodup)
include h' hheader hnodup

private theorem twoLists_around : (∀ z ∈ l ++ r, IsHeader z) ∧ (∀ z ∈ ys, IsHeader z) ∧
    l.getLastD 0 ∉ ys ∧ r.headD 0 ∉ ys ∧
    l.getLastD 0 ∈ 0 :: (l ++ mid ++ r ++ ys) ∧ r.headD 0 ∈ 0 :: (l ++ mid ++ r ++ ys) := by
  have hsub : (l ++ r ++ ys).Sublist (l ++ mid ++ r ++ ys) := by
    rw [List.append_assoc l mid r]
    exact ((List.sublist_append_right mid r).append_left l).append_right ys
  obtain ⟨hpmem, hqmem⟩ := neighbours_mem (s := 0) (l := l) (r := r)
  have hys : 0 ∉ ys := (List.nodup_cons.mp h'.nodup).1
  have hin : ∀ z ∈ 0 :: (l ++ r), z ∈ 0 :: (l ++ mid ++ r ++ ys) := fun z hz =>
    (hsub.cons_cons 0).subset (List.mem_append_left ys hz)
  exact ⟨fun z hz => hheader z (hsub.subset (List.mem_append_left _ hz)),
    fun z hz => hheader z (List.mem_append_right _ hz), notMem_other hys (hnodup.sublist hsub) hpmem,
    notMem_other hys (hnodup.sublist hsub) hqmem, hin _ hpmem, hin _ hqmem⟩

include h

theorem cut_lists {m' : Memory}
    (hm' : m' = relink m (l.getLastD 0) (r.headD 0) (r.headD 0) (l.getLastD 0)) :
    DoublyLinked m' (if l.getLastD 0 = 0 then r.headD 0 else head) (l ++ r) ∧
      (if r.headD 0 = 0 then l.getLastD 0 else (l ++ mid ++ r).getLastD 0) = (l ++ r).getLastD 0 ∧
      DoublyLinked m' head' ys ∧ OnlyLinks (l ++ mid ++ r ++ ys) m m' := by
  obtain ⟨hlr, hys, hpn, hqn, hpmem, hqmem⟩ := twoLists_around h' hheader hnodup
  obtain ⟨hp, hq, -, -⟩ := h.around hlr
  obtain ⟨hcut, htail⟩ := h.cut hlr
  subst hm'
  exact ⟨hcut, htail, h'.relink_of_notMem hys hp hq hpn hqn, onlyLinks_relink hp hq hpmem hqmem⟩

theorem put_lists {m' : Memory} (hy : IsHeader y) (hnew : y ∉ 0 :: (l ++ mid ++ r ++ ys))
    (hm' : m' = relink (setLinks m y (l.getLastD 0) (r.headD 0)) (l.getLastD 0) y (r.headD 0) y) :
    DoublyLinked m' (if l.getLastD 0 = 0 then y else head) (l ++ y :: r) ∧
      (if r.headD 0 = 0 then y else (l ++ mid ++ r).getLastD 0) = (l ++ y :: r).getLastD 0 ∧
      DoublyLinked m' head' ys ∧ OnlyLinks (y :: (l ++ mid ++ r ++ ys)) m m' := by
  obtain ⟨hlr, hys, hpn, hqn, hpmem, hqmem⟩ := twoLists_around h' hheader hnodup
  obtain ⟨hp, hq, -, -⟩ := h.around hlr
  have hnewLR : y ∉ 0 :: (l ++ mid ++ r) := fun hmem => hnew (List.mem_append_left ys hmem)
  obtain ⟨hput, htail⟩ := h.put hlr hy hnewLR rfl
  have hyys : y ∉ ys := fun hmem => hnew (.tail _ (List.mem_append_right _ hmem))
  have hother : DoublyLinked (setLinks m y (l.getLastD 0) (r.headD 0)) head' ys :=
    h'.congr (fun z hz => memoryBlockField_setLinks hy.1 (hys z hz).1 (by decide)
        (.inl fun h => hyys (h ▸ hz)))
      fun z hz => memoryBlockField_setLinks hy.1 (hys z hz).1 (by decide)
        (.inl fun h => hyys (h ▸ hz))
  subst hm'
  exact ⟨hput, htail, hother.relink_of_notMem hys hp hq hpn hqn,
    (onlyLinks_setLinks hy.1).append (onlyLinks_relink hp hq hpmem hqmem)⟩

end TwoLists

/-- What the function does, with the four stores of the source as one `relink`. -/
private theorem remove_eq {p q : Nat} (hprev : blockPrev k.mem x = p) (hnext : blockNext k.mem x = q)
    (hx : 32 ∣ x) (hp : 32 ∣ p) (hxp : x ≠ p) :
    removeMemoryBlockFromList k x =
      if p = 0 then
        if x = k.gFreeBlocks then
          .ok { k with
            mem := relink k.mem p q q p, gFreeBlocks := q
            gFreeBlockTail := if q = 0 then p else k.gFreeBlockTail }
        else if x = k.gSuperBlocks then
          .ok { k with mem := relink k.mem p q q p, gSuperBlocks := q }
        else .error (.panic "Unknown memory block")
      else
        .ok { k with
          mem := relink k.mem p q q p
          gFreeBlockTail := if q = 0 ∧ x = k.gFreeBlockTail then p else k.gFreeBlockTail } := by
  have hnext' : blockNext (setBlockNext k.mem p q) x = q :=
    (memoryBlockField_set_of_ne hp hx (by decide) (by decide) (.inl hxp)).trans hnext
  have hprev' : blockPrev (setBlockNext k.mem p q) x = p :=
    (memoryBlockField_set_of_ne hp hx (by decide) (by decide) (.inl hxp)).trans hprev
  simp only [removeMemoryBlockFromList, hprev, hnext, hnext', hprev', relink]
  by_cases hp0 : p = 0
  · subst hp0
    simp only [if_true]
    by_cases hfree : x = k.gFreeBlocks
    · rw [← hfree]
      simp only [if_true, hnext]
      by_cases hq0 : q = 0 <;> simp [hq0]
    · rw [if_neg hfree, if_neg hfree]
      by_cases hsuper : x = k.gSuperBlocks
      · rw [← hsuper]
        simp only [if_true, hnext]
        by_cases hq0 : q = 0 <;> simp [hq0]
      · rw [if_neg hsuper, if_neg hsuper]
  · simp only [if_neg hp0]
    by_cases hq0 : q = 0
    · by_cases htail : x = k.gFreeBlockTail <;> simp [hq0, htail]
    · simp [hq0]

/-- The static variables that name a block of the free list. -/
private theorem HeapLists.free_pointers (L : HeapLists k (l ++ x :: r) supers) :
    (l.getLastD 0 = 0 → x = k.gFreeBlocks) ∧ (r.headD 0 = 0 → x = k.gFreeBlockTail) := by
  obtain ⟨-, hl, hr, -⟩ := L.freeLinked.neighbours
  refine ⟨fun h => ?_, fun h => ?_⟩
  · rw [L.freeLinked.head, hl h]
    rfl
  · rw [L.freeTail, hr h]
    simp

/-- The static variables that name a super block. -/
private theorem HeapLists.super_pointers (L : HeapLists k free (l ++ x :: r)) :
    (l.getLastD 0 = 0 → x = k.gSuperBlocks) ∧ x ≠ k.gFreeBlocks ∧ x ≠ k.gFreeBlockTail := by
  obtain ⟨hx0, hl, -, -⟩ := L.superLinked.neighbours
  have hxfree : x ∉ 0 :: free := fun h => by
    rcases List.mem_cons.mp h with h | h
    · exact hx0 h
    · exact (List.nodup_append.mp L.nodup).2.2 x h x (by simp) rfl
  refine ⟨fun h => ?_, ?_, ?_⟩
  · rw [L.superLinked.head, hl h]
    rfl
  · rintro rfl
    rw [L.freeLinked.head] at hxfree
    exact hxfree (neighbours_mem (s := 0) (l := []) (r := free)).2
  · rintro rfl
    rw [L.freeTail] at hxfree
    exact hxfree (by simpa using (neighbours_mem (s := 0) (l := free) (r := [])).1)

theorem removeMemoryBlockFromList_spec (L : HeapLists k free supers) (hx : x ∈ free ++ supers) :
    ∃ k' free' supers', removeMemoryBlockFromList k x = .ok k' ∧ HeapLists k' free' supers' ∧
      (x :: (free' ++ supers')).Perm (free ++ supers) ∧
      OnlyLinks (free ++ supers) k.mem k'.mem ∧ SamePages k k' := by
  have hx32 := (L.header x hx).1
  rcases List.mem_append.mp hx with hmem | hmem
  · obtain ⟨l, r, rfl⟩ := List.append_of_mem hmem
    obtain ⟨hnext, hprev⟩ := L.freeLinked.links l x r rfl
    obtain ⟨-, -, -, hxp⟩ := L.freeLinked.neighbours
    obtain ⟨hhead, htail⟩ := L.free_pointers
    have hp : IsHeader (l.getLastD 0) := DoublyLinked.isHeader_getLastD fun z hz =>
      L.header z (List.mem_append_left _ (List.mem_append_left _ hz))
    have hperm : (x :: (l ++ r ++ supers)).Perm (l ++ x :: r ++ supers) :=
      List.perm_middle.symm.append_right supers
    have hheader : ∀ z ∈ l ++ r ++ supers, IsHeader z :=
      fun z hz => L.header z (hperm.mem_iff.mp (.tail _ hz))
    have hnodup : (l ++ r ++ supers).Nodup := (List.nodup_cons.mp (hperm.nodup_iff.mpr L.nodup)).2
    rw [remove_eq hprev hnext hx32 hp.1 hxp]
    rw [List.append_cons] at L hperm ⊢
    obtain ⟨hcut, hlast, hother, hlinks⟩ :=
      cut_lists L.freeLinked L.superLinked L.header L.nodup rfl
    rw [← L.freeTail] at hlast
    by_cases hp0 : l.getLastD 0 = 0
    · rw [if_pos hp0] at hcut ⊢
      rw [if_pos (hhead hp0)]
      exact ⟨_, l ++ r, supers, rfl, ⟨hcut, hlast, hother, hheader, hnodup⟩, hperm, hlinks, rfl, rfl⟩
    · rw [if_neg hp0] at hcut ⊢
      refine ⟨_, l ++ r, supers, rfl, ⟨hcut, ?_, hother, hheader, hnodup⟩, hperm, hlinks, rfl, rfl⟩
      rw [← hlast]
      by_cases hq0 : r.headD 0 = 0
      · rw [if_pos hq0, if_pos ⟨hq0, htail hq0⟩]
      · rw [if_neg hq0, if_neg fun h => hq0 h.1]
  · obtain ⟨l, r, rfl⟩ := List.append_of_mem hmem
    obtain ⟨hnext, hprev⟩ := L.superLinked.links l x r rfl
    obtain ⟨-, -, -, hxp⟩ := L.superLinked.neighbours
    obtain ⟨hhead, hfree, htail⟩ := L.super_pointers
    have hp : IsHeader (l.getLastD 0) := DoublyLinked.isHeader_getLastD fun z hz =>
      L.header z (List.mem_append_right _ (List.mem_append_left _ hz))
    have hperm : (x :: (free ++ (l ++ r))).Perm (free ++ (l ++ x :: r)) :=
      List.perm_middle.symm.trans (List.perm_middle.symm.append_left free)
    have hheader : ∀ z ∈ free ++ (l ++ r), IsHeader z :=
      fun z hz => L.header z (hperm.mem_iff.mp (.tail _ hz))
    have hnodup : (free ++ (l ++ r)).Nodup := (List.nodup_cons.mp (hperm.nodup_iff.mpr L.nodup)).2
    rw [remove_eq hprev hnext hx32 hp.1 hxp]
    rw [List.append_cons l] at L hperm ⊢
    obtain ⟨hcut, -, hother, hlinks⟩ := cut_lists L.superLinked L.freeLinked
      (fun z hz => L.header z (List.perm_append_comm.mem_iff.mp hz))
      (List.perm_append_comm.nodup_iff.mp L.nodup) rfl
    have hlinks' : OnlyLinks (free ++ (l ++ [x] ++ r)) k.mem _ := hlinks.perm List.perm_append_comm
    by_cases hp0 : l.getLastD 0 = 0
    · rw [if_pos hp0] at hcut ⊢
      rw [if_neg hfree, if_pos (hhead hp0)]
      exact ⟨_, free, l ++ r, rfl, ⟨hother, L.freeTail, hcut, hheader, hnodup⟩, hperm, hlinks', rfl,
        rfl⟩
    · rw [if_neg hp0] at hcut ⊢
      rw [if_neg fun h => htail h.2]
      exact ⟨_, free, l ++ r, rfl, ⟨hother, L.freeTail, hcut, hheader, hnodup⟩, hperm, hlinks', rfl,
        rfl⟩

private theorem replace_eq {p q : Nat} (hprev : blockPrev k.mem x = p) (hnext : blockNext k.mem x = q)
    (hx : 32 ∣ x) (hy : 32 ∣ y) (hp : IsHeader p) (hq : IsHeader q) (hxy : x ≠ y) (hyp : y ≠ p) :
    replaceMemoryBlockInList k x y =
      if p = 0 ∧ x ≠ k.gFreeBlocks ∧ x ≠ k.gSuperBlocks then .error (.panic "Unknown memory block")
      else .ok { k with
        mem := relink (setLinks k.mem y p q) p y q y
        gFreeBlocks := if p = 0 ∧ x = k.gFreeBlocks then y else k.gFreeBlocks
        gSuperBlocks := if p = 0 ∧ x ≠ k.gFreeBlocks then y else k.gSuperBlocks
        gFreeBlockTail := if q = 0 ∧ x = k.gFreeBlockTail then y else k.gFreeBlockTail } := by
  have hprev' : blockPrev (setBlockNext k.mem y q) x = p :=
    (memoryBlockField_set_of_ne hy hx (by decide) (by decide) (.inl hxy)).trans hprev
  have hcopy : setBlockPrev (setBlockNext k.mem y (blockNext k.mem x)) y
      (blockPrev (setBlockNext k.mem y (blockNext k.mem x)) x) = setLinks k.mem y p q := by
    rw [hnext, hprev', setLinks]
  have hprevY : blockPrev (setLinks k.mem y p q) y = p :=
    (memoryBlockField_set hy hy (by decide) (by decide) hp.2).trans (if_pos ⟨rfl, rfl⟩)
  have hnextY : blockNext (setLinks k.mem y p q) y = q := by
    simp only [setLinks, memoryBlockField_set hy hy, hp.2, hq.2, Nat.reduceLT]
    simp
  have hnextY' : blockNext (setBlockNext (setLinks k.mem y p q) p y) y = q :=
    (memoryBlockField_set_of_ne hp.1 hy (by decide) (by decide) (.inl hyp)).trans hnextY
  simp only [replaceMemoryBlockInList, hcopy, relink]
  clear hcopy hprev' hprev hnext
  generalize setLinks k.mem y p q = m at *
  clear hx hy hp hq hxy
  by_cases hp0 : p = 0
  · subst hp0
    by_cases hfree : x = k.gFreeBlocks
    · by_cases hq0 : q = 0 <;> by_cases htail : x = k.gFreeBlockTail <;> simp_all
    · by_cases hsuper : x = k.gSuperBlocks
      · by_cases hq0 : q = 0 <;> by_cases htail : x = k.gFreeBlockTail <;> simp_all
      · simp [hprevY, hfree, hsuper, throw, throwThe, MonadExceptOf.throw]
  · by_cases hq0 : q = 0 <;> by_cases htail : x = k.gFreeBlockTail <;> simp_all

/-- A new block takes the place of a segment of the free list. -/
theorem HeapLists.putFree {mid : List Nat} (L : HeapLists k (l ++ mid ++ r) supers)
    (hy : IsHeader y) (hnew : y ∉ 0 :: (l ++ mid ++ r ++ supers)) {k' : Kernel σ}
    (hk' : k' = { k with
      mem := relink (setLinks k.mem y (l.getLastD 0) (r.headD 0)) (l.getLastD 0) y (r.headD 0) y
      gFreeBlocks := if l.getLastD 0 = 0 then y else k.gFreeBlocks
      gFreeBlockTail := if r.headD 0 = 0 then y else k.gFreeBlockTail }) :
    HeapLists k' (l ++ y :: r) supers ∧
      OnlyLinks (y :: (l ++ mid ++ r ++ supers)) k.mem k'.mem := by
  obtain ⟨hput, hlast, hother, hlinks⟩ :=
    put_lists L.freeLinked L.superLinked L.header L.nodup hy hnew rfl
  rw [← L.freeTail] at hlast
  have hsub : (l ++ r ++ supers).Sublist (l ++ mid ++ r ++ supers) := by
    rw [List.append_assoc l mid r]
    exact ((List.sublist_append_right mid r).append_left l).append_right supers
  have hperm : (l ++ y :: r ++ supers).Perm (y :: (l ++ r ++ supers)) :=
    List.perm_middle.append_right supers
  subst hk'
  refine ⟨⟨hput, hlast, hother, fun z hz => ?_, hperm.nodup_iff.mpr ?_⟩, hlinks⟩
  · rcases List.mem_cons.mp (hperm.mem_iff.mp hz) with rfl | hz
    · exact hy
    · exact L.header z (hsub.subset hz)
  · exact List.nodup_cons.mpr ⟨fun h => hnew (.tail _ (hsub.subset h)), L.nodup.sublist hsub⟩

/-- A new block takes the place of a segment of the super blocks. -/
theorem HeapLists.putSuper {mid : List Nat} (L : HeapLists k free (l ++ mid ++ r))
    (hy : IsHeader y) (hnew : y ∉ 0 :: (free ++ (l ++ mid ++ r))) {k' : Kernel σ}
    (hk' : k' = { k with
      mem := relink (setLinks k.mem y (l.getLastD 0) (r.headD 0)) (l.getLastD 0) y (r.headD 0) y
      gSuperBlocks := if l.getLastD 0 = 0 then y else k.gSuperBlocks }) :
    HeapLists k' free (l ++ y :: r) ∧
      OnlyLinks (y :: (free ++ (l ++ mid ++ r))) k.mem k'.mem := by
  have hcomm : (l ++ mid ++ r ++ free).Perm (free ++ (l ++ mid ++ r)) := List.perm_append_comm
  obtain ⟨hput, -, hother, hlinks⟩ := put_lists L.superLinked L.freeLinked
    (fun z hz => L.header z (hcomm.mem_iff.mp hz)) (hcomm.nodup_iff.mpr L.nodup) hy
    (fun h => hnew ((hcomm.cons 0).mem_iff.mp h)) rfl
  have hsub : (free ++ (l ++ r)).Sublist (free ++ (l ++ mid ++ r)) := by
    rw [List.append_assoc l mid r]
    exact ((List.sublist_append_right mid r).append_left l).append_left free
  have hperm : (free ++ (l ++ y :: r)).Perm (y :: (free ++ (l ++ r))) :=
    (List.perm_middle.append_left free).trans List.perm_middle
  subst hk'
  refine ⟨⟨hother, L.freeTail, hput, fun z hz => ?_, hperm.nodup_iff.mpr ?_⟩,
    hlinks.perm (hcomm.cons y)⟩
  · rcases List.mem_cons.mp (hperm.mem_iff.mp hz) with rfl | hz
    · exact hy
    · exact L.header z (hsub.subset hz)
  · exact List.nodup_cons.mpr ⟨fun h => hnew (.tail _ (hsub.subset h)), L.nodup.sublist hsub⟩

theorem replaceMemoryBlockInList_spec (L : HeapLists k free supers) (hx : x ∈ free ++ supers)
    (hy : IsHeader y) (hnew : y ∉ 0 :: (free ++ supers)) :
    ∃ k' free' supers', replaceMemoryBlockInList k x y = .ok k' ∧ HeapLists k' free' supers' ∧
      (x :: (free' ++ supers')).Perm (y :: (free ++ supers)) ∧
      OnlyLinks (y :: (free ++ supers)) k.mem k'.mem ∧ SamePages k k' := by
  have hx32 := (L.header x hx).1
  have hxy : x ≠ y := fun h => hnew (.tail _ (h ▸ hx))
  rcases List.mem_append.mp hx with hmem | hmem
  · obtain ⟨l, r, rfl⟩ := List.append_of_mem hmem
    obtain ⟨hnext, hprev⟩ := L.freeLinked.links l x r rfl
    obtain ⟨hhead, htail⟩ := L.free_pointers
    have hp : IsHeader (l.getLastD 0) := DoublyLinked.isHeader_getLastD fun z hz =>
      L.header z (List.mem_append_left _ (List.mem_append_left _ hz))
    have hq : IsHeader (r.headD 0) := DoublyLinked.isHeader_headD fun z hz =>
      L.header z (List.mem_append_left _ (List.mem_append_right _ (.tail _ hz)))
    have hyp : y ≠ l.getLastD 0 := fun h => hnew <| by
      have := (neighbours_mem (s := 0) (l := l) (r := x :: r ++ supers)).1
      rwa [h, List.append_assoc]
    have hperm : (x :: (l ++ y :: r ++ supers)).Perm (y :: (l ++ x :: r ++ supers)) :=
      ((List.perm_middle.append_right supers).cons x).trans
        ((List.Perm.swap ..).trans ((List.perm_middle.append_right supers).symm.cons y))
    have hfree : (l.getLastD 0 = 0 ∧ x = k.gFreeBlocks) ↔ l.getLastD 0 = 0 :=
      ⟨And.left, fun h => ⟨h, hhead h⟩⟩
    have hnotSuper : ¬(l.getLastD 0 = 0 ∧ x ≠ k.gFreeBlocks) := fun h => h.2 (hhead h.1)
    have hlast : (r.headD 0 = 0 ∧ x = k.gFreeBlockTail) ↔ r.headD 0 = 0 :=
      ⟨And.left, fun h => ⟨h, htail h⟩⟩
    rw [replace_eq hprev hnext hx32 hy.1 hp hq hxy hyp, if_neg fun h => hnotSuper ⟨h.1, h.2.1⟩]
    simp only [hfree, hlast, if_neg hnotSuper]
    rw [List.append_cons l x] at L hnew hperm ⊢
    obtain ⟨hlists, hlinks⟩ := L.putFree hy hnew rfl
    exact ⟨_, l ++ y :: r, supers, rfl, hlists, hperm, hlinks, rfl, rfl⟩
  · obtain ⟨l, r, rfl⟩ := List.append_of_mem hmem
    obtain ⟨hnext, hprev⟩ := L.superLinked.links l x r rfl
    obtain ⟨hhead, hnotFree, hnotTail⟩ := L.super_pointers
    have hp : IsHeader (l.getLastD 0) := DoublyLinked.isHeader_getLastD fun z hz =>
      L.header z (List.mem_append_right _ (List.mem_append_left _ hz))
    have hq : IsHeader (r.headD 0) := DoublyLinked.isHeader_headD fun z hz =>
      L.header z (List.mem_append_right _ (List.mem_append_right _ (.tail _ hz)))
    have hyp : y ≠ l.getLastD 0 := fun h => hnew <| by
      have := (neighbours_mem (s := 0) (l := l) (r := x :: r)).1
      rw [← h] at this
      exact ((List.sublist_append_right free _).cons_cons 0).subset this
    have hperm : (x :: (free ++ (l ++ y :: r))).Perm (y :: (free ++ (l ++ x :: r))) := by
      have hmid : ∀ z, (free ++ (l ++ z :: r)).Perm (z :: (free ++ (l ++ r))) := fun z =>
        (List.perm_middle.append_left free).trans List.perm_middle
      exact ((hmid y).cons x).trans ((List.Perm.swap ..).trans ((hmid x).symm.cons y))
    have hsuper : (l.getLastD 0 = 0 ∧ x ≠ k.gFreeBlocks) ↔ l.getLastD 0 = 0 :=
      ⟨And.left, fun h => ⟨h, hnotFree⟩⟩
    rw [replace_eq hprev hnext hx32 hy.1 hp hq hxy hyp, if_neg fun h => h.2.2 (hhead h.1)]
    simp only [hsuper, hnotFree, hnotTail, and_false, if_false]
    rw [List.append_cons l x] at L hnew hperm ⊢
    obtain ⟨hlists, hlinks⟩ := L.putSuper hy hnew rfl
    exact ⟨_, free, l ++ y :: r, rfl, hlists, hperm, hlinks, rfl, rfl⟩

end
end TrazelOs
