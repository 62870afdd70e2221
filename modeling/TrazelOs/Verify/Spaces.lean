import TrazelOs.Verify.SpaceView

/-! # Independent memories

The heap and the address spaces of all processes lie in one memory, on pages that one bitmap hands
out. What their users see are separate memories: an operation on one of them changes that one and no
other. `Memories.Step` says what each operation does to the separate memories, and
`MemoryInv.step` that the heap, the physical and the virtual memory manager do this, in any order of
operations. -/

namespace TrazelOs

/-! ## The separate memories -/

/-- The cells of every address space and the bytes of every block. -/
structure Memories where
  spaces : Nat → Option (Nat → Option Cell)
  blocks : Nat → Option (Nat → Option Byte)

/-- An operation of the memory managers, or a store of user code, with the block or the address
space that it makes. -/
inductive MemoryOp
  | kmalloc (size block : Nat)
  | kfree (block : Nat)
  | write (block offset : Nat) (byte : Byte)
  | create (space : Nat)
  | map (space vaddr flags : Nat)
  | clone (space newSpace : Nat)
  | delete (space : Nat)
  | reload (space : Nat)
  | store (space vaddr : Nat) (byte : Byte)
deriving Repr, DecidableEq

namespace Memories

def none : Memories := ⟨fun _ => .none, fun _ => .none⟩

def setSpace (A : Memories) (g : Nat) (S : Option (Nat → Option Cell)) : Memories :=
  { A with spaces := Function.update A.spaces g S }

def setBlock (A : Memories) (x : Nat) (B : Option (Nat → Option Byte)) : Memories :=
  { A with blocks := Function.update A.blocks x B }

/-- The page of `vaddr` has the bytes, with the rights in `flags`. -/
def mapPage (S : Nat → Option Cell) (vaddr flags : Nat) (bytes : Nat → Byte) : Nat → Option Cell :=
  fun v =>
    if v / regularPageSize = vaddr / regularPageSize then
      some ⟨bytes v, flagWritablePage flags, flagUserAccessible flags⟩
    else S v

/-- What an operation does. The bytes of a new block and of a new page are any bytes. -/
inductive Step (A : Memories) : MemoryOp → Memories → Prop
  | kmalloc {size x : Nat} {B : Nat → Option Byte} : A.blocks x = .none →
    (∀ j < size, (B j).isSome) → Step A (.kmalloc size x) (A.setBlock x (some B))
  | kfree {x : Nat} {B : Nat → Option Byte} : A.blocks x = some B →
    Step A (.kfree x) (A.setBlock x .none)
  | write {x j : Nat} {byte : Byte} {B : Nat → Option Byte} : A.blocks x = some B →
    (B j).isSome → Step A (.write x j byte) (A.setBlock x (some (Function.update B j (some byte))))
  | create {g : Nat} : A.spaces g = .none →
    Step A (.create g) (A.setSpace g (some fun _ => .none))
  | map {g vaddr flags : Nat} {S : Nat → Option Cell} (bytes : Nat → Byte) : A.spaces g = some S →
    flagOverridePage flags = true ∨ S vaddr = .none →
    Step A (.map g vaddr flags) (A.setSpace g (some (mapPage S vaddr flags bytes)))
  | mapped {g vaddr flags : Nat} {S : Nat → Option Cell} : A.spaces g = some S →
    flagOverridePage flags = false → S vaddr ≠ .none → Step A (.map g vaddr flags) A
  | clone {g g' : Nat} {S : Nat → Option Cell} : A.spaces g = some S → A.spaces g' = .none →
    Step A (.clone g g') (A.setSpace g' (some S))
  | delete {g : Nat} {S : Nat → Option Cell} : A.spaces g = some S →
    Step A (.delete g) (A.setSpace g .none)
  | reload {g : Nat} {S : Nat → Option Cell} : A.spaces g = some S → Step A (.reload g) A
  | store {g v : Nat} {byte old : Byte} {S : Nat → Option Cell} : A.spaces g = some S →
    S v = some ⟨old, true, true⟩ →
    Step A (.store g v byte) (A.setSpace g (some (Function.update S v (some ⟨byte, true, true⟩))))

inductive Run : Memories → List MemoryOp → Memories → Prop
  | nil {A : Memories} : Run A [] A
  | cons {A B C : Memories} {op : MemoryOp} {ops : List MemoryOp} : Step A op B → Run B ops C →
    Run A (op :: ops) C

end Memories

/-! ## The shared memory -/

/-- The kernel with its live blocks and the topmost tables of the address spaces. -/
structure MemoryState where
  kernel : Kernel Pmm
  live : List Nat
  spaces : List Nat

/-- An operation that returns. A block is its header, 32 bytes before the pointer that `kmalloc`
returns; a copy of an address space needs as many free pages as it has. -/
inductive MemoryStep : MemoryState → MemoryOp → MemoryState → Prop
  | kmalloc {k k' : Kernel Pmm} {live gs : List Nat} {size x : Nat} : 1 ≤ size → size ≤ 2 ^ 63 →
    heapPages size ≤ k.pmm.pageCount → kernelMemory.kmalloc k size = .ok (x + 32, k') →
    MemoryStep ⟨k, live, gs⟩ (.kmalloc size x) ⟨k', x :: live, gs⟩
  | kfree {k k' : Kernel Pmm} {live gs : List Nat} {x : Nat} : x ∈ live →
    kernelMemory.kfree k (x + 32) = .ok k' →
    MemoryStep ⟨k, live, gs⟩ (.kfree x) ⟨k', live.erase x, gs⟩
  | write {k k' : Kernel Pmm} {live gs : List Nat} {x j : Nat} {byte : Byte} : x ∈ live →
    j < blockSize k.mem x → kernelMemory.store k (.kernel (x + 32 + j)) [byte] = .ok k' →
    MemoryStep ⟨k, live, gs⟩ (.write x j byte) ⟨k', live, gs⟩
  | create {k k' : Kernel Pmm} {live gs : List Nat} {g : Nat} :
    kernelMemory.vmmCreateNewPagemap k = .ok (pageAt k g, k') →
    MemoryStep ⟨k, live, gs⟩ (.create g) ⟨k', live, g :: gs⟩
  | map {k k₁ k' : Kernel Pmm} {live gs : List Nat} {g vaddr flags page : Nat} {r : Int} : g ∈ gs →
    vaddr < lowerHalfEnd → kernelMemory.pmmAllocPage k = .ok (page, k₁) → page ≠ 0 →
    kernelMemory.vmmMapPage k₁ (pageAt k g) vaddr page flags = .ok (r, k') →
    MemoryStep ⟨k, live, gs⟩ (.map g vaddr flags) ⟨k', live, gs⟩
  | clone {k k' : Kernel Pmm} {live gs : List Nat} {g g' : Nat} : g ∈ gs →
    (spaceFrames k g).length ≤ k.pmm.freePages.card →
    kernelMemory.vmmClonePagemap k (pageAt k g) = .ok (pageAt k g', k') →
    MemoryStep ⟨k, live, gs⟩ (.clone g g') ⟨k', live, g' :: gs⟩
  | delete {k k' : Kernel Pmm} {live gs : List Nat} {g : Nat} : g ∈ gs →
    kernelMemory.vmmDeletePagemap k (pageAt k g) = .ok k' →
    MemoryStep ⟨k, live, gs⟩ (.delete g) ⟨k', live, gs.erase g⟩
  | reload {k : Kernel Pmm} {live gs : List Nat} {g : Nat} : g ∈ gs →
    MemoryStep ⟨k, live, gs⟩ (.reload g) ⟨kernelMemory.vmmReloadCr3 k (pageAt k g), live, gs⟩
  | store {k k' : Kernel Pmm} {live gs : List Nat} {g vaddr : Nat} {byte : Byte} : g ∈ gs →
    vmmGetCurrPagemap k = pageAt k g → kernelMemory.userStore k vaddr byte = .ok k' →
    MemoryStep ⟨k, live, gs⟩ (.store g vaddr byte) ⟨k', live, gs⟩

inductive MemoryRun : MemoryState → List MemoryOp → MemoryState → Prop
  | nil {st : MemoryState} : MemoryRun st [] st
  | cons {st₁ st₂ st₃ : MemoryState} {op : MemoryOp} {ops : List MemoryOp} : MemoryStep st₁ op st₂ →
    MemoryRun st₂ ops st₃ → MemoryRun st₁ (op :: ops) st₃

/-! ## What is seen of the shared memory -/

/-- `f`, at the addresses in `l` only. -/
def seenAt (l : List Nat) (f : Nat → α) (a : Nat) : Option α := if a ∈ l then some (f a) else none

section SeenAt
variable {l : List Nat} {f f' : Nat → α} {a : Nat}

theorem seenAt_of_mem (h : a ∈ l) : seenAt l f a = some (f a) := if_pos h

theorem seenAt_of_notMem (h : a ∉ l) : seenAt l f a = none := if_neg h

theorem seenAt_congr (h : ∀ b ∈ l, f' b = f b) : seenAt l f' = seenAt l f := by
  funext b
  by_cases hb : b ∈ l
  · rw [seenAt_of_mem hb, seenAt_of_mem hb, h b hb]
  · rw [seenAt_of_notMem hb, seenAt_of_notMem hb]

/-- A change at one of the addresses. -/
theorem seenAt_set (ha : a ∈ l) (h : ∀ b ∈ l, b ≠ a → f' b = f b) :
    seenAt l f' = Function.update (seenAt l f) a (some (f' a)) := by
  funext b
  by_cases hne : b = a
  · subst hne
    rw [Function.update_self, seenAt_of_mem ha]
  · rw [Function.update_of_ne hne]
    by_cases hb : b ∈ l
    · rw [seenAt_of_mem hb, seenAt_of_mem hb, h b hb hne]
    · rw [seenAt_of_notMem hb, seenAt_of_notMem hb]

theorem seenAt_cons (ha : a ∉ l) (h : ∀ b ∈ l, f' b = f b) :
    seenAt (a :: l) f' = Function.update (seenAt l f) a (some (f' a)) := by
  funext b
  by_cases hne : b = a
  · subst hne
    rw [Function.update_self, seenAt_of_mem (.head _)]
  · rw [Function.update_of_ne hne]
    by_cases hb : b ∈ l
    · rw [seenAt_of_mem hb, seenAt_of_mem (.tail _ hb), h b hb]
    · rw [seenAt_of_notMem hb, seenAt_of_notMem (fun h => hb (List.mem_of_ne_of_mem hne h))]

theorem seenAt_erase (hl : l.Nodup) (h : ∀ b ∈ l, b ≠ a → f' b = f b) :
    seenAt (l.erase a) f' = Function.update (seenAt l f) a none := by
  funext b
  by_cases hne : b = a
  · subst hne
    rw [Function.update_self, seenAt_of_notMem fun h => (hl.mem_erase_iff.mp h).1 rfl]
  · rw [Function.update_of_ne hne]
    by_cases hb : b ∈ l
    · rw [seenAt_of_mem hb, seenAt_of_mem (hl.mem_erase_iff.mpr ⟨hne, hb⟩), h b hb hne]
    · rw [seenAt_of_notMem hb, seenAt_of_notMem fun h => hb (hl.mem_erase_iff.mp h).2]

end SeenAt

/-- The bytes of a block of the heap. -/
def payload (k : Kernel Pmm) (x j : Nat) : Option Byte :=
  if j < blockSize k.mem x then some (k.mem (x + sizeofMemoryBlock + j)) else none

def MemoryState.view (st : MemoryState) : Memories where
  spaces := seenAt st.spaces (cell st.kernel)
  blocks := seenAt st.live (payload st.kernel)

/-! ## The address spaces -/

/-- No two address spaces have a page in common. -/
structure Spaces (k : Kernel Pmm) (gs : List Nat) : Prop where
  tree : ∀ g ∈ gs, UserTree k 4 g
  nodup : gs.Nodup
  apart : ∀ g ∈ gs, ∀ g' ∈ gs, g ≠ g' → ∀ f ∈ spaceFrames k g, f ∉ spaceFrames k g'

namespace Spaces
variable {k k' : Kernel Pmm} {gs : List Nat} {g f : Nat}

theorem kept (S : Spaces k gs) (h : ∀ g ∈ gs, Kept k k' g) : Spaces k' gs where
  tree g hg := (h g hg).tree
  nodup := S.nodup
  apart g hg g' hg' hne f hf := by
    rw [(h g hg).frames] at hf
    rw [(h g' hg').frames]
    exact S.apart g hg g' hg' hne f hf

/-- A space on pages that no other has. -/
theorem add (S : Spaces k gs) (h : ∀ g ∈ gs, Kept k k' g) (T : UserTree k' 4 g)
    (hnew : ∀ g' ∈ gs, ∀ f ∈ spaceFrames k' g, f ∉ spaceFrames k g') :
    g ∉ gs ∧ Spaces k' (g :: gs) := by
  have S' := S.kept h
  have hnew' : ∀ g' ∈ gs, ∀ f ∈ spaceFrames k' g, f ∉ spaceFrames k' g' := by
    intro g' hg' f hf
    rw [(h g' hg').frames]
    exact hnew g' hg' f hf
  have hg : g ∉ gs := fun hg => hnew g hg g (.head _) (.head _)
  refine ⟨hg, ?_, List.nodup_cons.mpr ⟨hg, S.nodup⟩, ?_⟩
  · intro g' hg'
    rcases List.mem_cons.mp hg' with rfl | hg'
    · exact T
    · exact S'.tree g' hg'
  · intro g₁ hg₁ g₂ hg₂ hne f hf
    rcases List.mem_cons.mp hg₁ with rfl | h₁
    · exact hnew' g₂ (List.mem_of_ne_of_mem (Ne.symm hne) hg₂) f hf
    · rcases List.mem_cons.mp hg₂ with rfl | h₂
      · exact fun hf' => hnew' g₁ h₁ f hf' hf
      · exact S'.apart g₁ h₁ g₂ h₂ hne f hf

/-- A space that takes pages no other has. -/
theorem change (S : Spaces k gs) (h : ∀ g' ∈ gs, g' ≠ g → Kept k k' g') (T : UserTree k' 4 g)
    (hnew : ∀ g' ∈ gs, g' ≠ g → ∀ f ∈ spaceFrames k' g, f ∉ spaceFrames k g') : Spaces k' gs where
  tree g' hg' := by
    by_cases hne : g' = g
    · exact hne ▸ T
    · exact (h g' hg' hne).tree
  nodup := S.nodup
  apart g₁ hg₁ g₂ hg₂ hne f hf := by
    by_cases h₁ : g₁ = g
    · subst h₁
      rw [(h g₂ hg₂ (Ne.symm hne)).frames]
      exact hnew g₂ hg₂ (Ne.symm hne) f hf
    · rw [(h g₁ hg₁ h₁).frames] at hf
      by_cases h₂ : g₂ = g
      · subst h₂
        exact fun hf' => hnew g₁ hg₁ h₁ f hf' hf
      · rw [(h g₂ hg₂ h₂).frames]
        exact S.apart g₁ hg₁ g₂ hg₂ hne f hf

theorem remove (S : Spaces k gs) (h : ∀ g' ∈ gs, g' ≠ g → Kept k k' g') :
    Spaces k' (gs.erase g) where
  tree g' hg' := by
    obtain ⟨hne, hg'⟩ := S.nodup.mem_erase_iff.mp hg'
    exact (h g' hg' hne).tree
  nodup := S.nodup.erase g
  apart g₁ hg₁ g₂ hg₂ hne f hf := by
    obtain ⟨h₁, hg₁⟩ := S.nodup.mem_erase_iff.mp hg₁
    obtain ⟨h₂, hg₂⟩ := S.nodup.mem_erase_iff.mp hg₂
    rw [(h g₁ hg₁ h₁).frames] at hf
    rw [(h g₂ hg₂ h₂).frames]
    exact S.apart g₁ hg₁ g₂ hg₂ hne f hf

end Spaces

/-! ## The heap beside the address spaces -/

section Heap
variable {count offset x : Nat} {base : Nat → Prop} {k k' : Kernel Pmm} {live live' : List Nat}
  {g f b t : Nat}

theorem payload_congr (hsize : blockSize k'.mem x = blockSize k.mem x)
    (h : ∀ b, InPayload k.mem x b → k'.mem b = k.mem b) : payload k' x = payload k x := by
  funext j
  rw [payload, payload, hsize]
  split
  · rename_i hj
    rw [h _ ⟨Nat.le_add_right .., Nat.add_lt_add_left hj _⟩]
  · rfl

theorem HeapKeeps.payload_eq (h : HeapKeeps offset base live k k') (hx : x ∈ live) :
    TrazelOs.payload k' x = TrazelOs.payload k x :=
  payload_congr (h.size x hx) (h.payload x hx)

namespace KernelHeap

theorem direct (D : DirectMapFits count offset) (h : KernelHeap count offset base k live) :
    DirectMap k := by
  obtain ⟨held, free, supers, -, hheld⟩ := h.heap
  refine ⟨hheld.offset_eq.trans h.offset_eq.symm, ?_, ?_⟩
  · rw [hheld.pageCount_eq, h.offset_eq]
    exact D.word
  · rw [hheld.pageCount_eq]
    exact D.pages

theorem layout (h : KernelHeap count offset base k live) (h' : KernelHeap count offset base k' live') :
    SameLayout k k' := by
  obtain ⟨held, free, supers, -, hheld⟩ := h.heap
  obtain ⟨held', free', supers', -, hheld'⟩ := h'.heap
  exact ⟨h'.offset_eq.trans h.offset_eq.symm, hheld'.pageCount_eq.trans hheld.pageCount_eq.symm,
    hheld'.offset_eq.trans hheld.offset_eq.symm⟩

theorem used (h : KernelHeap count offset base k live) (hf : base f) (hlt : f < k.pmm.pageCount) :
    k.pmm.used f = true := by
  obtain ⟨held, free, supers, -, hheld⟩ := h.heap
  exact (hheld.used f (hheld.pageCount_eq ▸ hlt)).mpr (.inl hf)

theorem null (h : KernelHeap count offset base k live) (hlt : 0 < k.pmm.pageCount) :
    k.pmm.used 0 = true := by
  obtain ⟨held, free, supers, -, hheld⟩ := h.heap
  exact h.used hheld.null hlt

theorem frameBytes (h : KernelHeap count offset base k live) (hf : base f)
    (hb : InPage (pageAt k f) b) : FrameBytes offset base b :=
  ⟨f, hf, by rwa [← h.offset_eq]⟩

/-- The blocks lie on the heap's own pages. -/
theorem payload_eq (h : KernelHeap count offset base k live)
    (hm : ∀ b, ¬FrameBytes offset base b → k'.mem b = k.mem b) (hx : x ∈ live) :
    payload k' x = payload k x := by
  obtain ⟨held, free, supers, H, hheld⟩ := h.heap
  obtain ⟨r, hr, hlo, hhi⟩ := H.extent (List.mem_append_right _ hx)
  have hmem : ∀ b, x ≤ b → b < x + blockExtent k.mem x → k'.mem b = k.mem b := by
    intro b hxb hbx
    apply hm
    rintro ⟨f, hf, hin⟩
    exact hheld.not_inPages hf hin ⟨r, hr, hlo.trans hxb, Nat.lt_of_lt_of_le hbx hhi⟩
  have hextent : 32 ≤ blockExtent k.mem x := Nat.le_add_right ..
  apply payload_congr
  · apply Theory.ByteMemory.load_congr
    intro i hi
    exact hmem _ (by omega) (by omega)
  · intro b hb
    apply hmem b (Nat.le_of_add_right_le hb.1)
    rw [blockExtent, ← Nat.add_assoc]
    exact hb.2

/-- What the heap does on its own pages leaves the address spaces alone. -/
theorem kept (h : KernelHeap count offset base k live) (h' : KernelHeap count offset base k' live')
    (hm : ∀ b, FrameBytes offset base b → k'.mem b = k.mem b) (T : UserTree k 4 g)
    (hbase : ∀ f ∈ spaceFrames k g, base f) : Kept k k' g := by
  have L := h.layout h'
  apply T.kept L
  · intro f hf b hb
    exact hm b (h.frameBytes (hbase f hf) hb)
  · intro f hf
    exact h'.used (hbase f hf) (L.pageCount ▸ T.frame_lt hf)

/-- Free pages are taken, and they and one other page that is not the heap's are written. -/
theorem grown {new : List Nat} (h : KernelHeap count offset base k live) (G : Grown k k' t new)
    (ht : ∃ f, (base f ∨ f ∈ new) ∧ t = pageAt k f) :
    KernelHeap count offset (fun f => base f ∨ f ∈ new) k' live ∧
      ∀ x ∈ live, payload k' x = payload k x := by
  have h₁ := h.claim G.fresh
  have hm : ∀ b, ¬FrameBytes offset (fun f => base f ∨ f ∈ new) b → k'.mem b = k.mem b := by
    intro b hb
    obtain ⟨f, hf, rfl⟩ := ht
    apply G.mem b
    · exact fun hin => hb (h₁.frameBytes hf hin)
    · exact fun f hf hin => hb (h₁.frameBytes (.inr hf) hin)
  refine ⟨?_, fun x hx => ?_⟩
  · rw [G.globals]
    exact h₁.writeFrames hm
  · exact h₁.payload_eq hm hx

/-- Pages that are not the heap's are written and given back. -/
theorem freed {tables : Nat → Prop} {frames : List Nat} (h : KernelHeap count offset base k live)
    (F : Freed k k' tables frames) (ht : ∀ t, tables t → ∃ f, base f ∧ t = pageAt k f)
    (hframes : ∀ f ∈ frames, base f ∧ f ≠ 0) :
    KernelHeap count offset (fun f => base f ∧ f ∉ frames) k' live ∧
      ∀ x ∈ live, payload k' x = payload k x := by
  have hm : ∀ b, ¬FrameBytes offset base b → k'.mem b = k.mem b := by
    intro b hb
    apply F.mem b
    intro t htab hin
    obtain ⟨f, hf, rfl⟩ := ht t htab
    exact hb (h.frameBytes hf hin)
  refine ⟨?_, fun x hx => h.payload_eq hm hx⟩
  rw [F.globals]
  exact (h.writeFrames hm).unclaim hframes

end KernelHeap

/-- What is built on free pages leaves the address spaces on other pages alone. -/
theorem UserTree.kept_grown {new : List Nat} (T : UserTree k 4 g) (G : Grown k k' (pageAt k t) new)
    (ht : t ∉ spaceFrames k g) : Kept k k' g := by
  apply T.kept G.layout
  · intro f hf b hb
    apply G.mem b
    · intro hin
      exact ht (inPage_inj hin hb ▸ hf)
    · intro f' hf' hin
      have hfree := (G.fresh f' hf').2
      rw [inPage_inj hin hb, T.frame_used hf] at hfree
      cases hfree
  · exact fun f hf => G.used (T.frame_used hf)

end Heap

/-! ## Every operation on its own -/

/-- The heap and the address spaces share no page. -/
structure Backed (count offset : Nat) (base : Nat → Prop) (st : MemoryState) : Prop where
  heap : KernelHeap count offset base st.kernel st.live
  owned : ∀ g ∈ st.spaces, ∀ f ∈ spaceFrames st.kernel g, base f ∧ f ≠ 0
  spaces : Spaces st.kernel st.spaces

structure MemoryInv (count offset : Nat) (st : MemoryState) : Prop where
  fits : DirectMapFits count offset
  backed : ∃ base, Backed count offset base st

section Steps
variable {count offset size x j g g' f vaddr page flags : Nat} {byte : Byte} {base : Nat → Prop}
  {k k' : Kernel Pmm} {live live' gs : List Nat}

theorem spaces_seen (h : ∀ g ∈ gs, Kept k k' g) : seenAt gs (cell k') = seenAt gs (cell k) :=
  seenAt_congr fun g hg => (h g hg).cell

namespace Backed

/-- An operation of the heap. -/
theorem heapOp (B : Backed count offset base ⟨k, live, gs⟩)
    (h : KernelHeap count offset base k' live')
    (hm : ∀ b, FrameBytes offset base b → k'.mem b = k.mem b) :
    Backed count offset base ⟨k', live', gs⟩ ∧ seenAt gs (cell k') = seenAt gs (cell k) := by
  have hkept : ∀ g ∈ gs, Kept k k' g := fun g hg =>
    B.heap.kept h hm (B.spaces.tree g hg) fun f hf => (B.owned g hg f hf).1
  refine ⟨⟨h, fun g hg f hf => ?_, B.spaces.kept hkept⟩, spaces_seen hkept⟩
  rw [(hkept g hg).frames] at hf
  exact B.owned g hg f hf

/-- A new block. -/
theorem served (B : Backed count offset base ⟨k, live, gs⟩)
    (h : KernelHeap count offset base k' (x :: live)) (hkeeps : HeapKeeps offset base live k k') :
    Backed count offset base ⟨k', x :: live, gs⟩ ∧ x ∉ live ∧
      MemoryState.view ⟨k', x :: live, gs⟩ =
        (MemoryState.view ⟨k, live, gs⟩).setBlock x (some (payload k' x)) := by
  obtain ⟨held, free, supers, H, -⟩ := h.heap
  obtain ⟨B', hspaces⟩ := B.heapOp h hkeeps.frames
  have hx : x ∉ live := (List.nodup_cons.mp (List.nodup_append.mp H.nodup).2.1).1
  refine ⟨B', hx, ?_⟩
  rw [MemoryState.view, MemoryState.view, Memories.setBlock, hspaces,
    seenAt_cons hx fun y hy => hkeeps.payload_eq hy]

theorem kmalloc (D : DirectMapFits count offset) (B : Backed count offset base ⟨k, live, gs⟩)
    (hpos : 1 ≤ size) (hle : size ≤ 2 ^ 63) (hpages : heapPages size ≤ k.pmm.pageCount)
    (hret : TrazelOs.kmalloc pmmBitmap k size = .ok (x + 32, k')) :
    Backed count offset base ⟨k', x :: live, gs⟩ ∧
      Memories.Step (MemoryState.view ⟨k, live, gs⟩) (.kmalloc size x)
        (MemoryState.view ⟨k', x :: live, gs⟩) := by
  obtain ⟨held, free, supers, H, hheld⟩ := B.heap.heap
  obtain ⟨x', held', free', supers', hx, H', hheld', hframe, hsize, hoffset⟩ :=
    H.kmalloc_spec (pmmBitmap_lawful D) hheld hpos hle (hheld.pageCount_eq ▸ hpages) hret
  obtain rfl := Nat.add_right_cancel hx
  obtain ⟨B', hx, hview⟩ := B.served
    ⟨hoffset.trans B.heap.offset_eq, held', free', supers', H', hheld'⟩ (.of_frame H hheld hheld' hframe)
  refine ⟨B', ?_⟩
  rw [hview]
  apply Memories.Step.kmalloc
  · exact seenAt_of_notMem hx
  · intro j hj
    rw [payload, if_pos (Nat.lt_of_lt_of_le hj hsize)]
    rfl

/-- A block is given back. -/
theorem released (B : Backed count offset base ⟨k, live, gs⟩)
    (h : KernelHeap count offset base k' (live.erase x)) (hkeeps : HeapKeeps offset base live k k') :
    Backed count offset base ⟨k', live.erase x, gs⟩ ∧ MemoryState.view ⟨k', live.erase x, gs⟩ =
      (MemoryState.view ⟨k, live, gs⟩).setBlock x none := by
  obtain ⟨B', hspaces⟩ := B.heapOp h hkeeps.frames
  obtain ⟨held, free, supers, H, -⟩ := B.heap.heap
  refine ⟨B', ?_⟩
  rw [MemoryState.view, MemoryState.view, Memories.setBlock, hspaces,
    seenAt_erase (List.nodup_append.mp H.nodup).2.1 fun y hy _ => hkeeps.payload_eq hy]

theorem kfree (D : DirectMapFits count offset) (B : Backed count offset base ⟨k, live, gs⟩)
    (hx : x ∈ live) (hret : TrazelOs.kfree pmmBitmap k (x + 32) = .ok k') :
    Backed count offset base ⟨k', live.erase x, gs⟩ ∧
      Memories.Step (MemoryState.view ⟨k, live, gs⟩) (.kfree x)
        (MemoryState.view ⟨k', live.erase x, gs⟩) := by
  obtain ⟨k'', hret', h', hkeeps, -⟩ := B.heap.kfree D hx
  obtain rfl := Except.ok.inj (hret.symm.trans hret')
  obtain ⟨B', hview⟩ := B.released h' hkeeps
  refine ⟨B', ?_⟩
  rw [hview]
  exact .kfree (seenAt_of_mem hx)

end Backed

/-- A write to one payload leaves the headers and the other payloads alone. -/
theorem HeapInv.write_payload {held : List (Nat × Nat)} {free supers : List Nat} {m : Memory}
    (H : HeapInv k held live free supers) (hx : x ∈ live)
    (hm : ∀ b, ¬InPayload k.mem x b → m b = k.mem b) :
    (∀ y ∈ live, blockSize m y = blockSize k.mem y) ∧
      ∀ y ∈ live, y ≠ x → payload { k with mem := m } y = payload k y := by
  have hsize : ∀ y ∈ live, blockSize m y = blockSize k.mem y := by
    intro y hy
    apply Theory.ByteMemory.load_congr
    intro i hi
    apply hm
    intro hin
    refine H.not_inHeaders (List.mem_append_right _ hx) hin.1 ?_
      ⟨y, List.mem_append_right _ hy, by omega, by simp only [sizeofMemoryBlock]; omega⟩
    rw [blockExtent, ← Nat.add_assoc]
    exact hin.2
  refine ⟨hsize, fun y hy hyx => payload_congr (hsize y hy) fun b hb => hm b fun hin => ?_⟩
  have hd := H.tiles.disjoint x y (List.mem_append_right _ hx) (List.mem_append_right _ hy)
    (Ne.symm hyx)
  simp only [InPayload, blockExtent] at hb hin hd
  omega

/-- A block is written. -/
theorem Backed.writeBlock {m : Memory} (B : Backed count offset base ⟨k, live, gs⟩) (hx : x ∈ live)
    (hm : ∀ b, ¬InPayload k.mem x b → m b = k.mem b) :
    Backed count offset base ⟨{ k with mem := m }, live, gs⟩ ∧
      blockSize m x = blockSize k.mem x ∧ MemoryState.view ⟨{ k with mem := m }, live, gs⟩ =
        (MemoryState.view ⟨k, live, gs⟩).setBlock x (some (payload { k with mem := m } x)) := by
  obtain ⟨held, free, supers, H, hheld⟩ := B.heap.heap
  obtain ⟨hsize, hpayload⟩ := H.write_payload hx hm
  obtain ⟨B', hspaces⟩ := B.heapOp (B.heap.writePayload hx hm) (by
    rintro b ⟨f, hf, hb⟩
    apply hm
    intro hin
    obtain ⟨r, hr, hlo, hhi⟩ := H.extent (List.mem_append_right _ hx)
    apply hheld.not_inPages hf hb
    simp only [InPayload, blockExtent] at hin hhi
    exact ⟨r, hr, by omega, by omega⟩)
  refine ⟨B', hsize x hx, ?_⟩
  rw [MemoryState.view, MemoryState.view, Memories.setBlock, hspaces, seenAt_set hx hpayload]

theorem KernelHeap.payload_lt (h : KernelHeap count offset base k live) (hx : x ∈ live) :
    x + 32 + blockSize k.mem x ≤ 2 ^ 64 := by
  obtain ⟨held, free, supers, H, -⟩ := h.heap
  have hlt := (H.extent_lt (List.mem_append_right _ hx)).2
  simp only [blockExtent, sizeofMemoryBlock] at hlt
  omega

theorem storeBytes_singleton {m : Memory} {a : Nat} (ha : a < 2 ^ 64) :
    storeBytes m a [byte] = m.set a byte := by
  funext b
  by_cases hb : b = a
  · subst hb
    rw [Theory.ByteMemory.set_self, storeBytes, if_pos ⟨ha, by unfold u64Sub u64; simp; omega⟩,
      show u64Sub b (u64 b) = 0 by unfold u64Sub u64; omega]
    rfl
  · rw [Theory.ByteMemory.set_of_ne hb, storeBytes, if_neg]
    rintro ⟨hlt, hsub⟩
    rw [List.length_singleton] at hsub
    unfold u64Sub u64 at hsub
    omega

theorem payload_set (hj : j < blockSize k.mem x)
    (hsize : blockSize (k.mem.set (x + 32 + j) byte) x = blockSize k.mem x) :
    payload { k with mem := k.mem.set (x + 32 + j) byte } x =
      Function.update (payload k x) j (some byte) := by
  funext i
  rw [payload]
  dsimp only
  rw [hsize]
  by_cases hij : i = j
  · subst hij
    rw [Function.update_self, if_pos hj, sizeofMemoryBlock, Theory.ByteMemory.set_self]
  · rw [Function.update_of_ne hij, Theory.ByteMemory.set_of_ne (by rw [sizeofMemoryBlock]; omega)]
    rfl

theorem Backed.write (B : Backed count offset base ⟨k, live, gs⟩) (hx : x ∈ live)
    (hj : j < blockSize k.mem x)
    (hret : kernelMemory.store k (.kernel (x + 32 + j)) [byte] = .ok k') :
    Backed count offset base ⟨k', live, gs⟩ ∧
      Memories.Step (MemoryState.view ⟨k, live, gs⟩) (.write x j byte)
        (MemoryState.view ⟨k', live, gs⟩) := by
  have hlt := B.heap.payload_lt hx
  obtain rfl := Except.ok.inj hret
  dsimp only at hlt
  simp only [storeBytes_singleton (show x + 32 + j < 2 ^ 64 by omega)]
  obtain ⟨B', hsize, hview⟩ := B.writeBlock (m := k.mem.set (x + 32 + j) byte) hx fun b hb =>
    Theory.ByteMemory.set_of_ne fun heq => hb (by
      simp only [InPayload, sizeofMemoryBlock]
      omega)
  refine ⟨B', ?_⟩
  rw [hview, payload_set hj hsize]
  apply Memories.Step.write (seenAt_of_mem hx)
  rw [payload, if_pos hj]
  rfl

/-! An address space is made on free pages. -/

theorem Grown.ne_null {new : List Nat} {t : Nat} (h : KernelHeap count offset base k live)
    (G : Grown k k' t new) (hf : f ∈ new) : f ≠ 0 := by
  rintro rfl
  obtain ⟨hlt, hfree⟩ := G.fresh 0 hf
  rw [h.null hlt] at hfree
  cases hfree

theorem Backed.add {new : List Nat} (B : Backed count offset base ⟨k, live, gs⟩)
    (G : Grown k k' (pageAt k g) new) (hg : g ∈ new) (T : UserTree k' 4 g)
    (hframes : ∀ f ∈ spaceFrames k' g, f ∈ new) :
    (∃ base, Backed count offset base ⟨k', live, g :: gs⟩) ∧ g ∉ gs ∧
      MemoryState.view ⟨k', live, g :: gs⟩ =
        (MemoryState.view ⟨k, live, gs⟩).setSpace g (some (cell k' g)) := by
  have hfresh : ∀ g' ∈ gs, ∀ f ∈ new, f ∉ spaceFrames k g' := by
    intro g' hg' f hf hf'
    have hfree := (G.fresh f hf).2
    rw [(B.spaces.tree g' hg').frame_used hf'] at hfree
    cases hfree
  have hkept : ∀ g' ∈ gs, Kept k k' g' := fun g' hg' =>
    (B.spaces.tree g' hg').kept_grown G (hfresh g' hg' g hg)
  obtain ⟨h', hpayload⟩ := B.heap.grown G ⟨g, .inr hg, rfl⟩
  obtain ⟨hmem, S'⟩ := B.spaces.add hkept T fun g' hg' f hf => hfresh g' hg' f (hframes f hf)
  refine ⟨⟨_, h', fun g' hg' f hf => ?_, S'⟩, hmem, ?_⟩
  · rcases List.mem_cons.mp hg' with rfl | hg'
    · exact ⟨.inr (hframes f hf), G.ne_null B.heap (hframes f hf)⟩
    · dsimp only at hf
      rw [(hkept g' hg').frames] at hf
      obtain ⟨hbase, hne⟩ := B.owned g' hg' f hf
      exact ⟨.inl hbase, hne⟩
  · rw [MemoryState.view, MemoryState.view, Memories.setSpace, seenAt_congr hpayload,
      seenAt_cons hmem fun g' hg' => (hkept g' hg').cell]

theorem Grown.newPagemap (D : DirectMap k) (hf : f < k.pmm.pageCount) (hfree : k.pmm.used f = false) :
    Grown k (newPagemap k f) (pageAt k f) [f] where
  globals := rfl
  fresh f' hf' := by
    obtain rfl := List.mem_singleton.mp hf'
    exact ⟨hf, hfree⟩
  nodup := List.nodup_singleton f
  mem b hb _ := newPagemap_mem D hf hb

/-- A new address space has no page. -/
theorem cell_newPagemap (T : UserTree (newPagemap k f) 4 f) : cell (newPagemap k f) f = fun _ => none := by
  funext v
  by_cases hv : v < 2 ^ 47
  · apply cell_of_none
    cases h : translate (newPagemap k f) (pageAt (newPagemap k f) f) v with
    | none => rfl
    | some m =>
      obtain ⟨hne, -⟩ := T.plain.walk_entry hv h
      exact absurd (newPagemap_entry (virtualAddrIndex_lt_levelEntries 4 hv)) hne
  · exact cell_of_ge (Nat.le_of_not_lt hv)

theorem Backed.create (D : DirectMapFits count offset) (B : Backed count offset base ⟨k, live, gs⟩)
    (hret : vmmCreateNewPagemap k = .ok (pageAt k g, k')) :
    (∃ base, Backed count offset base ⟨k', live, g :: gs⟩) ∧
      Memories.Step (MemoryState.view ⟨k, live, gs⟩) (.create g)
        (MemoryState.view ⟨k', live, g :: gs⟩) := by
  have hdirect : DirectMap k := B.heap.direct D
  obtain ⟨f, hf, hfree, hroot, rfl⟩ := vmmCreateNewPagemap_ok hdirect hret
  obtain rfl := pageAt_inj hroot
  obtain ⟨T, hnone⟩ := UserTree.create hdirect hf
  obtain ⟨B', hg, hview⟩ := B.add (Grown.newPagemap hdirect hf hfree) (.head _) T fun f hf' => by
    change f ∈ g :: framesBelow (newPagemap k g) 4 (pageAt k g) at hf'
    rwa [hnone] at hf'
  refine ⟨B', ?_⟩
  rw [hview, cell_newPagemap T]
  exact .create (seenAt_of_notMem hg)

theorem Cloned.granting {level curr new : Nat} (D : DirectMap k) (L : SameLayout k k')
    (h : Cloned k k' level curr new) (G : Granting k level curr) : Granting k' level new := by
  induction level generalizing curr new with
  | zero => trivial
  | succ level ih =>
    cases level with
    | zero => trivial
    | succ level =>
      intro i hi hne
      have hne' : tableEntry k.mem curr i ≠ 0 := mt (h i hi).1 hne
      obtain ⟨hwritable, haccess, hbelow⟩ := G i hi hne'
      obtain ⟨f, hf, he, hsub⟩ := (h i hi).2 hne'
      rw [(Cloned.next_eq D L hf he).2, he, entryWritable_setEntryIndex, entryUserAccess_setEntryIndex]
      exact ⟨hwritable, haccess, ih hsub hbelow⟩

/-- A copy has the bytes and the rights of the original. -/
theorem Cloned.cell_eq (D : DirectMap k) (L : SameLayout k k') (P : Plain k 4 (pageAt k g))
    (h : Cloned k k' 4 (pageAt k g) (pageAt k f)) : cell k' f = cell k g := by
  funext v
  by_cases hv : v < 2 ^ 47
  · have hroot := L.pageAt_eq f
    rcases h.walk D L hv P with ⟨hnone, hnone'⟩ | ⟨m, f', hsome, hsome', hbytes⟩
    · rw [cell_of_none hnone, cell_of_none (hroot.symm ▸ hnone')]
    · rw [cell_of_some hv hsome, cell_of_some hv (hroot.symm ▸ hsome'), L.pageAt_eq,
        hbytes _ (Nat.mod_lt _ (by decide))]
  · rw [cell_of_ge (Nat.le_of_not_lt hv), cell_of_ge (Nat.le_of_not_lt hv)]

theorem Backed.clone (D : DirectMapFits count offset) (B : Backed count offset base ⟨k, live, gs⟩)
    (hg : g ∈ gs) (henough : (spaceFrames k g).length ≤ k.pmm.freePages.card)
    (hret : vmmClonePagemap k (pageAt k g) = .ok (pageAt k g', k')) :
    (∃ base, Backed count offset base ⟨k', live, g' :: gs⟩) ∧
      Memories.Step (MemoryState.view ⟨k, live, gs⟩) (.clone g g')
        (MemoryState.view ⟨k', live, g' :: gs⟩) := by
  have hdirect : DirectMap k := B.heap.direct D
  have T := B.spaces.tree g hg
  obtain ⟨f, k'', hret', hf, G, C⟩ := vmmClonePagemap_spec T.addressTree
    (B.heap.null (Nat.zero_lt_of_lt T.lt)) henough
  obtain ⟨hroot, rfl⟩ := Prod.mk.inj (Except.ok.inj (hret'.symm.trans hret))
  obtain rfl := pageAt_inj hroot
  have L := G.layout
  have hperm := List.perm_append_singleton f (framesBelow k'' 4 (pageAt k f))
  have hused : ∀ f' ∈ f :: framesBelow k'' 4 (pageAt k f), k''.pmm.used f' = true := by
    intro f' hf'
    have hmem := hperm.mem_iff.mpr hf'
    rw [G.pmm, Pmm.used_setBits_of_mem hmem (G.fresh f' hmem).1]
  have T' : UserTree k'' 4 f := by
    refine ⟨L.direct hdirect, L.pageCount.symm ▸ hf, hused f (.head _), ?_, ?_, ?_, ?_⟩
    all_goals rw [L.pageAt_eq]
    · exact C.plain hdirect L T.plain
    · exact C.granting hdirect L T.granting
    · exact fun f' hf' => hused f' (.tail _ hf')
    · exact hperm.nodup_iff.mp G.nodup
  obtain ⟨B', hnew, hview⟩ := B.add G (hperm.mem_iff.mpr (.head _)) T' fun f' hf' => by
    rw [spaceFrames, L.pageAt_eq] at hf'
    exact hperm.mem_iff.mpr hf'
  refine ⟨B', ?_⟩
  rw [hview, C.cell_eq hdirect L T.plain]
  exact .clone (seenAt_of_mem hg) (seenAt_of_notMem hnew)

theorem Backed.delete (B : Backed count offset base ⟨k, live, gs⟩) (hg : g ∈ gs)
    (hret : vmmDeletePagemap k (pageAt k g) = .ok k') :
    (∃ base, Backed count offset base ⟨k', live, gs.erase g⟩) ∧
      Memories.Step (MemoryState.view ⟨k, live, gs⟩) (.delete g)
        (MemoryState.view ⟨k', live, gs.erase g⟩) := by
  have T := B.spaces.tree g hg
  obtain ⟨k'', hret', F⟩ := vmmDeletePagemap_spec (T.plain.treeIn T.direct T.lt T.nodup) T.lt
  obtain rfl := Except.ok.inj (hret.symm.trans hret')
  have hperm := List.perm_append_singleton g (framesBelow k 4 (pageAt k g))
  have hfreed : ∀ f ∈ framesBelow k 4 (pageAt k g) ++ [g], f ∈ spaceFrames k g := fun f =>
    hperm.mem_iff.mp
  have hapart : ∀ g' ∈ gs, g' ≠ g → ∀ f ∈ spaceFrames k g', f ∉ spaceFrames k g :=
    fun g' hg' hne => B.spaces.apart g' hg' g hg hne
  obtain ⟨h', hpayload⟩ := B.heap.freed F
    (fun t ht => by
      obtain ⟨f, hf, rfl⟩ := T.subTable ht
      exact ⟨f, (B.owned g hg f hf).1, rfl⟩)
    fun f hf => B.owned g hg f (hfreed f hf)
  have L : SameLayout k k' := ⟨F.offset, F.pageCount, by rw [F.pmm, Pmm.setBits_gHhdmOffset]⟩
  have hkept : ∀ g' ∈ gs, g' ≠ g → Kept k k' g' := by
    intro g' hg' hne
    apply (B.spaces.tree g' hg').kept L
    · intro f hf b hb
      apply F.mem b
      intro t ht hin
      obtain ⟨f', hf', rfl⟩ := T.subTable ht
      exact hapart g' hg' hne f hf (inPage_inj hin hb ▸ hf')
    · intro f hf
      rw [F.pmm, Pmm.used_setBits_of_notMem fun hmem => hapart g' hg' hne f hf (hfreed f hmem)]
      exact (B.spaces.tree g' hg').frame_used hf
  refine ⟨⟨_, h', fun g' hg' f hf => ?_, B.spaces.remove hkept⟩, ?_⟩
  · obtain ⟨hne, hg'⟩ := B.spaces.nodup.mem_erase_iff.mp hg'
    dsimp only at hf
    rw [(hkept g' hg' hne).frames] at hf
    obtain ⟨hbase, hnull⟩ := B.owned g' hg' f hf
    exact ⟨⟨hbase, fun hmem => hapart g' hg' hne f hf (hfreed f hmem)⟩, hnull⟩
  · have hview : MemoryState.view ⟨k', live, gs.erase g⟩ =
        (MemoryState.view ⟨k, live, gs⟩).setSpace g none := by
      rw [MemoryState.view, MemoryState.view, Memories.setSpace, seenAt_congr hpayload,
        seenAt_erase B.spaces.nodup fun g' hg' hne => (hkept g' hg' hne).cell]
    rw [hview]
    exact .delete (seenAt_of_mem hg)

theorem KernelHeap.setCr3 {cr3 : Nat} (h : KernelHeap count offset base k live) :
    KernelHeap count offset base { k with cr3 } live := by
  obtain ⟨held, free, supers, H, hheld⟩ := h.heap
  have hlists : HeapLists { k with cr3 } free supers :=
    H.lists.congr rfl rfl rfl (fun _ _ => rfl) fun _ _ => rfl
  exact ⟨h.offset_eq, held, free, supers,
    ⟨hlists, H.liveHeader, H.size, H.nodup, H.tiles, H.range, H.apart, H.large⟩, hheld⟩

theorem Backed.setCr3 (B : Backed count offset base ⟨k, live, gs⟩) (cr3 : Nat) :
    Backed count offset base ⟨{ k with cr3 }, live, gs⟩ ∧
      MemoryState.view ⟨{ k with cr3 }, live, gs⟩ = MemoryState.view ⟨k, live, gs⟩ := by
  obtain ⟨B', hspaces⟩ := B.heapOp
    (show KernelHeap count offset base { k with cr3 } live from B.heap.setCr3) fun _ _ => rfl
  have hblocks : seenAt live (payload { k with cr3 }) = seenAt live (payload k) :=
    seenAt_congr fun x _ => payload_congr rfl fun _ _ => rfl
  refine ⟨B', ?_⟩
  rw [MemoryState.view, MemoryState.view, hspaces, hblocks]

/-! One address space changes. -/

theorem Backed.change {base' : Nat → Prop} (B : Backed count offset base ⟨k, live, gs⟩) (hg : g ∈ gs)
    (h' : KernelHeap count offset base' k' live) (hbase : ∀ f, base f → base' f)
    (hpayload : ∀ x ∈ live, payload k' x = payload k x)
    (hkept : ∀ g' ∈ gs, g' ≠ g → Kept k k' g') (T : UserTree k' 4 g)
    (hframes : ∀ f ∈ spaceFrames k' g, (base' f ∧ f ≠ 0) ∧
      ∀ g' ∈ gs, g' ≠ g → f ∉ spaceFrames k g') :
    Backed count offset base' ⟨k', live, gs⟩ ∧ MemoryState.view ⟨k', live, gs⟩ =
      (MemoryState.view ⟨k, live, gs⟩).setSpace g (some (cell k' g)) := by
  refine ⟨⟨h', fun g' hg' f hf => ?_, ?_⟩, ?_⟩
  · by_cases hne : g' = g
    · subst hne
      exact (hframes f hf).1
    · dsimp only at hf
      rw [(hkept g' hg' hne).frames] at hf
      obtain ⟨howned, hnull⟩ := B.owned g' hg' f hf
      exact ⟨hbase f howned, hnull⟩
  · exact B.spaces.change hkept T fun g' hg' hne f hf => (hframes f hf).2 g' hg' hne
  · rw [MemoryState.view, MemoryState.view, Memories.setSpace, seenAt_congr hpayload,
      seenAt_set hg fun g' hg' hne => (hkept g' hg' hne).cell]

theorem storeAddr_user {addr : Nat} (h : storeAddr k true vaddr = some addr) :
    vaddr < 2 ^ 47 ∧ ∃ frame, translate k (vmmGetCurrPagemap k) vaddr = some ⟨frame, true, true⟩ ∧
      addr = u64 (vmmPhysToVirtHhdm k (frame * regularPageSize) + vaddr % regularPageSize) := by
  rw [storeAddr] at h
  by_cases hv : vaddr < lowerHalfEnd
  · rw [if_pos hv] at h
    refine ⟨hv, ?_⟩
    cases htrans : translate k (vmmGetCurrPagemap k) vaddr with
    | none =>
      rw [htrans] at h
      cases h
    | some page =>
      rw [htrans] at h
      obtain ⟨frame, writable, userAccess⟩ := page
      cases writable with
      | false => cases h
      | true =>
        cases userAccess with
        | false => cases h
        | true => exact ⟨frame, rfl, (Option.some.inj h).symm⟩
  · rw [if_neg hv, if_pos rfl] at h
    cases h

theorem DirectMap.byte_eq (D : DirectMap k) (hf : f < k.pmm.pageCount) :
    u64 (vmmPhysToVirtHhdm k (f * regularPageSize) + vaddr % regularPageSize) =
      pageAt k f + vaddr % regularPageSize := by
  have hword := D.word
  have hle := Nat.mul_le_mul_right regularPageSize (show f + 1 ≤ k.pmm.pageCount from hf)
  rw [vmmPhysToVirtHhdm, D.u64_pageAt hf, u64_of_lt]
  have hlt : vaddr % regularPageSize < regularPageSize := Nat.mod_lt _ (by decide)
  simp only [pageAt, regularPageSize] at *
  omega

theorem Backed.store (D : DirectMapFits count offset) (B : Backed count offset base ⟨k, live, gs⟩)
    (hg : g ∈ gs) (hcurr : vmmGetCurrPagemap k = pageAt k g)
    (hret : storeByte true k vaddr byte = .ok k') :
    Backed count offset base ⟨k', live, gs⟩ ∧
      Memories.Step (MemoryState.view ⟨k, live, gs⟩) (.store g vaddr byte)
        (MemoryState.view ⟨k', live, gs⟩) := by
  have hdirect : DirectMap k := B.heap.direct D
  have T := B.spaces.tree g hg
  rw [storeByte] at hret
  cases haddr : storeAddr k true vaddr with
  | none =>
    rw [haddr] at hret
    cases hret
  | some addr =>
    rw [haddr] at hret
    obtain rfl := Except.ok.inj hret
    obtain ⟨hv, frame, htrans, heq⟩ := storeAddr_user haddr
    rw [hcurr] at htrans
    have hmem : frame ∈ spaceFrames k g := .tail _ (T.translate_mem hv htrans)
    rw [hdirect.byte_eq (T.frame_lt hmem)] at heq
    have hin : InPage (pageAt k frame) addr := heq ▸ inPage_offset
    obtain ⟨T', hframes, hcell⟩ := T.store byte hv htrans heq
    have hset : ∀ b, ¬InPage (pageAt k frame) b → k.mem.set addr byte b = k.mem b := fun b hb =>
      Theory.ByteMemory.set_of_ne fun heq => hb (heq ▸ hin)
    have hbase := (B.owned g hg frame hmem).1
    have hwrite : ∀ b, ¬FrameBytes offset base b → k.mem.set addr byte b = k.mem b := fun b hb =>
      hset b fun hin => hb (B.heap.frameBytes hbase hin)
    have L : SameLayout k { k with mem := k.mem.set addr byte } := ⟨rfl, rfl, rfl⟩
    have hkept : ∀ g' ∈ gs, g' ≠ g → Kept k { k with mem := k.mem.set addr byte } g' := by
      intro g' hg' hne
      apply (B.spaces.tree g' hg').kept L
      · intro f hf b hb
        apply hset
        intro hin
        exact B.spaces.apart g' hg' g hg hne f hf (inPage_inj hin hb ▸ hmem)
      · exact fun f hf => (B.spaces.tree g' hg').frame_used hf
    obtain ⟨B', hview⟩ := B.change hg (B.heap.writeFrames hwrite) (fun _ => id)
      (fun x hx => B.heap.payload_eq hwrite hx) hkept T' fun f hf => by
        rw [hframes] at hf
        exact ⟨B.owned g hg f hf, fun g' hg' hne hf' => B.spaces.apart g' hg' g hg hne f hf' hf⟩
    refine ⟨B', ?_⟩
    rw [hview, hcell]
    exact .store (seenAt_of_mem hg) (cell_of_some hv htrans)

/-! A page is allocated and mapped. -/

theorem Backed.claim {ks : List Nat} (B : Backed count offset base ⟨k, live, gs⟩)
    (hks : ∀ f ∈ ks, f < k.pmm.pageCount ∧ k.pmm.used f = false) (hnodup : ks.Nodup) (hf : f ∈ ks) :
    Backed count offset (fun f => base f ∨ f ∈ ks)
        ⟨{ k with pmm := k.pmm.setBits ks true }, live, gs⟩ ∧
      MemoryState.view ⟨{ k with pmm := k.pmm.setBits ks true }, live, gs⟩ =
        MemoryState.view ⟨k, live, gs⟩ ∧
      ∀ f ∈ ks, f ≠ 0 ∧ ∀ g ∈ gs, f ∉ spaceFrames { k with pmm := k.pmm.setBits ks true } g := by
  have G : Grown k { k with pmm := k.pmm.setBits ks true } (pageAt k f) ks :=
    ⟨rfl, hks, hnodup, fun _ _ _ => rfl⟩
  have hfresh : ∀ f ∈ ks, ∀ g ∈ gs, f ∉ spaceFrames k g := by
    intro f hf g hg hmem
    have hfree := (hks f hf).2
    rw [(B.spaces.tree g hg).frame_used hmem] at hfree
    cases hfree
  have hkept : ∀ g ∈ gs, Kept k _ g := fun g hg =>
    (B.spaces.tree g hg).kept_grown G (hfresh f hf g hg)
  obtain ⟨h', hpayload⟩ := B.heap.grown G ⟨f, .inr hf, rfl⟩
  refine ⟨⟨h', fun g hg f' hf' => ?_, B.spaces.kept hkept⟩, ?_,
    fun f hf => ⟨G.ne_null B.heap hf, fun g hg => (hkept g hg).frames ▸ hfresh f hf g hg⟩⟩
  · dsimp only at hf'
    rw [(hkept g hg).frames] at hf'
    obtain ⟨hbase, hnull⟩ := B.owned g hg f' hf'
    exact ⟨.inl hbase, hnull⟩
  · rw [MemoryState.view, MemoryState.view, spaces_seen hkept, seenAt_congr hpayload]

/-- Of the pages of an address space only tables are written. -/
theorem Mapped.cell_eq {old new rest : List Nat} (T : UserTree k 4 g) (T' : UserTree k' 4 g)
    (hv : vaddr < 2 ^ 47) (hf : f < k.pmm.pageCount)
    (M : Mapped k k' 4 (pageAt k g) f old new rest)
    (hleaves : ∀ q j, LowerPath q → q.length = 3 → j < 512 → leafEntry k' (pageAt k g) q j =
      if q = tablePath vaddr ∧ j = virtualAddrIndex vaddr 1 then
        makeEntry (flagWritablePage flags) (flagUserAccessible flags) f
      else leafEntry k (pageAt k g) q j) :
    cell k' g = Memories.mapPage (cell k g) vaddr flags
      fun v => k'.mem (pageAt k f + v % regularPageSize) := by
  obtain ⟨t, ht, G⟩ := M.grown
  obtain ⟨f₁, hf₁, rfl⟩ := T.subTable ht
  have hroot := G.layout.pageAt_eq g
  have I' := T'.pagemapInv
  rw [hroot] at I'
  have hlt := Nat.lt_of_lt_of_le hf T.direct.count
  funext v
  rw [Memories.mapPage]
  by_cases hv' : v < 2 ^ 47
  · have htrans : translate k' (pageAt k' g) v =
        if v / regularPageSize = vaddr / regularPageSize then
          some ⟨f, flagWritablePage flags, flagUserAccessible flags⟩
        else translate k (pageAt k g) v := by
      rw [hroot, T.pagemapInv.translate_update hv I' hleaves hv', entryMapping_makeEntry hlt]
    by_cases hpage : v / regularPageSize = vaddr / regularPageSize
    · rw [if_pos hpage] at htrans ⊢
      rw [cell_of_some hv' htrans, G.layout.pageAt_eq]
    · rw [if_neg hpage] at htrans ⊢
      cases hm : translate k (pageAt k g) v with
      | none => rw [cell_of_none hm, cell_of_none (htrans.trans hm)]
      | some m =>
        have hmem := T.translate_mem hv' hm
        rw [cell_of_some hv' hm, cell_of_some hv' (htrans.trans hm), G.layout.pageAt_eq, G.mem]
        · intro hin
          have heq := inPage_inj hin inPage_offset
          exact T.walk_not_table hv' hm (heq ▸ ht)
        · intro f₂ hf₂ hin
          have hfree := (G.fresh f₂ hf₂).2
          rw [inPage_inj hin inPage_offset, T.used _ hmem] at hfree
          cases hfree
  · have hpage : v / regularPageSize ≠ vaddr / regularPageSize := by
      rw [regularPageSize]
      omega
    rw [if_neg hpage, cell_of_ge (Nat.le_of_not_lt hv'), cell_of_ge (Nat.le_of_not_lt hv')]

/-- What a call of `vmm_map_page` that maps a page does. -/
structure PageMapped (count offset : Nat) (base : Nat → Prop) (k : Kernel Pmm) (live gs : List Nat)
    (g vaddr f flags : Nat) (k' : Kernel Pmm) : Prop where
  backed : ∃ new : List Nat, (∀ f' ∈ new, k.pmm.used f' = false) ∧
    Backed count offset (fun f' => base f' ∨ f' ∈ new) ⟨k', live, gs⟩ ∧
    ∀ g' ∈ gs, ∀ f' ∈ spaceFrames k' g', f' ∈ spaceFrames k g' ∨ f' = f ∨ f' ∈ new
  layout : SameLayout k k'
  view : MemoryState.view ⟨k', live, gs⟩ =
    (MemoryState.view ⟨k, live, gs⟩).setSpace g (some (TrazelOs.cell k' g))
  cell : TrazelOs.cell k' g = Memories.mapPage (TrazelOs.cell k g) vaddr flags
    fun v => k'.mem (pageAt k f + v % regularPageSize)
  translate : ∀ v < 2 ^ 47, TrazelOs.translate k' (pageAt k' g) v =
    if v / regularPageSize = vaddr / regularPageSize then
      some ⟨f, flagWritablePage flags, flagUserAccessible flags⟩
    else TrazelOs.translate k (pageAt k g) v

theorem Backed.mapPage {r : Int} (B : Backed count offset base ⟨k, live, gs⟩) (hg : g ∈ gs)
    (hv : vaddr < 2 ^ 47) (hf : f < k.pmm.pageCount) (hbase : base f) (hnull : f ≠ 0)
    (hnew : ∀ g ∈ gs, f ∉ spaceFrames k g)
    (hret : vmmMapPage k (pageAt k g) vaddr (f * regularPageSize) flags = .ok (r, k')) :
    (flagOverridePage flags = false ∧ cell k g vaddr ≠ none) ∧ r = -1 ∧ k' = k ∨
      (flagOverridePage flags = true ∨ cell k g vaddr = none) ∧ r = 0 ∧
        PageMapped count offset base k live gs g vaddr f flags k' := by
  have T := B.spaces.tree g hg
  have hframe : f * regularPageSize / 2 ^ 12 = f := Nat.mul_div_cancel f (by decide)
  have hleaf : leafEntry k (pageAt k g) (tablePath vaddr) (virtualAddrIndex vaddr 1) ≠ 0 ↔
      cell k g vaddr ≠ none := by
    rw [ne_eq, ← entryMapping_eq_none, ← T.pagemapInv.translate_eq hv, ne_eq, cell_eq_none_iff hv]
  obtain ⟨I', hok⟩ := T.pagemapInv.vmmMapPage_ok hv hret
  have hmapped := T.vmmMapPage hv (hframe.symm ▸ hf) hret
  rw [hframe, hleaf] at hok
  rcases hok with ⟨hfail, rfl, rfl⟩ | ⟨hok, rfl, hleaves⟩
  · exact .inl ⟨hfail, rfl, rfl⟩
  rcases hmapped with ⟨hr, -⟩ | ⟨-, old, new, rest, M, -⟩
  · cases hr
  rw [hframe] at M
  have T' := T.of_mapped M (B.heap.used hbase hf) (hnew g hg)
  obtain ⟨t, ht, G⟩ := M.grown
  obtain ⟨f₁, hf₁, rfl⟩ := T.subTable ht
  obtain ⟨h', hpayload⟩ := B.heap.grown G ⟨f₁, .inl (B.owned g hg f₁ hf₁).1, rfl⟩
  have hkept : ∀ g' ∈ gs, g' ≠ g → Kept k k' g' := fun g' hg' hne =>
    (B.spaces.tree g' hg').kept_grown G fun hmem =>
      B.spaces.apart g' hg' g hg hne f₁ hmem hf₁
  -- a page of the space is one it had, the mapped one, or a new table
  have hpages : ∀ f' ∈ spaceFrames k' g, f' ∈ spaceFrames k g ∨ f' = f ∨ f' ∈ new := by
    intro f' hf'
    rw [spaceFrames, G.layout.pageAt_eq] at hf'
    rcases List.mem_cons.mp hf' with rfl | hf'
    · exact .inl (.head _)
    · rcases List.mem_cons.mp (M.after.mem_iff.mp hf') with rfl | hf'
      · exact .inr (.inl rfl)
      · rcases List.mem_append.mp hf' with hf' | hf'
        · exact .inr (.inr hf')
        · exact .inl (.tail _ (M.before.mem_iff.mpr (List.mem_append_right _ hf')))
  obtain ⟨B', hview⟩ := B.change hg h' (fun _ => .inl) hpayload hkept T' fun f' hf' => by
    rcases hpages f' hf' with hf' | rfl | hf'
    · obtain ⟨howned, hne⟩ := B.owned g hg f' hf'
      exact ⟨⟨.inl howned, hne⟩, fun g' hg' hne hmem =>
        B.spaces.apart g' hg' g hg hne f' hmem hf'⟩
    · exact ⟨⟨.inl hbase, hnull⟩, fun g' hg' _ => hnew g' hg'⟩
    · refine ⟨⟨.inr hf', G.ne_null B.heap hf'⟩, fun g' hg' _ hmem => ?_⟩
      have hfree := (G.fresh f' hf').2
      rw [(B.spaces.tree g' hg').frame_used hmem] at hfree
      cases hfree
  refine .inr ⟨?_, rfl, ⟨new, fun f' hf' => (G.fresh f' hf').2, B', fun g' hg' f' hf' => ?_⟩,
    G.layout, hview, M.cell_eq T T' hv hf hleaves, fun v hv' => ?_⟩
  · by_cases hover : flagOverridePage flags = true
    · exact .inl hover
    · right
      by_contra hcell
      exact hok ⟨Bool.eq_false_of_not_eq_true hover, hcell⟩
  · by_cases hne : g' = g
    · subst hne
      exact hpages f' hf'
    · rw [(hkept g' hg' hne).frames] at hf'
      exact .inl hf'
  · rw [G.layout.pageAt_eq, T.pagemapInv.translate_update hv I' hleaves hv',
      entryMapping_makeEntry (Nat.lt_of_lt_of_le hf T.direct.count)]

theorem Backed.map {p : Pmm} {r : Int} (D : DirectMapFits count offset)
    (B : Backed count offset base ⟨k, live, gs⟩) (hg : g ∈ gs) (hv : vaddr < 2 ^ 47)
    (halloc : pmmAllocPage k.pmm = .ok (page, p)) (hpage : page ≠ 0)
    (hret : vmmMapPage { k with pmm := p } (pageAt k g) vaddr page flags = .ok (r, k')) :
    (∃ base, Backed count offset base ⟨k', live, gs⟩) ∧
      Memories.Step (MemoryState.view ⟨k, live, gs⟩) (.map g vaddr flags)
        (MemoryState.view ⟨k', live, gs⟩) := by
  have hdirect : DirectMap k := B.heap.direct D
  have hcount := hdirect.count
  rcases pmmAllocPage_spec (show k.pmm.pageCount ≤ 2 ^ 52 by omega) with ⟨hnone, -⟩ | ⟨f, hfree, -, hsome⟩
  · rw [hnone] at halloc
    exact absurd (Prod.mk.inj (Except.ok.inj halloc)).1.symm hpage
  · rw [hsome] at halloc
    obtain ⟨rfl, rfl⟩ := Prod.mk.inj (Except.ok.inj halloc)
    obtain ⟨hlt, hfree⟩ := hfree
    have hks : ∀ f' ∈ [f], f' < k.pmm.pageCount ∧ k.pmm.used f' = false := by
      intro f' hf'
      obtain rfl := List.mem_singleton.mp hf'
      exact ⟨hlt, hfree f' (Nat.le_refl f') (Nat.lt_succ_self f')⟩
    obtain ⟨B', hview, hnew⟩ := B.claim hks (List.nodup_singleton f) (.head _)
    obtain ⟨hnull, hnew⟩ := hnew f (.head _)
    rw [← hview]
    rcases B'.mapPage hg hv (by rw [Pmm.setBits_pageCount]; exact hlt) (.inr (.head _)) hnull hnew hret
      with ⟨⟨hover, hmapped⟩, -, rfl⟩ | ⟨hok, -, P⟩
    · exact ⟨⟨_, B'⟩, .mapped (seenAt_of_mem hg) hover hmapped⟩
    · obtain ⟨new, -, B'', -⟩ := P.backed
      refine ⟨⟨_, B''⟩, ?_⟩
      rw [P.view, P.cell]
      exact .map _ (seenAt_of_mem hg) hok

end Steps

/-! ## Whole runs -/

section Runs
variable {count offset : Nat} {st st' : MemoryState} {op : MemoryOp} {ops : List MemoryOp}

theorem kernelMemory_kfree {k : Kernel Pmm} {x : Nat} :
    kernelMemory.kfree k (x + 32) = kfree pmmBitmap k (x + 32) := by
  simp only [kernelMemory, Nat.add_eq_zero_iff, OfNat.ofNat_ne_zero, and_false, if_false]

/-- The shared memory does what the separate memories do. -/
theorem MemoryInv.step (I : MemoryInv count offset st) (h : MemoryStep st op st') :
    MemoryInv count offset st' ∧ Memories.Step st.view op st'.view := by
  obtain ⟨D, base, B⟩ := I
  cases h with
  | kmalloc hpos hle hpages hret =>
    obtain ⟨B', h⟩ := B.kmalloc D hpos hle hpages hret
    exact ⟨⟨D, base, B'⟩, h⟩
  | kfree hx hret =>
    rw [kernelMemory_kfree] at hret
    obtain ⟨B', h⟩ := B.kfree D hx hret
    exact ⟨⟨D, base, B'⟩, h⟩
  | write hx hj hret =>
    obtain ⟨B', h⟩ := B.write hx hj hret
    exact ⟨⟨D, base, B'⟩, h⟩
  | create hret =>
    obtain ⟨B', h⟩ := B.create D hret
    exact ⟨⟨D, B'⟩, h⟩
  | map hg hv halloc hpage hret =>
    obtain ⟨⟨page, p⟩, hpmm, heq⟩ := Exec.bind_eq_ok.mp halloc
    obtain ⟨rfl, rfl⟩ := Prod.mk.inj (Except.ok.inj heq)
    obtain ⟨B', h⟩ := B.map D hg hv hpmm hpage hret
    exact ⟨⟨D, B'⟩, h⟩
  | clone hg henough hret =>
    obtain ⟨B', h⟩ := B.clone D hg henough hret
    exact ⟨⟨D, B'⟩, h⟩
  | delete hg hret =>
    obtain ⟨B', h⟩ := B.delete hg hret
    exact ⟨⟨D, B'⟩, h⟩
  | @reload k live gs g hg =>
    obtain ⟨B', hview⟩ := B.setCr3 (u64Sub (pageAt k g) k.gHhdmOffset)
    refine ⟨⟨D, base, B'⟩, ?_⟩
    change Memories.Step _ _ (MemoryState.view ⟨{ k with cr3 := _ }, live, gs⟩)
    rw [hview]
    exact .reload (seenAt_of_mem hg)
  | store hg hcurr hret =>
    obtain ⟨B', h⟩ := B.store D hg hcurr hret
    exact ⟨⟨D, base, B'⟩, h⟩

theorem MemoryInv.run (I : MemoryInv count offset st) (h : MemoryRun st ops st') :
    MemoryInv count offset st' ∧ Memories.Run st.view ops st'.view := by
  induction h with
  | nil => exact ⟨I, .nil⟩
  | cons hstep _ ih =>
    obtain ⟨I₂, habs⟩ := I.step hstep
    obtain ⟨I₃, hrest⟩ := ih I₂
    exact ⟨I₃, .cons habs hrest⟩

/-- The memory managers before the first allocation: page 0 is in use and the heap has nothing. -/
structure FreshMemory (k : Kernel Pmm) : Prop where
  direct : DirectMap k
  aligned : regularPageSize ∣ k.gHhdmOffset
  null : k.pmm.used 0 = true
  freeBlocks : k.gFreeBlocks = 0
  freeBlockTail : k.gFreeBlockTail = 0
  superBlocks : k.gSuperBlocks = 0

theorem FreshMemory.inv {k : Kernel Pmm} (h : FreshMemory k) :
    MemoryInv k.pmm.pageCount k.gHhdmOffset ⟨k, [], []⟩ := by
  have hheld : PmmHeld k.pmm.pageCount k.gHhdmOffset (fun f => k.pmm.used f = true) k.pmm [] := by
    refine ⟨rfl, h.direct.offset, fun f _ => ?_, h.null, by simp, ?_, .nil⟩
    · exact (or_iff_left fun hf => by obtain ⟨r, hr, -⟩ := hf; cases hr).symm
    · rintro f - ⟨r, hr, -⟩
      cases hr
  refine ⟨⟨h.direct.word, h.direct.count, h.aligned⟩, fun f => k.pmm.used f = true,
    ⟨rfl, [], [], [], .empty h.freeBlocks h.freeBlockTail h.superBlocks, hheld⟩, by simp, ?_⟩
  exact ⟨by simp, .nil, by simp⟩

end Runs

end TrazelOs
