import TrazelOs.Verify.Fat12Heap

/-! # Listing a directory

One loop counts the entries of a directory, a second one copies them into an array of that size, and a
third one fills an array of names. On every heap the three agree: the copies are the listing of the
directory, and the name with an index is the name of the entry with this index. A directory without
any entry to list is the exception, for which the driver asks its heap for an array of size 0. -/

namespace TrazelOs

open Theory Theory.BlockHeap

namespace Driver

/-- The pointers lead to the names of the entries, each at the index of its entry. -/
structure PointToNames (heap : DriverHeap) (es : List DirectoryEntry) (ptrs : List Nat) : Prop where
  length_eq : ptrs.length = es.length
  name : ∀ (i : Nat) (entry : DirectoryEntry), es[i]? = some entry → ∃ ptr, ptrs[i]? = some ptr ∧
    heap.blocks ptr =
      some (.bytes fileNameBufferSize (TrazelOs.fatFileNameToStr entry.fileName ++ [0]))

/-- What listing the first `n` elements of an array of entries is to do, in every heap that has the
array: it stops only where the heap has no room. -/
def ListsDirectory (es : List DirectoryEntry) (n : Nat) : Prop :=
  ∀ (room : DriverHeap → Nat → Bool) (heap : DriverHeap) (p : Nat) (block : Block),
    heap.blocks p = some block → block.dirEntries? = some es →
    Meets room heap (filterValidDirectoryEntries room p n) (.ok ()) fun _ r heap₁ =>
      r.2 = (listing (es.take n)).length ∧
      heap₁.blocks r.1 = some (.entries r.2 (listing (es.take n))) ∧
      (Meets room heap₁ (getEntriesFileNames room r.1 r.2) (.ok ()) fun _ names heap₂ =>
        ∃ ptrs, heap₂.blocks names = some (.names r.2 ptrs) ∧
          PointToNames heap₂ (listing (es.take n)) ptrs) ∧
      ∀ element, 0 ∉ element →
        Meets room heap₁ (getPathElementDirEntry room r.1 element element.length r.2) (.ok ())
          fun _ index _ => Option.Rel (fun i entry => (listing (es.take n))[i]? = some entry) index
            (lookupEntry (listing (es.take n)) element)

section
variable {room : DriverHeap → Nat → Bool} {start heap : DriverHeap} {l : List (Nat × Block)}
  {es : List DirectoryEntry} {n p : Nat} {names : Nat} {named : List (Nat × List Byte)}

/-- The names are the blocks that the array points to. -/
theorem NamesOwned.getElem (h : NamesOwned start names n l named heap) {i : Nat} {e : Nat × List Byte}
    (he : named[i]? = some e) : heap.blocks e.1 = some (.bytes fileNameBufferSize (e.2 ++ [0])) := by
  have hmem : (e.1, Block.bytes fileNameBufferSize (e.2 ++ [0])) ∈ nameBlocks named :=
    List.mem_map.mpr ⟨e, List.mem_of_getElem? he, rfl⟩
  exact h.live _ (List.mem_append_left _ hmem)

/-- Each entry of a listing has its name, at its index. -/
theorem getEntriesFileNames_names (h : Owns start heap ((p, .entries es.length es) :: l)) (hne : es ≠ [])
    (hlisted : ∀ e ∈ es, e.isFinal = false ∧ e.isListed = true) :
    Meets room heap (getEntriesFileNames room p es.length) (.ok ()) fun _ names heap' =>
      ∃ ptrs, heap'.blocks names = some (.names es.length ptrs) ∧ PointToNames heap' es ptrs := by
  have hspec : Meets room heap (getEntriesFileNames room p es.length) _ _ :=
    getEntriesFileNames_spec h (.head _) rfl
  rw [getEntriesFileNames_eq hne hlisted] at hspec
  refine .mapRight (g := fun _ => ()) hspec ?_
  rintro _ names heap' hstrs ⟨named, rfl, hnamed⟩
  have hstrs : es.map (fun entry => TrazelOs.fatFileNameToStr entry.fileName) = named.map Prod.snd :=
    Except.ok.inj hstrs
  have hlength : named.length = es.length := by
    rw [← List.length_map (f := Prod.snd), ← hstrs, List.length_map]
  refine ⟨named.map Prod.fst, hlength ▸ hnamed.array, by rw [List.length_map, hlength], ?_⟩
  intro i entry hentry
  have hname : (named.map Prod.snd)[i]? = some (TrazelOs.fatFileNameToStr entry.fileName) := by
    rw [← hstrs, List.getElem?_map, hentry, Option.map_some]
  rw [List.getElem?_map] at hname
  obtain ⟨e, he, heq⟩ := Option.map_eq_some_iff.mp hname
  exact ⟨e.1, by rw [List.getElem?_map, he, Option.map_some], heq ▸ hnamed.getElem he⟩

/-- The entry that is found is the one with the name. -/
theorem getPathElementDirEntry_index {element : List Byte}
    (h : Owns start heap ((p, .entries es.length es) :: l)) (hne : es ≠ [])
    (hlisted : ∀ e ∈ es, e.isFinal = false ∧ e.isListed = true) (hzero : 0 ∉ element) :
    Meets room heap (getPathElementDirEntry room p element element.length es.length) (.ok ())
      fun _ index _ => Option.Rel (fun i entry => es[i]? = some entry) index (lookupEntry es element) := by
  have hspec : Meets room heap (getPathElementDirEntry room p element element.length es.length) _ _ :=
    getPathElementDirEntry_spec h (.head _) ⟨hlisted, rfl⟩
  rw [getPathElementDirEntry_eq hzero hne hlisted] at hspec
  refine .mapRight (g := fun _ => ()) hspec ?_
  rintro entry index heap' hentry ⟨-, hindex⟩
  exact Except.ok.inj hentry ▸ hindex

theorem listsDirectory_of_inBounds (hin : InBounds es n) (hne : listing (es.take n) ≠ []) :
    ListsDirectory es n := by
  intro room heap p block hblock hes
  obtain ⟨l, howns⟩ := owns_of_live hblock
  have hspec : Meets room heap (filterValidDirectoryEntries room p n) _ _ :=
    filterValidDirectoryEntries_spec howns hes
  rw [filterValidDirectoryEntries_eq.mpr ⟨hin, hne, rfl⟩] at hspec
  refine .mapRight (g := fun _ => ()) hspec ?_
  rintro _ r heap₁ heq ⟨hcount, howns⟩
  cases heq
  dsimp only at hcount howns
  refine ⟨hcount, hcount ▸ howns.live _ (.head _), ?_, fun element hzero => ?_⟩
  · rw [hcount]
    exact getEntriesFileNames_names howns hne listing_listed
  · rw [hcount]
    exact getPathElementDirEntry_index howns hne listing_listed hzero

/-- A heap that has the array and always finds room. -/
theorem ListsDirectory.inBounds (h : ListsDirectory es n) :
    InBounds es n ∧ listing (es.take n) ≠ [] := by
  let heap : DriverHeap := (BlockHeap.alloc empty (.entries es.length es)).2
  have hblock : heap.blocks 0 = some (.entries es.length es) := rfl
  have hroom (e : HeapFault) : ¬ Stops (fun _ _ => true) e := by
    rintro ⟨-, _, _, hfalse⟩
    cases hfalse
  obtain ⟨r, heap', hrun, -⟩ := (h (fun _ _ => true) heap 0 _ hblock rfl).returns hroom
  obtain ⟨l, howns⟩ := owns_of_live hblock
  obtain ⟨b, hvalue, -⟩ := (filterValidDirectoryEntries_spec howns rfl).of_ok hrun
  obtain ⟨hin, hne, -⟩ := filterValidDirectoryEntries_eq.mp hvalue
  exact ⟨hin, hne⟩

end

/-- The loops agree on a directory with an entry to list, where the end of the array is not passed, and
there only. -/
theorem listsDirectory_iff (es : List DirectoryEntry) (n : Nat) :
    ListsDirectory es n ↔ InBounds es n ∧ listing (es.take n) ≠ [] :=
  ⟨ListsDirectory.inBounds, fun h => listsDirectory_of_inBounds h.1 h.2⟩

/-- The first entry of a directory that has never had a file. -/
def endMarker : DirectoryEntry where
  fileName := List.replicate 11 0
  attributes := 0
  firstClusterId := 0
  fileSizeInBytes := 0

/-- The listing of an empty directory is to be empty, but the kernel panics. -/
theorem filterValidDirectoryEntries_empty :
    listing ((List.replicate 16 endMarker).take 16) = [] ∧
    filterValidDirectoryEntries (fun _ _ => true) 0 16
      (BlockHeap.alloc empty (.entries 16 (List.replicate 16 endMarker))).2 =
        .error (.fault (.panic "Trying to allocate size 0")) :=
  ⟨rfl, rfl⟩

end Driver

end TrazelOs
