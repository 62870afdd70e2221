import TrazelOs.Kernel.Fat12Heap
import TrazelOs.Theory.Refinement
import TrazelOs.Verify.FailedOpen
import TrazelOs.Verify.FileBounds

/-! # The blocks of the FAT12 driver

Every function of the driver on its heap refines the one on lists, and the blocks it owns change as
its specification says. `fat12_open` leaves no block behind when the path leads nowhere, and two when
it opens a file, which `vfs_close` releases (`fat12Open_balanced`). -/

namespace TrazelOs

open Theory Theory.BlockHeap

namespace Driver

/-- The errors that the functions on lists do not have. -/
def Stops (room : DriverHeap → Nat → Bool) (e : HeapFault) : Prop :=
  e = .noRoom ∧ ∃ heap size, room heap size = false

abbrev Meets (room : DriverHeap → Nat → Bool) (heap : DriverHeap) (x : HeapM α) (v : Exec β)
    (post : β → α → DriverHeap → Prop) : Prop :=
  Refines HeapFault.fault (Stops room) heap x v post

/-- The value is read and the heap is left alone. -/
def Reads (heap : DriverHeap) (b a : α) (heap' : DriverHeap) : Prop := b = a ∧ heap = heap'

section Blocks
variable {room : DriverHeap → Nat → Bool} {start heap : DriverHeap} {l : List (Nat × Block)}
  {p size : Nat} {block : Block}

theorem lift_spec {x : Exec α} : Meets room heap (lift x) x (Reads heap) := by
  cases x with
  | error e => exact .error rfl
  | ok a => exact .ok rfl ⟨rfl, rfl⟩

theorem load_spec (h : heap.blocks p = some block) :
    Meets room heap (load p) (.ok block) (Reads heap) := by
  have hrun : load p heap = .ok (block, heap) := by
    unfold load
    rw [h]
  exact .ok hrun ⟨rfl, rfl⟩

theorem store_run {heap' : DriverHeap} (h : heap.set p block = some heap') :
    store p block heap = .ok ((), heap') := by
  unfold store
  rw [h]

theorem kfree_run {heap' : DriverHeap} (h : heap.free p = some heap') :
    kfree p heap = .ok ((), heap') := by
  unfold kfree
  rw [h]

theorem store_spec (h : Owns start heap ((p, block) :: l)) (block' : Block) :
    Meets room heap (store p block') (.ok ()) fun _ _ heap' =>
      Owns start heap' ((p, block') :: l) := by
  obtain ⟨heap', hset, howns⟩ := h.set block'
  exact .ok (store_run hset) howns

theorem kfree_spec (h : Owns start heap ((p, block) :: l)) :
    Meets room heap (kfree p) (.ok ()) fun _ _ heap' => Owns start heap' l := by
  obtain ⟨heap', hfree, howns⟩ := h.free
  exact .ok (kfree_run hfree) howns

theorem kmalloc_spec (h : Owns start heap l) (block : Block) :
    Meets room heap (kmalloc room size block) (allocBuffer size) fun _ p heap' =>
      Owns start heap' ((p, block) :: l) := by
  rw [← bind_pure (allocBuffer size)]
  refine .bind lift_spec ?_
  rintro _ _ _ - ⟨rfl, rfl⟩
  by_cases hroom : room heap size = true
  · exact .ok (if_pos hroom) (h.alloc block)
  · exact .stopped (if_neg hroom) ⟨rfl, heap, size, by simpa using hroom⟩

theorem viewBlock_spec {view : Block → Option α} {a : α} (h : heap.blocks p = some block)
    (hview : view block = some a) : Meets room heap (viewBlock view p) (.ok a) (Reads heap) := by
  refine .step (load_spec h) ?_
  rintro _ _ ⟨rfl, rfl⟩
  rw [hview]
  exact .pure ⟨rfl, rfl⟩

theorem changeBlock_spec {change : Block → Option Block} {block' : Block}
    (h : Owns start heap ((p, block) :: l)) (hchange : change block = some block') :
    Meets room heap (changeBlock change p) (.ok ()) fun _ _ heap' =>
      Owns start heap' ((p, block') :: l) := by
  refine .step (load_spec (h.live _ (.head _))) ?_
  rintro _ _ ⟨rfl, rfl⟩
  rw [hchange]
  exact store_spec h _

theorem bytesAt_spec {data : List Byte} (h : heap.blocks p = some (.bytes size data)) :
    Meets room heap (bytesAt p) (.ok data) (Reads heap) := viewBlock_spec h rfl

theorem namesAt_spec {data : List Nat} (h : heap.blocks p = some (.names size data)) :
    Meets room heap (namesAt p) (.ok data) (Reads heap) := viewBlock_spec h rfl

theorem readEntry_spec {es : List DirectoryEntry} {i : Nat} (h : heap.blocks p = some block)
    (hes : block.dirEntries? = some es) :
    Meets room heap (readEntry p i) (arrayGet es i) (Reads heap) := by
  refine .step (viewBlock_spec h hes) ?_
  rintro _ _ ⟨rfl, rfl⟩
  exact lift_spec

theorem fillBytes_spec {data bytes : List Byte} (h : Owns start heap ((p, .bytes size data) :: l))
    (hfits : data.length + bytes.length ≤ size) :
    Meets room heap (fillBytes p bytes) (.ok ()) fun _ _ heap' =>
      Owns start heap' ((p, .bytes size (data ++ bytes)) :: l) := changeBlock_spec h (if_pos hfits)

theorem fillEntry_spec {data : List DirectoryEntry} {entry : DirectoryEntry}
    (h : Owns start heap ((p, .entries size data) :: l)) (hfits : data.length < size) :
    Meets room heap (fillEntry p entry) (.ok ()) fun _ _ heap' =>
      Owns start heap' ((p, .entries size (data ++ [entry])) :: l) := changeBlock_spec h (if_pos hfits)

theorem fillName_spec {data : List Nat} {val : Nat}
    (h : Owns start heap ((p, .names size data) :: l)) (hfits : data.length < size) :
    Meets room heap (fillName p val) (.ok ()) fun _ _ heap' =>
      Owns start heap' ((p, .names size (data ++ [val])) :: l) := changeBlock_spec h (if_pos hfits)

theorem kmallocPread_spec {dev : BlockDevice} {offset : Nat} (h : Owns start heap l) :
    Meets room heap (kmallocPread room dev size offset)
      (allocBuffer size >>= fun _ => pure (preadDevice dev size offset)) fun bytes p heap' =>
        bytes.length = size ∧ Owns start heap' ((p, .bytes size bytes) :: l) := by
  have hlength : (preadDevice dev size offset).length = size := by rw [preadDevice_eq, length_slice]
  refine .bind (kmalloc_spec h _) fun _ p heap' _ howns => ?_
  refine .step (fillBytes_spec howns (by rw [hlength, List.length_nil, Nat.zero_add])) ?_
  exact fun _ _ howns => .pure ⟨hlength, howns⟩

end Blocks

/-! ## Directories -/

section Directories
variable {room : DriverHeap → Nat → Bool} {start heap : DriverHeap} {l : List (Nat × Block)}
  {p left i n count : Nat} {block : Block} {es : List DirectoryEntry}

theorem countValidEntries_spec {included : Bool} (h : heap.blocks p = some block)
    (hes : block.dirEntries? = some es) :
    Meets room heap (countValidEntries p included left i n)
      (TrazelOs.countValidEntries es included left i n) (Reads heap) := by
  induction left generalizing i n with
  | zero => exact .pure ⟨rfl, rfl⟩
  | succ left ih =>
    refine .bind (readEntry_spec h hes) ?_
    rintro entry _ _ - ⟨rfl, rfl⟩
    exact .ite (fun _ => .pure ⟨rfl, rfl⟩) fun _ => .ite (fun _ => ih) fun _ =>
      .ite (fun _ => ih) fun _ => ih

/-- The loop keeps an invariant `I` of what it has visited. -/
theorem forValidEntries_spec {f : DirectoryEntry → α} {visit : DirectoryEntry → HeapM Unit}
    {I : List α → DriverHeap → Prop}
    (hread : ∀ acc heap, I acc heap → heap.blocks p = some block)
    (hes : block.dirEntries? = some es)
    (hvisit : ∀ acc entry heap, I acc heap → acc.length < n →
      Meets room heap (visit entry) (.ok ()) fun _ _ heap' => I (acc ++ [f entry]) heap')
    {acc r : List α} (hI : I acc heap) (hr : mapValidEntries f es left i = .ok r)
    (hn : acc.length + r.length ≤ n) :
    Meets room heap (forValidEntries visit p left i) (.ok ()) fun _ _ heap' => I (acc ++ r) heap' := by
  induction left generalizing i acc r heap with
  | zero =>
    cases hr
    exact .pure (by rwa [List.append_nil])
  | succ left ih =>
    obtain ⟨entry, hentry, hr⟩ := Exec.bind_eq_ok.mp hr
    have hget : Meets room heap (readEntry p i) (.ok entry) (Reads heap) :=
      hentry ▸ readEntry_spec (hread acc heap hI) hes
    refine .step hget ?_
    rintro _ _ ⟨rfl, rfl⟩
    split at hr
    · rename_i hfinal
      cases hr
      rw [if_pos hfinal]
      exact .pure (by rwa [List.append_nil])
    · rename_i hfinal
      rw [if_neg hfinal]
      split at hr
      · rename_i hdeleted
        rw [if_pos hdeleted]
        exact ih hI hr hn
      · rename_i hdeleted
        rw [if_neg hdeleted]
        split at hr
        · rename_i hlabel
          rw [if_pos hlabel]
          exact ih hI hr hn
        · rename_i hlabel
          obtain ⟨rest, hrest, hr⟩ := Exec.bind_eq_ok.mp hr
          cases hr
          rw [if_neg hlabel]
          rw [List.length_cons] at hn
          refine .step (hvisit acc _ _ hI (by omega)) fun _ heap' hI' => ?_
          rw [List.append_cons]
          exact ih hI' hrest (by rw [List.length_append, List.length_singleton]; omega)

/-- What was counted is what the loops over the entries visit. -/
theorem mapValidEntries_of_count {f : DirectoryEntry → α}
    (h : TrazelOs.countValidEntries es false left 0 0 = .ok count) :
    ∃ r, mapValidEntries f es left 0 = .ok r ∧ r.length = count ∧
      r = (listing (es.take left)).map f := by
  rw [countValidEntries_eq] at h
  obtain ⟨entries, hentries, rfl⟩ := Exec.map_eq_ok.mp h
  obtain ⟨hin, rfl⟩ := mapValidEntries_eq.mp hentries
  refine ⟨_, mapValidEntries_eq.mpr ⟨hin, rfl⟩, ?_, ?_⟩
  · rw [List.length_map, List.length_map, Nat.zero_add]
  · rw [List.drop_zero]

theorem filterValidDirectoryEntries_spec (h : Owns start heap ((p, block) :: l))
    (hes : block.dirEntries? = some es) :
    Meets room heap (filterValidDirectoryEntries room p n)
      (TrazelOs.filterValidDirectoryEntries es n) fun r a heap' =>
        a.2 = r.2 ∧ Owns start heap' ((a.1, .entries r.2 r.1) :: l) := by
  refine .bind (countValidEntries_spec (h.live _ (.head _)) hes) ?_
  rintro count _ _ hcount ⟨rfl, rfl⟩
  obtain ⟨entries, hentries, hlength, -⟩ := mapValidEntries_of_count (f := id) hcount
  refine .bind (kmalloc_spec h _) fun _ filtered heap₁ _ howns => ?_
  rw [hentries]
  have hloop : Meets room heap₁ (forValidEntries (fillEntry filtered) p n 0) (.ok ()) fun _ _ heap' =>
      Owns start heap' ((filtered, .entries count ([] ++ entries)) :: (p, block) :: l) :=
    forValidEntries_spec (n := count) (f := id)
      (I := fun acc heap => Owns start heap ((filtered, .entries count acc) :: (p, block) :: l))
      (fun _ _ hI => hI.live _ (.tail _ (.head _))) hes
      (fun _ _ _ hI hlt => fillEntry_spec hI hlt) howns hentries
      (by rw [List.length_nil, Nat.zero_add, hlength])
  refine .step hloop fun _ heap₂ howns => ?_
  refine .step (kfree_spec (howns.perm (.swap ..))) fun _ heap₃ howns => ?_
  exact .pure ⟨rfl, howns⟩

end Directories

/-! ## Names -/

/-- The blocks of names. -/
def nameBlocks (named : List (Nat × List Byte)) : List (Nat × Block) :=
  named.map fun e => (e.1, .bytes fileNameBufferSize (e.2 ++ [0]))

theorem length_fatFileNameToStr_le (name : List Byte) :
    (TrazelOs.fatFileNameToStr name).length ≤ 12 := by
  unfold TrazelOs.fatFileNameToStr
  rw [List.length_map]
  refine Nat.le_trans (List.length_filter_le ..) ?_
  rw [List.length_append, List.length_cons, List.length_take, List.length_take]
  omega

theorem getD_null (str : List Byte) (i : Nat) : (str ++ [0]).getD i 0 = str.getD i 0 := by
  rcases Nat.lt_trichotomy i str.length with hlt | heq | hgt
  · rw [List.getD_append _ _ _ _ hlt]
  · rw [List.getD_append_right _ _ _ _ (Nat.le_of_eq heq.symm), heq, Nat.sub_self,
      List.getD_eq_default _ _ (Nat.le_refl _)]
    rfl
  · rw [List.getD_eq_default _ _ (by rw [List.length_append, List.length_singleton]; omega),
      List.getD_eq_default _ _ (Nat.le_of_lt hgt)]

/-- The terminating null is where the list ends. -/
theorem strncmp_null {str name : List Byte} {n i : Nat} :
    strncmp str (name ++ [0]) n i = strncmp str name n i := by
  induction n generalizing i with
  | zero => rfl
  | succ n ih =>
    unfold strncmp
    rw [getD_null, ih]

section Names
variable {room : DriverHeap → Nat → Bool} {start heap : DriverHeap} {l : List (Nat × Block)}
  {p names left i n count : Nat} {block : Block} {es : List DirectoryEntry}
  {named : List (Nat × List Byte)} {element : List Byte}

theorem fatFileNameToStr_spec {name : List Byte} (h : Owns start heap l) :
    Meets room heap (fatFileNameToStr room name) (.ok ()) fun _ val heap' =>
      Owns start heap' ((val, .bytes fileNameBufferSize (TrazelOs.fatFileNameToStr name ++ [0])) :: l) := by
  have hlength := length_fatFileNameToStr_le name
  have halloc : Meets room heap (kmalloc room fileNameBufferSize (.bytes fileNameBufferSize []))
      (.ok ()) fun _ val heap' =>
        Owns start heap' ((val, .bytes fileNameBufferSize []) :: l) := kmalloc_spec h _
  refine .step halloc fun val heap₁ howns => ?_
  refine .step (fillBytes_spec howns ?_) fun _ heap₂ howns => .pure howns
  rw [List.length_nil, List.length_append, List.length_singleton, fileNameBufferSize]
  omega

/-- The names so far and their array. -/
def NamesOwned (start : DriverHeap) (names n : Nat) (l : List (Nat × Block))
    (named : List (Nat × List Byte)) (heap : DriverHeap) : Prop :=
  Owns start heap (nameBlocks named ++ (names, .names n (named.map Prod.fst)) :: l)

theorem nameEntry_spec {entry : DirectoryEntry} (h : NamesOwned start names n l named heap)
    (hlt : named.length < n) :
    Meets room heap (nameEntry room names entry) (.ok ()) fun _ _ heap' => ∃ val,
      NamesOwned start names n l
        (named ++ [(val, TrazelOs.fatFileNameToStr entry.fileName)]) heap' := by
  refine .step (fatFileNameToStr_spec h) fun val heap₁ howns => ?_
  -- The array is taken to the front for the store.
  have hfront := howns.perm ((List.perm_middle.cons _).trans (.swap ..))
  refine .mono (fillName_spec hfront (by rwa [List.length_map])) fun _ _ heap₂ _ howns => ⟨val, ?_⟩
  unfold NamesOwned nameBlocks
  rw [List.map_append, List.map_append, List.append_assoc]
  exact howns.perm ((List.Perm.swap ..).trans ((List.perm_middle.symm.cons _).trans
    List.perm_middle.symm))

theorem getEntriesFileNames_spec (h : Owns start heap l) (hmem : (p, block) ∈ l)
    (hes : block.dirEntries? = some es) :
    Meets room heap (getEntriesFileNames room p count) (TrazelOs.getEntriesFileNames es count)
      fun strs names heap' => ∃ named : List (Nat × List Byte), named.map Prod.snd = strs ∧
        NamesOwned start names named.length l named heap' := by
  refine .bind (countValidEntries_spec (h.live _ hmem) hes) ?_
  rintro n _ _ hcount ⟨rfl, rfl⟩
  obtain ⟨strs, hstrs, hlength, -⟩ :=
    mapValidEntries_of_count (f := fun entry => TrazelOs.fatFileNameToStr entry.fileName) hcount
  refine .bind (kmalloc_spec h _) fun _ names heap₁ _ howns => ?_
  rw [hstrs]
  have hloop : Meets room heap₁ (forValidEntries (nameEntry room names) p count 0) (.ok ())
      fun _ _ heap' => ∃ named : List (Nat × List Byte), named.map Prod.snd = [] ++ strs ∧
        NamesOwned start names n l named heap' := by
    refine forValidEntries_spec (n := n)
      (I := fun acc heap => ∃ named : List (Nat × List Byte), named.map Prod.snd = acc ∧
        NamesOwned start names n l named heap) ?_ hes ?_ ⟨[], rfl, howns⟩ hstrs
      (by rw [List.length_nil, Nat.zero_add, hlength])
    · rintro _ heap ⟨named, -, hnamed⟩
      exact hnamed.live _ (List.mem_append_right _ (.tail _ hmem))
    · rintro _ entry heap ⟨named, rfl, hnamed⟩ hlt
      refine .mono (nameEntry_spec hnamed (by rwa [List.length_map] at hlt)) ?_
      rintro _ _ heap' - ⟨val, hnamed⟩
      exact ⟨_, by rw [List.map_append, List.map_singleton], hnamed⟩
  refine .step hloop ?_
  rintro _ heap₂ ⟨named, hnamed, howned⟩
  have hn : n = named.length := by rw [← hlength, ← List.nil_append strs, ← hnamed, List.length_map]
  exact .pure ⟨named, hnamed, hn ▸ howned⟩

theorem NamesOwned.array (h : NamesOwned start names n l named heap) :
    heap.blocks names = some (.names n (named.map Prod.fst)) :=
  h.live _ (List.mem_append_right _ (.head _))

/-- The name with an index. -/
theorem nameAt_spec {e : Nat × List Byte} (hget : named[i]? = some e) :
    Meets room heap (lift (arrayGet (named.map Prod.fst) i)) (.ok e.1) (Reads heap) := by
  have harray : arrayGet (named.map Prod.fst) i = .ok e.1 :=
    arrayGet_eq.mpr (by rw [List.getElem?_map, hget]; rfl)
  rw [harray]
  exact lift_spec

theorem findPathElement_spec (h : NamesOwned start names n l named heap)
    (hlength : named.length = es.length) {len : Nat} :
    Meets room heap (findPathElement names element len left i)
      (TrazelOs.findPathElement es (named.map Prod.snd) element len left i) fun entry index heap' =>
        heap = heap' ∧ Option.Rel (fun i entry => es[i]? = some entry) index entry := by
  induction left generalizing i with
  | zero => exact .pure ⟨rfl, .none⟩
  | succ left ih =>
    unfold findPathElement TrazelOs.findPathElement
    refine .step (namesAt_spec h.array) ?_
    rintro _ _ ⟨rfl, rfl⟩
    cases hget : named[i]? with
    | none =>
      have hle : named.length ≤ i := List.getElem?_eq_none_iff.mp hget
      rw [arrayGet_none (by rwa [List.length_map]), arrayGet_none (by rwa [List.length_map])]
      exact Refines.error (e := Fault.wild) rfl
    | some e =>
      have hname : arrayGet (named.map Prod.snd) i = .ok e.2 :=
        arrayGet_eq.mpr (by rw [List.getElem?_map, hget]; rfl)
      have hblock : heap.blocks e.1 = some (.bytes fileNameBufferSize (e.2 ++ [0])) :=
        h.live (e.1, _) (List.mem_append_left _ (List.mem_map_of_mem (List.mem_of_getElem? hget)))
      obtain ⟨entry, hentry⟩ : ∃ entry, es[i]? = some entry :=
        ⟨_, List.getElem?_eq_getElem (hlength ▸ (List.getElem?_eq_some_iff.mp hget).1)⟩
      rw [hname]
      refine .step (nameAt_spec hget) ?_
      rintro _ _ ⟨rfl, rfl⟩
      refine .step (bytesAt_spec hblock) ?_
      rintro _ _ ⟨rfl, rfl⟩
      rw [strncmp_null, getD_null]
      refine .ite (fun _ => ?_) fun _ => ih
      rw [arrayGet_eq.mpr hentry]
      exact .pure ⟨rfl, .some hentry⟩

/-- The names are released from the first one on. -/
theorem freeNames_spec {rest : List (Nat × List Byte)} (hrest : named.drop i = rest)
    (hleft : left = rest.length)
    (h : Owns start heap (nameBlocks rest ++ (names, .names n (named.map Prod.fst)) :: l)) :
    Meets room heap (freeNames names left i) (.ok ()) fun _ _ heap' =>
      Owns start heap' ((names, .names n (named.map Prod.fst)) :: l) := by
  induction rest generalizing i left heap with
  | nil =>
    subst hleft
    exact .pure h
  | cons e rest ih =>
    subst hleft
    have hget : named[i]? = some e := by
      rw [← List.head?_drop, hrest]
      rfl
    have hnames := h.live (names, _) (List.mem_append_right _ (.head _))
    refine .step (namesAt_spec hnames) ?_
    rintro _ _ ⟨rfl, rfl⟩
    refine .step (nameAt_spec hget) ?_
    rintro _ _ ⟨rfl, rfl⟩
    refine .step (kfree_spec h) fun _ heap₁ howns => ih ?_ rfl howns
    rw [← List.tail_drop, hrest]
    rfl

/-- The array of the directory stays, and the names are gone. -/
theorem getPathElementDirEntry_spec (h : Owns start heap l) (hmem : (p, .entries n es) ∈ l)
    (F : Filtered es count) {len : Nat} :
    Meets room heap (getPathElementDirEntry room p element len count)
      (TrazelOs.getPathElementDirEntry es element len count) fun entry index heap' =>
        Owns start heap' l ∧ Option.Rel (fun i entry => es[i]? = some entry) index entry := by
  refine .bind (getEntriesFileNames_spec h hmem rfl) ?_
  rintro strs names heap₁ hstrs ⟨named, rfl, hnamed⟩
  have hlength : named.length = count := by
    obtain ⟨_, hcount, hstrs⟩ := Exec.bind_eq_ok.mp hstrs
    obtain ⟨_, -, hstrs⟩ := Exec.bind_eq_ok.mp hstrs
    obtain ⟨-, heq⟩ := mapValidEntries_eq.mp hstrs
    rw [F.2, List.drop_zero, List.take_length, listing_self F.1] at heq
    have := congrArg List.length heq
    rw [List.length_map, List.length_map] at this
    rw [this, F.2]
  rw [← bind_pure (TrazelOs.findPathElement ..)]
  refine .bind (findPathElement_spec hnamed (hlength.trans F.2)) ?_
  rintro entry index _ - ⟨rfl, hindex⟩
  refine .step (freeNames_spec (List.drop_zero ..) hlength.symm hnamed) fun _ heap₂ howns => ?_
  exact .step (kfree_spec howns) fun _ heap₃ howns => .pure ⟨howns, hindex⟩

end Names

/-! ## Clusters -/

section Clusters
variable {room : DriverHeap → Nat → Bool} {dev : BlockDevice} {info : Fat12Info}
  {start heap : DriverHeap} {l : List (Nat × Block)} {p fat size left i n clusterId turns : Nat}
  {table : List Byte} {es : List DirectoryEntry}

theorem getNextClusterId_spec (h : heap.blocks fat = some (.bytes size table)) :
    Meets room heap (getNextClusterId clusterId fat) (TrazelOs.getNextClusterId clusterId table)
      (Reads heap) := by
  refine .step (bytesAt_spec h) ?_
  rintro _ _ ⟨rfl, rfl⟩
  exact lift_spec

theorem countFileClusters_spec (h : heap.blocks fat = some (.bytes size table)) :
    Meets room heap (countFileClusters fat turns clusterId)
      (TrazelOs.countFileClusters table turns clusterId) (Reads heap) := by
  induction turns generalizing clusterId with
  | zero => exact .error rfl
  | succ turns ih =>
    refine .ite (fun _ => .pure ⟨rfl, rfl⟩) fun _ => .bind (getNextClusterId_spec h) ?_
    rintro next _ _ - ⟨rfl, rfl⟩
    refine .bind ih ?_
    rintro clusters _ _ - ⟨rfl, rfl⟩
    exact .pure ⟨rfl, rfl⟩

theorem readCluster_spec (h : Owns start heap l) :
    Meets room heap (readCluster room dev info clusterId) (TrazelOs.readCluster dev info clusterId)
      fun bytes p heap' => bytes.length = info.bytesPerCluster ∧
        Owns start heap' ((p, .bytes info.bytesPerCluster bytes) :: l) := by
  have hsize : u32 (info.sectorsPerCluster * info.bytesPerSector) = info.bytesPerCluster := by
    rw [Fat12Info.bytesPerCluster, Nat.mul_comm]
  unfold readCluster TrazelOs.readCluster
  rw [hsize]
  exact kmallocPread_spec h

/-- Every turn allocates a cluster, copies it and releases it. -/
theorem readClusters_spec {fileContent : Nat} {acc : List Byte}
    (h : Owns start heap ((fileContent, .bytes size acc) :: l)) (hfat : (fat, .bytes n table) ∈ l)
    (hsize : acc.length + left * info.bytesPerCluster ≤ size) :
    Meets room heap (readClusters room dev info fileContent fat left clusterId)
      (TrazelOs.readClusters dev info table left clusterId) fun bytes _ heap' =>
        Owns start heap' ((fileContent, .bytes size (acc ++ bytes)) :: l) := by
  induction left generalizing heap acc clusterId with
  | zero => exact .pure (by rwa [List.append_nil])
  | succ left ih =>
    rw [Nat.succ_mul] at hsize
    refine .bind (readCluster_spec h) ?_
    rintro bytes clusterData heap₁ - ⟨hlength, howns⟩
    refine .step (bytesAt_spec (howns.live _ (.head _))) ?_
    rintro _ _ ⟨rfl, rfl⟩
    refine .step (fillBytes_spec (howns.perm (.swap ..)) (by omega)) fun _ heap₂ howns => ?_
    refine .step (kfree_spec (howns.perm (.swap ..))) fun _ heap₃ howns => ?_
    refine .bind (getNextClusterId_spec (howns.live _ (.tail _ hfat))) ?_
    rintro next _ _ - ⟨rfl, rfl⟩
    refine .mapRight (ih howns (by rw [List.length_append]; omega)) fun rest _ heap₄ _ howns => ?_
    rwa [← List.append_assoc]

theorem getFileContent_spec {entry : DirectoryEntry} (h : Owns start heap l)
    (hmem : (p, .entries n es) ∈ l) (hget : es[i]? = some entry) :
    Meets room heap (getFileContent room dev info p i) (TrazelOs.getFileContent dev info entry)
      fun r a heap' => a.1 = r.1 ∧ Owns start heap' ((a.2, .bytes r.2.length r.2) :: l) := by
  have hentry {heap : DriverHeap} {l' : List (Nat × Block)} (h : Owns start heap l')
      (hsub : l ⊆ l') : Meets room heap (readEntry p i) (.ok entry) (Reads heap) :=
    arrayGet_eq.mpr hget ▸ readEntry_spec (h.live _ (hsub hmem)) rfl
  refine .bind (kmallocPread_spec h) ?_
  rintro table fat heap₁ - ⟨-, howns⟩
  refine .step (hentry howns (List.subset_cons_self ..)) ?_
  rintro _ _ ⟨rfl, rfl⟩
  refine .bind (countFileClusters_spec (howns.live _ (.head _))) ?_
  rintro count _ _ - ⟨rfl, rfl⟩
  refine .bind (kmalloc_spec howns _) fun _ fileContent heap₂ _ howns => ?_
  refine .step (hentry howns fun e he => .tail _ (.tail _ he)) ?_
  rintro _ _ ⟨rfl, rfl⟩
  refine .bind (readClusters_spec howns (.head _)
    (by rw [List.length_nil, Nat.zero_add, Fat12Info.bytesPerCluster])) fun bytes _ heap₃ hread howns => ?_
  rw [List.nil_append] at howns
  refine .step (kfree_spec (howns.perm (.swap ..))) fun _ heap₄ howns => ?_
  refine .step (hentry howns (List.subset_cons_self ..)) ?_
  rintro _ _ ⟨rfl, rfl⟩
  have hlength : count * u32 (info.bytesPerSector * info.sectorsPerCluster) = bytes.length :=
    (length_readClusters hread).symm
  rw [hlength] at howns
  exact .ite (fun _ => .pure ⟨rfl, howns⟩) fun _ => .pure ⟨rfl, howns⟩

theorem getFilteredDirectoryEntries_spec {entry : DirectoryEntry} (h : Owns start heap l)
    (hmem : (p, .entries n es) ∈ l) (hget : es[i]? = some entry) :
    Meets room heap (getFilteredDirectoryEntries room dev info p i)
      (TrazelOs.getFilteredDirectoryEntries dev info entry) fun r a heap' =>
        a.2 = r.2 ∧ Owns start heap' ((a.1, .entries r.2 r.1) :: l) := by
  refine .bind (getFileContent_spec h hmem hget) ?_
  rintro ⟨directoryBytes, content⟩ ⟨_, dirs⟩ heap₁ - ⟨rfl, howns⟩
  exact filterValidDirectoryEntries_spec howns rfl

theorem getRootDirectoryEntries_spec (h : Owns start heap l) :
    Meets room heap (getRootDirectoryEntries room dev info)
      (TrazelOs.getRootDirectoryEntries dev info) fun r a heap' =>
        a.2 = r.2 ∧ Owns start heap' ((a.1, .entries r.2 r.1) :: l) := by
  have hvalue : TrazelOs.getRootDirectoryEntries dev info =
      (allocBuffer (u32 (info.rootDirSectorsSize * info.bytesPerSector)) >>= fun _ =>
        pure (preadDevice dev (u32 (info.rootDirSectorsSize * info.bytesPerSector))
          (u32 (info.rootDirSectorOffset * info.bytesPerSector)))) >>= fun bytes =>
            TrazelOs.filterValidDirectoryEntries (directoryEntries bytes)
              (u32 (info.rootDirSectorsSize * info.bytesPerSector) / sizeofDirectoryEntry) := by
    rw [bind_assoc]
    rfl
  rw [hvalue]
  refine .bind (kmallocPread_spec h) ?_
  rintro bytes dirEntries heap₁ - ⟨-, howns⟩
  exact filterValidDirectoryEntries_spec howns rfl

end Clusters

/-! ## Opening a file -/

/-- `struct vfs_file` of a file with the content; the other fields are what the memory held. -/
def openedFile (stale : VfsFile) (fileSize fsPrivateData : Nat) : VfsFile :=
  { stale with fileSize, fsPrivateData, kind := .fat12 }

/-- What is left of the blocks: those of the file that was opened. -/
inductive Outcome (start : DriverHeap) (fileVfs : Nat) (stale : VfsFile) :
    Option (Nat × List Byte) → Option Nat → DriverHeap → Prop
  | missing {heap : DriverHeap} (owns : Owns start heap []) : Outcome start fileVfs stale none none heap
  | opened {heap : DriverHeap} {fileSize content : Nat} {bytes : List Byte}
      (owns : Owns start heap [(fileVfs, .file (openedFile stale fileSize content)),
        (content, .bytes bytes.length bytes)]) :
      Outcome start fileVfs stale (some (fileSize, bytes)) (some fileVfs) heap

section Open
variable {room : DriverHeap → Nat → Bool} {dev : BlockDevice} {info : Fat12Info}
  {start heap : DriverHeap} {l : List (Nat × Block)} {p fileVfs fileSize content count : Nat}
  {stale : VfsFile} {es : List DirectoryEntry} {element rest : List Byte}

theorem setContent_spec (h : Owns start heap ((fileVfs, .file stale) :: l)) :
    Meets room heap (setContent fileVfs fileSize content) (.ok ()) fun _ _ heap' =>
      Owns start heap' ((fileVfs, .file (openedFile stale fileSize content)) :: l) :=
  changeBlock_spec h rfl

/-- The directory and the file are released when the path leads nowhere. -/
theorem missing_spec (h : Owns start heap [(p, .entries count es), (fileVfs, .file stale)]) :
    Meets room heap (do kfree p; kfree fileVfs; return none) (.ok none)
      (Outcome start fileVfs stale) :=
  .step (kfree_spec h) fun _ _ howns => .step (kfree_spec howns) fun _ _ howns =>
    .pure (.missing howns)

theorem walkPath_spec (h : Owns start heap [(p, .entries count es), (fileVfs, .file stale)])
    (F : Filtered es count) :
    Meets room heap (walkPath room dev info fileVfs p count element rest)
      (TrazelOs.walkPath dev info es count element rest) (Outcome start fileVfs stale) := by
  induction rest generalizing heap p es count element with
  | nil =>
    refine .bind (getPathElementDirEntry_spec h (.head _) F) ?_
    rintro entry index heap₁ - ⟨howns, hindex⟩
    cases hindex with
    | none => exact missing_spec howns
    | some hget =>
      dsimp only
      rw [map_eq_pure_bind]
      refine .bind (getFileContent_spec howns (.head _) hget) ?_
      rintro ⟨fileSize, bytes⟩ ⟨_, content⟩ heap₂ - ⟨rfl, howns⟩
      -- The file is behind the content and the directory, and then the directory behind the two.
      refine .step (setContent_spec howns.rotate) fun _ heap₃ howns => ?_
      refine .step (kfree_spec howns.rotate) ?_
      exact fun _ _ howns => .pure (.opened howns)
  | cons c rest ih =>
    refine .ite (fun _ => ?_) fun _ => ih h F
    refine .bind (getPathElementDirEntry_spec h (.head _) F) ?_
    rintro entry index heap₁ - ⟨howns, hindex⟩
    cases hindex with
    | none => exact missing_spec howns
    | some hget =>
      refine .bind (getFilteredDirectoryEntries_spec howns (.head _) hget) ?_
      rintro ⟨es', count'⟩ ⟨p', _⟩ heap₂ hfiltered ⟨rfl, howns⟩
      obtain ⟨_, -, hfiltered⟩ := Exec.bind_eq_ok.mp hfiltered
      refine .step (kfree_spec (howns.perm (.swap ..))) fun _ heap₃ howns => ?_
      exact ih howns (filterValidDirectoryEntries_filtered hfiltered)

/-- `fat12_open` on the heap opens what it opens on lists. -/
theorem fat12Open_spec {filepath : CString} :
    Meets room heap (fat12Open room dev info stale filepath) (fat12OpenPath dev info filepath)
      fun found file heap' => ∃ fileVfs, Outcome heap fileVfs stale found file heap' := by
  have halloc : Meets room heap (kmalloc room sizeofVfsFile (.file stale)) (.ok ())
      fun _ fileVfs heap' => Owns heap heap' [(fileVfs, .file stale)] := kmalloc_spec (.refl heap) _
  refine .step halloc fun fileVfs heap₁ howns => ?_
  refine .bind (getRootDirectoryEntries_spec howns) ?_
  rintro ⟨es, count⟩ ⟨p, _⟩ heap₂ hroot ⟨rfl, howns⟩
  obtain ⟨_, -, hroot⟩ := Exec.bind_eq_ok.mp hroot
  refine .mono (walkPath_spec howns (filterValidDirectoryEntries_filtered hroot)) ?_
  exact fun _ _ _ _ houtcome => ⟨fileVfs, houtcome⟩

/-! ## Closing it -/

theorem store_blocks {block block' : Block} (h : heap.blocks p = some block) :
    Meets room heap (store p block') (.ok ()) fun _ _ heap' =>
      heap'.blocks = Function.update heap.blocks p (some block') := by
  obtain ⟨heap', hset, -, hblocks⟩ := set_live h block'
  exact .ok (store_run hset) hblocks

theorem kfree_blocks {block : Block} (h : heap.blocks p = some block) :
    Meets room heap (kfree p) (.ok ()) fun _ _ heap' =>
      heap'.blocks = Function.update heap.blocks p none := by
  obtain ⟨heap', hfree, -, hblocks⟩ := free_live h
  exact .ok (kfree_run hfree) hblocks

/-- What `vfs_close` does to the blocks of a file: the last reference releases both. -/
def closedBlocks (blocks : Nat → Option Block) (file : Nat) (vfsFile : VfsFile) : Nat → Option Block :=
  if vfsFile.fileRefCount ≤ 1 then
    Function.update (Function.update blocks vfsFile.fsPrivateData none) file none
  else
    Function.update blocks file
      (some (.file { vfsFile with fileRefCount := vfsFile.fileRefCount - 1 }))

theorem vfsClose_spec {file size : Nat} {vfsFile : VfsFile} {bytes : List Byte}
    (hfile : heap.blocks file = some (.file vfsFile)) (hkind : vfsFile.kind = .fat12)
    (hcontent : heap.blocks vfsFile.fsPrivateData = some (.bytes size bytes)) :
    Meets room heap (vfsClose file) (.ok 0) fun status a heap' =>
      status = a ∧ heap'.blocks = closedBlocks heap.blocks file vfsFile := by
  have hne : vfsFile.fsPrivateData ≠ file := by
    intro heq
    rw [heq, hfile] at hcontent
    cases hcontent
  refine .step (load_spec hfile) ?_
  rintro _ _ ⟨rfl, rfl⟩
  refine .step (store_blocks hfile) fun _ heap₁ hblocks => ?_
  have hcount : (if vfsFile.fileRefCount > 0 then vfsFile.fileRefCount - 1 else 0) =
      vfsFile.fileRefCount - 1 := by
    split
    · rfl
    · omega
  rw [hcount] at hblocks ⊢
  unfold closedBlocks
  by_cases hlast : vfsFile.fileRefCount ≤ 1
  · rw [if_pos (by omega), if_pos hkind, if_pos hlast]
    have hcontent₁ : heap₁.blocks vfsFile.fsPrivateData = some (.bytes size bytes) := by
      rw [hblocks, Function.update_of_ne hne, hcontent]
    refine .step (kfree_blocks hcontent₁) fun _ heap₂ hblocks₂ => ?_
    have hfile₂ : ∃ block, heap₂.blocks file = some block := by
      rw [hblocks₂, Function.update_of_ne hne.symm, hblocks, Function.update_self]
      exact ⟨_, rfl⟩
    obtain ⟨block, hfile₂⟩ := hfile₂
    refine .step (kfree_blocks hfile₂) fun _ heap₃ hblocks₃ => .pure ⟨rfl, ?_⟩
    rw [hblocks₃, hblocks₂, hblocks, Function.update_comm hne.symm, Function.update_idem,
      Function.update_comm hne]
  · rw [if_neg (by omega), if_neg hlast]
    exact .pure ⟨rfl, hblocks⟩

end Open

end Driver

section Balance
open Driver

/-- On every volume and path, `fat12_open` uses no block that is not live. When it returns NULL, the
blocks are those before the call; when it returns a file, there are two more, the file and its content,
and these are what `vfs_close` releases with the last reference. -/
theorem fat12Open_balanced (room : DriverHeap → Nat → Bool) (dev : BlockDevice) (info : Fat12Info)
    (stale : VfsFile) (filepath : CString) (heap : DriverHeap) :
    Driver.fat12Open room dev info stale filepath heap ≠ .error .misuse ∧
    (∀ heap', Driver.fat12Open room dev info stale filepath heap = .ok (none, heap') →
      heap'.blocks = heap.blocks) ∧
    (∀ file heap', Driver.fat12Open room dev info stale filepath heap = .ok (some file, heap') →
      ∃ fileSize content bytes, file ≠ content ∧
        heap.blocks file = none ∧ heap.blocks content = none ∧
        heap'.blocks file = some (.file (openedFile stale fileSize content)) ∧
        heap'.blocks content = some (.bytes bytes.length bytes) ∧
        (∀ p, p ≠ file → p ≠ content → heap'.blocks p = heap.blocks p) ∧
        ∀ (later : DriverHeap) (vfsFile : VfsFile), later.blocks file = some (.file vfsFile) →
          vfsFile.kind = .fat12 → vfsFile.fsPrivateData = content →
          later.blocks content = some (.bytes bytes.length bytes) →
          ∃ closed, Driver.vfsClose file later = .ok (0, closed) ∧
            closed.blocks = closedBlocks later.blocks file vfsFile) := by
  have hopen : Meets room heap (Driver.fat12Open room dev info stale filepath)
      (fat12OpenPath dev info filepath) fun found file heap' =>
        ∃ fileVfs, Outcome heap fileVfs stale found file heap' := fat12Open_spec
  refine ⟨fun hmisuse => ?_, fun heap' hrun => ?_, fun file heap' hrun => ?_⟩
  · obtain ⟨hstop, -⟩ | ⟨_, -, hfault⟩ := hopen.of_error hmisuse
    · cases hstop
    · cases hfault
  · obtain ⟨found, -, fileVfs, houtcome⟩ := hopen.of_ok hrun
    cases houtcome with
    | missing howns => exact howns.blocks_eq
  · obtain ⟨found, -, fileVfs, houtcome⟩ := hopen.of_ok hrun
    cases houtcome with
    | @opened _ fileSize content bytes howns =>
      have hne : file ≠ content := (howns.ne_head (.head _)).symm
      refine ⟨fileSize, content, bytes, hne, howns.start_none (.head _),
        howns.start_none (.tail _ (.head _)), howns.live _ (.head _),
        howns.live _ (.tail _ (.head _)), fun p hfile hcontent => howns.rest p ?_, ?_⟩
      · simp only [List.map_cons, List.map_nil, List.mem_cons, List.not_mem_nil, or_false, not_or]
        exact ⟨hfile, hcontent⟩
      · rintro later vfsFile hfile hkind rfl hcontent
        have hclose : Meets (fun _ _ => true) later (Driver.vfsClose file) (.ok 0) fun status a heap' =>
            status = a ∧ heap'.blocks = closedBlocks later.blocks file vfsFile :=
          vfsClose_spec hfile hkind hcontent
        obtain ⟨_, closed, hrun, rfl, hblocks⟩ := hclose.returns (by
          rintro _ ⟨-, _, _, hroom⟩
          cases hroom)
        exact ⟨closed, hrun, hblocks⟩

def emptyHeap : DriverHeap := ⟨0, fun _ => none, fun _ _ => rfl⟩

/-- The memory of the file, with a count of one reference. -/
def staleFile : VfsFile := ⟨0, 0, 1, .fat12, 0⟩

/-- A path that leads nowhere leaves the heap empty. The file of `forgedVolume` leaves two blocks, which
are gone when it is closed. -/
theorem fat12Open_balanced_forgedVolume :
    (∃ heap, Driver.fat12Open (fun _ _ => true) forgedVolume (volumeInfo forgedHeader) staleFile
      ⟨[0x2F, 0x78], by decide⟩ emptyHeap = .ok (none, heap) ∧ heap.blocks = emptyHeap.blocks) ∧
    ∃ file heap content closed, Driver.fat12Open (fun _ _ => true) forgedVolume
        (volumeInfo forgedHeader) staleFile filePath emptyHeap = .ok (some file, heap) ∧
      file ≠ content ∧ (∀ p, p ≠ file → p ≠ content → heap.blocks p = none) ∧
      Driver.vfsClose file heap = .ok (0, closed) ∧ closed.blocks file = none ∧
      closed.blocks content = none := by
  have hmissing : Except.map Prod.fst (Driver.fat12Open (fun _ _ => true) forgedVolume
      (volumeInfo forgedHeader) staleFile ⟨[0x2F, 0x78], by decide⟩ emptyHeap) = .ok none := by
    decide +kernel
  have hopened : Except.map Prod.fst (Driver.fat12Open (fun _ _ => true) forgedVolume
      (volumeInfo forgedHeader) staleFile filePath emptyHeap) = .ok (some 0) := by
    decide +kernel
  constructor
  · cases hrun : Driver.fat12Open (fun _ _ => true) forgedVolume (volumeInfo forgedHeader) staleFile
        ⟨[0x2F, 0x78], by decide⟩ emptyHeap with
    | error e =>
      rw [hrun] at hmissing
      cases hmissing
    | ok r =>
      obtain ⟨file, heap⟩ := r
      rw [hrun] at hmissing
      cases hmissing
      exact ⟨heap, rfl, (fat12Open_balanced _ _ _ _ _ _).2.1 heap hrun⟩
  · cases hrun : Driver.fat12Open (fun _ _ => true) forgedVolume (volumeInfo forgedHeader) staleFile
        filePath emptyHeap with
    | error e =>
      rw [hrun] at hopened
      cases hopened
    | ok r =>
      obtain ⟨file, heap⟩ := r
      rw [hrun] at hopened
      cases hopened
      obtain ⟨fileSize, content, bytes, hne, -, -, hfile, hcontent, hrest, hclose⟩ :=
        (fat12Open_balanced _ _ _ _ _ _).2.2 _ heap hrun
      obtain ⟨closed, hclosed, hblocks⟩ := hclose heap _ hfile rfl rfl hcontent
      have hlast : closed.blocks = Function.update (Function.update heap.blocks content none) 0 none :=
        hblocks.trans (if_pos (Nat.le_refl 1))
      refine ⟨0, heap, content, closed, rfl, hne, hrest, hclosed, ?_, ?_⟩
      · rw [hlast, Function.update_self]
      · rw [hlast, Function.update_of_ne hne.symm, Function.update_self]

end Balance

end TrazelOs
