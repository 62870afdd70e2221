import TrazelOs.Kernel.Lookup
import TrazelOs.Verify.MemUtils
import TrazelOs.Verify.Resolution

/-! # Short names in their array

`fat_file_name_to_str` copies the name into an array of 13 bytes, removes the spaces there, with one
index for reading and one for writing, and ends the string. The array then holds what the names of the
format stand for, whatever it has held before, and no two names give one string. -/

namespace TrazelOs

/-! ## The loop -/

/-- The first `i` characters have been read: those that are no spaces stand at the beginning, and the
others are as they were. -/
structure Compacted (name : List Byte) (i : Nat) (state : List Byte × Nat) : Prop where
  length_eq : state.1.length = name.length
  write_le_read : state.2 ≤ i
  written : state.1.take state.2 = ((name.take i).filter (· ≠ 0x20)).map tolower
  ahead : ∀ k, i ≤ k → state.1[k]? = name[k]?

section Loop
variable {name : List Byte} {state : List Byte × Nat} {i n : Nat} {ch : Byte}

theorem Compacted.zero : Compacted name 0 (name, 0) := ⟨rfl, Nat.le_refl _, rfl, fun _ _ => rfl⟩

theorem Compacted.skip (h : Compacted name i state) (hget : name[i]? = some ch) (hspace : ch = 0x20) :
    Compacted name (i + 1) state where
  length_eq := h.length_eq
  write_le_read := Nat.le_succ_of_le h.write_le_read
  written := by
    rw [List.take_add_one, hget, Option.toList_some, List.filter_append, hspace, h.written]
    rw [List.filter_cons_of_neg (by decide), List.filter_nil, List.append_nil]
  ahead := fun k hk => h.ahead k (Nat.le_of_succ_le hk)

/-- The character is stored at or before the place it has been read from. -/
theorem Compacted.keep (h : Compacted name i state) (hget : name[i]? = some ch) (hspace : ch ≠ 0x20) :
    Compacted name (i + 1) (state.1.set state.2 (tolower ch), state.2 + 1) where
  length_eq := by rw [List.length_set, h.length_eq]
  write_le_read := Nat.succ_le_succ h.write_le_read
  written := by
    have hi := (List.getElem?_eq_some_iff.mp hget).1
    have hlt : state.2 < state.1.length := by
      rw [h.length_eq]
      exact Nat.lt_of_le_of_lt h.write_le_read hi
    rw [List.take_add_one, getElem?_set hlt, if_pos rfl, List.take_set_of_le (Nat.le_refl _), h.written]
    have hkeep : [ch].filter (· ≠ 0x20) = [ch] :=
      List.filter_eq_self.mpr fun c hc => List.mem_singleton.mp hc ▸ decide_eq_true hspace
    rw [List.take_add_one, hget, Option.toList_some, Option.toList_some, List.filter_append, hkeep,
      List.map_append]
    rfl
  ahead := fun k hk => by
    have hne : state.2 ≠ k := Nat.ne_of_lt (Nat.lt_of_le_of_lt h.write_le_read hk)
    rw [List.getElem?_set_ne hne, h.ahead k (Nat.le_of_succ_le hk)]

theorem removeSpaces_compacted (h : n ≤ name.length) :
    ∃ state, removeSpaces name n = .ok state ∧ Compacted name n state := by
  refine Exec.foldlM_range_total (p := Compacted name) (fun i state hi hc => ?_) .zero
  have hlt : i < state.1.length := by
    rw [hc.length_eq]
    exact Nat.lt_of_lt_of_le hi h
  obtain ⟨ch, hch, hget⟩ := arrayGet_lt hlt
  have hname : name[i]? = some ch := hc.ahead i (Nat.le_refl _) ▸ hch
  rw [hget, Exec.ok_bind]
  by_cases hspace : ch = 0x20
  · exact ⟨state, if_neg (not_not.mpr hspace), hc.skip hname hspace⟩
  · refine ⟨_, ?_, hc.keep hname hspace⟩
    rw [if_pos hspace, arraySet_lt (Nat.lt_of_le_of_lt hc.write_le_read hlt), Exec.ok_bind]
    rfl

end Loop

/-! ## The function -/

section Copies
variable {name name₁ name₂ filename : List Byte} {dot : Byte}

/-- The name, the point and the extension after the two copies. -/
theorem take_copied (hname : name.length = fileNameBufferSize) (hfilename : filename.length = 11)
    (h₁ : Replaced name 0 8 (fun i => filename[0 + i]?) name₁)
    (h₂ : Replaced (name₁.set 8 dot) 9 3 (fun i => filename[8 + i]?) name₂) :
    name₂.take 12 = filename.take 8 ++ dot :: (filename.drop 8).take 3 := by
  have hlt : 8 < name₁.length := by
    rw [h₁.length_eq, hname]
    decide
  refine List.ext_getElem? fun i => ?_
  rw [List.getElem?_take, h₂.getElem?, getElem?_set hlt, h₁.getElem?]
  rcases Nat.lt_trichotomy i 8 with hi | rfl | hi
  · rw [List.getElem?_append_left (by rw [List.length_take]; omega), List.getElem?_take]
    rw [if_pos (by omega), if_neg (by omega), if_neg (by omega), if_pos (by omega), if_pos hi]
    rw [Nat.zero_add, Nat.sub_zero]
  · have hlength : (filename.take 8).length = 8 := by rw [List.length_take, hfilename]; rfl
    rw [List.getElem?_append_right (Nat.le_of_eq hlength), hlength]
    rfl
  · rw [List.getElem?_append_right (by rw [List.length_take]; omega), List.length_take, hfilename]
    obtain ⟨k, rfl⟩ : ∃ k, i = k + 9 := ⟨i - 9, by omega⟩
    rw [show k + 9 - min 8 11 = k + 1 by omega, List.getElem?_cons_succ, List.getElem?_take,
      List.getElem?_drop]
    by_cases hk : k < 3
    · rw [if_pos (by omega), if_pos (by omega), if_pos hk, Nat.add_sub_cancel]
    · rw [if_neg (by omega), if_neg hk]

/-- The array holds the string, the null and what has been behind it. -/
theorem fatFileNameToStrIn_eq (hname : name.length = fileNameBufferSize)
    (hfilename : filename.length = 11) : ∃ rest,
      fatFileNameToStrIn name filename = .ok (fatFileNameToStr filename ++ 0 :: rest) ∧
      (fatFileNameToStr filename).length + 1 + rest.length = fileNameBufferSize := by
  have hbuffer : fileNameBufferSize = 13 := rfl
  obtain ⟨name₁, hcopy₁, h₁⟩ : ∃ name₁, memcpyArray name 0 filename 0 8 = .ok name₁ ∧
      Replaced name 0 8 (fun i => filename[0 + i]?) name₁ :=
    memcpyArray_replaced (by omega) (by omega)
  obtain ⟨ch, hch, hget⟩ : ∃ ch, filename[8]? = some ch ∧ arrayGet filename 8 = .ok ch :=
    arrayGet_lt (by omega)
  have hset : arraySet name₁ 8 (if ch ≠ 0x20 then 0x2E else 0x20) = .ok _ :=
    arraySet_lt (by rw [h₁.length_eq]; omega)
  obtain ⟨name₂, hcopy₂, h₂⟩ : ∃ name₂,
      memcpyArray (name₁.set 8 (if ch ≠ 0x20 then 0x2E else 0x20)) 9 filename 8 3 = .ok name₂ ∧
        Replaced (name₁.set 8 (if ch ≠ 0x20 then 0x2E else 0x20)) 9 3 (fun i => filename[8 + i]?) name₂ :=
    memcpyArray_replaced (by omega) (by rw [List.length_set, h₁.length_eq]; omega)
  have hlength₂ : name₂.length = fileNameBufferSize := by
    rw [h₂.length_eq, List.length_set, h₁.length_eq, hname]
  obtain ⟨state, hloop, hc⟩ : ∃ state, removeSpaces name₂ 12 = .ok state ∧ Compacted name₂ 12 state :=
    removeSpaces_compacted (by omega)
  have hstr : state.1.take state.2 = fatFileNameToStr filename := by
    rw [hc.written, take_copied hname hfilename h₁ h₂]
    unfold fatFileNameToStr
    rw [List.getD_eq_getElem?_getD, hch]
    rfl
  have hwrite : state.2 < state.1.length := by
    rw [hc.length_eq, hlength₂]
    exact Nat.lt_succ_of_le hc.write_le_read
  refine ⟨state.1.drop (state.2 + 1), ?_, ?_⟩
  · unfold fatFileNameToStrIn
    rw [hcopy₁, Exec.ok_bind, hget, Exec.ok_bind, hset, Exec.ok_bind, hcopy₂, Exec.ok_bind, hloop,
      Exec.ok_bind, arraySet_lt hwrite, List.set_eq_take_append_cons_drop, if_pos hwrite, hstr]
  · rw [← hstr, List.length_take, List.length_drop, hc.length_eq, hlength₂]
    rw [hc.length_eq, hlength₂] at hwrite
    omega

end Copies

/-! ## The names of the format -/

/-- A character of a name: no space, no point and no lower case letter. -/
def IsNameChar (ch : Byte) : Prop := ch ≠ 0x20 ∧ ch ≠ 0x2E ∧ ¬ (0x61 ≤ ch ∧ ch ≤ 0x7A)

instance (ch : Byte) : Decidable (IsNameChar ch) := by
  unfold IsNameChar
  infer_instance

/-- A name of at most eight characters with an extension of at most three. -/
@[ext] structure ShortName where
  base : List Byte
  extension : List Byte
  base_length : 1 ≤ base.length ∧ base.length ≤ 8
  extension_length : extension.length ≤ 3
  base_chars : ∀ ch ∈ base, IsNameChar ch
  extension_chars : ∀ ch ∈ extension, IsNameChar ch

namespace ShortName

variable (name : ShortName) {name' : ShortName}

/-- The eleven bytes of the name in a directory entry. -/
def padded : List Byte :=
  name.base ++ List.replicate (8 - name.base.length) 0x20 ++
    (name.extension ++ List.replicate (3 - name.extension.length) 0x20)

/-- The name as it is written in a path. -/
def str : List Byte :=
  name.base.map tolower ++ if name.extension = [] then [] else 0x2E :: name.extension.map tolower

theorem length_padded : name.padded.length = 11 := by
  have hbase := name.base_length
  have hextension := name.extension_length
  unfold padded
  rw [List.length_append, List.length_append, List.length_append, List.length_replicate,
    List.length_replicate]
  omega

theorem fatFileNameToStr_padded : fatFileNameToStr name.padded = name.str := by
  refine (fatFileNameToStr_eq rfl name.base_length.2 name.extension_length fun ch hch => ?_).trans ?_
  · rcases List.mem_append.mp hch with hch | hch
    · exact (name.base_chars ch hch).1
    · exact (name.extension_chars ch hch).1
  · rw [List.map_append, apply_ite (List.map tolower)]
    rfl

/-! ## One string for one name -/

/-- The upper case letter of a lower case letter. -/
def toupper (ch : Byte) : Byte := if 0x61 ≤ ch ∧ ch ≤ 0x7A then ch - 0x20 else ch

theorem toupper_tolower (ch : Byte) (h : IsNameChar ch) : toupper (tolower ch) = ch := by
  revert ch
  decide +kernel

theorem tolower_ne_point (ch : Byte) (h : IsNameChar ch) : tolower ch ≠ 0x2E := by
  revert ch
  decide +kernel

theorem map_toupper_tolower {l : List Byte} (h : ∀ ch ∈ l, IsNameChar ch) :
    (l.map tolower).map toupper = l := by
  have hid : l.map (toupper ∘ tolower) = l.map id :=
    List.map_congr_left fun ch hch => toupper_tolower ch (h ch hch)
  rw [List.map_map, hid, List.map_id]

theorem map_tolower_inj {l l' : List Byte} (h : ∀ ch ∈ l, IsNameChar ch) (h' : ∀ ch ∈ l', IsNameChar ch)
    (heq : l.map tolower = l'.map tolower) : l = l' := by
  rw [← map_toupper_tolower h, heq, map_toupper_tolower h']

/-- The base is what stands before the first point. -/
theorem takeWhile_str : name.str.takeWhile (· ≠ 0x2E) = name.base.map tolower := by
  have hbase : ∀ ch ∈ name.base.map tolower, decide (ch ≠ 0x2E) = true := by
    intro ch hch
    obtain ⟨ch, hmem, rfl⟩ := List.mem_map.mp hch
    exact decide_eq_true (tolower_ne_point ch (name.base_chars ch hmem))
  rw [str, List.takeWhile_append_of_pos hbase]
  split <;> simp

theorem str_injective {name name' : ShortName} (h : name.str = name'.str) : name = name' := by
  have hbase : name.base = name'.base := by
    apply map_tolower_inj name.base_chars name'.base_chars
    rw [← takeWhile_str, h, takeWhile_str]
  unfold str at h
  rw [hbase] at h
  have hextension : name.extension.map tolower = name'.extension.map tolower := by
    have h := List.append_cancel_left h
    split at h <;> split at h
    · rename_i hnil hnil'
      rw [hnil, hnil']
    · cases h
    · cases h
    · exact (List.cons.inj h).2
  exact ShortName.ext hbase (map_tolower_inj name.extension_chars name'.extension_chars hextension)

/-- A string without a null in it is what the array holds up to the first null. -/
theorem takeWhile_str_append {rest : List Byte} (h : 0 ∉ name.base ++ name.extension) :
    (name.str ++ 0 :: rest).takeWhile (· ≠ 0) = name.str := by
  have hplain {l : List Byte} (hl : 0 ∉ l) : 0 ∉ l.map tolower := by
    intro hmem
    obtain ⟨ch, hch, hzero⟩ := List.mem_map.mp hmem
    exact tolower_ne_zero (fun heq => hl (heq ▸ hch)) hzero
  have hnull : 0 ∉ name.str := by
    intro hmem
    rcases List.mem_append.mp hmem with hmem | hmem
    · exact hplain (fun hbase => h (List.mem_append_left _ hbase)) hmem
    · split at hmem
      · cases hmem
      · rcases List.mem_cons.mp hmem with hzero | hmem
        · exact absurd hzero (by decide)
        · exact hplain (fun hextension => h (List.mem_append_right _ hextension)) hmem
  have hall : ∀ ch ∈ name.str, decide (ch ≠ 0) = true := fun ch hch =>
    decide_eq_true fun hzero => hnull (hzero ▸ hch)
  rw [List.takeWhile_append_of_pos hall, List.takeWhile_cons_of_neg (by decide), List.append_nil]

end ShortName

/-- The array of 13 bytes holds the name as it is written in a path, and no other name is written so.
A store outside of the array would be a fault. -/
theorem fatFileNameToStrIn_shortName (name : ShortName) (buffer : List Byte)
    (h : buffer.length = fileNameBufferSize) :
    (∃ rest, fatFileNameToStrIn buffer name.padded = .ok (name.str ++ 0 :: rest) ∧
      (name.str ++ 0 :: rest).length = fileNameBufferSize ∧
      (0 ∉ name.base ++ name.extension → (name.str ++ 0 :: rest).takeWhile (· ≠ 0) = name.str)) ∧
    ∀ name' : ShortName, name'.padded ≠ name.padded → name'.str ≠ name.str := by
  refine ⟨?_, fun name' hne heq => hne (congrArg _ (ShortName.str_injective heq))⟩
  obtain ⟨rest, hrun, hlength⟩ := fatFileNameToStrIn_eq h name.length_padded
  rw [name.fatFileNameToStr_padded] at hrun hlength
  refine ⟨rest, hrun, ?_, name.takeWhile_str_append⟩
  rw [List.length_append, List.length_cons, ← hlength]
  omega

/-- The name `KERNEL.C`. -/
def kernelC : ShortName where
  base := [0x4B, 0x45, 0x52, 0x4E, 0x45, 0x4C]
  extension := [0x43]
  base_length := by decide
  extension_length := by decide
  base_chars := by decide
  extension_chars := by decide

theorem fatFileNameToStrIn_kernelC :
    ∃ rest, fatFileNameToStrIn (List.replicate 13 0xFF) kernelC.padded =
      .ok ([0x6B, 0x65, 0x72, 0x6E, 0x65, 0x6C, 0x2E, 0x63] ++ 0 :: rest) := by
  obtain ⟨⟨rest, hrun, _⟩, _⟩ :=
    fatFileNameToStrIn_shortName kernelC (List.replicate 13 0xFF) (by decide)
  exact ⟨rest, hrun⟩

end TrazelOs
