import TrazelOs.Verify.Flat

/-! # Reading at the position of a file

`vfs_read` clamps the number of bytes to what is left of the file, with a sum that may wrap around. -/

namespace TrazelOs

variable {μ : Type} {M : MemoryManager μ} {s : System μ} {f size : Nat} {buffer : Buffer}
  {file : VfsFile}

/-- The length that `vfs_read` passes to the callback of the file, if it calls it. -/
def readLength (file : VfsFile) (size : Nat) : Option Nat :=
  if file.filePosition ≥ file.fileSize then none
  else if u64 (file.filePosition + size) > file.fileSize then
    some (file.fileSize - file.filePosition)
  else some size

/-- The callback `read` of a file. -/
def readCallback (M : MemoryManager μ) (s : System μ) (file : VfsFile) (buffer : Buffer)
    (size : Nat) : Exec (Int × System μ) :=
  match file.kind with
  | .charDev dev => charDevRead M s dev buffer size
  | .fat12 => do
    let bytes := M.load s.mem (u64 (file.fsPrivateData + file.filePosition)) size
    let mem ← M.store s.mem buffer bytes
    pure (toInt64 size, { s with mem })

/-- The end of `vfs_read`: the position moves on by what was read. -/
def advance (f : Nat) (r : Int × System μ) : Exec (Int × System μ) :=
  if r.1 > 0 then do
    let file ← deref r.2.files f
    let filePosition := u64 (file.filePosition + r.1.toNat)
    return (r.1, r.2.setFile f { file with filePosition })
  else return r

/-- `vfs_read` calls the callback of the file at most once, with this length. -/
theorem vfsRead_eq (hf : f ≠ 0) (hfile : s.files f = some file) :
    vfsRead M s f buffer size = match readLength file size with
      | none => .ok (0, s)
      | some n => readCallback M s file buffer n >>= advance f := by
  have hderef : deref s.files f = .ok file := deref_eq_ok.mpr hfile
  unfold vfsRead readLength
  rw [if_neg hf, hderef]
  change (if _ then _ else _) = _
  by_cases hend : file.filePosition ≥ file.fileSize
  · rw [if_pos hend, if_pos hend]
    rfl
  rw [if_neg hend, if_neg hend]
  unfold readCallback
  by_cases hclamp : u64 (file.filePosition + size) > file.fileSize
  · simp only [if_pos hclamp]
    cases file.kind with
    | charDev dev => rfl
    | fat12 => exact (bind_assoc _ _ _).symm
  · simp only [if_neg hclamp]
    cases file.kind with
    | charDev dev => rfl
    | fat12 => exact (bind_assoc _ _ _).symm

/-- With a limit at or behind the end of the file, the bytes read are before the limit exactly when the
sum of the position and the size does not wrap around, or nothing is left to read. -/
theorem readLength_inside_iff {limit : Nat} (hlimit : file.fileSize ≤ limit) (hlt : limit < 2 ^ 64)
    (hsize : size < 2 ^ 64) :
    (∀ n ∈ readLength file size, file.filePosition + n ≤ limit) ↔
      file.filePosition + size < 2 ^ 64 ∨ file.fileSize ≤ file.filePosition := by
  unfold readLength
  by_cases hend : file.filePosition ≥ file.fileSize
  · rw [if_pos hend]
    refine iff_of_true (fun n hn => ?_) (.inr hend)
    cases hn
  · rw [if_neg hend]
    by_cases hwrap : file.filePosition + size < 2 ^ 64
    · rw [u64_of_lt hwrap]
      refine iff_of_true (fun n hn => ?_) (.inl hwrap)
      split at hn <;> cases hn <;> omega
    · -- The sum wraps to less than the position, so nothing is clamped.
      have hsum : u64 (file.filePosition + size) = file.filePosition + size - 2 ^ 64 := by
        rw [u64]
        omega
      rw [hsum, if_neg (by omega)]
      refine iff_of_false (fun h => ?_) (by omega)
      have := h size rfl
      omega

/-- The length stays within the file exactly when the sum of the position and the size does not wrap
around, or nothing is left to read. -/
theorem readLength_le_iff (hpos : file.filePosition ≤ file.fileSize) (hfile : file.fileSize < 2 ^ 64)
    (hsize : size < 2 ^ 64) :
    (∀ n ∈ readLength file size, n ≤ file.fileSize - file.filePosition) ↔
      file.filePosition + size < 2 ^ 64 ∨ file.filePosition = file.fileSize := by
  have hinside := readLength_inside_iff (Nat.le_refl file.fileSize) hfile hsize
  have hlength (n : Nat) : n ≤ file.fileSize - file.filePosition ↔
      file.filePosition + n ≤ file.fileSize := by omega
  have hend : file.filePosition = file.fileSize ↔ file.fileSize ≤ file.filePosition := by omega
  simp only [hlength, hend, hinside]

/-- `vfs_read` calls the callback with a length that stays within the file exactly when the position
and the size do not wrap around. -/
theorem vfsRead_within_iff (buffer : Buffer) (hf : f ≠ 0) (hfile : s.files f = some file)
    (hpos : file.filePosition ≤ file.fileSize) (hlt : file.fileSize < 2 ^ 64)
    (hsize : size < 2 ^ 64) :
    (vfsRead M s f buffer size = match readLength file size with
      | none => .ok (0, s)
      | some n => readCallback M s file buffer n >>= advance f) ∧
    ((∀ n ∈ readLength file size, n ≤ file.fileSize - file.filePosition) ↔
      file.filePosition + size < 2 ^ 64 ∨ file.filePosition = file.fileSize) :=
  ⟨vfsRead_eq hf hfile, readLength_le_iff hpos hlt hsize⟩

namespace Flat

/-- A file of ten bytes at position 4. -/
def tenBytes : VfsFile := ⟨10, 4, 1, .fat12, 3 * slotSize⟩

def oneFile : System Flat :=
  (bootSystem ⟨2, fun _ => 0, []⟩ slotSize ⟨0, 0⟩).setFile (2 * slotSize) tenBytes

theorem oneFile_files : oneFile.files (2 * slotSize) = some tenBytes := by
  simp only [oneFile, System.setFile, Function.update_self]

end Flat

theorem vfsRead_within_eight :
    readLength Flat.tenBytes 8 = some 6 ∧ ∀ n ∈ readLength Flat.tenBytes 8, n ≤ 6 :=
  ⟨by decide, (vfsRead_within_iff (M := Flat.manager) (.kernel 0) (by decide)
    Flat.oneFile_files (by decide) (by decide) (by decide)).2.mpr (.inl (by decide))⟩

/-- A size that makes the sum wrap is passed on as it is. -/
theorem vfsRead_beyond : ∃ n ∈ readLength Flat.tenBytes (2 ^ 64 - 1), 6 < n ∧
    vfsRead Flat.manager Flat.oneFile (2 * Flat.slotSize) (.kernel 0) (2 ^ 64 - 1) =
      readCallback Flat.manager Flat.oneFile Flat.tenBytes (.kernel 0) n >>=
        advance (2 * Flat.slotSize) := by
  have hlength : readLength Flat.tenBytes (2 ^ 64 - 1) = some (2 ^ 64 - 1) := by decide
  refine ⟨2 ^ 64 - 1, hlength, by decide, ?_⟩
  rw [vfsRead_eq (by decide) Flat.oneFile_files, hlength]

end TrazelOs
