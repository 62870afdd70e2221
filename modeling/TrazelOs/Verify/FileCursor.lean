import TrazelOs.Verify.Cursor
import TrazelOs.Verify.Memory
import TrazelOs.Verify.Resolution

/-! # An open file is a cursor over its content

Reads and seeks on a file of a FAT12 volume, in terms of a position in the bytes of the file. -/

namespace TrazelOs

/-- A call on an open file. -/
inductive FileOp
  | read (buffer : Buffer) (size : Nat)
  | seek (offset : Int) (whence : Nat)

namespace FileOp

def exec {μ : Type} (M : MemoryManager μ) (f : Nat) (s : System μ) : FileOp → Exec (Int × System μ)
  | read buffer size => vfsRead M s f buffer size
  | seek offset whence => vfsSeek s f offset whence

/-- The sizes of reads are below `2 ^ 63`, and offsets are signed words. -/
def Valid : FileOp → Prop
  | read _ size => size < 2 ^ 63
  | seek offset _ => -2 ^ 63 ≤ offset ∧ offset < 2 ^ 63

/-- What the call stores does not change the `n` bytes from `p`. -/
def Spares (s : System (Kernel Pmm)) (p n : Nat) : FileOp → Prop
  | read buffer size => ∀ bytes mem, bytes.length ≤ size →
    kernelMemory.store s.mem buffer bytes = .ok mem →
    loadBytes mem.mem p n = loadBytes s.mem.mem p n
  | seek _ _ => True

/-- The bytes go to the buffer of the call. -/
def deliver {μ : Type} (M : MemoryManager μ) (mem : μ) (bytes : List Byte) : FileOp → Exec μ
  | read buffer _ => M.store mem buffer bytes
  | seek _ _ => .ok mem

end FileOp

/-! ## The cursor -/

section Cursor
variable (content : List Byte)

/-- Where a seek counts from. -/
def seekBase (pos : Nat) : (whence : Nat) → Option Nat
  | 0 => some 0
  | 1 => some pos
  | 2 => some content.length
  | _ => none

/-- The value that a call returns at a position, the bytes it delivers and the position after it. -/
def cursorStep (pos : Nat) : FileOp → Int × List Byte × Nat
  | .read _ size =>
    let bytes := (content.drop pos).take size
    (bytes.length, bytes, pos + bytes.length)
  | .seek offset whence =>
    match seekBase content pos whence with
    | none => (-1, [], pos)
    | some base =>
      if 0 ≤ base + offset ∧ base + offset ≤ content.length then
        (base + offset, [], (base + offset).toNat)
      else (-1, [], pos)

variable {μ : Type} (M : MemoryManager μ) (f : Nat)

/-- The call, made on the cursor. -/
def cursorCall (pos : Nat) (s : System μ) (op : FileOp) : Exec (Int × Nat × System μ) := do
  let (value, bytes, pos') := cursorStep content pos op
  let mem ← op.deliver M s.mem bytes
  let file ← deref s.files f
  return (value, pos', { s with mem }.setFile f { file with filePosition := pos' })

end Cursor

/-! ## The file -/

/-- The file at `f` is open at the position `pos` of the content. -/
structure OpenAt (s : System (Kernel Pmm)) (f p : Nat) (content : List Byte) (pos : Nat) : Prop where
  file : ∃ refCount, s.files f = some ⟨content.length, pos, refCount, .fat12, p⟩
  null : f ≠ 0
  bytes : loadBytes s.mem.mem p content.length = content
  length : content.length < 2 ^ 32
  pos : pos ≤ content.length

section Steps
variable {s : System (Kernel Pmm)} {f p pos : Nat} {content : List Byte}

theorem cursorStep_pos_le {op : FileOp} (hpos : pos ≤ content.length) :
    (cursorStep content pos op).2.2 ≤ content.length := by
  cases op with
  | read buffer size =>
    simp only [cursorStep, List.length_take, List.length_drop]
    omega
  | seek offset whence =>
    simp only [cursorStep]
    split
    · exact hpos
    · split
      · dsimp only
        omega
      · exact hpos

/-- The file stays open, at the position of the cursor. -/
theorem OpenAt.step {op : FileOp} {value : Int} {pos' : Nat} {s' : System (Kernel Pmm)}
    (O : OpenAt s f p content pos) (hspares : op.Spares s p content.length)
    (h : cursorCall content kernelMemory f pos s op = .ok (value, pos', s')) :
    OpenAt s' f p content pos' := by
  obtain ⟨refCount, hfile⟩ := O.file
  obtain ⟨mem, hmem, h⟩ := Exec.bind_eq_ok.mp h
  obtain ⟨file, hderef, h⟩ := Exec.bind_eq_ok.mp h
  cases h
  rw [deref_eq_ok, hfile] at hderef
  cases hderef
  refine ⟨⟨refCount, Function.update_self ..⟩, O.null, ?_, O.length, cursorStep_pos_le O.pos⟩
  cases op with
  | read buffer size =>
    refine (hspares _ mem ?_ hmem).trans O.bytes
    exact List.length_take_le ..
  | seek offset whence =>
    cases hmem
    exact O.bytes

end Steps

/-! ## Opening -/

section Open
variable {dev : BlockDevice} {h : Fat12Header}

theorem Fat12Header.length_content_lt {entry : DirectoryEntry} {ids : List Nat} (V : ValidHeader h)
    (hids : h.FileClusters dev entry ids) : (h.content dev ids).length < 2 ^ 32 := by
  rw [Fat12Header.length_content]
  exact Nat.lt_of_le_of_lt (Nat.mul_le_mul hids.1.length_le V.bytesPerCluster_le) (by decide)

end Open

end TrazelOs
