import TrazelOs.Verify.FileCursor
import TrazelOs.Verify.KernelHeap
import TrazelOs.Verify.PageTree
import TrazelOs.Verify.VmmRun

/-! # Where `load_segment` writes

The loader copies `p_filesz` bytes and clears the rest of `p_memsz`. The pages it asks for depend on
`p_memsz` alone. -/

namespace TrazelOs

/-! ## The stores of a call -/

section Eq
variable {μ : Type} {M : MemoryManager μ} {s : System μ} {f pagemap : Nat} {file : VfsFile}
  {ph : Elf64Phdr}

variable {mem mem' : μ} {notes : List (Nat × Nat)}

end Eq

/-! ## The frames of a call -/

section Writes
variable {k k' : Kernel Pmm} {s s' : System (Kernel Pmm)} {f pagemap i n : Nat} {file : VfsFile} {ph : Elf64Phdr}

end Writes

/-! ## A segment that is larger in the file than in memory -/

end TrazelOs
