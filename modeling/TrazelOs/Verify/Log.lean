import TrazelOs.Verify.Objects

/-! # Stores through pointers of user processes

What a memory manager does can be observed through a log: `M.Logs log` says that `log` has every store
that the kernel makes through a pointer that a user process supplied. -/

namespace TrazelOs

variable {μ : Type} {M : MemoryManager μ} {log : μ → List (Nat × List Byte)} {m m' : μ}

/-- What a store adds to the log. -/
def Buffer.entry : Buffer → (bytes : List Byte) → List (Nat × List Byte)
  | kernel _, _ => []
  | user vaddr, bytes => [(vaddr, bytes)]

structure MemoryManager.Logs (M : MemoryManager μ) (log : μ → List (Nat × List Byte)) : Prop where
  store : ∀ {m m' buffer bytes}, M.store m buffer bytes = .ok m' →
    log m' = log m ++ buffer.entry bytes

end TrazelOs
