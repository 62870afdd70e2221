import Mathlib.Data.List.GetD
import TrazelOs.Kernel.Memory

/-! # Loads and stores of the kernel -/

namespace TrazelOs

variable {m m' : Memory} {a b n i : Nat} {bytes : List Byte}

end TrazelOs
