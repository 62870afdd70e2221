import TrazelOs.Kernel.Basic

/-! # Arrays in memory (`utils/libc_tz/mem_utils.c`)

An array is the list of its elements, and an access outside of it is wild. `memcpy` and `memset` go
from the first element on. -/

namespace TrazelOs

/-- `array[i]`. -/
def arrayGet (array : List α) (i : Nat) : Exec α :=
  match array[i]? with
  | some a => .ok a
  | none => .error .wild

/-- `array[i] = a`. -/
def arraySet (array : List α) (i : Nat) (a : α) : Exec (List α) :=
  if i < array.length then .ok (array.set i a) else .error .wild

def memsetArray (array : List α) (dest : Nat) (a : α) (n : Nat) : Exec (List α) :=
  (List.range n).foldlM (fun array i => arraySet array (dest + i) a) array

/-- `memcpy` from another array. -/
def memcpyArray (array : List α) (dest : Nat) (src : List α) (currSrc n : Nat) : Exec (List α) :=
  (List.range n).foldlM (fun array i => do
    let a ← arrayGet src (currSrc + i)
    arraySet array (dest + i) a) array

/-- `memcpy` from the array itself. -/
def memcpyWithin (array : List α) (dest currSrc n : Nat) : Exec (List α) :=
  (List.range n).foldlM (fun array i => do
    let a ← arrayGet array (currSrc + i)
    arraySet array (dest + i) a) array

end TrazelOs
