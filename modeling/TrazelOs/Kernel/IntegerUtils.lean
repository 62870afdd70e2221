import TrazelOs.Kernel.MemUtils

/-! # Numbers as strings (`utils/libc_tz/integer_utils.c`, `strings.c`, `kernel/printk/printk.c`)

A `char*` into an array is the index it points to. -/

namespace TrazelOs

/-! ## Strings -/

/-- The loop of `strlen`, from a character on. -/
def strlenFrom : (str : List Byte) → Exec Nat
  | [] => .error .wild
  | ch :: str =>
    if ch = 0 then .ok 0
    else do
      let count ← strlenFrom str
      return count + 1

def strlen (array : List Byte) (str : Nat) : Exec Nat := strlenFrom (array.drop str)

/-- One turn of `string_reverse`. -/
def swapEnds (str strLen : Nat) (array : List Byte) (i : Nat) : Exec (List Byte) := do
  let temp ← arrayGet array (str + i)
  let ch ← arrayGet array (str + (strLen - i - 1))
  let array ← arraySet array (str + i) ch
  arraySet array (str + (strLen - i - 1)) temp

def stringReverse (array : List Byte) (str : Nat) : Exec (List Byte) := do
  let strLen ← strlen array str
  (List.range (strLen / 2)).foldlM (swapEnds str strLen) array

/-! ## Conversion -/

inductive IntegerBase
  | hex
  | decimal
  | octal
deriving Repr, DecidableEq

def baseToDigitsTable : IntegerBase → Nat
  | .hex => 16
  | .decimal => 10
  | .octal => 8

def numberToBaseDigit (digit : Nat) : Byte :=
  if digit < 10 then BitVec.ofNat 8 (digit + 0x30) else BitVec.ofNat 8 (digit + 0x41 - 10)

theorem one_lt_baseToDigitsTable (base : IntegerBase) : 1 < baseToDigitsTable base := by
  cases base <;> decide

/-- The `do` loop of `itoa_unsigned`. Returns the array and `buffer_index`. -/
def itoaLoop (base : IntegerBase) (buffer : Nat) (array : List Byte) (value bufferIndex : Nat) :
    Exec (List Byte × Nat) := do
  let array ← arraySet array (buffer + bufferIndex) (numberToBaseDigit (value % baseToDigitsTable base))
  if value / baseToDigitsTable base = 0 then return (array, bufferIndex + 1)
  else itoaLoop base buffer array (value / baseToDigitsTable base) (bufferIndex + 1)
termination_by value
decreasing_by
  refine Nat.div_lt_self (Nat.pos_of_ne_zero fun hzero => ?_) (one_lt_baseToDigitsTable base)
  exact ‹¬ _› (by rw [hzero, Nat.zero_div])

def itoaUnsigned (value : Nat) (array : List Byte) (buffer : Nat) (base : IntegerBase) :
    Exec (List Byte) := do
  let state ← itoaLoop base buffer array value 0
  let array ← arraySet state.1 (buffer + state.2) 0
  stringReverse array buffer

/-- The product with -1 is taken in two's complement. -/
def itoaSigned (value : BitVec 64) (array : List Byte) (buffer : Nat) (base : IntegerBase) :
    Exec (List Byte) :=
  if value.toInt < 0 then do
    let array ← itoaUnsigned (-value).toNat array (buffer + 1) base
    arraySet array buffer 0x2D
  else itoaUnsigned value.toNat array buffer base

/-! ## Printing

Each function returns the bytes that it writes to the devices. The array is a local variable that
nothing has been stored in. -/

def maxBufferSize : Nat := 30

/-- `write_devices(buffer, strlen(buffer))`. -/
def writeBuffer (buffer : List Byte) : Exec (List Byte) := do
  let length ← strlen buffer 0
  return buffer.take length

def printInt (buffer : List Byte) (val : BitVec 64) : Exec (List Byte) :=
  itoaSigned val buffer 0 .decimal >>= writeBuffer

def printUnsignedint (buffer : List Byte) (val : Nat) : Exec (List Byte) :=
  itoaUnsigned val buffer 0 .decimal >>= writeBuffer

def printHex (buffer : List Byte) (val : Nat) : Exec (List Byte) :=
  itoaUnsigned val buffer 0 .hex >>= writeBuffer

end TrazelOs
