import TrazelOs.Kernel.MemUtils
import TrazelOs.Kernel.Ports

/-! # The CMOS clock (`kernel/cmos/rtc_cmos.c`) -/

namespace TrazelOs

def secPerMin : Nat := 60
def secPerHour : Nat := 3600
def secPerDay : Nat := 86400
def epochYear : Nat := 1970

/-- `IS_LEAP_YEAR`. -/
def isLeapYear (year : Nat) : Bool := (year % 4 == 0 && year % 100 != 0) || year % 400 == 0

/-- The rows of the table, which the source indexes with 0 and 1. -/
def daysPerMonth : Bool → List Nat
  | false => [31, 28, 31, 30, 31, 30, 31, 31, 30, 31, 30, 31]
  | true => [31, 29, 31, 30, 31, 30, 31, 31, 30, 31, 30, 31]

def daysPerYear : Bool → Nat
  | false => 365
  | true => 366

/-- One turn of the loop over the years that have passed. The counters are `uint8_t`. -/
def countYear (counters : Nat × Nat) (yk : Nat) : Nat × Nat :=
  if isLeapYear yk then (counters.1, (counters.2 + 1) % 2 ^ 8)
  else ((counters.1 + 1) % 2 ^ 8, counters.2)

/-- The counters `years` and `leap_years`. -/
def countYears (year : Nat) : Nat × Nat :=
  (List.range' epochYear (year - epochYear)).foldl countYear (0, 0)

/-- The loop over the months of this year that have passed. -/
def addMonths (leap : Bool) (month unixEpochSeconds : Nat) : Exec Nat :=
  (List.range (month - 1)).foldlM (fun unixEpochSeconds mok => do
    let days ← arrayGet (daysPerMonth leap) mok
    return u32 (unixEpochSeconds + days * secPerDay)) unixEpochSeconds

/-- The products are `int`s, and their sums with the `uint32_t` are modulo `2 ^ 32`. -/
def rtcToUnixEpochSeconds (seconds mins hours day month year : Nat) : Exec Nat := do
  let counters := countYears year
  let unixEpochSeconds :=
    u32 ((counters.1 * daysPerYear false + counters.2 * daysPerYear true) * secPerDay)
  let unixEpochSeconds ← addMonths (isLeapYear year) month unixEpochSeconds
  let unixEpochSeconds := u32 (unixEpochSeconds + u32Sub day 1 * secPerDay)
  let unixEpochSeconds := u32 (unixEpochSeconds + hours * secPerHour)
  let unixEpochSeconds := u32 (unixEpochSeconds + mins * secPerMin)
  return u32 (unixEpochSeconds + seconds)

/-! ## The registers -/

inductive CmosRegister
  | seconds
  | minutes
  | hours
  | dayOfMonth
  | month
  | year

def CmosRegister.index : CmosRegister → Byte
  | seconds => 0x00
  | minutes => 0x02
  | hours => 0x04
  | dayOfMonth => 0x07
  | month => 0x08
  | year => 0x09

section Ports
variable {σ : Type} (io : PortIo σ)

end Ports

end TrazelOs
