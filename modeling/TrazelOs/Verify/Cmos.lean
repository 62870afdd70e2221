import Mathlib.Tactic.IntervalCases
import TrazelOs.Kernel.Cmos
import TrazelOs.Theory.Calendar
import TrazelOs.Verify.MemUtils

/-! # The clock counts the seconds of the Gregorian calendar

From 1970 to 2105 the sums of `rtc_to_unix_epoch_seconds` are the days of the calendar before the
date, in seconds. The counters of the years and the result do not overflow before. -/

namespace TrazelOs

open Theory

/-! ## Years and months -/

theorem isLeapYear_iff {year : Nat} : isLeapYear year = true ↔ IsLeap year := by
  unfold isLeapYear IsLeap
  simp only [Bool.or_eq_true, Bool.and_eq_true, beq_iff_eq, bne_iff_ne]

theorem daysPerYear_eq {year : Nat} : daysPerYear (isLeapYear year) = yearLength year := by
  rw [yearLength_eq]
  by_cases h : IsLeap year
  · rw [if_pos h, isLeapYear_iff.mpr h]
    rfl
  · rw [if_neg h, Bool.eq_false_iff.mpr (isLeapYear_iff.not.mpr h)]
    rfl

theorem daysPerMonth_get {year m : Nat} (hm : m < 12) :
    arrayGet (daysPerMonth (isLeapYear year)) m = .ok (monthLength year (m + 1)) := by
  rw [arrayGet_eq]
  by_cases h : IsLeap year
  · rw [isLeapYear_iff.mpr h]
    interval_cases m <;> simp [daysPerMonth, monthLength, h]
  · rw [Bool.eq_false_iff.mpr (isLeapYear_iff.not.mpr h)]
    interval_cases m <;> simp [daysPerMonth, monthLength, h]

/-- The counters of `n` years: none has wrapped, and they stand for the days of these years. -/
structure YearsCounted (n : Nat) (counters : Nat × Nat) : Prop where
  years : counters.1 + counters.2 = n
  days : counters.1 * daysPerYear false + counters.2 * daysPerYear true =
    ∑ y ∈ Finset.range n, yearLength (epochYear + y)

theorem YearsCounted.succ {n : Nat} {counters : Nat × Nat} (h : YearsCounted n counters)
    (hn : n < 2 ^ 8 - 1) : YearsCounted (n + 1) (countYear counters (epochYear + n)) := by
  obtain ⟨hyears, hdays⟩ := h
  unfold countYear
  have hlength : daysPerYear (isLeapYear (epochYear + n)) = yearLength (epochYear + n) := daysPerYear_eq
  constructor
  · split <;> dsimp only <;> omega
  · rw [Finset.sum_range_succ, ← hdays, ← hlength]
    split
    · rename_i hleap
      rw [hleap]
      dsimp only
      rw [Nat.mod_eq_of_lt (by omega), Nat.succ_mul, Nat.add_assoc]
    · rename_i hleap
      rw [Bool.eq_false_iff.mpr hleap]
      dsimp only
      rw [Nat.mod_eq_of_lt (by omega), Nat.succ_mul, Nat.add_right_comm]

theorem countYears_counted {year : Nat} (h : year - epochYear < 2 ^ 8) :
    YearsCounted (year - epochYear) (countYears year) := by
  unfold countYears
  generalize year - epochYear = n at h
  induction n with
  | zero => exact ⟨rfl, rfl⟩
  | succ n ih =>
    rw [List.range'_concat, List.foldl_append, Nat.one_mul]
    exact (ih (Nat.lt_of_succ_lt h)).succ (by omega)

theorem u32_add_left {a b : Nat} : u32 (u32 a + b) = u32 (a + b) := Nat.mod_add_mod ..

theorem addMonths_eq {year month seconds : Nat} (h : month ≤ 12) :
    addMonths (isLeapYear year) month (u32 seconds) =
      .ok (u32 (seconds + (∑ m ∈ Finset.range (month - 1), monthLength year (m + 1)) * secPerDay)) := by
  have hloop : ∃ sum, addMonths (isLeapYear year) month (u32 seconds) = .ok sum ∧
      sum = u32 (seconds +
        (∑ m ∈ Finset.range (month - 1), monthLength year (m + 1)) * secPerDay) := by
    refine Exec.foldlM_range_total (p := fun i sum => sum = u32 (seconds +
      (∑ m ∈ Finset.range i, monthLength year (m + 1)) * secPerDay)) (fun i sum hi hsum => ?_)
      (by rw [Finset.sum_range_zero, Nat.zero_mul, Nat.add_zero])
    rw [daysPerMonth_get (by omega), Exec.ok_bind, hsum, u32_add_left, Nat.add_assoc, ← Nat.add_mul,
      ← Finset.sum_range_succ]
    exact ⟨_, rfl, rfl⟩
  obtain ⟨sum, hrun, rfl⟩ := hloop
  exact hrun

/-! ## The clock -/

/-- The seconds before a time, from the first of January 1970 on. -/
def unixTime (t : DateTime) : Nat := secPerDay * t.dayNumber epochYear + t.secondOfDay

theorem unixTime_lt {t : DateTime} (hfrom : epochYear ≤ t.year) (hto : t.year ≤ 2105) :
    unixTime t < 2 ^ 32 := by
  have hlt : t.dayNumber epochYear < (Date.newYear 2106).dayNumber epochYear :=
    Date.dayNumber_lt hfrom (List.cons_lt_cons_iff.mpr (.inl (Nat.lt_succ_of_le hto)))
  have hend : (Date.newYear 2106).dayNumber epochYear = 49673 := by decide +kernel
  have hsecond := t.secondOfDay_lt
  rw [hend] at hlt
  unfold unixTime secPerDay
  omega

theorem rtcToUnixEpochSeconds_u32 {t : DateTime} (hto : t.year ≤ 2105) :
    rtcToUnixEpochSeconds t.seconds t.mins t.hours t.day t.month t.year = .ok (u32 (unixTime t)) := by
  have hcounted : YearsCounted (t.year - epochYear) (countYears t.year) :=
    countYears_counted (by unfold epochYear; omega)
  have hday : u32Sub t.day 1 = t.day - 1 :=
    u32Sub_of_le (Nat.lt_of_le_of_lt (Nat.le_trans t.day_mem.2 monthLength_le) (by decide)) t.day_mem.1
  unfold rtcToUnixEpochSeconds
  dsimp only
  rw [hcounted.days, addMonths_eq t.month_mem.2, Exec.ok_bind, hday]
  simp only [u32_add_left, Nat.add_assoc]
  refine congrArg (fun n => Except.ok (u32 n)) ?_
  unfold unixTime Date.dayNumber Date.dayOfYear DateTime.secondOfDay secPerHour secPerMin
  rw [Nat.mul_comm secPerDay, Nat.add_mul, Nat.add_mul]
  omega

theorem rtcToUnixEpochSeconds_ok {t : DateTime} (hfrom : epochYear ≤ t.year) (hto : t.year ≤ 2105) :
    rtcToUnixEpochSeconds t.seconds t.mins t.hours t.day t.month t.year = .ok (unixTime t) := by
  rw [rtcToUnixEpochSeconds_u32 hto, u32_of_lt (unixTime_lt hfrom hto)]

/-- The days since the first of January 1970 in seconds, and the seconds of the day; so a later time
has a larger number. -/
theorem rtcToUnixEpochSeconds_calendar (t : DateTime) (hfrom : 1970 ≤ t.year) (hto : t.year ≤ 2105) :
    (∃ days, (∀ n, Date.next^[n] (Date.newYear 1970) = t.toDate ↔ n = days) ∧
      rtcToUnixEpochSeconds t.seconds t.mins t.hours t.day t.month t.year =
        .ok (86400 * days + (3600 * t.hours + 60 * t.mins + t.seconds))) ∧
    ∀ t' : DateTime, t'.year ≤ 2105 → t.key < t'.key →
      ∃ value value',
        rtcToUnixEpochSeconds t.seconds t.mins t.hours t.day t.month t.year = .ok value ∧
        rtcToUnixEpochSeconds t'.seconds t'.mins t'.hours t'.day t'.month t'.year = .ok value' ∧
        value < value' := by
  refine ⟨⟨t.dayNumber epochYear, fun n => Date.iterate_next_eq_iff hfrom,
    rtcToUnixEpochSeconds_ok hfrom hto⟩, fun t' hto' hlt => ?_⟩
  have hfrom' : epochYear ≤ t'.year := by
    rcases List.cons_lt_cons_iff.mp hlt with hyear | ⟨hyear, _⟩
    · exact Nat.le_trans hfrom (Nat.le_of_lt hyear)
    · exact Nat.le_trans hfrom (Nat.le_of_eq hyear)
  exact ⟨_, _, rtcToUnixEpochSeconds_ok hfrom hto, rtcToUnixEpochSeconds_ok hfrom' hto',
    DateTime.dayNumber_lt hfrom hlt⟩

/-- The last second of February 2000, a leap year although 100 divides it. -/
def leapDay : DateTime where
  year := 2000
  month := 2
  day := 29
  month_mem := by decide
  day_mem := by decide
  hours := 23
  mins := 59
  seconds := 59
  hours_lt := by decide
  mins_lt := by decide
  seconds_lt := by decide

theorem rtcToUnixEpochSeconds_leapDay : ∃ days,
    (∀ n, Date.next^[n] (Date.newYear 1970) = leapDay.toDate ↔ n = days) ∧
      rtcToUnixEpochSeconds 59 59 23 29 2 2000 = .ok (86400 * days + 86399) :=
  (rtcToUnixEpochSeconds_calendar leapDay (by decide) (by decide)).1

/-! ## The registers -/

end TrazelOs
