import Mathlib.Algebra.Order.BigOperators.Group.Finset
import Mathlib.Data.List.Lex
import Mathlib.Logic.Function.Iterate

/-! # The Gregorian calendar

A date is a day that exists. `Date.next` is the day after it, and the days from one date to another
are counted by taking the next day again and again. `Date.dayNumber` computes this number from the
lengths of the years and of the months before the date. -/

namespace Theory

def IsLeap (year : Nat) : Prop := year % 4 = 0 ∧ year % 100 ≠ 0 ∨ year % 400 = 0

instance (year : Nat) : Decidable (IsLeap year) := by
  unfold IsLeap
  infer_instance

/-- The days of a month, January being month 1. -/
def monthLength (year : Nat) : Nat → Nat
  | 2 => if IsLeap year then 29 else 28
  | 4 => 30
  | 6 => 30
  | 9 => 30
  | 11 => 30
  | _ => 31

theorem monthLength_pos {year month : Nat} : 1 ≤ monthLength year month := by
  unfold monthLength
  split <;> try split
  all_goals decide

theorem monthLength_le {year month : Nat} : monthLength year month ≤ 31 := by
  unfold monthLength
  split <;> try split
  all_goals decide

def yearLength (year : Nat) : Nat := ∑ m ∈ Finset.range 12, monthLength year (m + 1)

theorem yearLength_eq {year : Nat} : yearLength year = if IsLeap year then 366 else 365 := by
  simp only [yearLength, Finset.sum_range_succ, Finset.sum_range_zero, monthLength]
  split <;> rfl

@[ext] structure Date where
  year : Nat
  month : Nat
  day : Nat
  month_mem : 1 ≤ month ∧ month ≤ 12
  day_mem : 1 ≤ day ∧ day ≤ monthLength year month

/-- Where a part `n` with the length `f n` and a place in it stand before another part. -/
theorem sum_range_add_lt {f : Nat → Nat} {n m r s : Nat} (h : n < m) (hr : r < f n) :
    ∑ i ∈ Finset.range n, f i + r < ∑ i ∈ Finset.range m, f i + s :=
  calc ∑ i ∈ Finset.range n, f i + r
    _ < ∑ i ∈ Finset.range n, f i + f n := Nat.add_lt_add_left hr _
    _ = ∑ i ∈ Finset.range (n + 1), f i := (Finset.sum_range_succ ..).symm
    _ ≤ ∑ i ∈ Finset.range m, f i := Finset.sum_le_sum_of_subset (Finset.range_mono h)
    _ ≤ ∑ i ∈ Finset.range m, f i + s := Nat.le_add_right ..

namespace Date

variable {base : Nat} {d d' : Date}

/-- The first day of a year. -/
def newYear (year : Nat) : Date := ⟨year, 1, 1, by decide, Nat.le_refl _, monthLength_pos⟩

/-- The day after. -/
def next (d : Date) : Date :=
  if hday : d.day < monthLength d.year d.month then
    ⟨d.year, d.month, d.day + 1, d.month_mem, Nat.succ_pos _, hday⟩
  else if hmonth : d.month < 12 then
    ⟨d.year, d.month + 1, 1, ⟨Nat.succ_pos _, hmonth⟩, Nat.le_refl _, monthLength_pos⟩
  else newYear (d.year + 1)

/-- The days of its year before a date. -/
def dayOfYear (d : Date) : Nat :=
  ∑ m ∈ Finset.range (d.month - 1), monthLength d.year (m + 1) + (d.day - 1)

/-- The days before a date, from the first day of the year `base` on. -/
def dayNumber (base : Nat) (d : Date) : Nat :=
  ∑ y ∈ Finset.range (d.year - base), yearLength (base + y) + d.dayOfYear

theorem day_lt : d.day - 1 < monthLength d.year (d.month - 1 + 1) := by
  have hday := d.day_mem
  rw [Nat.sub_add_cancel d.month_mem.1]
  omega

theorem dayOfYear_lt : d.dayOfYear < yearLength d.year := by
  have hmonth := d.month_mem
  have h := sum_range_add_lt (f := fun m => monthLength d.year (m + 1)) (s := 0)
    (show d.month - 1 < 12 by omega) day_lt
  rwa [Nat.add_zero] at h

/-! ## The next day -/

theorem dayOfYear_next_day (hday : d.day < monthLength d.year d.month) :
    d.next.year = d.year ∧ d.next.dayOfYear = d.dayOfYear + 1 := by
  have hpos := d.day_mem.1
  unfold next
  rw [dif_pos hday]
  refine ⟨rfl, ?_⟩
  unfold dayOfYear
  dsimp only
  omega

/-- The last day of a month ends the sum of its month. -/
theorem dayOfYear_last (hday : ¬ d.day < monthLength d.year d.month) :
    d.dayOfYear + 1 = ∑ m ∈ Finset.range d.month, monthLength d.year (m + 1) := by
  obtain ⟨hpos, hle⟩ := d.day_mem
  obtain ⟨m, hm⟩ : ∃ m, d.month = m + 1 := ⟨d.month - 1, (Nat.sub_add_cancel d.month_mem.1).symm⟩
  unfold dayOfYear
  rw [hm] at hday hle ⊢
  rw [Finset.sum_range_succ, Nat.add_sub_cancel]
  omega

theorem dayNumber_next (hbase : base ≤ d.year) : d.next.dayNumber base = d.dayNumber base + 1 := by
  unfold dayNumber
  by_cases hday : d.day < monthLength d.year d.month
  · obtain ⟨hyear, hnext⟩ := dayOfYear_next_day hday
    rw [hyear, hnext]
    rfl
  · rw [Nat.add_assoc, dayOfYear_last hday]
    unfold next
    rw [dif_neg hday]
    by_cases hmonth : d.month < 12
    · rw [dif_pos hmonth]
      rfl
    · have hlast : d.month = 12 := Nat.le_antisymm d.month_mem.2 (Nat.le_of_not_lt hmonth)
      rw [dif_neg hmonth, hlast]
      change ∑ y ∈ Finset.range (d.year + 1 - base), yearLength (base + y) + 0 = _ + yearLength d.year
      rw [Nat.succ_sub hbase, Finset.sum_range_succ, Nat.add_sub_cancel' hbase, Nat.add_zero]

theorem le_year_next : d.year ≤ d.next.year := by
  unfold next
  split
  · exact Nat.le_refl _
  · split
    · exact Nat.le_refl _
    · exact Nat.le_succ _

theorem iterate_next (n : Nat) (hbase : base ≤ d.year) :
    base ≤ (next^[n] d).year ∧ (next^[n] d).dayNumber base = d.dayNumber base + n := by
  induction n with
  | zero => exact ⟨hbase, rfl⟩
  | succ n ih =>
    rw [Function.iterate_succ_apply']
    exact ⟨Nat.le_trans ih.1 le_year_next, by rw [dayNumber_next ih.1, ih.2, Nat.add_assoc]⟩

/-! ## The order of the dates -/

/-- Dates are ordered by their years, then by their months, then by their days. -/
def key (d : Date) : List Nat := [d.year, d.month, d.day]

theorem dayNumber_lt (hbase : base ≤ d.year) (h : d.key < d'.key) :
    d.dayNumber base < d'.dayNumber base := by
  have hday := d.day_mem.1
  have hmonth := d.month_mem.1
  rcases List.cons_lt_cons_iff.mp h with hyear | ⟨hyear, h⟩
  · apply sum_range_add_lt (Nat.sub_lt_sub_right hbase hyear)
    rw [Nat.add_sub_cancel' hbase]
    exact dayOfYear_lt
  unfold dayNumber
  rw [← hyear]
  refine Nat.add_lt_add_left ?_ _
  unfold dayOfYear
  rw [← hyear]
  rcases List.cons_lt_cons_iff.mp h with hmonths | ⟨hmonths, h⟩
  · exact sum_range_add_lt (Nat.sub_lt_sub_right hmonth hmonths) day_lt
  rw [← hmonths]
  rcases List.cons_lt_cons_iff.mp h with hdays | ⟨_, h⟩
  · omega
  · exact absurd h (List.not_lt_nil _)

theorem dayNumber_inj (hbase : base ≤ d.year) (hbase' : base ≤ d'.year)
    (h : d.dayNumber base = d'.dayNumber base) : d = d' := by
  rcases lt_trichotomy d.key d'.key with hlt | heq | hlt
  · exact absurd h (Nat.ne_of_lt (dayNumber_lt hbase hlt))
  · injection heq with hyear heq
    injection heq with hmonth heq
    injection heq with hday _
    exact Date.ext hyear hmonth hday
  · exact absurd h.symm (Nat.ne_of_lt (dayNumber_lt hbase' hlt))

theorem dayNumber_newYear : (newYear base).dayNumber base = 0 := by
  change ∑ y ∈ Finset.range (base - base), yearLength (base + y) + 0 = 0
  rw [Nat.sub_self]
  rfl

/-- The number of a date is how often the next day is to be taken from the first day of `base` on. -/
theorem iterate_next_eq_iff {n : Nat} (hbase : base ≤ d.year) :
    next^[n] (newYear base) = d ↔ n = d.dayNumber base := by
  obtain ⟨hyear, hnumber⟩ := iterate_next (d := newYear base) n (Nat.le_refl base)
  rw [dayNumber_newYear, Nat.zero_add] at hnumber
  refine ⟨fun h => by rw [← h, hnumber], fun h => dayNumber_inj hyear hbase ?_⟩
  rw [hnumber, h]

end Date

/-! ## Times -/

structure DateTime extends Date where
  hours : Nat
  mins : Nat
  seconds : Nat
  hours_lt : hours < 24
  mins_lt : mins < 60
  seconds_lt : seconds < 60

namespace DateTime

variable {base : Nat} {t t' : DateTime}

/-- The seconds of its day before a time. -/
def secondOfDay (t : DateTime) : Nat := 3600 * t.hours + 60 * t.mins + t.seconds

def key (t : DateTime) : List Nat := [t.year, t.month, t.day, t.hours, t.mins, t.seconds]

theorem secondOfDay_lt : t.secondOfDay < 86400 := by
  have hhours := t.hours_lt
  have hmins := t.mins_lt
  have hseconds := t.seconds_lt
  unfold secondOfDay
  omega

/-- A later time has an earlier day before it, or the same day and an earlier second. -/
theorem key_lt (h : t.key < t'.key) : t.toDate.key < t'.toDate.key ∨
    t.toDate = t'.toDate ∧ t.secondOfDay < t'.secondOfDay := by
  have hmins := t.mins_lt
  have hseconds := t.seconds_lt
  unfold secondOfDay
  rcases List.cons_lt_cons_iff.mp h with hyear | ⟨hyear, h⟩
  · exact .inl (List.cons_lt_cons_iff.mpr (.inl hyear))
  rcases List.cons_lt_cons_iff.mp h with hmonth | ⟨hmonth, h⟩
  · exact .inl (List.cons_lt_cons_iff.mpr (.inr ⟨hyear, List.cons_lt_cons_iff.mpr (.inl hmonth)⟩))
  rcases List.cons_lt_cons_iff.mp h with hday | ⟨hday, h⟩
  · exact .inl (List.cons_lt_cons_iff.mpr (.inr ⟨hyear, List.cons_lt_cons_iff.mpr (.inr ⟨hmonth,
      List.cons_lt_cons_iff.mpr (.inl hday)⟩)⟩))
  refine .inr ⟨Date.ext hyear hmonth hday, ?_⟩
  rcases List.cons_lt_cons_iff.mp h with hhours | ⟨hhours, h⟩
  · omega
  rcases List.cons_lt_cons_iff.mp h with hmin | ⟨hmin, h⟩
  · omega
  rcases List.cons_lt_cons_iff.mp h with hsecond | ⟨_, h⟩
  · omega
  · exact absurd h (List.not_lt_nil _)

theorem dayNumber_lt (hbase : base ≤ t.year) (h : t.key < t'.key) :
    86400 * t.dayNumber base + t.secondOfDay < 86400 * t'.dayNumber base + t'.secondOfDay := by
  have hsecond := t.secondOfDay_lt
  rcases key_lt h with hlt | ⟨heq, hlt⟩
  · have := Date.dayNumber_lt hbase hlt
    omega
  · rw [heq]
    exact Nat.add_lt_add_left hlt _

end DateTime

end Theory
