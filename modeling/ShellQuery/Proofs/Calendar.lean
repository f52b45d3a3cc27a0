import Mathlib.Algebra.GroupWithZero.Nat
import Mathlib.Tactic.Common
import ShellQuery.Calendar
/-!
# Days and dates

`ofDayNumber` finds for each day a date that the calendar has and that counts to this day
(`isValid_ofDayNumber`, `dayNumber_ofDayNumber`). The year is the one whose days the day is among
(`daysBeforeYear_add_dayOfYear`, `dayOfYear_lt`); the month is found by going through the lengths of
the months (`monthAndDay_spec`). In the other direction, the days are counted one by one along the
dates of the calendar (`dayNumber_next`).
-/

namespace ShellQuery.Calendar

/-! ## Years -/

/-- The year of a day, which is counted from 0001-01-01. -/
def yearOf (days : Int) : Int :=
  let inCycle := (days % 146097).toNat
  let century := min (inCycle / 36524) 3
  let inCentury := inCycle - century * 36524
  let single := min (inCentury % 1461 / 365) 3
  400 * (days / 146097) + (100 * century + 4 * (inCentury / 1461) + single : Nat) + 1

/-- The day within its year, counted from zero. -/
def dayOfYear (days : Int) : Nat :=
  let inCycle := (days % 146097).toNat
  let inCentury := inCycle - min (inCycle / 36524) 3 * 36524
  inCentury % 1461 - min (inCentury % 1461 / 365) 3 * 365

/-- The parts of a cycle of 400 years: `c` centuries, `k` quadrennia and `s` years before the year
of day `r`, which is day `d` of it. -/
theorem exists_parts {r : Nat} (hr : r < 146097) :
    ∃ c k s d, c = min (r / 36524) 3 ∧ k = (r - c * 36524) / 1461 ∧
      s = min ((r - c * 36524) % 1461 / 365) 3 ∧ d = (r - c * 36524) % 1461 - s * 365 ∧
      c ≤ 3 ∧ k ≤ 24 ∧ s ≤ 3 ∧ r = 36524 * c + 1461 * k + 365 * s + d ∧ d ≤ 365 ∧
      (d = 365 → s = 3 ∧ (k = 24 → c = 3)) := by
  refine ⟨_, _, _, _, rfl, rfl, rfl, rfl, ?_⟩
  have hc : min (r / 36524) 3 ≤ 3 ∧ min (r / 36524) 3 * 36524 ≤ r ∧
      (min (r / 36524) 3 < 3 → r - min (r / 36524) 3 * 36524 < 36524) := by omega
  generalize min (r / 36524) 3 = c at *
  have hs : min ((r - c * 36524) % 1461 / 365) 3 ≤ 3 ∧
      min ((r - c * 36524) % 1461 / 365) 3 * 365 ≤ (r - c * 36524) % 1461 ∧
      (min ((r - c * 36524) % 1461 / 365) 3 < 3 →
        (r - c * 36524) % 1461 - min ((r - c * 36524) % 1461 / 365) 3 * 365 < 365) := by omega
  generalize min ((r - c * 36524) % 1461 / 365) 3 = s at *
  omega

/-- The year of a day and its place there, by cycles of 400 years and the parts of the last. -/
theorem exists_year_parts (days : Int) :
    ∃ (q : Int) (c k s d : Nat), days = 146097 * q + 36524 * c + 1461 * k + 365 * s + d ∧
      yearOf days = 400 * q + 100 * c + 4 * k + s + 1 ∧ dayOfYear days = d ∧
      c ≤ 3 ∧ k ≤ 24 ∧ s ≤ 3 ∧ d ≤ 365 ∧ (d = 365 → s = 3 ∧ (k = 24 → c = 3)) := by
  obtain ⟨r, hr⟩ : ∃ r : Nat, days % 146097 = r :=
    ⟨_, (Int.toNat_of_nonneg (Int.emod_nonneg _ (by decide))).symm⟩
  obtain ⟨c, k, s, d, hc, hk, hs, hd, hc3, hk24, hs3, hsum, hlast⟩ :=
    exists_parts (r := r) (by omega)
  have hyear : yearOf days = 400 * (days / 146097) + (100 * c + 4 * k + s : Nat) + 1 := by
    simp only [yearOf, hr, Int.toNat_natCast, ← hc, ← hk, ← hs]
  have hday : dayOfYear days = d := by
    simp only [dayOfYear, hr, Int.toNat_natCast, ← hc, ← hs, ← hd]
  clear hc hk hs hd
  exact ⟨days / 146097, c, k, s, d, by omega, by omega, hday, hc3, hk24, hs3, hlast⟩

/-- A day is in its year at its place. -/
theorem daysBeforeYear_add_dayOfYear (days : Int) :
    daysBeforeYear (yearOf days) + dayOfYear days = days := by
  obtain ⟨q, c, k, s, d, hdays, hyear, hday, hparts⟩ := exists_year_parts days
  have hfour : (400 * q + 100 * c + 4 * k + s + 1 - 1 : Int) / 4 = 100 * q + 25 * c + k := by omega
  have hhundred : (400 * q + 100 * c + 4 * k + s + 1 - 1 : Int) / 100 = 4 * q + c := by omega
  have hcycle : (400 * q + 100 * c + 4 * k + s + 1 - 1 : Int) / 400 = q := by omega
  simp only [hyear, hday, daysBeforeYear, hfour, hhundred, hcycle]
  omega

/-- The day of a year is at most the 366th, and only a leap year has that one. -/
theorem dayOfYear_le (days : Int) :
    dayOfYear days ≤ 365 ∧ (dayOfYear days = 365 → isLeapYear (yearOf days) = true) := by
  obtain ⟨q, c, k, s, d, -, hyear, hday, hparts⟩ := exists_year_parts days
  rw [hyear, hday]
  refine ⟨hparts.2.2.2.1, fun hlast => ?_⟩
  simp only [isLeapYear, Bool.and_eq_true, Bool.or_eq_true, beq_iff_eq, bne_iff_ne]
  omega

/-! ## Months -/

/-- A day is found in the month that the lengths of the months before it lead to. -/
theorem monthAndDay_spec {lengths : List Nat} {day : Nat} (h : day < lengths.sum) (month : Nat) :
    ∃ i < lengths.length, (monthAndDay month day lengths).1 = month + i ∧
      (lengths.take i).sum + (monthAndDay month day lengths).2 = day + 1 ∧
      1 ≤ (monthAndDay month day lengths).2 ∧
      (monthAndDay month day lengths).2 ≤ lengths.getD i 0 := by
  induction lengths generalizing month day with
  | nil => exact absurd h (Nat.not_lt_zero _)
  | cons length more ih =>
    rw [monthAndDay]
    split
    · rename_i hday
      exact ⟨0, Nat.zero_lt_succ _, rfl, by simp, Nat.succ_le_succ (Nat.zero_le _),
        by simpa using Nat.succ_le_of_lt hday⟩
    · rename_i hday
      rw [List.sum_cons] at h
      have hrest : day - length < more.sum := by omega
      obtain ⟨i, hi, hmonth, hsum, hpos, hle⟩ := ih hrest (month + 1)
      refine ⟨i + 1, Nat.succ_lt_succ hi, by omega, ?_, hpos, by simpa using hle⟩
      rw [List.take_succ_cons, List.sum_cons]
      omega

/-- The months of a year make up the year. -/
theorem sum_monthLengths (leap : Bool) :
    (monthLengths leap).sum = if leap then 366 else 365 := by
  cases leap <;> rfl

/-- The day of a year is in one of its months. -/
theorem dayOfYear_lt (days : Int) :
    dayOfYear days < (monthLengths (isLeapYear (yearOf days))).sum := by
  obtain ⟨hle, hlast⟩ := dayOfYear_le days
  rw [sum_monthLengths]
  split
  · omega
  · rename_i hleap
    have hne : dayOfYear days ≠ 365 := fun h => hleap (hlast h)
    omega

/-- The date of a day: its year, a month, and the day of it. -/
theorem ofDayNumber_spec (n : Int) :
    ∃ i d, Date.ofDayNumber n = ⟨yearOf (n + epoch), 1 + i, d⟩ ∧ i < 12 ∧
      ((monthLengths (isLeapYear (yearOf (n + epoch)))).take i).sum + d =
        dayOfYear (n + epoch) + 1 ∧
      1 ≤ d ∧ d ≤ (monthLengths (isLeapYear (yearOf (n + epoch)))).getD i 0 := by
  obtain ⟨i, hi, hmonth, hsum, hpos, hle⟩ := monthAndDay_spec (dayOfYear_lt (n + epoch)) 1
  refine ⟨i, _, ?_, hi, hsum, hpos, hle⟩
  rw [← hmonth]
  simp only [Date.ofDayNumber, yearOf, dayOfYear]

/-- Every day has a date that the calendar has. -/
theorem isValid_ofDayNumber (n : Int) : (Date.ofDayNumber n).isValid = true := by
  obtain ⟨i, d, hdate, hi, -, hpos, hle⟩ := ofDayNumber_spec n
  rw [hdate]
  simp only [Date.isValid, Bool.and_eq_true, decide_eq_true_eq, Nat.add_sub_cancel_left]
  exact ⟨⟨⟨by omega, by omega⟩, hpos⟩, hle⟩

/-- The date of a day counts to this day. -/
theorem dayNumber_ofDayNumber (n : Int) : (Date.ofDayNumber n).dayNumber = n := by
  obtain ⟨i, d, hdate, -, hsum, -, -⟩ := ofDayNumber_spec n
  have hyear := daysBeforeYear_add_dayOfYear (n + epoch)
  rw [hdate]
  simp only [Date.dayNumber, daysBeforeMonth, ← List.sum_eq_foldr, Nat.add_sub_cancel_left]
  omega

/-- The year of a date is the one that its day is in. -/
theorem year_ofDayNumber (n : Int) : (Date.ofDayNumber n).year = yearOf (n + epoch) := by
  obtain ⟨i, d, hdate, -⟩ := ofDayNumber_spec n
  rw [hdate]

/-! ## The year of a day -/

/-- A later year does not begin before an earlier one. -/
theorem daysBeforeYear_mono {y z : Int} (h : y ≤ z) : daysBeforeYear y ≤ daysBeforeYear z := by
  have hstep : ∀ y : Int, daysBeforeYear y ≤ daysBeforeYear (y + 1) := by
    intro y
    simp only [daysBeforeYear]
    omega
  obtain ⟨k, rfl⟩ := Int.le.dest h
  clear h
  induction k with
  | zero => simp
  | succ k ih =>
    have hk := hstep (y + k)
    rw [Int.add_assoc] at hk
    exact Int.le_trans ih hk

/-- A year has as many days as its months together. -/
theorem daysBeforeYear_succ (y : Int) :
    daysBeforeYear (y + 1) = daysBeforeYear y + (monthLengths (isLeapYear y)).sum := by
  have hfour : (y + 1 - 1) / 4 = (y - 1) / 4 + if y % 4 = 0 then 1 else 0 := by split <;> omega
  have hhundred : (y + 1 - 1) / 100 = (y - 1) / 100 + if y % 100 = 0 then 1 else 0 := by
    split <;> omega
  have hcycle : (y + 1 - 1) / 400 = (y - 1) / 400 + if y % 400 = 0 then 1 else 0 := by
    split <;> omega
  have hleap : isLeapYear y = true ↔ y % 4 = 0 ∧ (y % 100 ≠ 0 ∨ y % 400 = 0) := by
    simp [isLeapYear]
  have hdvd : (y % 400 = 0 → y % 100 = 0) ∧ (y % 100 = 0 → y % 4 = 0) := by omega
  rw [sum_monthLengths]
  simp only [daysBeforeYear, hfour, hhundred, hcycle, hleap]
  split_ifs <;> simp_all <;> omega

/-- The first day of a year follows on all days before the year. -/
theorem dayNumber_newYear (y : Int) : (Date.mk y 1 1).dayNumber = daysBeforeYear y - epoch := by
  have hzero : daysBeforeMonth (isLeapYear y) 1 = 0 := rfl
  simp only [Date.dayNumber, hzero]
  omega

/-- A day before the first of a year is in an earlier year. -/
theorem year_lt_of_lt_dayNumber {n y : Int} (h : n < (Date.mk y 1 1).dayNumber) :
    (Date.ofDayNumber n).year < y := by
  have hyear := daysBeforeYear_add_dayOfYear (n + epoch)
  rw [dayNumber_newYear] at h
  rw [year_ofDayNumber]
  by_contra hle
  have hmono := daysBeforeYear_mono (Int.not_lt.1 hle)
  omega

/-- A day not before the first of a year is in no earlier year. -/
theorem le_year_of_dayNumber_le {n y : Int} (h : (Date.mk y 1 1).dayNumber ≤ n) :
    y ≤ (Date.ofDayNumber n).year := by
  have hyear := daysBeforeYear_add_dayOfYear (n + epoch)
  have hlt := dayOfYear_lt (n + epoch)
  have hnext := daysBeforeYear_succ (yearOf (n + epoch))
  rw [dayNumber_newYear] at h
  rw [year_ofDayNumber]
  by_contra hle
  have hmono := daysBeforeYear_mono (Int.add_one_le_of_lt (Int.not_le.1 hle))
  omega

/-! ## Dates one after the other -/

/-- The date that follows a date: the next day of the month, or else the first of the next month,
or else the first of the next year. -/
def Date.next (d : Date) : Date :=
  if (Date.mk d.year d.month (d.day + 1)).isValid then ⟨d.year, d.month, d.day + 1⟩
  else if d.month < 12 then ⟨d.year, d.month + 1, 1⟩
  else ⟨d.year + 1, 1, 1⟩

/-- A month begins where the one before it ends. -/
theorem daysBeforeMonth_succ (leap : Bool) {month : Nat} (h : 1 ≤ month ∧ month ≤ 12) :
    daysBeforeMonth leap (month + 1) =
      daysBeforeMonth leap month + (monthLengths leap).getD (month - 1) 0 := by
  have hall : ∀ leap, ∀ i < 12, daysBeforeMonth leap (i + 1 + 1) =
      daysBeforeMonth leap (i + 1) + (monthLengths leap).getD i 0 := by decide
  have hmonth := hall leap (month - 1) (by omega)
  rwa [Nat.sub_add_cancel h.1] at hmonth

/-- Every month ends within the year. -/
theorem daysBeforeMonth_le (leap : Bool) {month : Nat} (h : 1 ≤ month ∧ month ≤ 12) :
    daysBeforeMonth leap (month + 1) ≤ (monthLengths leap).sum := by
  have hall : ∀ leap, ∀ i < 12, daysBeforeMonth leap (i + 1 + 1) ≤ (monthLengths leap).sum := by
    decide
  have hmonth := hall leap (month - 1) (by omega)
  rwa [Nat.sub_add_cancel h.1] at hmonth

/-- A date is valid if its month is one of the twelve and its day is in the month. -/
theorem isValid_iff {d : Date} : d.isValid = true ↔ 1 ≤ d.month ∧ d.month ≤ 12 ∧ 1 ≤ d.day ∧
    d.day ≤ (monthLengths (isLeapYear d.year)).getD (d.month - 1) 0 := by
  simp only [Date.isValid, Bool.and_eq_true, decide_eq_true_eq, and_assoc]

/-- Every month has a first day. -/
theorem isValid_newMonth (y : Int) {month : Nat} (h : 1 ≤ month ∧ month ≤ 12) :
    (Date.mk y month 1).isValid = true := by
  have hall : ∀ leap, ∀ i < 12, 1 ≤ (monthLengths leap).getD i 0 := by decide
  have hindex : month - 1 < 12 := by omega
  exact isValid_iff.2 ⟨h.1, h.2, Nat.le_refl 1, hall _ _ hindex⟩

/-- The day behind a valid date is a valid date. -/
theorem isValid_next {d : Date} (h : d.isValid = true) : d.next.isValid = true := by
  have hd := isValid_iff.1 h
  unfold Date.next
  split
  · assumption
  split
  · exact isValid_newMonth _ ⟨by omega, by omega⟩
  · exact isValid_newMonth _ ⟨Nat.le_refl 1, by omega⟩

/-- **Days are counted one by one.** -/
theorem dayNumber_next {d : Date} (h : d.isValid = true) :
    d.next.dayNumber = d.dayNumber + 1 := by
  obtain ⟨hfirst, hlast, hpos, hle⟩ := isValid_iff.1 h
  have hmonth := daysBeforeMonth_succ (isLeapYear d.year) ⟨hfirst, hlast⟩
  -- Where the day is not the next of its month, it was the last.
  have hend : (Date.mk d.year d.month (d.day + 1)).isValid ≠ true →
      d.day = (monthLengths (isLeapYear d.year)).getD (d.month - 1) 0 := by
    intro hnot
    rw [Ne, isValid_iff] at hnot
    simp only [not_and, Nat.not_le] at hnot
    have hlt := hnot hfirst hlast (Nat.succ_le_succ (Nat.zero_le _))
    omega
  unfold Date.next
  split
  · simp only [Date.dayNumber]
    omega
  split
  · rename_i hnot _
    have hday := hend hnot
    simp only [Date.dayNumber]
    omega
  · rename_i hnot _
    have hday := hend hnot
    have hdecember : d.month = 12 := by omega
    have hsum : daysBeforeMonth (isLeapYear d.year) (12 + 1) =
        (monthLengths (isLeapYear d.year)).sum := by
      cases isLeapYear d.year <;> rfl
    rw [hdecember] at hmonth hday
    rw [dayNumber_newYear, daysBeforeYear_succ, Date.dayNumber, hdecember]
    omega

/-- A date is counted among the days of its year. -/
theorem dayNumber_bounds {d : Date} (h : d.isValid = true) :
    (Date.mk d.year 1 1).dayNumber ≤ d.dayNumber ∧
      d.dayNumber < (Date.mk (d.year + 1) 1 1).dayNumber := by
  obtain ⟨hfirst, hlast, hpos, hle⟩ := isValid_iff.1 h
  have hmonth := daysBeforeMonth_succ (isLeapYear d.year) ⟨hfirst, hlast⟩
  have hsum := daysBeforeMonth_le (isLeapYear d.year) ⟨hfirst, hlast⟩
  rw [dayNumber_newYear, dayNumber_newYear, daysBeforeYear_succ]
  simp only [Date.dayNumber]
  omega

end ShellQuery.Calendar
