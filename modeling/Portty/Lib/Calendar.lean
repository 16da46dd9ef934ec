import Mathlib.Data.List.Basic

/-!
# The Gregorian calendar, counted day by day

The days from the first of January of year 0 on.

* `Date.number_next`, `Date.number_lt`: the numbers go up by one from day to day, and follow the
  order of the dates.
* `daysBeforeYear_eq`, `daysBeforeMonth_eq`: the closed forms.
-/

namespace Calendar

/-- The year has a day more. -/
def isLeap (year : Nat) : Bool := year % 4 = 0 ∧ (year % 100 ≠ 0 ∨ year % 400 = 0)

/-- The days of a month. -/
def daysInMonth (year : Nat) : Nat → Nat
  | 2 => if isLeap year then 29 else 28
  | 4 | 6 | 9 | 11 => 30
  | _ => 31

/-- The days of a year. -/
def daysInYear (year : Nat) : Nat := if isLeap year then 366 else 365

/-- The days before a year, from the year 0. -/
def daysBeforeYear : Nat → Nat
  | 0 => 0
  | year + 1 => daysBeforeYear year + daysInYear year

/-- The days of the year before a month; January is 1. -/
def daysBeforeMonth (year : Nat) : Nat → Nat
  | 0 | 1 => 0
  | month + 2 => daysBeforeMonth year (month + 1) + daysInMonth year (month + 1)

/-- The number of a day; a day after the last of its month is counted on. -/
def dayNumber (year month day : Nat) : Nat :=
  daysBeforeYear year + daysBeforeMonth year month + (day - 1)

/-- A date of the calendar. -/
structure Date where
  year : Nat
  month : Nat
  day : Nat
  month_pos : 1 ≤ month
  month_le : month ≤ 12
  day_pos : 1 ≤ day
  day_le : day ≤ daysInMonth year month

variable {year year' month month' day : Nat}

theorem daysInMonth_pos (year month : Nat) : 1 ≤ daysInMonth year month := by
  unfold daysInMonth
  split <;> first | decide | (split <;> decide)

theorem daysBeforeMonth_succ (hpos : 1 ≤ month) :
    daysBeforeMonth year (month + 1) = daysBeforeMonth year month + daysInMonth year month := by
  cases month with
  | zero => exact absurd hpos (by decide)
  | succ month => rfl

theorem daysBeforeMonth_mono (h : month ≤ month') :
    daysBeforeMonth year month ≤ daysBeforeMonth year month' := by
  induction h with
  | refl => exact Nat.le_refl _
  | @step next _ ih =>
    refine Nat.le_trans ih ?_
    cases next with
    | zero => exact Nat.le_refl _
    | succ next => exact Nat.le_add_right _ _

theorem daysBeforeMonth_end (year : Nat) : daysBeforeMonth year 13 = daysInYear year := by
  cases h : isLeap year <;> simp [daysBeforeMonth, daysInMonth, daysInYear, h]

theorem daysBeforeYear_mono (h : year ≤ year') : daysBeforeYear year ≤ daysBeforeYear year' := by
  induction h with
  | refl => exact Nat.le_refl _
  | step _ ih => exact Nat.le_trans ih (Nat.le_add_right _ _)

theorem isLeap_iff : isLeap year = true ↔ year % 4 = 0 ∧ (year % 100 ≠ 0 ∨ year % 400 = 0) := by
  rw [isLeap, decide_eq_true_iff]

/-- A quotient that is rounded up. -/
theorem ceil_eq (n : Nat) {k : Nat} (hk : 0 < k) :
    (n + (k - 1)) / k = n / k + if n % k = 0 then 0 else 1 := by
  have hlt := Nat.mod_lt n hk
  have hn := Nat.div_add_mod n k
  split
  · next h =>
    have hrest : (k - 1) / k = 0 := Nat.div_eq_of_lt (Nat.sub_lt hk Nat.one_pos)
    rw [h, Nat.add_zero] at hn
    nth_rewrite 1 [← hn]
    rw [Nat.mul_add_div hk, hrest]
  · next h =>
    have hrest : (n % k + (k - 1)) / k = 1 := Nat.div_eq_of_lt_le (by omega) (by omega)
    nth_rewrite 1 [← hn]
    rw [Nat.add_assoc, Nat.mul_add_div hk, hrest]

theorem ceil_succ (n : Nat) {k : Nat} (hk : 0 < k) : (n + 1 + (k - 1)) / k = n / k + 1 := by
  rw [Nat.add_assoc, Nat.add_sub_cancel' hk, Nat.add_div_right n hk]

theorem centuries (year : Nat) :
    (year % 400 = 0 → year % 100 = 0) ∧ (year % 100 = 0 → year % 4 = 0) := by omega

/-- The days before a year without counting. -/
theorem daysBeforeYear_eq (year : Nat) :
    daysBeforeYear year + (year + 99) / 100 = 365 * year + (year + 3) / 4 + (year + 399) / 400 := by
  induction year with
  | zero => rfl
  | succ year ih =>
    rw [ceil_eq year (k := 100) (by decide), ceil_eq year (k := 4) (by decide),
      ceil_eq year (k := 400) (by decide)] at ih
    rw [ceil_succ year (k := 100) (by decide), ceil_succ year (k := 4) (by decide),
      ceil_succ year (k := 400) (by decide), daysBeforeYear, daysInYear]
    have hdvd := centuries year
    generalize year / 4 = a, year / 100 = b, year / 400 = c at ih ⊢
    by_cases hleap : isLeap year = true
    · have := isLeap_iff.mp hleap
      rw [if_pos hleap]
      split_ifs at ih <;> omega
    · have := mt isLeap_iff.mpr hleap
      rw [if_neg hleap]
      split_ifs at ih <;> omega

/-- The days before March, of all years. -/
theorem daysBeforeMarch_eq (year : Nat) :
    daysBeforeYear year + (if isLeap year then 60 else 59) + year / 100 =
      365 * year + year / 4 + year / 400 + 60 := by
  have hdays := daysBeforeYear_eq year
  rw [ceil_eq year (k := 100) (by decide), ceil_eq year (k := 4) (by decide),
    ceil_eq year (k := 400) (by decide)] at hdays
  have hdvd := centuries year
  generalize year / 4 = a, year / 100 = b, year / 400 = c at hdays ⊢
  by_cases hleap : isLeap year = true
  · have := isLeap_iff.mp hleap
    rw [if_pos hleap]
    split_ifs at hdays <;> omega
  · have := mt isLeap_iff.mpr hleap
    rw [if_neg hleap]
    split_ifs at hdays <;> omega

/-- From March on the lengths of the months repeat, and February is the last. -/
theorem daysBeforeMonth_eq (year : Nat) (hpos : 1 ≤ month) (hle : month ≤ 12) :
    daysBeforeMonth year month =
      if month ≤ 2 then 31 * (month - 1) else (153 * (month - 3) + 2) / 5 + if isLeap year then 60 else 59 := by
  obtain rfl | rfl | rfl | rfl | rfl | rfl | rfl | rfl | rfl | rfl | rfl | rfl : month = 1 ∨ month = 2 ∨ month = 3 ∨
      month = 4 ∨ month = 5 ∨ month = 6 ∨ month = 7 ∨ month = 8 ∨ month = 9 ∨ month = 10 ∨ month = 11 ∨ month = 12 := by
    omega
  all_goals cases h : isLeap year <;> simp [daysBeforeMonth, daysInMonth, h]

theorem dayNumber_le (year day : Nat) (hle : month ≤ 12) :
    dayNumber year month day ≤ 366 * (year + 1) + day := by
  have hdays := daysBeforeYear_eq year
  have hmonth : daysBeforeMonth year month ≤ daysBeforeMonth year 13 :=
    daysBeforeMonth_mono (Nat.le_succ_of_le hle)
  have hyear : daysInYear year ≤ 366 := by
    rw [daysInYear]
    split <;> decide
  rw [daysBeforeMonth_end] at hmonth
  rw [dayNumber]
  omega

namespace Date

variable {d d' : Date}

/-- The days before a date. -/
def number (d : Date) : Nat := dayNumber d.year d.month d.day

/-- The order of the calendar. -/
def Before (d d' : Date) : Prop :=
  d.year < d'.year ∨ d.year = d'.year ∧ (d.month < d'.month ∨ d.month = d'.month ∧ d.day < d'.day)

/-- The day after. -/
def next (d : Date) : Date :=
  if hday : d.day < daysInMonth d.year d.month then
    ⟨d.year, d.month, d.day + 1, d.month_pos, d.month_le, Nat.le_add_left _ _, hday⟩
  else if hmonth : d.month < 12 then
    ⟨d.year, d.month + 1, 1, Nat.le_add_left _ _, hmonth, Nat.le_refl _, daysInMonth_pos _ _⟩
  else ⟨d.year + 1, 1, 1, Nat.le_refl _, by decide, Nat.le_refl _, daysInMonth_pos _ _⟩

/-- The next day has the next number. -/
theorem number_next (d : Date) : d.next.number = d.number + 1 := by
  have hpos := d.day_pos
  have hle := d.day_le
  rw [next]
  split
  · next hday =>
    show daysBeforeYear d.year + daysBeforeMonth d.year d.month + (d.day + 1 - 1) =
      daysBeforeYear d.year + daysBeforeMonth d.year d.month + (d.day - 1) + 1
    omega
  · next hday =>
    split
    · next hmonth =>
      show daysBeforeYear d.year + daysBeforeMonth d.year (d.month + 1) + 0 =
        daysBeforeYear d.year + daysBeforeMonth d.year d.month + (d.day - 1) + 1
      rw [daysBeforeMonth_succ d.month_pos]
      omega
    · next hmonth =>
      have hmonth : d.month = 12 := Nat.le_antisymm d.month_le (Nat.le_of_not_lt hmonth)
      have hend := daysBeforeMonth_end d.year
      rw [daysBeforeMonth_succ (by decide)] at hend
      rw [hmonth] at hday hle
      show daysBeforeYear d.year + daysInYear d.year + 0 + 0 =
        daysBeforeYear d.year + daysBeforeMonth d.year d.month + (d.day - 1) + 1
      rw [← hend, hmonth]
      omega

/-- The day is in its month, and the month in its year. -/
theorem number_lt_month (d : Date) (h : d.month < month) :
    d.number < daysBeforeYear d.year + daysBeforeMonth d.year month := by
  have hmono : daysBeforeMonth d.year (d.month + 1) ≤ daysBeforeMonth d.year month :=
    daysBeforeMonth_mono h
  rw [daysBeforeMonth_succ d.month_pos] at hmono
  have hpos := d.day_pos
  have hle := d.day_le
  rw [number, dayNumber]
  omega

/-- A later day has a greater number. -/
theorem number_lt (h : d.Before d') : d.number < d'.number := by
  obtain hyear | ⟨hyear, hmonth | ⟨hmonth, hday⟩⟩ := h
  · have hlt := d.number_lt_month (Nat.lt_succ_of_le d.month_le)
    rw [daysBeforeMonth_end] at hlt
    have hmono : daysBeforeYear (d.year + 1) ≤ daysBeforeYear d'.year := daysBeforeYear_mono hyear
    rw [daysBeforeYear] at hmono
    show d.number < daysBeforeYear d'.year + daysBeforeMonth d'.year d'.month + (d'.day - 1)
    omega
  · have hlt := d.number_lt_month hmonth
    rw [hyear] at hlt
    show d.number < daysBeforeYear d'.year + daysBeforeMonth d'.year d'.month + (d'.day - 1)
    omega
  · have hpos := d.day_pos
    rw [number, number, dayNumber, dayNumber, hyear, hmonth]
    omega

theorem before_iff : d.Before d' ↔ d.number < d'.number := by
  refine ⟨number_lt, fun hlt => ?_⟩
  by_contra hnot
  have hswap : d'.Before d ∨ d.year = d'.year ∧ d.month = d'.month ∧ d.day = d'.day := by
    unfold Before at hnot ⊢
    omega
  obtain hswap | ⟨hyear, hmonth, hday⟩ := hswap
  · exact Nat.lt_asymm hlt (number_lt hswap)
  · rw [number, number, hyear, hmonth, hday] at hlt
    exact Nat.lt_irrefl _ hlt

end Date

end Calendar
