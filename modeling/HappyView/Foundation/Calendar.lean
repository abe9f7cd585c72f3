import Mathlib.Tactic.IntervalCases

/-!
# The Gregorian calendar

The date of a day by its number, counted from 0000-01-01. The calendar repeats every 400
years, that is 146097 days; within these a date is found by its year, then by its month.
Both are found in the same way: as the last place that starts no later (`place`).
-/

namespace HappyView.Foundation.Calendar

/-! ## Places -/

section Place

variable {start : Nat → Nat} {bound bound' x x' : Nat}

/-- The last place up to `bound` that starts no later than `x`. -/
def place (start : Nat → Nat) (bound x : Nat) : Nat := Nat.findGreatest (start · ≤ x) bound

theorem start_place_le (first : start 0 = 0) : start (place start bound x) ≤ x :=
  Nat.findGreatest_spec (P := (start · ≤ x)) (Nat.zero_le bound) (by omega)

theorem place_le : place start bound x ≤ bound := Nat.findGreatest_le bound

theorem lt_start_of_place_lt {i : Nat} (after : place start bound x < i) (within : i ≤ bound) :
    x < start i :=
  Nat.not_le.mp (Nat.findGreatest_is_greatest (P := (start · ≤ x)) after within)

theorem place_before (start : Nat → Nat) (first : start 0 = 0) (bounds : bound ≤ bound')
    (h : x < x') :
    place start bound x < place start bound' x' ∨
      place start bound x = place start bound' x' ∧
        x - start (place start bound x) < x' - start (place start bound' x') := by
  have mono : place start bound x ≤ place start bound' x' :=
    Nat.findGreatest_mono (fun i le => Nat.le_trans le (Nat.le_of_lt h)) bounds
  have below : start (place start bound x) ≤ x := start_place_le first
  rcases Nat.lt_or_eq_of_le mono with lt | same
  · exact .inl lt
  · refine .inr ⟨same, ?_⟩
    rw [← same]
    omega

end Place

/-! ## Dates -/

/-- The days before a year of the cycle, of which every fourth is a leap year but for three
of the hundredth ones. -/
def yearStart (year : Nat) : Nat :=
  365 * year + (year + 3) / 4 + (year + 399) / 400 - (year + 99) / 100

def isLeap (year : Nat) : Bool := year % 4 = 0 && (year % 100 ≠ 0 || year % 400 = 0)

def monthStart (leap : Bool) (month : Nat) : Nat :=
  [0, 31, 59, 90, 120, 151, 181, 212, 243, 273, 304, 334].getD month 0 +
    if leap && 2 ≤ month then 1 else 0

structure Date where
  year : Int
  month : Nat
  day : Nat
  deriving DecidableEq

def yearOf (r : Nat) : Nat := place yearStart (r / 365) r

def ordinal (r : Nat) : Nat := r - yearStart (yearOf r)

def monthOf (r : Nat) : Nat := place (monthStart (isLeap (yearOf r))) 11 (ordinal r)

def dayOf (r : Nat) : Nat := ordinal r - monthStart (isLeap (yearOf r)) (monthOf r)

def cycleDay (days : Int) : Nat := (days % 146097).toNat

def dateOf (days : Int) : Date :=
  ⟨400 * (days / 146097) + yearOf (cycleDay days), monthOf (cycleDay days) + 1,
    dayOf (cycleDay days) + 1⟩

example : dateOf 719528 = ⟨1970, 1, 1⟩ := by decide +kernel

example : dateOf 730544 = ⟨2000, 2, 29⟩ := by decide +kernel

example : dateOf (-1) = ⟨-1, 12, 31⟩ := by decide +kernel

theorem cycleDay_lt (days : Int) : cycleDay days < 146097 := by
  unfold cycleDay
  omega

theorem yearOf_lt {r : Nat} (h : r < 146097) : yearOf r < 400 := by
  have bound : yearOf r ≤ r / 365 := place_le
  have below : yearStart (yearOf r) ≤ r := start_place_le rfl
  rcases Nat.lt_or_ge (yearOf r) 400 with lt | ge
  · exact lt
  · have last : yearOf r = 400 := by omega
    rw [last, yearStart] at below
    omega

theorem multiples_succ (n year : Nat) :
    (year + 1 + n) / (n + 1) = (year + n) / (n + 1) + if year % (n + 1) = 0 then 1 else 0 := by
  rw [Nat.add_right_comm, Nat.succ_div]
  have shift : n + 1 ∣ year + n + 1 ↔ year % (n + 1) = 0 := by
    rw [Nat.add_assoc, Nat.dvd_add_left (dvd_refl _), Nat.dvd_iff_mod_eq_zero]
  simp only [shift]

theorem yearStart_succ (year : Nat) :
    yearStart (year + 1) = yearStart year + if isLeap year then 366 else 365 := by
  have fourth := multiples_succ 3 year
  have hundredth := multiples_succ 99 year
  have cycle := multiples_succ 399 year
  have fewer : (year + 99) / 100 ≤ year := by omega
  unfold yearStart isLeap
  rw [fourth, hundredth, cycle]
  grind

theorem ordinal_lt_length (r : Nat) : ordinal r < if isLeap (yearOf r) then 366 else 365 := by
  have below : yearStart (yearOf r) ≤ r := start_place_le rfl
  have above : r < yearStart (yearOf r + 1) := by
    rcases Nat.lt_or_ge (r / 365) (yearOf r + 1) with past | within
    · unfold yearStart
      omega
    · exact lt_start_of_place_lt (Nat.lt_succ_self _) within
  rw [yearStart_succ] at above
  unfold ordinal
  omega

theorem monthOf_lt (r : Nat) : monthOf r < 12 := Nat.lt_succ_of_le place_le

def monthLength (leap : Bool) (month : Nat) : Nat :=
  [31, if leap then 29 else 28, 31, 30, 31, 30, 31, 31, 30, 31, 30, 31].getD month 0

theorem dayOf_lt_monthLength (r : Nat) :
    dayOf r < monthLength (isLeap (yearOf r)) (monthOf r) := by
  have last := ordinal_lt_length r
  have month := monthOf_lt r
  have above (within : monthOf r + 1 ≤ 11) :
      ordinal r < monthStart (isLeap (yearOf r)) (monthOf r + 1) :=
    lt_start_of_place_lt (Nat.lt_succ_self _) within
  have below : monthStart (isLeap (yearOf r)) (monthOf r) ≤ ordinal r :=
    start_place_le (by simp [monthStart])
  unfold dayOf
  generalize monthOf r = m at *
  generalize isLeap (yearOf r) = leap at *
  interval_cases m <;> cases leap <;>
    simp [monthStart, monthLength] at above below last ⊢ <;> omega

theorem dayOf_lt (r : Nat) : dayOf r < 99 := by
  have month := monthOf_lt r
  refine (dayOf_lt_monthLength r).trans ?_
  generalize monthOf r = m at *
  generalize isLeap (yearOf r) = leap
  interval_cases m <;> cases leap <;> decide

/-! ## Order -/

def Date.Before (a b : Date) : Prop :=
  a.year < b.year ∨ a.year = b.year ∧ (a.month < b.month ∨ a.month = b.month ∧ a.day < b.day)

theorem dateOf_before {days days' : Int} (h : days < days') :
    (dateOf days).Before (dateOf days') := by
  have low := yearOf_lt (cycleDay_lt days)
  rcases Int.lt_or_le (days / 146097) (days' / 146097) with cycle | cycle
  · left
    simp only [dateOf]
    omega
  have cycle : days / 146097 = days' / 146097 := by omega
  have inCycle : cycleDay days < cycleDay days' := by
    unfold cycleDay
    omega
  rcases place_before yearStart rfl (Nat.div_le_div_right (Nat.le_of_lt inCycle))
    inCycle with year | ⟨year, ordinals⟩
  · left
    have year : yearOf (cycleDay days) < yearOf (cycleDay days') := year
    simp only [dateOf, cycle]
    omega
  have year : yearOf (cycleDay days) = yearOf (cycleDay days') := year
  have ordinals : ordinal (cycleDay days) < ordinal (cycleDay days') := ordinals
  refine .inr ⟨by simp only [dateOf, cycle, year], ?_⟩
  have months := place_before (monthStart (isLeap (yearOf (cycleDay days))))
    (by simp [monthStart]) (le_refl 11) ordinals
  simp only [dateOf, dayOf, monthOf, year] at months ⊢
  omega

theorem year_dateOf_nonneg {days : Int} : 0 ≤ (dateOf days).year ↔ 0 ≤ days := by
  have := yearOf_lt (cycleDay_lt days)
  simp only [dateOf]
  omega

theorem year_dateOf_le {days : Int} : (dateOf days).year ≤ 9999 ↔ days < 25 * 146097 := by
  have := yearOf_lt (cycleDay_lt days)
  simp only [dateOf]
  omega

/-! ## The day of a date -/

def cycleYear (year : Int) : Nat := (year % 400).toNat

structure Date.Valid (date : Date) : Prop where
  month_pos : 1 ≤ date.month
  month_le : date.month ≤ 12
  day_pos : 1 ≤ date.day
  day_le : date.day ≤ monthLength (isLeap (cycleYear date.year)) (date.month - 1)

theorem Date.valid_iff {date : Date} :
    date.Valid ↔ 1 ≤ date.month ∧ date.month ≤ 12 ∧ 1 ≤ date.day ∧
      date.day ≤ monthLength (isLeap (cycleYear date.year)) (date.month - 1) :=
  ⟨fun ⟨a, b, c, d⟩ => ⟨a, b, c, d⟩, fun ⟨a, b, c, d⟩ => ⟨a, b, c, d⟩⟩

instance (date : Date) : Decidable date.Valid := decidable_of_iff' _ Date.valid_iff

def Date.number (date : Date) : Int :=
  146097 * (date.year / 400) + yearStart (cycleYear date.year) +
    monthStart (isLeap (cycleYear date.year)) (date.month - 1) + (date.day - 1)

theorem cycleYear_dateOf (days : Int) :
    cycleYear (dateOf days).year = yearOf (cycleDay days) := by
  have := yearOf_lt (cycleDay_lt days)
  simp only [cycleYear, dateOf]
  omega

theorem valid_dateOf (days : Int) : (dateOf days).Valid where
  month_pos := Nat.le_add_left 1 _
  month_le := monthOf_lt (cycleDay days)
  day_pos := Nat.le_add_left 1 _
  day_le := by
    rw [cycleYear_dateOf]
    exact dayOf_lt_monthLength (cycleDay days)

theorem number_dateOf (days : Int) : (dateOf days).number = days := by
  have cycle : (dateOf days).year / 400 = days / 146097 := by
    have := yearOf_lt (cycleDay_lt days)
    simp only [dateOf]
    omega
  have years : yearStart (yearOf (cycleDay days)) ≤ cycleDay days := start_place_le rfl
  have months : monthStart (isLeap (yearOf (cycleDay days))) (monthOf (cycleDay days)) ≤
      ordinal (cycleDay days) := start_place_le (by simp [monthStart])
  rw [Date.number, cycleYear_dateOf, cycle]
  simp only [dateOf, Nat.add_sub_cancel, dayOf]
  unfold ordinal at *
  have whole : (cycleDay days : Int) = days - 146097 * (days / 146097) := by
    unfold cycleDay
    omega
  omega

end HappyView.Foundation.Calendar
