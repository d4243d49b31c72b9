import Mathlib.Data.Nat.Basic
import Mathlib.Order.Monotone.Basic
import Mathlib.Tactic.IntervalCases

/-!
# The Gregorian calendar

A date is a year, a month and a day of the month.  Its number counts the days from the first day of
the year zero: the days of the years before, of the months before, and of the month.  Later dates have
larger numbers (`Date.number_lt_iff`), and the days of the years before a year have a closed form
(`daysBeforeYear_eq`).
-/

namespace Nightfall

namespace Calendar

/-- The year has a 29th of February. -/
def IsLeap (y : ℕ) : Prop := y % 4 = 0 ∧ (y % 100 ≠ 0 ∨ y % 400 = 0)

instance decidableIsLeap (y : ℕ) : Decidable (IsLeap y) :=
  inferInstanceAs (Decidable (_ ∧ (_ ∨ _)))

/-- The days of a month, counted from one. -/
def daysInMonth (y m : ℕ) : ℕ :=
  if m = 2 then (if IsLeap y then 29 else 28)
  else if m = 4 ∨ m = 6 ∨ m = 9 ∨ m = 11 then 30
  else 31

/-- The days of a year. -/
def yearLength (y : ℕ) : ℕ := if IsLeap y then 366 else 365

/-- The days of all years before a year. -/
def daysBeforeYear : ℕ → ℕ
  | 0 => 0
  | y + 1 => daysBeforeYear y + yearLength y

/-- The days of all months before a month of a year. -/
def daysBeforeMonth (y : ℕ) : ℕ → ℕ
  | 0 => 0
  | 1 => 0
  | m + 2 => daysBeforeMonth y (m + 1) + daysInMonth y (m + 1)

/-- A day of the calendar. -/
@[ext]
structure Date where
  year : ℕ
  month : ℕ
  day : ℕ
  one_le_month : 1 ≤ month
  month_le : month ≤ 12
  one_le_day : 1 ≤ day
  day_le : day ≤ daysInMonth year month
  deriving DecidableEq

namespace Date

/-- The days from the first day of the year zero. -/
def number (d : Date) : ℕ := daysBeforeYear d.year + daysBeforeMonth d.year d.month + (d.day - 1)

/-- A date is before another one. -/
def Before (a b : Date) : Prop :=
  a.year < b.year ∨
    a.year = b.year ∧ (a.month < b.month ∨ a.month = b.month ∧ a.day < b.day)

instance decidableBefore (a b : Date) : Decidable (a.Before b) :=
  inferInstanceAs (Decidable (_ ∨ _ ∧ (_ ∨ _ ∧ _)))

theorem one_le_january : 1 ≤ 1 := le_rfl

theorem january_le : 1 ≤ 12 := by decide

/-- The first day of 1970. -/
def epoch : Date := ⟨1970, 1, 1, one_le_january, january_le, one_le_january, by decide⟩

/-- The days from the first day of 1970. -/
def sinceEpoch (d : Date) : ℤ := (d.number : ℤ) - (epoch.number : ℤ)

end Date

/-! ### Years -/

/-- The leap years among the years before a year. -/
theorem daysBeforeYear_eq (y : ℕ) :
    (daysBeforeYear y : ℤ) =
      365 * y + ((y - 1 : ℤ) / 4 - (y - 1 : ℤ) / 100 + (y - 1 : ℤ) / 400) + 1 := by
  induction y with
  | zero => rfl
  | succ y ih =>
    rw [daysBeforeYear, yearLength]
    push_cast at ih ⊢
    rw [ih, add_sub_cancel_right]
    split_ifs with hleap
    · obtain ⟨h4, h⟩ := hleap
      omega
    · rw [IsLeap, not_and_or, not_or] at hleap
      omega

theorem daysBeforeYear_mono {y z : ℕ} (h : y ≤ z) : daysBeforeYear y ≤ daysBeforeYear z := by
  induction z, h using Nat.le_induction with
  | base => exact le_rfl
  | succ z _ ih => exact ih.trans (Nat.le_add_right _ _)

/-! ### Months -/

theorem daysBeforeMonth_succ {y m : ℕ} (h : 1 ≤ m) :
    daysBeforeMonth y (m + 1) = daysBeforeMonth y m + daysInMonth y m := by
  obtain ⟨m, rfl⟩ := Nat.exists_eq_add_of_le' h
  rfl

theorem daysBeforeMonth_mono {y m n : ℕ} (hm : 1 ≤ m) (h : m ≤ n) :
    daysBeforeMonth y m ≤ daysBeforeMonth y n := by
  induction n, h using Nat.le_induction with
  | base => exact le_rfl
  | succ n hn ih =>
    rw [daysBeforeMonth_succ (hm.trans hn)]
    exact ih.trans (Nat.le_add_right _ _)

/-- All twelve months make up a year. -/
theorem daysBeforeMonth_thirteen (y : ℕ) : daysBeforeMonth y 13 = yearLength y := by
  have hmonths : daysBeforeMonth y 13 = 0 + daysInMonth y 1 + daysInMonth y 2 + daysInMonth y 3 +
      daysInMonth y 4 + daysInMonth y 5 + daysInMonth y 6 + daysInMonth y 7 + daysInMonth y 8 +
      daysInMonth y 9 + daysInMonth y 10 + daysInMonth y 11 + daysInMonth y 12 := rfl
  rw [hmonths]
  by_cases hleap : IsLeap y
  · simp [daysInMonth, yearLength, hleap]
  · simp [daysInMonth, yearLength, hleap]

/-! ### Dates -/

namespace Date

variable {a b : Date}

/-- A date is within its month. -/
theorem month_bounds (d : Date) :
    daysBeforeMonth d.year d.month + (d.day - 1) < daysBeforeMonth d.year (d.month + 1) := by
  have h1 := d.one_le_day
  have h2 := d.day_le
  rw [daysBeforeMonth_succ d.one_le_month]
  omega

/-- A date is within its year. -/
theorem year_bounds (d : Date) :
    daysBeforeYear d.year ≤ d.number ∧ d.number < daysBeforeYear (d.year + 1) := by
  have hmonth := d.month_bounds
  have hyear := daysBeforeMonth_mono (y := d.year) (Nat.le_add_left 1 d.month)
    (Nat.succ_le_succ d.month_le)
  rw [daysBeforeMonth_thirteen] at hyear
  rw [number, daysBeforeYear]
  omega

theorem number_lt_of_before (h : a.Before b) : a.number < b.number := by
  rcases h with hyear | ⟨hyear, hmonth | ⟨hmonth, hday⟩⟩
  · have hmono := daysBeforeYear_mono (Nat.succ_le_of_lt hyear)
    exact a.year_bounds.2.trans_le (hmono.trans b.year_bounds.1)
  · have hmono := daysBeforeMonth_mono (y := b.year) (Nat.le_add_left 1 a.month)
      (Nat.succ_le_of_lt hmonth)
    have hbounds := a.month_bounds
    rw [hyear] at hbounds
    rw [number, number, hyear]
    omega
  · have h1 := a.one_le_day
    rw [number, number, hyear, hmonth]
    omega

theorem before_trichotomy (a b : Date) : a.Before b ∨ a = b ∨ b.Before a := by
  rw [Date.ext_iff, Before, Before]
  omega

/-- **Later dates have larger numbers.** -/
theorem number_lt_iff : a.number < b.number ↔ a.Before b := by
  refine ⟨fun h => ?_, number_lt_of_before⟩
  rcases before_trichotomy a b with hab | rfl | hba
  · exact hab
  · exact absurd h (lt_irrefl _)
  · exact absurd (number_lt_of_before hba) h.asymm

theorem sinceEpoch_lt_iff : a.sinceEpoch < b.sinceEpoch ↔ a.Before b := by
  rw [← number_lt_iff, sinceEpoch, sinceEpoch]
  omega

end Date

end Calendar

end Nightfall
