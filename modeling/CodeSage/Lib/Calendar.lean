import Mathlib.Algebra.BigOperators.Intervals
import Mathlib.Algebra.Order.BigOperators.Group.Finset
import Mathlib.Tactic.IntervalCases
import Mathlib.Tactic.Ring

/-!
# CodeSage.Lib.Calendar

The proleptic Gregorian calendar: civil dates of every year, before and after the year 0, and the number of a
day counted from 1970-01-01.

`dayNumber_lt_iff` says that days and dates are in the same order, so that a day has one date.
-/

namespace Lib
namespace Calendar

def Leap (year : Int) : Prop := year % 4 = 0 ∧ (year % 100 ≠ 0 ∨ year % 400 = 0)

instance (year : Int) : Decidable (Leap year) := inferInstanceAs (Decidable (_ ∧ _))

def yearLength (year : Int) : Int := if Leap year then 366 else 365

def monthLength (year : Int) (month : Nat) : Nat :=
  if month = 2 then if Leap year then 29 else 28
  else if month = 4 ∨ month = 6 ∨ month = 9 ∨ month = 11 then 30
  else 31

structure Date where
  year : Int
  month : Nat
  day : Nat
  one_le_month : 1 ≤ month
  month_le : month ≤ 12
  one_le_day : 1 ≤ day
  day_le : day ≤ monthLength year month

/-- The years from 1970 on, or with a minus sign those up to 1970. -/
def yearStart (year : Int) : Int :=
  if 1970 ≤ year then ∑ k ∈ Finset.range (year - 1970).toNat, yearLength (1970 + k)
  else -∑ k ∈ Finset.range (1970 - year).toNat, yearLength (1969 - k)

/-- The days of a year before a month. -/
def monthStart (year : Int) (month : Nat) : Nat := ∑ k ∈ Finset.range (month - 1), monthLength year (k + 1)

/-- The number of a day, with 0 for 1970-01-01. -/
def dayNumber (date : Date) : Int := yearStart date.year + monthStart date.year date.month + date.day - 1

/-- Earlier by year, then by month, then by day. -/
def Earlier (a b : Date) : Prop :=
  a.year < b.year ∨ a.year = b.year ∧ (a.month < b.month ∨ a.month = b.month ∧ a.day < b.day)

section Years

/-- The days up to a year as the calendar's rule counts them. -/
theorem yearStart_eq (year : Int) :
    yearStart year = 365 * (year - 1970) + (year - 1) / 4 - (year - 1) / 100 + (year - 1) / 400 - 477 := by
  have hlater : ∀ n : Nat, ∑ k ∈ Finset.range n, yearLength (1970 + k) =
      365 * (n : Int) + (n + 1969) / 4 - (n + 1969) / 100 + (n + 1969) / 400 - 477 := by
    intro n
    induction n with
    | zero => rfl
    | succ n ih =>
      rw [Finset.sum_range_succ, ih, yearLength]
      split <;> rename_i h <;> rw [Leap] at h <;> push_cast <;> omega
  have hearlier : ∀ n : Nat, ∑ k ∈ Finset.range n, yearLength (1969 - k) =
      365 * (n : Int) - (1969 - n) / 4 + (1969 - n) / 100 - (1969 - n) / 400 + 477 := by
    intro n
    induction n with
    | zero => rfl
    | succ n ih =>
      rw [Finset.sum_range_succ, ih, yearLength]
      split <;> rename_i h <;> rw [Leap] at h <;> push_cast <;> omega
  rw [yearStart]
  split
  · rw [hlater]
    omega
  · rw [hearlier]
    omega

theorem yearStart_succ (year : Int) : yearStart (year + 1) = yearStart year + yearLength year := by
  rw [yearStart_eq, yearStart_eq, yearLength]
  split <;> rename_i h <;> rw [Leap] at h <;> omega

theorem yearStart_lt {a b : Int} (h : a < b) : yearStart (a + 1) ≤ yearStart b := by
  rw [yearStart_eq, yearStart_eq]
  omega

end Years

section Months

theorem monthStart_succ {year : Int} {month : Nat} (h : 1 ≤ month) :
    monthStart year (month + 1) = monthStart year month + monthLength year month := by
  obtain ⟨k, rfl⟩ := Nat.exists_eq_add_of_le' h
  exact Finset.sum_range_succ _ k

theorem monthStart_mono {year : Int} {a b : Nat} (h : a ≤ b) : monthStart year a ≤ monthStart year b :=
  Finset.sum_le_sum_of_subset (Finset.range_mono (Nat.sub_le_sub_right h 1))

theorem monthStart_thirteen (year : Int) : (monthStart year 13 : Int) = yearLength year := by
  by_cases h : Leap year <;> simp [monthStart, Finset.sum_range_succ, monthLength, yearLength, h]

/-- A day of a month ends no later than the month. -/
theorem monthStart_add_day_le (date : Date) : monthStart date.year date.month + date.day ≤ monthStart date.year (date.month + 1) := by
  rw [monthStart_succ date.one_le_month]
  exact Nat.add_le_add_left date.day_le _

end Months

section Order

theorem dayNumber_lt_yearStart (date : Date) : dayNumber date < yearStart (date.year + 1) := by
  have hday := monthStart_add_day_le date
  have hmonth := @monthStart_mono date.year _ _ (show date.month + 1 ≤ 13 from Nat.succ_le_succ date.month_le)
  have hyear := monthStart_thirteen date.year
  rw [dayNumber, yearStart_succ]
  omega

theorem yearStart_le_dayNumber (date : Date) : yearStart date.year ≤ dayNumber date := by
  have := date.one_le_day
  rw [dayNumber]
  omega

theorem dayNumber_lt_of_earlier {a b : Date} (h : Earlier a b) : dayNumber a < dayNumber b := by
  rcases h with hyear | ⟨hyear, hmonth | ⟨hmonth, hday⟩⟩
  · have ha := dayNumber_lt_yearStart a
    have hb := yearStart_le_dayNumber b
    have := yearStart_lt hyear
    omega
  · have ha := monthStart_add_day_le a
    have hmono := @monthStart_mono a.year _ _ (show a.month + 1 ≤ b.month from hmonth)
    have hb := b.one_le_day
    rw [dayNumber, dayNumber, ← hyear]
    omega
  · rw [dayNumber, dayNumber, ← hyear, ← hmonth]
    omega

theorem earlier_or (a b : Date) : Earlier a b ∨ a = b ∨ Earlier b a := by
  obtain ⟨ya, ma, da⟩ := a
  obtain ⟨yb, mb, db⟩ := b
  simp only [Earlier, Date.mk.injEq]
  omega

theorem dayNumber_lt_iff {a b : Date} : dayNumber a < dayNumber b ↔ Earlier a b := by
  constructor
  · intro h
    rcases earlier_or a b with hab | rfl | hba
    · exact hab
    · omega
    · have := dayNumber_lt_of_earlier hba
      omega
  · exact dayNumber_lt_of_earlier

theorem dayNumber_inj {a b : Date} (h : dayNumber a = dayNumber b) : a = b := by
  rcases earlier_or a b with hab | hab | hba
  · have := dayNumber_lt_of_earlier hab
    omega
  · exact hab
  · have := dayNumber_lt_of_earlier hba
    omega

end Order

end Calendar
end Lib
