import CodeSage.Lib.Calendar
import CodeSage.Lib.Text
import Mathlib.Tactic.Linarith

/-!
# CodeSage.Git.UtcDate

The date printed for a commit epoch, `utc_date` (`crates/graph/src/git_history/risk.rs`). Every operation that
could leave `i64` is checked; a division by a positive constant cannot.

`utc_date_is_civil` says that no check fails and that the date is the civil one of the day.
-/

namespace CodeSage
namespace Git

open Lib Lib.Calendar

section Code

/-- A value of type `i64`; an operation whose result is none overflows. -/
def i64 (z : Int) : Option Int := if -2 ^ 63 ≤ z ∧ z < 2 ^ 63 then some z else none

/-- The year, month and day of a day of an era, from years that begin in March. -/
def dateInEra (era dayOfEra : Int) : Option (Int × Int × Int) := do
  let yearOfEra := (← i64 ((← i64 ((← i64 (dayOfEra - dayOfEra.tdiv 1460)) + dayOfEra.tdiv 36524)) - dayOfEra.tdiv 146096)).tdiv 365
  let dayOfYear ← i64 (dayOfEra -
    (← i64 ((← i64 ((← i64 (365 * yearOfEra)) + yearOfEra.tdiv 4)) - yearOfEra.tdiv 100)))
  let marchMonth := (← i64 ((← i64 (5 * dayOfYear)) + 2)).tdiv 153
  let day ← i64 ((← i64 (dayOfYear - (← i64 ((← i64 (153 * marchMonth)) + 2)).tdiv 5)) + 1)
  let month ← if marchMonth < 10 then i64 (marchMonth + 3) else i64 (marchMonth - 9)
  let year ← i64 ((← i64 (yearOfEra + (← i64 (era * 400)))) + if month ≤ 2 then 1 else 0)
  return (year, month, day)

/-- The year, month and day of a timestamp; the eras of 400 years begin in March of a year 400 divides. -/
def civilFromTimestamp (timestamp : Int) : Option (Int × Int × Int) := do
  let shifted ← i64 (timestamp / 86400 + 719468)
  let era := shifted / 146097
  let dayOfEra ← i64 (shifted - (← i64 (era * 146097)))
  dateInEra era dayOfEra

/-- A number printed with at least `width` characters, the sign one of them and zeros after it. -/
def padded (width : Nat) (n : Int) : Text :=
  let digits := decimal n.natAbs
  let sign : Text := if n < 0 then ['-'] else []
  sign ++ List.replicate (width - sign.length - digits.length) '0' ++ digits

/-- `format!("{year:04}-{month:02}-{day:02}")` -/
def formatDate (date : Int × Int × Int) : Text :=
  padded 4 date.1 ++ ['-'] ++ padded 2 date.2.1 ++ ['-'] ++ padded 2 date.2.2

def utcDate (timestamp : Int64) : Option Text := (civilFromTimestamp timestamp.toInt).map formatDate

end Code

section March

/-- Days of the March-based year before its month `m`. -/
theorem monthStart_march {year : Int} {m : Nat} (h : m < 12) :
    if m < 10 then (monthStart year (m + 3) : Int) = (153 * m + 2) / 5 + 59 + if Leap year then 1 else 0
    else (monthStart year (m - 9) : Int) = (153 * m + 2) / 5 - 306 := by
  by_cases hleap : Leap year <;> interval_cases m <;> simp [monthStart, Finset.sum_range_succ, monthLength, hleap]

/-- The date of day `t` of the year that begins in March of `year`. -/
def marchDate (year t : Int) : Int × Int × Int :=
  let m := (5 * t + 2) / 153
  (if m < 10 then year else year + 1, if m < 10 then m + 3 else m - 9, t - (153 * m + 2) / 5 + 1)

/-- It is a civil date, and its day number is the number of the days from March of the year 0 on. -/
theorem marchDate_eq_date {year t : Int} (h0 : 0 ≤ t) (h365 : t ≤ 365) (hleap : t = 365 → Leap (year + 1)) :
    ∃ date : Date, marchDate year t = (date.year, (date.month : Int), (date.day : Int)) ∧
      dayNumber date = 365 * year + year / 4 - year / 100 + year / 400 + t - 719468 := by
  obtain ⟨m, hm⟩ : ∃ m : Nat, ((5 * t + 2) / 153 : Int) = m := ⟨((5 * t + 2) / 153).toNat, by omega⟩
  have hm12 : m < 12 := by omega
  have hstart := fun y => @monthStart_march y _ hm12
  have hday : 1 ≤ t - (153 * m + 2) / 5 + 1 := by omega
  obtain ⟨d, hd⟩ : ∃ d : Nat, (t - (153 * m + 2) / 5 + 1 : Int) = d := ⟨(t - (153 * m + 2) / 5 + 1).toNat, by omega⟩
  by_cases hearly : m < 10
  · have hlength : d ≤ monthLength year (m + 3) := by
      rw [monthLength, if_neg (by omega)]
      split
      · omega
      · omega
    refine ⟨⟨year, m + 3, d, by omega, by omega, by omega, hlength⟩, ?_, ?_⟩
    · have : (m : Int) < 10 := by exact_mod_cast hearly
      simp [marchDate, hm, hd, this]
    · have := hstart year
      rw [if_pos hearly] at this
      rw [dayNumber]
      dsimp only
      rw [this, yearStart_eq]
      split <;> rename_i h <;> rw [Leap] at h <;> omega
  · have hlength : d ≤ monthLength (year + 1) (m - 9) := by
      rw [monthLength]
      split
      · split
        · omega
        · rename_i hnot
          have : t ≠ 365 := fun ht => hnot (hleap ht)
          omega
      · rw [if_neg (by omega)]
        omega
    refine ⟨⟨year + 1, m - 9, d, by omega, by omega, by omega, hlength⟩, ?_, ?_⟩
    · have hnot : ¬(m : Int) < 10 := by exact_mod_cast hearly
      have hcast : ((m - 9 : Nat) : Int) = m - 9 := by omega
      simp [marchDate, hm, hd, hnot, hcast]
    · have := hstart (year + 1)
      rw [if_neg hearly] at this
      rw [dayNumber]
      dsimp only
      rw [this, yearStart_eq]
      omega

end March

section Era

/-- A day of an era by its century, its four years, its year among them and its day in that year; a year has a
day more where the next one is a leap year. -/
theorem era_split {day : Int} (h0 : 0 ≤ day) (h1 : day < 146097) :
    ∃ c q r t : Int, day = 36524 * c + 1461 * q + 365 * r + t ∧ 0 ≤ c ∧ c ≤ 3 ∧ 0 ≤ q ∧ q ≤ 24 ∧ 0 ≤ r ∧ r ≤ 3 ∧
      0 ≤ t ∧ t ≤ 365 ∧ (t = 365 → r = 3 ∧ (q = 24 → c = 3)) := by
  obtain ⟨c, u, rfl, hc⟩ : ∃ c u : Int, day = 36524 * c + u ∧ 0 ≤ c ∧ c ≤ 3 ∧ 0 ≤ u ∧ u ≤ 36524 ∧ (u = 36524 → c = 3) := by
    by_cases hlast : day = 146096
    · exact ⟨3, 36524, by omega⟩
    · exact ⟨day / 36524, day % 36524, by omega⟩
  obtain ⟨q, v, rfl, hq⟩ : ∃ q v : Int, u = 1461 * q + v ∧ 0 ≤ q ∧ q ≤ 24 ∧ 0 ≤ v ∧ v ≤ 1460 := ⟨u / 1461, u % 1461, by omega⟩
  by_cases hlast : v = 1460
  · exact ⟨c, q, 3, 365, by omega⟩
  · exact ⟨c, q, v / 365, v % 365, by omega⟩

theorem i64_bind {β : Type} {z : Int} {f : Int → Option β} (h : -2 ^ 63 ≤ z ∧ z < 2 ^ 63) : (i64 z >>= f) = f z := by
  rw [i64, if_pos h]
  rfl

theorem yearOfEra_eq {c q r t day : Int} (hday : day = 36524 * c + 1461 * q + 365 * r + t) (hc0 : 0 ≤ c) (hc : c ≤ 3)
    (hq0 : 0 ≤ q) (hq : q ≤ 24) (hr0 : 0 ≤ r) (hr : r ≤ 3) (ht0 : 0 ≤ t) (ht : t ≤ 365) (hleap : t = 365 → r = 3 ∧ (q = 24 → c = 3)) :
    (day - day / 1460 + day / 36524 - day / 146096) / 365 = 100 * c + 4 * q + r := by
  have hcentury : day / 36524 - day / 146096 = c := by
    by_cases hlast : day = 146096
    · have : c = 3 := by omega
      omega
    · have hzero : day / 146096 = 0 := by omega
      rw [hzero]
      omega
  -- 1460 days and one for each leap day: the quotient is one more where the leap days before fill a year
  by_cases hextra : 24 * c + q + 365 * r + t < 1460
  · have hquad : day / 1460 = 25 * c + q := by omega
    have : t ≤ 364 := by omega
    omega
  · have hquad : day / 1460 = 25 * c + q + 1 := by omega
    have : 1 ≤ t := by omega
    omega

theorem year_parts {c q r : Int} (hc0 : 0 ≤ c) (hc : c ≤ 3) (hq0 : 0 ≤ q) (hq : q ≤ 24) (hr0 : 0 ≤ r) (hr : r ≤ 3) :
    (100 * c + 4 * q + r) / 4 = 25 * c + q ∧ (100 * c + 4 * q + r) / 100 = c ∧
      0 ≤ 100 * c + 4 * q + r ∧ 100 * c + 4 * q + r < 400 := by
  refine ⟨by omega, by omega, by omega, by omega⟩

/-- The month and the day, from the day of a year that begins in March. -/
theorem dateInEra_eq {era day year t : Int} (hera : -2 ^ 40 ≤ era ∧ era ≤ 2 ^ 40) (h0 : 0 ≤ day) (h1 : day < 146097)
    (hyear0 : 0 ≤ year) (hyear : year < 400) (ht0 : 0 ≤ t) (ht : t ≤ 365)
    (hquot : (day - day / 1460 + day / 36524 - day / 146096) / 365 = year)
    (hrest : day - (365 * year + year / 4 - year / 100) = t) : dateInEra era day = some (marchDate (400 * era + year) t) := by
  obtain ⟨m, hm, hm0, hm11⟩ : ∃ m : Int, (5 * t + 2) / 153 = m ∧ 0 ≤ m ∧ m ≤ 11 := ⟨_, rfl, by omega, by omega⟩
  obtain ⟨first, hfirst, hf0, hf⟩ : ∃ first : Int, (153 * m + 2) / 5 = first ∧ 0 ≤ first ∧ first ≤ 337 := ⟨_, rfl, by omega, by omega⟩
  have hpos : 0 ≤ day - day / 1460 + day / 36524 - day / 146096 := by omega
  have hday : ∀ k, day.tdiv k = day / k := fun k => Int.tdiv_eq_ediv_of_nonneg h0
  have hyears : ∀ k, year.tdiv k = year / k := fun k => Int.tdiv_eq_ediv_of_nonneg hyear0
  rw [dateInEra]
  simp only [hday]
  rw [i64_bind (by omega), i64_bind (by omega), i64_bind (by omega), Int.tdiv_eq_ediv_of_nonneg hpos, hquot]
  simp only [hyears]
  rw [i64_bind (by omega), i64_bind (by omega), i64_bind (by omega), hrest, i64_bind (by omega), i64_bind (by omega),
    i64_bind (by omega), Int.tdiv_eq_ediv_of_nonneg (by omega), hm, i64_bind (by omega), i64_bind (by omega),
    Int.tdiv_eq_ediv_of_nonneg (by omega), hfirst, i64_bind (by omega), i64_bind (by omega), marchDate]
  simp only [hm, hfirst]
  by_cases hearly : m < 10
  · rw [if_pos hearly, if_pos hearly, if_pos hearly, i64_bind (by omega), i64_bind (by omega), i64_bind (by omega),
      if_neg (by omega), i64_bind (by omega), Int.add_zero, Int.add_comm year, Int.mul_comm era]
    rfl
  · rw [if_neg hearly, if_neg hearly, if_neg hearly, i64_bind (by omega), i64_bind (by omega), i64_bind (by omega),
      if_pos (by omega), i64_bind (by omega), Int.add_comm year, Int.mul_comm era]
    rfl

/-- No check fails, and the date is that of the day in its era. -/
theorem civilFromTimestamp_eq {timestamp : Int} (hlow : -2 ^ 63 ≤ timestamp) (hhigh : timestamp < 2 ^ 63) :
    ∃ era c q r t : Int, timestamp / 86400 + 719468 = 146097 * era + (36524 * c + 1461 * q + 365 * r + t) ∧
      0 ≤ c ∧ c ≤ 3 ∧ 0 ≤ q ∧ q ≤ 24 ∧ 0 ≤ r ∧ r ≤ 3 ∧ 0 ≤ t ∧ t ≤ 365 ∧ (t = 365 → r = 3 ∧ (q = 24 → c = 3)) ∧
      civilFromTimestamp timestamp = some (marchDate (400 * era + (100 * c + 4 * q + r)) t) := by
  obtain ⟨days, hdays, hlow, hhigh⟩ : ∃ days : Int, timestamp / 86400 = days ∧ -2 ^ 47 ≤ days ∧ days ≤ 2 ^ 47 :=
    ⟨_, rfl, by omega, by omega⟩
  obtain ⟨era, day, hera, h0, h1⟩ : ∃ era day : Int, days + 719468 = 146097 * era + day ∧ 0 ≤ day ∧ day < 146097 :=
    ⟨(days + 719468) / 146097, (days + 719468) % 146097, by omega⟩
  have hbounds : -2 ^ 40 ≤ era ∧ era ≤ 2 ^ 40 := by omega
  have hcivil : civilFromTimestamp timestamp = dateInEra era day := by
    have hquot : (days + 719468) / 146097 = era := by omega
    have hsub : days + 719468 - era * 146097 = day := by omega
    rw [civilFromTimestamp, hdays, i64_bind (by omega), hquot]
    dsimp only
    rw [i64_bind (by omega), hsub, i64_bind (by omega)]
  obtain ⟨c, q, r, t, hday, hc0, hc, hq0, hq, hr0, hr, ht0, ht, hleap⟩ := era_split h0 h1
  refine ⟨era, c, q, r, t, by rw [hdays, hera, hday], hc0, hc, hq0, hq, hr0, hr, ht0, ht, hleap, ?_⟩
  obtain ⟨hfour, hcent, hyear0, hyear⟩ := year_parts hc0 hc hq0 hq hr0 hr
  have hrest : day - (365 * (100 * c + 4 * q + r) + (100 * c + 4 * q + r) / 4 - (100 * c + 4 * q + r) / 100) = t := by
    rw [hfour, hcent, hday]
    ring
  rw [hcivil]
  exact dateInEra_eq hbounds h0 h1 hyear0 hyear ht0 ht (yearOfEra_eq hday hc0 hc hq0 hq hr0 hr ht0 ht hleap) hrest

end Era

section Correct

/-- Every timestamp has its civil date. -/
theorem civil_exists {timestamp : Int} (hlow : -2 ^ 63 ≤ timestamp) (hhigh : timestamp < 2 ^ 63) :
    ∃ date : Date, civilFromTimestamp timestamp = some (date.year, (date.month : Int), (date.day : Int)) ∧
      dayNumber date = timestamp / 86400 := by
  obtain ⟨era, c, q, r, t, hdays, hc0, hc, hq0, hq, hr0, hr, ht0, ht, hleap, hcivil⟩ := civilFromTimestamp_eq hlow hhigh
  obtain ⟨hfour, hcent, hyear0, hyear⟩ := year_parts hc0 hc hq0 hq hr0 hr
  have hnext : t = 365 → Leap (400 * era + (100 * c + 4 * q + r) + 1) := by
    intro heq
    obtain ⟨hr3, hq24⟩ := hleap heq
    rw [Leap]
    omega
  obtain ⟨date, hdate, hnumber⟩ := marchDate_eq_date ht0 ht hnext
  refine ⟨date, by rw [hcivil, hdate], ?_⟩
  have h4 : (400 * era + (100 * c + 4 * q + r)) / 4 = 100 * era + (25 * c + q) := by omega
  have h100 : (400 * era + (100 * c + 4 * q + r)) / 100 = 4 * era + c := by omega
  have h400 : (400 * era + (100 * c + 4 * q + r)) / 400 = era := by omega
  rw [hnumber, h4, h100, h400]
  linarith

/-- The date is the only one with the number of the day. -/
def CivilDateOf (timestamp : Int64) (date : Date) : Prop :=
  civilFromTimestamp timestamp.toInt = some (date.year, (date.month : Int), (date.day : Int)) ∧
    utcDate timestamp = some (formatDate (date.year, (date.month : Int), (date.day : Int))) ∧
    ∀ other : Date, dayNumber other = timestamp.toInt / 86400 ↔ other = date

theorem civilDateOf_exists (timestamp : Int64) : ∃ date, CivilDateOf timestamp date := by
  obtain ⟨date, hcivil, hnumber⟩ := civil_exists timestamp.le_toInt timestamp.toInt_lt
  refine ⟨date, hcivil, by rw [utcDate, hcivil]; rfl, fun other => ⟨fun h => ?_, fun h => h ▸ hnumber⟩⟩
  exact dayNumber_inj (h.trans hnumber.symm)

/-- Two timestamps print as the civil dates of their days, and the dates are in the order of the days. -/
theorem utc_date_is_civil (a b : Int64) :
    ∃ dateA dateB : Date, CivilDateOf a dateA ∧ CivilDateOf b dateB ∧
      (a.toInt / 86400 < b.toInt / 86400 ↔ Earlier dateA dateB) := by
  obtain ⟨dateA, hA⟩ := civilDateOf_exists a
  obtain ⟨dateB, hB⟩ := civilDateOf_exists b
  refine ⟨dateA, dateB, hA, hB, ?_⟩
  rw [← (hA.2.2 dateA).mpr rfl, ← (hB.2.2 dateB).mpr rfl]
  exact dayNumber_lt_iff

example : utcDate (-62135596801) = some "0000-12-31".toList := by decide

end Correct

end Git
end CodeSage
