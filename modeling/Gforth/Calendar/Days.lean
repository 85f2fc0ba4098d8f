import Mathlib.Tactic

/-!
# Days and dates

{lit}`date.fs` converts day numbers to dates and back.  Years start on the first of March, so that
the leap day is the last one of its year; with {lit}`5 153 */mod` the months follow from the days.
Dates are Julian up to 1582-10-04 and Gregorian from 1582-10-15 on.

Numbers are unbounded: the words are modelled where no step of the arithmetic overflows.
{lit}`/mod` and {lit}`*/mod` are floored.

Main results:

- Theorem {lit}`calendar_bijection`: the conversions are inverse to each other, and consecutive days
  have consecutive dates.
-/

namespace Gforth
namespace Calendar

/-! ## The words -/

/-- A date -/
structure Date where
  y : Int
  m : Int
  d : Int
deriving DecidableEq

/-- {lit}`/mod3`: the remainder and the quotient, which is at most 3 -/
def slashMod3 (n1 n2 : Int) : Int × Int :=
  if n1 / n2 = 4 then (n1 % n2 + n2, 3) else (n1 % n2, n1 / n2)

/-- {lit}`j-day2ymd` -/
def jDay2ymd (day : Int) : Date :=
  let y := day / 1461 * 4
  let (day, q) := slashMod3 (day % 1461) 365
  let y := y + q
  let scaled := (day + 31) * 5
  let m := scaled / 153 + 2
  let d := scaled % 153 / 5
  if m > 12 then ⟨y + 1, m - 12, d + 1⟩ else ⟨y, m, d + 1⟩

/-- {lit}`(ymd2day)`: the day in four years, and the number of four years -/
def ymd2dayParts (date : Date) : Int × Int :=
  let d := date.d - 1
  let m := date.m - 2
  let (y, m) := if m ≤ 0 then (date.y - 1, m + 12) else (date.y, m)
  let flag := if m * 153 % 5 = 0 then -1 else 0
  (d + (m * 153 / 5 - 31) + y % 4 * 365 + flag + 1, y / 4)

/-- {lit}`j-ymd2day` -/
def jYmd2day (date : Date) : Int :=
  (ymd2dayParts date).2 * 1461 + (ymd2dayParts date).1

/-- {lit}`gregorian.`, a double with the number of four years on top -/
def gregorianDouble : Int × Int :=
  ((ymd2dayParts ⟨1582, 10, 15⟩).1 + 1, (ymd2dayParts ⟨1582, 10, 15⟩).2)

/-- {lit}`gregorian` -/
def gregorian : Int :=
  jYmd2day ⟨1582, 10, 5⟩

/-- {lit}`d<`; the lower cells are unsigned. -/
def dLess (d1 d2 : Int × Int) : Prop :=
  d1.2 < d2.2 ∨ d1.2 = d2.2 ∧ d1.1 % 2 ^ 64 < d2.1 % 2 ^ 64

instance (d1 d2 : Int × Int) : Decidable (dLess d1 d2) :=
  inferInstanceAs (Decidable (_ ∨ _))

/-- {lit}`day2ymd` -/
def day2ymd (day : Int) : Date :=
  if day ≥ gregorian then
    let day := day - 2
    let y := day / 146097 * 400
    let (day, q) := slashMod3 (day % 146097) 36524
    let y := y + q * 100
    let date := jDay2ymd day
    { date with y := y + date.y }
  else jDay2ymd day

/-- {lit}`ymd2day` -/
def ymd2day (date : Date) : Int :=
  let (day, y) := ymd2dayParts date
  if dLess (day + 1, y) gregorianDouble then y * 1461 + day
  else day + (y % 25 * 1461 + (y / 25 % 4 * 36524 + y / 25 / 4 * 146097)) + 2

/-! ## The calendar -/

/-- Leap years; before the reform these are all years that are divisible by four. -/
def Leap (y : Int) : Prop :=
  y % 4 = 0 ∧ (y ≤ 1582 ∨ y % 100 ≠ 0 ∨ y % 400 = 0)

instance (y : Int) : Decidable (Leap y) :=
  inferInstanceAs (Decidable (_ ∧ _))

/-- The length of a month -/
def monthLength (y m : Int) : Int :=
  if m = 2 then if Leap y then 29 else 28
  else if m = 4 ∨ m = 6 ∨ m = 9 ∨ m = 11 then 30 else 31

namespace Date

/-- The date does not exist: 1582-10-04 was followed by 1582-10-15. -/
def Skipped (date : Date) : Prop :=
  date.y = 1582 ∧ date.m = 10 ∧ 4 < date.d ∧ date.d < 15

/-- A date of the calendar -/
structure Valid (date : Date) : Prop where
  m_pos : 1 ≤ date.m
  m_le : date.m ≤ 12
  d_pos : 1 ≤ date.d
  d_le : date.d ≤ monthLength date.y date.m
  not_skipped : ¬ date.Skipped

/-- The next date -/
def next (date : Date) : Date :=
  if date = ⟨1582, 10, 4⟩ then ⟨1582, 10, 15⟩
  else if date.d < monthLength date.y date.m then { date with d := date.d + 1 }
  else if date.m < 12 then ⟨date.y, date.m + 1, 1⟩
  else ⟨date.y + 1, 1, 1⟩

end Date

/-! ## Years that start in March -/

/-- The date of day {lit}`t` of the year that starts in March -/
def ofYear (y t : Int) : Date :=
  if (t + 31) * 5 / 153 > 10 then ⟨y + 1, (t + 31) * 5 / 153 - 10, (t + 31) * 5 % 153 / 5 + 1⟩
  else ⟨y, (t + 31) * 5 / 153 + 2, (t + 31) * 5 % 153 / 5 + 1⟩

/-- The length of a year -/
def yearLength (y : Int) : Int :=
  if Leap (y + 1) then 366 else 365

/-- A year is as long as the leap day of the next one makes it, because it begins in March. -/
theorem yearLength_cases (y : Int) :
    yearLength y = 366 ∧ Leap (y + 1) ∨ yearLength y = 365 ∧ ¬ Leap (y + 1) := by
  rw [yearLength]
  split
  · exact Or.inl ⟨rfl, by assumption⟩
  · exact Or.inr ⟨rfl, by assumption⟩

theorem yearLength_le (y : Int) : 365 ≤ yearLength y ∧ yearLength y ≤ 366 := by
  have hcases := yearLength_cases y
  omega

/-- The day is in the year; 1582-10-05 to 1582-10-14 are left out. -/
structure InYear (y t : Int) : Prop where
  nonneg : 0 ≤ t
  lt : t < yearLength y
  not_skipped : ¬ (y = 1582 ∧ 217 < t ∧ t < 228)

/-- The day is in the Gregorian calendar. -/
def IsGregorian (y t : Int) : Prop :=
  1582 < y ∨ y = 1582 ∧ 228 ≤ t

instance (y t : Int) : Decidable (IsGregorian y t) :=
  inferInstanceAs (Decidable (_ ∨ _))

/-- The number of the day -/
def dayOf (y t : Int) : Int :=
  if IsGregorian y t then
    2 + y / 400 * 146097 + y / 100 % 4 * 36524 + y / 4 % 25 * 1461 + y % 4 * 365 + t
  else y / 4 * 1461 + y % 4 * 365 + t

variable {y t : Int}

theorem dayOf_gregorian (h : IsGregorian y t) : dayOf y t =
    2 + y / 400 * 146097 + y / 100 % 4 * 36524 + y / 4 % 25 * 1461 + y % 4 * 365 + t := by
  rw [dayOf, if_pos h]

theorem dayOf_julian (h : ¬ IsGregorian y t) : dayOf y t = y / 4 * 1461 + y % 4 * 365 + t := by
  rw [dayOf, if_neg h]

theorem InYear.le (h : InYear y t) : t < 366 := by
  have hlt := h.lt
  have hle := (yearLength_le y).2
  omega

/-- What the last day of a leap year needs -/
theorem InYear.last (h : InYear y t) (ht : t = 365) :
    y % 4 = 3 ∧ (1582 < y → y / 4 % 25 < 24 ∨ y / 100 % 4 = 3) := by
  have hlt := h.lt
  rw [yearLength] at hlt
  split at hlt
  · rename_i hleap
    obtain ⟨hfour, hcentury⟩ := hleap
    omega
  · omega

/-- The first day of a month, counted from March -/
def monthStart (j : Int) : Int :=
  (153 * j + 4) / 5 - 31

/-- The date in terms of its month -/
def ofMonth (y j d : Int) : Date :=
  if j > 10 then ⟨y + 1, j - 10, d⟩ else ⟨y, j + 2, d⟩

/-- The date of a day of a month -/
theorem ofYear_eq {y t j : Int} (hge : monthStart j ≤ t) (hlt : t < monthStart (j + 1)) :
    ofYear y t = ofMonth y j (t - monthStart j + 1) := by
  have hj : (t + 31) * 5 / 153 = j := by
    simp only [monthStart] at hge hlt
    omega
  have hd : (t + 31) * 5 % 153 / 5 + 1 = t - monthStart j + 1 := by
    simp only [monthStart] at hge hlt ⊢
    omega
  rw [ofYear, ofMonth, hj, hd]

/-- Every day is in a month. -/
theorem exists_month {t : Int} (hpos : 0 ≤ t) (hlt : t < 366) :
    ∃ j, 1 ≤ j ∧ j ≤ 12 ∧ monthStart j ≤ t ∧ t < monthStart (j + 1) := by
  refine ⟨(t + 31) * 5 / 153, by omega, by omega, ?_, ?_⟩
  · simp only [monthStart]
    omega
  · simp only [monthStart]
    omega

theorem monthLength_eq (y : Int) {j : Int} (hpos : 1 ≤ j) (hle : j ≤ 11) (d : Int) :
    monthLength (ofMonth y j d).y (ofMonth y j d).m = monthStart (j + 1) - monthStart j := by
  interval_cases j <;> rfl

/-- February takes what the other months leave of the year. -/
theorem monthLength_february (y d : Int) :
    monthLength (ofMonth y 12 d).y (ofMonth y 12 d).m = yearLength y - monthStart 12 := by
  have hlen : monthLength (ofMonth y 12 d).y (ofMonth y 12 d).m = if Leap (y + 1) then 29 else 28 := rfl
  rw [hlen, yearLength]
  split <;> rfl

/-- A month and its day, counted from March -/
theorem ofMonth_bounds (y : Int) {j : Int} (hpos : 1 ≤ j) (hle : j ≤ 12) (d : Int) :
    1 ≤ (ofMonth y j d).m ∧ (ofMonth y j d).m ≤ 12 ∧ (ofMonth y j d).d = d := by
  rw [ofMonth]
  split
  · exact ⟨by simp only; omega, by simp only; omega, rfl⟩
  · exact ⟨by simp only; omega, by simp only; omega, rfl⟩

/-- The days of the years are dates of the calendar. -/
theorem valid_ofYear (h : InYear y t) : (ofYear y t).Valid := by
  obtain ⟨j, hpos, hle, hge, hlt⟩ := exists_month h.nonneg h.le
  rw [ofYear_eq hge hlt]
  obtain ⟨hm, hm', hd⟩ := ofMonth_bounds y hpos hle (t - monthStart j + 1)
  refine ⟨hm, hm', by omega, ?_, ?_⟩
  · rw [hd]
    rcases Int.lt_or_eq_of_le hle with hj | rfl
    · rw [monthLength_eq y hpos (by omega)]
      omega
    · have hyear := h.lt
      rw [monthLength_february]
      omega
  · rintro ⟨hy, hmonth, hlow, hhigh⟩
    rw [hd] at hlow hhigh
    rw [ofMonth] at hy hmonth
    split at hmonth
    · simp only at hmonth
      omega
    · rename_i hj
      rw [if_neg hj] at hy
      simp only at hy hmonth
      obtain rfl : j = 8 := by omega
      have hstart : monthStart 8 = 214 := rfl
      exact h.not_skipped ⟨hy, by omega, by omega⟩

/-- The dates of the calendar are days of the years. -/
theorem exists_ofYear {date : Date} (h : date.Valid) : ∃ y t, InYear y t ∧ date = ofYear y t := by
  obtain ⟨y, m, d⟩ := date
  obtain ⟨hm, hm', hd, hd', hskip⟩ := h
  simp only at hm hm' hd hd'
  obtain ⟨j, y', hpos, hle, hdate⟩ : ∃ j y', 1 ≤ j ∧ j ≤ 12 ∧ (⟨y, m, d⟩ : Date) = ofMonth y' j d := by
    rcases Int.lt_or_le 2 m with hlt | hle
    · exact ⟨m - 2, y, by omega, by omega, by rw [ofMonth, if_neg (by omega)]; simp⟩
    · exact ⟨m + 10, y - 1, by omega, by omega, by rw [ofMonth, if_pos (by omega)]; simp⟩
  have hlen : d ≤ monthLength (ofMonth y' j d).y (ofMonth y' j d).m := by
    rw [← hdate]
    exact hd'
  have hfeb : monthStart 12 = 337 := rfl
  have hfirst : 0 ≤ monthStart j := by
    rw [monthStart]
    omega
  have hyear := yearLength_le y'
  have hbounds : monthStart j + d - 1 < monthStart (j + 1) ∧ monthStart j + d - 1 < yearLength y' := by
    rcases Int.lt_or_eq_of_le hle with hj | rfl
    · rw [monthLength_eq y' hpos (by omega)] at hlen
      have hend : monthStart (j + 1) ≤ 337 := by
        rw [monthStart]
        omega
      omega
    · have hnext : monthStart (12 + 1) = 367 := rfl
      rw [monthLength_february] at hlen
      omega
  have heq : (⟨y, m, d⟩ : Date) = ofYear y' (monthStart j + d - 1) := by
    rw [hdate, ofYear_eq (by omega) hbounds.1]
    congr 1
    omega
  refine ⟨y', monthStart j + d - 1, ⟨by omega, hbounds.2, ?_⟩, heq⟩
  rintro ⟨rfl, hlow, hhigh⟩
  have hstart : monthStart 8 = 214 := rfl
  have hnine : monthStart (8 + 1) = 245 := rfl
  rw [ofYear_eq (by omega : monthStart 8 ≤ _) (by omega)] at heq
  obtain ⟨hy, hmonth, hday⟩ := Date.mk.inj heq
  exact hskip ⟨hy, hmonth, by simp only; omega, by simp only; omega⟩

/-- The day after a day of a year -/
def after (y t : Int) : Int × Int :=
  if y = 1582 ∧ t = 217 then (1582, 228)
  else if t + 1 < yearLength y then (y, t + 1)
  else (y + 1, 0)

/-- The next day is in a year. -/
theorem inYear_after (h : InYear y t) : InYear (after y t).1 (after y t).2 := by
  have hskip := h.not_skipped
  have hnonneg := h.nonneg
  rw [after]
  split
  · exact ⟨by decide, by decide, by decide⟩
  · split
    · rename_i hreform hlt
      exact ⟨by simp only; omega, hlt, by simp only; omega⟩
    · have hle := yearLength_le (y + 1)
      exact ⟨le_refl 0, by simp only; omega, by simp only; omega⟩

/-- The days of a year follow each other. -/
theorem next_ofYear (h : InYear y t) : (ofYear y t).next = ofYear (after y t).1 (after y t).2 := by
  by_cases hreform : y = 1582 ∧ t = 217
  · obtain ⟨rfl, rfl⟩ := hreform
    decide
  obtain ⟨j, hpos, hle, hge, hlt⟩ := exists_month h.nonneg h.le
  have hstart : monthStart 8 = 214 := rfl
  have hne : ofMonth y j (t - monthStart j + 1) ≠ ⟨1582, 10, 4⟩ := by
    intro heq
    rw [ofMonth] at heq
    split at heq
    · obtain ⟨-, hm, -⟩ := Date.mk.inj heq
      omega
    · obtain ⟨hy, hm, hd⟩ := Date.mk.inj heq
      obtain rfl : j = 8 := by omega
      exact hreform ⟨hy, by omega⟩
  obtain ⟨hm, hm', hd⟩ := ofMonth_bounds y hpos hle (t - monthStart j + 1)
  have hyear := h.lt
  have hyears := yearLength_le y
  rw [after, if_neg hreform, ofYear_eq hge hlt, Date.next, if_neg hne, hd]
  rcases Int.lt_or_eq_of_le hle with hj | rfl
  · -- a month within the year
    have hend : monthStart (j + 1) ≤ 337 := by
      rw [monthStart]
      omega
    rw [monthLength_eq y hpos (by omega), if_pos (by omega : t + 1 < yearLength y)]
    by_cases hlast : t + 1 < monthStart (j + 1)
    · rw [if_pos (by omega), ofYear_eq (by omega : monthStart j ≤ t + 1) hlast]
      rw [ofMonth, ofMonth]
      split
      · simp only [Date.mk.injEq, true_and]
        omega
      · simp only [Date.mk.injEq, true_and]
        omega
    · have hnext : t + 1 < monthStart (j + 1 + 1) := by
        simp only [monthStart] at hlt ⊢
        omega
      rw [if_neg (by omega), ofYear_eq (by omega : monthStart (j + 1) ≤ t + 1) hnext]
      have hzero : t + 1 - monthStart (j + 1) + 1 = 1 := by omega
      rw [hzero, ofMonth, ofMonth]
      split
      · rw [if_pos (by simp only; omega), if_pos (by omega)]
        simp only [Date.mk.injEq, true_and, and_true]
        omega
      · by_cases hten : j = 10
        · subst hten
          rfl
        · rw [if_pos (by simp only; omega), if_neg (by omega)]
          simp only [Date.mk.injEq, true_and, and_true]
          omega
  · -- the end of the year
    rw [monthLength_february]
    by_cases hlast : t + 1 < yearLength y
    · have hthirteen : monthStart (12 + 1) = 367 := rfl
      rw [if_pos (by omega), if_pos hlast, ofYear_eq (by omega : monthStart 12 ≤ t + 1) (by omega)]
      simp only [ofMonth]
      norm_num
      omega
    · rw [if_neg (by omega), if_neg hlast]
      rfl

/-! ## The words on the days of a year -/

/-- The first day of a month, as {lit}`(ymd2day)` computes it -/
theorem monthStart_eq (j : Int) :
    j * 153 / 5 - 31 + (if j * 153 % 5 = 0 then -1 else 0) + 1 = monthStart j := by
  rw [monthStart]
  split
  · omega
  · omega

/-- The day in a group of four years -/
theorem ymd2dayParts_ofYear (hpos : 0 ≤ t) (hlt : t < 366) :
    ymd2dayParts (ofYear y t) = (t + y % 4 * 365, y / 4) := by
  obtain ⟨j, hj, hj', hge, hend⟩ := exists_month hpos hlt
  have hstart := monthStart_eq j
  have hten : j - 10 - 2 + 12 = j := by omega
  have htwo : j + 2 - 2 = j := by omega
  rw [ofYear_eq hge hend, ofMonth]
  split
  · simp only [ymd2dayParts]
    rw [if_pos (by omega)]
    simp only [hten, Prod.mk.injEq]
    have hyear : y + 1 - 1 = y := by omega
    rw [hyear]
    exact ⟨by linarith, rfl⟩
  · simp only [ymd2dayParts]
    rw [if_neg (by omega)]
    simp only [htwo, Prod.mk.injEq]
    exact ⟨by linarith, trivial⟩

/-- {lit}`/mod3` keeps the last day of four years, or of four centuries, in the last part. -/
theorem slashMod3_eq {b q r : Int} (hb : 0 < b) (hq : 0 ≤ q) (hq' : q ≤ 3) (hr : 0 ≤ r)
    (hlt : r < b ∨ q = 3 ∧ r = b) : slashMod3 (q * b + r) b = (r, q) := by
  have hne : b ≠ 0 := by omega
  rw [slashMod3]
  rcases hlt with hlt | ⟨rfl, rfl⟩
  · have hdiv : (q * b + r) / b = q := by
      rw [add_comm, Int.add_mul_ediv_right r q hne, Int.ediv_eq_zero_of_lt hr hlt, zero_add]
    have hmod : (q * b + r) % b = r := by
      rw [add_comm, Int.add_mul_emod_self_right, Int.emod_eq_of_lt hr hlt]
    rw [hdiv, hmod, if_neg (by omega)]
  · have hfour : 3 * r + r = 0 + 4 * r := by ring
    rw [hfour, Int.add_mul_ediv_right 0 4 hne, Int.add_mul_emod_self_right, Int.zero_ediv,
      Int.zero_emod, zero_add, zero_add, if_pos rfl]

/-- {lit}`j-day2ymd` on a day of four years -/
theorem jDay2ymd_eq {c q t : Int} (hq : 0 ≤ q) (hq' : q ≤ 3) (ht : 0 ≤ t)
    (hlt : t < 365 ∨ q = 3 ∧ t = 365) :
    jDay2ymd (c * 1461 + (q * 365 + t)) = ofYear (c * 4 + q) t := by
  have hdiv : (c * 1461 + (q * 365 + t)) / 1461 = c := by omega
  have hmod : (c * 1461 + (q * 365 + t)) % 1461 = q * 365 + t := by omega
  simp only [jDay2ymd, hdiv, hmod, slashMod3_eq (by decide : (0 : Int) < 365) hq hq' ht hlt]
  rw [ofYear]
  by_cases hten : (t + 31) * 5 / 153 > 10
  · rw [if_pos hten, if_pos (by omega)]
    congr 1
    omega
  · rw [if_neg hten, if_neg (by omega)]

theorem ofYear_add (y z t : Int) :
    { ofYear y t with y := z + (ofYear y t).y } = ofYear (z + y) t := by
  rw [ofYear, ofYear]
  split
  · simp only [Date.mk.injEq, and_true]
    omega
  · rfl

theorem gregorian_eq : gregorian = 578043 := by
  decide

theorem gregorianDouble_eq : gregorianDouble = (959, 395) := by
  decide

/-- Both directions select the calendar in the same way. -/
theorem gregorian_le_dayOf (h : InYear y t) : gregorian ≤ dayOf y t ↔ IsGregorian y t := by
  have hpos := h.nonneg
  have hlt := h.le
  rw [gregorian_eq, dayOf]
  split
  · rename_i hgreg
    refine iff_of_true ?_ hgreg
    rw [IsGregorian] at hgreg
    omega
  · rename_i hgreg
    refine iff_of_false ?_ hgreg
    have hskip := h.not_skipped
    rw [IsGregorian] at hgreg
    omega

/-- The comparison of doubles tells the calendars apart. -/
theorem dLess_gregorianDouble (h : InYear y t) :
    dLess (t + y % 4 * 365 + 1, y / 4) gregorianDouble ↔ ¬ IsGregorian y t := by
  have hpos := h.nonneg
  have hlt := h.le
  have hskip := h.not_skipped
  have hcell : (t + y % 4 * 365 + 1) % 2 ^ 64 = t + y % 4 * 365 + 1 :=
    Int.emod_eq_of_lt (by omega) (by omega)
  have hcell' : (959 : Int) % 2 ^ 64 = 959 := by decide
  simp only [gregorianDouble_eq, dLess, IsGregorian, hcell, hcell']
  omega

theorem year_eq (y : Int) : y / 400 * 400 + y / 100 % 4 * 100 + (y / 4 % 25 * 4 + y % 4) = y := by
  omega

/-- {lit}`day2ymd` gives the date of each day. -/
theorem day2ymd_dayOf (h : InYear y t) : day2ymd (dayOf y t) = ofYear y t := by
  have hpos := h.nonneg
  have hlt := h.le
  have hlast := h.last
  have hday : t < 365 ∨ y % 4 = 3 ∧ t = 365 := by omega
  have hselect := gregorian_le_dayOf h
  rw [day2ymd]
  by_cases hgreg : IsGregorian y t
  · rw [if_pos (hselect.2 hgreg)]
    have hyear : 1582 ≤ y := by
      rw [IsGregorian] at hgreg
      omega
    have hcentury : y / 4 % 25 * 1461 + (y % 4 * 365 + t) < 36524 ∨
        y / 100 % 4 = 3 ∧ y / 4 % 25 * 1461 + (y % 4 * 365 + t) = 36524 := by
      omega
    obtain ⟨rest, hrest⟩ : ∃ rest, rest = y / 4 % 25 * 1461 + (y % 4 * 365 + t) := ⟨_, rfl⟩
    rw [← hrest] at hcentury
    have hparts : dayOf y t - 2 = y / 400 * 146097 + (y / 100 % 4 * 36524 + rest) := by
      rw [dayOf_gregorian hgreg, hrest]
      ring
    have hdiv : (dayOf y t - 2) / 146097 = y / 400 := by omega
    have hmod : (dayOf y t - 2) % 146097 = y / 100 % 4 * 36524 + rest := by omega
    simp only [hdiv, hmod]
    rw [slashMod3_eq (by decide) (by omega) (by omega) (by omega) hcentury]
    simp only
    rw [hrest, jDay2ymd_eq (by omega) (by omega) hpos hday, ofYear_add, year_eq]
  · rw [if_neg fun hge => hgreg (hselect.1 hge)]
    rw [dayOf_julian hgreg, add_assoc, jDay2ymd_eq (by omega) (by omega) hpos hday]
    congr 1
    omega

/-- {lit}`ymd2day` gives the day of each date. -/
theorem ymd2day_ofYear (h : InYear y t) : ymd2day (ofYear y t) = dayOf y t := by
  rw [ymd2day, ymd2dayParts_ofYear h.nonneg h.le]
  simp only [dLess_gregorianDouble h]
  by_cases hgreg : IsGregorian y t
  · have hhundred : y / 4 / 25 % 4 = y / 100 % 4 := by omega
    have hlarge : y / 4 / 25 / 4 = y / 400 := by omega
    rw [if_neg (not_not.2 hgreg), dayOf_gregorian hgreg, hhundred, hlarge]
    ring
  · rw [if_pos hgreg, dayOf_julian hgreg]
    ring

/-- The days are counted one by one. -/
theorem dayOf_after (h : InYear y t) : dayOf (after y t).1 (after y t).2 = dayOf y t + 1 := by
  have hpos := h.nonneg
  have hskip := h.not_skipped
  have hlt := h.lt
  have hyears := yearLength_le y
  rw [after]
  split
  · rename_i hreform
    obtain ⟨rfl, rfl⟩ := hreform
    decide
  rename_i hreform
  split
  · by_cases hgreg : IsGregorian y t
    · have hgreg' : IsGregorian y (t + 1) := by
        rw [IsGregorian] at hgreg ⊢
        omega
      rw [dayOf_gregorian hgreg, dayOf_gregorian hgreg']
      ring
    · have hgreg' : ¬ IsGregorian y (t + 1) := by
        rw [IsGregorian] at hgreg ⊢
        omega
      rw [dayOf_julian hgreg, dayOf_julian hgreg']
      ring
  · have hlength := yearLength_cases y
    simp only [Leap] at hlength
    by_cases hgreg : IsGregorian y t
    · have hgreg' : IsGregorian (y + 1) 0 := by
        rw [IsGregorian] at hgreg ⊢
        omega
      rw [dayOf_gregorian hgreg, dayOf_gregorian hgreg']
      rw [IsGregorian] at hgreg
      omega
    · have hgreg' : ¬ IsGregorian (y + 1) 0 := by
        rw [IsGregorian] at hgreg ⊢
        omega
      rw [dayOf_julian hgreg, dayOf_julian hgreg']
      rw [IsGregorian] at hgreg
      omega

/-- Four years, with the leap day in the last of them -/
theorem exists_slashMod3 {b n : Int} (hb : 0 < b) (hn : 0 ≤ n) (hlt : n ≤ 4 * b) :
    ∃ q r, 0 ≤ q ∧ q ≤ 3 ∧ 0 ≤ r ∧ (r < b ∨ q = 3 ∧ r = b) ∧ n = q * b + r := by
  by_cases hend : n = 4 * b
  · exact ⟨3, b, by omega, by omega, by omega, Or.inr ⟨rfl, rfl⟩, by omega⟩
  · have hdiv := Int.emod_add_mul_ediv n b
    have hlt' : n / b < 4 := Int.ediv_lt_of_lt_mul hb (by omega)
    exact ⟨n / b, n % b, Int.ediv_nonneg hn hb.le, by omega, Int.emod_nonneg n (by omega),
      Or.inl (Int.emod_lt_of_pos n hb), by linarith⟩

/-- Every number is the number of a day. -/
theorem exists_dayOf (day : Int) : ∃ y t, InYear y t ∧ dayOf y t = day := by
  by_cases hgreg : gregorian ≤ day
  · rw [gregorian_eq] at hgreg
    obtain ⟨b, r, hb, hb', hr, hr', hcentury⟩ :=
      exists_slashMod3 (by decide : (0 : Int) < 36524) (by omega : 0 ≤ (day - 2) % 146097) (by omega)
    obtain ⟨q, t, hq, hq', ht, ht', hyear⟩ :=
      exists_slashMod3 (by decide : (0 : Int) < 365) (by omega : 0 ≤ r % 1461) (by omega)
    obtain ⟨y, hy⟩ : ∃ y, y = (day - 2) / 146097 * 400 + b * 100 + r / 1461 * 4 + q := ⟨_, rfl⟩
    have hdigit : r / 1461 ≤ 24 := by omega
    have hlarge : y / 400 = (day - 2) / 146097 := by omega
    have hcenturies : y / 100 = (day - 2) / 146097 * 4 + b := by omega
    have hhundred : y / 100 % 4 = b := by
      rw [hcenturies]
      omega
    have hfour : y / 4 % 25 = r / 1461 := by omega
    have hone : y % 4 = q := by omega
    have hday : day = 365 * y + 97 * (y / 400) + 24 * (y / 100 % 4) + y / 4 % 25 + t + 2 := by
      rw [hlarge, hhundred, hfour]
      omega
    have hafter : IsGregorian y t := by
      rw [IsGregorian]
      rcases eq_or_ne y 1582 with rfl | hne
      · omega
      · omega
    refine ⟨y, t, ⟨ht, ?_, ?_⟩, ?_⟩
    · have hlength := yearLength_cases y
      simp only [Leap] at hlength
      omega
    · rw [IsGregorian] at hafter
      omega
    · rw [dayOf_gregorian hafter, hday, hlarge, hhundred, hfour, hone]
      omega
  · rw [gregorian_eq] at hgreg
    obtain ⟨q, t, hq, hq', ht, ht', hyear⟩ :=
      exists_slashMod3 (by decide : (0 : Int) < 365) (by omega : 0 ≤ day % 1461) (by omega)
    refine ⟨day / 1461 * 4 + q, t, ⟨ht, ?_, ?_⟩, ?_⟩
    · have hlength := yearLength_cases (day / 1461 * 4 + q)
      simp only [Leap] at hlength
      omega
    · omega
    · rw [dayOf, if_neg (by rw [IsGregorian]; omega)]
      omega

/-- {lit}`day2ymd` and {lit}`ymd2day` are inverse to each other, and {lit}`day2ymd` counts the
dates of the calendar. -/
theorem calendar_bijection :
    (∀ day, ymd2day (day2ymd day) = day) ∧
    (∀ day, (day2ymd day).Valid ∧ day2ymd (day + 1) = (day2ymd day).next) ∧
    (∀ date : Date, date.Valid → day2ymd (ymd2day date) = date) ∧
    day2ymd (gregorian - 1) = ⟨1582, 10, 4⟩ ∧ day2ymd gregorian = ⟨1582, 10, 15⟩ := by
  refine ⟨?_, ?_, ?_, by decide, by decide⟩
  · intro day
    obtain ⟨y, t, h, rfl⟩ := exists_dayOf day
    rw [day2ymd_dayOf h, ymd2day_ofYear h]
  · intro day
    obtain ⟨y, t, h, rfl⟩ := exists_dayOf day
    rw [← dayOf_after h, day2ymd_dayOf h, day2ymd_dayOf (inYear_after h)]
    exact ⟨valid_ofYear h, (next_ofYear h).symm⟩
  · intro date hvalid
    obtain ⟨y, t, h, rfl⟩ := exists_ofYear hvalid
    rw [ymd2day_ofYear h, day2ymd_dayOf h]

end Calendar
end Gforth
