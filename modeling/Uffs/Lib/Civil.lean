import Mathlib.Algebra.Order.Ring.Int
import Mathlib.Algebra.Order.Ring.Nat

namespace uffs.lib.civil

/-! The proleptic Gregorian calendar: dates, the number of a day, and the date of a number. -/

/-- A date as it is written, whether the calendar has it or not. -/
structure Date where
  year : Int
  month : Int
  day : Int
deriving DecidableEq

def IsLeap (year : Int) : Prop := year % 4 = 0 ∧ year % 100 ≠ 0 ∨ year % 400 = 0

instance decidableIsLeap : DecidablePred IsLeap := fun year =>
  inferInstanceAs (Decidable (year % 4 = 0 ∧ year % 100 ≠ 0 ∨ year % 400 = 0))

def month_length (year month : Int) : Int :=
  if month = 2 then if IsLeap year then 29 else 28
  else if month = 4 ∨ month = 6 ∨ month = 9 ∨ month = 11 then 30
  else 31

/-- A date that the calendar has. -/
structure Date.Valid (date : Date) : Prop where
  month_pos : 1 ≤ date.month
  month_le : date.month ≤ 12
  day_pos : 1 ≤ date.day
  day_le : date.day ≤ month_length date.year date.month

instance decidableValid (date : Date) : Decidable date.Valid :=
  decidable_of_iff (1 ≤ date.month ∧ date.month ≤ 12 ∧ 1 ≤ date.day ∧ date.day ≤ month_length date.year date.month)
    ⟨fun h => ⟨h.1, h.2.1, h.2.2.1, h.2.2.2⟩, fun ⟨h₁, h₂, h₃, h₄⟩ => ⟨h₁, h₂, h₃, h₄⟩⟩

/-- The order of dates: by year, then month, then day. -/
def Date.Before (one other : Date) : Prop :=
  one.year < other.year ∨ one.year = other.year ∧
    (one.month < other.month ∨ one.month = other.month ∧ one.day < other.day)

/-- Days before March of a year, counted from March of the year 0. -/
def before_march (year : Int) : Int := 365 * year + year / 4 - year / 100 + year / 400

/-- Days before the first of a month; January and February close the year that March began. -/
def month_start (year month : Int) : Int :=
  if month ≤ 2 then before_march (year - 1) + (153 * (month + 9) + 2) / 5
  else before_march year + (153 * (month - 3) + 2) / 5

/-- Days from the first of March of the year 0 on. -/
def day_number (date : Date) : Int := month_start date.year date.month + date.day - 1

section lengths

variable (year month : Int)

theorem month_length_bounds : 28 ≤ month_length year month ∧ month_length year month ≤ 31 := by
  unfold month_length
  split_ifs <;> omega

theorem before_march_leap (h : IsLeap year) : before_march year = before_march (year - 1) + 366 := by
  unfold IsLeap at h
  unfold before_march
  omega

theorem before_march_common (h : ¬ IsLeap year) : before_march year = before_march (year - 1) + 365 := by
  unfold IsLeap at h
  unfold before_march
  omega

/-- A month begins where the one before it ends. -/
theorem month_start_succ (hlow : 1 ≤ month) (hhigh : month < 12) :
    month_start year (month + 1) = month_start year month + month_length year month := by
  obtain rfl | rfl | hlarge : month = 1 ∨ month = 2 ∨ 3 ≤ month := by omega
  · have hjanuary : month_length year 1 = 31 := rfl
    rw [hjanuary, month_start, if_pos (by decide), month_start, if_pos (by decide)]
    omega
  · rw [month_start, if_neg (by decide), month_start, if_pos (by decide), month_length, if_pos rfl]
    split
    next hleap =>
      rw [before_march_leap year hleap]
      omega
    next hcommon =>
      rw [before_march_common year hcommon]
      omega
  · have hnext : ¬ month + 1 ≤ 2 := by omega
    have hhere : ¬ month ≤ 2 := by omega
    have hfeb : ¬ month = 2 := by omega
    have hcases : month = 3 ∨ month = 4 ∨ month = 5 ∨ month = 6 ∨ month = 7 ∨ month = 8 ∨ month = 9 ∨ month = 10 ∨
        month = 11 := by omega
    rw [month_start, if_neg hnext, month_start, if_neg hhere, month_length, if_neg hfeb]
    split <;> omega

theorem month_start_mono {year one other : Int} (hlow : 1 ≤ one) (hle : one ≤ other) (hhigh : other ≤ 12) :
    month_start year one ≤ month_start year other := by
  induction other, hle using Int.leInduction with
  | base => exact le_refl _
  | succ month hmonth ih =>
    have hlen := month_length_bounds year month
    rw [month_start_succ year month (by omega) (by omega)]
    have := ih (by omega)
    omega

theorem month_start_january : month_start (year + 1) 1 = month_start year 12 + month_length year 12 := by
  have hdecember : month_length year 12 = 31 := rfl
  rw [hdecember, month_start, month_start, if_pos (by omega), if_neg (by omega), Int.add_sub_cancel]
  omega

theorem january_mono {one other : Int} (hle : one ≤ other) : month_start one 1 ≤ month_start other 1 := by
  induction other, hle using Int.leInduction with
  | base => exact le_refl _
  | succ year _ ih =>
    have hyear := @month_start_mono year 1 12 (le_refl _) (by decide) (le_refl _)
    have hlen := month_length_bounds year 12
    rw [month_start_january]
    omega

end lengths

section days

variable {date one other : Date}

theorem Date.Valid.day_number_lt_next_month (h : date.Valid) :
    day_number date < month_start date.year date.month + month_length date.year date.month := by
  have := h.day_le
  rw [day_number]
  omega

theorem Date.Valid.month_start_le (h : date.Valid) : month_start date.year date.month ≤ day_number date := by
  have := h.day_pos
  rw [day_number]
  omega

/-- An earlier date has the smaller number. -/
theorem Date.Before.day_number_lt (hbefore : one.Before other) (hone : one.Valid) (hother : other.Valid) :
    day_number one < day_number other := by
  have hend := hone.day_number_lt_next_month
  have hstart := hother.month_start_le
  rcases hbefore with hyear | ⟨hyear, hmonth | ⟨hmonth, hday⟩⟩
  · have hdecember : month_start one.year one.month + month_length one.year one.month ≤ month_start (one.year + 1) 1 := by
      rw [month_start_january]
      obtain hlast | hlast : one.month < 12 ∨ one.month = 12 := by
        have := hone.month_le
        omega
      · rw [← month_start_succ _ _ hone.month_pos hlast]
        have hmono := @month_start_mono one.year (one.month + 1) 12 (by have := hone.month_pos; omega) (by omega) (le_refl _)
        have hlen := month_length_bounds one.year 12
        omega
      · rw [hlast]
    have hjanuary := january_mono (show one.year + 1 ≤ other.year by omega)
    have hmonth := @month_start_mono other.year 1 other.month (le_refl _) hother.month_pos hother.month_le
    omega
  · rw [← hyear] at hstart
    have hnext := month_start_succ one.year one.month hone.month_pos (by have := hother.month_le; omega)
    have hmono := @month_start_mono one.year (one.month + 1) other.month (by have := hone.month_pos; omega) (by omega)
      hother.month_le
    omega
  · simp only [day_number, hyear, hmonth]
    omega

theorem Date.before_or_eq_or_before (one other : Date) : one.Before other ∨ one = other ∨ other.Before one := by
  obtain ⟨year, month, day⟩ := one
  obtain ⟨year', month', day'⟩ := other
  simp only [Date.Before, Date.mk.injEq]
  omega

theorem day_number_lt_iff (hone : one.Valid) (hother : other.Valid) : day_number one < day_number other ↔ one.Before other := by
  refine ⟨fun hlt => ?_, fun hbefore => hbefore.day_number_lt hone hother⟩
  rcases Date.before_or_eq_or_before one other with hbefore | rfl | hbefore
  · exact hbefore
  · exact absurd hlt (lt_irrefl _)
  · exact absurd (hbefore.day_number_lt hother hone) (not_lt.mpr hlt.le)

theorem day_number_injective (hone : one.Valid) (hother : other.Valid) (h : day_number one = day_number other) : one = other := by
  rcases Date.before_or_eq_or_before one other with hbefore | heq | hbefore
  · exact absurd h (hbefore.day_number_lt hone hother).ne
  · exact heq
  · exact absurd h.symm (hbefore.day_number_lt hother hone).ne

end days

section dates

/-- Year, counted from March, of a day within its four hundred years. -/
def year_of_era (day_of_era : Int) : Int :=
  (day_of_era - day_of_era / 1460 + day_of_era / 36524 - day_of_era / 146096) / 365

/-- Date of a day that is so many days after the first of March of a year. -/
def date_in_year (year day_of_year : Int) : Date :=
  let month := (5 * day_of_year + 2) / 153
  let day := day_of_year - (153 * month + 2) / 5 + 1
  if month < 10 then ⟨year, month + 3, day⟩ else ⟨year + 1, month - 9, day⟩

/-- The date of a number. -/
def date_of (number : Int) : Date :=
  let era := number / 146097
  let day_of_era := number - era * 146097
  let year := year_of_era day_of_era
  date_in_year (year + era * 400) (day_of_era - (365 * year + year / 4 - year / 100))

/-- A day of an era: its century, its place in fours, in years and in days. -/
theorem split_era {day : Int} (hlow : 0 ≤ day) (hhigh : day < 146097) :
    ∃ century four year rest : Int, day = 36524 * century + 1461 * four + 365 * year + rest ∧ 0 ≤ century ∧ century ≤ 3 ∧
      0 ≤ four ∧ four ≤ 24 ∧ 0 ≤ year ∧ year ≤ 3 ∧ 0 ≤ rest ∧
      (rest ≤ 364 ∨ rest = 365 ∧ year = 3 ∧ (four < 24 ∨ century = 3)) := by
  obtain ⟨century, hcentury⟩ : ∃ century, century = if day = 146096 then 3 else day / 36524 := ⟨_, rfl⟩
  obtain ⟨four, hfour⟩ : ∃ four, four = (day - 36524 * century) / 1461 := ⟨_, rfl⟩
  obtain ⟨left, hleft⟩ : ∃ left, left = day - 36524 * century - 1461 * four := ⟨_, rfl⟩
  obtain ⟨year, hyear⟩ : ∃ year, year = if left = 1460 then 3 else left / 365 := ⟨_, rfl⟩
  exact ⟨century, four, year, left - 365 * year, by omega⟩

theorem year_of_era_eq {day century four year rest : Int} (hday : day = 36524 * century + 1461 * four + 365 * year + rest)
    (hcentury : 0 ≤ century ∧ century ≤ 3) (hfour : 0 ≤ four ∧ four ≤ 24) (hyear : 0 ≤ year ∧ year ≤ 3)
    (hrest : 0 ≤ rest ∧ (rest ≤ 364 ∨ rest = 365 ∧ year = 3 ∧ (four < 24 ∨ century = 3))) :
    year_of_era day = 100 * century + 4 * four + year := by
  -- the days that make the quotients run ahead: leap days in fours, centuries and the era
  have hfours : day / 1460 = 25 * century + four + (24 * century + four + 365 * year + rest) / 1460 := by omega
  have hcenturies : day / 36524 - day / 146096 = century := by
    obtain hlast | hlast : day = 146096 ∨ day < 146096 := by omega
    · have hthree : century = 3 := by omega
      rw [hlast, hthree]
      rfl
    · have hin : 0 ≤ day - 36524 * century ∧ day - 36524 * century < 36524 := by omega
      omega
  rw [year_of_era, add_sub_assoc, hcenturies, hfours]
  omega

/-- The day of the year lies in the year. -/
theorem year_of_era_bounds {day year : Int} (hlow : 0 ≤ day) (hhigh : day < 146097) (hyear : year_of_era day = year) :
    0 ≤ year ∧ year ≤ 399 ∧ 0 ≤ day - (365 * year + year / 4 - year / 100) ∧
      day - (365 * year + year / 4 - year / 100) ≤ 365 := by
  obtain ⟨century, four, one, rest, hday, hc, hc', hf, hf', hy, hy', hr, hrest⟩ := split_era hlow hhigh
  have heq := year_of_era_eq hday ⟨hc, hc'⟩ ⟨hf, hf'⟩ ⟨hy, hy'⟩ ⟨hr, hrest⟩
  have hfour : (100 * century + 4 * four + one) / 4 = 25 * century + four := by omega
  have hcentury : (100 * century + 4 * four + one) / 100 = century := by omega
  rw [← hyear, heq, hfour, hcentury]
  omega

/-- Every number is a year that begins in March, and a day in it. -/
theorem exists_year (number : Int) : ∃ year day : Int, date_of number = date_in_year year day ∧
    number = before_march year + day ∧ 0 ≤ day ∧ before_march year + day < before_march (year + 1) := by
  obtain ⟨century, four, year, rest, hday, hc, hc', hf, hf', hy, hy', hr, hrest⟩ :=
    @split_era (number - number / 146097 * 146097) (by omega) (by omega)
  have hyear := year_of_era_eq hday ⟨hc, hc'⟩ ⟨hf, hf'⟩ ⟨hy, hy'⟩ ⟨hr, hrest⟩
  have hfour : (100 * century + 4 * four + year) / 4 = 25 * century + four := by omega
  have hcentury : (100 * century + 4 * four + year) / 100 = century := by omega
  refine ⟨100 * century + 4 * four + year + number / 146097 * 400, rest, ?_, ?_, hr, ?_⟩
  · simp only [date_of, hyear, hfour, hcentury]
    congr 1
    omega
  · rw [before_march]
    omega
  · generalize hlabel : 100 * century + 4 * four + year + number / 146097 * 400 = label
    by_cases hleap : IsLeap (label + 1)
    · have hnext := before_march_leap _ hleap
      rw [Int.add_sub_cancel] at hnext
      omega
    · have hnext := before_march_common _ hleap
      rw [Int.add_sub_cancel] at hnext
      have hlong : rest ≠ 365 := by
        unfold IsLeap at hleap
        omega
      omega

variable {year day : Int}

theorem date_in_year_valid (hlow : 0 ≤ day) (hhigh : before_march year + day < before_march (year + 1)) :
    (date_in_year year day).Valid := by
  have hyear : day ≤ 365 ∧ (day = 365 → IsLeap (year + 1)) := by
    by_cases hleap : IsLeap (year + 1)
    · have hnext := before_march_leap _ hleap
      rw [Int.add_sub_cancel] at hnext
      exact ⟨by omega, fun _ => hleap⟩
    · have hnext := before_march_common _ hleap
      rw [Int.add_sub_cancel] at hnext
      exact ⟨by omega, by omega⟩
  dsimp only [date_in_year]
  split
  next hmonth =>
    refine ⟨?_, ?_, ?_, ?_⟩ <;> dsimp only
    · omega
    · omega
    · omega
    · have hfeb : ¬ (5 * day + 2) / 153 + 3 = 2 := by omega
      have hcases : (5 * day + 2) / 153 = 0 ∨ (5 * day + 2) / 153 = 1 ∨ (5 * day + 2) / 153 = 2 ∨ (5 * day + 2) / 153 = 3 ∨
          (5 * day + 2) / 153 = 4 ∨ (5 * day + 2) / 153 = 5 ∨ (5 * day + 2) / 153 = 6 ∨ (5 * day + 2) / 153 = 7 ∨
          (5 * day + 2) / 153 = 8 ∨ (5 * day + 2) / 153 = 9 := by omega
      rw [month_length, if_neg hfeb]
      split <;> omega
  next hmonth =>
    refine ⟨?_, ?_, ?_, ?_⟩ <;> dsimp only
    · omega
    · omega
    · omega
    · have hcases : (5 * day + 2) / 153 = 10 ∨ (5 * day + 2) / 153 = 11 := by omega
      rcases hcases with hjanuary | hfebruary
      · rw [hjanuary]
        have hlen : month_length (year + 1) (10 - 9) = 31 := rfl
        omega
      · rw [hfebruary, month_length, if_pos (by decide)]
        split
        · omega
        · have : day ≠ 365 := fun h => absurd (hyear.2 h) (by assumption)
          omega

theorem day_number_date_in_year (hlow : 0 ≤ day) (hhigh : day ≤ 365) :
    day_number (date_in_year year day) = before_march year + day := by
  dsimp only [date_in_year]
  split
  · rw [day_number, month_start, if_neg (by dsimp only; omega)]
    dsimp only
    omega
  · rw [day_number, month_start, if_pos (by dsimp only; omega)]
    dsimp only
    rw [Int.add_sub_cancel]
    omega

theorem date_of_valid (number : Int) : (date_of number).Valid := by
  obtain ⟨year, day, hdate, _, hlow, hhigh⟩ := exists_year number
  rw [hdate]
  exact date_in_year_valid hlow hhigh

/-- The date of a number has that number. -/
theorem day_number_date_of (number : Int) : day_number (date_of number) = number := by
  obtain ⟨year, day, hdate, hnumber, hlow, hhigh⟩ := exists_year number
  have hlong : before_march (year + 1) ≤ before_march year + 366 := by
    rw [before_march, before_march]
    omega
  rw [hdate, day_number_date_in_year hlow (by omega), hnumber]

/-- The number of a date has that date. -/
theorem date_of_day_number {date : Date} (h : date.Valid) : date_of (day_number date) = date :=
  day_number_injective (date_of_valid _) h (day_number_date_of _)

theorem date_of_before_iff {one other : Int} : (date_of one).Before (date_of other) ↔ one < other := by
  rw [← day_number_lt_iff (date_of_valid _) (date_of_valid _), day_number_date_of, day_number_date_of]

end dates

section months

/-- The place of a month among all months. -/
def Date.month_index (self : Date) : Int := 12 * self.year + self.month - 1

/-- Days before the first of a month with this place. -/
def index_start (index : Int) : Int := month_start (index / 12) (index % 12 + 1)

theorem Date.Valid.index_parts {date : Date} (h : date.Valid) : date.month_index / 12 = date.year ∧
    date.month_index % 12 + 1 = date.month := by
  obtain ⟨hmonth, hmonth', _, _⟩ := h
  unfold Date.month_index
  omega

theorem Date.Valid.day_number_eq {date : Date} (h : date.Valid) :
    day_number date = index_start date.month_index + date.day - 1 := by
  rw [index_start, h.index_parts.1, h.index_parts.2, day_number]

theorem index_start_succ (index : Int) : index_start (index + 1) =
    index_start index + month_length (index / 12) (index % 12 + 1) := by
  unfold index_start
  obtain hlast | hlast : index % 12 + 1 < 12 ∨ index % 12 = 11 := by omega
  · have hyear : (index + 1) / 12 = index / 12 := by omega
    have hmonth : (index + 1) % 12 + 1 = index % 12 + 1 + 1 := by omega
    rw [hyear, hmonth, month_start_succ _ _ (by omega) hlast]
  · have hyear : (index + 1) / 12 = index / 12 + 1 := by omega
    have hmonth : (index + 1) % 12 + 1 = 1 := by omega
    rw [hyear, hmonth, hlast]
    exact month_start_january _

theorem index_start_mono {one other : Int} (hle : one ≤ other) : index_start one ≤ index_start other := by
  induction other, hle using Int.leInduction with
  | base => exact le_refl _
  | succ index _ ih =>
    have hlen := month_length_bounds (index / 12) (index % 12 + 1)
    rw [index_start_succ]
    omega

/-- A month has begun exactly when the day is in it or in a later one. -/
theorem index_start_le_iff {index number : Int} : index_start index ≤ number ↔ index ≤ (date_of number).month_index := by
  have hvalid := date_of_valid number
  have hnumber := hvalid.day_number_eq
  rw [day_number_date_of] at hnumber
  have hlow := hvalid.day_pos
  have hhigh := hvalid.day_le
  constructor
  · intro hle
    by_contra hlater
    have hnext := index_start_mono (show (date_of number).month_index + 1 ≤ index by omega)
    rw [index_start_succ, hvalid.index_parts.1, hvalid.index_parts.2] at hnext
    omega
  · intro hle
    have := index_start_mono hle
    omega

theorem index_start_year (year : Int) : index_start (12 * year) = month_start year 1 := by
  have hyear : 12 * year / 12 = year := by omega
  have hmonth : 12 * year % 12 + 1 = 1 := by omega
  rw [index_start, hyear, hmonth]

end months

/-- A truncating quotient, by the sign of the dividend. -/
theorem tdiv_eq_ite (a b : Int) : a.tdiv b = if 0 ≤ a then a / b else -(-a / b) := by
  split
  next hpos => exact Int.tdiv_eq_ediv_of_nonneg hpos
  next hneg => rw [← Int.tdiv_eq_ediv_of_nonneg (by omega), Int.neg_tdiv, Int.neg_neg]

/-- The floor of a quotient, as code with truncating division has it. -/
theorem tdiv_floor {a b : Int} (hb : 0 < b) : (if 0 ≤ a then a else a - (b - 1)).tdiv b = a / b := by
  split
  next hpos => rw [Int.tdiv_eq_ediv_of_nonneg hpos]
  next hneg =>
    have hnum : a - (b - 1) = -(b - 1 - a % b + b * (-(a / b))) := by
      have := Int.emod_add_mul_ediv a b
      rw [Int.mul_neg]
      omega
    have hrem := Int.emod_nonneg a hb.ne'
    have hrem' := Int.emod_lt_of_pos a hb
    have hpos : 0 ≤ b - 1 - a % b + b * (-(a / b)) := by omega
    rw [hnum, Int.neg_tdiv, Int.tdiv_eq_ediv_of_nonneg hpos, Int.add_mul_ediv_left _ _ hb.ne',
      Int.ediv_eq_zero_of_lt (by omega) (by omega)]
    omega

end uffs.lib.civil
