import Uffs.Lib.Checked
import Uffs.Lib.Civil
import Uffs.Search.Dispatch

open uffs.lib uffs.lib.civil uffs.text uffs.compact

namespace uffs.search.time

/-! Dates and time bounds of the command line, in ticks of a FILETIME. -/

variable {ε : Type}

def TICKS_PER_SECOND : Int := 10000000

def TICKS_PER_DAY : Int := TICKS_PER_SECOND * 86400

variable {date : Date} {days : Int}

section dates

/-- `u32::try_from(value).unwrap_or(default)`. -/
def try_u32 (value default : Int) : Int := if 0 ≤ value ∧ value < 2 ^ 32 then value else default

/-- The end of `ymd_of_era`: month and day of a day in a year that begins in March. -/
def ymd_in_year (y doy : Int) : Checked ε (Int × Int × Int) := do
  let fives ← Checked.u32 (5 * doy)
  let scaled ← Checked.u32 (fives + 2)
  let mp := scaled / 153
  let months ← Checked.u32 (153 * mp)
  let numerator ← Checked.u32 (months + 2)
  let rest ← Checked.u32 (doy - numerator / 5)
  let day ← Checked.u32 (rest + 1)
  let month ← (if mp < 10 then Checked.u32 (mp + 3) else Checked.u32 (mp - 9) : Checked ε Int)
  let year ← (if month ≤ 2 then Checked.i64 (y + 1) else pure y : Checked ε Int)
  pure (year, month, day)

/-- The start of `days_to_ymd_1601`: the era of a day, and the days of the era before it. -/
def era_of_days (days_since_1601 : Int) : Checked ε (Int × Int) := do
  let z ← Checked.i64 (days_since_1601 + 584694)
  let shifted ← (if 0 ≤ z then pure z else Checked.i64 (z - 146096) : Checked ε Int)
  let era := shifted.tdiv 146097
  let start ← Checked.i64 (era * 146097)
  let left ← Checked.i64 (z - start)
  pure (era, left)

/-- The rest of `days_to_ymd_1601`: the date of a day of an era. -/
def ymd_of_era (era doe : Int) : Checked ε (Int × Int × Int) := do
  let common ← Checked.u32 (doe - doe / 1460)
  let centuries ← Checked.u32 (common + doe / 36524)
  let shortened ← Checked.u32 (centuries - doe / 146096)
  let yoe := shortened / 365
  let years ← Checked.i64 (era * 400)
  let y ← Checked.i64 (yoe + years)
  let plain ← Checked.u32 (365 * yoe)
  let leaps ← Checked.u32 (plain + yoe / 4)
  let before ← Checked.u32 (leaps - yoe / 100)
  let doy ← Checked.u32 (doe - before)
  ymd_in_year y doy

/-- Year, month and day of the number of days since 1601-01-01. -/
def days_to_ymd_1601 (days_since_1601 : Int) : Checked ε (Int × Int × Int) := do
  let (era, left) ← era_of_days days_since_1601
  ymd_of_era era (try_u32 left 0)

def days_in_month (year month : Int) : Int :=
  let is_leap := year.tmod 4 = 0 ∧ year.tmod 100 ≠ 0 ∨ year.tmod 400 = 0
  if month = 1 ∨ month = 3 ∨ month = 5 ∨ month = 7 ∨ month = 8 ∨ month = 10 ∨ month = 12 then 31
  else if month = 2 then if is_leap then 29 else 28
  else 30

/-- Days since 1601-01-01 of a year, month and day. -/
def ymd_to_days_1601 (year month day : Int) : Checked ε Int := do
  let adj_year ← (if month ≤ 2 then Checked.i64 (year - 1) else pure year : Checked ε Int)
  let adj_month ← (if month ≤ 2 then Checked.i64 (month + 9) else Checked.i64 (month - 3) : Checked ε Int)
  let shifted ← (if 0 ≤ adj_year then pure adj_year else Checked.i64 (adj_year - 399) : Checked ε Int)
  let era := shifted.tdiv 400
  let start ← Checked.i64 (era * 400)
  let left ← Checked.i64 (adj_year - start)
  let yoe := try_u32 left 0
  let adj_month_u32 := try_u32 adj_month 0
  let day_u32 := try_u32 day 1
  let months ← Checked.u32 (153 * adj_month_u32)
  let numerator ← Checked.u32 (months + 2)
  let with_day ← Checked.u32 (numerator / 5 + day_u32)
  let doy ← Checked.u32 (with_day - 1)
  let plain ← Checked.u32 (yoe * 365)
  let leaps ← Checked.u32 (plain + yoe / 4)
  let years ← Checked.u32 (leaps - yoe / 100)
  let doe ← Checked.u32 (years + doy)
  let eras ← Checked.i64 (era * 146097)
  let days ← Checked.i64 (doe + eras)
  Checked.i64 (days - 584694)

theorem ymd_in_year_eq {y doy : Int} (hlow : 0 ≤ doy) (hhigh : doy ≤ 365) (hy : -2 ^ 62 ≤ y ∧ y < 2 ^ 62) :
    (ymd_in_year y doy : Checked ε _) =
      .ok ((date_in_year y doy).year, (date_in_year y doy).month, (date_in_year y doy).day) := by
  unfold ymd_in_year
  rw [Checked.u32_bind (by omega), Checked.u32_bind (by omega)]
  dsimp only [date_in_year]
  obtain ⟨mp, hmp⟩ : ∃ mp, mp = (5 * doy + 2) / 153 := ⟨_, rfl⟩
  rw [← hmp]
  rw [Checked.u32_bind (by omega), Checked.u32_bind (by omega),
    Checked.u32_bind (by omega), Checked.u32_bind (by omega)]
  split
  next hmonth =>
    rw [Checked.u32_bind (by omega), if_neg (by omega)]
    rfl
  next hmonth =>
    rw [Checked.u32_bind (by omega), if_pos (by omega), Checked.i64_eq (by omega)]
    rfl

theorem era_of_days_eq (hlow : -2 ^ 63 ≤ days) (hhigh : days + 584694 < 2 ^ 63) :
    (era_of_days days : Checked ε _) =
      .ok ((days + 584694) / 146097, days + 584694 - (days + 584694) / 146097 * 146097) := by
  obtain ⟨z, hz⟩ : ∃ z, z = days + 584694 := ⟨_, rfl⟩
  obtain ⟨shifted, hshifted⟩ : ∃ shifted, shifted = if 0 ≤ z then z else z - 146096 := ⟨_, rfl⟩
  have hera : shifted.tdiv 146097 = z / 146097 := by
    rw [hshifted]
    exact tdiv_floor (b := 146097) (by decide)
  have hshift : (if 0 ≤ z then pure z else Checked.i64 (z - 146096) : Checked ε Int) = .ok shifted := by
    rw [hshifted]
    split
    · rfl
    · exact Checked.i64_eq (by omega)
  unfold era_of_days
  rw [← hz, Checked.i64_bind (by omega), hshift, Checked.ok_bind]
  rw [hera, Checked.i64_bind (by omega), Checked.i64_eq (by omega)]
  rfl

theorem ymd_of_era_eq {era doe : Int} (hera : -2 ^ 47 ≤ era ∧ era < 2 ^ 47) (hdoe : 0 ≤ doe ∧ doe < 146097) :
    (ymd_of_era era doe : Checked ε _) =
      .ok ((date_of (era * 146097 + doe)).year, (date_of (era * 146097 + doe)).month, (date_of (era * 146097 + doe)).day) := by
  have hquot : (era * 146097 + doe) / 146097 = era := by omega
  obtain ⟨yoe, hyoe⟩ : ∃ yoe, year_of_era doe = yoe := ⟨_, rfl⟩
  have hyear := year_of_era_bounds hdoe.1 hdoe.2 hyoe
  dsimp only [date_of]
  rw [hquot, add_sub_cancel_left, hyoe]
  unfold ymd_of_era
  rw [year_of_era] at hyoe
  rw [Checked.u32_bind (by omega), Checked.u32_bind (by omega), Checked.u32_bind (by omega), hyoe]
  rw [Checked.i64_bind (by omega), Checked.i64_bind (by omega), Checked.u32_bind (by omega), Checked.u32_bind (by omega), Checked.u32_bind (by omega),
    Checked.u32_bind (by omega)]
  exact ymd_in_year_eq hyear.2.2.1 hyear.2.2.2 (by omega)

theorem days_to_ymd_1601_eq (hlow : -2 ^ 63 ≤ days) (hhigh : days + 584694 < 2 ^ 63) :
    (days_to_ymd_1601 days : Checked ε _) =
      .ok ((date_of (days + 584694)).year, (date_of (days + 584694)).month, (date_of (days + 584694)).day) := by
  have hsplit : (days + 584694) / 146097 * 146097 + (days + 584694 - (days + 584694) / 146097 * 146097) = days + 584694 := by
    omega
  rw [days_to_ymd_1601, era_of_days_eq hlow hhigh, Checked.ok_bind]
  dsimp only
  rw [try_u32, if_pos (by omega), ymd_of_era_eq (by omega) (by omega), hsplit]

/-- The days of a date whose number is in range; only a day zero of March has none. -/
theorem ymd_to_days_1601_eq (hmonth : 0 ≤ date.month ∧ date.month < 2 ^ 20) (hday : 0 ≤ date.day ∧ date.day < 2 ^ 20)
    (hsome : date.month ≠ 3 ∨ 1 ≤ date.day) (hlow : -2 ^ 62 ≤ day_number date) (hhigh : day_number date < 2 ^ 63) :
    (ymd_to_days_1601 date.year date.month date.day : Checked ε _) = .ok (day_number date - 584694) := by
  obtain ⟨year, month, day⟩ := date
  dsimp only at *
  obtain ⟨adj_year, hadj_year⟩ : ∃ adj_year, adj_year = if month ≤ 2 then year - 1 else year := ⟨_, rfl⟩
  obtain ⟨adj_month, hadj_month⟩ : ∃ adj_month, adj_month = if month ≤ 2 then month + 9 else month - 3 := ⟨_, rfl⟩
  have hnumber : day_number ⟨year, month, day⟩ = before_march adj_year + (153 * adj_month + 2) / 5 + day - 1 := by
    rw [hadj_year, hadj_month, day_number, month_start]
    split <;> rfl
  have hmonths : 0 ≤ adj_month ∧ adj_month < 2 ^ 21 ∧ 1 ≤ (153 * adj_month + 2) / 5 + day := by
    split at hadj_month <;> omega
  rw [hnumber] at hlow hhigh ⊢
  have hsplit : before_march adj_year = adj_year / 400 * 146097 +
      ((adj_year - adj_year / 400 * 400) * 365 + (adj_year - adj_year / 400 * 400) / 4 -
        (adj_year - adj_year / 400 * 400) / 100) := by
    rw [before_march]
    omega
  have hyear : (if month ≤ 2 then Checked.i64 (year - 1) else pure year : Checked ε Int) = .ok adj_year := by
    rw [hadj_year]
    split
    next h =>
      rw [if_pos h] at hadj_year
      exact Checked.i64_eq (by omega)
    next => rfl
  have hmonth' : (if month ≤ 2 then Checked.i64 (month + 9) else Checked.i64 (month - 3) : Checked ε Int) = .ok adj_month := by
    rw [hadj_month]
    split <;> exact Checked.i64_eq (by omega)
  have hshift : (if 0 ≤ adj_year then pure adj_year else Checked.i64 (adj_year - 399) : Checked ε Int) =
      .ok (if 0 ≤ adj_year then adj_year else adj_year - 399) := by
    split
    · rfl
    · exact Checked.i64_eq (by omega)
  have hera := tdiv_floor (a := adj_year) (b := 400) (by decide)
  unfold ymd_to_days_1601
  rw [hyear, Checked.ok_bind, hmonth', Checked.ok_bind, hshift, Checked.ok_bind]
  rw [show (399 : Int) = 400 - 1 from rfl, hera]
  have hyoe : 0 ≤ adj_year - adj_year / 400 * 400 ∧ adj_year - adj_year / 400 * 400 ≤ 399 := by omega
  rw [hsplit] at hlow hhigh ⊢
  rw [Checked.i64_bind (by omega), Checked.i64_bind (by omega)]
  generalize adj_year - adj_year / 400 * 400 = yoe at *
  generalize adj_year / 400 = era at *
  rw [try_u32, if_pos (by omega), try_u32, if_pos (by omega), try_u32, if_pos (by omega)]
  rw [Checked.u32_bind (by omega), Checked.u32_bind (by omega), Checked.u32_bind (by omega), Checked.u32_bind (by omega), Checked.u32_bind (by omega),
    Checked.u32_bind (by omega), Checked.u32_bind (by omega), Checked.u32_bind (by omega), Checked.i64_bind (by omega), Checked.i64_bind (by omega),
    Checked.i64_eq (by omega)]
  congr 1
  omega

theorem days_in_month_eq {year month : Int} (hlow : 1 ≤ month) (hhigh : month ≤ 12) :
    days_in_month year month = month_length year month := by
  have hleap : (year.tmod 4 = 0 ∧ year.tmod 100 ≠ 0 ∨ year.tmod 400 = 0) ↔ IsLeap year := by
    simp only [IsLeap, ← Int.dvd_iff_tmod_eq_zero, ne_eq, Int.dvd_iff_emod_eq_zero]
  simp only [days_in_month, month_length, hleap]
  split_ifs <;> omega

end dates

section bijection

/-- The number of a day that a FILETIME falls on. -/
def FiletimeDay (days : Int) : Prop := ∃ ticks : Int64, ticks.toInt / TICKS_PER_DAY = days

/-- A date with the months and days that `days_in_month` allows. -/
def Civil (date : Date) : Prop :=
  1 ≤ date.month ∧ date.month ≤ 12 ∧ 1 ≤ date.day ∧ date.day ≤ days_in_month date.year date.month

theorem civil_iff : Civil date ↔ date.Valid := by
  constructor
  · rintro ⟨hmonth, hmonth', hday, hday'⟩
    rw [days_in_month_eq hmonth hmonth'] at hday'
    exact ⟨hmonth, hmonth', hday, hday'⟩
  · intro h
    refine ⟨h.month_pos, h.month_le, h.day_pos, ?_⟩
    rw [days_in_month_eq h.month_pos h.month_le]
    exact h.day_le

/-- Days and dates correspond, both ways and in order, for the dates that are covered. -/
structure Bijective (Covered : Date → Prop) : Prop where
  of_days : ∀ days, FiletimeDay days → ∃ date : Date,
    (days_to_ymd_1601 days : Checked Unit _) = .ok (date.year, date.month, date.day) ∧ Civil date ∧
      (ymd_to_days_1601 date.year date.month date.day : Checked Unit _) = .ok days
  of_date : ∀ date, Civil date → Covered date → ∃ days,
    (ymd_to_days_1601 date.year date.month date.day : Checked Unit _) = .ok days ∧
      (days_to_ymd_1601 days : Checked Unit _) = .ok (date.year, date.month, date.day)
  ordered : ∀ one other, Civil one → Civil other → Covered one → Covered other → one.Before other → ∃ days more,
    (ymd_to_days_1601 one.year one.month one.day : Checked Unit _) = .ok days ∧
      (ymd_to_days_1601 other.year other.month other.day : Checked Unit _) = .ok more ∧ days < more

/-- The last date whose number of days the arithmetic holds. -/
def last_date : Date := ⟨25252734927766554, 9, 25⟩

theorem day_number_bounds (hcivil : Civil date) (hyear : 1601 ≤ date.year) (hlast : ¬ last_date.Before date) :
    584694 ≤ day_number date ∧ day_number date < 2 ^ 63 := by
  have hvalid := civil_iff.mp hcivil
  constructor
  · have hstart := january_mono hyear
    have hmonth := @month_start_mono date.year 1 date.month (le_refl 1) hvalid.month_pos hvalid.month_le
    have hfirst : month_start 1601 1 = 584694 := rfl
    have := hvalid.month_start_le
    omega
  · have hend : day_number last_date = 2 ^ 63 - 1 := by decide
    have := mt (day_number_lt_iff (by decide) hvalid).mp hlast
    omega

theorem days_of_civil (hcivil : Civil date) (hlow : -2 ^ 62 ≤ day_number date) (hhigh : day_number date < 2 ^ 63) :
    (ymd_to_days_1601 date.year date.month date.day : Checked ε _) = .ok (day_number date - 584694) := by
  have hvalid := civil_iff.mp hcivil
  have hlen := month_length_bounds date.year date.month
  obtain ⟨hmonth, hmonth', hday, hday'⟩ := hvalid
  exact ymd_to_days_1601_eq (by omega) (by omega) (.inr hday) hlow hhigh

theorem date_of_days (hcivil : Civil date) (hlow : -2 ^ 62 ≤ day_number date) (hhigh : day_number date < 2 ^ 63) :
    (days_to_ymd_1601 (day_number date - 584694) : Checked ε _) = .ok (date.year, date.month, date.day) := by
  rw [days_to_ymd_1601_eq (by omega) (by omega), Int.sub_add_cancel, date_of_day_number (civil_iff.mp hcivil)]

/-- Up to the last date that the arithmetic holds, days and dates correspond: each day has one date and
each date one day, in the same order. -/
theorem civil_days_bijective : Bijective fun date => 1601 ≤ date.year ∧ ¬ last_date.Before date where
  of_days days := by
    rintro ⟨ticks, hticks⟩
    have hlow := ticks.le_toInt
    have hhigh := ticks.toInt_lt
    have hdays : -2 ^ 62 ≤ days ∧ days < 2 ^ 62 := by
      rw [← hticks, TICKS_PER_DAY, TICKS_PER_SECOND]
      omega
    have hcivil := civil_iff.mpr (date_of_valid (days + 584694))
    have hnumber := day_number_date_of (days + 584694)
    refine ⟨date_of (days + 584694), days_to_ymd_1601_eq (by omega) (by omega), hcivil, ?_⟩
    rw [days_of_civil hcivil (by omega) (by omega), hnumber, Int.add_sub_cancel]
  of_date date hcivil := by
    rintro ⟨hyear, hlast⟩
    have hbounds := day_number_bounds hcivil hyear hlast
    exact ⟨_, days_of_civil hcivil (by omega) hbounds.2, date_of_days hcivil (by omega) hbounds.2⟩
  ordered one other hone hother := by
    rintro ⟨hyear, hlast⟩ ⟨hyear', hlast'⟩ hbefore
    have hbounds := day_number_bounds hone hyear hlast
    have hbounds' := day_number_bounds hother hyear' hlast'
    refine ⟨_, _, days_of_civil hone (by omega) hbounds.2, days_of_civil hother (by omega) hbounds'.2, ?_⟩
    have := hbefore.day_number_lt (civil_iff.mp hone) (civil_iff.mp hother)
    omega

/-- In the year 2⁶² the product of the eras is past 64 bits. -/
theorem civil_days_overflow : ¬ Bijective fun date => 1601 ≤ date.year := by
  intro h
  obtain ⟨days, hdays, -⟩ := h.of_date ⟨2 ^ 62, 1, 1⟩ (civil_iff.mpr (by decide)) (by decide)
  have hpanic : (ymd_to_days_1601 (2 ^ 62) 1 1 : Checked Unit _) = .panic := by decide
  cases hpanic.symm.trans hdays

end bijection

section ranges

/-- The named ranges of time. -/
inductive TimeRange where
  | today
  | yesterday
  | this_week
  | last_week
  | this_month
  | last_month
  | this_year
  | last_year
  | last_days (count : Nat)
  | next_day
  | next_week
  | next_month
  | next_year
deriving DecidableEq

def range_names : List (String × TimeRange) :=
  [("today", .today), ("yesterday", .yesterday), ("this_week", .this_week), ("thisweek", .this_week),
    ("last_week", .last_week), ("lastweek", .last_week), ("this_month", .this_month), ("thismonth", .this_month),
    ("last_month", .last_month), ("lastmonth", .last_month), ("this_year", .this_year), ("thisyear", .this_year),
    ("ytd", .this_year), ("last_year", .last_year), ("lastyear", .last_year), ("last_7d", .last_days 7),
    ("last7d", .last_days 7), ("last_30d", .last_days 30), ("last30d", .last_days 30), ("last_90d", .last_days 90),
    ("last90d", .last_days 90), ("last_365d", .last_days 365), ("last365d", .last_days 365), ("next_day", .next_day),
    ("nextday", .next_day), ("tomorrow", .next_day), ("next_week", .next_week), ("nextweek", .next_week),
    ("next_month", .next_month), ("nextmonth", .next_month), ("next_year", .next_year), ("nextyear", .next_year)]

def named_range (name : Str) : Option TimeRange :=
  (range_names.find? fun entry => entry.1.toList = to_ascii_lowercase name).map Prod.snd

/-- `days * TICKS_PER_DAY`. -/
def day_ticks (days : Int) : Checked ε Int := Checked.i64 (days * TICKS_PER_DAY)

/-- The Monday of the week, in ticks. -/
def monday_of (today_start : Int) : Checked ε Int := do
  let dow := (today_start.tdiv TICKS_PER_DAY).tmod 7
  let back ← day_ticks dow
  Checked.i64 (today_start - back)

/-- The start of the month with its year and number. -/
def month_of (today_start : Int) : Checked ε (Int × Int × Int) := do
  let (year, month, day) ← days_to_ymd_1601 (today_start.tdiv TICKS_PER_DAY)
  let back ← day_ticks (day - 1)
  let this_month_start ← Checked.i64 (today_start - back)
  pure (year, month, this_month_start)

/-- The start of a year that is so many years after the present one. -/
def year_after (today_start years : Int) : Checked ε Int := do
  let (year, _, _) ← days_to_ymd_1601 (today_start.tdiv TICKS_PER_DAY)
  let days ← ymd_to_days_1601 (year + years) 1 1
  day_ticks days

/-- The arm of `parse_named_time_range` for a range. -/
def TimeRange.resolve (range : TimeRange) (now_ft : Int) (is_newer : Bool) : Checked ε Int := do
  let today_start ← Checked.i64 (now_ft - now_ft.tmod TICKS_PER_DAY)
  match range with
  | .today => pure today_start
  | .yesterday => if is_newer then Checked.i64 (today_start - TICKS_PER_DAY) else pure today_start
  | .this_week => monday_of today_start
  | .last_week => do
    let this_monday ← monday_of today_start
    if is_newer then Checked.i64 (this_monday - 7 * TICKS_PER_DAY) else pure this_monday
  | .this_month => do
    let (_, _, this_month_start) ← month_of today_start
    pure this_month_start
  | .last_month => do
    let (year, month, this_month_start) ← month_of today_start
    if is_newer then do
      let prev_days := if month = 1 then days_in_month (year - 1) 12 else days_in_month year (month - 1)
      let back ← day_ticks prev_days
      Checked.i64 (this_month_start - back)
    else pure this_month_start
  | .this_year => year_after today_start 0
  | .last_year => if is_newer then year_after today_start (-1) else year_after today_start 0
  | .last_days count => Checked.i64 (now_ft - count * TICKS_PER_DAY)
  | .next_day =>
    if is_newer then Checked.i64 (today_start + TICKS_PER_DAY) else Checked.i64 (today_start + 2 * TICKS_PER_DAY)
  | .next_week => do
    let this_monday ← monday_of today_start
    let next_monday ← Checked.i64 (this_monday + 7 * TICKS_PER_DAY)
    if is_newer then pure next_monday else Checked.i64 (next_monday + 7 * TICKS_PER_DAY)
  | .next_month => do
    let (year, month, this_month_start) ← month_of today_start
    let ahead ← day_ticks (days_in_month year month)
    let next_month_start ← Checked.i64 (this_month_start + ahead)
    if is_newer then pure next_month_start
    else do
      let next_days := if month = 12 then days_in_month (year + 1) 1 else days_in_month year (month + 1)
      let further ← day_ticks next_days
      Checked.i64 (next_month_start + further)
  | .next_year => if is_newer then year_after today_start 1 else year_after today_start 2

def parse_named_time_range (name : Str) (now_ft : Int) (is_newer : Bool) : Option (Checked ε Int) :=
  (named_range name).map fun range => range.resolve now_ft is_newer

/-- How far from the ends of the clock a range can be resolved: bounds on the present day, or instant. -/
def TimeRange.Room (range : TimeRange) (now_ft : Int) (is_newer : Bool) : Prop :=
  let today := now_ft.tdiv TICKS_PER_DAY
  match range with
  | .today | .this_week => True
  | .yesterday => is_newer = true → -10675198 ≤ today
  | .last_week => is_newer = true → -10675195 ≤ today
  | .this_month => -10675188 ≤ today
  | .last_month => (if is_newer then -10675157 else -10675188) ≤ today
  | .this_year => -10674943 ≤ today
  | .last_year => (if is_newer then -10674578 else -10674943) ≤ today
  | .last_days count => -2 ^ 63 + count * TICKS_PER_DAY ≤ now_ft
  | .next_day => today ≤ if is_newer then 10675198 else 10675197
  | .next_week => today ≤ if is_newer then 10675195 else 10675188
  | .next_month => -10675188 ≤ today ∧ today ≤ if is_newer then 10675185 else 10675154
  | .next_year => today ≤ if is_newer then 10674941 else 10674576

variable {today : Int}

theorem day_ticks_ne_panic : (day_ticks days : Checked ε Int) ≠ .panic ↔ -10675199 ≤ days ∧ days ≤ 10675199 := by
  rw [day_ticks, Checked.i64_ne_panic, TICKS_PER_DAY, TICKS_PER_SECOND]
  omega

theorem day_ticks_eq (h : -10675199 ≤ days ∧ days ≤ 10675199) :
    (day_ticks days : Checked ε Int) = .ok (days * TICKS_PER_DAY) := by
  rw [day_ticks, TICKS_PER_DAY, TICKS_PER_SECOND]
  exact Checked.i64_eq (by omega)

/-- Sums of whole days stay whole days. -/
theorem i64_days (days : Int) : (Checked.i64 (days * TICKS_PER_DAY) : Checked ε Int) = day_ticks days := rfl

theorem tdiv_day : (today * TICKS_PER_DAY).tdiv TICKS_PER_DAY = today := Int.mul_tdiv_cancel _ (by decide)

theorem monday_of_eq (h : -10675199 ≤ today ∧ today ≤ 10675199) :
    (monday_of (today * TICKS_PER_DAY) : Checked ε Int) = .ok (7 * today.tdiv 7 * TICKS_PER_DAY) := by
  have hsplit := Int.mul_tdiv_add_tmod today 7
  have hbounds : (-10675199 ≤ today.tmod 7 ∧ today.tmod 7 ≤ 10675199) ∧
      -10675199 ≤ 7 * today.tdiv 7 ∧ 7 * today.tdiv 7 ≤ 10675199 := by
    have hweek := tdiv_eq_ite today 7
    split at hweek <;> omega
  have hmonday : today - today.tmod 7 = 7 * today.tdiv 7 := by omega
  rw [monday_of, tdiv_day, day_ticks_eq hbounds.1, Checked.ok_bind, ← Int.sub_mul, hmonday, i64_days, day_ticks_eq hbounds.2]

/-- The months around a day, by their place among all months. -/
theorem month_of_eq (h : -10675199 ≤ today ∧ today ≤ 10675199) :
    (month_of (today * TICKS_PER_DAY) : Checked ε _) =
      (day_ticks (index_start (date_of (today + 584694)).month_index - 584694) >>= fun this_month_start =>
        pure ((date_of (today + 584694)).year, (date_of (today + 584694)).month, this_month_start)) := by
  have hvalid := date_of_valid (today + 584694)
  have hnumber := hvalid.day_number_eq
  rw [day_number_date_of] at hnumber
  have hlen := month_length_bounds (date_of (today + 584694)).year (date_of (today + 584694)).month
  have hday := hvalid.day_pos
  have hday' := hvalid.day_le
  have hstart : today - ((date_of (today + 584694)).day - 1) =
      index_start (date_of (today + 584694)).month_index - 584694 := by omega
  rw [month_of, tdiv_day, days_to_ymd_1601_eq (by omega) (by omega), Checked.ok_bind]
  dsimp only
  rw [day_ticks_eq (by omega), Checked.ok_bind, ← Int.sub_mul, hstart, i64_days]

/-- Lengths of the month and of its neighbours. -/
theorem month_lengths (h : date.Valid) :
    days_in_month date.year date.month = index_start (date.month_index + 1) - index_start date.month_index ∧
    (if date.month = 1 then days_in_month (date.year - 1) 12 else days_in_month date.year (date.month - 1)) =
      index_start date.month_index - index_start (date.month_index - 1) ∧
    (if date.month = 12 then days_in_month (date.year + 1) 1 else days_in_month date.year (date.month + 1)) =
      index_start (date.month_index + 2) - index_start (date.month_index + 1) := by
  obtain ⟨hyear, hmonth⟩ := h.index_parts
  have hlow := h.month_pos
  have hhigh := h.month_le
  have hhere := index_start_succ date.month_index
  have hbefore := index_start_succ (date.month_index - 1)
  have hafter := index_start_succ (date.month_index + 1)
  rw [Int.sub_add_cancel] at hbefore
  rw [hyear, hmonth] at hhere
  refine ⟨?_, ?_, ?_⟩
  · rw [days_in_month_eq hlow hhigh]
    omega
  · rw [hbefore, add_sub_cancel_left]
    split
    next hjanuary =>
      rw [days_in_month_eq (by decide) (by decide), show (date.month_index - 1) / 12 = date.year - 1 by omega,
        show (date.month_index - 1) % 12 + 1 = 12 by omega]
    next hlater =>
      rw [days_in_month_eq (by omega) (by omega), show (date.month_index - 1) / 12 = date.year by omega,
        show (date.month_index - 1) % 12 + 1 = date.month - 1 by omega]
  · rw [show date.month_index + 2 = date.month_index + 1 + 1 by omega, hafter, add_sub_cancel_left]
    split
    next hdecember =>
      rw [days_in_month_eq (by decide) (by decide), show (date.month_index + 1) / 12 = date.year + 1 by omega,
        show (date.month_index + 1) % 12 + 1 = 1 by omega]
    next hearlier =>
      rw [days_in_month_eq (by omega) (by omega), show (date.month_index + 1) / 12 = date.year by omega,
        show (date.month_index + 1) % 12 + 1 = date.month + 1 by omega]

theorem year_after_eq (h : -10675199 ≤ today ∧ today ≤ 10675199) {years : Int} (hyears : -2 ≤ years ∧ years ≤ 2) :
    (year_after (today * TICKS_PER_DAY) years : Checked ε Int) =
      day_ticks (index_start (12 * ((date_of (today + 584694)).year + years)) - 584694) := by
  have hvalid := date_of_valid (today + 584694)
  have hnumber := hvalid.day_number_eq
  rw [day_number_date_of] at hnumber
  have hfirst : day_number ⟨(date_of (today + 584694)).year + years, 1, 1⟩ =
      index_start (12 * ((date_of (today + 584694)).year + years)) := by
    rw [day_number, index_start_year, Int.add_sub_cancel]
  have hyear : -30000 ≤ (date_of (today + 584694)).year ∧ (date_of (today + 584694)).year ≤ 40000 := by
    have hparts := hvalid.index_parts.1
    have hlow : index_start (-360000) ≤ today + 584694 := by
      have : index_start (-360000) = -10957335 := by decide
      omega
    have hhigh : ¬ index_start 480000 ≤ today + 584694 := by
      have : index_start 480000 = 14609640 := by decide
      omega
    rw [index_start_le_iff] at hlow hhigh
    omega
  have hnear := index_start_mono (show -361000 ≤ 12 * ((date_of (today + 584694)).year + years) by omega)
  have hfar := index_start_mono (show 12 * ((date_of (today + 584694)).year + years) ≤ 481000 by omega)
  have hnear' : index_start (-361000) = -10987772 := by decide
  have hfar' : index_start 481000 = 14640076 := by decide
  rw [year_after, tdiv_day, days_to_ymd_1601_eq (by omega) (by omega), Checked.ok_bind]
  dsimp only
  rw [← hfirst] at hnear hfar ⊢
  have hdays := @ymd_to_days_1601_eq ε ⟨(date_of (today + 584694)).year + years, 1, 1⟩
    (show (0 : Int) ≤ 1 ∧ (1 : Int) < 2 ^ 20 by decide) (show (0 : Int) ≤ 1 ∧ (1 : Int) < 2 ^ 20 by decide) (.inr (le_refl _))
    (by omega) (by omega)
  rw [hdays, Checked.ok_bind]

/-- A bound on the start of a month is a bound on the month. -/
theorem index_start_bounds {low high index : Int} (hlow : index_start (low - 1) < -10675199 + 584694)
    (hlow' : -10675199 + 584694 ≤ index_start low) (hhigh : index_start high ≤ 10675199 + 584694)
    (hhigh' : 10675199 + 584694 < index_start (high + 1)) :
    (-10675199 ≤ index_start index - 584694 ∧ index_start index - 584694 ≤ 10675199) ↔ low ≤ index ∧ index ≤ high := by
  constructor
  · rintro ⟨hstart, hend⟩
    constructor
    · by_contra hbefore
      have := index_start_mono (show index ≤ low - 1 by omega)
      omega
    · by_contra hafter
      have := index_start_mono (show high + 1 ≤ index by omega)
      omega
  · rintro ⟨hstart, hend⟩
    have := index_start_mono hstart
    have := index_start_mono hend
    omega

/-- The months whose first day a clock of 64 bits has. -/
theorem month_ticks_ne_panic {index : Int} : (day_ticks (index_start index - 584694) : Checked ε Int) ≠ .panic ↔
    -331520 ≤ index ∧ index ≤ 369944 := by
  rw [day_ticks_ne_panic]
  exact index_start_bounds (by decide) (by decide) (by decide) (by decide)

theorem year_ticks_ne_panic {year : Int} : (day_ticks (index_start (12 * year) - 584694) : Checked ε Int) ≠ .panic ↔
    -27626 ≤ year ∧ year ≤ 30828 := by
  rw [month_ticks_ne_panic]
  omega

/-- A month has come from its first day on. -/
theorem month_index_ge_iff {index first : Int} (hfirst : index_start index - 584694 = first) :
    index ≤ (date_of (today + 584694)).month_index ↔ first ≤ today := by
  rw [← hfirst, ← index_start_le_iff]
  omega

theorem year_ge_iff {year first : Int} (hfirst : index_start (12 * year) - 584694 = first) :
    year ≤ (date_of (today + 584694)).year ↔ first ≤ today := by
  rw [← month_index_ge_iff hfirst, ← (date_of_valid (today + 584694)).index_parts.1]
  omega

theorem day_ticks_bind {f : Int → Checked ε Int} : (day_ticks days >>= f) ≠ .panic ↔
    (-10675199 ≤ days ∧ days ≤ 10675199) ∧ f (days * TICKS_PER_DAY) ≠ .panic := by
  rw [← @day_ticks_ne_panic ε]
  by_cases h : -10675199 ≤ days ∧ days ≤ 10675199
  · rw [day_ticks_eq h, Checked.ok_bind]
    exact ⟨fun hrest => ⟨Checked.ok_ne_panic, hrest⟩, fun hrest => hrest.2⟩
  · have hpanic : (day_ticks days : Checked ε Int) = .panic := not_not.mp (mt day_ticks_ne_panic.mp h)
    rw [hpanic]
    exact ⟨fun hne => absurd rfl hne, fun hne => absurd rfl hne.1⟩

/-- Going on from the month of a day. -/
theorem month_of_bind (h : -10675199 ≤ today ∧ today ≤ 10675199) {f : Int × Int × Int → Checked ε Int} :
    (month_of (today * TICKS_PER_DAY) >>= f) ≠ .panic ↔ -10675188 ≤ today ∧
      f ((date_of (today + 584694)).year, (date_of (today + 584694)).month,
        (index_start (date_of (today + 584694)).month_index - 584694) * TICKS_PER_DAY) ≠ .panic := by
  have hlow := @month_index_ge_iff today (-331520) (-10675188) (by decide)
  have hhigh := @month_index_ge_iff today 369945 10675216 (by decide)
  have hroom := @month_ticks_ne_panic ε (date_of (today + 584694)).month_index
  rw [month_of_eq h]
  by_cases hin : -10675188 ≤ today
  · have hfits := day_ticks_ne_panic.mp (hroom.mpr (by omega))
    rw [day_ticks_eq hfits]
    exact ⟨fun hrest => ⟨hin, hrest⟩, fun hrest => hrest.2⟩
  · have hpanic := not_not.mp (mt hroom.mp (by omega))
    rw [hpanic]
    exact ⟨fun hne => absurd rfl hne, fun hne => absurd hne.1 hin⟩

/-- A range is resolved without overflow exactly when there is room for it. -/
theorem TimeRange.resolve_ne_panic_iff {range : TimeRange} {now_ft : Int} {is_newer : Bool} (hnow : -2 ^ 63 ≤ now_ft ∧ now_ft < 2 ^ 63) :
    (range.resolve now_ft is_newer : Checked ε Int) ≠ .panic ↔ range.Room now_ft is_newer := by
  obtain ⟨today, htoday⟩ : ∃ today, today = now_ft.tdiv TICKS_PER_DAY := ⟨_, rfl⟩
  have hstart : now_ft - now_ft.tmod TICKS_PER_DAY = today * TICKS_PER_DAY := by
    have := Int.mul_tdiv_add_tmod now_ft TICKS_PER_DAY
    rw [htoday, Int.mul_comm]
    omega
  have hday : -10675199 ≤ today ∧ today ≤ 10675199 := by
    have hsplit := tdiv_eq_ite now_ft 864000000000
    have hsame : today = now_ft.tdiv 864000000000 := htoday
    split at hsplit <;> omega
  have hweek := tdiv_eq_ite today 7
  -- the months and years at the ends of the clock
  have hmonth_low := @month_index_ge_iff today (-331520) (-10675188) (by decide)
  have hmonth := @month_index_ge_iff today (-331519) (-10675157) (by decide)
  have hmonth' := @month_index_ge_iff today 369943 10675155 (by decide)
  have hmonth'' := @month_index_ge_iff today 369944 10675186 (by decide)
  have hmonth_end := @month_index_ge_iff today 369945 10675216 (by decide)
  have hyear := @year_ge_iff today (-27626) (-10674943) (by decide)
  have hyear' := @year_ge_iff today (-27625) (-10674578) (by decide)
  have hyear_low := @year_ge_iff today (-27627) (-10675308) (by decide)
  have hyear_end := @year_ge_iff today 30827 10674577 (by decide)
  have hyear_end' := @year_ge_iff today 30828 10674942 (by decide)
  have hyear_high := @year_ge_iff today 30829 10675308 (by decide)
  have hspans : ∀ index : Int, 28 ≤ index_start (index + 1) - index_start index ∧
      index_start (index + 1) - index_start index ≤ 31 := by
    intro index
    rw [index_start_succ, add_sub_cancel_left]
    exact month_length_bounds _ _
  have hyears : ∀ years : Int, -2 ≤ years ∧ years ≤ 2 → ((year_after (today * TICKS_PER_DAY) years : Checked ε Int) ≠ .panic ↔
      -27626 ≤ (date_of (today + 584694)).year + years ∧ (date_of (today + 584694)).year + years ≤ 30828) := by
    intro years hyears
    rw [year_after_eq hday hyears, year_ticks_ne_panic]
  unfold TimeRange.resolve TimeRange.Room
  rw [hstart, i64_days, day_ticks_eq hday, Checked.ok_bind, ← htoday]
  cases range with
  | today => exact iff_of_true Checked.ok_ne_panic trivial
  | yesterday =>
    cases is_newer with
    | false => exact iff_of_true Checked.ok_ne_panic (fun h => absurd h Bool.false_ne_true)
    | true =>
      have hback : today * TICKS_PER_DAY - TICKS_PER_DAY = (today - 1) * TICKS_PER_DAY := by rw [Int.sub_mul, Int.one_mul]
      rw [if_pos rfl, hback, i64_days, day_ticks_ne_panic]
      simp only [forall_const]
      omega
  | this_week =>
    rw [monday_of_eq hday]
    exact iff_of_true Checked.ok_ne_panic trivial
  | last_week =>
    dsimp only
    rw [monday_of_eq hday, Checked.ok_bind]
    cases is_newer with
    | false => exact iff_of_true Checked.ok_ne_panic (fun h => absurd h Bool.false_ne_true)
    | true =>
      rw [if_pos rfl, ← Int.sub_mul, i64_days, day_ticks_ne_panic]
      simp only [forall_const]
      split at hweek <;> omega
  | this_month =>
    rw [month_of_bind hday]
    exact and_iff_left Checked.ok_ne_panic
  | last_month =>
    rw [month_of_bind hday]
    cases is_newer with
    | false => exact and_iff_left Checked.ok_ne_panic
    | true =>
      obtain ⟨-, hprev, -⟩ := month_lengths (date_of_valid (today + 584694))
      dsimp only
      have hback := hspans ((date_of (today + 584694)).month_index - 1)
      rw [Int.sub_add_cancel] at hback
      have hstart : index_start (date_of (today + 584694)).month_index - 584694 -
          (index_start (date_of (today + 584694)).month_index - index_start ((date_of (today + 584694)).month_index - 1)) =
            index_start ((date_of (today + 584694)).month_index - 1) - 584694 := by omega
      rw [if_pos rfl, hprev, day_ticks_bind, ← Int.sub_mul, hstart, i64_days, month_ticks_ne_panic, if_pos rfl]
      omega
  | this_year =>
    rw [hyears 0 (by decide)]
    omega
  | last_year =>
    cases is_newer with
    | false =>
      dsimp only
      rw [if_neg Bool.false_ne_true, hyears 0 (by decide)]
      simp only [Bool.false_eq_true, if_false]
      omega
    | true =>
      dsimp only
      rw [if_pos rfl, hyears (-1) (by decide), if_pos rfl]
      omega
  | last_days count =>
    rw [Checked.i64_ne_panic, TICKS_PER_DAY, TICKS_PER_SECOND]
    omega
  | next_day =>
    cases is_newer with
    | false =>
      dsimp only
      rw [if_neg Bool.false_ne_true, ← Int.add_mul, i64_days, day_ticks_ne_panic]
      simp only [Bool.false_eq_true, if_false]
      omega
    | true =>
      have hahead : today * TICKS_PER_DAY + TICKS_PER_DAY = (today + 1) * TICKS_PER_DAY := by rw [Int.add_mul, Int.one_mul]
      dsimp only
      rw [if_pos rfl, hahead, i64_days, day_ticks_ne_panic, if_pos rfl]
      omega
  | next_week =>
    dsimp only
    rw [monday_of_eq hday, Checked.ok_bind, ← Int.add_mul, i64_days, day_ticks_bind]
    cases is_newer with
    | false =>
      rw [if_neg Bool.false_ne_true, ← Int.add_mul, i64_days, day_ticks_ne_panic]
      simp only [Bool.false_eq_true, if_false]
      split at hweek <;> omega
    | true =>
      rw [if_pos rfl, if_pos rfl, Checked.pure_eq, and_iff_left Checked.ok_ne_panic]
      split at hweek <;> omega
  | next_month =>
    obtain ⟨hlength, -, hnext⟩ := month_lengths (date_of_valid (today + 584694))
    have hahead := hspans (date_of (today + 584694)).month_index
    have hfurther := hspans ((date_of (today + 584694)).month_index + 1)
    rw [show (date_of (today + 584694)).month_index + 1 + 1 = (date_of (today + 584694)).month_index + 2 by omega] at hfurther
    have hstart : index_start (date_of (today + 584694)).month_index - 584694 +
        (index_start ((date_of (today + 584694)).month_index + 1) - index_start (date_of (today + 584694)).month_index) =
          index_start ((date_of (today + 584694)).month_index + 1) - 584694 := by omega
    have hstart' : index_start ((date_of (today + 584694)).month_index + 1) - 584694 +
        (index_start ((date_of (today + 584694)).month_index + 2) - index_start ((date_of (today + 584694)).month_index + 1)) =
          index_start ((date_of (today + 584694)).month_index + 2) - 584694 := by omega
    have hrange := (@day_ticks_ne_panic ε _).symm.trans (@month_ticks_ne_panic ε ((date_of (today + 584694)).month_index + 1))
    rw [month_of_bind hday]
    dsimp only
    rw [hlength, day_ticks_bind, ← Int.add_mul, hstart, i64_days, day_ticks_bind, hrange]
    cases is_newer with
    | false =>
      rw [if_neg Bool.false_ne_true, hnext, day_ticks_bind, ← Int.add_mul, hstart', i64_days, month_ticks_ne_panic]
      simp only [Bool.false_eq_true, if_false]
      omega
    | true =>
      rw [if_pos rfl, if_pos rfl, Checked.pure_eq, and_iff_left Checked.ok_ne_panic]
      clear hlength hnext
      omega
  | next_year =>
    cases is_newer with
    | false =>
      dsimp only
      rw [if_neg Bool.false_ne_true, hyears 2 (by decide)]
      simp only [Bool.false_eq_true, if_false]
      omega
    | true =>
      dsimp only
      rw [if_pos rfl, hyears 1 (by decide), if_pos rfl]
      omega

end ranges

section bounds

def decimal_value (digits : Str) : Nat := digits.foldl (fun value ch => 10 * value + (ch.toNat - 48)) 0

/-- `str::parse::<i64>`: a sign and digits, in range. -/
def parse_i64 (text : Str) : Option Int :=
  let negative := text.head? = some '-'
  let digits := if text.head? = some '-' ∨ text.head? = some '+' then text.tail else text
  if digits.isEmpty || !digits.all Char.isDigit then none
  else
    let value : Int := if negative then -decimal_value digits else decimal_value digits
    if -2 ^ 63 ≤ value ∧ value < 2 ^ 63 then some value else none

/-- The fields of a text with the form of an ISO date. -/
def iso_fields (trimmed : Str) : Option (Int × Int × Int) :=
  if (as_bytes trimmed).length = 10 ∧ (as_bytes trimmed)[4]? = some 0x2D then
    match split '-' trimmed with
    | [year_s, month_s, day_s] =>
      match parse_i64 year_s, parse_i64 month_s, parse_i64 day_s with
      | some year, some month, some day => some (year, month, day)
      | _, _, _ => none
    | _ => none
  else none

def parse_iso_date (trimmed : Str) : Checked Unit Int :=
  match iso_fields trimmed with
  | some (year, month, day) => ymd_to_days_1601 year month day >>= day_ticks
  | none => .error ()

/-- `split_at` the last byte, which panics inside a character. -/
def split_suffix (text : Str) : Option (Str × Char) :=
  match text.getLast? with
  | some last => if last.toNat < 0x80 then some (text.dropLast, last) else none
  | none => none

/-- The ticks of so many units; `error` for a suffix that is none. -/
def duration_ticks (count : Int) (suffix : Char) : Checked Unit Int :=
  if suffix = 's' then Checked.i64 (count * TICKS_PER_SECOND)
  else if suffix = 'm' then Checked.i64 (count * 60) >>= fun secs => Checked.i64 (secs * TICKS_PER_SECOND)
  else if suffix = 'h' then Checked.i64 (count * 3600) >>= fun secs => Checked.i64 (secs * TICKS_PER_SECOND)
  else if suffix = 'd' then Checked.i64 (count * TICKS_PER_DAY)
  else if suffix = 'w' then Checked.i64 (count * 7) >>= fun days => Checked.i64 (days * TICKS_PER_DAY)
  else .error ()

/-- The time that a text bounds; `error` stands for `None`. -/
def parse_time_bound (spec : Str) (now_ft : Int) (is_newer : Bool) : Checked Unit Int :=
  let trimmed := trim spec
  match parse_named_time_range trimmed now_ft is_newer with
  | some ts => ts
  | none =>
    if 2 ≤ (as_bytes trimmed).length then
      match split_suffix trimmed with
      | none => .panic
      | some (num_str, suffix) =>
        match parse_i64 num_str with
        | some count => duration_ticks count suffix >>= fun delta => Checked.i64 (now_ft - delta)
        | none => parse_iso_date trimmed
    else parse_iso_date trimmed

/-- Ticks of the units of a duration. -/
def unit_ticks (suffix : Char) : Option Int :=
  if suffix = 's' then some 10000000
  else if suffix = 'm' then some 600000000
  else if suffix = 'h' then some 36000000000
  else if suffix = 'd' then some 864000000000
  else if suffix = 'w' then some 6048000000000
  else none

/-- No crash, and no date that the calendar does not have. -/
structure NeverCrashes (spec : Str) (now_ft : Int) (is_newer : Bool) : Prop where
  bound : parse_time_bound spec now_ft is_newer ≠ .panic
  range : parse_named_time_range (trim spec) now_ft is_newer ≠ some (.panic : Checked Unit Int)
  date : ∀ ticks, parse_iso_date (trim spec) = .ok ticks →
    ∃ date : Date, iso_fields (trim spec) = some (date.year, date.month, date.day) ∧ Civil date

/-- A range with room, a duration from within the clock, a date of the calendar, or a text that is none of them and
does not end inside a character. -/
structure Plain (spec : Str) (now_ft : Int) (is_newer : Bool) : Prop where
  range : ∀ range, named_range (trim spec) = some range → range.Room now_ft is_newer
  last : named_range (trim spec) = none → ∀ last, (trim spec).getLast? = some last → last.toNat < 0x80
  duration : named_range (trim spec) = none → ∀ front last count unit, trim spec = front ++ [last] → parse_i64 front = some count →
    unit_ticks last = some unit → (-2 ^ 63 ≤ count * unit ∧ count * unit < 2 ^ 63) ∧
      -2 ^ 63 ≤ now_ft - count * unit ∧ now_ft - count * unit < 2 ^ 63
  date : ∀ year month day, iso_fields (trim spec) = some (year, month, day) → Civil ⟨year, month, day⟩

variable {text : Str} {now_ft : Int} {is_newer : Bool}

/-- A product that overflows stays one when it is multiplied on. -/
theorem i64_mul_mul {value factor : Int} (hfactor : 1 ≤ factor) :
    ((Checked.i64 value : Checked ε Int) >>= fun whole => Checked.i64 (whole * factor)) = Checked.i64 (value * factor) := by
  by_cases h : -2 ^ 63 ≤ value ∧ value < 2 ^ 63
  · rw [Checked.i64_eq h, Checked.ok_bind]
  · have hwide : ¬ (-2 ^ 63 ≤ value * factor ∧ value * factor < 2 ^ 63) := by
      rcases le_total 0 value with hpos | hneg
      · have := Int.mul_le_mul_of_nonneg_left hfactor hpos
        omega
      · have := Int.mul_le_mul_of_nonpos_left hneg hfactor
        omega
    rw [Checked.i64_eq_panic h, Checked.i64_eq_panic hwide]
    rfl

theorem duration_ticks_eq (count : Int) (suffix : Char) :
    (unit_ticks suffix = none ∧ duration_ticks count suffix = .error ()) ∨
      ∃ unit, unit_ticks suffix = some unit ∧ duration_ticks count suffix = Checked.i64 (count * unit) := by
  have hsecs : (1 : Int) ≤ TICKS_PER_SECOND := by decide
  have hdays : (1 : Int) ≤ TICKS_PER_DAY := by decide
  unfold unit_ticks duration_ticks
  split_ifs
  · exact .inr ⟨_, rfl, rfl⟩
  · exact .inr ⟨_, rfl, by rw [i64_mul_mul hsecs, Int.mul_assoc]; rfl⟩
  · exact .inr ⟨_, rfl, by rw [i64_mul_mul hsecs, Int.mul_assoc]; rfl⟩
  · exact .inr ⟨_, rfl, rfl⟩
  · exact .inr ⟨_, rfl, by rw [i64_mul_mul hdays, Int.mul_assoc]; rfl⟩
  · exact .inl ⟨rfl, rfl⟩

theorem decimal_value_lt {digits : Str} (hdigits : digits.all Char.isDigit = true) :
    decimal_value digits < 10 ^ digits.length := by
  have hrun : ∀ (list : Str) (start : Nat), list.all Char.isDigit = true →
      list.foldl (fun value ch => 10 * value + (ch.toNat - 48)) start < (start + 1) * 10 ^ list.length := by
    intro list
    induction list with
    | nil =>
      intro start _
      rw [List.foldl_nil, List.length_nil, Nat.pow_zero]
      omega
    | cons ch rest ih =>
      intro start hall
      rw [List.all_cons, Bool.and_eq_true] at hall
      have hch : ch.toNat ≤ 57 := by
        have hrange : decide (48 ≤ ch.val) && decide (ch.val ≤ 57) := hall.1
        rw [Bool.and_eq_true, decide_eq_true_eq, decide_eq_true_eq] at hrange
        exact UInt32.le_iff_toNat_le.mp hrange.2
      rw [List.foldl_cons, List.length_cons, Nat.pow_succ']
      refine Nat.lt_of_lt_of_le (ih _ hall.2) ?_
      rw [← Nat.mul_assoc]
      exact Nat.mul_le_mul_right _ (by omega)
  have := hrun digits 0 hdigits
  rwa [Nat.zero_add, Nat.one_mul] at this

theorem parse_i64_digits {value : Int} (h : parse_i64 text = some value) : ∃ digits : Str, digits ≠ [] ∧
    digits.all Char.isDigit = true ∧ (text = digits ∨ ∃ sign, text = sign :: digits ∧ (sign = '-' ∨ sign = '+')) ∧
      value.natAbs = decimal_value digits := by
  unfold parse_i64 at h
  dsimp only at h
  obtain ⟨digits, hdigits⟩ : ∃ digits, digits = if text.head? = some '-' ∨ text.head? = some '+' then text.tail else text := ⟨_, rfl⟩
  rw [← hdigits] at h
  split at h
  next => cases h
  next hsome =>
    rw [Bool.or_eq_true, not_or, Bool.not_eq_true', List.isEmpty_iff] at hsome
    refine ⟨digits, hsome.1, by simpa using hsome.2, ?_, ?_⟩
    · split at hdigits
      next hsign =>
        refine .inr ?_
        rcases hsign with hsign | hsign
        all_goals
          obtain ⟨rest, hrest⟩ := List.head?_eq_some_iff.mp hsign
          rw [hrest, List.tail_cons] at hdigits
          exact ⟨_, hdigits ▸ hrest, by decide⟩
      next => exact .inl hdigits.symm
    · obtain ⟨hrange, hvalue⟩ := Option.ite_none_right_eq_some.mp h
      rw [← Option.some.inj hvalue]
      split
      · rw [Int.natAbs_neg, Int.natAbs_natCast]
      · rw [Int.natAbs_natCast]

theorem digit_ascii {ch : Char} (h : ch.isDigit = true) : ch.toNat < 0x80 ∧ ch ≠ '-' := by
  have hrange : decide (48 ≤ ch.val) && decide (ch.val ≤ 57) := h
  rw [Bool.and_eq_true, decide_eq_true_eq, decide_eq_true_eq, UInt32.le_iff_toNat_le, UInt32.le_iff_toNat_le] at hrange
  have hlow : 48 ≤ ch.toNat := hrange.1
  have hhigh : ch.toNat ≤ 57 := hrange.2
  refine ⟨by omega, ?_⟩
  rintro rfl
  exact absurd hlow (by decide)

theorem parse_i64_lt {value : Int} (h : parse_i64 text = some value) : value.natAbs < 10 ^ text.length := by
  obtain ⟨digits, _, hdigits, htext, hvalue⟩ := parse_i64_digits h
  rw [hvalue]
  refine Nat.lt_of_lt_of_le (decimal_value_lt hdigits) (Nat.pow_le_pow_right (by decide) ?_)
  rcases htext with rfl | ⟨sign, rfl, _⟩
  · exact le_refl _
  · exact Nat.le_succ _

/-- A number has no dash behind its first character, and ends in a digit. -/
theorem parse_i64_shape {value : Int} (h : parse_i64 text = some value) :
    '-' ∉ text.tail ∧ ∃ last, text.getLast? = some last ∧ last.isDigit = true := by
  obtain ⟨digits, hne, hdigits, htext, _⟩ := parse_i64_digits h
  rw [List.all_eq_true] at hdigits
  have hlast := hdigits _ (List.getLast_mem hne)
  have hdash : '-' ∉ digits := fun hmem => (digit_ascii (hdigits _ hmem)).2 rfl
  rcases htext with rfl | ⟨sign, rfl, _⟩
  · exact ⟨fun hmem => hdash (List.mem_of_mem_tail hmem), _, List.getLast?_eq_some_getLast hne, hlast⟩
  · refine ⟨hdash, _, ?_, hlast⟩
    rw [List.getLast?_cons, List.getLast?_eq_some_getLast hne]
    rfl

variable {year month day : Int}

/-- A text with the form of an ISO date: three numbers between dashes, the first of at most four bytes. -/
theorem iso_fields_shape (h : iso_fields text = some (year, month, day)) :
    ∃ year_s month_s day_s : Str, text = year_s ++ '-' :: (month_s ++ '-' :: day_s) ∧ year_s.length ≤ 4 ∧ month_s.length ≤ 10 ∧
      day_s.length ≤ 10 ∧ '-' ∉ year_s ∧ parse_i64 year_s = some year ∧ parse_i64 month_s = some month ∧
        parse_i64 day_s = some day := by
  unfold iso_fields at h
  split at h
  next hform =>
    obtain ⟨hlen, hdash⟩ := hform
    split at h
    next year_s month_s day_s hsplit =>
      split at h
      next year' month' day' hyear hmonth hday =>
        cases h
        have hjoin := join_split '-' text
        rw [hsplit] at hjoin
        have htext : text = year_s ++ '-' :: (month_s ++ '-' :: day_s) := hjoin.symm
        have hpiece : '-' ∉ year_s := @not_mem_of_mem_split _ _ _ text _ (hsplit ▸ List.mem_cons_self)
        have hbytes := length_le_as_bytes text
        rw [hlen, htext, List.length_append, List.length_cons, List.length_append, List.length_cons] at hbytes
        refine ⟨year_s, month_s, day_s, htext, ?_, by omega, by omega, hpiece, hyear, hmonth, hday⟩
        by_contra hlong
        have hyear_bytes := length_le_as_bytes year_s
        rw [htext, as_bytes_append, List.getElem?_append_left (by omega)] at hdash
        exact hpiece (@mem_of_ascii_byte _ '-' (by decide) (List.mem_of_getElem? hdash))
      next => cases h
    next => cases h
  next => cases h

/-- Such a text is no duration. -/
theorem iso_fields_not_duration (h : iso_fields text = some (year, month, day)) :
    ∃ front last, split_suffix text = some (front, last) ∧ parse_i64 front = none := by
  obtain ⟨year_s, month_s, day_s, htext, _, _, _, _, hyear, _, hday⟩ := iso_fields_shape h
  obtain ⟨_, last, hlast, hdigit⟩ := parse_i64_shape hday
  have hyear_ne : year_s ≠ [] := by
    rintro rfl
    cases hyear
  have hend : text.getLast? = some last := by
    rw [htext, List.getLast?_append, List.getLast?_cons, List.getLast?_append, List.getLast?_cons, hlast]
    rfl
  refine ⟨text.dropLast, last, ?_, ?_⟩
  · rw [split_suffix, hend]
    exact if_pos (digit_ascii hdigit).1
  · by_contra hnumber
    obtain ⟨value, hvalue⟩ := Option.ne_none_iff_exists'.mp hnumber
    obtain ⟨hdash, _⟩ := parse_i64_shape hvalue
    obtain ⟨first, rest, rfl⟩ := List.exists_cons_of_ne_nil hyear_ne
    apply hdash
    rw [htext, List.dropLast_append_of_ne_nil (List.cons_ne_nil _ _), List.cons_append, List.tail_cons]
    refine List.mem_append_right _ ?_
    rw [List.dropLast_cons_of_ne_nil (List.append_ne_nil_of_right_ne_nil _ (List.cons_ne_nil _ _))]
    exact List.mem_cons_self

theorem ymd_to_days_ne_error {e : ε} : ymd_to_days_1601 year month day ≠ .error e := by
  have hpure : ∀ value : Int, (pure value : Checked ε Int) ≠ .error e := by
    intro value h
    cases h
  unfold ymd_to_days_1601
  repeat' refine Checked.bind_ne_error ?_ fun _ => ?_
  all_goals first
    | exact Checked.in_range_ne_error
    | split <;> first
      | exact Checked.in_range_ne_error
      | exact hpure _

theorem parse_iso_date_eq (h : iso_fields text = some (year, month, day)) :
    parse_iso_date text = (ymd_to_days_1601 year month day >>= day_ticks) := by
  rw [parse_iso_date, h]

/-- A date of the calendar is turned into ticks; nothing else may be. -/
theorem parse_iso_date_civil (h : iso_fields text = some (year, month, day)) :
    (parse_iso_date text ≠ .panic ∧ ∀ ticks, parse_iso_date text = .ok ticks → Civil ⟨year, month, day⟩) ↔
      Civil ⟨year, month, day⟩ := by
  constructor
  · rintro ⟨hsafe, hdate⟩
    cases hresult : parse_iso_date text with
    | panic => exact absurd hresult hsafe
    | error e =>
      rw [parse_iso_date_eq h] at hresult
      exact absurd hresult (Checked.bind_ne_error ymd_to_days_ne_error fun _ => Checked.in_range_ne_error)
    | ok ticks => exact hdate ticks hresult
  · intro hcivil
    refine ⟨?_, fun _ _ => hcivil⟩
    obtain ⟨year_s, month_s, day_s, _, hlen, _, _, _, hyear, _⟩ := iso_fields_shape h
    have hbound := Nat.lt_of_lt_of_le (parse_i64_lt hyear) (Nat.pow_le_pow_right (by decide) hlen)
    have hvalid := civil_iff.mp hcivil
    have hnumber := hvalid.day_number_eq
    have hlength := month_length_bounds year month
    obtain ⟨hmonth, hmonth', hday, hday'⟩ := hvalid
    dsimp only at hmonth hmonth' hday hday'
    have hlow := index_start_mono (show -120001 ≤ (⟨year, month, day⟩ : Date).month_index by
      dsimp only [Date.month_index]
      omega)
    have hhigh := index_start_mono (show (⟨year, month, day⟩ : Date).month_index ≤ 120000 by
      dsimp only [Date.month_index]
      omega)
    have hfirst : index_start (-120001) = -3652516 := by decide
    have hlast : index_start 120000 = 3652365 := by decide
    dsimp only at hnumber
    rw [parse_iso_date_eq h, days_of_civil hcivil (by omega) (by omega), Checked.ok_bind, day_ticks_ne_panic]
    omega

theorem named_range_dash {range : TimeRange} (h : named_range text = some range) : '-' ∉ text := by
  obtain ⟨entry, hentry, rfl⟩ := Option.map_eq_some_iff.mp h
  have hname := List.find?_some hentry
  rw [decide_eq_true_eq] at hname
  have hplain : range_names.all (fun entry => !entry.1.toList.contains '-') = true := by decide
  have hentry' := List.all_eq_true.mp hplain entry (List.mem_of_find?_eq_some hentry)
  rw [Bool.not_eq_true', List.contains_eq_mem, decide_eq_false_iff_not, hname] at hentry'
  exact fun hdash => hentry' (List.mem_map_of_mem (f := Char.toLower) hdash)

theorem split_suffix_eq {front : Str} {last : Char} (h : split_suffix text = some (front, last)) :
    text = front ++ [last] ∧ last.toNat < 0x80 := by
  unfold split_suffix at h
  split at h
  next last' hlast =>
    obtain ⟨hascii, hpair⟩ := Option.ite_none_right_eq_some.mp h
    cases hpair
    obtain ⟨front, htext⟩ := List.getLast?_eq_some_iff.mp hlast
    rw [htext, List.dropLast_concat]
    exact ⟨rfl, hascii⟩
  next => cases h

theorem two_le_utf8Size {ch : Char} (h : 0x80 ≤ ch.toNat) : 2 ≤ ch.utf8Size := by
  have hpos := ch.utf8Size_pos
  have hone : ch.utf8Size ≠ 1 := by
    rw [ne_eq, Char.utf8Size_eq_one_iff, UInt32.le_iff_toNat_le]
    exact Nat.not_le.mpr h
  omega

section unnamed

variable {spec : Str} (hnamed : named_range (trim spec) = none)
include hnamed

/-- A text that names no range and ends in a byte: a duration when the rest is a number, else perhaps a date. -/
theorem parse_unnamed {front : Str} {last : Char} (htext : trim spec = front ++ [last]) (hascii : last.toNat < 0x80) :
    parse_time_bound spec now_ft is_newer =
      ((parse_i64 front).map fun count => duration_ticks count last >>= fun delta => Checked.i64 (now_ft - delta)).getD
        (parse_iso_date (trim spec)) := by
  have hrange : (parse_named_time_range (trim spec) now_ft is_newer : Option (Checked Unit Int)) = none := by
    rw [parse_named_time_range, hnamed]
    rfl
  have hsuffix : split_suffix (trim spec) = some (front, last) := by
    rw [split_suffix, htext, List.getLast?_concat, List.dropLast_concat]
    exact if_pos hascii
  simp only [parse_time_bound, hrange, hsuffix]
  by_cases hlong : 2 ≤ (as_bytes (trim spec)).length
  · rw [if_pos hlong]
    cases parse_i64 front <;> rfl
  · rw [if_neg hlong]
    have hshort := length_le_as_bytes (trim spec)
    rw [htext, List.length_append, List.length_singleton] at hshort
    rw [htext] at hlong
    obtain rfl : front = [] := List.length_eq_zero_iff.mp (by omega)
    rfl

/-- Inside a character the split panics. -/
theorem parse_unnamed_panic {last : Char} (hlast : (trim spec).getLast? = some last) (hwide : 0x80 ≤ last.toNat) :
    parse_time_bound spec now_ft is_newer = .panic := by
  have hrange : (parse_named_time_range (trim spec) now_ft is_newer : Option (Checked Unit Int)) = none := by
    rw [parse_named_time_range, hnamed]
    rfl
  have hsuffix : split_suffix (trim spec) = none := by
    rw [split_suffix, hlast]
    exact if_neg (Nat.not_lt.mpr hwide)
  have hlong : 2 ≤ (as_bytes (trim spec)).length := by
    obtain ⟨front, htext⟩ := List.getLast?_eq_some_iff.mp hlast
    rw [htext, as_bytes_append, as_bytes_singleton, List.length_append, String.length_utf8EncodeChar]
    have := two_le_utf8Size hwide
    omega
  simp only [parse_time_bound, hrange, hsuffix, hlong, if_true]

end unnamed

theorem duration_ne_panic {count : Int} {last : Char} :
    (duration_ticks count last >>= fun delta => Checked.i64 (now_ft - delta)) ≠ .panic ↔
      ∀ unit, unit_ticks last = some unit → (-2 ^ 63 ≤ count * unit ∧ count * unit < 2 ^ 63) ∧
        -2 ^ 63 ≤ now_ft - count * unit ∧ now_ft - count * unit < 2 ^ 63 := by
  rcases duration_ticks_eq count last with ⟨hnone, hresult⟩ | ⟨unit, hunit, hresult⟩
  · rw [hresult, hnone]
    refine iff_of_true Checked.error_ne_panic ?_
    rintro unit ⟨⟩
  · rw [hresult, hunit, Checked.bind_ne_panic, Checked.i64_ne_panic]
    constructor
    · rintro ⟨hfits, hrest⟩ other hother
      cases hother
      exact ⟨hfits, Checked.i64_ne_panic.mp (hrest _ (Checked.i64_eq hfits))⟩
    · intro h
      obtain ⟨hfits, hrest⟩ := h unit rfl
      refine ⟨hfits, fun delta hdelta => ?_⟩
      rw [Checked.i64_eq hfits] at hdelta
      cases hdelta
      exact Checked.i64_ne_panic.mpr hrest

/-- Time bounds are parsed safely exactly when the text is plain: what the clock has no room for
overflows, a last character of several bytes is cut, and a date is not checked against its month. -/
theorem time_bound_safe_iff (spec : Str) (now : Int64) (is_newer : Bool) :
    NeverCrashes spec now.toInt is_newer ↔ Plain spec now.toInt is_newer := by
  have hnow : -2 ^ 63 ≤ now.toInt ∧ now.toInt < 2 ^ 63 := ⟨now.le_toInt, now.toInt_lt⟩
  cases hnamed : named_range (trim spec) with
  | some range =>
    have hiso : iso_fields (trim spec) = none := by
      by_contra hsome
      obtain ⟨⟨year, month, day⟩, hfields⟩ := Option.ne_none_iff_exists'.mp hsome
      obtain ⟨year_s, _, _, htext, _⟩ := iso_fields_shape hfields
      exact named_range_dash hnamed (htext ▸ List.mem_append_right year_s List.mem_cons_self)
    have hrange : (parse_named_time_range (trim spec) now.toInt is_newer : Option (Checked Unit Int)) =
        some (range.resolve now.toInt is_newer) := by
      rw [parse_named_time_range, hnamed]
      rfl
    have hbound : parse_time_bound spec now.toInt is_newer = range.resolve now.toInt is_newer := by
      simp only [parse_time_bound, hrange]
    have hroom := @TimeRange.resolve_ne_panic_iff Unit range now.toInt is_newer hnow
    constructor
    · intro h
      refine ⟨fun other hother => ?_, fun hnone => ?_, fun hnone => ?_, fun year month day hfields => ?_⟩
      · cases hnamed.symm.trans hother
        exact hroom.mp (hbound ▸ h.bound)
      · cases hnamed.symm.trans hnone
      · cases hnamed.symm.trans hnone
      · cases hiso.symm.trans hfields
    · intro h
      have hsafe := hroom.mpr (h.range range hnamed)
      refine ⟨hbound ▸ hsafe, ?_, ?_⟩
      · rw [hrange]
        exact fun heq => hsafe (Option.some.inj heq)
      · intro ticks hticks
        rw [parse_iso_date, hiso] at hticks
        cases hticks
  | none =>
    constructor
    · intro h
      have hascii : ∀ last, (trim spec).getLast? = some last → last.toNat < 0x80 := by
        intro last hlast
        by_contra hwide
        exact h.bound (parse_unnamed_panic hnamed hlast (Nat.le_of_not_lt hwide))
      refine ⟨fun range hrange => ?_, fun _ => hascii, fun _ front last count unit htext hcount hunit => ?_,
        fun year month day hfields => ?_⟩
      · cases hnamed.symm.trans hrange
      · have hbound := h.bound
        rw [parse_unnamed hnamed htext (hascii last (by rw [htext, List.getLast?_concat])), hcount] at hbound
        exact duration_ne_panic.mp hbound unit hunit
      · obtain ⟨front, last, hsuffix, hnumber⟩ := iso_fields_not_duration hfields
        have hbound := h.bound
        obtain ⟨htext, hlast⟩ := split_suffix_eq hsuffix
        rw [parse_unnamed hnamed htext hlast, hnumber] at hbound
        refine (parse_iso_date_civil hfields).mp ⟨hbound, fun ticks hticks => ?_⟩
        obtain ⟨date, hdate, hcivil⟩ := h.date ticks hticks
        cases hfields.symm.trans hdate
        exact hcivil
    · intro h
      have hdate : parse_iso_date (trim spec) ≠ .panic ∧ ∀ ticks, parse_iso_date (trim spec) = .ok ticks →
          ∃ date : Date, iso_fields (trim spec) = some (date.year, date.month, date.day) ∧ Civil date := by
        cases hfields : iso_fields (trim spec) with
        | none =>
          have herror : parse_iso_date (trim spec) = .error () := by
            rw [parse_iso_date, hfields]
          rw [herror]
          exact ⟨Checked.error_ne_panic, by rintro _ ⟨⟩⟩
        | some fields =>
          obtain ⟨year, month, day⟩ := fields
          have hcivil := h.date year month day hfields
          exact ⟨((parse_iso_date_civil hfields).mpr hcivil).1, fun _ _ => ⟨⟨year, month, day⟩, rfl, hcivil⟩⟩
      refine ⟨?_, ?_, hdate.2⟩
      · rcases List.eq_nil_or_concat (trim spec) with hempty | ⟨front, last, htext⟩
        · have hiso : parse_time_bound spec now.toInt is_newer = parse_iso_date (trim spec) := by
            simp only [parse_time_bound, parse_named_time_range, hempty]
            rfl
          exact hiso ▸ hdate.1
        · rw [List.concat_eq_append] at htext
          have hascii := h.last hnamed last (by rw [htext, List.getLast?_concat])
          rw [parse_unnamed hnamed htext hascii]
          cases hcount : parse_i64 front with
          | none => exact hdate.1
          | some count => exact duration_ne_panic.mpr fun unit hunit => h.duration hnamed front last count unit htext hcount hunit
      · rw [parse_named_time_range, hnamed]
        rintro ⟨⟩

/-- A text that ends in a character of several bytes is split inside it. -/
theorem time_bound_crashes : ¬ ∀ (spec : Str) (now : Int64) (is_newer : Bool), NeverCrashes spec now.toInt is_newer := by
  intro h
  have hlast : (trim "7日".toList).getLast? = some '日' := by decide
  exact (h _ 133485408000000000 true).bound (parse_unnamed_panic (by decide) hlast (by decide))

end bounds

end uffs.search.time
