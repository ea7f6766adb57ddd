import Uffs.Aggregate.Accumulators
import Uffs.Search.TimeParsing

open uffs.lib uffs.lib.civil uffs.search.time

namespace uffs.time

/-! Ticks of a FILETIME as a date and a time of day. -/

variable {ε : Type}

def FILETIME_TICKS_PER_SECOND : Int := 10000000

structure CalendarParts where
  year : Int
  month : Int
  day : Int
  hour : Int
  minute : Int
  second : Int
deriving DecidableEq

/-- The cast `as u32`. -/
def as_u32 (value : Int) : Int := value % 2 ^ 32

/-- The cast `as i32`. -/
def as_i32 (value : Int) : Int := value.bmod (2 ^ 32)

/-- The date and time of day of a FILETIME; none for an unset one. -/
def filetime_to_calendar (filetime : Int) : Checked ε (Option CalendarParts) :=
  if filetime = 0 then pure none
  else do
    let total_secs := filetime.tdiv FILETIME_TICKS_PER_SECOND
    let days_since_1601 := total_secs / 86400
    let day_secs := total_secs % 86400
    let hour := as_u32 (day_secs.tdiv 3600)
    let minute := as_u32 ((day_secs.tmod 3600).tdiv 60)
    let second := as_u32 (day_secs.tmod 60)
    let (era, left) ← era_of_days days_since_1601
    let (year, month, day) ← ymd_of_era era (as_u32 left)
    pure (some { year := as_i32 year, month, day, hour, minute, second })

/-- The bias is added in ticks. -/
def filetime_with_tz_bias (filetime tz_bias_secs : Int) : Checked ε Int := do
  let bias ← Checked.i64 (tz_bias_secs * FILETIME_TICKS_PER_SECOND)
  Checked.i64 (filetime + bias)

/-- What the output formats print of a timestamp. -/
def render (filetime tz_bias_secs : Int) : Checked ε (Option CalendarParts) :=
  filetime_with_tz_bias filetime tz_bias_secs >>= filetime_to_calendar

section civil

/-- The date and time of day a number of seconds after 1601-01-01. -/
def civil_time (secs : Int) : CalendarParts :=
  let date := date_of (secs / 86400 + 584694)
  let rest := secs % 86400
  { year := date.year, month := date.month, day := date.day, hour := rest / 3600, minute := rest % 3600 / 60, second := rest % 60 }

/-- The order of dates and times of day. -/
def CalendarParts.Before (one other : CalendarParts) : Prop :=
  (⟨one.year, one.month, one.day⟩ : Date).Before ⟨other.year, other.month, other.day⟩ ∨
    (one.year = other.year ∧ one.month = other.month ∧ one.day = other.day) ∧
      (one.hour < other.hour ∨ one.hour = other.hour ∧
        (one.minute < other.minute ∨ one.minute = other.minute ∧ one.second < other.second))

theorem civil_time_before {one other : Int} (h : one < other) : (civil_time one).Before (civil_time other) := by
  obtain hdays | hdays : one / 86400 < other / 86400 ∨ one / 86400 = other / 86400 := by omega
  · exact .inl (date_of_before_iff.mpr (by omega))
  · refine .inr ⟨?_, ?_⟩
    · simp only [civil_time, hdays, and_self]
    · dsimp only [civil_time]
      omega

theorem CalendarParts.not_before_self (parts : CalendarParts) : ¬ parts.Before parts := by
  simp only [CalendarParts.Before, Date.Before]
  omega

theorem civil_time_injective {one other : Int} (h : civil_time one = civil_time other) : one = other := by
  rcases lt_trichotomy one other with hlt | heq | hgt
  · exact absurd (h ▸ civil_time_before hlt) (CalendarParts.not_before_self _)
  · exact heq
  · exact absurd (h ▸ civil_time_before hgt) (CalendarParts.not_before_self _)

end civil

theorem as_u32_eq {value : Int} (h : 0 ≤ value ∧ value < 2 ^ 32) : as_u32 value = value := Int.emod_eq_of_lt h.1 h.2

theorem as_i32_eq {value : Int} (h : -2 ^ 31 ≤ value ∧ value < 2 ^ 31) : as_i32 value = value := by
  rw [as_i32, Int.bmod_eq_of_le_mul_two] <;> omega

theorem secs_bounds {filetime : Int} (hrange : -2 ^ 63 ≤ filetime ∧ filetime < 2 ^ 63) :
    -2 ^ 41 ≤ filetime.tdiv 10000000 ∧ filetime.tdiv 10000000 < 2 ^ 41 := by
  have hsplit := tdiv_eq_ite filetime 10000000
  split at hsplit <;> omega

/-- The years of a FILETIME. -/
theorem year_bounds {days : Int} (hdays : -2 ^ 25 ≤ days ∧ days < 2 ^ 25) :
    -2 ^ 31 ≤ (date_of days).year ∧ (date_of days).year < 2 ^ 31 := by
  have hparts := (date_of_valid days).index_parts.1
  have hlow : index_start (-12000000) ≤ days := by
    have : index_start (-12000000) = -365242560 := by decide
    omega
  have hhigh : ¬ index_start 12000000 ≤ days := by
    have : index_start 12000000 = 365242440 := by decide
    omega
  rw [index_start_le_iff] at hlow hhigh
  omega

/-- The date and time of the seconds that the truncating quotient leaves. -/
theorem filetime_to_calendar_eq {filetime : Int} (hne : filetime ≠ 0) (hrange : -2 ^ 63 ≤ filetime ∧ filetime < 2 ^ 63) :
    (filetime_to_calendar filetime : Checked ε _) = .ok (some (civil_time (filetime.tdiv 10000000))) := by
  have hbound := secs_bounds hrange
  rw [filetime_to_calendar, if_neg hne, FILETIME_TICKS_PER_SECOND]
  generalize filetime.tdiv 10000000 = secs at *
  have hrest : 0 ≤ secs % 86400 := by omega
  have hsplit : (secs / 86400 + 584694) / 146097 * 146097 +
      (secs / 86400 + 584694 - (secs / 86400 + 584694) / 146097 * 146097) = secs / 86400 + 584694 := by omega
  have hyear := @year_bounds (secs / 86400 + 584694) (by omega)
  dsimp only
  rw [era_of_days_eq (by omega) (by omega), Checked.ok_bind]
  rw [as_u32_eq (by omega), ymd_of_era_eq (by omega) (by omega), hsplit, Checked.ok_bind]
  dsimp only
  rw [as_i32_eq hyear, Int.tdiv_eq_ediv_of_nonneg hrest, Int.tmod_eq_emod_of_nonneg hrest, Int.tmod_eq_emod_of_nonneg hrest,
    Int.tdiv_eq_ediv_of_nonneg (by omega), as_u32_eq (by omega), as_u32_eq (by omega), as_u32_eq (by omega)]
  rfl

theorem filetime_with_tz_bias_eq {filetime bias : Int} (hbias : -2 ^ 31 ≤ bias ∧ bias < 2 ^ 31) :
    (filetime_with_tz_bias filetime bias : Checked ε Int) = Checked.i64 (filetime + bias * 10000000) := by
  rw [filetime_with_tz_bias, FILETIME_TICKS_PER_SECOND, Checked.i64_eq (by omega), Checked.ok_bind]

/-- What is asked of two renderings, the second of the same or a later instant. -/
structure Faithful (bias : Int) (one other : Int) : Prop where
  exact_one : (render one bias : Checked Unit _) = .ok (some (civil_time ((one + bias * 10000000) / 10000000)))
  exact_other : (render other bias : Checked Unit _) = .ok (some (civil_time ((other + bias * 10000000) / 10000000)))
  date : ∀ parts, (render one bias : Checked Unit _) = .ok (some parts) →
    (days_to_ymd_1601 ((one + bias * 10000000) / TICKS_PER_DAY) : Checked Unit _) = .ok (parts.year, parts.month, parts.day)
  ordered : ∀ parts later, (render one bias : Checked Unit _) = .ok (some parts) →
    (render other bias : Checked Unit _) = .ok (some later) → parts = later ∨ parts.Before later

/-- A local time that fits, is not the unset one, and is not a part of a second before the epoch. -/
def Plain (bias : Int) (filetime : Int) : Prop :=
  (-2 ^ 63 ≤ filetime + bias * 10000000 ∧ filetime + bias * 10000000 < 2 ^ 63) ∧ filetime + bias * 10000000 ≠ 0 ∧
    (0 ≤ filetime + bias * 10000000 ∨ 10000000 ∣ filetime + bias * 10000000)

theorem render_exact_iff {bias filetime : Int} (hbias : -2 ^ 31 ≤ bias ∧ bias < 2 ^ 31) :
    (render filetime bias : Checked ε _) = .ok (some (civil_time ((filetime + bias * 10000000) / 10000000))) ↔
      Plain bias filetime := by
  rw [render, filetime_with_tz_bias_eq hbias, Plain]
  generalize filetime + bias * 10000000 = ticks
  by_cases hrange : -2 ^ 63 ≤ ticks ∧ ticks < 2 ^ 63
  · rw [Checked.i64_eq hrange, Checked.ok_bind]
    by_cases hne : ticks = 0
    · rw [hne]
      refine iff_of_false ?_ fun h => h.2.1 rfl
      rintro ⟨⟩
    · rw [filetime_to_calendar_eq hne hrange]
      have hsplit := tdiv_eq_ite ticks 10000000
      constructor
      · intro h
        have hsecs := civil_time_injective (Option.some.inj (Checked.ok.inj h))
        refine ⟨hrange, hne, ?_⟩
        split at hsplit <;> omega
      · rintro ⟨-, -, hsecs⟩
        have heq : ticks.tdiv 10000000 = ticks / 10000000 := by
          split at hsplit <;> omega
        rw [heq]
  · rw [Checked.i64_eq_panic hrange]
    refine iff_of_false ?_ fun h => hrange h.1
    rintro ⟨⟩

/-- Renderings are faithful exactly for plain local times: they round a part of a second before the
epoch the wrong way, and take the local epoch for a time that is not set. -/
theorem calendar_faithful_iff (bias : Int32) (one other : Int64) (hle : one ≤ other) :
    Faithful bias.toInt one.toInt other.toInt ↔ Plain bias.toInt one.toInt ∧ Plain bias.toInt other.toInt := by
  have hbias : -2 ^ 31 ≤ bias.toInt ∧ bias.toInt < 2 ^ 31 := ⟨bias.le_toInt, bias.toInt_lt⟩
  have hle' : one.toInt ≤ other.toInt := Int64.le_iff_toInt_le.mp hle
  constructor
  · intro h
    exact ⟨(render_exact_iff hbias).mp h.exact_one, (render_exact_iff hbias).mp h.exact_other⟩
  · rintro ⟨hplain, hplain'⟩
    have hexact := (@render_exact_iff Unit _ _ hbias).mpr hplain
    have hexact' := (@render_exact_iff Unit _ _ hbias).mpr hplain'
    refine ⟨hexact, hexact', ?_, ?_⟩
    · intro parts hparts
      cases hexact.symm.trans hparts
      have hdays : (one.toInt + bias.toInt * 10000000) / TICKS_PER_DAY =
          (one.toInt + bias.toInt * 10000000) / 10000000 / 86400 := by
        rw [TICKS_PER_DAY, TICKS_PER_SECOND]
        omega
      have := hplain.1
      rw [hdays, days_to_ymd_1601_eq (by omega) (by omega)]
      rfl
    · intro parts later hparts hlater
      cases hexact.symm.trans hparts
      cases hexact'.symm.trans hlater
      rcases (show (one.toInt + bias.toInt * 10000000) / 10000000 ≤ (other.toInt + bias.toInt * 10000000) / 10000000 by
        omega).lt_or_eq with hlt | heq
      · exact .inr (civil_time_before hlt)
      · exact .inl (congrArg civil_time heq)

theorem calendar_faithful_2024 : Faithful (3600 : Int32).toInt (133485408000000000 : Int64).toInt (133485408009999999 : Int64).toInt :=
  (calendar_faithful_iff 3600 133485408000000000 133485408009999999 (by decide)).mpr ⟨by unfold Plain; decide, by unfold Plain; decide⟩

/-- A tick before the epoch is rendered as the epoch. -/
theorem calendar_rounds_up : ¬ ∀ (bias : Int32) (one other : Int64), one ≠ 0 → other ≠ 0 → one ≤ other →
    Faithful bias.toInt one.toInt other.toInt := by
  intro h
  have hplain := (render_exact_iff (by decide)).mp (h 0 (-1) (-1) (by decide) (by decide) (by decide)).exact_one
  exact absurd hplain (by unfold Plain; decide)

end uffs.time

namespace uffs.aggregate

/-! The buckets of a date histogram beside the periods of the calendar. -/

section periods

/-- The civil period an instant lies in, numbered; day 0 was a Monday. -/
def civil_period (calendar : CalendarInterval) (ticks : Int) : Int :=
  let day := ticks / TICKS_PER_DAY
  match calendar with
  | .Hour => ticks / (3600 * TICKS_PER_SECOND)
  | .Day => day
  | .Week => day / 7
  | .Month => (date_of (day + 584694)).month_index
  | .Quarter => (date_of (day + 584694)).month_index / 3
  | .Year => (date_of (day + 584694)).year

/-- The first instant of a period. -/
def period_start (calendar : CalendarInterval) (period : Int) : Int :=
  match calendar with
  | .Hour => period * (3600 * TICKS_PER_SECOND)
  | .Day => period * TICKS_PER_DAY
  | .Week => 7 * period * TICKS_PER_DAY
  | .Month => (index_start period - 584694) * TICKS_PER_DAY
  | .Quarter => (index_start (3 * period) - 584694) * TICKS_PER_DAY
  | .Year => (index_start (12 * period) - 584694) * TICKS_PER_DAY

/-- Two valid timestamps share a bucket when they share a period, which the key begins, and keys keep the order. -/
structure FollowsCalendar (calendar : CalendarInterval) : Prop where
  same : ∀ one other : Int64, 0 < one → 0 < other → (truncate_timestamp one calendar = truncate_timestamp other calendar ↔
    civil_period calendar one.toInt = civil_period calendar other.toInt)
  start : ∀ one : Int64, 0 < one → (truncate_timestamp one calendar).toInt = period_start calendar (civil_period calendar one.toInt)
  before : ∀ one : Int64, 0 < one → truncate_timestamp one calendar ≤ one
  ordered : ∀ one other : Int64, 0 < one → one ≤ other → truncate_timestamp one calendar ≤ truncate_timestamp other calendar

variable {ticks : Int64}

theorem toInt_div_span {span : Int64} (hspan : 0 < span.toInt) (hticks : 0 ≤ ticks.toInt) :
    (ticks / span).toInt = ticks.toInt / span.toInt := by
  have hhigh := ticks.toInt_lt
  have hquot : 0 ≤ ticks.toInt / span.toInt := Int.ediv_nonneg hticks hspan.le
  have hquot' : ticks.toInt / span.toInt ≤ ticks.toInt := Int.ediv_le_self _ hticks
  rw [Int64.toInt_div, Int.tdiv_eq_ediv_of_nonneg hticks]
  exact Int.bmod_eq_of_le_mul_two (by omega) (by omega)

/-- Down to a multiple of a span. -/
theorem toInt_floor {span : Int64} (hspan : 0 < span.toInt) (hticks : 0 ≤ ticks.toInt) :
    (ticks / span * span).toInt = ticks.toInt / span.toInt * span.toInt := by
  have hhigh := ticks.toInt_lt
  have hle : ticks.toInt / span.toInt * span.toInt ≤ ticks.toInt := Int.ediv_mul_le _ hspan.ne'
  have hnonneg := Int.mul_nonneg (Int.ediv_nonneg hticks hspan.le) hspan.le
  rw [Int64.toInt_mul, toInt_div_span hspan hticks]
  exact Int.bmod_eq_of_le_mul_two (by omega) (by omega)

theorem truncate_hour (hticks : 0 < ticks.toInt) :
    (truncate_timestamp ticks .Hour).toInt = period_start .Hour (civil_period .Hour ticks.toInt) :=
  toInt_floor (by decide) hticks.le

theorem truncate_day (hticks : 0 < ticks.toInt) :
    (truncate_timestamp ticks .Day).toInt = period_start .Day (civil_period .Day ticks.toInt) :=
  toInt_floor (by decide) hticks.le

theorem truncate_week (hticks : 0 < ticks.toInt) :
    (truncate_timestamp ticks .Week).toInt = period_start .Week (civil_period .Week ticks.toInt) := by
  have hhigh := ticks.toInt_lt
  have hday : (ticks / (FILETIME_TICKS_PER_SECOND * 86400)).toInt = ticks.toInt / 864000000000 :=
    toInt_div_span (by decide) hticks.le
  have hperiod : period_start .Week (civil_period .Week ticks.toInt) =
      7 * (ticks.toInt / 864000000000 / 7) * 864000000000 := rfl
  have hspan : (FILETIME_TICKS_PER_SECOND * 86400).toInt = 864000000000 := by decide
  have hweek : (ticks / (FILETIME_TICKS_PER_SECOND * 86400) - ticks / (FILETIME_TICKS_PER_SECOND * 86400) % 7).toInt =
      7 * (ticks.toInt / 864000000000 / 7) := by
    rw [Int64.toInt_sub, Int64.toInt_mod, hday, show (7 : Int64).toInt = 7 from rfl,
      Int.tmod_eq_emod_of_nonneg (by omega), Int.bmod_eq_of_le_mul_two (by omega) (by omega)]
    omega
  have htruncate : truncate_timestamp ticks .Week = (ticks / (FILETIME_TICKS_PER_SECOND * 86400) -
      ticks / (FILETIME_TICKS_PER_SECOND * 86400) % 7) * (FILETIME_TICKS_PER_SECOND * 86400) := rfl
  rw [htruncate, hperiod, Int64.toInt_mul, hweek, hspan]
  exact Int.bmod_eq_of_le_mul_two (by omega) (by omega)

/-- Periods that are spans of whole ticks and begin where their keys do. -/
theorem FollowsCalendar.of_spans {calendar : CalendarInterval} {span : Int} (hspan : 0 < span)
    (hperiod : ∀ ticks, civil_period calendar ticks = ticks / span) (hstart : ∀ period, period_start calendar period = period * span)
    (htruncate : ∀ ticks : Int64, 0 < ticks.toInt →
      (truncate_timestamp ticks calendar).toInt = period_start calendar (civil_period calendar ticks.toInt)) :
    FollowsCalendar calendar where
  same one other hone hother := by
    rw [← Int64.toInt_inj, htruncate one (Int64.lt_iff_toInt_lt.mp hone), htruncate other (Int64.lt_iff_toInt_lt.mp hother),
      hstart, hstart]
    exact Int.mul_eq_mul_right_iff hspan.ne'
  start one hone := htruncate one (Int64.lt_iff_toInt_lt.mp hone)
  before one hone := by
    rw [Int64.le_iff_toInt_le, htruncate one (Int64.lt_iff_toInt_lt.mp hone), hstart, hperiod]
    exact Int.ediv_mul_le _ hspan.ne'
  ordered one other hone hle := by
    have hpos := Int64.lt_iff_toInt_lt.mp hone
    have hle' := Int64.le_iff_toInt_le.mp hle
    rw [Int64.le_iff_toInt_le, htruncate one hpos, htruncate other (hpos.trans_le hle'), hstart, hstart, hperiod, hperiod]
    exact Int.mul_le_mul_of_nonneg_right (Int.ediv_le_ediv hspan hle') hspan.le

/-- The first and the last day of January 1601 are in different spans of thirty days. -/
theorem month_drifts : ¬ FollowsCalendar .Month := by
  intro h
  exact absurd ((h.same 1 25920000000001 (by decide) (by decide)).mpr (by decide)) (by decide)

/-- Hours, days and weeks follow the calendar; months, quarters and years do not, since they are cut
into spans of 30, 90 and 365 days. -/
theorem follows_calendar_iff (calendar : CalendarInterval) :
    FollowsCalendar calendar ↔ calendar = .Hour ∨ calendar = .Day ∨ calendar = .Week := by
  cases calendar with
  | Hour =>
    refine iff_of_true ?_ (by decide)
    exact @FollowsCalendar.of_spans .Hour 36000000000 (by decide) (fun _ => rfl) (fun _ => rfl) fun _ => truncate_hour
  | Day =>
    refine iff_of_true ?_ (by decide)
    exact @FollowsCalendar.of_spans .Day 864000000000 (by decide) (fun _ => rfl) (fun _ => rfl) fun _ => truncate_day
  | Week =>
    refine iff_of_true ?_ (by decide)
    refine @FollowsCalendar.of_spans .Week 6048000000000 (by decide) (fun ticks => ?_) (fun period => ?_) fun _ => truncate_week
    · change ticks / 864000000000 / 7 = ticks / 6048000000000
      omega
    · change 7 * period * 864000000000 = period * 6048000000000
      omega
  | Month => exact iff_of_false month_drifts (by decide)
  | Quarter =>
    refine iff_of_false (fun h => ?_) (by decide)
    -- the second quarter of 1601 has 91 days
    exact absurd ((h.same 77760000000000 155520000000000 (by decide) (by decide)).mpr (by decide)) (by decide)
  | Year =>
    refine iff_of_false (fun h => ?_) (by decide)
    -- 1604 is a leap year
    exact absurd ((h.same 946080000000000 1261440000000000 (by decide) (by decide)).mpr (by decide)) (by decide)

/-- Months of thirty days drift off the calendar. -/
theorem histograms_drift : ¬ ∀ calendar, FollowsCalendar calendar := fun h => month_drifts (h .Month)

end periods

end uffs.aggregate
