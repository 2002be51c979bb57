import Aizzak.FloatFormats
import Aizzak.UsageLedger

/-!
The reset of a usage bucket: the rule that names a bucket by its first day, read
forwards to the instant the next bucket begins, and the delay in whole seconds a
denied caller is told to wait. A datetime carries its own clock reading and offset,
and only the instants of the years 1 to 9999 have a UTC reading, so normalizing and
building a datetime may both fail. The delay passes through a double, which is fine
enough here to keep the ceiling.
-/
namespace Aizzak.PeriodResets

open Calendar UsageLedger FloatFormats

def endOfTime : ℕ := daysBeforeYear 10000 * microsPerDay

structure AwareDatetime where
  wall : ℕ
  utcoffset : ℤ
  wall_lt : wall < endOfTime
  utcoffset_lt : |utcoffset| < microsPerDay

namespace AwareDatetime

def year (now : AwareDatetime) : ℕ := (dateOf now.wall).year

def utcMicros (now : AwareDatetime) : ℤ := now.wall - now.utcoffset

def astimezone (now : AwareDatetime) : Option Instant :=
  if 0 ≤ now.utcMicros ∧ now.utcMicros < endOfTime then some now.utcMicros.toNat else none

def periodStart (period : Period) (now : AwareDatetime) : Option Date :=
  now.astimezone.map (UsageLedger.periodStart period)

theorem astimezone_eq_some (now : AwareDatetime) (t : ℕ) :
    now.astimezone = some t ↔ now.utcMicros = t ∧ t < endOfTime := by
  rw [astimezone]
  split_ifs with hr
  · have hinj : some now.utcMicros.toNat = some t ↔ now.utcMicros.toNat = t := Option.some_inj
    rw [hinj]
    omega
  · constructor
    · intro h
      contradiction
    · intro ⟨hm, hlt⟩
      omega

end AwareDatetime

def december : ℕ := 12

def datetimeUtc (year month day : ℕ) : Option Instant :=
  if year < 10000 then some (dayNumber ⟨year, month, day⟩ * microsPerDay) else none

def plusOneDay (d : Date) : Option Date :=
  if dayNumber d + 1 < daysBeforeYear 10000 then some (dateOfDay (dayNumber d + 1)) else none

def periodResetAt (period : Period) (now : AwareDatetime) : Option Instant :=
  (now.periodStart period).bind fun start =>
    match period with
    | .month =>
      if start.month = december then datetimeUtc (start.year + 1) 1 1
      else datetimeUtc start.year (start.month + 1) 1
    | .day => (plusOneDay start).bind fun following =>
      datetimeUtc following.year following.month following.day

def double : Format := ⟨2, 53, -1074, by decide, by decide⟩

def totalSeconds (micros : ℤ) : ℚ := double.round (micros / microsPerSecond)

def secondsUntil (resetAt : Instant) (now : AwareDatetime) : ℤ :=
  max 1 ⌈totalSeconds (resetAt - now.utcMicros)⌉

theorem microsPerDay_pos : 0 < microsPerDay := by
  decide

theorem dayOf_lt_iff (t n : ℕ) : dayOf t < n ↔ t < n * microsPerDay :=
  Nat.div_lt_iff_lt_mul microsPerDay_pos

theorem le_dayOf_iff (n t : ℕ) : n ≤ dayOf t ↔ n * microsPerDay ≤ t :=
  Nat.le_div_iff_mul_le microsPerDay_pos

def bucketEnd (period : Period) (t : Instant) : ℕ :=
  match period with
  | .day => dayOf t + 1
  | .month =>
    daysBeforeYear (dateOf t).year +
      daysBeforeMonth (isLeap (dateOf t).year) ((dateOf t).month + 1)

theorem dateOf_month_range (t : Instant) : 1 ≤ (dateOf t).month ∧ (dateOf t).month ≤ 12 :=
  monthOf_range _ _ (dayOfYear_lt (dayOf t))

theorem dateOf_month_bracket (t : Instant) :
    daysBeforeYear (dateOf t).year + daysBeforeMonth (isLeap (dateOf t).year) (dateOf t).month ≤
        dayOf t ∧ dayOf t < bucketEnd .month t := by
  have hr := dateOf_month_range t
  have hy : 1 ≤ (dateOf t).year := yearOf_pos (dayOf t)
  exact (month_days_iff hy hr.1 hr.2 (dayOf t)).mp ⟨rfl, rfl⟩

theorem daysBeforeMonth_succ_le (leap : Bool) {month : ℕ} (hlow : 1 ≤ month)
    (hh : month ≤ 12) : daysBeforeMonth leap (month + 1) ≤ daysBeforeMonth leap month + 31 := by
  have ht : ∀ leap : Bool, ∀ month ≤ 12, 1 ≤ month →
      daysBeforeMonth leap (month + 1) ≤ daysBeforeMonth leap month + 31 := by decide
  exact ht leap month hh hlow

theorem bucketEnd_le (period : Period) (t : Instant) : bucketEnd period t ≤ dayOf t + 31 := by
  cases period with
  | day =>
    simp only [bucketEnd]
    omega
  | month =>
    have hr := dateOf_month_range t
    have hs := (dateOf_month_bracket t).1
    have hl := daysBeforeMonth_succ_le (isLeap (dateOf t).year) hr.1 hr.2
    simp only [bucketEnd]
    omega

/-- A bucket is an interval of days. -/
theorem periodStart_eq_iff (period : Period) (t : Instant) : ∃ first, ∀ s,
    periodStart period s = periodStart period t ↔
      first ≤ dayOf s ∧ dayOf s < bucketEnd period t := by
  cases period with
  | day =>
    refine ⟨dayOf t, fun s => ?_⟩
    rw [periodStart_day_eq_iff, bucketEnd]
    omega
  | month =>
    have hr := dateOf_month_range t
    refine ⟨daysBeforeYear (dateOf t).year +
      daysBeforeMonth (isLeap (dateOf t).year) (dateOf t).month, fun s => ?_⟩
    have hy : 1 ≤ (dateOf t).year := yearOf_pos (dayOf t)
    rw [bucketEnd, ← month_days_iff hy hr.1 hr.2]
    simp [periodStart, dateOf]

theorem isLeast_bucketEnd (period : Period) (t : Instant) :
    IsLeast {s | t < s ∧ periodStart period s ≠ periodStart period t}
      (bucketEnd period t * microsPerDay) := by
  obtain ⟨first, hb⟩ := periodStart_eq_iff period t
  have hs := (hb t).mp rfl
  constructor
  · refine ⟨(dayOf_lt_iff _ _).mp hs.2, ?_⟩
    intro hsa
    have hbe := ((hb _).mp hsa).2
    rw [dayOf_lt_iff] at hbe
    exact lt_irrefl _ hbe
  · intro s ⟨hl, ho⟩
    rw [← le_dayOf_iff]
    by_contra hi
    have hday : dayOf t ≤ dayOf s := Nat.div_le_div_right hl.le
    exact ho ((hb s).mpr ⟨hs.1.trans hday, not_le.mp hi⟩)

theorem dayNumber_firstOfNext (t : Instant) :
    (if (periodStart .month t).month = december then
        dayNumber ⟨(periodStart .month t).year + 1, 1, 1⟩
      else dayNumber ⟨(periodStart .month t).year, (periodStart .month t).month + 1, 1⟩) =
      bucketEnd .month t := by
  have hy : 1 ≤ (dateOf t).year := yearOf_pos (dayOf t)
  have hs : periodStart .month t = ⟨(dateOf t).year, (dateOf t).month, 1⟩ := rfl
  rw [hs]
  split_ifs with hl
  · have hm : (dateOf t).month = 12 := hl
    simp only [dayNumber, bucketEnd, hm]
    rw [daysBeforeYear_succ_eq _ hy]
    simp [daysBeforeMonth]
  · simp [dayNumber, bucketEnd]

variable {now : AwareDatetime} {t : ℕ}

/-- The instants of a datetime before year 9999 lie a whole day short of that year's second
day. -/
theorem dayOf_le_of_year (hnow : now.astimezone = some t) (hy : now.year < 9999) :
    dayOf t ≤ daysBeforeYear 9999 := by
  have hm := ((now.astimezone_eq_some t).mp hnow).1
  have ho := abs_lt.mp now.utcoffset_lt
  have hw : dayOf now.wall < daysBeforeYear 9999 := by
    have hb := (yearOf_bracket (dayOf now.wall)).2
    have hs := daysBeforeYear_mono (a := yearOf (dayOf now.wall) + 1) (b := 9999)
      (by omega) hy
    omega
  rw [dayOf_lt_iff] at hw
  have hi : t < (daysBeforeYear 9999 + 1) * microsPerDay := by
    rw [AwareDatetime.utcMicros] at hm
    rw [add_mul, one_mul]
    omega
  rw [← dayOf_lt_iff] at hi
  omega

theorem bucketEnd_lt (hnow : now.astimezone = some t) (hy : now.year < 9999) (period : Period) :
    bucketEnd period t < daysBeforeYear 10000 := by
  have hday := dayOf_le_of_year hnow hy
  have hend := bucketEnd_le period t
  have hl : daysBeforeYear 9999 + 31 < daysBeforeYear 10000 := by decide
  omega

theorem datetimeUtc_of_lt {d : Date} (hd : dayNumber d < daysBeforeYear 10000) :
    datetimeUtc d.year d.month d.day = some (dayNumber d * microsPerDay) := by
  rw [datetimeUtc, if_pos]
  by_contra hy
  have hs := daysBeforeYear_mono (a := 10000) (b := d.year) (by omega) (by omega)
  have hn : daysBeforeYear d.year ≤ dayNumber d := by
    simp only [dayNumber]
    omega
  omega

/-- Reading the bucket rule forwards gives the first instant past the bucket. -/
theorem periodResetAt_eq (hnow : now.astimezone = some t) (hy : now.year < 9999)
    (period : Period) :
    periodResetAt period now = some (bucketEnd period t * microsPerDay) := by
  have hend := bucketEnd_lt hnow hy period
  have hs : now.periodStart period = some (periodStart period t) := by
    rw [AwareDatetime.periodStart, hnow, Option.map_some]
  rw [periodResetAt, hs, Option.bind_some]
  cases period with
  | month =>
    have hne := dayNumber_firstOfNext t
    dsimp only
    by_cases hl : (periodStart .month t).month = december
    · rw [if_pos hl] at hne ⊢
      rw [← hne] at hend ⊢
      exact datetimeUtc_of_lt hend
    · rw [if_neg hl] at hne ⊢
      rw [← hne] at hend ⊢
      have hb := datetimeUtc_of_lt hend
      exact hb
  | day =>
    have hn : dayNumber (dateOf t) = dayOf t := dayNumber_dateOfDay (dayOf t)
    have hf := dayNumber_dateOfDay (dayOf t + 1)
    simp only [bucketEnd] at hend ⊢
    simp only [periodStart, plusOneDay, hn, if_pos hend, Option.bind_some]
    rw [← hf] at hend
    rw [datetimeUtc_of_lt hend, hf]

theorem double_unit_lt {micros : ℤ} (hpos : 0 < micros)
    (hle : micros ≤ 31 * microsPerDay) :
    double.unit (micros / microsPerSecond) < 2 / microsPerSecond := by
  have hs : (0 : ℚ) < microsPerSecond := by norm_num [microsPerSecond]
  have hc : (0 : ℚ) < micros := by exact_mod_cast hpos
  have hm : (micros : ℚ) ≤ 31 * microsPerDay := by exact_mod_cast hle
  have hq : (0 : ℚ) < micros / microsPerSecond := div_pos hc hs
  have hsi : |(micros / microsPerSecond : ℚ)| < (double.base : ℚ) ^ (22 : ℤ) := by
    rw [abs_of_pos hq, div_lt_iff₀ hs]
    apply hm.trans_lt
    norm_num [microsPerDay, secondsPerDay, microsPerSecond, double]
  have hu := double.unit_le hq.ne' hsi
  apply hu.trans_lt
  norm_num [double, microsPerSecond]

/-- The double carries enough digits of a reset's distance to keep its ceiling. -/
theorem ceil_totalSeconds {micros : ℤ} (hpos : 0 < micros) (hle : micros ≤ 31 * microsPerDay) :
    ⌈totalSeconds micros⌉ = ⌈(micros / microsPerSecond : ℚ)⌉ := by
  have hs : (0 : ℚ) < microsPerSecond := by norm_num [microsPerSecond]
  have hmi : (micros : ℚ) ≤ 31 * microsPerDay := by exact_mod_cast hle
  have hc : (0 : ℚ) < micros := by exact_mod_cast hpos
  refine double.ceil_round (by decide) (double_unit_lt hpos hle) ?_
  intro m hm
  have hsz : (m : ℚ) < 2 ^ 53 := by
    rw [← hm, div_lt_iff₀ hs]
    apply hmi.trans_lt
    norm_num [microsPerDay, secondsPerDay, microsPerSecond]
  have hno : (0 : ℚ) ≤ m := by
    rw [← hm]
    exact (div_pos hc hs).le
  have hsi : m < 2 ^ 53 := by exact_mod_cast hsz
  have hn : 0 ≤ m := by exact_mod_cast hno
  refine ⟨m, 0, ?_, by decide, by simp⟩
  rw [abs_of_nonneg hn]
  exact hsi

/-- The wait is the least number of whole seconds that reaches the reset. -/
theorem secondsUntil_isLeast {reset : ℕ} (hl : now.utcMicros < reset)
    (hne : (reset : ℤ) - now.utcMicros ≤ 31 * microsPerDay) :
    1 ≤ secondsUntil reset now ∧
      IsLeast {n : ℤ | (reset : ℤ) ≤ now.utcMicros + n * microsPerSecond}
        (secondsUntil reset now) := by
  have hs : (0 : ℚ) < microsPerSecond := by norm_num [microsPerSecond]
  have hpos : 0 < (reset : ℤ) - now.utcMicros := by omega
  have hr : ∀ n : ℤ, ⌈totalSeconds (reset - now.utcMicros)⌉ ≤ n ↔
      (reset : ℤ) ≤ now.utcMicros + n * microsPerSecond := by
    intro n
    rw [ceil_totalSeconds hpos hne, Int.ceil_le, div_le_iff₀ hs]
    have hc : (((reset : ℤ) - now.utcMicros : ℤ) : ℚ) ≤ n * microsPerSecond ↔
        (reset : ℤ) - now.utcMicros ≤ n * microsPerSecond := by
      exact_mod_cast Iff.rfl
    rw [hc]
    omega
  have hone : 1 ≤ ⌈totalSeconds (reset - now.utcMicros)⌉ := by
    by_contra hsm
    have hz := (hr 0).mp (by omega)
    omega
  have hmax : secondsUntil reset now = ⌈totalSeconds (reset - now.utcMicros)⌉ :=
    max_eq_right hone
  rw [hmax]
  exact ⟨hone, (hr _).mp le_rfl, fun n hn => (hr n).mpr hn⟩

/-- A denial's retry delay is exact: the reset is the first instant of another bucket,
and the delay is the least whole number of seconds that reaches it. -/
theorem retry_after_exact (period : Period) (now : AwareDatetime) (t : Instant)
    (hnow : now.astimezone = some t) (hyear : now.year < 9999) :
    ∃ reset, periodResetAt period now = some reset ∧
      IsLeast {s | t < s ∧ periodStart period s ≠ periodStart period t} reset ∧
      1 ≤ secondsUntil reset now ∧
      IsLeast {n : ℤ | (reset : ℤ) ≤ (t : ℤ) + n * microsPerSecond} (secondsUntil reset now) := by
  have hm := ((now.astimezone_eq_some t).mp hnow).1
  have hl := isLeast_bucketEnd period t
  have hend := bucketEnd_le period t
  have hf : dayOf t * microsPerDay ≤ t := (le_dayOf_iff _ _).mp le_rfl
  have hn : bucketEnd period t * microsPerDay ≤ t + 31 * microsPerDay := by
    calc bucketEnd period t * microsPerDay
        ≤ (dayOf t + 31) * microsPerDay := Nat.mul_le_mul_right _ hend
      _ = dayOf t * microsPerDay + 31 * microsPerDay := add_mul _ _ _
      _ ≤ t + 31 * microsPerDay := Nat.add_le_add_right hf _
  have hla : t < bucketEnd period t * microsPerDay := hl.1.1
  refine ⟨_, periodResetAt_eq hnow hyear period, hl, ?_⟩
  rw [← hm]
  apply secondsUntil_isLeast
  · rw [hm]
    exact_mod_cast hla
  · rw [hm]
    have hc : ((bucketEnd period t * microsPerDay : ℕ) : ℤ) ≤
        ((t + 31 * microsPerDay : ℕ) : ℤ) := by exact_mod_cast hn
    push_cast at hc ⊢
    omega

def newYearsEveWest : AwareDatetime :=
  ⟨63902734200000000, -7200000000, by decide +kernel, by decide⟩

theorem retry_after_new_years_eve :
    ∃ reset, periodResetAt .month newYearsEveWest = some reset ∧
      IsLeast {s | 63902741400000000 < s ∧
        periodStart .month s ≠ periodStart .month 63902741400000000} reset ∧
      1 ≤ secondsUntil reset newYearsEveWest ∧
      IsLeast {n : ℤ | (reset : ℤ) ≤ ((63902741400000000 : ℕ) : ℤ) + n * microsPerSecond}
        (secondsUntil reset newYearsEveWest) :=
  retry_after_exact .month newYearsEveWest 63902741400000000 (by decide +kernel)
    (by decide +kernel)

def firstMidnightEast : AwareDatetime := ⟨0, 3600000000, by decide +kernel, by decide⟩

theorem first_midnight_has_no_reset :
    firstMidnightEast.year < 9999 ∧ periodResetAt .month firstMidnightEast = none ∧
      periodResetAt .day firstMidnightEast = none := by
  decide +kernel

end Aizzak.PeriodResets
