import Mathlib

/-!
UTC instants and the proleptic Gregorian calendar of Python's `datetime`. An
instant is the number of microseconds since 0001-01-01T00:00:00Z, so every aware
`datetime` is one. A day number is turned into a date by the cycles of 400, 100, 4
and 1 years that the standard library uses, then by the month table. The results
are that the day numbers of a year, and of a month, form an interval.
-/
namespace Aizzak.Calendar

abbrev Instant := ℕ

def microsPerSecond : ℕ := 1000000
def secondsPerDay : ℕ := 86400
def microsPerDay : ℕ := secondsPerDay * microsPerSecond

structure Date where
  year : ℕ
  month : ℕ
  day : ℕ
deriving DecidableEq, Repr

def isLeap (year : ℕ) : Bool :=
  year % 4 == 0 && (year % 100 != 0 || year % 400 == 0)

def daysBeforeYear (year : ℕ) : ℕ :=
  (year - 1) * 365 + (year - 1) / 4 - (year - 1) / 100 + (year - 1) / 400

/-- The days of the year before the first of a month; month 13 gives the whole year. -/
def daysBeforeMonth (leap : Bool) (month : ℕ) : ℕ :=
  let table := [0, 0, 31, 59, 90, 120, 151, 181, 212, 243, 273, 304, 334, 365]
  table.getD month 0 + (if leap ∧ 2 < month then 1 else 0)

def dayNumber (d : Date) : ℕ :=
  daysBeforeYear d.year + daysBeforeMonth (isLeap d.year) d.month + (d.day - 1)

def yearOf (n : ℕ) : ℕ :=
  let n400 := n / 146097
  let r400 := n % 146097
  let n100 := r400 / 36524
  let r100 := r400 % 36524
  let n4 := r100 / 1461
  let r4 := r100 % 1461
  let n1 := r4 / 365
  let year := n400 * 400 + n100 * 100 + n4 * 4 + n1 + 1
  if n1 = 4 ∨ n100 = 4 then year - 1 else year

def monthOf (leap : Bool) (n : ℕ) : ℕ :=
  if n < daysBeforeMonth leap 2 then 1
  else if n < daysBeforeMonth leap 3 then 2
  else if n < daysBeforeMonth leap 4 then 3
  else if n < daysBeforeMonth leap 5 then 4
  else if n < daysBeforeMonth leap 6 then 5
  else if n < daysBeforeMonth leap 7 then 6
  else if n < daysBeforeMonth leap 8 then 7
  else if n < daysBeforeMonth leap 9 then 8
  else if n < daysBeforeMonth leap 10 then 9
  else if n < daysBeforeMonth leap 11 then 10
  else if n < daysBeforeMonth leap 12 then 11
  else 12

def dateOfDay (n : ℕ) : Date :=
  let year := yearOf n
  let rest := n - daysBeforeYear year
  let month := monthOf (isLeap year) rest
  ⟨year, month, rest - daysBeforeMonth (isLeap year) month + 1⟩

def dayOf (t : Instant) : ℕ := t / microsPerDay

def dateOf (t : Instant) : Date := dateOfDay (dayOf t)

private theorem daysBeforeYear_cycles (a b c d : ℕ) (hb : b ≤ 3) (hc : c ≤ 24) (hd : d ≤ 3) :
    daysBeforeYear (a * 400 + b * 100 + c * 4 + d + 1) =
      a * 146097 + b * 36524 + c * 1461 + d * 365 := by
  have h4 : (a * 400 + b * 100 + c * 4 + d) / 4 = a * 100 + b * 25 + c := by omega
  have h100 : (a * 400 + b * 100 + c * 4 + d) / 100 = a * 4 + b := by omega
  have h400 : (a * 400 + b * 100 + c * 4 + d) / 400 = a := by omega
  simp only [daysBeforeYear, Nat.add_sub_cancel, h4, h100, h400]
  omega

/-- How the three correction terms of a year count move to the next year. -/
private theorem leap_corrections (y : ℕ) :
    (y + 1) / 4 = y / 4 + (if (y + 1) % 4 = 0 then 1 else 0) ∧
      (y + 1) / 100 = y / 100 + (if (y + 1) % 100 = 0 then 1 else 0) ∧
      (y + 1) / 400 = y / 400 + (if (y + 1) % 400 = 0 then 1 else 0) := by
  refine ⟨?_, ?_, ?_⟩ <;> split_ifs <;> omega

theorem isLeap_eq_true (year : ℕ) :
    isLeap year = true ↔ year % 4 = 0 ∧ (year % 100 ≠ 0 ∨ year % 400 = 0) := by
  simp [isLeap]

theorem daysBeforeYear_succ (y : ℕ) :
    daysBeforeYear (y + 2) = daysBeforeYear (y + 1) + 365 + (if isLeap (y + 1) then 1 else 0) := by
  obtain ⟨h4, h100, h400⟩ := leap_corrections y
  have hhu : y / 100 ≤ y / 4 := by omega
  have hdv : (y + 1) % 100 = 0 → (y + 1) % 4 = 0 := by omega
  have hd : (y + 1) % 400 = 0 → (y + 1) % 100 = 0 := by omega
  simp only [daysBeforeYear, Nat.add_sub_cancel, show y + 2 - 1 = y + 1 from rfl, h4, h100, h400,
    isLeap_eq_true]
  generalize y / 4 = q4 at *
  generalize y / 100 = q100 at *
  generalize y / 400 = q400 at *
  by_cases hf : (y + 1) % 4 = 0 <;> by_cases hh : (y + 1) % 100 = 0 <;>
    by_cases hq : (y + 1) % 400 = 0 <;> simp_all <;> omega

theorem daysBeforeYear_mono {a b : ℕ} (ha : 1 ≤ a) (hab : a ≤ b) :
    daysBeforeYear a ≤ daysBeforeYear b := by
  induction b, hab using Nat.le_induction with
  | base => exact le_rfl
  | succ b hb ih =>
    obtain ⟨y, rfl⟩ : ∃ y, b = y + 1 := ⟨b - 1, by omega⟩
    rw [daysBeforeYear_succ]
    omega

theorem yearOf_pos (n : ℕ) : 1 ≤ yearOf n := by
  simp only [yearOf]
  split_ifs with hl <;> omega

private theorem bracket_of_cycles (year n a b c d e : ℕ) (hb : b ≤ 3) (hc : c ≤ 24) (hd : d ≤ 3)
    (hyear : year = a * 400 + b * 100 + c * 4 + d + 1)
    (hn : n = a * 146097 + b * 36524 + c * 1461 + d * 365 + e)
    (he : e < 365 ∨ e = 365 ∧ isLeap year) :
    daysBeforeYear year ≤ n ∧ n < daysBeforeYear (year + 1) := by
  have hstart := daysBeforeYear_cycles a b c d hb hc hd
  rw [← hyear] at hstart
  rw [hyear, daysBeforeYear_succ, ← hyear, hstart, hn]
  refine ⟨Nat.le_add_right _ _, ?_⟩
  rw [Nat.add_assoc _ 365]
  apply Nat.add_lt_add_left
  rcases he with he | ⟨he, hleap⟩
  · exact Nat.lt_of_lt_of_le he (Nat.le_add_right _ _)
  · rw [if_pos hleap, he]
    decide

/-- A day number lies between the start of its year and the start of the next. -/
theorem yearOf_bracket (n : ℕ) :
    daysBeforeYear (yearOf n) ≤ n ∧ n < daysBeforeYear (yearOf n + 1) := by
  obtain ⟨a, r, hn, hr⟩ : ∃ a r, n = a * 146097 + r ∧ r < 146097 :=
    ⟨n / 146097, n % 146097, by omega, by omega⟩
  obtain ⟨b, r', hr', hb⟩ : ∃ b r', r = b * 36524 + r' ∧ r' < 36524 :=
    ⟨r / 36524, r % 36524, by omega, by omega⟩
  obtain ⟨c, r'', hr'', hc⟩ : ∃ c r'', r' = c * 1461 + r'' ∧ r'' < 1461 :=
    ⟨r' / 1461, r' % 1461, by omega, by omega⟩
  obtain ⟨d, e, he, hd⟩ : ∃ d e, r'' = d * 365 + e ∧ e < 365 :=
    ⟨r'' / 365, r'' % 365, by omega, by omega⟩
  have hday : n = a * 146097 + b * 36524 + c * 1461 + d * 365 + e := by
    rw [hn, hr', hr'', he]
    ring
  have hf : d = 4 → e = 0 ∧ c ≤ 23 ∧ b ≤ 3 := by omega
  have hce : b = 4 → c = 0 ∧ d = 0 ∧ e = 0 := by omega
  have hbo : b ≤ 4 ∧ c ≤ 24 ∧ d ≤ 4 := by omega
  have ha : n / 146097 = a ∧ n % 146097 = r := by omega
  have hb1 : r / 36524 = b ∧ r % 36524 = r' := by omega
  have hc4 : r' / 1461 = c ∧ r' % 1461 = r'' := by omega
  have hd1 : r'' / 365 = d := by omega
  simp only [yearOf, ha.1, ha.2, hb1.1, hb1.2, hc4.1, hc4.2, hd1]
  clear ha hb1 hc4 hd1 he hr'' hr' hn
  by_cases hb4 : b = 4
  · obtain ⟨rfl, rfl, rfl⟩ := hce hb4
    have hy : a * 400 + b * 100 + 0 * 4 + 0 + 1 - 1 = a * 400 + 3 * 100 + 24 * 4 + 3 + 1 := by
      omega
    rw [if_pos (Or.inr hb4)]
    refine bracket_of_cycles _ n a 3 24 3 365 le_rfl le_rfl le_rfl hy ?_ (Or.inr ⟨rfl, ?_⟩)
    · simp only [hday, hb4, Nat.add_assoc, Nat.add_zero, Nat.zero_mul, Nat.reduceMul, Nat.reduceAdd]
    · rw [hy, isLeap_eq_true]
      omega
  by_cases hd4 : d = 4
  · obtain ⟨rfl, hc23, hb3⟩ := hf hd4
    have hy : a * 400 + b * 100 + c * 4 + d + 1 - 1 = a * 400 + b * 100 + c * 4 + 3 + 1 := by
      omega
    rw [if_pos (Or.inl hd4)]
    refine bracket_of_cycles _ n a b c 3 365 hb3 hbo.2.1 le_rfl hy ?_ (Or.inr ⟨rfl, ?_⟩)
    · simp only [hday, hd4, Nat.add_assoc, Nat.add_zero, Nat.reduceMul, Nat.reduceAdd]
    · rw [hy, isLeap_eq_true]
      omega
  · rw [if_neg (by omega)]
    exact bracket_of_cycles _ n a b c d e (by omega) hbo.2.1 (by omega) rfl hday (Or.inl hd)

theorem yearOf_mono {m n : ℕ} (hmn : m ≤ n) : yearOf m ≤ yearOf n := by
  by_contra hlt
  have hm := yearOf_bracket m
  have hn := yearOf_bracket n
  have hs := daysBeforeYear_mono (a := yearOf n + 1) (b := yearOf m) (by omega) (by omega)
  omega

theorem daysBeforeMonth_thirteen (leap : Bool) :
    daysBeforeMonth leap 13 = 365 + (if leap then 1 else 0) := by
  cases leap <;> rfl

theorem daysBeforeYear_succ_eq (year : ℕ) (hy : 1 ≤ year) :
    daysBeforeYear (year + 1) = daysBeforeYear year + daysBeforeMonth (isLeap year) 13 := by
  obtain ⟨y, rfl⟩ : ∃ y, year = y + 1 := ⟨year - 1, by omega⟩
  rw [daysBeforeYear_succ, daysBeforeMonth_thirteen]
  omega

private theorem monthOf_table : ∀ leap : Bool, ∀ n < daysBeforeMonth leap 13,
    daysBeforeMonth leap (monthOf leap n) ≤ n ∧ n < daysBeforeMonth leap (monthOf leap n + 1) ∧
      1 ≤ monthOf leap n ∧ monthOf leap n ≤ 12 ∧ monthOf leap n ≤ monthOf leap (n + 1) := by
  decide +kernel

/-- Within its year a day lies between the start of its month and the start of the next. -/
theorem monthOf_bracket (leap : Bool) (n : ℕ) (hn : n < daysBeforeMonth leap 13) :
    daysBeforeMonth leap (monthOf leap n) ≤ n ∧ n < daysBeforeMonth leap (monthOf leap n + 1) :=
  ⟨(monthOf_table leap n hn).1, (monthOf_table leap n hn).2.1⟩

theorem monthOf_range (leap : Bool) (n : ℕ) (hn : n < daysBeforeMonth leap 13) :
    1 ≤ monthOf leap n ∧ monthOf leap n ≤ 12 :=
  ⟨(monthOf_table leap n hn).2.2.1, (monthOf_table leap n hn).2.2.2.1⟩

theorem monthOf_mono (leap : Bool) {m n : ℕ} (hmn : m ≤ n) (hn : n < daysBeforeMonth leap 13) :
    monthOf leap m ≤ monthOf leap n := by
  induction n, hmn using Nat.le_induction with
  | base => exact le_rfl
  | succ n hmn ih =>
    have hlt : n < daysBeforeMonth leap 13 := by omega
    exact (ih hlt).trans (monthOf_table leap n hlt).2.2.2.2

def dayOfYear (n : ℕ) : ℕ := n - daysBeforeYear (yearOf n)

theorem dayOfYear_lt (n : ℕ) : dayOfYear n < daysBeforeMonth (isLeap (yearOf n)) 13 := by
  have hb := yearOf_bracket n
  rw [daysBeforeYear_succ_eq _ (yearOf_pos n)] at hb
  simp only [dayOfYear]
  omega

theorem dayNumber_dateOfDay (n : ℕ) : dayNumber (dateOfDay n) = n := by
  have hy := yearOf_bracket n
  have hm := monthOf_bracket _ _ (dayOfYear_lt n)
  simp only [dayOfYear] at hm
  simp only [dayNumber, dateOfDay, Nat.add_sub_cancel]
  omega

example : dateOfDay 730178 = ⟨2000, 2, 29⟩ := by decide

theorem dateOfDay_injective : Function.Injective dateOfDay :=
  Function.LeftInverse.injective dayNumber_dateOfDay

def monthIndex (n : ℕ) : ℕ := yearOf n * 12 + (dateOfDay n).month

theorem monthIndex_eq_iff (m n : ℕ) :
    monthIndex m = monthIndex n ↔
      (dateOfDay m).year = (dateOfDay n).year ∧ (dateOfDay m).month = (dateOfDay n).month := by
  have hm := monthOf_range _ _ (dayOfYear_lt m)
  have hn := monthOf_range _ _ (dayOfYear_lt n)
  simp only [dayOfYear] at hm hn
  simp only [monthIndex, dateOfDay]
  omega

theorem monthIndex_mono {m n : ℕ} (hmn : m ≤ n) : monthIndex m ≤ monthIndex n := by
  have hm := monthOf_range _ _ (dayOfYear_lt m)
  have hn := monthOf_range _ _ (dayOfYear_lt n)
  have hy := yearOf_mono hmn
  by_cases heq : yearOf m = yearOf n
  · have hlt := dayOfYear_lt n
    have hday : dayOfYear m ≤ dayOfYear n := by
      simp only [dayOfYear, heq]
      omega
    rw [← heq] at hlt
    have hmo := monthOf_mono _ hday hlt
    simp only [dayOfYear, ← heq] at hmo
    simp only [monthIndex, dateOfDay, ← heq]
    omega
  · simp only [dayOfYear] at hm hn
    simp only [monthIndex, dateOfDay]
    omega

theorem yearOf_eq {year n : ℕ} (hy : 1 ≤ year) (hs : daysBeforeYear year ≤ n)
    (hend : n < daysBeforeYear (year + 1)) : yearOf n = year := by
  have hb := yearOf_bracket n
  have hpos := yearOf_pos n
  by_contra hne
  by_cases hlt : yearOf n < year
  · have hbe := daysBeforeYear_mono (a := yearOf n + 1) (b := year) (by omega) (by omega)
    omega
  · have ha := daysBeforeYear_mono (a := year + 1) (b := yearOf n) (by omega) (by omega)
    omega

theorem daysBeforeMonth_mono (leap : Bool) {a b : ℕ} (ha : 1 ≤ a) (hab : a ≤ b) (hb : b ≤ 13) :
    daysBeforeMonth leap a ≤ daysBeforeMonth leap b := by
  have ht : ∀ leap : Bool, ∀ b ≤ 13, ∀ a ≤ b, 1 ≤ a →
      daysBeforeMonth leap a ≤ daysBeforeMonth leap b := by decide
  exact ht leap b hb a hab ha

theorem monthOf_eq {leap : Bool} {month n : ℕ} (hlow : 1 ≤ month) (hh : month ≤ 12)
    (hs : daysBeforeMonth leap month ≤ n) (hend : n < daysBeforeMonth leap (month + 1)) :
    monthOf leap n = month := by
  have hy := daysBeforeMonth_mono leap (a := month + 1) (b := 13) (by omega) (by omega) le_rfl
  have hn : n < daysBeforeMonth leap 13 := by omega
  have hb := monthOf_bracket leap n hn
  have hr := monthOf_range leap n hn
  by_contra hne
  by_cases hlt : monthOf leap n < month
  · have hbe := daysBeforeMonth_mono leap (a := monthOf leap n + 1) (b := month) (by omega)
      (by omega) (by omega)
    omega
  · have ha := daysBeforeMonth_mono leap (a := month + 1) (b := monthOf leap n) (by omega)
      (by omega) (by omega)
    omega

/-- The days of a month are an interval of day numbers. -/
theorem month_days_iff {year month : ℕ} (hye : 1 ≤ year) (hlow : 1 ≤ month)
    (hh : month ≤ 12) (n : ℕ) :
    (dateOfDay n).year = year ∧ (dateOfDay n).month = month ↔
      daysBeforeYear year + daysBeforeMonth (isLeap year) month ≤ n ∧
        n < daysBeforeYear year + daysBeforeMonth (isLeap year) (month + 1) := by
  constructor
  · intro ⟨hy, hm⟩
    have hb := yearOf_bracket n
    have hmo := monthOf_bracket _ _ (dayOfYear_lt n)
    simp only [dayOfYear] at hmo
    simp only [dateOfDay] at hy hm
    rw [hm] at hmo
    subst hy
    omega
  · intro ⟨hs, hend⟩
    have hl := daysBeforeMonth_mono (isLeap year) (a := month + 1) (b := 13) (by omega)
      (by omega) le_rfl
    have hn := daysBeforeYear_succ_eq year hye
    have hy : yearOf n = year := yearOf_eq hye (by omega) (by omega)
    refine ⟨hy, ?_⟩
    simp only [dateOfDay, hy]
    exact monthOf_eq hlow hh (by omega) (by omega)

end Aizzak.Calendar
