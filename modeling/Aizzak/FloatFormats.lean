import Mathlib

/-!
Numbers of bounded precision among the rationals. A format keeps a fixed number of
significant digits of its base, down to a least exponent, and rounds every rational
to the nearest number it holds, ties to the even one. A number it holds is left
alone, any other moves by at most half a unit of the last digit, and what rounding
returns is held.
-/
namespace Aizzak.FloatFormats

def roundHalfEven (q : ℚ) : ℤ :=
  if q - ⌊q⌋ < 1 / 2 then ⌊q⌋
  else if 1 / 2 < q - ⌊q⌋ then ⌊q⌋ + 1
  else if ⌊q⌋ % 2 = 0 then ⌊q⌋
  else ⌊q⌋ + 1

theorem roundHalfEven_intCast (n : ℤ) : roundHalfEven n = n := by
  simp [roundHalfEven]

/-- Rounding moves a number by half a unit at most. -/
theorem abs_roundHalfEven_sub_le (q : ℚ) : |(roundHalfEven q : ℚ) - q| ≤ 1 / 2 := by
  have hlow := Int.floor_le q
  have hh := Int.lt_floor_add_one q
  rw [abs_le, roundHalfEven]
  split_ifs with hb ha he
  · constructor <;> linarith
  · push_cast
    constructor <;> linarith
  · constructor <;> linarith
  · push_cast
    constructor <;> linarith

theorem abs_roundHalfEven_le {q : ℚ} {n : ℤ} (hq : |q| < n) : |roundHalfEven q| ≤ n := by
  have hd := abs_le.mp (abs_roundHalfEven_sub_le q)
  have hr := abs_lt.mp hq
  have hbe : (roundHalfEven q : ℚ) < n + 1 := by linarith
  have hav : (-n - 1 : ℚ) < roundHalfEven q := by linarith
  have hb : roundHalfEven q < n + 1 := by exact_mod_cast hbe
  have ha : -n - 1 < roundHalfEven q := by exact_mod_cast hav
  rw [abs_le]
  omega

structure Format where
  base : ℕ
  precision : ℕ
  leastExponent : ℤ
  one_lt_base : 1 < base
  precision_pos : 0 < precision

namespace Format

variable (F : Format)

def lastExponent (q : ℚ) : ℤ := max (Int.log F.base |q| + 1 - F.precision) F.leastExponent

def unit (q : ℚ) : ℚ := (F.base : ℚ) ^ F.lastExponent q

def round (q : ℚ) : ℚ := roundHalfEven (q / F.unit q) * F.unit q

/-- The rationals a format can write down. -/
def Holds (q : ℚ) : Prop :=
  ∃ m e : ℤ, |m| < (F.base : ℤ) ^ F.precision ∧ F.leastExponent ≤ e ∧ q = m * (F.base : ℚ) ^ e

theorem one_lt_base_cast : (1 : ℚ) < F.base := by
  exact_mod_cast F.one_lt_base

theorem base_pos : (0 : ℚ) < F.base :=
  zero_lt_one.trans F.one_lt_base_cast

theorem unit_pos (q : ℚ) : 0 < F.unit q :=
  zpow_pos F.base_pos _

theorem abs_round_sub_le (q : ℚ) : |F.round q - q| ≤ F.unit q / 2 := by
  have hu := F.unit_pos q
  have hd := abs_roundHalfEven_sub_le (q / F.unit q)
  have hs : F.round q - q = (roundHalfEven (q / F.unit q) - q / F.unit q) * F.unit q := by
    rw [round]
    field_simp
  rw [hs, abs_mul, abs_of_pos hu]
  calc |(roundHalfEven (q / F.unit q) : ℚ) - q / F.unit q| * F.unit q
      ≤ 1 / 2 * F.unit q := by gcongr
    _ = F.unit q / 2 := by ring

variable {q : ℚ}

/-- A multiple of the unit of its own size is left alone. -/
theorem round_of_multiple (m e : ℤ) (hl : F.lastExponent q ≤ e) (hq : q = m * (F.base : ℚ) ^ e) :
    F.round q = q := by
  have hb := F.base_pos.ne'
  obtain ⟨d, hd⟩ := Int.eq_ofNat_of_zero_le (sub_nonneg.mpr hl)
  have hqu : q / F.unit q = ((m * (F.base : ℤ) ^ d : ℤ) : ℚ) := by
    rw [unit, div_eq_iff (zpow_ne_zero _ hb)]
    push_cast
    rw [mul_assoc, ← zpow_natCast, ← zpow_add₀ hb, ← hd, sub_add_cancel]
    exact hq
  rw [round, hqu, roundHalfEven_intCast, ← hqu]
  exact div_mul_cancel₀ q (F.unit_pos q).ne'

theorem round_zero : F.round 0 = 0 := by
  simp [round, roundHalfEven]

/-- A number written in few enough digits needs none past the last exponent. -/
theorem lastExponent_le {m e : ℤ} (hm : |m| < (F.base : ℤ) ^ F.precision)
    (he : F.leastExponent ≤ e) (hz : m ≠ 0) :
    F.lastExponent (m * (F.base : ℚ) ^ e) ≤ e := by
  have hb := F.base_pos
  have hpow : (0 : ℚ) < (F.base : ℚ) ^ e := zpow_pos hb e
  have hs : |(m : ℚ) * (F.base : ℚ) ^ e| < (F.base : ℚ) ^ ((F.precision : ℤ) + e) := by
    have hc : |(m : ℚ)| < (F.base : ℚ) ^ F.precision := by exact_mod_cast hm
    rw [abs_mul, abs_of_pos hpow, zpow_add₀ hb.ne', zpow_natCast]
    gcongr
  have hpos : 0 < |(m : ℚ) * (F.base : ℚ) ^ e| := by
    apply abs_pos.mpr
    exact mul_ne_zero (Int.cast_ne_zero.mpr hz) hpow.ne'
  have hlog := (Int.lt_zpow_iff_log_lt F.one_lt_base hpos).mp hs
  exact max_le (by omega) he

theorem round_of_holds (hq : F.Holds q) : F.round q = q := by
  obtain ⟨m, e, hm, he, rfl⟩ := hq
  by_cases hz : m = 0
  · subst m
    simpa using F.round_zero
  · exact F.round_of_multiple m e (F.lastExponent_le hm he hz) rfl

theorem abs_div_unit_lt (q : ℚ) : |q / F.unit q| < (F.base : ℚ) ^ F.precision := by
  have hu := F.unit_pos q
  have hlog := Int.lt_zpow_succ_log_self F.one_lt_base |q|
  rw [abs_div, abs_of_pos hu, div_lt_iff₀ hu, unit, ← zpow_natCast,
    ← zpow_add₀ F.base_pos.ne']
  apply hlog.trans_le
  apply zpow_le_zpow_right₀ F.one_lt_base_cast.le
  have hl : Int.log F.base |q| + 1 - F.precision ≤ F.lastExponent q := le_max_left _ _
  omega

/-- A carry into one more digit is held too, with its last digit dropped. -/
theorem holds_of_abs_le {m e : ℤ} (hm : |m| ≤ (F.base : ℤ) ^ F.precision)
    (he : F.leastExponent ≤ e) : F.Holds (m * (F.base : ℚ) ^ e) := by
  by_cases hc : |m| = (F.base : ℤ) ^ F.precision
  · have hb : (1 : ℤ) < F.base := by exact_mod_cast F.one_lt_base
    have hd : F.precision = F.precision - 1 + 1 := by
      have hpos := F.precision_pos
      omega
    have hf : (F.base : ℤ) ^ (F.precision - 1) < (F.base : ℤ) ^ F.precision :=
      pow_lt_pow_right₀ hb (by omega)
    have hs : ∀ s : ℤ, (s * F.base : ℚ) * (F.base : ℚ) ^ e = s * (F.base : ℚ) ^ (e + 1) := by
      intro s
      rw [zpow_add_one₀ F.base_pos.ne']
      ring
    have hpow : (0 : ℤ) ≤ (F.base : ℤ) ^ (F.precision - 1) := by positivity
    rw [hd, pow_succ] at hc
    rcases eq_or_eq_neg_of_abs_eq hc with hval | hval
    · refine ⟨(F.base : ℤ) ^ (F.precision - 1), e + 1, ?_, by omega, ?_⟩
      · rwa [abs_of_nonneg hpow]
      · rw [← hs, hval]
        push_cast
        ring
    · refine ⟨-(F.base : ℤ) ^ (F.precision - 1), e + 1, ?_, by omega, ?_⟩
      · rwa [abs_neg, abs_of_nonneg hpow]
      · rw [← hs, hval]
        push_cast
        ring
  · exact ⟨m, e, lt_of_le_of_ne hm hc, he, rfl⟩

theorem holds_round (q : ℚ) : F.Holds (F.round q) := by
  have hlt := F.abs_div_unit_lt q
  apply F.holds_of_abs_le
  · apply abs_roundHalfEven_le
    exact_mod_cast hlt
  · exact le_max_right _ _

theorem round_eq_self_iff (q : ℚ) : F.round q = q ↔ F.Holds q := by
  constructor
  · intro hr
    rw [← hr]
    exact F.holds_round q
  · exact F.round_of_holds

variable {k : ℤ}

theorem unit_le (hz : q ≠ 0) (hs : |q| < (F.base : ℚ) ^ k) :
    F.unit q ≤ (F.base : ℚ) ^ max (k - F.precision) F.leastExponent := by
  have hlog := (Int.lt_zpow_iff_log_lt F.one_lt_base (abs_pos.mpr hz)).mp hs
  apply zpow_le_zpow_right₀ F.one_lt_base_cast.le
  exact max_le_max (by omega) le_rfl

/-- A fraction whose rounding moves by less than one part of its denominator keeps its
ceiling. -/
theorem ceil_round {n : ℕ} (hn : 0 < n) (hu : F.unit (k / n) < 2 / n)
    (hint : ∀ m : ℤ, (k / n : ℚ) = m → F.Holds m) :
    ⌈F.round (k / n)⌉ = ⌈(k / n : ℚ)⌉ := by
  have hnc : (0 : ℚ) < n := by exact_mod_cast hn
  have hd := abs_le.mp (F.abs_round_sub_le (k / n))
  by_cases hw : ∃ m : ℤ, (k / n : ℚ) = m
  · obtain ⟨m, hm⟩ := hw
    rw [hm, F.round_of_holds (hint m hm)]
  · have hst : ∀ m : ℤ, (k / n : ℚ) < m → (k / n : ℚ) ≤ m - 1 / n := by
      intro m hlt
      rw [div_lt_iff₀ hnc] at hlt
      have hint : k + 1 ≤ m * n := by exact_mod_cast hlt
      have hca : (k : ℚ) + 1 ≤ m * n := by exact_mod_cast hint
      rw [div_le_iff₀ hnc, sub_mul, one_div_mul_cancel hnc.ne']
      linarith
    have hba : ∀ m : ℤ, (m : ℚ) < k / n → (m : ℚ) + 1 / n ≤ k / n := by
      intro m hlt
      rw [lt_div_iff₀ hnc] at hlt
      have hint : m * n + 1 ≤ k := by exact_mod_cast hlt
      have hca : (m : ℚ) * n + 1 ≤ k := by exact_mod_cast hint
      rw [le_div_iff₀ hnc, add_mul, one_div_mul_cancel hnc.ne']
      linarith
    have hc := Int.ceil_eq_iff.mp (rfl : ⌈(k / n : ℚ)⌉ = ⌈(k / n : ℚ)⌉)
    have hne : (k / n : ℚ) ≠ ⌈(k / n : ℚ)⌉ := fun heq => hw ⟨_, heq⟩
    have htop := hst _ (lt_of_le_of_ne hc.2 hne)
    have hb := hba (⌈(k / n : ℚ)⌉ - 1) (by exact_mod_cast hc.1)
    have hs : (2 : ℚ) / n = 1 / n + 1 / n := by ring
    rw [Int.ceil_eq_iff]
    push_cast at hb
    constructor <;> linarith

theorem le_lastExponent (hs : (F.base : ℚ) ^ k ≤ |q|) :
    k + 1 - F.precision ≤ F.lastExponent q := by
  have hpos : 0 < |q| := (zpow_pos F.base_pos k).trans_le hs
  have hlog := (Int.zpow_le_iff_le_log F.one_lt_base hpos).mp hs
  exact le_trans (by omega) (le_max_left _ _)

/-- A number of at least as many digits as the precision rounds to a multiple of the power
that its further digits count. -/
theorem round_eq_multiple {k : ℕ} (hs : (F.base : ℚ) ^ k ≤ |q|) (hk : F.precision ≤ k + 1) :
    ∃ n : ℤ, F.round q = ((n * (F.base : ℤ) ^ (k + 1 - F.precision) : ℤ) : ℚ) := by
  have hl := F.le_lastExponent (k := k) (by exact_mod_cast hs)
  obtain ⟨d, hd⟩ := Int.eq_ofNat_of_zero_le
    (show 0 ≤ F.lastExponent q - (k + 1 - F.precision : ℕ) by omega)
  refine ⟨roundHalfEven (q / F.unit q) * (F.base : ℤ) ^ d, ?_⟩
  have hexp : F.lastExponent q = (d : ℤ) + ((k + 1 - F.precision : ℕ) : ℤ) := by omega
  rw [round, unit, hexp, zpow_add₀ F.base_pos.ne', zpow_natCast, zpow_natCast]
  push_cast
  ring

theorem dvd_of_holds {n : ℤ} {k : ℕ} (hn : F.Holds n) (hs : (F.base : ℤ) ^ k ≤ |n|)
    (hk : F.precision ≤ k + 1) : (F.base : ℤ) ^ (k + 1 - F.precision) ∣ n := by
  obtain ⟨m, hm⟩ := F.round_eq_multiple (q := n) (by exact_mod_cast hs) hk
  rw [F.round_of_holds hn] at hm
  refine ⟨m, ?_⟩
  rw [mul_comm]
  exact_mod_cast hm

theorem ceil_round_ne {n : ℤ} {k : ℕ} (hn : ¬F.Holds n) (hs : (F.base : ℤ) ^ k ≤ |n|)
    (hk : F.precision ≤ k + 1) : ⌈F.round n⌉ ≠ n := by
  obtain ⟨m, hm⟩ := F.round_eq_multiple (q := n) (by exact_mod_cast hs) hk
  intro hc
  apply hn
  rw [hm, Int.ceil_intCast] at hc
  rw [← F.round_eq_self_iff, hm, hc]

end Format

end Aizzak.FloatFormats
