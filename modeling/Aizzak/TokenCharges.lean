import Aizzak.FloatFormats
import Aizzak.PriceTable

/-!
What one call costs. Both products and their sum pass through the default decimal
context, which keeps 28 digits and rounds half to even, before the charge is rounded
up. The charge is the exact ceiling while the digits suffice; beyond them the context
may round it down, and a nonzero price has token counts for which it does.
-/
namespace Aizzak.TokenCharges

open PyText PriceTable FloatFormats

def decimalContext : Format := ⟨10, 28, -1000026, by decide, by decide⟩

def overflowAt : ℚ := 10 ^ 1000000

/-- A result of the context; none is the trapped overflow. -/
def inContext (q : ℚ) : Option ℚ :=
  if |decimalContext.round q| < overflowAt then some (decimalContext.round q) else none

inductive CostError where
  | unpriced (provider model : Text)
  | overflow
deriving DecidableEq, Repr

def exactCharge (price : ModelPrice) (promptTokens completionTokens : ℤ) : ℚ :=
  price.input.value * promptTokens + price.output.value * completionTokens

def contextCharge (price : ModelPrice) (promptTokens completionTokens : ℤ) : Option ℚ :=
  (inContext (price.input.value * promptTokens)).bind fun input =>
    (inContext (price.output.value * completionTokens)).bind fun output =>
      inContext (input + output)

def costMicros (pricing : LlmPricing) (provider model : Text)
    (promptTokens completionTokens : ℤ) : Except CostError ℤ :=
  if provider ∈ pricing.keyless ∨ promptTokens ≤ 0 ∧ completionTokens ≤ 0 then .ok 0
  else
    match pricing.prices.lookup (provider, model) with
    | none => .error (.unpriced provider model)
    | some price =>
      match contextCharge price (max promptTokens 0) (max completionTokens 0) with
      | none => .error .overflow
      | some charge => .ok ⌈charge⌉

theorem overflowAt_pos : 0 < overflowAt := by
  rw [overflowAt]
  positivity

theorem inContext_zero : inContext 0 = some 0 := by
  rw [inContext, decimalContext.round_zero, abs_zero, if_pos overflowAt_pos]

variable {q : ℚ}

theorem inContext_of_holds (hh : decimalContext.Holds q) (hs : |q| < overflowAt) :
    inContext q = some q := by
  rw [inContext, decimalContext.round_of_holds hh, if_pos hs]

/-- What the context returned passes through it unchanged. -/
theorem inContext_idem {r : ℚ} (hr : inContext q = some r) : inContext r = some r := by
  rw [inContext] at hr
  split_ifs at hr with hs
  cases hr
  exact inContext_of_holds (decimalContext.holds_round q) hs

section Charge

variable {pricing : LlmPricing} {provider model : Text} {price : ModelPrice}

theorem contextCharge_input (p : ℤ) :
    contextCharge price p 0 = inContext (price.input.value * p) := by
  rw [contextCharge, Int.cast_zero, mul_zero, inContext_zero]
  cases hi : inContext (price.input.value * p) with
  | none => rfl
  | some input =>
    rw [Option.bind_some, Option.bind_some, add_zero]
    exact inContext_idem hi

theorem contextCharge_output (c : ℤ) :
    contextCharge price 0 c = inContext (price.output.value * c) := by
  rw [contextCharge, Int.cast_zero, mul_zero, inContext_zero, Option.bind_some]
  cases ho : inContext (price.output.value * c) with
  | none => rfl
  | some output =>
    rw [Option.bind_some, zero_add]
    exact inContext_idem ho

variable {p c : ℤ}

theorem costMicros_priced (hprice : pricing.prices.lookup (provider, model) = some price)
    (hpaid : provider ∉ pricing.keyless) (hp : 0 ≤ p) (hc : 0 ≤ c) :
    costMicros pricing provider model p c =
      match contextCharge price p c with
      | none => .error .overflow
      | some charge => .ok ⌈charge⌉ := by
  rw [costMicros, max_eq_left hp, max_eq_left hc, hprice]
  by_cases hi : p ≤ 0 ∧ c ≤ 0
  · obtain rfl : p = 0 := by omega
    obtain rfl : c = 0 := by omega
    rw [if_pos (Or.inr ⟨le_rfl, le_rfl⟩), contextCharge_input, Int.cast_zero, mul_zero,
      inContext_zero]
    simp
  · rw [if_neg (by tauto)]

/-- Of an accepted table no call that a configured route sends is without a price. -/
theorem costMicros_routed {raw : Raw} {providers : List ConfiguredProvider}
    (h : forRoutes raw providers = .ok pricing) {entry : ConfiguredProvider}
    (hentry : entry ∈ providers) {route : ProviderRoute} (hroute : route ∈ entry.routes)
    (hllm : route.isLlm = true) :
    costMicros pricing entry.provider route.model p c ≠ .error (.unpriced provider model) := by
  obtain ⟨prices, -, hpriced, rfl⟩ := forRoutes_eq_ok_iff.mp h
  rw [costMicros]
  split_ifs with hfree
  · simp
  · have hkeyless : entry.keyless = false := by
      by_contra hk
      exact hfree (Or.inl (mem_keylessOf.mpr ⟨entry, hentry, by simpa using hk, rfl⟩))
    obtain ⟨price, hprice⟩ := Option.isSome_iff_exists.mp
      (AList.lookup_isSome.mpr (hpriced.paid entry hentry hkeyless route hroute hllm))
    simp only [hprice]
    split
    · simp
    · simp

/-- The digits of the exact charge, counted from a power of ten both prices are whole
multiples of, fit the context. -/
def Fits (price : ModelPrice) (p c : ℤ) : Prop :=
  ∃ (unit : ℤ) (i o : ℕ), decimalContext.leastExponent ≤ unit ∧
    price.input.value = i * (10 : ℚ) ^ unit ∧ price.output.value = o * (10 : ℚ) ^ unit ∧
    i * p + o * c < 10 ^ 28 ∧ exactCharge price p c < overflowAt

theorem value_nonneg (p : Price) : 0 ≤ p.value := by
  rw [Price.value]
  positivity

theorem inContext_whole {unit n : ℤ} (hu : decimalContext.leastExponent ≤ unit) (hn : 0 ≤ n)
    (hd : n < 10 ^ 28) (hs : n * (10 : ℚ) ^ unit < overflowAt) :
    inContext (n * (10 : ℚ) ^ unit) = some (n * (10 : ℚ) ^ unit) := by
  have hno : (0 : ℚ) ≤ n * (10 : ℚ) ^ unit := by
    have hca : (0 : ℚ) ≤ n := by exact_mod_cast hn
    positivity
  apply inContext_of_holds
  · refine ⟨n, unit, ?_, hu, rfl⟩
    rw [abs_of_nonneg hn]
    exact hd
  · exact (abs_of_nonneg hno).trans_lt hs

/-- While the digits fit, nothing is rounded before the ceiling. -/
theorem contextCharge_of_fits (hp : 0 ≤ p) (hc : 0 ≤ c) (hfits : Fits price p c) :
    contextCharge price p c = some (exactCharge price p c) := by
  obtain ⟨unit, i, o, hu, hi, ho, hd, hsi⟩ := hfits
  have hip : (0 : ℤ) ≤ i * p := by positivity
  have hoc : (0 : ℤ) ≤ o * c := by positivity
  have hin : price.input.value * p = ((i * p : ℤ) : ℚ) * (10 : ℚ) ^ unit := by
    rw [hi]
    push_cast
    ring
  have hou : price.output.value * c = ((o * c : ℤ) : ℚ) * (10 : ℚ) ^ unit := by
    rw [ho]
    push_cast
    ring
  have hsum : price.input.value * p + price.output.value * c =
      ((i * p + o * c : ℤ) : ℚ) * (10 : ℚ) ^ unit := by
    rw [hin, hou]
    push_cast
    ring
  have hpq : (0 : ℚ) ≤ p := by exact_mod_cast hp
  have hcq : (0 : ℚ) ≤ c := by exact_mod_cast hc
  have hinputNonneg : 0 ≤ price.input.value * p := mul_nonneg (value_nonneg _) hpq
  have houtputNonneg : 0 ≤ price.output.value * c := mul_nonneg (value_nonneg _) hcq
  rw [exactCharge] at hsi ⊢
  have hf : inContext (price.input.value * p) = some (price.input.value * p) := by
    rw [hin] at hsi hinputNonneg ⊢
    exact inContext_whole hu hip (by omega) (by linarith)
  have hs : inContext (price.output.value * c) = some (price.output.value * c) := by
    rw [hou] at hsi houtputNonneg ⊢
    exact inContext_whole hu hoc (by omega) (by linarith)
  rw [contextCharge, hf, Option.bind_some, hs, Option.bind_some, hsum]
  rw [hsum] at hsi
  exact inContext_whole hu (by omega) hd hsi

theorem exactCharge_add (p₁ p₂ c₁ c₂ : ℤ) :
    exactCharge price (p₁ + p₂) (c₁ + c₂) =
      exactCharge price p₁ c₁ + exactCharge price p₂ c₂ := by
  simp only [exactCharge]
  push_cast
  ring

theorem exactCharge_nonneg (hp : 0 ≤ p) (hc : 0 ≤ c) : 0 ≤ exactCharge price p c := by
  have hpq : (0 : ℚ) ≤ p := by exact_mod_cast hp
  have hcq : (0 : ℚ) ≤ c := by exact_mod_cast hc
  exact add_nonneg (mul_nonneg (value_nonneg _) hpq) (mul_nonneg (value_nonneg _) hcq)

/-- A part of the tokens needs no more digits than all of them. -/
theorem Fits.of_add {p₁ p₂ c₁ c₂ : ℤ} (hp₂ : 0 ≤ p₂) (hc₂ : 0 ≤ c₂)
    (hfits : Fits price (p₁ + p₂) (c₁ + c₂)) : Fits price p₁ c₁ := by
  obtain ⟨unit, i, o, hu, hi, ho, hd, hs⟩ := hfits
  have hip : (0 : ℤ) ≤ i * p₂ := by positivity
  have hoc : (0 : ℤ) ≤ o * c₂ := by positivity
  have hr : 0 ≤ exactCharge price p₂ c₂ := exactCharge_nonneg hp₂ hc₂
  rw [exactCharge_add] at hs
  refine ⟨unit, i, o, hu, hi, ho, ?_, by linarith⟩
  rw [mul_add, mul_add] at hd
  omega

theorem Fits.of_add_right {p₁ p₂ c₁ c₂ : ℤ} (hp₁ : 0 ≤ p₁) (hc₁ : 0 ≤ c₁)
    (hfits : Fits price (p₁ + p₂) (c₁ + c₂)) : Fits price p₂ c₂ := by
  rw [add_comm p₁, add_comm c₁] at hfits
  exact hfits.of_add hp₁ hc₁

/-- The charge is the ceiling of the exact rational, and splitting the tokens costs at
most one micro more and never less. -/
def ChargeLaw (pricing : LlmPricing) (provider model : Text) (price : ModelPrice) (p c : ℤ) :
    Prop :=
  costMicros pricing provider model p c = .ok ⌈exactCharge price p c⌉ ∧
    ∀ p₁ p₂ c₁ c₂ : ℤ, 0 ≤ p₁ → 0 ≤ p₂ → 0 ≤ c₁ → 0 ≤ c₂ → p₁ + p₂ = p → c₁ + c₂ = c →
      ∃ cost cost₁ cost₂, costMicros pricing provider model p c = .ok cost ∧
        costMicros pricing provider model p₁ c₁ = .ok cost₁ ∧
        costMicros pricing provider model p₂ c₂ = .ok cost₂ ∧
        cost ≤ cost₁ + cost₂ ∧ cost₁ + cost₂ ≤ cost + 1

section

variable (hprice : pricing.prices.lookup (provider, model) = some price)
    (hpaid : provider ∉ pricing.keyless) (hp : 0 ≤ p) (hc : 0 ≤ c) (hfits : Fits price p c)
include hprice hpaid hp hc hfits

theorem costMicros_of_fits :
    costMicros pricing provider model p c = .ok ⌈exactCharge price p c⌉ := by
  rw [costMicros_priced hprice hpaid hp hc, contextCharge_of_fits hp hc hfits]

theorem chargeLaw_of_fits : ChargeLaw pricing provider model price p c := by
  refine ⟨costMicros_of_fits hprice hpaid hp hc hfits, ?_⟩
  rintro p₁ p₂ c₁ c₂ hp₁ hp₂ hc₁ hc₂ rfl rfl
  have hf := costMicros_of_fits hprice hpaid hp₁ hc₁ (hfits.of_add hp₂ hc₂)
  have hs := costMicros_of_fits hprice hpaid hp₂ hc₂ (hfits.of_add_right hp₁ hc₁)
  refine ⟨_, _, _, costMicros_of_fits hprice hpaid hp hc hfits, hf, hs, ?_⟩
  rw [exactCharge_add]
  exact ⟨Int.ceil_add_le _ _, Int.ceil_add_ceil_le _ _⟩

end

variable {amount : Price}

theorem exists_whole_charge (ha : amount.coefficient ≠ 0) :
    ∃ tokens m : ℕ, 0 < m ∧ amount.value * tokens = m := by
  by_cases hexp : 0 ≤ amount.exponent
  · obtain ⟨e, he⟩ := Int.eq_ofNat_of_zero_le hexp
    refine ⟨1, amount.coefficient * 10 ^ e, by positivity, ?_⟩
    rw [Price.value, he, zpow_natCast]
    push_cast
    ring
  · obtain ⟨e, he⟩ := Int.eq_ofNat_of_zero_le (show 0 ≤ -amount.exponent by omega)
    have hneg : amount.exponent = -(e : ℤ) := by omega
    refine ⟨10 ^ e, amount.coefficient, by omega, ?_⟩
    rw [Price.value, hneg, zpow_neg, zpow_natCast]
    push_cast
    field_simp

def spread (m d : ℕ) : ℤ := m * (10 ^ (d + 28) + 1)

theorem le_abs_spread {m : ℕ} (hm : 0 < m) (d : ℕ) :
    (decimalContext.base : ℤ) ^ (d + 28) ≤ |spread m d| := by
  have hone : (1 : ℤ) ≤ m := by exact_mod_cast hm
  have hb : (decimalContext.base : ℤ) = 10 := rfl
  rw [hb]
  apply le_trans _ (le_abs_self _)
  rw [spread]
  have hpow : (0 : ℤ) < 10 ^ (d + 28) := by positivity
  generalize (10 : ℤ) ^ (d + 28) = w at hpow ⊢
  calc w ≤ 1 * (w + 1) := by omega
    _ ≤ m * (w + 1) := Int.mul_le_mul_of_nonneg_right hone (by omega)

/-- A spread number has too many digits for the context. -/
theorem not_holds_spread {m d : ℕ} (hm : 0 < m) (hd : m < 10 ^ d) :
    ¬decimalContext.Holds (spread m d) := by
  intro hh
  have hdvd := decimalContext.dvd_of_holds hh (le_abs_spread hm d)
    (show 28 ≤ d + 28 + 1 by omega)
  have hexp : d + 28 + 1 - decimalContext.precision = d + 1 := by
    change d + 28 + 1 - 28 = d + 1
    omega
  have hb : (decimalContext.base : ℤ) = 10 := rfl
  rw [hexp, hb, spread, mul_add, mul_one] at hdvd
  have hl : (10 : ℤ) ^ (d + 1) ∣ (m : ℤ) * 10 ^ (d + 28) := by
    apply Dvd.dvd.mul_left
    exact pow_dvd_pow 10 (by omega)
  have hr : (10 : ℤ) ^ (d + 1) ∣ (m : ℤ) := (Int.dvd_add_right hl).mp hdvd
  have hle := Int.le_of_dvd (by exact_mod_cast hm) hr
  have hlt : (m : ℤ) < 10 ^ d := by exact_mod_cast hd
  have hmo : (10 : ℤ) ^ d ≤ 10 ^ (d + 1) := pow_le_pow_right₀ (by norm_num) (by omega)
  omega

/-- A nonzero price has a token count whose charge is not the exact ceiling. -/
theorem exists_misrounded (ha : amount.coefficient ≠ 0) :
    ∃ tokens : ℕ, ∀ r, inContext (amount.value * tokens) = some r →
      ⌈r⌉ ≠ ⌈amount.value * tokens⌉ := by
  obtain ⟨tokens, m, hm, hw⟩ := exists_whole_charge ha
  have hd : m < 10 ^ m := Nat.lt_pow_self (by decide)
  have hs : amount.value * ((tokens * (10 ^ (m + 28) + 1) : ℕ) : ℚ) = spread m m := by
    rw [spread]
    push_cast
    rw [← mul_assoc, hw]
  refine ⟨tokens * (10 ^ (m + 28) + 1), fun r hr => ?_⟩
  rw [hs] at hr ⊢
  rw [inContext] at hr
  split_ifs at hr with hsi
  cases hr
  rw [Int.ceil_intCast]
  exact decimalContext.ceil_round_ne (not_holds_spread hm hd) (le_abs_spread hm m)
    (show 28 ≤ m + 28 + 1 by omega)

theorem coefficient_eq_zero_of_law (hlaw : ∀ tokens : ℕ, ∃ r,
    inContext (amount.value * tokens) = some r ∧ ⌈r⌉ = ⌈amount.value * tokens⌉) :
    amount.coefficient = 0 := by
  by_contra ha
  obtain ⟨tokens, hm⟩ := exists_misrounded ha
  obtain ⟨r, hr, hce⟩ := hlaw tokens
  exact hm r hr hce

theorem fits_of_free (hi : price.input.coefficient = 0) (ho : price.output.coefficient = 0)
    (p c : ℤ) : Fits price p c := by
  have hin : price.input.value = 0 := by simp [Price.value, hi]
  have hout : price.output.value = 0 := by simp [Price.value, ho]
  refine ⟨0, 0, 0, by decide, by simp [hin], by simp [hout], by norm_num, ?_⟩
  rw [exactCharge, hin, hout, zero_mul, zero_mul, add_zero]
  exact overflowAt_pos

theorem contextCharge_of_law (hprice : pricing.prices.lookup (provider, model) = some price)
    (hpaid : provider ∉ pricing.keyless) (hp : 0 ≤ p) (hc : 0 ≤ c)
    (hlaw : ChargeLaw pricing provider model price p c) :
    ∃ r, contextCharge price p c = some r ∧ ⌈r⌉ = ⌈exactCharge price p c⌉ := by
  have hco := hlaw.1
  rw [costMicros_priced hprice hpaid hp hc] at hco
  cases hch : contextCharge price p c with
  | none =>
    rw [hch] at hco
    contradiction
  | some r =>
    rw [hch] at hco
    exact ⟨r, rfl, Except.ok.inj hco⟩

/-- The law holds of every pair of token counts only of a free model; of given token
counts it holds, for every split of them, while their digits fit the context. -/
theorem charge_law (hprice : pricing.prices.lookup (provider, model) = some price)
    (hpaid : provider ∉ pricing.keyless) :
    ((∀ p c, 0 ≤ p → 0 ≤ c → ChargeLaw pricing provider model price p c) ↔
        price.input.coefficient = 0 ∧ price.output.coefficient = 0) ∧
      ∀ p c, 0 ≤ p → 0 ≤ c → Fits price p c → ChargeLaw pricing provider model price p c := by
  refine ⟨⟨fun hlaw => ⟨?_, ?_⟩, ?_⟩, fun p c hp hc => chargeLaw_of_fits hprice hpaid hp hc⟩
  · apply coefficient_eq_zero_of_law
    intro tokens
    obtain ⟨r, hr, hce⟩ := contextCharge_of_law hprice hpaid (Int.natCast_nonneg tokens) le_rfl
      (hlaw tokens 0 (Int.natCast_nonneg tokens) le_rfl)
    rw [contextCharge_input] at hr
    exact ⟨r, by simpa using hr, by simpa [exactCharge] using hce⟩
  · apply coefficient_eq_zero_of_law
    intro tokens
    obtain ⟨r, hr, hce⟩ := contextCharge_of_law hprice hpaid le_rfl (Int.natCast_nonneg tokens)
      (hlaw 0 tokens le_rfl (Int.natCast_nonneg tokens))
    rw [contextCharge_output] at hr
    exact ⟨r, by simpa using hr, by simpa [exactCharge] using hce⟩
  · intro ⟨hi, ho⟩ p c hp hc
    exact chargeLaw_of_fits hprice hpaid hp hc (fits_of_free hi ho p c)

end Charge

def openai : Text := ofString "openai"

def gptModel : Text := ofString "gpt-mini"

def oneModel (input output : String) : Raw :=
  .dict [(.str (ofString "openai/gpt-mini"), .dict [(.str Side.input.name, .str (ofString input)),
    (.str Side.output.name, .str (ofString output))])]

def pricedAt (input output : Price) : Prices :=
  AList.insert (openai, gptModel) ⟨input, output⟩ ∅

theorem lookup_pricedAt (input output : Price) :
    (LlmPricing.mk (pricedAt input output) []).prices.lookup (openai, gptModel) =
      some ⟨input, output⟩ :=
  AList.lookup_insert _

theorem lt_overflowAt (hq : q < 10 ^ 3) : q < overflowAt :=
  hq.trans_le (pow_le_pow_right₀ (by norm_num) (by norm_num))

theorem charge_law_dime : parsePrices (oneModel "0.4" "1.6") = .ok (pricedAt ⟨4, -1⟩ ⟨16, -1⟩) ∧
    ChargeLaw ⟨pricedAt ⟨4, -1⟩ ⟨16, -1⟩, []⟩ openai gptModel ⟨⟨4, -1⟩, ⟨16, -1⟩⟩ 1203 7 := by
  have hfits : Fits ⟨⟨4, -1⟩, ⟨16, -1⟩⟩ 1203 7 := by
    refine ⟨-1, 4, 16, by decide, by simp [Price.value], by simp [Price.value], by decide, ?_⟩
    apply lt_overflowAt
    norm_num [exactCharge, Price.value]
  have hlaw := charge_law (lookup_pricedAt ⟨4, -1⟩ ⟨16, -1⟩) List.not_mem_nil
  exact ⟨rfl, hlaw.2 1203 7 (by decide) (by decide) hfits⟩

def fine : Price := ⟨10 ^ 28 + 1, -28⟩

theorem fine_value : fine.value = 1 + 1 / 10 ^ 28 := by
  norm_num [fine, Price.value]

theorem round_fine : decimalContext.round fine.value = 1 := by
  have hlog : Int.log 10 |fine.value| = 0 := by
    rw [fine_value]
    have hpos : (0 : ℚ) < |1 + 1 / 10 ^ 28| := by norm_num
    have hlow := (Int.zpow_le_iff_le_log (b := 10) (x := 0) (by decide) hpos).mp (by norm_num)
    have hh := (Int.lt_zpow_iff_log_lt (b := 10) (x := 1) (by decide) hpos).mp (by norm_num)
    omega
  have hu : decimalContext.unit fine.value = 1 / 10 ^ 27 := by
    rw [Format.unit, Format.lastExponent]
    simp only [decimalContext]
    rw [hlog]
    norm_num
  have hq : fine.value / (1 / 10 ^ 27) = (10 ^ 27 : ℤ) + 1 / 10 := by
    rw [fine_value]
    norm_num
  have hf : ⌊((10 ^ 27 : ℤ) + 1 / 10 : ℚ)⌋ = 10 ^ 27 := by
    rw [Int.floor_eq_iff]
    norm_num
  rw [Format.round, hu, hq, roundHalfEven, hf]
  norm_num

/-- An accepted price of 29 digits charges one micro for a token that costs more. -/
theorem fine_price_undercharges :
    parsePrices (oneModel "1.0000000000000000000000000001" "0") = .ok (pricedAt fine ⟨0, 0⟩) ∧
      costMicros ⟨pricedAt fine ⟨0, 0⟩, []⟩ openai gptModel 1 0 = .ok 1 ∧
      ⌈exactCharge ⟨fine, ⟨0, 0⟩⟩ 1 0⌉ = 2 ∧
      ¬ChargeLaw ⟨pricedAt fine ⟨0, 0⟩, []⟩ openai gptModel ⟨fine, ⟨0, 0⟩⟩ 1 0 := by
  have hco : costMicros ⟨pricedAt fine ⟨0, 0⟩, []⟩ openai gptModel 1 0 = .ok 1 := by
    rw [costMicros_priced (lookup_pricedAt fine ⟨0, 0⟩) List.not_mem_nil (by decide) (by decide),
      contextCharge_input, Int.cast_one, mul_one, inContext, round_fine]
    have hs : |(1 : ℚ)| < overflowAt := lt_overflowAt (by norm_num)
    rw [if_pos hs]
    simp
  have hexact : ⌈exactCharge ⟨fine, ⟨0, 0⟩⟩ 1 0⌉ = 2 := by
    rw [Int.ceil_eq_iff, exactCharge, fine_value]
    norm_num
  refine ⟨by rfl, hco, hexact, ?_⟩
  intro hlaw
  have hce := hlaw.1
  rw [hco, hexact] at hce
  exact absurd (Except.ok.inj hce) (by decide)

end Aizzak.TokenCharges
