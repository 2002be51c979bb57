import Aizzak.PyText
import Aizzak.UsageLedger

/-!
The pure limit engine: which configured and default rules govern a call, which
rollup bucket each of them reads, and how the resolved checks are turned into one
decision. A call is allowed exactly when no check is violated.
-/
namespace Aizzak.LimitEvaluation

open UsageLedger PyText

inductive LimitScope where
  | workspace
  | agent
  | provider
deriving DecidableEq, Repr

inductive Metric where
  | tokens
  | costMicros
deriving DecidableEq, Repr

inductive DenyReason where
  | quotaExceeded
  | budgetExceeded
deriving DecidableEq, Repr

def Metric.amount : Metric → UsageTotals → ℕ
  | tokens, totals => totals.tokens
  | costMicros, totals => totals.costMicros

@[simp] theorem Metric.amount_zero (metric : Metric) : metric.amount 0 = 0 := by
  cases metric <;> rfl

@[simp] theorem Metric.amount_add (metric : Metric) (a b : UsageTotals) :
    metric.amount (a + b) = metric.amount a + metric.amount b := by
  cases metric <;> rfl

theorem Metric.amount_sum (metric : Metric) (totals : List UsageTotals) :
    metric.amount totals.sum = (totals.map metric.amount).sum := by
  induction totals with
  | nil => simp
  | cons t totals ih => simp [ih]

/-- A scope and the key it must name: the wildcard for the whole workspace, a
specific and non-blank key for an agent or a provider. -/
def ScopeKeyValid (scope : LimitScope) (scopeKey : String) : Prop :=
  match scope with
  | .workspace => scopeKey = wildcard
  | .agent | .provider => ¬ Blank (ofString scopeKey) ∧ scopeKey ≠ wildcard

instance (scopeKey : String) : (scope : LimitScope) → Decidable (ScopeKeyValid scope scopeKey)
  | .workspace => inferInstanceAs (Decidable (scopeKey = wildcard))
  | .agent | .provider => inferInstanceAs (Decidable (¬ _ ∧ _))

structure LimitRule where
  scope : LimitScope
  scopeKey : String
  metric : Metric
  period : Period
  limitValue : ℕ
  keyValid : ScopeKeyValid scope scopeKey
deriving DecidableEq

def LimitRule.workspaceWide (metric : Metric) (period : Period) (limitValue : ℕ) : LimitRule :=
  ⟨.workspace, wildcard, metric, period, limitValue, rfl⟩

structure UsageSettings where
  defaultLimits : List (Metric × List (Period × ℕ))

/-- The configured rules, then a workspace rule for every default whose metric and
period no configured workspace rule covers. -/
def withDefaults (configured : List LimitRule) (settings : UsageSettings) : List LimitRule :=
  configured ++ settings.defaultLimits.flatMap fun (metric, byPeriod) =>
    byPeriod.filterMap fun (period, limitValue) =>
      if ∃ rule ∈ configured, rule.scope = .workspace ∧ rule.metric = metric ∧
          rule.period = period then none
      else some (LimitRule.workspaceWide metric period limitValue)

def governs (rule : LimitRule) (agent provider : String) : Bool :=
  match rule.scope with
  | .workspace => true
  | .agent => rule.scopeKey == agent
  | .provider => rule.scopeKey == provider

def bucketFor (scope : LimitScope) (agent provider : String) : String × String :=
  match scope with
  | .workspace => (wildcard, wildcard)
  | .agent => (agent, wildcard)
  | .provider => (wildcard, provider)

structure LimitCheck where
  scope : LimitScope
  metric : Metric
  period : Period
  limitValue : ℕ
  current : ℕ
deriving DecidableEq, Repr

structure Decision where
  allowed : Bool
  reason : Option DenyReason
  remaining : Option ℕ
deriving DecidableEq, Repr

structure Evaluation where
  decision : Decision
  binding : Option LimitCheck
deriving DecidableEq, Repr

structure Estimates where
  tokens : Option ℤ
  costMicros : Option ℤ
deriving DecidableEq, Repr

def Estimates.of (estimates : Estimates) : Metric → Option ℤ
  | .tokens => estimates.tokens
  | .costMicros => estimates.costMicros

def violates (check : LimitCheck) (estimates : Estimates) : Bool :=
  check.limitValue ≤ check.current ||
    match estimates.of check.metric with
    | none => false
    | some estimate => (check.limitValue : ℤ) < check.current + estimate

def metricRank : Metric → ℕ
  | .tokens => 0
  | .costMicros => 1

def scopeRank : LimitScope → ℕ
  | .workspace => 0
  | .agent => 1
  | .provider => 2

def rank (check : LimitCheck) : ℕ × ℕ := (metricRank check.metric, scopeRank check.scope)

def rankBefore (a b : LimitCheck) : Bool :=
  (rank a).1 < (rank b).1 || ((rank a).1 == (rank b).1 && (rank a).2 < (rank b).2)

def leastRanked (best : LimitCheck) : List LimitCheck → LimitCheck
  | [] => best
  | check :: checks => leastRanked (if rankBefore check best then check else best) checks

def remainingTokens (checks : List LimitCheck) : Option ℕ :=
  ((checks.filter (·.metric = .tokens)).map fun check => check.limitValue - check.current).min?

def evaluate (checks : List LimitCheck) (estimates : Estimates) : Evaluation :=
  if checks = [] then ⟨⟨true, none, none⟩, none⟩
  else
    match checks.filter (violates · estimates) with
    | [] => ⟨⟨true, none, remainingTokens checks⟩, none⟩
    | first :: rest =>
      let binding := leastRanked first rest
      let reason := if binding.metric = .tokens then .quotaExceeded else .budgetExceeded
      ⟨⟨false, some reason, remainingTokens checks⟩, some binding⟩

/-- A call is allowed exactly when no check is violated. -/
theorem evaluate_allowed_iff (checks : List LimitCheck) (estimates : Estimates) :
    (evaluate checks estimates).decision.allowed = true ↔
      ∀ check ∈ checks, violates check estimates = false := by
  by_cases hnil : checks = []
  · simp [evaluate, hnil]
  · simp only [evaluate, if_neg hnil]
    cases hv : checks.filter (violates · estimates) with
    | nil => simpa [List.filter_eq_nil_iff] using hv
    | cons first rest =>
      have hf : first ∈ checks.filter (violates · estimates) := by simp [hv]
      obtain ⟨hmem, hvi⟩ := List.mem_filter.mp hf
      simp only [Bool.false_eq_true, false_iff, not_forall]
      exact ⟨first, hmem, by simp [hvi]⟩

theorem le_limit_of_not_violates {check : LimitCheck} {estimates : Estimates} {estimate : ℤ}
    (h : violates check estimates = false) (he : estimates.of check.metric = some estimate) :
    (check.current : ℤ) + estimate ≤ check.limitValue := by
  simp only [violates, he, Bool.or_eq_false_iff, decide_eq_false_iff_not] at h
  omega

end Aizzak.LimitEvaluation
