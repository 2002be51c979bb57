import Aizzak.LimitEvaluation

/-!
The decision of one quota check. The rules that govern the call are resolved one after the other,
with the rollup totals remembered by bucket and period and the reserved totals by bucket; what is
remembered is what would be read, so a rule is judged on the totals of its own bucket. A call is
denied exactly when some rule is exceeded, and more usage or more rules never undo a denial.
-/
namespace Aizzak.QuotaDecisions

open LimitEvaluation UsageLedger List

structure Call where
  agent : String
  provider : String
  estimates : Estimates
  rollup : String × String → Period → UsageTotals
  reserved : String × String → UsageTotals

structure Caches where
  totals : (String × String) × Period → Option UsageTotals
  held : String × String → Option UsageTotals

def Caches.empty : Caches := ⟨fun _ => none, fun _ => none⟩

section Execution

variable (call : Call)

def Caches.readTotals (caches : Caches) (bucket : String × String) (period : Period) : Caches :=
  if (caches.totals (bucket, period)).isSome then caches
  else { caches with
    totals := Function.update caches.totals (bucket, period) (some (call.rollup bucket period)) }

def Caches.readHeld (caches : Caches) (bucket : String × String) : Caches :=
  if (caches.held bucket).isSome then caches
  else { caches with held := Function.update caches.held bucket (some (call.reserved bucket)) }

def resolve (progress : Caches × List LimitCheck) (rule : LimitRule) : Caches × List LimitCheck :=
  let bucket := bucketFor rule.scope call.agent call.provider
  let caches := (progress.1.readTotals call bucket rule.period).readHeld call bucket
  let total := (caches.totals (bucket, rule.period)).getD 0
  let held := (caches.held bucket).getD 0
  (caches, progress.2 ++ [⟨rule.scope, rule.metric, rule.period, rule.limitValue,
    rule.metric.amount total + rule.metric.amount held⟩])

def relevant (settings : UsageSettings) (configured : List LimitRule) : List LimitRule :=
  (withDefaults configured settings).filter (governs · call.agent call.provider)

def enforce (settings : UsageSettings) (configured : List LimitRule) : Evaluation :=
  evaluate ((relevant call settings configured).foldl (resolve call) (.empty, [])).2 call.estimates

def currentOf (rule : LimitRule) : ℕ :=
  let bucket := bucketFor rule.scope call.agent call.provider
  rule.metric.amount (call.rollup bucket rule.period) + rule.metric.amount (call.reserved bucket)

def checkOf (rule : LimitRule) : LimitCheck :=
  ⟨rule.scope, rule.metric, rule.period, rule.limitValue, currentOf call rule⟩

end Execution

section Law

variable (settings : UsageSettings) (configured : List LimitRule) (call : Call)

/-- The rule is configured, or a default that no configured workspace rule covers. -/
def InForce (rule : LimitRule) : Prop :=
  rule ∈ configured ∨ ∃ defaults ∈ settings.defaultLimits, ∃ limit ∈ defaults.2,
    rule = LimitRule.workspaceWide defaults.1 limit.1 limit.2 ∧
      ∀ other ∈ configured, ¬ (other.scope = .workspace ∧ other.metric = defaults.1 ∧
        other.period = limit.1)

/-- The rule's limit is reached, or the call's estimate would pass it. -/
def Exceeds (rule : LimitRule) : Prop :=
  rule.limitValue ≤ currentOf call rule ∨
    ∃ estimate, call.estimates.of rule.metric = some estimate ∧
      (rule.limitValue : ℤ) < currentOf call rule + estimate

def Violated (rule : LimitRule) : Prop :=
  InForce settings configured rule ∧ governs rule call.agent call.provider = true ∧
    Exceeds call rule

def Denied : Prop := (enforce call settings configured).decision.allowed = false

end Law

section Resolution

variable {call : Call} {settings : UsageSettings} {configured rules : List LimitRule}
  {rule : LimitRule} {caches : Caches} {bucket : String × String} {period : Period}

structure Coherent (call : Call) (caches : Caches) : Prop where
  totals : ∀ bucket period total, caches.totals (bucket, period) = some total →
    total = call.rollup bucket period
  held : ∀ bucket total, caches.held bucket = some total → total = call.reserved bucket

theorem Coherent.readTotals (h : Coherent call caches) :
    Coherent call (caches.readTotals call bucket period) ∧
      (caches.readTotals call bucket period).totals (bucket, period) =
        some (call.rollup bucket period) := by
  rw [Caches.readTotals]
  split_ifs with hr
  · obtain ⟨total, ht⟩ := Option.isSome_iff_exists.mp hr
    exact ⟨h, ht.trans (congrArg some (h.totals _ _ _ ht))⟩
  · refine ⟨⟨fun other period' total ht => ?_, h.held⟩, Function.update_self _ _ _⟩
    by_cases hkey : (other, period') = (bucket, period)
    · obtain ⟨rfl, rfl⟩ := Prod.mk.inj hkey
      dsimp only at ht
      rw [Function.update_self] at ht
      exact (Option.some.inj ht).symm
    · exact h.totals _ _ _ ((Function.update_of_ne hkey _ _).symm.trans ht)

theorem Coherent.readHeld (h : Coherent call caches) :
    Coherent call (caches.readHeld call bucket) ∧
      (caches.readHeld call bucket).held bucket = some (call.reserved bucket) := by
  rw [Caches.readHeld]
  split_ifs with hr
  · obtain ⟨total, ht⟩ := Option.isSome_iff_exists.mp hr
    exact ⟨h, ht.trans (congrArg some (h.held _ _ ht))⟩
  · refine ⟨⟨h.totals, fun other total ht => ?_⟩, Function.update_self _ _ _⟩
    by_cases hkey : other = bucket
    · subst hkey
      dsimp only at ht
      rw [Function.update_self] at ht
      exact (Option.some.inj ht).symm
    · exact h.held _ _ ((Function.update_of_ne hkey _ _).symm.trans ht)

theorem totals_readHeld : (caches.readHeld call bucket).totals = caches.totals := by
  rw [Caches.readHeld]
  split_ifs <;> rfl

theorem resolve_spec {checks : List LimitCheck} (h : Coherent call caches) :
    Coherent call (resolve call (caches, checks) rule).1 ∧
      (resolve call (caches, checks) rule).2 = checks ++ [checkOf call rule] := by
  obtain ⟨ht, hto⟩ := @Coherent.readTotals call caches
    (bucketFor rule.scope call.agent call.provider) rule.period h
  obtain ⟨hh, hr⟩ := @Coherent.readHeld call _
    (bucketFor rule.scope call.agent call.provider) ht
  refine ⟨hh, ?_⟩
  rw [resolve]
  dsimp only
  rw [totals_readHeld, hto, hr]
  rfl

/-- The caches change nothing: every rule is checked against its own bucket. -/
theorem checks_eq {checks : List LimitCheck} (h : Coherent call caches) :
    (rules.foldl (resolve call) (caches, checks)).2 = checks ++ rules.map (checkOf call) := by
  induction rules generalizing caches checks with
  | nil => rw [foldl_nil, map_nil, append_nil]
  | cons rule rules ih =>
    obtain ⟨hc, hch⟩ := @resolve_spec call rule caches checks h
    rw [foldl_cons, ← Prod.mk.eta (p := resolve call (caches, checks) rule), ih hc,
      hch, append_assoc, map_cons, singleton_append]

theorem enforce_eq : enforce call settings configured =
    evaluate ((relevant call settings configured).map (checkOf call)) call.estimates := by
  have he : Coherent call .empty := ⟨nofun, nofun⟩
  rw [enforce, checks_eq he, nil_append]

/-- A check is violated exactly when the call exceeds its rule. -/
theorem violates_checkOf_iff :
    violates (checkOf call rule) call.estimates = true ↔ Exceeds call rule := by
  rw [violates, Bool.or_eq_true, decide_eq_true_eq, Exceeds]
  apply or_congr Iff.rfl
  cases he : call.estimates.of rule.metric with
  | none => simp [checkOf, he]
  | some estimate =>
    simp only [checkOf, he, Option.some.injEq, exists_eq_left']
    exact decide_eq_true_iff

theorem mem_withDefaults : rule ∈ withDefaults configured settings ↔
    InForce settings configured rule := by
  rw [withDefaults, mem_append, InForce]
  refine or_congr Iff.rfl ?_
  rw [mem_flatMap]
  refine exists_congr fun defaults => and_congr_right fun _ => ?_
  rw [mem_filterMap]
  refine exists_congr fun limit => and_congr_right fun _ => ?_
  obtain ⟨period, limitValue⟩ := limit
  dsimp only
  split_ifs with hc
  · refine iff_of_false nofun fun h => ?_
    obtain ⟨other, ho, hs⟩ := hc
    exact h.2 other ho hs
  · rw [Option.some.injEq, eq_comm]
    refine ⟨fun h => ⟨h, fun other ho hs => hc ⟨other, ho, hs⟩⟩, And.left⟩

theorem mem_relevant : rule ∈ relevant call settings configured ↔
    InForce settings configured rule ∧ governs rule call.agent call.provider = true := by
  rw [relevant, mem_filter, mem_withDefaults]

theorem denied_iff : Denied settings configured call ↔
    ∃ rule, Violated settings configured call rule := by
  rw [Denied, enforce_eq, ← Bool.not_eq_true, evaluate_allowed_iff, forall_mem_map]
  simp only [not_forall, Bool.not_eq_false, violates_checkOf_iff, mem_relevant, Violated,
    exists_prop, and_assoc]

end Resolution

section Binding

variable {call : Call} {settings : UsageSettings} {configured : List LimitRule}
  {best check : LimitCheck} {checks : List LimitCheck}

def rankKey (check : LimitCheck) : ℕ ×ₗ ℕ := toLex (rank check)

theorem rankBefore_iff : rankBefore check best = true ↔ rankKey check < rankKey best := by
  rw [rankBefore, rankKey, rankKey, Prod.Lex.toLex_lt_toLex, Bool.or_eq_true, Bool.and_eq_true,
    decide_eq_true_eq, decide_eq_true_eq, beq_iff_eq]

theorem leastRanked_spec : leastRanked best checks ∈ best :: checks ∧
    ∀ check ∈ best :: checks, rankKey (leastRanked best checks) ≤ rankKey check := by
  induction checks generalizing best with
  | nil =>
    refine ⟨mem_cons_self, fun check hc => ?_⟩
    rw [mem_singleton.mp hc]
    exact le_rfl
  | cons first checks ih =>
    obtain ⟨hmem, hl⟩ := @ih (if rankBefore first best then first else best)
    have hk := hl _ mem_cons_self
    have hr := fun check hc => hl check (mem_cons_of_mem _ hc)
    rw [leastRanked]
    split_ifs at hmem hk hr ⊢ with hb
    · refine ⟨mem_cons_of_mem _ hmem, ?_⟩
      rw [forall_mem_cons, forall_mem_cons]
      exact ⟨hk.trans (le_of_lt (rankBefore_iff.mp hb)), hk, hr⟩
    · refine ⟨?_, ?_⟩
      · rcases mem_cons.mp hmem with heq | hmem
        · rw [heq]
          exact mem_cons_self
        · exact mem_cons_of_mem _ (mem_cons_of_mem _ hmem)
      · rw [forall_mem_cons, forall_mem_cons]
        exact ⟨hk, hk.trans (not_lt.mp fun h => hb (rankBefore_iff.mpr h)), hr⟩

theorem mem_violated : check ∈ ((relevant call settings configured).map (checkOf call)).filter
      (violates · call.estimates) ↔
    ∃ rule, Violated settings configured call rule ∧ checkOf call rule = check := by
  rw [mem_filter, mem_map]
  constructor
  · rintro ⟨⟨rule, hr, rfl⟩, hv⟩
    obtain ⟨hf, hg⟩ := mem_relevant.mp hr
    exact ⟨rule, ⟨hf, hg, violates_checkOf_iff.mp hv⟩, rfl⟩
  · rintro ⟨rule, ⟨hf, hg, hexceeds⟩, rfl⟩
    exact ⟨⟨rule, mem_relevant.mpr ⟨hf, hg⟩, rfl⟩, violates_checkOf_iff.mpr hexceeds⟩

theorem binding_spec (h : Denied settings configured call) :
    ∃ rule, Violated settings configured call rule ∧
      (enforce call settings configured).binding = some (checkOf call rule) ∧
      ∀ other, Violated settings configured call other →
        rankKey (checkOf call rule) ≤ rankKey (checkOf call other) := by
  obtain ⟨violated, hv⟩ := denied_iff.mp h
  have hmem := mem_violated.mpr ⟨violated, hv, rfl⟩
  rw [enforce_eq, evaluate]
  generalize hc : (relevant call settings configured).map (checkOf call) = checks at hmem
  have hne : checks ≠ [] := by
    rintro rfl
    cases hmem
  rw [if_neg hne]
  cases hf : checks.filter (violates · call.estimates) with
  | nil =>
    rw [hf] at hmem
    cases hmem
  | cons first rest =>
    obtain ⟨hl, hb⟩ := @leastRanked_spec first rest
    rw [← hf, ← hc] at hl hb
    obtain ⟨rule, hr, hch⟩ := mem_violated.mp hl
    refine ⟨rule, hr, ?_, fun other ho => ?_⟩
    · rw [hch]
    · rw [hch]
      exact hb _ (mem_violated.mpr ⟨other, ho, rfl⟩)

end Binding

section Monotonicity

variable {call other : Call} {settings : UsageSettings} {configured : List LimitRule}
  {rule : LimitRule}

/-- The same call with at least as much usage, and estimates no smaller. -/
structure NoLess (call other : Call) : Prop where
  agent : other.agent = call.agent
  provider : other.provider = call.provider
  rollup : ∀ (metric : Metric) bucket period,
    metric.amount (call.rollup bucket period) ≤ metric.amount (other.rollup bucket period)
  reserved : ∀ (metric : Metric) bucket,
    metric.amount (call.reserved bucket) ≤ metric.amount (other.reserved bucket)
  estimates : ∀ metric estimate, call.estimates.of metric = some estimate →
    ∃ estimate', other.estimates.of metric = some estimate' ∧ estimate ≤ estimate'

theorem NoLess.currentOf_le (h : NoLess call other) :
    currentOf call rule ≤ currentOf other rule := by
  rw [currentOf, currentOf, h.agent, h.provider]
  exact Nat.add_le_add (h.rollup _ _ _) (h.reserved _ _)

theorem NoLess.violated (h : NoLess call other)
    (hv : Violated settings configured call rule) :
    Violated settings configured other rule := by
  obtain ⟨hf, hg, hexceeds⟩ := hv
  have hc : currentOf call rule ≤ currentOf other rule := h.currentOf_le
  refine ⟨hf, by rwa [h.agent, h.provider], ?_⟩
  rcases hexceeds with hl | ⟨estimate, hes, ho⟩
  · left
    omega
  · right
    obtain ⟨estimate', he, hle⟩ := h.estimates _ _ hes
    refine ⟨estimate', he, ?_⟩
    omega

/-- A configured rule of an agent or a provider covers no default. -/
theorem InForce.of_added {before after : List LimitRule} {added : LimitRule}
    (hs : added.scope ≠ .workspace) (h : InForce settings (before ++ after) rule) :
    InForce settings (before ++ added :: after) rule := by
  have hmem : ∀ r, r ∈ before ++ added :: after ↔ r = added ∨ r ∈ before ++ after := by
    intro r
    rw [mem_append, mem_cons, mem_append]
    tauto
  rcases h with hru | ⟨defaults, hdefaults, limit, hl, hru, hc⟩
  · exact .inl ((hmem rule).mpr (.inr hru))
  · refine .inr ⟨defaults, hdefaults, limit, hl, hru, fun r hr hsa => ?_⟩
    rcases (hmem r).mp hr with rfl | hr
    · exact hs hsa.1
    · exact hc r hr hsa

def Raised (rule other : LimitRule) : Prop :=
  other.scope = rule.scope ∧ other.scopeKey = rule.scopeKey ∧ other.metric = rule.metric ∧
    other.period = rule.period ∧ rule.limitValue ≤ other.limitValue

def RaisedDefaults (settings others : UsageSettings) : Prop :=
  List.Forall₂ (fun defaults other => other.1 = defaults.1 ∧
    List.Forall₂ (fun limit other => other.1 = limit.1 ∧ limit.2 ≤ other.2) defaults.2 other.2)
      settings.defaultLimits others.defaultLimits

section

variable {α β : Type*} {R : α → β → Prop} {l : List α} {l' : List β} (h : List.Forall₂ R l l')
include h

theorem exists_left_of_mem {b : β} (hb : b ∈ l') : ∃ a ∈ l, R a b := by
  induction h with
  | nil => cases hb
  | @cons a b' l l' hab _ ih =>
    rcases mem_cons.mp hb with rfl | hb
    · exact ⟨a, mem_cons_self, hab⟩
    · obtain ⟨a', ha', hab'⟩ := ih hb
      exact ⟨a', mem_cons_of_mem _ ha', hab'⟩

theorem exists_right_of_mem {a : α} (ha : a ∈ l) : ∃ b ∈ l', R a b :=
  exists_left_of_mem h.flip ha

end

section

variable {others : UsageSettings} {raised : List LimitRule}
    (hconfigured : List.Forall₂ Raised configured raised)
    (hdefaults : RaisedDefaults settings others)
include hconfigured hdefaults

theorem InForce.of_raised (h : InForce others raised rule) :
    ∃ lower, InForce settings configured lower ∧ Raised lower rule := by
  rcases h with hru | ⟨defaults', hmm, limit', hl, rfl, hc⟩
  · obtain ⟨lower, hlo, hr⟩ := exists_left_of_mem hconfigured hru
    exact ⟨lower, .inl hlo, hr⟩
  · obtain ⟨defaults, hmem, hm, hli⟩ := exists_left_of_mem hdefaults hmm
    obtain ⟨limit, hlm, hp, hle⟩ := exists_left_of_mem hli hl
    refine ⟨LimitRule.workspaceWide defaults.1 limit.1 limit.2, .inr ⟨defaults, hmem, limit, hlm,
      rfl, fun other hot hsa => ?_⟩, rfl, rfl, hm, hp, hle⟩
    obtain ⟨other', ho, hs, -, hme, hpe, -⟩ :=
      exists_right_of_mem hconfigured hot
    exact hc other' ho ⟨hs.trans hsa.1,
      hme.trans (hsa.2.1.trans hm.symm),
      hpe.trans (hsa.2.2.trans hp.symm)⟩

theorem Violated.of_raised (h : Violated others raised call rule) :
    ∃ lower, Violated settings configured call lower := by
  obtain ⟨hf, hg, hexceeds⟩ := h
  obtain ⟨lower, hl, hs, hkey, hm, hp, hle⟩ :=
    hf.of_raised hconfigured hdefaults
  have hc : currentOf call rule = currentOf call lower := by
    rw [currentOf, currentOf, hs, hm, hp]
  refine ⟨lower, hl, ?_, ?_⟩
  · rw [governs, hs, hkey] at hg
    exact hg
  · rw [Exceeds, hc, hm] at hexceeds
    rcases hexceeds with hli | ⟨estimate, he, ho⟩
    · left
      omega
    · right
      refine ⟨estimate, he, ?_⟩
      omega

end

end Monotonicity

/-- The law of the decision. A call is denied exactly when a rule that governs it is exceeded; the
rule it reports has the least rank of those; more usage, larger estimates and further rules of an
agent or a provider keep a denial, and higher limits keep an admission. -/
theorem quota_decision_law (settings : UsageSettings) (configured : List LimitRule) (call : Call) :
    (Denied settings configured call ↔ ∃ rule, Violated settings configured call rule) ∧
    (Denied settings configured call → ∃ rule, Violated settings configured call rule ∧
      (enforce call settings configured).binding = some (checkOf call rule) ∧
      ∀ other, Violated settings configured call other →
        rankKey (checkOf call rule) ≤ rankKey (checkOf call other)) ∧
    (∀ other, NoLess call other → Denied settings configured call →
      Denied settings configured other) ∧
    (∀ before rule after, configured = before ++ after → rule.scope ≠ .workspace →
      Denied settings configured call → Denied settings (before ++ rule :: after) call) ∧
    ∀ others raised, RaisedDefaults settings others → List.Forall₂ Raised configured raised →
      ¬ Denied settings configured call → ¬ Denied others raised call := by
  refine ⟨denied_iff, binding_spec, fun other ho hd => ?_,
    fun before added after hs hsc hd => ?_,
    fun others raised hdefaults hconfigured ha hd => ?_⟩
  · obtain ⟨rule, hr⟩ := denied_iff.mp hd
    exact denied_iff.mpr ⟨rule, ho.violated hr⟩
  · subst hs
    obtain ⟨rule, hf, hre⟩ := denied_iff.mp hd
    exact denied_iff.mpr ⟨rule, hf.of_added hsc, hre⟩
  · obtain ⟨rule, hr⟩ := denied_iff.mp hd
    exact ha (denied_iff.mpr (hr.of_raised hconfigured hdefaults))

end Aizzak.QuotaDecisions
