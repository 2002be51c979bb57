import Aizzak.EventRuns
import Aizzak.LimitEvaluation

/-!
Quota admission of one workspace. A reservation transaction holds the workspace lock from its
first statement to its commit, and its limit check reads the ledger rollup and the live
reservations of each governing bucket as separate statements; commits and releases of earlier
reservations take no lock and may fall between any two of them. An admission is sound when, at its
decision, the committed total and its own estimate fit every governing limit.
-/
namespace Aizzak.QuotaAdmission

open Calendar UsageLedger LimitEvaluation PyText EventRuns

def minReservedTokens : ℕ := 1

def reservedCostMicros : ℕ := 1

/-- A slot held between an admission and its charge; an already expired one cannot be built. -/
structure Reservation where
  id : String
  agentKey : String
  provider : String
  totals : UsageTotals
  createdAt : Instant
  expiresAt : Instant
  expires_after : createdAt < expiresAt
deriving DecidableEq

abbrev Bucket := String × String

/-- The predicate of the reservation query: a wildcard adds no condition. -/
def inBucket (bucket : Bucket) (agentKey provider : String) : Bool :=
  (bucket.1 == wildcard || agentKey == bucket.1) && (bucket.2 == wildcard || provider == bucket.2)

/-- The limit check in progress: the rules still to resolve, what its statements
have returned so far, and the checks built from them. -/
structure Admission where
  agent : String
  provider : String
  tokens : ℕ
  relevant : List LimitRule
  todo : List LimitRule
  totals : Bucket × Period → Option UsageTotals
  held : Bucket → Option UsageTotals
  checks : List LimitCheck

inductive Phase where
  | enforcing (admission : Admission)
  | admitted (reservation : Reservation)

structure Settings where
  workspaceId : String
  ttlSeconds : ℕ
  usage : UsageSettings

structure State where
  ledger : Ledger
  reservations : List Reservation
  now : Instant
  active : Option Phase

namespace State

def initial (now : Instant) : State := ⟨Ledger.empty, [], now, none⟩

def enforcing (s : State) : Option Admission :=
  match s.active with
  | some (.enforcing admission) => some admission
  | _ => none

def admitted (s : State) : Option Reservation :=
  match s.active with
  | some (.admitted reservation) => some reservation
  | _ => none

end State

variable (settings : Settings)

def rollupKey (bucket : Bucket) (period : Period) (now : Instant) : RollupKey :=
  ⟨settings.workspaceId, bucket.1, bucket.2, period, periodStart period now⟩

def rollup (s : State) (bucket : Bucket) (period : Period) : UsageTotals :=
  (s.ledger.rollups (rollupKey settings bucket period s.now)).getD 0

def live (s : State) (bucket : Bucket) : List Reservation :=
  s.reservations.filter fun r => s.now < r.expiresAt && inBucket bucket r.agentKey r.provider

def reserved (s : State) (bucket : Bucket) : UsageTotals :=
  ((live s bucket).map Reservation.totals).sum

namespace Admission

def bucket (a : Admission) (rule : LimitRule) : Bucket := bucketFor rule.scope a.agent a.provider

def estimates (a : Admission) : Estimates := ⟨some a.tokens, some reservedCostMicros⟩

def estimate (a : Admission) : Metric → ℕ
  | .tokens => a.tokens
  | .costMicros => reservedCostMicros

def start (agent provider : String) (estimatedTokens : Option ℤ) (configured : List LimitRule) :
    Admission :=
  let relevant := (withDefaults configured settings.usage).filter (governs · agent provider)
  { agent, provider, relevant
    tokens := max (estimatedTokens.getD 0).toNat minReservedTokens
    todo := relevant
    totals := fun _ => none
    held := fun _ => none
    checks := [] }

def cacheTotals (a : Admission) (key : Bucket × Period) (totals : UsageTotals) : Admission :=
  { a with totals := Function.update a.totals key (some totals) }

def cacheHeld (a : Admission) (bucket : Bucket) (held : UsageTotals) : Admission :=
  { a with held := Function.update a.held bucket (some held) }

def addCheck (a : Admission) (rule : LimitRule) (rest : List LimitRule)
    (total held : UsageTotals) : Admission :=
  let current := rule.metric.amount total + rule.metric.amount held
  { a with
    todo := rest
    checks := a.checks ++ [⟨rule.scope, rule.metric, rule.period, rule.limitValue, current⟩] }

/-- One iteration's next statement for the rule at the head of the loop: the rollup
unless it is cached, then the reservations unless they are, then the check. -/
def readNext (a : Admission) (s : State) : Option Admission :=
  match a.todo with
  | [] => none
  | rule :: rest =>
    let bucket := a.bucket rule
    match a.totals (bucket, rule.period), a.held bucket with
    | none, _ => some (a.cacheTotals (bucket, rule.period) (rollup settings s bucket rule.period))
    | some _, none => some (a.cacheHeld bucket (reserved s bucket))
    | some total, some held => some (a.addCheck rule rest total held)

def allowed (a : Admission) : Bool := (evaluate a.checks a.estimates).decision.allowed

end Admission

inductive Event where
  | tick (micros : ℕ)
  | begin (agent provider : String) (estimatedTokens : Option ℤ) (configured : List LimitRule)
  | read
  | decide (reservationId : String)
  | finish
  | abort
  | commit (reservationId : String) (charge : UsageCharge) (chargedAt : Instant)
  | release (reservationId : String)

def releaseRow (s : State) (reservationId : String) : State :=
  { s with reservations := s.reservations.filter (·.id ≠ reservationId) }

def chargeValid (charge : UsageCharge) : Bool :=
  ¬ Blank (ofString charge.agent) ∧ ¬ Blank (ofString charge.provider) ∧
    0 ≤ charge.tokens ∧ 0 ≤ charge.costMicros

def commitReservation (s : State) (reservationId : String) (charge : UsageCharge)
    (chargedAt : Instant) : State :=
  if chargeValid charge then
    match s.ledger.append ⟨settings.workspaceId, chargedAt, charge⟩ with
    | none => s
    | some (_, ledger) => { releaseRow s reservationId with ledger }
  else s

/-- The decision of an admission whose rules are all resolved. A denial ends the
transaction, an allowed one goes on to write its reservation. -/
def decideAdmission (s : State) (a : Admission) (reservationId : String) : Option State :=
  if a.todo ≠ [] then none
  else if a.allowed then
    if h : s.now < s.now + settings.ttlSeconds * microsPerSecond then
      some { s with active := some (.admitted
        ⟨reservationId, a.agent, a.provider, ⟨a.tokens, reservedCostMicros⟩, s.now, _, h⟩) }
    else some { s with active := none }
  else some { s with active := none }

def finishAdmission (s : State) (r : Reservation) : Option State :=
  let kept := s.reservations.filter fun row => r.createdAt < row.expiresAt
  if (∃ row ∈ kept, row.id = r.id) ∨ bigintBound ≤ r.totals.tokens then none
  else some { s with reservations := kept ++ [r], active := none }

def step (s : State) : Event → Option State
  | .tick micros => some { s with now := s.now + micros }
  | .begin agent provider estimatedTokens configured =>
    match s.active with
    | some _ => none
    | none =>
      let admission := Admission.start settings agent provider estimatedTokens configured
      some { s with active := some (.enforcing admission) }
  | .read =>
    s.enforcing.bind fun a =>
      (a.readNext settings s).map fun next => { s with active := some (.enforcing next) }
  | .decide reservationId => s.enforcing.bind fun a => decideAdmission settings s a reservationId
  | .finish => s.admitted.bind (finishAdmission s)
  | .abort => if s.active.isSome then some { s with active := none } else none
  | .commit reservationId charge chargedAt =>
    if chargedAt ≤ s.now then some (commitReservation settings s reservationId charge chargedAt)
    else none
  | .release reservationId => some (releaseRow s reservationId)

/-- The committed usage of a rule's bucket, the live reservations in it and this
call's own estimate, in the metric the rule limits. -/
def trueTotal (s : State) (a : Admission) (rule : LimitRule) : ℕ :=
  rule.metric.amount (rollup settings s (a.bucket rule) rule.period) +
    rule.metric.amount (reserved s (a.bucket rule)) + a.estimate rule.metric

def WithinLimits (s : State) : Prop :=
  ∀ a ∈ s.enforcing, ∀ rule ∈ a.relevant, trueTotal settings s a rule ≤ rule.limitValue

instance (s : State) : Decidable (WithinLimits settings s) :=
  inferInstanceAs (Decidable (∀ a ∈ s.enforcing, _))

/-- A charge about to be stored that a rollup already read by the admission in
progress would have counted: the reservations of that bucket have been read too,
and the live reservation it replaces is in the bucket and at least as large. -/
def CommitCovered (s : State) : Event → Prop
  | .commit reservationId charge chargedAt =>
    ∀ a ∈ s.enforcing, ∀ rule ∈ a.relevant,
      ∀ record ∈ (AppendCall.mk settings.workspaceId chargedAt charge).record,
        a.totals (a.bucket rule, rule.period) ≠ none →
        (rollupKey settings (a.bucket rule) rule.period s.now).Covers record →
        ¬ s.ledger.HasOperation settings.workspaceId charge.operationId →
          a.held (a.bucket rule) ≠ none ∧
            ∃ r ∈ live s (a.bucket rule), r.id = reservationId ∧
              rule.metric.amount record.totals ≤ rule.metric.amount r.totals
  | _ => True

instance (s : State) : (e : Event) → Decidable (CommitCovered settings s e)
  | .commit _ _ _ => inferInstanceAs (Decidable (∀ a ∈ s.enforcing, _))
  | .tick _ | .begin _ _ _ _ | .read | .decide _ | .finish | .abort | .release _ => isTrue trivial

section Sums

variable {settings} {s t : State}

theorem rollup_eq_sum (hl : s.ledger.Consistent) (bucket : Bucket) (period : Period) :
    rollup settings s bucket period =
      ((s.ledger.records.filter
        ((rollupKey settings bucket period s.now).Covers ·)).map UsageRecord.totals).sum := by
  rw [rollup, hl.rows, rollupRow]
  split_ifs with hnil
  · simp [hnil]
  · rfl

private theorem sum_filter_le {α : Type*} (f : α → ℕ) (p q : α → Bool) (l : List α)
    (hpq : ∀ a ∈ l, p a → q a) : ((l.filter p).map f).sum ≤ ((l.filter q).map f).sum := by
  induction l with
  | nil => simp
  | cons a l ih =>
    have hrest := ih fun b hb => hpq b (by simp [hb])
    have hhead := hpq a (by simp)
    by_cases hp : p a
    · simpa [hp, hhead hp] using hrest
    · by_cases hq : q a
      · simp only [List.filter_cons, hp, hq, if_true, List.map_cons, List.sum_cons]
        simp only [Bool.false_eq_true, if_false]
        omega
      · simpa [hp, hq] using hrest

theorem amount_reserved (metric : Metric) (bucket : Bucket) :
    metric.amount (reserved s bucket) =
      ((live s bucket).map fun r => metric.amount r.totals).sum := by
  rw [reserved, Metric.amount_sum, List.map_map]
  rfl

/-- Waiting can only drop records out of the current period, never add one. -/
theorem amount_rollup_tick (hl : s.ledger.Consistent)
    (hp : ∀ r ∈ s.ledger.records, r.createdAt ≤ s.now) (micros : ℕ) (metric : Metric)
    (bucket : Bucket) (period : Period) :
    metric.amount (rollup settings { s with now := s.now + micros } bucket period) ≤
      metric.amount (rollup settings s bucket period) := by
  rw [rollup_eq_sum hl, rollup_eq_sum (s := { s with now := s.now + micros }) hl,
    Metric.amount_sum, Metric.amount_sum, List.map_map, List.map_map]
  apply sum_filter_le
  intro r hr hc
  obtain ⟨hw, hs, hd⟩ := of_decide_eq_true hc
  have hsa := periodStart_convex period (hp r hr) (Nat.le_add_right s.now micros) hs
  exact decide_eq_true ⟨hw, hs.trans hsa.symm, hd⟩

theorem amount_reserved_tick (micros : ℕ) (metric : Metric) (bucket : Bucket) :
    metric.amount (reserved { s with now := s.now + micros } bucket) ≤
      metric.amount (reserved s bucket) := by
  rw [amount_reserved, amount_reserved]
  apply sum_filter_le
  intro r hr hl
  simp only [Bool.and_eq_true, decide_eq_true_eq] at hl ⊢
  exact ⟨Nat.lt_of_le_of_lt (Nat.le_add_right _ _) hl.1, hl.2⟩

theorem live_releaseRow (reservationId : String) (bucket : Bucket) :
    live (releaseRow s reservationId) bucket =
      (live s bucket).filter (·.id ≠ reservationId) := by
  simp only [live, releaseRow, List.filter_filter]
  exact List.filter_congr fun r _ => Bool.and_comm _ _

theorem amount_reserved_releaseRow (reservationId : String) (metric : Metric) (bucket : Bucket) :
    metric.amount (reserved (releaseRow s reservationId) bucket) ≤
      metric.amount (reserved s bucket) := by
  rw [amount_reserved, amount_reserved, live_releaseRow]
  simpa using sum_filter_le (fun r : Reservation => metric.amount r.totals)
    (fun r => r.id ≠ reservationId) (fun _ => true) (live s bucket) (by simp)

private theorem sum_filter_ne_add_le {α β : Type*} [DecidableEq β] (f : α → ℕ) (key : α → β)
    (l : List α) {a : α} (ha : a ∈ l) :
    ((l.filter (key · ≠ key a)).map f).sum + f a ≤ (l.map f).sum := by
  induction l with
  | nil => simp at ha
  | cons b l ih =>
    have htail := sum_filter_le f (fun x => key x ≠ key a) (fun _ => true) l (by simp)
    simp only [List.filter_true, ne_eq] at htail
    rcases List.mem_cons.mp ha with rfl | hmem
    · simp only [List.filter_cons, ne_eq, not_true_eq_false, decide_false, Bool.false_eq_true,
        if_false, List.map_cons, List.sum_cons]
      omega
    · have hrest := ih hmem
      simp only [List.filter_cons, List.map_cons, List.sum_cons]
      split
      · simp only [List.map_cons, List.sum_cons]
        omega
      · omega

theorem amount_reserved_releaseRow_add_le {r : Reservation} {bucket : Bucket}
    (hr : r ∈ live s bucket) (metric : Metric) :
    metric.amount (reserved (releaseRow s r.id) bucket) + metric.amount r.totals ≤
      metric.amount (reserved s bucket) := by
  rw [amount_reserved, amount_reserved, live_releaseRow]
  exact sum_filter_ne_add_le (fun r : Reservation => metric.amount r.totals) Reservation.id _ hr

end Sums

/-- What the statements of an admission have returned still bounds what is committed:
each reservation sum on its own, a rollup until its reservations are read, and from
then on the two together. Every resolved rule has its check. -/
structure ReadsSound (s : State) (a : Admission) : Prop where
  held_le : ∀ rule ∈ a.relevant, ∀ held ∈ a.held (a.bucket rule),
    rule.metric.amount (reserved s (a.bucket rule)) ≤ rule.metric.amount held
  total_le : ∀ rule ∈ a.relevant, ∀ total ∈ a.totals (a.bucket rule, rule.period),
    a.held (a.bucket rule) = none →
      rule.metric.amount (rollup settings s (a.bucket rule) rule.period) ≤
        rule.metric.amount total
  sum_le : ∀ rule ∈ a.relevant, ∀ total ∈ a.totals (a.bucket rule, rule.period),
    ∀ held ∈ a.held (a.bucket rule),
      rule.metric.amount (rollup settings s (a.bucket rule) rule.period) +
          rule.metric.amount (reserved s (a.bucket rule)) ≤
        rule.metric.amount total + rule.metric.amount held
  resolved : ∀ rule ∈ a.relevant, rule ∈ a.todo ∨
    ∃ check ∈ a.checks, check.metric = rule.metric ∧ check.limitValue = rule.limitValue ∧
      ∃ total ∈ a.totals (a.bucket rule, rule.period), ∃ held ∈ a.held (a.bucket rule),
        check.current = rule.metric.amount total + rule.metric.amount held

structure Inv (s : State) : Prop where
  consistent : s.ledger.Consistent
  past : ∀ r ∈ s.ledger.records, r.createdAt ≤ s.now
  reads : ∀ a ∈ s.enforcing, ReadsSound settings s a

variable {settings} {s t : State} {a : Admission}

/-- Reads stay sound when the environment lowers the reservations and does not raise
a rollup that was read by more than it lowers reservations read as well. -/
theorem ReadsSound.of_le (h : ReadsSound settings s a)
    (hr : ∀ rule ∈ a.relevant, rule.metric.amount (reserved t (a.bucket rule)) ≤
      rule.metric.amount (reserved s (a.bucket rule)))
    (hro : ∀ rule ∈ a.relevant, a.totals (a.bucket rule, rule.period) ≠ none →
      rule.metric.amount (rollup settings t (a.bucket rule) rule.period) ≤
          rule.metric.amount (rollup settings s (a.bucket rule) rule.period) ∨
        a.held (a.bucket rule) ≠ none ∧
          rule.metric.amount (rollup settings t (a.bucket rule) rule.period) +
              rule.metric.amount (reserved t (a.bucket rule)) ≤
            rule.metric.amount (rollup settings s (a.bucket rule) rule.period) +
              rule.metric.amount (reserved s (a.bucket rule))) :
    ReadsSound settings t a where
  held_le rule hru held hh :=
    (hr rule hru).trans (h.held_le rule hru held hh)
  total_le rule hru total ht hnone := by
    have hre : a.totals (a.bucket rule, rule.period) ≠ none := by simp [Option.mem_def.mp ht]
    rcases hro rule hru hre with hle | ⟨hs, -⟩
    · exact hle.trans (h.total_le rule hru total ht hnone)
    · exact absurd hnone hs
  sum_le rule hru total ht held hh := by
    have hre : a.totals (a.bucket rule, rule.period) ≠ none := by simp [Option.mem_def.mp ht]
    have hold := h.sum_le rule hru total ht held hh
    have hres := hr rule hru
    rcases hro rule hru hre with hle | ⟨-, hle⟩
    · omega
    · omega
  resolved := h.resolved

theorem ReadsSound.start (s : State) (agent provider : String) (estimatedTokens : Option ℤ)
    (configured : List LimitRule) :
    ReadsSound settings s
      (Admission.start settings agent provider estimatedTokens configured) where
  held_le := by simp [Admission.start]
  total_le := by simp [Admission.start]
  sum_le := by simp [Admission.start]
  resolved rule hrule := Or.inl hrule

private theorem mem_cacheTotals {key other : Bucket × Period} {v total : UsageTotals} :
    total ∈ (a.cacheTotals key v).totals other ↔
      other = key ∧ v = total ∨ other ≠ key ∧ total ∈ a.totals other := by
  by_cases hkey : other = key
  · simp [Admission.cacheTotals, hkey]
  · simp [Admission.cacheTotals, hkey]

variable {bucket : Bucket}

private theorem mem_cacheHeld {other : Bucket} {v held : UsageTotals} :
    held ∈ (a.cacheHeld bucket v).held other ↔
      other = bucket ∧ v = held ∨ other ≠ bucket ∧ held ∈ a.held other := by
  by_cases hkey : other = bucket
  · simp [Admission.cacheHeld, hkey]
  · simp [Admission.cacheHeld, hkey]

private theorem ReadsSound.readRollup (h : ReadsSound settings s a) {period : Period}
    (hnone : a.totals (bucket, period) = none) :
    ReadsSound settings s (a.cacheTotals (bucket, period) (rollup settings s bucket period)) where
  held_le := h.held_le
  total_le rule hrule total htotal hheld := by
    rcases mem_cacheTotals.mp htotal with ⟨hkey, rfl⟩ | ⟨-, hold⟩
    · obtain ⟨rfl, rfl⟩ : a.bucket rule = bucket ∧ rule.period = period := Prod.mk.inj hkey
      exact le_rfl
    · exact h.total_le rule hrule total hold hheld
  sum_le rule hrule total htotal held hheld := by
    rcases mem_cacheTotals.mp htotal with ⟨hkey, rfl⟩ | ⟨-, hold⟩
    · obtain ⟨rfl, rfl⟩ : a.bucket rule = bucket ∧ rule.period = period := Prod.mk.inj hkey
      exact Nat.add_le_add_left (h.held_le rule hrule held hheld) _
    · exact h.sum_le rule hrule total hold held hheld
  resolved rule hrule := by
    refine (h.resolved rule hrule).imp_right ?_
    rintro ⟨check, hcheck, hmetric, hlimit, total, htotal, hrest⟩
    refine ⟨check, hcheck, hmetric, hlimit, total, mem_cacheTotals.mpr (Or.inr ⟨?_, htotal⟩), hrest⟩
    intro hkey
    rw [show (a.bucket rule, rule.period) = (bucket, period) from hkey, hnone] at htotal
    cases htotal

private theorem ReadsSound.readReserved (h : ReadsSound settings s a)
    (hnone : a.held bucket = none) :
    ReadsSound settings s (a.cacheHeld bucket (reserved s bucket)) where
  held_le rule hrule held hheld := by
    rcases mem_cacheHeld.mp hheld with ⟨hkey, rfl⟩ | ⟨-, hold⟩
    · obtain rfl : a.bucket rule = bucket := hkey
      exact le_rfl
    · exact h.held_le rule hrule held hold
  total_le rule hrule total htotal hheld := by
    refine h.total_le rule hrule total htotal ?_
    apply Option.eq_none_iff_forall_not_mem.mpr
    intro held hold
    by_cases hkey : a.bucket rule = bucket
    · rw [hkey, hnone] at hold
      cases hold
    · have hnew := mem_cacheHeld (v := reserved s bucket) |>.mpr (Or.inr ⟨hkey, hold⟩)
      exact Option.eq_none_iff_forall_not_mem.mp hheld held hnew
  sum_le rule hrule total htotal held hheld := by
    rcases mem_cacheHeld.mp hheld with ⟨hkey, rfl⟩ | ⟨-, hold⟩
    · obtain rfl : a.bucket rule = bucket := hkey
      exact Nat.add_le_add_right (h.total_le rule hrule total htotal hnone) _
    · exact h.sum_le rule hrule total htotal held hold
  resolved rule hrule := by
    refine (h.resolved rule hrule).imp_right ?_
    rintro ⟨check, hcheck, hmetric, hlimit, total, htotal, held, hheld, hcurrent⟩
    refine ⟨check, hcheck, hmetric, hlimit, total, htotal, held,
      mem_cacheHeld.mpr (Or.inr ⟨?_, hheld⟩), hcurrent⟩
    intro hkey
    rw [show a.bucket rule = bucket from hkey, hnone] at hheld
    cases hheld

private theorem ReadsSound.buildCheck (h : ReadsSound settings s a) {rule : LimitRule}
    {rest : List LimitRule} {total held : UsageTotals} (htodo : a.todo = rule :: rest)
    (htotal : a.totals (a.bucket rule, rule.period) = some total)
    (hheld : a.held (a.bucket rule) = some held) :
    ReadsSound settings s (a.addCheck rule rest total held) where
  held_le := h.held_le
  total_le := h.total_le
  sum_le := h.sum_le
  resolved other hother := by
    rcases h.resolved other hother with hpending | ⟨check, hcheck, hrest⟩
    · rw [htodo] at hpending
      rcases List.mem_cons.mp hpending with rfl | hrest
      · exact Or.inr ⟨_, List.mem_append_right _ (List.mem_singleton_self _), rfl, rfl,
          total, htotal, held, hheld, rfl⟩
      · exact Or.inl hrest
    · exact Or.inr ⟨check, List.mem_append_left _ hcheck, hrest⟩

theorem ReadsSound.readNext {next : Admission} (h : ReadsSound settings s a)
    (hn : a.readNext settings s = some next) : ReadsSound settings s next := by
  cases hto : a.todo with
  | nil => simp [Admission.readNext, hto] at hn
  | cons rule rest =>
    cases ht : a.totals (a.bucket rule, rule.period) with
    | none =>
      simp only [Admission.readNext, hto, ht, Option.some.injEq] at hn
      exact hn ▸ h.readRollup ht
    | some total =>
      cases hh : a.held (a.bucket rule) with
      | none =>
        simp only [Admission.readNext, hto, ht, hh, Option.some.injEq] at hn
        exact hn ▸ h.readReserved hh
      | some held =>
        simp only [Admission.readNext, hto, ht, hh, Option.some.injEq] at hn
        exact hn ▸ h.buildCheck hto ht hh

theorem commitReservation_cases (settings : Settings) (s : State) (reservationId : String)
    (charge : UsageCharge) (chargedAt : Instant) :
    commitReservation settings s reservationId charge chargedAt = s ∨
      ∃ stored ledger,
        s.ledger.append ⟨settings.workspaceId, chargedAt, charge⟩ = some (stored, ledger) ∧
        commitReservation settings s reservationId charge chargedAt =
          { releaseRow s reservationId with ledger } := by
  unfold commitReservation
  split_ifs
  · cases happend : s.ledger.append ⟨settings.workspaceId, chargedAt, charge⟩ with
    | none => exact Or.inl rfl
    | some result => exact Or.inr ⟨result.1, result.2, rfl, rfl⟩
  · exact Or.inl rfl

/-- A stored charge raises the rollups it falls in by its totals and no other. -/
theorem amount_rollup_append (settings : Settings) {record : UsageRecord}
    (hr : ∀ key, t.ledger.rollups key =
      if key.Covers record then some ((s.ledger.rollups key).getD 0 + record.totals)
      else s.ledger.rollups key) (hnow : t.now = s.now)
    (metric : Metric) (bucket : Bucket) (period : Period) :
    metric.amount (rollup settings t bucket period) =
      metric.amount (rollup settings s bucket period) +
        if (rollupKey settings bucket period s.now).Covers record then metric.amount record.totals
        else 0 := by
  simp only [rollup, hnow, hr]
  split_ifs <;> simp

/-- A replayed operation gives its reservation back and stores nothing. -/
private theorem ReadsSound.replay (h : ReadsSound settings s a) (reservationId : String) :
    ReadsSound settings { releaseRow s reservationId with ledger := s.ledger } a :=
  h.of_le (fun rule _ => amount_reserved_releaseRow reservationId rule.metric (a.bucket rule))
    (fun _ _ _ => Or.inl le_rfl)

variable {reservationId : String}

private theorem ReadsSound.stored (h : ReadsSound settings s a) {ledger : Ledger}
    {record : UsageRecord} (hrollups : ∀ key, ledger.rollups key =
      if key.Covers record then some ((s.ledger.rollups key).getD 0 + record.totals)
      else s.ledger.rollups key)
    (hcovered : ∀ rule ∈ a.relevant, a.totals (a.bucket rule, rule.period) ≠ none →
      (rollupKey settings (a.bucket rule) rule.period s.now).Covers record →
        a.held (a.bucket rule) ≠ none ∧ ∃ r ∈ live s (a.bucket rule), r.id = reservationId ∧
          rule.metric.amount record.totals ≤ rule.metric.amount r.totals) :
    ReadsSound settings { releaseRow s reservationId with ledger } a := by
  refine h.of_le (fun rule _ =>
    amount_reserved_releaseRow (s := s) reservationId rule.metric (a.bucket rule)) ?_
  intro rule hrule hread
  have hrollup := amount_rollup_append settings
    (t := { releaseRow s reservationId with ledger }) hrollups rfl rule.metric (a.bucket rule)
    rule.period
  by_cases hcover : (rollupKey settings (a.bucket rule) rule.period s.now).Covers record
  · obtain ⟨hheld, r, hr, rfl, hle⟩ := hcovered rule hrule hread hcover
    have hreleased :
        rule.metric.amount (reserved { releaseRow s r.id with ledger } (a.bucket rule)) +
        rule.metric.amount r.totals ≤ rule.metric.amount (reserved s (a.bucket rule)) :=
      amount_reserved_releaseRow_add_le hr rule.metric
    rw [if_pos hcover] at hrollup
    exact Or.inr ⟨hheld, by omega⟩
  · rw [if_neg hcover] at hrollup
    exact Or.inl hrollup.le

theorem Inv.commit {charge : UsageCharge} {chargedAt : Instant} (h : Inv settings s)
    (hp : chargedAt ≤ s.now)
    (hc : CommitCovered settings s (.commit reservationId charge chargedAt)) :
    Inv settings (commitReservation settings s reservationId charge chargedAt) := by
  rcases commitReservation_cases settings s reservationId charge chargedAt with
    heq | ⟨stored, ledger, happend, heq⟩
  · rw [heq]
    exact h
  rw [heq]
  obtain ⟨record, hre, ⟨-, rfl, -⟩ | ⟨-, hf, hrc, hro⟩⟩ :=
    Ledger.append_cases happend
  · exact ⟨h.consistent, h.past, fun a ha => (h.reads a ha).replay reservationId⟩
  · refine ⟨h.consistent.append happend, ?_, fun a ha => ?_⟩
    · intro r hr
      obtain ⟨-, -, -, -, hcr, -⟩ := AppendCall.record_eq_some hre
      rcases List.mem_append.mp (hrc ▸ hr) with hold | hnew
      · exact h.past r hold
      · rw [List.mem_singleton.mp hnew, hcr]
        exact hp
    · exact (h.reads a ha).stored hro fun rule hru hrd hco =>
        hc a ha rule hru record hre hrd hco hf

theorem Inv.tick (h : Inv settings s) (micros : ℕ) :
    Inv settings { s with now := s.now + micros } where
  consistent := h.consistent
  past r hr := (h.past r hr).trans (Nat.le_add_right _ _)
  reads a ha := (h.reads a ha).of_le
    (fun rule _ => amount_reserved_tick micros rule.metric (a.bucket rule))
    (fun rule _ _ => Or.inl
      (amount_rollup_tick h.consistent h.past micros rule.metric (a.bucket rule) rule.period))

theorem Inv.release (h : Inv settings s) (reservationId : String) :
    Inv settings (releaseRow s reservationId) where
  consistent := h.consistent
  past := h.past
  reads a ha := (h.reads a ha).replay reservationId

/-- A transaction that is not checking limits leaves nothing to keep sound. -/
theorem Inv.of_not_enforcing (h : Inv settings s) (hl : t.ledger = s.ledger)
    (hnow : t.now = s.now) (hi : t.enforcing = none) : Inv settings t :=
  ⟨hl ▸ h.consistent, by rw [hl, hnow]; exact h.past, by simp [hi]⟩

theorem decideAdmission_cases (h : decideAdmission settings s a reservationId = some t) :
    a.todo = [] ∧ t.ledger = s.ledger ∧ t.now = s.now ∧ t.enforcing = none ∧
      (t.admitted ≠ none → a.allowed = true) := by
  unfold decideAdmission at h
  split_ifs at h with ht ha httl <;> cases h <;>
    simp_all [State.enforcing, State.admitted]

theorem finishAdmission_cases {r : Reservation} (h : finishAdmission s r = some t) :
    t.ledger = s.ledger ∧ t.now = s.now ∧ t.enforcing = none := by
  unfold finishAdmission at h
  simp only at h
  split_ifs at h
  cases h
  exact ⟨rfl, rfl, rfl⟩

/-- While commits are covered, the reads of an admission bound the usage. -/
theorem Inv.step {e : Event} (h : Inv settings s) (hok : CommitCovered settings s e)
    (hs : step settings s e = some t) : Inv settings t := by
  cases e with
  | tick micros =>
    cases hs
    exact h.tick micros
  | begin agent provider estimatedTokens configured =>
    simp only [QuotaAdmission.step] at hs
    split at hs
    · cases hs
    · cases hs
      refine ⟨h.consistent, h.past, fun a ha => ?_⟩
      obtain rfl : Admission.start settings agent provider estimatedTokens configured = a := by
        simpa [State.enforcing] using ha
      exact ReadsSound.start _ agent provider estimatedTokens configured
  | read =>
    obtain ⟨a, ha, hr⟩ := Option.bind_eq_some_iff.mp hs
    obtain ⟨next, hn, rfl⟩ := Option.map_eq_some_iff.mp hr
    refine ⟨h.consistent, h.past, fun b hb => ?_⟩
    obtain rfl : next = b := by simpa [State.enforcing] using hb
    exact ((h.reads a ha).readNext hn).of_le (fun _ _ => le_rfl) (fun _ _ _ => Or.inl le_rfl)
  | decide reservationId =>
    obtain ⟨a, -, hr⟩ := Option.bind_eq_some_iff.mp hs
    obtain ⟨-, hl, hnow, hi, -⟩ := decideAdmission_cases hr
    exact h.of_not_enforcing hl hnow hi
  | finish =>
    obtain ⟨r, -, hr⟩ := Option.bind_eq_some_iff.mp hs
    obtain ⟨hl, hnow, hi⟩ := finishAdmission_cases hr
    exact h.of_not_enforcing hl hnow hi
  | abort =>
    simp only [QuotaAdmission.step] at hs
    split_ifs at hs
    cases hs
    exact h.of_not_enforcing rfl rfl rfl
  | commit reservationId charge chargedAt =>
    simp only [QuotaAdmission.step] at hs
    split_ifs at hs with hp
    cases hs
    exact h.commit hp hok
  | release reservationId =>
    cases hs
    exact h.release reservationId

theorem inv_initial (now : Instant) : Inv settings (State.initial now) :=
  ⟨Ledger.consistent_empty, by simp [State.initial, Ledger.empty],
    by simp [State.initial, State.enforcing]⟩

theorem ReadsSound.within (h : ReadsSound settings s a) (hto : a.todo = [])
    (ha : a.allowed = true) (rule : LimitRule) (hr : rule ∈ a.relevant) :
    trueTotal settings s a rule ≤ rule.limitValue := by
  rcases h.resolved rule hr with hp | ⟨check, hch, hm, hl, total, ht,
    held, hh, hc⟩
  · simp [hto] at hp
  have he : a.estimates.of check.metric = some (a.estimate rule.metric : ℤ) := by
    rw [hm]
    cases rule.metric <;> rfl
  have hf := le_limit_of_not_violates
    ((evaluate_allowed_iff a.checks a.estimates).mp ha check hch) he
  have hsum := h.sum_le rule hr total ht held hh
  rw [hc, hl] at hf
  unfold trueTotal
  omega

/-- In every run whose commits are covered, an admitted call fits every governing
limit at its decision: the ledger, the live reservations and its own estimate. -/
theorem covered_admission_within_limits (settings : Settings) (now : Instant) (es : List Event)
    (s t : State) (reservationId : String)
    (hcovered : Guarded (step settings) (CommitCovered settings) (State.initial now) es)
    (hrun : run (step settings) (State.initial now) es = some s)
    (hdecide : step settings s (.decide reservationId) = some t)
    (hadmitted : t.admitted ≠ none) : WithinLimits settings s := by
  have hinv : Inv settings s :=
    run_invariant (fun _ _ _ hi hok hs => hi.step hok hs) hcovered hrun (inv_initial now)
  obtain ⟨a, ha, hre⟩ := Option.bind_eq_some_iff.mp hdecide
  obtain ⟨ht, -, -, -, hal⟩ := decideAdmission_cases hre
  intro b hb rule hr
  obtain rfl : a = b := Option.mem_unique ha hb
  exact (hinv.reads a ha).within ht (hal hadmitted) rule hr

section Overlap

private def demoSettings : Settings := ⟨"w", 600, ⟨[]⟩⟩

private def demoNow : Instant := 63902822400000000

private def demoRules : List LimitRule := [.workspaceWide .tokens .month 10]

private def demoCharge : UsageCharge := ⟨"writer", "local", 9, 0, "op-1", false⟩

private def overlappingCommit : List Event :=
  [.begin "writer" "local" (some 9) demoRules, .read, .read, .read, .decide "r1", .finish,
    .begin "writer" "local" (some 9) demoRules, .read,
    .commit "r1" demoCharge demoNow, .read, .read]

private def orderedCommit : List Event :=
  [.begin "writer" "local" (some 9) demoRules, .read, .read, .read, .decide "r1", .finish,
    .commit "r1" demoCharge demoNow,
    .begin "writer" "local" (some 1) demoRules, .read, .read, .read]

private def admits (s : State) : Bool :=
  (step demoSettings s (.decide "r2")).any fun t => t.admitted.isSome

private theorem exists_admitted {s : State} (h : admits s = true) :
    ∃ t, step demoSettings s (.decide "r2") = some t ∧ t.admitted ≠ none := by
  obtain ⟨t, ht, hsome⟩ := (Option.any_eq_true _ _).mp h
  exact ⟨t, ht, Option.isSome_iff_ne_none.mp hsome⟩

/-- A charge committed between the two reads is in neither sum, and the call it should
have stopped is admitted over the limit. -/
theorem admission_over_committed :
    ¬ ∀ (settings : Settings) (now : Instant) (es : List Event) (s t : State)
      (reservationId : String), run (step settings) (State.initial now) es = some s →
        step settings s (.decide reservationId) = some t → t.admitted ≠ none →
          WithinLimits settings s := by
  intro h
  obtain ⟨s, hrun, hs⟩ := exists_run_of_any
    (p := fun s => admits s && !decide (WithinLimits demoSettings s))
    (show (run (step demoSettings) (State.initial demoNow) overlappingCommit).any _ = true by
      decide +kernel)
  simp only [Bool.and_eq_true, Bool.not_eq_true', decide_eq_false_iff_not] at hs
  obtain ⟨t, ht, ha⟩ := exists_admitted hs.1
  exact hs.2 (h demoSettings demoNow overlappingCommit s t "r2" hrun ht ha)

theorem ordered_commit_within_limits :
    ∃ s, run (step demoSettings) (State.initial demoNow) orderedCommit = some s ∧
      WithinLimits demoSettings s := by
  obtain ⟨s, hrun, hs⟩ := exists_run_of_any (p := admits)
    (show (run (step demoSettings) (State.initial demoNow) orderedCommit).any _ = true by
      decide +kernel)
  obtain ⟨t, ht, ha⟩ := exists_admitted hs
  have hc : Guarded (step demoSettings) (CommitCovered demoSettings)
      (State.initial demoNow) orderedCommit := by
    decide +kernel
  exact ⟨s, hrun, covered_admission_within_limits demoSettings demoNow orderedCommit s t "r2"
    hc hrun ht ha⟩

end Overlap

end Aizzak.QuotaAdmission
