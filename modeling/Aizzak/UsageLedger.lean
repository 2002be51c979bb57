import Aizzak.Calendar

/-!
The usage ledger: an append-only table of charges and, in the same transaction,
one upsert per period and rollup bucket. A database error rolls the transaction
back, so an append is either refused without a trace, ignored as a replay, or
stored with all its rollups. The invariant is that every rollup row is the sum of
the stored records it covers.
-/
namespace Aizzak.UsageLedger

open Calendar

inductive Period where
  | day
  | month
deriving DecidableEq, Repr

namespace Period

def all : List Period := [day, month]

theorem mem_all (period : Period) : period ∈ all := by
  cases period <;> decide

end Period

def wildcard : String := "*"

def periodStart (period : Period) (now : Instant) : Date :=
  match period with
  | .month => ⟨(dateOf now).year, (dateOf now).month, 1⟩
  | .day => dateOf now

private theorem dayOf_mono {s t : Instant} (hst : s ≤ t) : dayOf s ≤ dayOf t :=
  Nat.div_le_div_right hst

theorem periodStart_month_eq_iff (s t : Instant) :
    periodStart .month s = periodStart .month t ↔ monthIndex (dayOf s) = monthIndex (dayOf t) := by
  simp [monthIndex_eq_iff, periodStart, dateOf]

theorem periodStart_day_eq_iff (s t : Instant) :
    periodStart .day s = periodStart .day t ↔ dayOf s = dayOf t :=
  dateOfDay_injective.eq_iff

/-- The instants of one bucket are an interval: time never returns to a closed period. -/
theorem periodStart_convex (period : Period) {a b c : Instant} (hab : a ≤ b) (hbc : b ≤ c)
    (hac : periodStart period a = periodStart period c) :
    periodStart period b = periodStart period c := by
  cases period with
  | day =>
    rw [periodStart_day_eq_iff] at hac ⊢
    have hl := dayOf_mono hab
    have hr := dayOf_mono hbc
    omega
  | month =>
    rw [periodStart_month_eq_iff] at hac ⊢
    have hl := monthIndex_mono (dayOf_mono hab)
    have hr := monthIndex_mono (dayOf_mono hbc)
    omega

def appendDistinct {α : Type*} [DecidableEq α] : List α → List α → List α
  | acc, [] => acc
  | acc, a :: as => appendDistinct (if a ∈ acc then acc else acc ++ [a]) as

theorem mem_appendDistinct {α : Type*} [DecidableEq α] (a : α) (acc as : List α) :
    a ∈ appendDistinct acc as ↔ a ∈ acc ∨ a ∈ as := by
  induction as generalizing acc with
  | nil => simp [appendDistinct]
  | cons c as ih =>
    rw [appendDistinct, ih]
    split_ifs with hmem
    · grind
    · simp [or_assoc]

theorem appendDistinct_nodup {α : Type*} [DecidableEq α] (acc as : List α) (hacc : acc.Nodup) :
    (appendDistinct acc as).Nodup := by
  induction as generalizing acc with
  | nil => exact hacc
  | cons c as ih =>
    rw [appendDistinct]
    split_ifs with hmem
    · exact ih acc hacc
    · apply ih
      simpa [List.nodup_append] using ⟨hacc, fun a ha hac => hmem (hac ▸ ha)⟩

def rollupBuckets (agent provider : String) : List (String × String) :=
  appendDistinct [] [(wildcard, wildcard), (agent, wildcard), (wildcard, provider)]

theorem rollupBuckets_nodup (agent provider : String) : (rollupBuckets agent provider).Nodup :=
  appendDistinct_nodup _ _ List.nodup_nil

theorem mem_rollupBuckets (agent provider : String) (bucket : String × String) :
    bucket ∈ rollupBuckets agent provider ↔
      bucket = (wildcard, wildcard) ∨ bucket = (agent, wildcard) ∨
        bucket = (wildcard, provider) := by
  simp [rollupBuckets, mem_appendDistinct]

structure UsageCharge where
  agent : String
  provider : String
  tokens : ℤ
  costMicros : ℤ
  operationId : String
  estimated : Bool
deriving DecidableEq, Repr

@[ext] structure UsageTotals where
  tokens : ℕ
  costMicros : ℕ
deriving DecidableEq, Repr

namespace UsageTotals

instance : Zero UsageTotals := ⟨⟨0, 0⟩⟩

instance : Add UsageTotals :=
  ⟨fun a b => ⟨a.tokens + b.tokens, a.costMicros + b.costMicros⟩⟩

@[simp] theorem zero_tokens : (0 : UsageTotals).tokens = 0 := rfl
@[simp] theorem zero_costMicros : (0 : UsageTotals).costMicros = 0 := rfl
@[simp] theorem add_tokens (a b : UsageTotals) : (a + b).tokens = a.tokens + b.tokens := rfl
@[simp] theorem add_costMicros (a b : UsageTotals) :
    (a + b).costMicros = a.costMicros + b.costMicros := rfl

instance : AddCommMonoid UsageTotals where
  add_assoc a b c := by ext <;> simp [Nat.add_assoc]
  zero_add a := by ext <;> simp
  add_zero a := by ext <;> simp
  add_comm a b := by ext <;> simp [Nat.add_comm]
  nsmul := nsmulRec

end UsageTotals

def bigintBound : ℕ := 2 ^ 63

structure UsageRecord where
  workspaceId : String
  agentKey : String
  provider : String
  totals : UsageTotals
  operationId : String
  createdAt : Instant
  estimated : Bool
deriving DecidableEq, Repr

structure RollupKey where
  workspaceId : String
  agentKey : String
  provider : String
  period : Period
  periodStart : Date
deriving DecidableEq, Repr

structure Ledger where
  records : List UsageRecord
  rollups : RollupKey → Option UsageTotals

namespace Ledger

def empty : Ledger := ⟨[], fun _ => none⟩

end Ledger

def checkedBigint (value : ℤ) : Option ℕ :=
  if 0 ≤ value ∧ value < bigintBound then some value.toNat else none

/-- One bucket's upsert: a fresh row starts at the charge, an existing one accumulates. -/
def rollupUpsert (rollups : RollupKey → Option UsageTotals) (key : RollupKey)
    (totals : UsageTotals) : Option (RollupKey → Option UsageTotals) :=
  let sum := (rollups key).getD 0 + totals
  if sum.tokens < bigintBound ∧ sum.costMicros < bigintBound then
    some (Function.update rollups key (some sum))
  else none

def rollupKeys (workspaceId agent provider : String) (now : Instant) : List RollupKey :=
  Period.all.flatMap fun period =>
    (rollupBuckets agent provider).map fun bucket =>
      ⟨workspaceId, bucket.1, bucket.2, period, periodStart period now⟩

def rollupUpserts (rollups : RollupKey → Option UsageTotals) (totals : UsageTotals) :
    List RollupKey → Option (RollupKey → Option UsageTotals)
  | [] => some rollups
  | key :: keys => (rollupUpsert rollups key totals).bind fun next => rollupUpserts next totals keys

structure AppendCall where
  workspaceId : String
  now : Instant
  charge : UsageCharge
deriving DecidableEq, Repr

namespace AppendCall

def record (call : AppendCall) : Option UsageRecord :=
  (checkedBigint call.charge.tokens).bind fun tokens =>
    (checkedBigint call.charge.costMicros).map fun costMicros =>
      ⟨call.workspaceId, call.charge.agent, call.charge.provider, ⟨tokens, costMicros⟩,
        call.charge.operationId, call.now, call.charge.estimated⟩

end AppendCall

namespace Ledger

def HasOperation (ledger : Ledger) (workspaceId operationId : String) : Prop :=
  ∃ r ∈ ledger.records, r.workspaceId = workspaceId ∧ r.operationId = operationId

instance (ledger : Ledger) (workspaceId operationId : String) :
    Decidable (ledger.HasOperation workspaceId operationId) :=
  inferInstanceAs (Decidable (∃ r ∈ ledger.records, _))

/-- The append transaction: `none` is a database error, after which nothing is kept. -/
def append (ledger : Ledger) (call : AppendCall) : Option (Bool × Ledger) :=
  call.record.bind fun record =>
    if ledger.HasOperation call.workspaceId call.charge.operationId then some (false, ledger)
    else
      (rollupUpserts ledger.rollups record.totals
        (rollupKeys call.workspaceId call.charge.agent call.charge.provider call.now)).map
          fun rollups => (true, ⟨ledger.records ++ [record], rollups⟩)

def afterAppend (ledger : Ledger) (call : AppendCall) : Ledger :=
  match ledger.append call with
  | none => ledger
  | some (_, next) => next

def appendAll (calls : List AppendCall) : Ledger :=
  calls.foldl afterAppend empty

end Ledger

/-- A record falls in a row's period bucket and matches its dimension, where the
wildcard matches every agent or provider and at most one dimension is named. -/
def RollupKey.Covers (key : RollupKey) (r : UsageRecord) : Prop :=
  r.workspaceId = key.workspaceId ∧
    UsageLedger.periodStart key.period r.createdAt = key.periodStart ∧
    (key.agentKey = wildcard ∨ key.agentKey = r.agentKey) ∧
    (key.provider = wildcard ∨ key.provider = r.provider) ∧
    (key.agentKey = wildcard ∨ key.provider = wildcard)

instance (key : RollupKey) (r : UsageRecord) : Decidable (key.Covers r) :=
  inferInstanceAs (Decidable (_ ∧ _))

def rollupRow (records : List UsageRecord) : Option UsageTotals :=
  if records = [] then none else some (records.map UsageRecord.totals).sum

theorem mem_rollupKeys (workspaceId agent provider : String) (now : Instant) (key : RollupKey) :
    key ∈ rollupKeys workspaceId agent provider now ↔
      key.workspaceId = workspaceId ∧ periodStart key.period now = key.periodStart ∧
        (key.agentKey, key.provider) ∈ rollupBuckets agent provider := by
  simp only [rollupKeys, List.mem_flatMap, List.mem_map]
  constructor
  · rintro ⟨period, -, bucket, hb, rfl⟩
    exact ⟨rfl, rfl, hb⟩
  · rintro ⟨hw, hs, hb⟩
    exact ⟨key.period, Period.mem_all _, _, hb, by rw [← hw, hs]⟩

theorem rollupKeys_nodup (workspaceId agent provider : String) (now : Instant) :
    (rollupKeys workspaceId agent provider now).Nodup := by
  have hrow (period : Period) : ((rollupBuckets agent provider).map fun bucket =>
      (⟨workspaceId, bucket.1, bucket.2, period, periodStart period now⟩ : RollupKey)).Nodup := by
    apply (rollupBuckets_nodup agent provider).map
    intro x y hxy
    simp only [RollupKey.mk.injEq] at hxy
    exact Prod.ext hxy.2.1 hxy.2.2.1
  simp only [rollupKeys, Period.all, List.flatMap_cons, List.flatMap_nil, List.append_nil]
  apply (hrow .day).append (hrow .month)
  simp only [List.disjoint_left, List.mem_map]
  rintro key ⟨x, -, rfl⟩ ⟨y, -, hy⟩
  simp at hy

/-- The covering rows are those an append updates. -/
theorem covers_iff_mem_rollupKeys (key : RollupKey) (r : UsageRecord) :
    key.Covers r ↔ key ∈ rollupKeys r.workspaceId r.agentKey r.provider r.createdAt := by
  rw [mem_rollupKeys, mem_rollupBuckets, RollupKey.Covers]
  simp only [Prod.mk.injEq]
  constructor
  · rintro ⟨hw, hs, ha, hp, hone⟩
    refine ⟨hw.symm, hs, ?_⟩
    tauto
  · rintro ⟨hw, hs, hb⟩
    refine ⟨hw.symm, hs, ?_⟩
    tauto

theorem rollupUpsert_eq_some {rollups next : RollupKey → Option UsageTotals} {key : RollupKey}
    {totals : UsageTotals} (h : rollupUpsert rollups key totals = some next) :
    next = Function.update rollups key (some ((rollups key).getD 0 + totals)) := by
  simp only [rollupUpsert] at h
  split_ifs at h
  exact (Option.some.inj h).symm

/-- The fan-out touches each of its keys once and no other row. -/
theorem rollupUpserts_spec {keys : List RollupKey} {totals : UsageTotals}
    {rollups next : RollupKey → Option UsageTotals} (hn : keys.Nodup)
    (h : rollupUpserts rollups totals keys = some next) (key : RollupKey) :
    next key = if key ∈ keys then some ((rollups key).getD 0 + totals) else rollups key := by
  induction keys generalizing rollups with
  | nil =>
    have heq : rollups = next := by simpa [rollupUpserts] using h
    simp [heq]
  | cons k keys ih =>
    obtain ⟨mid, hmid, hr⟩ := Option.bind_eq_some_iff.mp h
    obtain ⟨hnot, hn⟩ := List.nodup_cons.mp hn
    rw [ih hn hr, rollupUpsert_eq_some hmid]
    by_cases hkey : key = k
    · subst hkey
      simp [hnot]
    · simp [hkey]

theorem AppendCall.record_eq_some {call : AppendCall} {r : UsageRecord}
    (h : call.record = some r) :
    r.workspaceId = call.workspaceId ∧ r.agentKey = call.charge.agent ∧
      r.provider = call.charge.provider ∧ r.operationId = call.charge.operationId ∧
      r.createdAt = call.now ∧ (r.totals.tokens : ℤ) = call.charge.tokens ∧
      (r.totals.costMicros : ℤ) = call.charge.costMicros := by
  simp only [AppendCall.record, checkedBigint, Option.bind_eq_some_iff, Option.map_eq_some_iff,
    Option.ite_none_right_eq_some, Option.some.injEq] at h
  obtain ⟨tokens, ⟨ht, rfl⟩, cost, ⟨hc, rfl⟩, rfl⟩ := h
  refine ⟨rfl, rfl, rfl, rfl, rfl, ?_, ?_⟩ <;> simp only <;> omega

namespace Ledger

variable {ledger : Ledger} {call : AppendCall}

/-- An append is refused, a replay, or stored with all its rows. -/
theorem append_cases {next : Ledger} {stored : Bool}
    (h : ledger.append call = some (stored, next)) :
    ∃ r, call.record = some r ∧
      ((stored = false ∧ next = ledger ∧
          ledger.HasOperation call.workspaceId call.charge.operationId) ∨
        (stored = true ∧ ¬ ledger.HasOperation call.workspaceId call.charge.operationId ∧
          next.records = ledger.records ++ [r] ∧
          ∀ key, next.rollups key =
            if key.Covers r then some ((ledger.rollups key).getD 0 + r.totals)
            else ledger.rollups key)) := by
  obtain ⟨r, hr, hrs⟩ := Option.bind_eq_some_iff.mp h
  refine ⟨r, hr, ?_⟩
  split_ifs at hrs with hre
  · obtain ⟨rfl, rfl⟩ : false = stored ∧ ledger = next := by simpa using hrs
    exact Or.inl ⟨rfl, rfl, hre⟩
  · obtain ⟨rollups, hro, hn⟩ := Option.map_eq_some_iff.mp hrs
    obtain ⟨rfl, rfl⟩ : true = stored ∧ _ = next := by simpa using hn
    refine Or.inr ⟨rfl, hre, rfl, fun key => ?_⟩
    obtain ⟨hw, ha, hp, -, hc, -, -⟩ := AppendCall.record_eq_some hr
    rw [← hw, ← ha, ← hp, ← hc] at hro
    simp only [rollupUpserts_spec (rollupKeys_nodup _ _ _ _) hro key,
      covers_iff_mem_rollupKeys]

/-- Every row is the sum of what it covers, and no operation is stored twice. -/
structure Consistent (ledger : Ledger) : Prop where
  rows : ∀ key, ledger.rollups key = rollupRow (ledger.records.filter (key.Covers ·))
  distinct : ledger.records.Pairwise fun r s =>
    ¬ (r.workspaceId = s.workspaceId ∧ r.operationId = s.operationId)

theorem consistent_empty : empty.Consistent :=
  ⟨fun _ => by simp [empty, rollupRow], List.Pairwise.nil⟩

private theorem rollupRow_concat (records : List UsageRecord) (r : UsageRecord) :
    rollupRow (records ++ [r]) = some ((rollupRow records).getD 0 + r.totals) := by
  rcases eq_or_ne records [] with rfl | hne
  · simp [rollupRow]
  · simp [rollupRow, hne]

/-- An append keeps every row the sum of its records. -/
theorem Consistent.append {next : Ledger} {stored : Bool} (hl : ledger.Consistent)
    (h : ledger.append call = some (stored, next)) :
    next.Consistent := by
  obtain ⟨r, hr, ⟨-, rfl, -⟩ | ⟨-, hf, hre, hro⟩⟩ := append_cases h
  · exact hl
  obtain ⟨hw, -, -, ho, -⟩ := AppendCall.record_eq_some hr
  constructor
  · intro key
    rw [hro key, hre, List.filter_append, hl.rows key]
    by_cases hc : key.Covers r
    · simp [hc, rollupRow_concat]
    · simp [hc]
  · rw [hre, List.pairwise_append]
    refine ⟨hl.distinct, List.pairwise_singleton _ _, fun s hs t ht hsa => ?_⟩
    obtain rfl : t = r := by simpa using ht
    exact hf ⟨s, hs, hsa.1.trans hw, hsa.2.trans ho⟩

theorem Consistent.afterAppend (hl : ledger.Consistent) (call : AppendCall) :
    (ledger.afterAppend call).Consistent := by
  cases h : ledger.append call with
  | none => simpa [Ledger.afterAppend, h] using hl
  | some result => simpa [Ledger.afterAppend, h] using hl.append h

theorem appendAll_concat (calls : List AppendCall) (call : AppendCall) :
    appendAll (calls ++ [call]) = (appendAll calls).afterAppend call := by
  simp [appendAll]

theorem appendAll_consistent (calls : List AppendCall) : (appendAll calls).Consistent := by
  induction calls using List.reverseRecOn with
  | nil => exact consistent_empty
  | append_singleton calls call ih =>
    rw [appendAll_concat]
    exact ih.afterAppend call

theorem afterAppend_of_hasOperation
    (h : ledger.HasOperation call.workspaceId call.charge.operationId) :
    ledger.afterAppend call = ledger := by
  cases hr : call.record with
  | none => simp [afterAppend, append, hr]
  | some r => simp [afterAppend, append, hr, h]

theorem records_sublist_afterAppend (ledger : Ledger) (call : AppendCall) :
    ledger.records.Sublist (ledger.afterAppend call).records := by
  cases h : ledger.append call with
  | none => simp [afterAppend, h]
  | some result =>
    obtain ⟨r, -, ⟨-, hs, -⟩ | ⟨-, -, hr, -⟩⟩ := append_cases h
    · simp [afterAppend, h, hs]
    · simp [afterAppend, h, hr]

theorem hasOperation_afterAppend (h : ledger.append call ≠ none) :
    (ledger.afterAppend call).HasOperation call.workspaceId call.charge.operationId := by
  obtain ⟨⟨stored, next⟩, hn⟩ := Option.ne_none_iff_exists'.mp h
  obtain ⟨r, hr, ⟨-, rfl, hre⟩ | ⟨-, -, hrc, -⟩⟩ := append_cases hn
  · simpa [afterAppend, hn] using hre
  · obtain ⟨hw, -, -, ho, -⟩ := AppendCall.record_eq_some hr
    exact ⟨r, by simp [afterAppend, hn, hrc], hw, ho⟩

theorem HasOperation.appendAll_append {earlier : List AppendCall} {workspaceId operationId : String}
    (h : (appendAll earlier).HasOperation workspaceId operationId) (later : List AppendCall) :
    (appendAll (earlier ++ later)).HasOperation workspaceId operationId := by
  induction later using List.reverseRecOn with
  | nil => simpa using h
  | append_singleton later call ih =>
    rw [← List.append_assoc, appendAll_concat]
    obtain ⟨r, hr, hkey⟩ := ih
    exact ⟨r, (records_sublist_afterAppend _ call).subset hr, hkey⟩

theorem record_of_mem_appendAll {calls : List AppendCall} {r : UsageRecord}
    (hr : r ∈ (appendAll calls).records) : ∃ call ∈ calls, call.record = some r := by
  induction calls using List.reverseRecOn with
  | nil => simp [appendAll, empty] at hr
  | append_singleton calls call ih =>
    rw [appendAll_concat] at hr
    have hold : r ∈ (appendAll calls).records → ∃ c ∈ calls ++ [call], c.record = some r := by
      intro hmem
      obtain ⟨c, hc, hre⟩ := ih hmem
      exact ⟨c, by simp [hc], hre⟩
    cases h : (appendAll calls).append call with
    | none => exact hold (by simpa [afterAppend, h] using hr)
    | some result =>
      obtain ⟨s, hs, ⟨-, hsa, -⟩ | ⟨-, -, hrc, -⟩⟩ := append_cases h
      · exact hold (by simpa [afterAppend, h, hsa] using hr)
      · have hmem : r ∈ (appendAll calls).records ∨ r = s := by
          simpa [afterAppend, h, hrc] using hr
        rcases hmem with hmem | rfl
        · exact hold hmem
        · exact ⟨call, by simp, hs⟩

/-- After any sequence of appends every rollup row is the exact token and cost sum
of the stored records it covers, each operation is stored once, the grand total
covers every record of its period whatever its agent and provider, and appending
an operation again changes nothing. -/
theorem appendAll_rollups_exact (calls : List AppendCall) :
    (∀ key, (appendAll calls).rollups key =
        rollupRow ((appendAll calls).records.filter (key.Covers ·))) ∧
      (appendAll calls).records.Pairwise (fun r s =>
        ¬ (r.workspaceId = s.workspaceId ∧ r.operationId = s.operationId)) ∧
      (∀ r ∈ (appendAll calls).records, ∃ call ∈ calls, call.record = some r) ∧
      (∀ earlier call later, calls = earlier ++ call :: later →
        (appendAll earlier).append call ≠ none →
          (appendAll calls).HasOperation call.workspaceId call.charge.operationId) ∧
      (∀ workspaceId period start r,
        (RollupKey.mk workspaceId wildcard wildcard period start).Covers r ↔
          r.workspaceId = workspaceId ∧ UsageLedger.periodStart period r.createdAt = start) ∧
      (∀ call, (appendAll calls).HasOperation call.workspaceId call.charge.operationId →
        (appendAll calls).afterAppend call = appendAll calls) := by
  refine ⟨(appendAll_consistent calls).rows, (appendAll_consistent calls).distinct,
    fun r hr => record_of_mem_appendAll hr, ?_, ?_, fun call h => afterAppend_of_hasOperation h⟩
  · rintro earlier call later rfl ha
    have hs : (appendAll (earlier ++ [call])).HasOperation call.workspaceId
        call.charge.operationId := by
      rw [appendAll_concat]
      exact hasOperation_afterAppend ha
    simpa using hs.appendAll_append later
  · intro workspaceId period start r
    simp [RollupKey.Covers]

private def chargeOf (tokens : ℤ) (operationId : String) : AppendCall :=
  ⟨"w", 63902822400000000, ⟨"writer", "local", tokens, 0, operationId, false⟩⟩

private def grandTotalKey : RollupKey :=
  ⟨"w", wildcard, wildcard, .day, ⟨2026, 1, 1⟩⟩

/-- A row has no call counter, and its two sums do not determine one: one charge of
two tokens and two charges of one token leave the same grand total. -/
theorem rollup_row_has_no_call_count :
    ¬ ∃ callsOf : UsageTotals → ℕ, ∀ (calls : List AppendCall) (key : RollupKey)
      (row : UsageTotals), (appendAll calls).rollups key = some row →
        callsOf row = ((appendAll calls).records.filter (key.Covers ·)).length := by
  rintro ⟨callsOf, hco⟩
  have hone := hco [chargeOf 2 "a"] grandTotalKey ⟨2, 0⟩ (by decide +kernel)
  have htwo := hco [chargeOf 1 "a", chargeOf 1 "b"] grandTotalKey ⟨2, 0⟩ (by decide +kernel)
  have hc : ((appendAll [chargeOf 2 "a"]).records.filter (grandTotalKey.Covers ·)).length = 1 ∧
      ((appendAll [chargeOf 1 "a", chargeOf 1 "b"]).records.filter
        (grandTotalKey.Covers ·)).length = 2 := by
    decide +kernel
  omega

end Ledger

end Aizzak.UsageLedger
