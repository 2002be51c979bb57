import Aizzak.UsageLedger

/-!
The usage summary of a workspace: the rollup rows of a period are read whatever bucket they
belong to, in the order the database returns them, and folded into totals and two breakdowns.
-/
namespace Aizzak.UsageSummaries

open Calendar UsageLedger List Option

structure UsageRollup where
  key : RollupKey
  sums : UsageTotals
deriving DecidableEq

structure DimensionUsage where
  key : String
  usage : UsageTotals
deriving DecidableEq

structure UsageSummary where
  period : Period
  totals : UsageTotals
  byAgent : List DimensionUsage
  byProvider : List DimensionUsage
deriving DecidableEq

inductive ValidationError
  | invalidPeriod (period : String)
deriving DecidableEq

def periodValue : Period → String
  | .day => "day"
  | .month => "month"

def parsePeriod (value : String) : Option Period :=
  Period.all.find? fun period => periodValue period = value

theorem parsePeriod_eq_some_iff {value : String} {period : Period} :
    parsePeriod value = some period ↔ value = periodValue period := by
  simp only [parsePeriod, Period.all, List.find?_cons, periodValue]
  cases period with
  | day => grind [periodValue]
  | month => grind [periodValue]

/-- What `list_rollups` may return: the rows of a workspace and a period, in any order. -/
structure Lists (ledger : Ledger) (workspaceId : String) (period : Period)
    (rows : List UsageRollup) : Prop where
  nodup : rows.Nodup
  mem : ∀ row, row ∈ rows ↔ ledger.rollups row.key = some row.sums ∧
    row.key.workspaceId = workspaceId ∧ row.key.period = period

def addRow (summary : UsageSummary) (row : UsageRollup) : UsageSummary :=
  if row.key.agentKey = wildcard ∧ row.key.provider = wildcard then
    { summary with totals := row.sums }
  else if row.key.provider = wildcard ∧ row.key.agentKey ≠ wildcard then
    { summary with byAgent := summary.byAgent ++ [⟨row.key.agentKey, row.sums⟩] }
  else if row.key.agentKey = wildcard ∧ row.key.provider ≠ wildcard then
    { summary with byProvider := summary.byProvider ++ [⟨row.key.provider, row.sums⟩] }
  else summary

def summarize (period : Period) (rows : List UsageRollup) : UsageSummary :=
  rows.foldl addRow ⟨period, 0, [], []⟩

def execute (listRollups : Period → List UsageRollup) (period : String) :
    Except ValidationError UsageSummary :=
  match parsePeriod period with
  | none => .error (.invalidPeriod period)
  | some parsed => .ok (summarize parsed (listRollups parsed))

inductive Dimension
  | agent
  | provider

namespace Dimension

def named : Dimension → RollupKey → String
  | agent, key => key.agentKey
  | provider, key => key.provider

def other : Dimension → RollupKey → String
  | agent, key => key.provider
  | provider, key => key.agentKey

def name : Dimension → UsageRecord → String
  | agent, r => r.agentKey
  | provider, r => r.provider

def keyOf (d : Dimension) (workspaceId name : String) (period : Period) (start : Date) :
    RollupKey :=
  match d with
  | agent => ⟨workspaceId, name, wildcard, period, start⟩
  | provider => ⟨workspaceId, wildcard, name, period, start⟩

def entry (d : Dimension) (row : UsageRollup) : Option DimensionUsage :=
  if d.other row.key = wildcard ∧ d.named row.key ≠ wildcard then
    some ⟨d.named row.key, row.sums⟩
  else none

theorem eq_keyOf (d : Dimension) {key : RollupKey} (h : d.other key = wildcard) :
    key = d.keyOf key.workspaceId (d.named key) key.period key.periodStart := by
  cases d with
  | agent => rw [keyOf, named, ← show key.provider = wildcard from h]
  | provider => rw [keyOf, named, ← show key.agentKey = wildcard from h]

theorem covers_keyOf (d : Dimension) {workspaceId name : String} {period : Period} {start : Date}
    (hname : name ≠ wildcard) (r : UsageRecord) :
    (d.keyOf workspaceId name period start).Covers r ↔ r.workspaceId = workspaceId ∧
      periodStart period r.createdAt = start ∧ d.name r = name := by
  cases d with
  | agent => simp [keyOf, RollupKey.Covers, Dimension.name, hname, eq_comm]
  | provider => simp [keyOf, RollupKey.Covers, Dimension.name, hname, eq_comm]

theorem entry_eq_some {d : Dimension} {row : UsageRollup} {entry : DimensionUsage}
    (h : d.entry row = some entry) :
    d.other row.key = wildcard ∧ entry.key ≠ wildcard ∧ d.named row.key = entry.key ∧
      row.sums = entry.usage := by
  rw [Dimension.entry] at h
  split_ifs at h with hn
  cases h
  exact ⟨hn.1, hn.2, rfl, rfl⟩

theorem entry_keyOf (d : Dimension) {workspaceId name : String} {period : Period} {start : Date}
    (hname : name ≠ wildcard) (sums : UsageTotals) :
    d.entry ⟨d.keyOf workspaceId name period start, sums⟩ = some ⟨name, sums⟩ := by
  cases d with
  | agent => exact if_pos ⟨rfl, hname⟩
  | provider => exact if_pos ⟨rfl, hname⟩

end Dimension

def totalEntry (row : UsageRollup) : Option UsageTotals :=
  if row.key.agentKey = wildcard ∧ row.key.provider = wildcard then some row.sums else none

theorem foldl_addRow (summary : UsageSummary) (rows : List UsageRollup) :
    rows.foldl addRow summary =
      ⟨summary.period, (rows.filterMap totalEntry).getLast?.getD summary.totals,
        summary.byAgent ++ rows.filterMap Dimension.agent.entry,
        summary.byProvider ++ rows.filterMap Dimension.provider.entry⟩ := by
  induction rows generalizing summary with
  | nil => simp
  | cons row rows ih =>
    rw [foldl_cons, ih]
    by_cases ha : row.key.agentKey = wildcard
    · by_cases hp : row.key.provider = wildcard
      · simp [addRow, totalEntry, Dimension.entry, Dimension.named, Dimension.other, ha,
          hp, List.getLast?_cons]
      · simp [addRow, totalEntry, Dimension.entry, Dimension.named, Dimension.other, ha,
          hp]
    · by_cases hp : row.key.provider = wildcard
      · simp [addRow, totalEntry, Dimension.entry, Dimension.named, Dimension.other, ha,
          hp]
      · simp [addRow, totalEntry, Dimension.entry, Dimension.named, Dimension.other, ha,
          hp]

theorem summarize_eq (period : Period) (rows : List UsageRollup) :
    summarize period rows =
      ⟨period, (rows.filterMap totalEntry).getLast?.getD 0, rows.filterMap Dimension.agent.entry,
        rows.filterMap Dimension.provider.entry⟩ := by
  rw [summarize, foldl_addRow]
  rfl

def currentRecords (ledger : Ledger) (workspaceId : String) (period : Period) (now : Instant) :
    List UsageRecord :=
  ledger.records.filter fun r =>
    r.workspaceId = workspaceId ∧ periodStart period r.createdAt = periodStart period now

def sumOf (records : List UsageRecord) : UsageTotals := (records.map UsageRecord.totals).sum

/-- A breakdown that lists every name in use once, with what its records sum to. -/
structure Breakdown (records : List UsageRecord) (d : Dimension)
    (entries : List DimensionUsage) : Prop where
  nodup : (entries.map (·.key)).Nodup
  exact : ∀ entry ∈ entries, entry.usage = sumOf (records.filter (d.name · = entry.key))
  listed : ∀ r ∈ records, d.name r ≠ wildcard → d.name r ∈ entries.map (·.key)

structure Exact (records : List UsageRecord) (summary : UsageSummary) : Prop where
  totals : summary.totals = sumOf records
  byAgent : Breakdown records .agent summary.byAgent
  byProvider : Breakdown records .provider summary.byProvider
  agents : (∀ r ∈ records, r.agentKey ≠ wildcard) →
    (summary.byAgent.map (·.usage)).sum = summary.totals

def inBucket (key : RollupKey) (start : Date) : RollupKey := { key with periodStart := start }

def figure (ledger : Ledger) (key : RollupKey) : UsageTotals := (ledger.rollups key).getD 0

/-- Every row of a bucket that is not current has the figures of the current one of its
dimension, and is the only row of it unless it is a total. -/
def PastIsSilent (ledger : Ledger) (workspaceId : String) (period : Period) (now : Instant) :
    Prop :=
  ∀ key sums, ledger.rollups key = some sums → key.workspaceId = workspaceId →
    key.period = period → key.periodStart ≠ periodStart period now →
      sums = figure ledger (inBucket key (periodStart period now)) ∧
        ((key.agentKey = wildcard ∧ key.provider = wildcard) ∨
          ∀ start, ledger.rollups (inBucket key start) ≠ none → start = key.periodStart)

section Sums

theorem sumOf_filter_or {p q : UsageRecord → Bool} (hd : ∀ r, p r = true → q r = false)
    (records : List UsageRecord) :
    sumOf (records.filter fun r => p r || q r) =
      sumOf (records.filter p) + sumOf (records.filter q) := by
  induction records with
  | nil => simp [sumOf]
  | cons r records ih =>
    simp only [sumOf] at ih ⊢
    by_cases hp : p r = true
    · simp [hp, hd r hp, ih, add_assoc]
    · by_cases hq : q r = true
      · simp [hp, hq, ih, add_left_comm]
      · simp [hp, hq, ih]

theorem sum_by_name {names : List String} (hn : names.Nodup) (d : Dimension)
    (records : List UsageRecord) :
    (names.map fun name => sumOf (records.filter (d.name · = name))).sum =
      sumOf (records.filter (d.name · ∈ names)) := by
  induction names with
  | nil => simp [sumOf]
  | cons name names ih =>
    obtain ⟨hnot, hre⟩ := nodup_cons.mp hn
    have hd : ∀ r, decide (d.name r = name) = true → decide (d.name r ∈ names) = false := by
      intro r hr
      rw [of_decide_eq_true hr]
      exact decide_eq_false hnot
    rw [map_cons, sum_cons, ih hre, ← sumOf_filter_or hd]
    simp only [mem_cons, Bool.decide_or]

variable {ledger : Ledger} {workspaceId : String} {period : Period} {now : Instant}

section

variable (hledger : ledger.Consistent)
include hledger

theorem figure_eq (key : RollupKey) :
    figure ledger key = sumOf (ledger.records.filter (key.Covers ·)) := by
  rw [figure, hledger.rows key, rollupRow]
  split_ifs with hn
  · rw [hn]
    rfl
  · rfl

/-- A row has a record it covers. -/
theorem exists_covered {key : RollupKey} (h : ledger.rollups key ≠ none) :
    ∃ r ∈ ledger.records, key.Covers r := by
  rw [hledger.rows key, rollupRow] at h
  split_ifs at h with hn
  · exact absurd rfl h
  · obtain ⟨r, hr⟩ := exists_mem_of_ne_nil _ hn
    rw [mem_filter, decide_eq_true_eq] at hr
    exact ⟨r, hr.1, hr.2⟩

/-- A covered record has its row. -/
theorem rollups_of_covered {key : RollupKey} {r : UsageRecord} (hr : r ∈ ledger.records)
    (hc : key.Covers r) : ledger.rollups key = some (figure ledger key) := by
  have hn : ledger.rollups key ≠ none := by
    rw [hledger.rows key, rollupRow, if_neg]
    · exact some_ne_none _
    · exact ne_nil_of_mem (mem_filter.mpr ⟨hr, decide_eq_true hc⟩)
  obtain ⟨sums, hs⟩ := ne_none_iff_exists'.mp hn
  rw [figure, hs, getD_some]

theorem figure_total :
    figure ledger ⟨workspaceId, wildcard, wildcard, period, periodStart period now⟩ =
      sumOf (currentRecords ledger workspaceId period now) := by
  rw [figure_eq hledger, currentRecords]
  simp [RollupKey.Covers]

theorem figure_named (d : Dimension) {name : String} (hname : name ≠ wildcard) :
    figure ledger (d.keyOf workspaceId name period (periodStart period now)) =
      sumOf ((currentRecords ledger workspaceId period now).filter (d.name · = name)) := by
  rw [figure_eq hledger, currentRecords, List.filter_filter]
  congr 1
  apply List.filter_congr
  intro r _
  rw [← Bool.decide_and]
  apply decide_eq_decide.mpr
  rw [d.covers_keyOf hname]
  tauto

end

end Sums

section Summary

variable {ledger : Ledger} {workspaceId : String} {period : Period} {now : Instant}
  {rows : List UsageRollup}

theorem inBucket_self {key : RollupKey} {start : Date} (h : key.periodStart = start) :
    inBucket key start = key := by
  rw [inBucket, ← h]

theorem inBucket_keyOf (d : Dimension) (name : String) (start other : Date) :
    inBucket (d.keyOf workspaceId name period start) other =
      d.keyOf workspaceId name period other := by
  cases d <;> rfl

variable {row : UsageRollup}

theorem sums_eq_figure (hpast : PastIsSilent ledger workspaceId period now)
    (hlists : Lists ledger workspaceId period rows) (hrow : row ∈ rows) :
    row.sums = figure ledger (inBucket row.key (periodStart period now)) := by
  obtain ⟨hs, hw, hp⟩ := (hlists.mem row).mp hrow
  by_cases hst : row.key.periodStart = periodStart period now
  · rw [inBucket_self hst, figure, hs, getD_some]
  · exact (hpast row.key row.sums hs hw hp hst).1

variable {d : Dimension}

theorem key_of_entry (hlists : Lists ledger workspaceId period rows) (hrow : row ∈ rows)
    {entry : DimensionUsage} (he : d.entry row = some entry) :
    row = ⟨d.keyOf workspaceId entry.key period row.key.periodStart, entry.usage⟩ := by
  obtain ⟨ho, -, hn, hs⟩ := Dimension.entry_eq_some he
  obtain ⟨-, hw, hp⟩ := (hlists.mem row).mp hrow
  have hkey := d.eq_keyOf ho
  rw [hn, hw, hp] at hkey
  rw [← hkey, ← hs]

variable {x y : UsageRollup}

theorem row_ext (hlists : Lists ledger workspaceId period rows) (hx : x ∈ rows) (hy : y ∈ rows)
    (hkey : x.key = y.key) : x = y := by
  have hxs := ((hlists.mem x).mp hx).1
  rw [hkey, ((hlists.mem y).mp hy).1, some.injEq] at hxs
  cases x with
  | mk key sums =>
    cases y with
    | mk other sums' =>
      cases hkey
      cases hxs
      rfl

variable {ex ey : DimensionUsage}

section

variable (hpast : PastIsSilent ledger workspaceId period now)
    (hlists : Lists ledger workspaceId period rows) (hx : x ∈ rows) (hy : y ∈ rows)
    (hex : d.entry x = some ex) (hey : d.entry y = some ey) (hname : ex.key = ey.key)
include hpast hlists hx hy hex hey hname

theorem start_of_entries (hs : x.key.periodStart ≠ periodStart period now) :
    y.key.periodStart = x.key.periodStart := by
  obtain ⟨hxs, hxw, hxp⟩ := (hlists.mem x).mp hx
  obtain ⟨-, hxm, hxn, -⟩ := Dimension.entry_eq_some hex
  have hkey : inBucket x.key y.key.periodStart = y.key := by
    rw [key_of_entry hlists hx hex, inBucket_keyOf, hname, key_of_entry hlists hy hey]
    cases d <;> rfl
  rcases (hpast x.key x.sums hxs hxw hxp hs).2 with hw | ho
  · rw [← hxn] at hxm
    cases d with
    | agent => exact absurd hw.1 hxm
    | provider => exact absurd hw.2 hxm
  · apply ho
    rw [hkey, ((hlists.mem y).mp hy).1]
    exact some_ne_none _

theorem eq_of_entries : x = y := by
  have hs : x.key.periodStart = y.key.periodStart := by
    by_cases hxs : x.key.periodStart = periodStart period now
    · by_cases hys : y.key.periodStart = periodStart period now
      · rw [hxs, hys]
      · exact start_of_entries hpast hlists hy hx hey hex hname.symm hys
    · exact (start_of_entries hpast hlists hx hy hex hey hname hxs).symm
  apply row_ext hlists hx hy
  have hxk := congrArg UsageRollup.key (key_of_entry hlists hx hex)
  have hyk := congrArg UsageRollup.key (key_of_entry hlists hy hey)
  rw [hxk, hyk, hname, hs]

end

section

variable (hledger : ledger.Consistent) (hpast : PastIsSilent ledger workspaceId period now)
    (hlists : Lists ledger workspaceId period rows)
include hledger hpast hlists

/-- With the past silent, a breakdown lists the current names once. -/
theorem breakdown_of_pastIsSilent (d : Dimension) :
    Breakdown (currentRecords ledger workspaceId period now) d (rows.filterMap d.entry) where
  nodup := by
    rw [List.map_filterMap, List.Nodup, List.pairwise_filterMap]
    refine hlists.nodup.imp_of_mem ?_
    intro x y hx hy hne name hxn other hyn heq
    obtain ⟨ex, hex, rfl⟩ := Option.map_eq_some_iff.mp hxn
    obtain ⟨ey, hey, rfl⟩ := Option.map_eq_some_iff.mp hyn
    exact hne (eq_of_entries hpast hlists hx hy hex hey heq)
  exact := by
    intro entry he
    obtain ⟨row, hrow, hso⟩ := List.mem_filterMap.mp he
    obtain ⟨-, hname, -, hs⟩ := Dimension.entry_eq_some hso
    rw [← hs, sums_eq_figure hpast hlists hrow, key_of_entry hlists hrow hso,
      inBucket_keyOf, figure_named hledger d hname]
  listed := by
    intro r hr hname
    obtain ⟨hmem, hc⟩ := List.mem_filter.mp hr
    rw [decide_eq_true_eq] at hc
    have hs := rollups_of_covered hledger hmem
      ((d.covers_keyOf hname r).mpr ⟨hc.1, hc.2, rfl⟩)
    rw [List.mem_map]
    refine ⟨_, List.mem_filterMap.mpr ⟨⟨_, _⟩, (hlists.mem _).mpr ⟨hs, ?_, ?_⟩,
      d.entry_keyOf hname _⟩, rfl⟩
    · cases d <;> rfl
    · cases d <;> rfl

theorem totals_of_pastIsSilent :
    (rows.filterMap totalEntry).getLast?.getD 0 =
      sumOf (currentRecords ledger workspaceId period now) := by
  rw [← figure_total hledger]
  cases hl : (rows.filterMap totalEntry).getLast? with
  | some sums =>
    obtain ⟨row, hrow, ht⟩ := mem_filterMap.mp (mem_of_getLast? hl)
    rw [totalEntry] at ht
    split_ifs at ht with hwi
    obtain ⟨-, hw, hp⟩ := (hlists.mem row).mp hrow
    rw [getD_some, ← some.inj ht, sums_eq_figure hpast hlists hrow, inBucket,
      hwi.1, hwi.2, hw, hp]
  | none =>
    have he := List.getLast?_eq_none_iff.mp hl
    rw [getD_none, figure]
    cases hs : ledger.rollups
        ⟨workspaceId, wildcard, wildcard, period, periodStart period now⟩ with
    | none => rfl
    | some sums =>
      have hin : sums ∈ rows.filterMap totalEntry :=
        mem_filterMap.mpr ⟨⟨_, sums⟩, (hlists.mem _).mpr ⟨hs, rfl, rfl⟩, if_pos ⟨rfl, rfl⟩⟩
      rw [he] at hin
      exact absurd hin not_mem_nil

end

theorem sum_of_breakdown {records : List UsageRecord} {entries : List DimensionUsage}
    (h : Breakdown records d entries) (hn : ∀ r ∈ records, d.name r ≠ wildcard) :
    (entries.map (·.usage)).sum = sumOf records := by
  have hu : entries.map (·.usage) =
      (entries.map (·.key)).map fun name => sumOf (records.filter (d.name · = name)) := by
    rw [List.map_map]
    exact map_congr_left fun entry he => h.exact entry he
  rw [hu, sum_by_name h.nodup, filter_eq_self.mpr]
  intro r hr
  exact decide_eq_true (h.listed r hr (hn r hr))

theorem exact_of_pastIsSilent (hledger : ledger.Consistent)
    (hpast : PastIsSilent ledger workspaceId period now)
    (hlists : Lists ledger workspaceId period rows) :
    Exact (currentRecords ledger workspaceId period now) (summarize period rows) := by
  have ht := totals_of_pastIsSilent hledger hpast hlists
  have ha := breakdown_of_pastIsSilent hledger hpast hlists .agent
  rw [summarize_eq]
  refine ⟨ht, ha, breakdown_of_pastIsSilent hledger hpast hlists .provider, ?_⟩
  intro hn
  exact (sum_of_breakdown ha hn).trans ht.symm

/-- The database has an order to return the rows in. -/
theorem exists_lists (hledger : ledger.Consistent) (workspaceId : String) (period : Period) :
    ∃ rows, Lists ledger workspaceId period rows := by
  let keys := (ledger.records.flatMap fun r =>
    rollupKeys r.workspaceId r.agentKey r.provider r.createdAt).dedup.filter fun key =>
      key.workspaceId = workspaceId ∧ key.period = period
  refine ⟨keys.filterMap fun key => (ledger.rollups key).map fun sums => ⟨key, sums⟩, ?_, ?_⟩
  · apply List.Nodup.filterMap _ ((nodup_dedup _).filter _)
    intro x y row hx hy
    obtain ⟨sums, -, rfl⟩ := map_eq_some_iff.mp hx
    obtain ⟨other, -, heq⟩ := map_eq_some_iff.mp hy
    exact (congrArg UsageRollup.key heq).symm
  · intro row
    rw [mem_filterMap]
    constructor
    · rintro ⟨key, hkey, hso⟩
      obtain ⟨sums, hs, rfl⟩ := map_eq_some_iff.mp hso
      rw [mem_filter, decide_eq_true_eq] at hkey
      exact ⟨hs, hkey.2⟩
    · rintro ⟨hs, hof⟩
      have hn : ledger.rollups row.key ≠ none := by simp [hs]
      obtain ⟨r, hr, hc⟩ := exists_covered hledger hn
      refine ⟨row.key, ?_, by rw [hs]; rfl⟩
      rw [mem_filter, mem_dedup, mem_flatMap, decide_eq_true_eq]
      exact ⟨⟨r, hr, (covers_iff_mem_rollupKeys row.key r).mp hc⟩, hof⟩

theorem Lists.of_perm {others : List UsageRollup} (h : Lists ledger workspaceId period rows)
    (hp : others.Perm rows) : Lists ledger workspaceId period others where
  nodup := hp.nodup_iff.mpr h.nodup
  mem := fun row => hp.mem_iff.trans (h.mem row)

theorem totals_of_last (hw : row.key.agentKey = wildcard ∧ row.key.provider = wildcard) :
    (summarize period (rows ++ [row])).totals = row.sums := by
  simp [summarize_eq, totalEntry, hw]

theorem eq_of_nodup_names (hno : ((rows.filterMap d.entry).map (·.key)).Nodup) (hx : x ∈ rows)
    (hy : y ∈ rows) (hex : d.entry x = some ex) (hey : d.entry y = some ey)
    (hname : ex.key = ey.key) :
    x = y := by
  rw [map_filterMap, List.Nodup, pairwise_filterMap] at hno
  by_contra hne
  have hs : Std.Symm fun x y : UsageRollup =>
      ∀ name ∈ (d.entry x).map (·.key), ∀ other ∈ (d.entry y).map (·.key), name ≠ other :=
    ⟨fun _ _ h name hn other ho => (h other ho name hn).symm⟩
  exact hno.forall hx hy hne ex.key (by rw [hex]; rfl) ey.key (by rw [hey]; rfl) hname

/-- Exactness in every order silences the past. -/
theorem pastIsSilent_of_exact (hledger : ledger.Consistent)
    (hexact : ∀ rows, Lists ledger workspaceId period rows →
      Exact (currentRecords ledger workspaceId period now) (summarize period rows)) :
    PastIsSilent ledger workspaceId period now := by
  intro key sums hsu hw hpe hst
  obtain ⟨rows, hlists⟩ := exists_lists hledger workspaceId period
  have hrow : ⟨key, sums⟩ ∈ rows := (hlists.mem _).mpr ⟨hsu, hw, hpe⟩
  by_cases hwi : key.agentKey = wildcard ∧ key.provider = wildcard
  · refine ⟨?_, Or.inl hwi⟩
    have hpr : (rows.erase ⟨key, sums⟩ ++ [(⟨key, sums⟩ : UsageRollup)]).Perm rows :=
      perm_append_comm.trans (perm_cons_erase hrow).symm
    have ht := (hexact _ (hlists.of_perm hpr)).totals
    rw [totals_of_last hwi] at ht
    rw [show sums = _ from ht, ← figure_total hledger, inBucket, hwi.1, hwi.2, hw,
      hpe]
  · have hn : ∃ d : Dimension, d.other key = wildcard ∧ d.named key ≠ wildcard := by
      have hno : ledger.rollups key ≠ none := by simp [hsu]
      obtain ⟨r, -, hc⟩ := exists_covered hledger hno
      obtain ⟨-, -, -, -, hone⟩ := hc
      rcases hone with ha | hp
      · exact ⟨.provider, ha, fun hp => hwi ⟨ha, hp⟩⟩
      · exact ⟨.agent, hp, fun ha => hwi ⟨ha, hp⟩⟩
    obtain ⟨d, ho, hname⟩ := hn
    have hkey := d.eq_keyOf ho
    rw [hw, hpe] at hkey
    have hb : Breakdown (currentRecords ledger workspaceId period now) d
        (rows.filterMap d.entry) := by
      have hs := hexact rows hlists
      rw [summarize_eq] at hs
      cases d with
      | agent => exact hs.byAgent
      | provider => exact hs.byProvider
    have he : d.entry ⟨key, sums⟩ = some ⟨d.named key, sums⟩ := if_pos ⟨ho, hname⟩
    constructor
    · rw [hkey, inBucket_keyOf, figure_named hledger d hname]
      exact hb.exact _ (mem_filterMap.mpr ⟨_, hrow, he⟩)
    · right
      intro start hr
      obtain ⟨later, hl⟩ := ne_none_iff_exists'.mp hr
      have hin : ⟨inBucket key start, later⟩ ∈ rows :=
        (hlists.mem _).mpr ⟨hl, hw, hpe⟩
      have hag : d.entry ⟨inBucket key start, later⟩ = some ⟨d.named key, later⟩ := by
        cases d <;> exact if_pos ⟨ho, hname⟩
      have hsa := eq_of_nodup_names hb.nodup hin hrow hag he rfl
      exact congrArg (fun row : UsageRollup => row.key.periodStart) hsa

variable {listRollups : Period → List UsageRollup}

theorem execute_eq_ok_iff {value : String} {summary : UsageSummary} :
    execute listRollups value = .ok summary ↔
      ∃ period, value = periodValue period ∧ summary = summarize period (listRollups period) := by
  rw [execute]
  cases hp : parsePeriod value with
  | none =>
    constructor
    · rintro ⟨⟩
    · rintro ⟨period, hv, -⟩
      rw [parsePeriod_eq_some_iff.mpr hv] at hp
      cases hp
  | some parsed =>
    obtain rfl := parsePeriod_eq_some_iff.mp hp
    constructor
    · rintro ⟨⟩
      exact ⟨parsed, rfl, rfl⟩
    · rintro ⟨period, hv, rfl⟩
      rw [parsePeriod_eq_some_iff.mpr hv] at hp
      cases hp
      rfl

/-- The request is answered, for every order the database may return the rows in, with a summary
of the records of one bucket. -/
def AnswersExactly (ledger : Ledger) (workspaceId : String) (period : Period) (now : Instant) :
    Prop :=
  ∀ listRollups : Period → List UsageRollup,
    Lists ledger workspaceId period (listRollups period) →
      ∃ summary, execute listRollups (periodValue period) = .ok summary ∧
        Exact (currentRecords ledger workspaceId period now) summary

theorem answersExactly_iff :
    AnswersExactly ledger workspaceId period now ↔
      ∀ rows, Lists ledger workspaceId period rows →
        Exact (currentRecords ledger workspaceId period now) (summarize period rows) := by
  constructor
  · intro h rows hlists
    obtain ⟨summary, hs, hexact⟩ := h (fun _ => rows) hlists
    rw [execute, parsePeriod_eq_some_iff.mpr rfl] at hs
    rwa [Except.ok.inj hs]
  · intro h listRollups hlists
    exact ⟨_, execute_eq_ok_iff.mpr ⟨period, rfl, rfl⟩, h _ hlists⟩

/-- After any history of charges the summary is of the current period alone, in whatever order
its rows are read, exactly when the rows of all other buckets say nothing that the current ones do
not. -/
theorem summary_is_exact_iff (calls : List AppendCall) (workspaceId : String) (period : Period)
    (now : Instant) :
    AnswersExactly (Ledger.appendAll calls) workspaceId period now ↔
      PastIsSilent (Ledger.appendAll calls) workspaceId period now := by
  have hledger := Ledger.appendAll_consistent calls
  rw [answersExactly_iff]
  constructor
  · exact pastIsSilent_of_exact hledger
  · intro hpast rows hlists
    exact exact_of_pastIsSilent hledger hpast hlists

def noon (month day : ℕ) : Instant := dayNumber ⟨2026, month, day⟩ * microsPerDay + 43200000000

def twoMonths : List AppendCall :=
  [⟨"w", noon 9 10, ⟨"chat", "openai", 900, 40, "op-1", false⟩⟩,
    ⟨"w", noon 10 2, ⟨"chat", "openai", 100, 5, "op-2", false⟩⟩]

/-- In October the summary of the month still tells of September. -/
theorem past_month_is_told :
    ¬ AnswersExactly (Ledger.appendAll twoMonths) "w" .month (noon 10 3) := by
  intro hexact
  have hpast := pastIsSilent_of_exact (Ledger.appendAll_consistent twoMonths)
    (answersExactly_iff.mp hexact)
  have hs : (Ledger.appendAll twoMonths).rollups
      ⟨"w", "chat", wildcard, .month, ⟨2026, 9, 1⟩⟩ = some ⟨900, 40⟩ := by
    decide +kernel
  have hf := (hpast _ _ hs rfl rfl (by decide +kernel)).1
  revert hf
  decide +kernel

end Summary

end Aizzak.UsageSummaries
