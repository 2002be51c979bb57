import Aizzak.EventRuns
import Aizzak.FirstOccurrences
import Aizzak.KeyedTables

/-!
The outbox and its relay. Producers append records inside their units of work; the rows become
visible when a unit commits and carry the time at which it began. One relay fetches unpublished
rows in the order of that time and of their ids, publishes them one after another, and marks the
ones that were published. Every call of the relay may fail with or without its effect, and a
command sent to Redis may be executed late or repeatedly.
-/
namespace Aizzak.OutboxRelay

open EventRuns FirstOccurrences KeyedTables List

structure Config where
  batchSize : ℕ
  pollIntervalMs : ℕ
  maxBackoffMs : ℕ

/-- A record as producers append it; a UUID is the number of its 128 bits, as Postgres compares
them. -/
structure OutboxRecord where
  eventId : ℕ
  aggregateType : String
  aggregateId : ℕ
  stream : String
  payload : String
deriving DecidableEq

def OutboxRecord.aggregate (record : OutboxRecord) : String × ℕ :=
  (record.aggregateType, record.aggregateId)

structure OutboxEntry where
  eventId : ℕ
  stream : String
  payload : String
deriving DecidableEq

structure Place where
  commit : ℕ
  append : ℕ
  index : ℕ
deriving DecidableEq

structure Row where
  record : OutboxRecord
  createdAt : ℤ
  publishedAt : Option ℤ
  attempts : ℕ
  place : Place
deriving DecidableEq

def Row.id (row : Row) : ℕ := row.record.eventId

def Row.entry (row : Row) : OutboxEntry :=
  ⟨row.record.eventId, row.record.stream, row.record.payload⟩

def Row.SortsBy (a b : Row) : Prop :=
  a.createdAt < b.createdAt ∨ a.createdAt = b.createdAt ∧ a.id ≤ b.id

instance : DecidableRel Row.SortsBy := fun a b =>
  inferInstanceAs (Decidable (a.createdAt < b.createdAt ∨ a.createdAt = b.createdAt ∧ a.id ≤ b.id))

def unpublished (rows : List Row) : List Row :=
  (rows.filter (·.publishedAt = none)).insertionSort Row.SortsBy

def markPublished (now : ℤ) (eventIds : List ℕ) (rows : List Row) : List Row :=
  rows.map fun row => if row.id ∈ eventIds then { row with publishedAt := some now } else row

def bumpAttempts (eventIds : List ℕ) (rows : List Row) : List Row :=
  rows.map fun row =>
    if row.id ∈ eventIds then { row with attempts := row.attempts + 1 } else row

/-- A producer's transaction, with the aggregates it has updated and so locked. -/
structure UnitOfWork where
  process : ℕ
  startedAt : ℤ
  updated : List (String × ℕ)
  appends : List (List OutboxRecord)

/-- The rows a unit of work inserts; `created_at` is `now()`, the time the transaction began. -/
def UnitOfWork.rows (unit : UnitOfWork) (commit : ℕ) : List Row :=
  unit.appends.zipIdx.flatMap fun (records, append) =>
    records.zipIdx.map fun (record, index) =>
      ⟨record, unit.startedAt, none, 0, ⟨commit, append, index⟩⟩

inductive Failure where
  | appError
  | other
  | cancelled
deriving DecidableEq

inductive Phase where
  | polling
  | sleeping (ms : ℕ)
  | stopped
  | publishing (cycle : ℕ) (succeeded : List OutboxEntry) (entry : OutboxEntry)
      (rest : List OutboxEntry)
  | bumping (succeeded : List OutboxEntry) (entry : OutboxEntry) (failure : Failure)
  | marking (succeeded : List OutboxEntry) (failure : Option Failure)

/-- One execution of `run_once`, as Redis sees it: the rows its fetch saw in their order, the
entries it took, those whose publication returned, the one published last or still, and what was
added to the streams. -/
structure Cycle where
  visible : List Row
  fetched : List OutboxEntry
  returned : List OutboxEntry
  current : Option OutboxEntry
  added : List OutboxEntry

structure State where
  clock : ℤ
  units : AList fun _ : ℕ => UnitOfWork
  minted : AList fun _ : ℕ => ℕ
  rows : List Row
  commits : ℕ
  phase : Phase
  backoffMs : ℕ
  cycles : AList fun _ : ℕ => Cycle
  log : List OutboxEntry

def State.init (cfg : Config) (clock : ℤ) : State :=
  ⟨clock, ∅, ∅, [], 0, .polling, cfg.pollIntervalMs, ∅, []⟩

inductive Event where
  | begin (unit process : ℕ) (now : ℤ)
  | update (unit : ℕ) (aggregate : String × ℕ)
  | append (unit : ℕ) (records : List OutboxRecord)
  | commit (unit : ℕ)
  | rollback (unit : ℕ)
  | fetch (cycle : ℕ)
  | fetchFails (failure : Failure)
  | xadd (cycle : ℕ) (entry : OutboxEntry)
  | publishReturns
  | publishFails (failure : Failure)
  | bumpReturns
  | bumpFails (applied : Bool) (failure : Failure)
  | markReturns (now : ℤ)
  | markFails (applied : Option ℤ) (failure : Failure)
  | wake
  | killed (applied : Option ℤ)
  | restart

def unlocked (s : State) (unit : ℕ) (aggregate : String × ℕ) : Bool :=
  !anyRow s.units fun other open_ => other ≠ unit && open_.updated.contains aggregate

def mintable (last : Option ℕ) (records : List OutboxRecord) : Bool :=
  decide ((last.toList ++ records.map (·.eventId)).Pairwise (· < ·))

def afterCycle (cfg : Config) (s : State) (succeeded : List OutboxEntry) :
    Option Failure → State
  | none =>
    { s with
      backoffMs := cfg.pollIntervalMs
      phase := if succeeded.length = cfg.batchSize then .polling
        else .sleeping cfg.pollIntervalMs }
  | some .appError =>
    { s with
      backoffMs := min (s.backoffMs * 2) cfg.maxBackoffMs
      phase := .sleeping s.backoffMs }
  | some .other | some .cancelled => { s with phase := .stopped }

def mark (s : State) (succeeded : List OutboxEntry) : Option ℤ → State
  | none => s
  | some now => { s with rows := markPublished now (succeeded.map (·.eventId)) s.rows }

def publish (s : State) (n : ℕ) (cycle : Cycle) : List OutboxEntry → State
  | [] => { s with
      cycles := s.cycles.insert n cycle
      phase := .marking cycle.returned none }
  | entry :: rest => { s with
      cycles := s.cycles.insert n { cycle with current := some entry }
      phase := .publishing n cycle.returned entry rest }

def step (cfg : Config) (s : State) : Event → Option State
  | .begin u process now =>
    if u ∈ s.units ∨ now < s.clock then none
    else some { s with clock := now, units := s.units.insert u ⟨process, now, [], []⟩ }
  | .update u aggregate =>
    match s.units.lookup u with
    | some unit =>
      if unlocked s u aggregate then
        some { s with
          units := s.units.insert u { unit with updated := aggregate :: unit.updated } }
      else none
    | none => none
  | .append u records =>
    match s.units.lookup u with
    | some unit =>
      if records = [] then some s
      else if (∀ record ∈ records, record.aggregate ∈ unit.updated) ∧
          mintable (s.minted.lookup unit.process) records then
        some { s with
          units := s.units.insert u { unit with appends := unit.appends ++ [records] }
          minted := records.foldl (fun minted record => minted.insert unit.process record.eventId)
            s.minted }
      else none
    | none => none
  | .commit u =>
    match s.units.lookup u with
    | some unit =>
      if ((s.rows ++ unit.rows s.commits).map (·.id)).Nodup then
        some { s with
          units := s.units.erase u
          rows := s.rows ++ unit.rows s.commits
          commits := s.commits + 1 }
      else none
    | none => none
  | .rollback u => if u ∈ s.units then some { s with units := s.units.erase u } else none
  | .fetch n =>
    match s.phase with
    | .polling =>
      if n ∈ s.cycles then none
      else
        let entries := ((unpublished s.rows).take cfg.batchSize).map (·.entry)
        let cycle : Cycle := ⟨unpublished s.rows, entries, [], none, []⟩
        if entries = [] then
          some (afterCycle cfg { s with cycles := s.cycles.insert n cycle } [] none)
        else some (publish s n cycle entries)
    | _ => none
  | .fetchFails failure =>
    match s.phase with
    | .polling => some (afterCycle cfg s [] (some failure))
    | _ => none
  | .xadd n entry =>
    match s.cycles.lookup n with
    | some cycle =>
      if entry ∈ cycle.returned ∨ cycle.current = some entry then
        some { s with
          cycles := s.cycles.insert n { cycle with added := cycle.added ++ [entry] }
          log := s.log ++ [entry] }
      else none
    | none => none
  | .publishReturns =>
    match s.phase with
    | .publishing n succeeded entry rest =>
      match s.cycles.lookup n with
      | some cycle =>
        if entry ∈ cycle.added then
          some (publish s n
            { cycle with returned := succeeded ++ [entry], current := none } rest)
        else none
      | none => none
    | _ => none
  | .publishFails failure =>
    match s.phase with
    | .publishing _ succeeded entry _ =>
      match failure with
      | .cancelled => some { s with phase := .marking succeeded (some .cancelled) }
      | failure => some { s with phase := .bumping succeeded entry failure }
    | _ => none
  | .bumpReturns =>
    match s.phase with
    | .bumping succeeded entry failure =>
      some { s with
        rows := bumpAttempts [entry.eventId] s.rows
        phase := .marking succeeded (some failure) }
    | _ => none
  | .bumpFails applied failure =>
    match s.phase with
    | .bumping succeeded entry _ =>
      some { s with
        rows := if applied then bumpAttempts [entry.eventId] s.rows else s.rows
        phase := .marking succeeded (some failure) }
    | _ => none
  | .markReturns now =>
    match s.phase with
    | .marking succeeded failure =>
      some (afterCycle cfg (mark s succeeded (some now)) succeeded failure)
    | _ => none
  | .markFails applied failure =>
    match s.phase with
    | .marking succeeded _ =>
      if succeeded = [] then none
      else some (afterCycle cfg (mark s succeeded applied) succeeded (some failure))
    | _ => none
  | .wake =>
    match s.phase with
    | .sleeping _ => some { s with phase := .polling }
    | _ => none
  | .killed applied =>
    match s.phase with
    | .marking succeeded _ => some { mark s succeeded applied with phase := .stopped }
    | _ => some { s with phase := .stopped }
  | .restart =>
    match s.phase with
    | .stopped => some { s with phase := .polling, backoffMs := cfg.pollIntervalMs }
    | _ => none

structure SameOutbox (s t : State) : Prop where
  units : t.units = s.units
  rows : t.rows = s.rows
  commits : t.commits = s.commits
  cycles : t.cycles = s.cycles
  log : t.log = s.log

def Phase.Resting : Phase → Prop
  | .polling | .sleeping _ | .stopped => True
  | _ => False

def cycleOf (cfg : Config) (rows : List Row) : Cycle :=
  ⟨unpublished rows, ((unpublished rows).take cfg.batchSize).map (·.entry), [], none, []⟩

inductive Moved (cfg : Config) (s : State) : Event → State → Prop
  | produced {e : Event} {t : State} (hsame : SameOutbox { s with units := t.units } t)
      (hphase : t.phase = s.phase)
      (happends : ∀ u unit, t.units.lookup u = some unit → ∀ records ∈ unit.appends,
        (∃ old, s.units.lookup u = some old ∧ records ∈ old.appends) ∨
          (records.map (·.eventId)).Pairwise (· < ·)) :
      Moved cfg s e t
  | committed (u : ℕ) (unit : UnitOfWork) (hunit : s.units.lookup u = some unit)
      (hids : ((s.rows ++ unit.rows s.commits).map (·.id)).Nodup) :
      Moved cfg s (.commit u)
        { s with
          units := s.units.erase u
          rows := s.rows ++ unit.rows s.commits
          commits := s.commits + 1 }
  | rested {e : Event} {t : State} (hsame : SameOutbox s t) (hrest : t.phase.Resting) :
      Moved cfg s e t
  | idled (n : ℕ) {t : State} (hn : n ∉ s.cycles)
      (hsame : SameOutbox { s with cycles := s.cycles.insert n (cycleOf cfg s.rows) } t)
      (hrest : t.phase.Resting) : Moved cfg s (.fetch n) t
  | fetched (n : ℕ) (hn : n ∉ s.cycles) (entry : OutboxEntry) (rest : List OutboxEntry)
      (hentries : (cycleOf cfg s.rows).fetched = entry :: rest) :
      Moved cfg s (.fetch n)
        { s with
          cycles := s.cycles.insert n { cycleOf cfg s.rows with current := some entry }
          phase := .publishing n [] entry rest }
  | added (n : ℕ) (cycle : Cycle) (entry : OutboxEntry) (hcycle : s.cycles.lookup n = some cycle)
      (hissued : entry ∈ cycle.returned ∨ cycle.current = some entry) :
      Moved cfg s (.xadd n entry)
        { s with
          cycles := s.cycles.insert n { cycle with added := cycle.added ++ [entry] }
          log := s.log ++ [entry] }
  | returned (n : ℕ) (succeeded rest : List OutboxEntry) (entry : OutboxEntry) (cycle : Cycle)
      (hphase : s.phase = .publishing n succeeded entry rest)
      (hcycle : s.cycles.lookup n = some cycle) (hadded : entry ∈ cycle.added) :
      Moved cfg s .publishReturns (publish s n
        { cycle with returned := succeeded ++ [entry], current := none } rest)
  | failed (n : ℕ) (succeeded rest : List OutboxEntry) (entry : OutboxEntry) (failure : Failure)
      {t : State} (hphase : s.phase = .publishing n succeeded entry rest) (hsame : SameOutbox s t)
      (hnext : t.phase = .marking succeeded (some failure) ∨
        t.phase = .bumping succeeded entry failure) : Moved cfg s (.publishFails failure) t
  | bumped {e : Event} {t : State} (succeeded : List OutboxEntry) (entry : OutboxEntry)
      (failure after : Failure) (hphase : s.phase = .bumping succeeded entry failure)
      (rows : List Row) (hrows : rows = s.rows ∨ rows = bumpAttempts [entry.eventId] s.rows)
      (hsame : SameOutbox { s with rows := rows } t)
      (hnext : t.phase = .marking succeeded (some after)) : Moved cfg s e t
  | marked {e : Event} {t : State} (succeeded : List OutboxEntry) (failure : Option Failure)
      (hphase : s.phase = .marking succeeded failure) (applied : Option ℤ)
      (hsame : SameOutbox (mark s succeeded applied) t) (hrest : t.phase.Resting) :
      Moved cfg s e t

section Machine

variable {cfg : Config} {s t : State} {e : Event}

theorem afterCycle_same (cfg : Config) (s : State) (succeeded : List OutboxEntry)
    (failure : Option Failure) :
    SameOutbox s (afterCycle cfg s succeeded failure) ∧
      (afterCycle cfg s succeeded failure).phase.Resting := by
  cases failure with
  | none =>
    refine ⟨⟨rfl, rfl, rfl, rfl, rfl⟩, ?_⟩
    simp only [afterCycle]
    split_ifs <;> trivial
  | some failure => cases failure <;> exact ⟨⟨rfl, rfl, rfl, rfl, rfl⟩, trivial⟩

theorem step_moved (h : step cfg s e = some t) : Moved cfg s e t := by
  have hk : ∀ u unit, s.units.lookup u = some unit → ∀ records ∈ unit.appends,
      (∃ old, s.units.lookup u = some old ∧ records ∈ old.appends) ∨
        (records.map (·.eventId)).Pairwise (· < ·) :=
    fun u unit hu records hr => .inl ⟨unit, hu, hr⟩
  cases e with
  | begin u process now =>
    simp only [step] at h
    split_ifs at h
    cases h
    exact .produced ⟨rfl, rfl, rfl, rfl, rfl⟩ rfl (forall_insert (by simp) hk)
  | update u aggregate =>
    simp only [step] at h
    split at h
    · rename_i unit hu
      split_ifs at h
      cases h
      exact .produced ⟨rfl, rfl, rfl, rfl, rfl⟩ rfl
        (forall_insert (hk u unit hu) hk)
    · cases h
  | append u records =>
    simp only [step] at h
    split at h
    · rename_i unit hu
      split_ifs at h with hnil hm
      · cases h
        exact .produced ⟨rfl, rfl, rfl, rfl, rfl⟩ rfl hk
      · cases h
        refine .produced ⟨rfl, rfl, rfl, rfl, rfl⟩ rfl
          (forall_insert (fun new hnew => ?_) hk)
        rcases mem_append.mp hnew with hold | hl
        · exact .inl ⟨unit, hu, hold⟩
        · rw [mem_singleton] at hl
          subst hl
          exact .inr (pairwise_append.mp (of_decide_eq_true hm.2)).2.1
    · cases h
  | commit u =>
    simp only [step] at h
    split at h
    · rename_i unit hu
      split_ifs at h with hids
      exact Option.some.inj h ▸ .committed u unit hu hids
    · cases h
  | rollback u =>
    simp only [step] at h
    split_ifs at h
    cases h
    exact .produced ⟨rfl, rfl, rfl, rfl, rfl⟩ rfl
      fun i unit hi => hk i unit (lookup_erase_iff.mp hi).2
  | fetch n =>
    simp only [step] at h
    split at h
    · split_ifs at h with hn hno
      · cases h
        obtain ⟨hs, hre⟩ := afterCycle_same cfg
          { s with cycles := s.cycles.insert n (cycleOf cfg s.rows) } [] none
        exact .idled n hn hs hre
      · cases h
        obtain ⟨entry, rest, he⟩ := exists_cons_of_ne_nil hno
        change (cycleOf cfg s.rows).fetched = entry :: rest at he
        change Moved cfg s _ (publish s n (cycleOf cfg s.rows) (cycleOf cfg s.rows).fetched)
        rw [he]
        exact .fetched n hn entry rest he
    · cases h
  | fetchFails failure =>
    simp only [step] at h
    split at h
    · cases h
      exact .rested (afterCycle_same cfg s [] _).1 (afterCycle_same cfg s [] _).2
    · cases h
  | xadd n entry =>
    simp only [step] at h
    split at h
    · rename_i cycle hc
      split_ifs at h with his
      exact Option.some.inj h ▸ .added n cycle entry hc his
    · cases h
  | publishReturns =>
    simp only [step] at h
    split at h
    · rename_i n succeeded entry rest hp
      split at h
      · rename_i cycle hc
        split_ifs at h with ha
        exact Option.some.inj h ▸ .returned n succeeded rest entry cycle hp hc ha
      · cases h
    · cases h
  | publishFails failure =>
    simp only [step] at h
    split at h
    · rename_i n succeeded entry rest hp
      cases failure with
      | cancelled =>
        cases h
        exact .failed n succeeded rest entry _ hp ⟨rfl, rfl, rfl, rfl, rfl⟩ (.inl rfl)
      | appError | other =>
        cases h
        exact .failed n succeeded rest entry _ hp ⟨rfl, rfl, rfl, rfl, rfl⟩ (.inr rfl)
    · cases h
  | bumpReturns =>
    simp only [step] at h
    split at h
    · rename_i succeeded entry failure hp
      cases h
      exact .bumped succeeded entry failure failure hp _ (.inr rfl)
        ⟨rfl, rfl, rfl, rfl, rfl⟩ rfl
    · cases h
  | bumpFails applied failure =>
    simp only [step] at h
    split at h
    · rename_i succeeded entry before hp
      cases h
      refine .bumped succeeded entry before failure hp _ ?_ ⟨rfl, rfl, rfl, rfl, rfl⟩ rfl
      cases applied
      · exact .inl rfl
      · exact .inr rfl
    · cases h
  | markReturns now =>
    simp only [step] at h
    split at h
    · rename_i succeeded failure hp
      cases h
      obtain ⟨hs, hre⟩ := afterCycle_same cfg (mark s succeeded (some now)) succeeded failure
      exact .marked succeeded failure hp _ hs hre
    · cases h
  | markFails applied failure =>
    simp only [step] at h
    split at h
    · rename_i succeeded before hp
      split_ifs at h
      cases h
      obtain ⟨hs, hre⟩ := afterCycle_same cfg (mark s succeeded applied) succeeded
        (some failure)
      exact .marked succeeded before hp _ hs hre
    · cases h
  | wake =>
    simp only [step] at h
    split at h
    · cases h
      exact .rested ⟨rfl, rfl, rfl, rfl, rfl⟩ trivial
    · cases h
  | killed applied =>
    simp only [step] at h
    split at h
    · rename_i succeeded failure hp
      cases h
      exact .marked succeeded failure hp applied ⟨rfl, rfl, rfl, rfl, rfl⟩ trivial
    · cases h
      exact .rested ⟨rfl, rfl, rfl, rfl, rfl⟩ trivial
  | restart =>
    simp only [step] at h
    split at h
    · cases h
      exact .rested ⟨rfl, rfl, rfl, rfl, rfl⟩ trivial
    · cases h

def Row.SameInsert (a b : Row) : Prop :=
  a.record = b.record ∧ a.createdAt = b.createdAt ∧ a.place = b.place

variable {a b : Row}

theorem Row.SameInsert.id_eq (h : a.SameInsert b) : a.id = b.id :=
  congrArg OutboxRecord.eventId h.1

theorem Row.SameInsert.entry_eq (h : a.SameInsert b) : a.entry = b.entry := by
  rw [Row.entry, Row.entry, h.1]

structure CycleSound (cfg : Config) (rows : List Row) (log : List OutboxEntry) (c : Cycle) :
    Prop where
  sorted : c.visible.Pairwise Row.SortsBy
  distinct : (c.visible.map (·.id)).Nodup
  known : ∀ row ∈ c.visible, ∃ r ∈ rows, r.SameInsert row
  fetched : c.fetched = (c.visible.take cfg.batchSize).map (·.entry)
  taken : c.returned ++ c.current.toList <+: c.fetched
  added : c.added.eraseDups = c.returned ∨
    ∃ entry, c.current = some entry ∧ c.added.eraseDups = c.returned ++ [entry]
  logged : ∀ entry ∈ c.added, entry ∈ log

def PhaseSound (s : State) : Phase → Prop
  | .publishing n succeeded entry rest => ∃ c, s.cycles.lookup n = some c ∧
      c.returned = succeeded ∧ c.current = some entry ∧ c.fetched = succeeded ++ entry :: rest
  | .bumping succeeded _ _ | .marking succeeded _ => ∀ entry ∈ succeeded, entry ∈ s.log
  | _ => True

structure Sound (cfg : Config) (s : State) : Prop where
  ids : (s.rows.map (·.id)).Nodup
  published : ∀ row ∈ s.rows, row.publishedAt ≠ none → row.entry ∈ s.log
  logged : ∀ entry ∈ s.log, ∃ row ∈ s.rows, row.entry = entry
  cycles : ∀ n c, s.cycles.lookup n = some c → CycleSound cfg s.rows s.log c
  phase : PhaseSound s s.phase

variable {rows : List Row} {c : Cycle}

theorem CycleSound.mono {more : List Row} {log longer : List OutboxEntry}
    (h : CycleSound cfg rows log c) (hro : ∀ row ∈ rows, ∃ r ∈ more, r.SameInsert row)
    (hlog : ∀ entry ∈ log, entry ∈ longer) :
    CycleSound cfg more longer c := by
  refine ⟨h.sorted, h.distinct, fun row hrow => ?_, h.fetched, h.taken, h.added,
    fun entry he => hlog entry (h.logged entry he)⟩
  obtain ⟨r, hr, hsa⟩ := h.known row hrow
  obtain ⟨r', hr', hs⟩ := hro r hr
  exact ⟨r', hr', hs.1.trans hsa.1, hs.2.1.trans hsa.2.1, hs.2.2.trans hsa.2.2⟩

theorem PhaseSound.of_resting {p : Phase} (h : p.Resting) : PhaseSound s p := by
  cases p <;> trivial

instance : Std.Total Row.SortsBy where
  total a b := by
    rw [Row.SortsBy, Row.SortsBy]
    omega

instance : IsTrans Row Row.SortsBy where
  trans a b c hab hbc := by
    rw [Row.SortsBy] at *
    omega

theorem mem_unpublished {row : Row} :
    row ∈ unpublished rows ↔ row ∈ rows ∧ row.publishedAt = none := by
  rw [unpublished, mem_insertionSort, mem_filter, decide_eq_true_eq]

theorem cycleOf_sound (hids : (rows.map (·.id)).Nodup) (log : List OutboxEntry) :
    CycleSound cfg rows log (cycleOf cfg rows) := by
  refine ⟨pairwise_insertionSort _ _, ?_, fun row hrow => ?_, rfl, nil_prefix, .inl rfl,
    by simp [cycleOf]⟩
  · have hp := (perm_insertionSort Row.SortsBy (rows.filter (·.publishedAt = none))).map
      Row.id
    exact hp.nodup_iff.mpr (hids.sublist (filter_sublist.map _))
  · exact ⟨row, (mem_unpublished.mp hrow).1, rfl, rfl, rfl⟩

namespace CycleSound

variable {rows : List Row} {log : List OutboxEntry} {c : Cycle}

section

variable (h : CycleSound cfg rows log c)
include h

theorem nodup_entries : (c.visible.map (·.entry)).Nodup := by
  have hids : ((c.visible.map (·.entry)).map (·.eventId)).Nodup := by
    rw [map_map]
    exact h.distinct
  exact hids.of_map

theorem fetched_prefix : c.fetched <+: c.visible.map (·.entry) := by
  rw [h.fetched]
  exact ( take_prefix _ _).map _

theorem nodup_fetched : c.fetched.Nodup :=
  h.nodup_entries.sublist h.fetched_prefix.sublist

theorem added_prefix : c.added.eraseDups <+: c.fetched := by
  rcases h.added with heq | ⟨entry, hc, heq⟩
  · rw [heq]
    exact (prefix_append _ _).trans h.taken
  · have ht := h.taken
    rw [hc] at ht
    rw [heq]
    exact ht

end

variable {entry : OutboxEntry}

theorem mem_added_of_returned (h : CycleSound cfg rows log c) (he : entry ∈ c.returned) :
    entry ∈ c.added := by
  rw [← mem_eraseDups]
  rcases h.added with heq | ⟨last, -, heq⟩
  · rw [heq]
    exact he
  · rw [heq]
    exact mem_append_left _ he

/-- Redis executes a command of the cycle. -/
theorem add (h : CycleSound cfg rows log c)
    (hi : entry ∈ c.returned ∨ c.current = some entry) :
    CycleSound cfg rows (log ++ [entry]) { c with added := c.added ++ [entry] } := by
  refine ⟨h.sorted, h.distinct, h.known, h.fetched, h.taken, ?_, fun x hx => ?_⟩
  · by_cases hmem : entry ∈ c.added
    · rw [eraseDups_concat_of_mem hmem]
      exact h.added
    · have hc := hi.resolve_left fun hr =>
        hmem (h.mem_added_of_returned hr)
      rw [eraseDups_concat_of_notMem hmem]
      rcases h.added with heq | ⟨last, hl, heq⟩
      · exact .inr ⟨entry, hc, by rw [heq]⟩
      · rw [hc, Option.some.injEq] at hl
        subst hl
        refine absurd ?_ hmem
        rw [← mem_eraseDups, heq]
        simp
  · rcases mem_append.mp hx with hold | hnew
    · exact mem_append_left _ (h.logged x hold)
    · exact mem_append_right _ hnew

theorem advance (h : CycleSound cfg rows log c) {rest : List OutboxEntry}
    (hc : c.current = some entry) (hf : c.fetched = c.returned ++ entry :: rest)
    (ha : entry ∈ c.added) :
    CycleSound cfg rows log
      { c with returned := c.returned ++ [entry], current := rest.head? } := by
  have hnot : entry ∉ c.returned := by
    have hn := h.nodup_fetched
    rw [hf, nodup_middle, nodup_cons, mem_append, not_or] at hn
    exact hn.1.1
  refine ⟨h.sorted, h.distinct, h.known, h.fetched, ?_, .inl ?_, h.logged⟩
  · rw [hf]
    cases rest with
    | nil => simp
    | cons next rest => simp
  · rcases h.added with heq | ⟨last, hl, heq⟩
    · rw [← mem_eraseDups, heq] at ha
      exact absurd ha hnot
    · rw [hc, Option.some.injEq] at hl
      rw [heq, hl]

end CycleSound

theorem PhaseSound.same {p : Phase} (h : PhaseSound s p) (hc : t.cycles = s.cycles)
    (hlog : t.log = s.log) : PhaseSound t p := by
  cases p with
  | publishing n succeeded entry rest =>
    rw [PhaseSound, hc]
    exact h
  | bumping succeeded entry failure | marking succeeded failure =>
    rw [PhaseSound, hlog]
    exact h
  | polling | sleeping ms | stopped => trivial

theorem Sound.of_same (h : Sound cfg s) (hs : SameOutbox s t) (hp : PhaseSound s t.phase) :
    Sound cfg t := by
  refine ⟨?_, ?_, ?_, ?_, hp.same hs.cycles hs.log⟩
  · rw [hs.rows]
    exact h.ids
  · rw [hs.rows, hs.log]
    exact h.published
  · rw [hs.rows, hs.log]
    exact h.logged
  · rw [hs.rows, hs.log, hs.cycles]
    exact h.cycles

/-- Counting attempts and marking rows published leave the entries sound. -/
theorem Sound.withRows (h : Sound cfg s) {change : Row → Row}
    (hch : ∀ row, (change row).SameInsert row)
    (hp : ∀ row ∈ s.rows, (change row).publishedAt ≠ none →
      row.publishedAt ≠ none ∨ row.entry ∈ s.log) :
    Sound cfg { s with rows := s.rows.map change } := by
  refine ⟨?_, fun row hrow hset => ?_, fun entry he => ?_, fun n c hc => ?_,
    h.phase.same rfl rfl⟩
  · have hids : (s.rows.map change).map (·.id) = s.rows.map (·.id) := by
      rw [map_map]
      exact map_congr_left fun row _ => (hch row).id_eq
    rw [hids]
    exact h.ids
  · obtain ⟨old, hold, rfl⟩ := mem_map.mp hrow
    rw [(hch old).entry_eq]
    rcases hp old hold hset with hb | hs
    · exact h.published old hold hb
    · exact hs
  · obtain ⟨row, hrow, rfl⟩ := h.logged entry he
    exact ⟨change row, mem_map_of_mem hrow, (hch row).entry_eq⟩
  · refine (h.cycles n c hc).mono (fun row hrow => ?_) fun _ he => he
    exact ⟨change row, mem_map_of_mem hrow, hch row⟩

theorem Sound.entry_eq (h : Sound cfg s) (ha : a ∈ s.rows) (hb : b ∈ s.rows) (hid : a.id = b.id) :
    a.entry = b.entry := by
  rw [inj_on_of_nodup_map h.ids ha hb hid]

theorem Sound.bumped (h : Sound cfg s) (eventIds : List ℕ) :
    Sound cfg { s with rows := bumpAttempts eventIds s.rows } := by
  refine h.withRows (fun row => ?_) fun row _ hset => .inl ?_
  · split_ifs <;> exact ⟨rfl, rfl, rfl⟩
  · split_ifs at hset <;> exact hset

variable {succeeded : List OutboxEntry}

theorem Sound.marked (h : Sound cfg s) (hs : ∀ entry ∈ succeeded, entry ∈ s.log)
    (applied : Option ℤ) :
    Sound cfg (mark s succeeded applied) := by
  cases applied with
  | none => exact h
  | some now =>
    refine h.withRows (fun row => ?_) fun row hrow hset => ?_
    · split_ifs <;> exact ⟨rfl, rfl, rfl⟩
    · by_cases hid : row.id ∈ succeeded.map (·.eventId)
      · obtain ⟨entry, he, hsa⟩ := mem_map.mp hid
        obtain ⟨other, ho, rfl⟩ := h.logged entry (hs entry he)
        rw [h.entry_eq hrow ho hsa.symm]
        exact .inr (hs _ he)
      · rw [if_neg hid] at hset
        exact .inl hset

variable {n : ℕ} {entry : OutboxEntry}

/-- What was returned to the relay is in the streams. -/
theorem Sound.sent (h : Sound cfg s) {rest : List OutboxEntry}
    (hp : s.phase = .publishing n succeeded entry rest) :
    ∀ x ∈ succeeded, x ∈ s.log := by
  obtain ⟨c, hc, rfl, -, -⟩ : PhaseSound s (.publishing n succeeded entry rest) :=
    hp ▸ h.phase
  have hcy := h.cycles n c hc
  exact fun x hx => hcy.logged x (hcy.mem_added_of_returned hx)

theorem Sound.committed (h : Sound cfg s) (units : AList fun _ : ℕ => UnitOfWork)
    {unit : UnitOfWork} (hids : ((s.rows ++ unit.rows s.commits).map (·.id)).Nodup) :
    Sound cfg { s with
      units := units
      rows := s.rows ++ unit.rows s.commits
      commits := s.commits + 1 } := by
  refine ⟨hids, fun row hrow hset => ?_, fun entry he => ?_, fun n c hc => ?_,
    h.phase.same rfl rfl⟩
  · rcases mem_append.mp hrow with hold | hnew
    · exact h.published row hold hset
    · rw [UnitOfWork.rows, mem_flatMap] at hnew
      obtain ⟨⟨records, append⟩, -, hnew⟩ := hnew
      obtain ⟨⟨record, index⟩, -, rfl⟩ := mem_map.mp hnew
      exact absurd rfl hset
  · obtain ⟨row, hrow, heq⟩ := h.logged entry he
    exact ⟨row, mem_append_left _ hrow, heq⟩
  · refine (h.cycles n c hc).mono (fun row hrow => ?_) fun _ he => he
    exact ⟨row, mem_append_left _ hrow, rfl, rfl, rfl⟩

/-- Adding an entry that a cycle has in hand keeps the streams sound. -/
theorem Sound.added (h : Sound cfg s) (hc : s.cycles.lookup n = some c)
    (hi : entry ∈ c.returned ∨ c.current = some entry) :
    Sound cfg { s with
      cycles := s.cycles.insert n { c with added := c.added ++ [entry] }
      log := s.log ++ [entry] } := by
  have hcy := h.cycles n c hc
  have hf : entry ∈ c.fetched := by
    refine hcy.taken.subset ?_
    rcases hi with hre | hcu
    · exact mem_append_left _ hre
    · simp [hcu]
  refine ⟨h.ids, fun row hrow hset => mem_append_left _ (h.published row hrow hset),
    fun x hx => ?_, forall_insert (hcy.add hi) fun m d hd => ?_, ?_⟩
  · rcases mem_append.mp hx with hold | hnew
    · exact h.logged x hold
    · rw [mem_singleton] at hnew
      subst hnew
      obtain ⟨row, hrow, rfl⟩ := mem_map.mp (hcy.fetched_prefix.subset hf)
      obtain ⟨r, hr, hs⟩ := hcy.known row hrow
      exact ⟨r, hr, hs.entry_eq⟩
  · exact (h.cycles m d hd).mono (fun row hrow => ⟨row, hrow, rfl, rfl, rfl⟩)
      fun _ hmem => mem_append_left _ hmem
  · have hph := h.phase
    cases hp : s.phase with
    | publishing m succeeded current rest =>
      rw [hp] at hph
      obtain ⟨d, hd, hdo, hnow, hl⟩ := hph
      rcases same_or_ne hc hd with ⟨rfl, rfl⟩ | hmn
      · exact ⟨_, AList.lookup_insert _, hdo, hnow, hl⟩
      · exact ⟨d, by simp only [AList.lookup_insert_ne hmn, hd], hdo, hnow, hl⟩
    | bumping succeeded current failure | marking succeeded failure =>
      rw [hp] at hph
      exact fun x hx => mem_append_left _ (hph x hx)
    | polling | sleeping ms | stopped => trivial

theorem Sound.returned (h : Sound cfg s) {rest : List OutboxEntry}
    (hp : s.phase = .publishing n succeeded entry rest) (hc : s.cycles.lookup n = some c)
    (ha : entry ∈ c.added) :
    Sound cfg (publish s n { c with returned := succeeded ++ [entry], current := none } rest) := by
  obtain ⟨d, hd, rfl, hcu, hf⟩ : PhaseSound s (.publishing n succeeded entry rest) :=
    hp ▸ h.phase
  obtain rfl := Option.mem_unique hc hd
  have hcy := (h.cycles n c hc).advance hcu hf ha
  cases rest with
  | nil =>
    refine ⟨h.ids, h.published, h.logged, forall_insert hcy h.cycles, fun x hx => ?_⟩
    exact hcy.logged x (hcy.mem_added_of_returned hx)
  | cons next rest =>
    refine ⟨h.ids, h.published, h.logged, forall_insert hcy h.cycles, ?_⟩
    exact ⟨_, AList.lookup_insert _, rfl, rfl, by simp [hf]⟩

theorem Sound.insertCycle (h : Sound cfg s) (hn : n ∉ s.cycles)
    (hc : CycleSound cfg s.rows s.log c) : Sound cfg { s with cycles := s.cycles.insert n c } := by
  refine ⟨h.ids, h.published, h.logged, forall_insert hc h.cycles, ?_⟩
  have hph := h.phase
  cases hp : s.phase with
  | publishing m succeeded entry rest =>
    rw [hp] at hph
    obtain ⟨d, hd, hk⟩ := hph
    have hmn : m ≠ n := by
      rintro rfl
      exact hn (mem_of_lookup hd)
    exact ⟨d, by simp only [AList.lookup_insert_ne hmn, hd], hk⟩
  | bumping succeeded entry failure | marking succeeded failure =>
    rw [hp] at hph
    exact hph
  | polling | sleeping ms | stopped => trivial

/-- The tables, the cycles and the streams stay in agreement. -/
theorem step_sound (s : State) (e : Event) (t : State) (h : Sound cfg s)
    (ht : step cfg s e = some t) : Sound cfg t := by
  cases step_moved ht with
  | produced hsa hp =>
    have hu : Sound cfg { s with units := t.units } :=
      ⟨h.ids, h.published, h.logged, h.cycles, h.phase.same rfl rfl⟩
    exact hu.of_same hsa (hp ▸ hu.phase)
  | committed u unit hun hids => exact h.committed _ hids
  | rested hsa hr => exact h.of_same hsa (.of_resting hr)
  | idled n hn hsa hr =>
    exact (h.insertCycle hn (cycleOf_sound h.ids s.log)).of_same hsa (.of_resting hr)
  | fetched n hn entry rest he =>
    have hcy : CycleSound cfg s.rows s.log
        { cycleOf cfg s.rows with current := some entry } := by
      have hnew : CycleSound cfg s.rows s.log (cycleOf cfg s.rows) := cycleOf_sound h.ids s.log
      refine ⟨hnew.sorted, hnew.distinct, hnew.known, hnew.fetched, ?_, .inl rfl, hnew.logged⟩
      rw [he]
      exact ⟨rest, rfl⟩
    exact ⟨h.ids, h.published, h.logged, forall_insert hcy h.cycles,
      _, AList.lookup_insert _, rfl, rfl, he⟩
  | added n c entry hc hi => exact h.added hc hi
  | returned n succeeded rest entry c hp hc ha => exact h.returned hp hc ha
  | failed n succeeded rest entry failure hp hsa hne =>
    refine h.of_same hsa ?_
    rcases hne with hne | hne
    · rw [hne]
      exact h.sent hp
    · rw [hne]
      exact h.sent hp
  | bumped succeeded entry failure after hp rows hro hsa hne =>
    have hs : PhaseSound s (.bumping succeeded entry failure) := hp ▸ h.phase
    rcases hro with rfl | rfl
    · refine h.of_same hsa ?_
      rw [hne]
      exact hs
    · refine (h.bumped [entry.eventId]).of_same hsa ?_
      rw [hne]
      exact hs
  | marked succeeded failure hp applied hsa hr =>
    have hs : PhaseSound s (.marking succeeded failure) := hp ▸ h.phase
    exact (h.marked hs applied).of_same hsa (.of_resting hr)

theorem Sound.init (cfg : Config) (clock : ℤ) : Sound cfg (State.init cfg clock) := by
  refine ⟨nodup_nil, ?_, ?_, ?_, trivial⟩
  all_goals simp [State.init]

theorem run_sound {clock : ℤ} {es : List Event}
    (hrun : run (step cfg) (State.init cfg clock) es = some s) : Sound cfg s :=
  run_invariant_of_step step_sound hrun (Sound.init cfg clock)

/-- Of two rows a cycle saw, the earlier one is taken first. -/
theorem CycleSound.ahead {log : List OutboxEntry} (h : CycleSound cfg rows log c)
    (ha : a ∈ c.visible) (hb : b ∈ c.visible) (hso : a.SortsBy b) (hne : a.id ≠ b.id) :
    ∃ first rest, c.visible.map (·.entry) = first ++ b.entry :: rest ∧ b.entry ∉ first ∧
      a.entry ∈ first := by
  obtain ⟨first, rest, hsp⟩ := append_of_mem hb
  have hs := h.sorted
  have hn := h.nodup_entries
  rw [hsp] at ha hs
  rw [hsp, map_append, map_cons] at hn
  refine ⟨first.map (·.entry), rest.map (·.entry), by rw [hsp, map_append, map_cons],
    fun hmem => ?_, ?_⟩
  · rw [nodup_middle, nodup_cons, mem_append, not_or] at hn
    exact hn.1.1 hmem
  · rcases mem_append.mp ha with hf | hr
    · exact mem_map_of_mem hf
    · rcases mem_cons.mp hr with rfl | hl
      · exact absurd rfl hne
      · have hba := rel_of_pairwise_cons (pairwise_append.mp hs).2.1 hl
        rw [Row.SortsBy] at hso hba
        omega

def Keeps (n : ℕ) (visible : List Row) (fetched : List OutboxEntry) (s : State) : Prop :=
  ∃ c, s.cycles.lookup n = some c ∧ c.visible = visible ∧ c.fetched = fetched

theorem Keeps.insert {m : ℕ} {visible : List Row} {fetched : List OutboxEntry}
    (h : Keeps n visible fetched s) {d : Cycle}
    (hd : ∀ c, s.cycles.lookup m = some c → d.visible = c.visible ∧ d.fetched = c.fetched)
    {t : State} (ht : t.cycles = s.cycles.insert m d) : Keeps n visible fetched t := by
  obtain ⟨c, hc, rfl, rfl⟩ := h
  rw [Keeps, ht]
  by_cases hnm : n = m
  · subst hnm
    exact ⟨d, AList.lookup_insert _, hd c hc⟩
  · exact ⟨c, by rw [AList.lookup_insert_ne hnm, hc], rfl, rfl⟩

/-- What a fetch saw and took stays with its cycle. -/
theorem step_keeps {visible : List Row} {fetched : List OutboxEntry} (s : State) (e : Event)
    (t : State) (h : Keeps n visible fetched s) (ht : step cfg s e = some t) :
    Keeps n visible fetched t := by
  have hn : ∀ m, m ∉ s.cycles → ∀ c, s.cycles.lookup m ≠ some c :=
    fun m hm c hc => hm (mem_of_lookup hc)
  cases step_moved ht with
  | produced hs | rested hs | failed _ _ _ _ _ _ hs =>
    rw [Keeps, hs.cycles]
    exact h
  | committed => exact h
  | idled m hm hs => exact h.insert (fun c hc => absurd hc (hn m hm c)) hs.cycles
  | fetched m hm => exact h.insert (fun c hc => absurd hc (hn m hm c)) rfl
  | added m c entry hc =>
    refine h.insert (fun d hd => ?_) rfl
    obtain rfl := Option.mem_unique hc hd
    exact ⟨rfl, rfl⟩
  | returned m succeeded rest entry c hp hc =>
    cases rest
    all_goals
      refine h.insert (fun d hd => ?_) rfl
      obtain rfl := Option.mem_unique hc hd
      exact ⟨rfl, rfl⟩
  | bumped _ _ _ _ _ _ _ hs =>
    rw [Keeps, hs.cycles]
    exact h
  | marked succeeded failure hp applied hs =>
    rw [Keeps, hs.cycles]
    cases applied <;> exact h

theorem keeps_of_fetch (ht : step cfg s (.fetch n) = some t) :
    Keeps n (unpublished s.rows) (((unpublished s.rows).take cfg.batchSize).map (·.entry)) t := by
  simp only [step] at ht
  split at ht
  · split_ifs at ht with hn hno
    · cases ht
      rw [Keeps, (afterCycle_same _ _ _ _).1.cycles]
      exact ⟨_, AList.lookup_insert _, rfl, rfl⟩
    · cases ht
      obtain ⟨entry, rest, he⟩ := exists_cons_of_ne_nil hno
      rw [he]
      exact ⟨_, AList.lookup_insert _, rfl, he.symm ▸ rfl⟩
  · cases ht

end Machine

/-- In every run of one relay a row is marked only after its payload was added to its stream. From
a fetch on, what its cycle adds is, by first occurrence, a beginning of what was fetched, and no
row visible to the fetch is overtaken by one that sorts after it. -/
theorem relay_skips_nothing (cfg : Config) (clock : ℤ) (es : List Event) (s : State)
    (hrun : run (step cfg) (State.init cfg clock) es = some s) :
    (∀ row ∈ s.rows, row.publishedAt ≠ none → row.entry ∈ s.log) ∧
    ∀ n t fs u, step cfg s (.fetch n) = some t → run (step cfg) t fs = some u →
      ∃ c, u.cycles.lookup n = some c ∧
        c.fetched = ((unpublished s.rows).take cfg.batchSize).map (·.entry) ∧
        c.added.eraseDups <+: c.fetched ∧
        ∀ a ∈ s.rows, a.publishedAt = none → ∀ b ∈ s.rows, b.publishedAt = none →
          a.SortsBy b → a.id ≠ b.id → FirstBefore c.added a.entry b.entry := by
  have h := run_sound hrun
  refine ⟨h.published, fun n t fs u ht hu => ?_⟩
  obtain ⟨c, hc, hv, hf⟩ := run_invariant_of_step step_keeps hu (keeps_of_fetch ht)
  have hcy := (run_invariant_of_step step_sound hu (step_sound s _ t h ht)).cycles n c hc
  refine ⟨c, hc, hf, hcy.added_prefix, fun a ha han b hb hbn hs hne => ?_⟩
  obtain ⟨first, rest, hsp, hnot, hfi⟩ := hcy.ahead
    (hv ▸ mem_unpublished.mpr ⟨ha, han⟩) (hv ▸ mem_unpublished.mpr ⟨hb, hbn⟩)
    hs hne
  have had := hcy.added_prefix.trans hcy.fetched_prefix
  rw [hsp] at had
  exact firstBefore_of_eraseDups_prefix had hnot hfi

private def pair : Config := ⟨2, 100, 1000⟩

private def created : OutboxRecord := ⟨1, "job", 7, "media", "created"⟩

private def finished : OutboxRecord := ⟨2, "job", 7, "media", "finished"⟩

private def twoCommits : List Event :=
  [.begin 0 0 10, .update 0 ("job", 7), .append 0 [created], .commit 0,
    .begin 1 0 20, .update 1 ("job", 7), .append 1 [finished], .commit 1]

private def interrupted : List Event :=
  [.xadd 0 ⟨1, "media", "created"⟩, .publishReturns, .publishFails .appError,
    .bumpFails false .appError, .markReturns 30, .xadd 0 ⟨2, "media", "finished"⟩]

theorem interrupted_cycle_skips_nothing :
    ∃ s t u c, run (step pair) (State.init pair 0) twoCommits = some s ∧
      step pair s (.fetch 0) = some t ∧ run (step pair) t interrupted = some u ∧
      u.cycles.lookup 0 = some c ∧ c.added.eraseDups <+: c.fetched ∧
      (∀ row ∈ u.rows, row.publishedAt ≠ none → row.entry ∈ u.log) := by
  obtain ⟨s, hs, -⟩ := exists_run_of_any (p := fun _ : State => true)
    (show (run (step pair) (State.init pair 0) twoCommits).any _ = true by decide +kernel)
  obtain ⟨u, hu, -⟩ := exists_run_of_any (p := fun _ : State => true)
    (show (run (step pair) (State.init pair 0) (twoCommits ++ .fetch 0 :: interrupted)).any _ = true
      by decide +kernel)
  have hr := hu
  rw [run_append hs] at hr
  obtain ⟨t, ht, htu⟩ := run_cons_eq_some hr
  obtain ⟨c, hc, -, hp, -⟩ := (relay_skips_nothing pair 0 twoCommits s hs).2 0 t _ u ht htu
  exact ⟨s, t, u, c, hs, ht, htu, hc, hp, (relay_skips_nothing pair 0 _ u hu).1⟩

end Aizzak.OutboxRelay
