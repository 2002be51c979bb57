import Aizzak.PagedReads
import Aizzak.RedisStreams

/-!
The replay of published events that Redis lost. The outbox rows of a range are joined with the
ledger of processed events, read group by group in slices, and with the streams, read through the
groups' cursors, their pending lists and paged scans of the streams and their dead-letter streams.
Of six verdicts one is published. What a row is judged to be is compared with what the two stores
say of it.
-/
namespace Aizzak.OutboxReplay

open PagedReads RedisStreams List

structure OutboxRow (P : Type*) where
  id : String
  workspace : Option String
  stream : String
  eventType : String
  createdAt : ℤ
  publishedAt : Option ℤ
  payload : P

/-- The database at one instant. The ids are the primary key, and a row's envelope carries its
id: both are written from one event. `envelopeId` is what `_event_id` reads in the encoding of a
payload. -/
structure Database (P : Type*) (envelopeId : P → Option String) where
  now : ℤ
  outbox : List (OutboxRow P)
  processedEvents : List (String × String)
  ids_nodup : (outbox.map OutboxRow.id).Nodup
  stamped : ∀ row ∈ outbox, envelopeId row.payload = some row.id

/-- An entry of a stream; its field may be missing or hold no envelope. -/
structure Entry (P : Type*) where
  id : StreamId
  ce : Option P

structure GroupPosition where
  lastDeliveredId : StreamId
  pending : List StreamId

/-- A stream as Redis keeps it: entries in id order below the last id generated, and groups under
their names, none ahead of that id. -/
structure Stream (P : Type*) where
  entries : List (Entry P)
  lastId : StreamId
  groups : List (String × GroupPosition)
  sorted : entries.Pairwise (·.id < ·.id)
  entries_le : ∀ entry ∈ entries, entry.id ≤ lastId
  cursors_le : ∀ group ∈ groups, group.2.lastDeliveredId ≤ lastId
  names_nodup : (groups.map Prod.fst).Nodup

abbrev Redis (P : Type*) := String → Option (Stream P)

structure ConsumerBinding where
  stream : String
  group : String
  eventTypes : List String

structure Candidate where
  eventId : String
  stream : String
  eventType : String
  createdAt : ℤ
  claimedBy : Finset String
  owedBy : Finset String
  deadLettered : Bool

inductive Verdict where
  | replay
  | inStream
  | deadLettered
  | processed
  | noReader
  | beyondLedger
deriving DecidableEq

inductive Instant where
  | at (time : ℤ)
  | back (duration : ℤ)

structure Selection where
  since : Option Instant
  untilAt : Option Instant
  workspace : Option String
  streams : List String

def Instant.resolve (value : Option Instant) (now default : ℤ) : ℤ :=
  match value with
  | none => default
  | some (.at time) => time
  | some (.back duration) => now - duration

def chunk : ℕ := 1000

section Verdicts

def readersByType (bindings : List ConsumerBinding) (stream eventType : String) : Finset String :=
  ((bindings.filter fun b => b.stream = stream ∧ eventType ∈ b.eventTypes).map
    ConsumerBinding.group).toFinset

def Candidate.readers (bindings : List ConsumerBinding) (c : Candidate) : Finset String :=
  readersByType bindings c.stream c.eventType

def classify (bindings : List ConsumerBinding) (horizon : ℤ) (c : Candidate) : Verdict :=
  let groups := c.readers bindings
  let missing := groups \ c.claimedBy
  if groups = ∅ then .noReader
  else if missing = ∅ then .processed
  else if missing ⊆ c.owedBy then .inStream
  else if c.deadLettered then .deadLettered
  else if c.createdAt < horizon then .beyondLedger
  else .replay

end Verdicts

variable {P : Type*} {envelopeId : P → Option String}

def before (a b : OutboxRow P) : Prop :=
  a.createdAt < b.createdAt ∨ a.createdAt = b.createdAt ∧ a.id ≤ b.id

instance (a b : OutboxRow P) : Decidable (before a b) :=
  inferInstanceAs (Decidable (_ ∨ _))

theorem before_total (a b : OutboxRow P) : before a b ∨ before b a := by
  rcases lt_trichotomy a.createdAt b.createdAt with hlt | heq | hlt
  · exact .inl (.inl hlt)
  · rcases le_total a.id b.id with hid | hid
    · exact .inl (.inr ⟨heq, hid⟩)
    · exact .inr (.inr ⟨heq.symm, hid⟩)
  · exact .inr (.inl hlt)

theorem before_trans {a b c : OutboxRow P} (hab : before a b) (hbc : before b c) : before a c := by
  rcases hab with hab | ⟨hab, hid⟩
  · rcases hbc with hbc | ⟨hbc, -⟩
    · exact .inl (hab.trans hbc)
    · exact .inl (hbc ▸ hab)
  · rcases hbc with hbc | ⟨hbc, hid'⟩
    · exact .inl (hab ▸ hbc)
    · exact .inr ⟨hab.trans hbc, hid.trans hid'⟩

instance : Std.Total (before (P := P)) := ⟨before_total⟩

instance : IsTrans (OutboxRow P) before := ⟨fun _ _ _ => before_trans⟩

namespace OutboxRow

def inRange (row : OutboxRow P) (selection : Selection) (since untilAt : ℤ) : Bool :=
  row.publishedAt.any (fun time => since ≤ time ∧ time < untilAt) &&
    selection.workspace.all (row.workspace = some ·) &&
    (selection.streams.isEmpty || row.stream ∈ selection.streams)

def candidate (row : OutboxRow P) : Candidate :=
  ⟨row.id, row.stream, row.eventType, row.createdAt, ∅, ∅, false⟩

end OutboxRow

namespace Database

variable (db : Database P envelopeId)

def horizon (retention : ℤ) : ℤ := db.now - retention

def selectRows (selection : Selection) (retention : ℤ) : List (OutboxRow P) :=
  let since := Instant.resolve selection.since db.now (db.horizon retention)
  let untilAt := Instant.resolve selection.untilAt db.now db.now
  (db.outbox.filter (·.inRange selection since untilAt)).insertionSort before

def claimsOf (group : String) (eventIds : List String) : List String :=
  (slices chunk eventIds).flatMap fun slice =>
    (db.processedEvents.filter fun claim => claim.1 = group ∧ claim.2 ∈ slice).map Prod.snd

def wantedGroups (bindings : List ConsumerBinding) (candidates : List Candidate) :
    Finset String :=
  candidates.foldr (fun c groups => c.readers bindings ∪ groups) ∅

def withClaims (bindings : List ConsumerBinding) (candidates : List Candidate) (c : Candidate) :
    Candidate :=
  { c with
    claimedBy := (wantedGroups bindings candidates).filter fun group =>
      c.eventId ∈ db.claimsOf group
        ((candidates.filter (group ∈ ·.readers bindings)).map Candidate.eventId) }

def attachClaims (bindings : List ConsumerBinding) (candidates : List Candidate) :
    List Candidate :=
  candidates.map (db.withClaims bindings candidates)

end Database

namespace Redis

def scan (envelopeId : P → Option String) (redis : Redis P) (key : String) :
    List (StreamId × String) :=
  match redis key with
  | none => []
  | some st => (pages Entry.id chunk st.entries).filterMap fun entry =>
      (entry.ce.bind envelopeId).map (entry.id, ·)

def groupStates (redis : Redis P) (stream : String) (wanted : Finset String) :
    List (String × GroupPosition) :=
  match redis stream with
  | none => []
  | some st => (st.groups.filter (·.1 ∈ wanted)).map fun group =>
      (group.1, ⟨group.2.lastDeliveredId, group.2.pending.take group.2.pending.length⟩)

end Redis

def GroupPosition.owes (g : GroupPosition) (id : StreamId) : Bool :=
  g.lastDeliveredId < id ∨ id ∈ g.pending

section Look

variable (envelopeId) (redis : Redis P) (bindings : List ConsumerBinding)
  (candidates : List Candidate)

def unclaimed (stream : String) : List Candidate :=
  candidates.filter fun c => c.stream = stream ∧ c.readers bindings \ c.claimedBy ≠ ∅

def wantedIds (stream : String) : List String :=
  (unclaimed bindings candidates stream).map Candidate.eventId

def neededGroups (stream : String) : Finset String :=
  Database.wantedGroups bindings (unclaimed bindings candidates stream)

def wantedStreams : List String :=
  ((candidates.filter fun c => c.readers bindings \ c.claimedBy ≠ ∅).map
    Candidate.stream).eraseDups

def owedOn (stream : String) : List (String × String) :=
  let states := redis.groupStates stream (neededGroups bindings candidates stream)
  if states.isEmpty then []
  else (redis.scan envelopeId stream).flatMap fun entry =>
    if entry.2 ∈ wantedIds bindings candidates stream then
      (states.filter (·.2.owes entry.1)).map fun state => (entry.2, state.1)
    else []

def deadOn (stream : String) : List String :=
  ((redis.scan envelopeId (stream ++ ".dlq")).map Prod.snd).filter
    (· ∈ wantedIds bindings candidates stream)

def looked (c : Candidate) : Candidate :=
  let owed := (wantedStreams bindings candidates).flatMap
    (owedOn envelopeId redis bindings candidates)
  let dead := (wantedStreams bindings candidates).flatMap
    (deadOn envelopeId redis bindings candidates)
  { c with
    owedBy := ((owed.filter (·.1 = c.eventId)).map Prod.snd).toFinset
    deadLettered := c.eventId ∈ dead }

def lookInRedis : List Candidate :=
  candidates.map (looked envelopeId redis bindings candidates)

end Look

def buildPlan (db : Database P envelopeId) (redis : Redis P) (bindings : List ConsumerBinding)
    (selection : Selection) (retention : ℤ) : List (Candidate × Verdict) :=
  let selected := (db.selectRows selection retention).map OutboxRow.candidate
  let claimed := db.attachClaims bindings selected
  (lookInRedis envelopeId redis bindings claimed).map fun c =>
    (c, classify bindings (db.horizon retention) c)

def toReplay (rows : List (Candidate × Verdict)) : List Candidate :=
  (rows.filter (·.2 = .replay)).map Prod.fst

namespace Redis

def entriesOf (redis : Redis P) (key : String) : List (Entry P) :=
  match redis key with
  | none => []
  | some st => st.entries

/-- A group will still be handed a copy of an event. -/
def OwedTo (envelopeId : P → Option String) (redis : Redis P) (stream group eventId : String) :
    Prop :=
  ∃ st g, redis stream = some st ∧ (group, g) ∈ st.groups ∧ ∃ entry ∈ st.entries,
    entry.ce.bind envelopeId = some eventId ∧
      (g.lastDeliveredId < entry.id ∨ entry.id ∈ g.pending)

def DeadLettered (envelopeId : P → Option String) (redis : Redis P) (stream eventId : String) :
    Prop :=
  ∃ entry ∈ redis.entriesOf (stream ++ ".dlq"), entry.ce.bind envelopeId = some eventId

end Redis

/-- Redis lost an event: some durable reader of it has neither claimed it nor is owed a copy, no
copy is dead-lettered, and the ledger can still vouch for it. -/
def Lost (db : Database P envelopeId) (redis : Redis P) (bindings : List ConsumerBinding)
    (retention : ℤ) (row : OutboxRow P) : Prop :=
  (∃ group ∈ readersByType bindings row.stream row.eventType,
    (group, row.id) ∉ db.processedEvents ∧ ¬redis.OwedTo envelopeId row.stream group row.id) ∧
  ¬redis.DeadLettered envelopeId row.stream row.id ∧ db.horizon retention ≤ row.createdAt

/-- A candidate is replayed exactly when some reader lacks it and nothing vouches for it. -/
theorem classify_eq_replay_iff {bindings : List ConsumerBinding} {horizon : ℤ} {c : Candidate} :
    classify bindings horizon c = .replay ↔
      (∃ group ∈ c.readers bindings, group ∉ c.claimedBy ∧ group ∉ c.owedBy) ∧
      c.deadLettered = false ∧ horizon ≤ c.createdAt := by
  have hm : (c.readers bindings \ c.claimedBy) ⊆ c.owedBy ↔
      ¬∃ group ∈ c.readers bindings, group ∉ c.claimedBy ∧ group ∉ c.owedBy := by
    simp only [Finset.subset_iff, Finset.mem_sdiff, and_imp, not_exists, not_and, not_not]
  simp only [classify]
  split_ifs with hn hc ho hd hold
  · simp [hn]
  · simp [hm.mp (hc ▸ Finset.empty_subset _)]
  · simp [hm.mp ho]
  · simp [hd]
  · simp [not_le.mpr hold]
  · rw [hm, not_not] at ho
    simpa [hd, not_lt.mp hold] using ho

variable {db : Database P envelopeId} {redis : Redis P} {bindings : List ConsumerBinding}
  {candidates : List Candidate} {c : Candidate} {stream group eventId : String}

theorem mem_claimsOf {eventIds : List String} (hmem : eventId ∈ eventIds) :
    eventId ∈ db.claimsOf group eventIds ↔ (group, eventId) ∈ db.processedEvents := by
  simp only [Database.claimsOf, mem_flatMap, mem_map, mem_filter,
    decide_eq_true_eq]
  constructor
  · rintro ⟨slice, -, claim, ⟨hc, rfl, -⟩, rfl⟩
    exact hc
  · intro hc
    obtain ⟨slice, hs, hin⟩ := (mem_slices (by decide : 0 < chunk)).mpr hmem
    exact ⟨slice, hs, (group, eventId), ⟨hc, rfl, hin⟩, rfl⟩

theorem mem_wantedGroups : group ∈ Database.wantedGroups bindings candidates ↔
    ∃ c ∈ candidates, group ∈ c.readers bindings := by
  rw [Database.wantedGroups]
  induction candidates with
  | nil => simp
  | cons c rest ih => simp [ih]

theorem scan_eq (redis : Redis P) (key : String) :
    redis.scan envelopeId key = (redis.entriesOf key).filterMap fun entry =>
      (entry.ce.bind envelopeId).map (entry.id, ·) := by
  rw [Redis.scan, Redis.entriesOf]
  split
  · rfl
  · rename_i st _
    rw [pages_eq st.sorted (by decide : 0 < chunk)]

theorem mem_groupStates {wanted : Finset String} {g : GroupPosition} :
    (group, g) ∈ redis.groupStates stream wanted ↔
      group ∈ wanted ∧ ∃ st, redis stream = some st ∧ (group, g) ∈ st.groups := by
  rw [Redis.groupStates]
  split
  · rename_i hn
    simp [hn]
  · rename_i st hst
    simp [hst, and_comm]

theorem mem_withClaims (hc : c ∈ candidates) (hg : group ∈ c.readers bindings) :
    group ∈ (db.withClaims bindings candidates c).claimedBy ↔
      (group, c.eventId) ∈ db.processedEvents := by
  have hw : c.eventId ∈
      (candidates.filter (group ∈ ·.readers bindings)).map Candidate.eventId :=
    mem_map.mpr ⟨c, mem_filter.mpr ⟨hc, by simpa using hg⟩, rfl⟩
  rw [Database.withClaims, Finset.mem_filter, mem_wantedGroups, mem_claimsOf hw,
    and_iff_right_iff_imp]
  exact fun _ => ⟨c, hc, hg⟩

theorem mem_unclaimed {other : Candidate} : other ∈ unclaimed bindings candidates stream ↔
    other ∈ candidates ∧ other.stream = stream ∧
      other.readers bindings \ other.claimedBy ≠ ∅ := by
  simp [unclaimed]

theorem mem_wantedIds_iff (hids : (candidates.map Candidate.eventId).Nodup) (hc : c ∈ candidates) :
    c.eventId ∈ wantedIds bindings candidates stream ↔
      c.stream = stream ∧ c.readers bindings \ c.claimedBy ≠ ∅ := by
  rw [wantedIds, mem_map]
  constructor
  · rintro ⟨other, ho, hid⟩
    obtain ⟨hmem, hs⟩ := mem_unclaimed.mp ho
    obtain rfl := inj_on_of_nodup_map hids hmem hc hid
    exact hs
  · intro hs
    exact ⟨c, mem_unclaimed.mpr ⟨hc, hs⟩, rfl⟩

/-- The events a stream owes are the wanted ones that some needed group is owed. -/
theorem mem_owedOn : (eventId, group) ∈ owedOn envelopeId redis bindings candidates stream ↔
    eventId ∈ wantedIds bindings candidates stream ∧
      group ∈ neededGroups bindings candidates stream ∧
      redis.OwedTo envelopeId stream group eventId := by
  have hsc : ∀ states : List (String × GroupPosition),
      (eventId, group) ∈ (redis.scan envelopeId stream).flatMap (fun entry =>
        if entry.2 ∈ wantedIds bindings candidates stream then
          (states.filter (·.2.owes entry.1)).map fun state => (entry.2, state.1)
        else []) ↔
      eventId ∈ wantedIds bindings candidates stream ∧
        ∃ entry ∈ redis.entriesOf stream, entry.ce.bind envelopeId = some eventId ∧
          ∃ g, (group, g) ∈ states ∧ (g.lastDeliveredId < entry.id ∨ entry.id ∈ g.pending) := by
    intro states
    rw [scan_eq, mem_flatMap]
    constructor
    · rintro ⟨⟨id, event⟩, hen, hmem⟩
      obtain ⟨entry, hin, hr⟩ := mem_filterMap.mp hen
      obtain ⟨_, hev, heq⟩ := Option.map_eq_some_iff.mp hr
      obtain ⟨rfl, rfl⟩ := Prod.mk.inj heq
      split_ifs at hmem with hw
      · obtain ⟨⟨name, g⟩, hs, heq⟩ := mem_map.mp hmem
        obtain ⟨rfl, rfl⟩ := Prod.mk.inj heq
        obtain ⟨hs, ho⟩ := mem_filter.mp hs
        exact ⟨hw, entry, hin, hev, g, hs, by simpa [GroupPosition.owes] using ho⟩
      · cases hmem
    · rintro ⟨hw, entry, hin, hev, g, hs, ho⟩
      refine ⟨(entry.id, eventId), mem_filterMap.mpr ⟨entry, hin, by rw [hev]; rfl⟩, ?_⟩
      rw [if_pos hw]
      refine mem_map.mpr ⟨(group, g), mem_filter.mpr ⟨hs, ?_⟩, rfl⟩
      simpa [GroupPosition.owes] using ho
  have hexists : ∀ needed : Finset String,
      (∃ entry ∈ redis.entriesOf stream, entry.ce.bind envelopeId = some eventId ∧
        ∃ g, (group, g) ∈ redis.groupStates stream needed ∧
          (g.lastDeliveredId < entry.id ∨ entry.id ∈ g.pending)) ↔
      group ∈ needed ∧ redis.OwedTo envelopeId stream group eventId := by
    intro needed
    constructor
    · rintro ⟨entry, hin, hev, g, hs, ho⟩
      obtain ⟨hn, st, hst, hg⟩ := mem_groupStates.mp hs
      rw [Redis.entriesOf, hst] at hin
      exact ⟨hn, st, g, hst, hg, entry, hin, hev, ho⟩
    · rintro ⟨hn, st, g, hst, hg, entry, hin, hev, ho⟩
      refine ⟨entry, ?_, hev, g, mem_groupStates.mpr ⟨hn, st, hst, hg⟩, ho⟩
      rw [Redis.entriesOf, hst]
      exact hin
  rw [owedOn]
  split_ifs with he
  · have hno : redis.groupStates stream (neededGroups bindings candidates stream) = [] :=
      isEmpty_iff.mp he
    rw [← hexists, hno]
    simp
  · rw [hsc, hexists]

theorem mem_deadOn : eventId ∈ deadOn envelopeId redis bindings candidates stream ↔
    eventId ∈ wantedIds bindings candidates stream ∧
      redis.DeadLettered envelopeId stream eventId := by
  rw [deadOn, mem_filter, scan_eq, and_comm]
  apply and_congr (by simp)
  rw [Redis.DeadLettered]
  constructor
  · intro hmem
    obtain ⟨⟨id, event⟩, hen, rfl⟩ := mem_map.mp hmem
    obtain ⟨entry, hin, hr⟩ := mem_filterMap.mp hen
    obtain ⟨_, he, heq⟩ := Option.map_eq_some_iff.mp hr
    obtain ⟨-, rfl⟩ := Prod.mk.inj heq
    exact ⟨entry, hin, he⟩
  · rintro ⟨entry, hin, he⟩
    refine mem_map.mpr ⟨(entry.id, eventId), mem_filterMap.mpr ⟨entry, hin, ?_⟩, rfl⟩
    rw [he]
    rfl

theorem mem_wantedStreams (hc : c ∈ candidates) (hm : c.readers bindings \ c.claimedBy ≠ ∅) :
    c.stream ∈ wantedStreams bindings candidates := by
  rw [wantedStreams, mem_eraseDups]
  exact mem_map.mpr ⟨c, mem_filter.mpr ⟨hc, by simpa using hm⟩, rfl⟩

/-- A reader counts as owed exactly when the stream owes it a copy. -/
theorem mem_looked_iff (hids : (candidates.map Candidate.eventId).Nodup) (hc : c ∈ candidates)
    (hr : group ∈ c.readers bindings) (hcl : group ∉ c.claimedBy) :
    group ∈ (looked envelopeId redis bindings candidates c).owedBy ↔
      redis.OwedTo envelopeId c.stream group c.eventId := by
  have hm : c.readers bindings \ c.claimedBy ≠ ∅ :=
    Finset.ne_empty_of_mem (Finset.mem_sdiff.mpr ⟨hr, hcl⟩)
  have hn : group ∈ neededGroups bindings candidates c.stream :=
    mem_wantedGroups.mpr ⟨c, mem_unclaimed.mpr ⟨hc, rfl, hm⟩, hr⟩
  rw [looked, mem_toFinset, mem_map]
  constructor
  · rintro ⟨⟨event, name⟩, hp, rfl⟩
    obtain ⟨hp, he⟩ := mem_filter.mp hp
    obtain rfl : event = c.eventId := by simpa using he
    obtain ⟨stream, -, ho⟩ := mem_flatMap.mp hp
    obtain ⟨hw, -, ho⟩ := mem_owedOn.mp ho
    rw [((mem_wantedIds_iff hids hc).mp hw).1]
    exact ho
  · intro ho
    refine ⟨(c.eventId, group), mem_filter.mpr ⟨mem_flatMap.mpr ⟨c.stream,
      mem_wantedStreams hc hm, ?_⟩, by simp⟩, rfl⟩
    exact mem_owedOn.mpr ⟨(mem_wantedIds_iff hids hc).mpr ⟨rfl, hm⟩, hn, ho⟩

theorem looked_dead_iff (hids : (candidates.map Candidate.eventId).Nodup) (hc : c ∈ candidates)
    (hm : c.readers bindings \ c.claimedBy ≠ ∅) :
    (looked envelopeId redis bindings candidates c).deadLettered = true ↔
      redis.DeadLettered envelopeId c.stream c.eventId := by
  rw [looked, decide_eq_true_eq, mem_flatMap]
  constructor
  · rintro ⟨stream, -, hd⟩
    obtain ⟨hw, hd⟩ := mem_deadOn.mp hd
    rw [((mem_wantedIds_iff hids hc).mp hw).1]
    exact hd
  · intro hd
    exact ⟨c.stream, mem_wantedStreams hc hm,
      mem_deadOn.mpr ⟨(mem_wantedIds_iff hids hc).mpr ⟨rfl, hm⟩, hd⟩⟩

noncomputable def lostRows (db : Database P envelopeId) (redis : Redis P)
    (bindings : List ConsumerBinding) (selection : Selection) (retention : ℤ) :
    List (OutboxRow P) :=
  open Classical in
  (db.selectRows selection retention).filter (Lost db redis bindings retention)

variable {selection : Selection} {retention : ℤ}

theorem mem_selectRows {row : OutboxRow P} : row ∈ db.selectRows selection retention ↔
    row ∈ db.outbox ∧ row.inRange selection
      (Instant.resolve selection.since db.now (db.horizon retention))
      (Instant.resolve selection.untilAt db.now db.now) = true := by
  rw [Database.selectRows, mem_insertionSort, mem_filter]

theorem nodup_selectRows : ((db.selectRows selection retention).map OutboxRow.id).Nodup := by
  have hp := (perm_insertionSort before (db.outbox.filter (·.inRange selection
    (Instant.resolve selection.since db.now (db.horizon retention))
    (Instant.resolve selection.untilAt db.now db.now)))).map OutboxRow.id
  rw [Database.selectRows, hp.nodup_iff]
  exact db.ids_nodup.sublist (filter_sublist.map _)

theorem sorted_selectRows : (db.selectRows selection retention).Pairwise before :=
  pairwise_insertionSort before _

section Judged

variable (db redis bindings selection retention)

def claimedRows : List Candidate :=
  db.attachClaims bindings ((db.selectRows selection retention).map OutboxRow.candidate)

def judged (row : OutboxRow P) : Candidate :=
  looked envelopeId redis bindings (claimedRows db bindings selection retention)
    (db.withClaims bindings ((db.selectRows selection retention).map OutboxRow.candidate)
      row.candidate)

end Judged

theorem nodup_claimedRows :
    ((claimedRows db bindings selection retention).map Candidate.eventId).Nodup := by
  have hmap : (claimedRows db bindings selection retention).map Candidate.eventId =
      (db.selectRows selection retention).map OutboxRow.id := by
    rw [claimedRows, Database.attachClaims, map_map, map_map]
    rfl
  rw [hmap]
  exact nodup_selectRows

/-- The verdict is to replay exactly the lost rows. -/
theorem classify_judged_iff {row : OutboxRow P} (hrow : row ∈ db.selectRows selection retention) :
    classify bindings (db.horizon retention) (judged db redis bindings selection retention row) =
      .replay ↔ Lost db redis bindings retention row := by
  have hs := mem_map_of_mem (f := OutboxRow.candidate) hrow
  have hc := mem_map_of_mem (f := db.withClaims bindings
    ((db.selectRows selection retention).map OutboxRow.candidate)) hs
  have hm : ∀ group ∈ readersByType bindings row.stream row.eventType,
      (group ∉ (judged db redis bindings selection retention row).claimedBy ↔
        (group, row.id) ∉ db.processedEvents) := by
    intro group hg
    exact not_congr (mem_withClaims hs hg)
  have ho : ∀ group ∈ readersByType bindings row.stream row.eventType,
      group ∉ (judged db redis bindings selection retention row).claimedBy →
      (group ∉ (judged db redis bindings selection retention row).owedBy ↔
        ¬redis.OwedTo envelopeId row.stream group row.id) := by
    intro group hg hu
    exact not_congr (mem_looked_iff nodup_claimedRows hc hg hu)
  have hd : ∀ group ∈ readersByType bindings row.stream row.eventType,
      group ∉ (judged db redis bindings selection retention row).claimedBy →
      ((judged db redis bindings selection retention row).deadLettered = false ↔
        ¬redis.DeadLettered envelopeId row.stream row.id) := by
    intro group hg hu
    rw [← Bool.not_eq_true]
    exact not_congr (looked_dead_iff nodup_claimedRows hc
      (Finset.ne_empty_of_mem (Finset.mem_sdiff.mpr ⟨hg, hu⟩)))
  rw [classify_eq_replay_iff, Lost]
  constructor
  · rintro ⟨⟨group, hg, hu, hun⟩, hl, hh⟩
    exact ⟨⟨group, hg, (hm group hg).mp hu,
      (ho group hg hu).mp hun⟩,
      (hd group hg hu).mp hl, hh⟩
  · rintro ⟨⟨group, hg, hu, hun⟩, hl, hh⟩
    have hu := (hm group hg).mpr hu
    exact ⟨⟨group, hg, hu, (ho group hg hu).mpr hun⟩,
      (hd group hg hu).mpr hl, hh⟩

theorem toReplay_buildPlan :
    toReplay (buildPlan db redis bindings selection retention) =
      (lostRows db redis bindings selection retention).map
        (judged db redis bindings selection retention) := by
  have hp : buildPlan db redis bindings selection retention =
      (db.selectRows selection retention).map fun row =>
        (judged db redis bindings selection retention row,
          classify bindings (db.horizon retention)
            (judged db redis bindings selection retention row)) := by
    rw [buildPlan, lookInRedis, ← claimedRows, map_map]
    nth_rewrite 2 [claimedRows]
    rw [Database.attachClaims, map_map, map_map]
    rfl
  rw [toReplay, hp, filter_map, map_map, lostRows]
  congr 1
  apply filter_congr
  intro row hrow
  simp only [Function.comp_apply, decide_eq_decide]
  exact classify_judged_iff hrow

end Aizzak.OutboxReplay
