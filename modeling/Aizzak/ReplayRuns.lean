import Aizzak.OutboxReplay

/-!
Runs of the replay. A run provisions the groups of its streams, makes its plan, refuses if the
plan would push a stream past its backstop, and publishes the rows to replay one by one until a
publication fails. Every entry it adds is past the cursors of all groups, so a later run finds it
owed.
-/
namespace Aizzak.OutboxReplay

open PagedReads RedisStreams List

variable {P : Type*} {envelopeId : P → Option String}

namespace Stream

def empty : Stream P where
  entries := []
  lastId := toLex (0, 0)
  groups := []
  sorted := List.Pairwise.nil
  entries_le := nofun
  cursors_le := nofun
  names_nodup := List.nodup_nil

def nextId (clock : ℕ) (last : StreamId) : StreamId :=
  if (ofLex last).1 < clock then toLex (clock, 0)
  else toLex ((ofLex last).1, (ofLex last).2 + 1)

theorem lt_nextId (clock : ℕ) (last : StreamId) : last < nextId clock last := by
  rw [nextId, Prod.Lex.lt_iff]
  split_ifs with hc
  · exact .inl hc
  · exact .inr ⟨rfl, Nat.lt_succ_self _⟩

/-- How many entries `MAXLEN ~` takes off: what Redis chooses, at most what is above the limit. -/
def trimmed (maxlen : Option ℕ) (length cut : ℕ) : ℕ :=
  match maxlen with
  | none => 0
  | some limit => min cut (length - limit)

def add (st : Stream P) (maxlen : Option ℕ) (clock cut : ℕ) (ce : Option P) : Stream P where
  entries := (st.entries ++ [Entry.mk (nextId clock st.lastId) ce]).drop
    (trimmed maxlen (st.entries.length + 1) cut)
  lastId := nextId clock st.lastId
  groups := st.groups
  sorted := by
    apply List.Pairwise.drop
    refine List.pairwise_append.mpr ⟨st.sorted, List.pairwise_singleton _ _, ?_⟩
    intro entry hentry new hnew
    rw [List.mem_singleton.mp hnew]
    exact lt_of_le_of_lt (st.entries_le entry hentry) (lt_nextId clock st.lastId)
  entries_le := by
    intro entry hentry
    rcases List.mem_append.mp (List.mem_of_mem_drop hentry) with hold | hnew
    · exact le_of_lt (lt_of_le_of_lt (st.entries_le entry hold) (lt_nextId clock st.lastId))
    · rw [List.mem_singleton.mp hnew]
  cursors_le := fun group hgroup =>
    le_of_lt (lt_of_le_of_lt (st.cursors_le group hgroup) (lt_nextId clock st.lastId))
  names_nodup := st.names_nodup

theorem entries_add (st : Stream P) (maxlen : Option ℕ) (clock cut : ℕ) (ce : Option P) :
    (st.add maxlen clock cut ce).entries =
      (st.entries ++ [Entry.mk (nextId clock st.lastId) ce]).drop
        (trimmed maxlen (st.entries.length + 1) cut) :=
  rfl

def createGroup (st : Stream P) (name : String) : Stream P :=
  if h : name ∈ st.groups.map Prod.fst then st
  else
    { st with
      groups := st.groups ++ [(name, ⟨st.lastId, []⟩)]
      cursors_le := by
        intro group hgroup
        rcases List.mem_append.mp hgroup with hold | hnew
        · exact st.cursors_le group hold
        · rw [List.mem_singleton.mp hnew]
      names_nodup := by
        rw [List.map_append]
        exact st.names_nodup.append (List.nodup_singleton _) (by simpa using h) }

end Stream

namespace Redis

def ensureGroup (redis : Redis P) (stream group : String) : Redis P :=
  Function.update redis stream (some (((redis stream).getD .empty).createGroup group))

def ensureGroups (redis : Redis P) (bindings : List ConsumerBinding) (streams : List String) :
    Redis P :=
  (bindings.filter fun b => streams.isEmpty || b.stream ∈ streams).foldl
    (fun redis b => redis.ensureGroup b.stream b.group) redis

def xadd (redis : Redis P) (maxlen : Option ℕ) (clock cut : ℕ) (stream : String) (payload : P) :
    Redis P :=
  Function.update redis stream
    (some (((redis stream).getD .empty).add maxlen clock cut (some payload)))

def xlen (redis : Redis P) (stream : String) : ℕ := (redis.entriesOf stream).length

def groupsOf (redis : Redis P) (stream : String) : List (String × GroupPosition) :=
  match redis stream with
  | none => []
  | some st => st.groups

end Redis

/-- How a publication ends: with the id of its entry, with an error, or with an error although the
entry was added. -/
inductive Answer where
  | added
  | refused
  | lost
deriving DecidableEq

structure Reply where
  clock : ℕ
  cut : ℕ
  answer : Answer

structure Ran (P : Type*) where
  redis : Redis P
  refused : Bool
  added : List (String × P)
  published : List (String × P)
  vanished : ℕ
  failed : Bool

def payloads (db : Database P envelopeId) (eventIds : List String) : List (String × P) :=
  (db.outbox.filter (·.id ∈ eventIds)).map fun row => (row.id, row.payload)

def resolved (db : Database P envelopeId) (rows : List Candidate) : List (String × Option P) :=
  (slices chunk rows).flatMap fun slice =>
    slice.map fun c =>
      (c.stream, ((payloads db (slice.map Candidate.eventId)).find? (·.1 = c.eventId)).map Prod.snd)

def publishRows (maxlen : Option ℕ) (replies : ℕ → Reply) :
    List (String × Option P) → ℕ → Redis P → Ran P
  | [], _, redis => ⟨redis, false, [], [], 0, false⟩
  | (_, none) :: rest, n, redis =>
    let ran := publishRows maxlen replies rest n redis
    { ran with vanished := ran.vanished + 1 }
  | (stream, some payload) :: rest, n, redis =>
    let reply := replies n
    match reply.answer with
    | .refused => ⟨redis, false, [], [], 0, true⟩
    | .lost =>
      ⟨redis.xadd maxlen reply.clock reply.cut stream payload, false, [(stream, payload)], [], 0,
        true⟩
    | .added =>
      let ran := publishRows maxlen replies rest (n + 1)
        (redis.xadd maxlen reply.clock reply.cut stream payload)
      { ran with
        added := (stream, payload) :: ran.added
        published := (stream, payload) :: ran.published }

/-- Some stream with rows to replay would come past the backstop. -/
def overBackstop (redis : Redis P) (backstop : Option ℕ) (rows : List Candidate) : Bool :=
  backstop.any fun limit =>
    rows.any fun c =>
      limit < redis.xlen c.stream + (rows.filter (·.stream = c.stream)).length

def runReplay (db : Database P envelopeId) (redis : Redis P) (bindings : List ConsumerBinding)
    (selection : Selection) (retention : ℤ) (backstop : Option ℕ) (replies : ℕ → Reply) : Ran P :=
  let ready := redis.ensureGroups bindings selection.streams
  let rows := toReplay (buildPlan db ready bindings selection retention)
  if overBackstop ready backstop rows then ⟨ready, true, [], [], 0, false⟩
  else publishRows backstop replies (resolved db rows) 0 ready

variable {db : Database P envelopeId} {redis : Redis P} {bindings : List ConsumerBinding}
  {selection : Selection} {retention : ℤ} {stream group eventId : String}

namespace Redis

theorem entriesOf_update (redis : Redis P) (stream key : String) (st : Stream P) :
    entriesOf (Function.update redis stream (some st)) key =
      if key = stream then st.entries else redis.entriesOf key := by
  rw [entriesOf]
  by_cases hkey : key = stream
  · subst hkey
    simp
  · simp [hkey, entriesOf]

theorem groupsOf_update (redis : Redis P) (stream key : String) (st : Stream P) :
    groupsOf (Function.update redis stream (some st)) key =
      if key = stream then st.groups else redis.groupsOf key := by
  rw [groupsOf]
  by_cases hkey : key = stream
  · subst hkey
    simp
  · simp [hkey, groupsOf]

theorem entries_getD (redis : Redis P) (stream : String) :
    ((redis stream).getD .empty).entries = redis.entriesOf stream := by
  rw [entriesOf]
  cases redis stream <;> rfl

theorem groups_getD (redis : Redis P) (stream : String) :
    ((redis stream).getD .empty).groups = redis.groupsOf stream := by
  rw [groupsOf]
  cases redis stream <;> rfl

theorem owedTo_iff : redis.OwedTo envelopeId stream group eventId ↔
    ∃ g, (group, g) ∈ redis.groupsOf stream ∧ ∃ entry ∈ redis.entriesOf stream,
      entry.ce.bind envelopeId = some eventId ∧
        (g.lastDeliveredId < entry.id ∨ entry.id ∈ g.pending) := by
  rw [OwedTo, groupsOf, entriesOf]
  cases hst : redis stream with
  | none => simp
  | some st => simp

@[simp] theorem entriesOf_ensureGroup (redis : Redis P) (stream group key : String) :
    (redis.ensureGroup stream group).entriesOf key = redis.entriesOf key := by
  rw [ensureGroup, entriesOf_update]
  split_ifs with hkey
  · subst hkey
    rw [← entries_getD, Stream.createGroup]
    split_ifs <;> rfl
  · rfl

theorem owedTo_ensureGroup (stream' group' : String) :
    (redis.ensureGroup stream' group').OwedTo envelopeId stream group eventId ↔
      redis.OwedTo envelopeId stream group eventId := by
  rw [owedTo_iff, owedTo_iff, entriesOf_ensureGroup, ensureGroup, groupsOf_update]
  split_ifs with hkey
  · subst hkey
    rw [← groups_getD, ← entries_getD, Stream.createGroup]
    split_ifs with hn
    · rfl
    · constructor
      · rintro ⟨g, hg, entry, he, hev, ho⟩
        rcases mem_append.mp hg with hold | hnew
        · exact ⟨g, hold, entry, he, hev, ho⟩
        · obtain ⟨-, rfl⟩ := Prod.mk.inj (mem_singleton.mp hnew)
          rcases ho with hpa | hp
          · exact absurd hpa (not_lt.mpr (Stream.entries_le _ entry he))
          · cases hp
      · rintro ⟨g, hg, how⟩
        exact ⟨g, mem_append_left _ hg, how⟩
  · rfl

theorem exists_group_ensureGroup {stream' group' : String}
    (h : (∃ g, (group, g) ∈ redis.groupsOf stream) ∨ stream' = stream ∧ group' = group) :
    ∃ g, (group, g) ∈ (redis.ensureGroup stream' group').groupsOf stream := by
  rw [ensureGroup, groupsOf_update]
  split_ifs with hkey
  · subst hkey
    rw [← groups_getD] at h
    rw [Stream.createGroup]
    split_ifs with hn
    · rcases h with h | ⟨-, rfl⟩
      · exact h
      · obtain ⟨⟨name, g⟩, hg, rfl⟩ := mem_map.mp hn
        exact ⟨g, hg⟩
    · rcases h with ⟨g, hg⟩ | ⟨-, rfl⟩
      · exact ⟨g, mem_append_left _ hg⟩
      · exact ⟨_, mem_append_right _ mem_cons_self⟩
  · rcases h with h | ⟨rfl, -⟩
    · exact h
    · exact absurd rfl hkey

/-- What provisioning the groups changes: nothing is owed that was not, no entry is added, and the
groups are there. -/
theorem ensureGroups_spec (envelopeId : P → Option String) (redis : Redis P)
    (bindings : List ConsumerBinding) (streams : List String) :
    (∀ key, (redis.ensureGroups bindings streams).entriesOf key = redis.entriesOf key) ∧
    (∀ stream group eventId, (redis.ensureGroups bindings streams).OwedTo envelopeId stream group
      eventId ↔ redis.OwedTo envelopeId stream group eventId) ∧
    ∀ b ∈ bindings, (streams.isEmpty || b.stream ∈ streams) = true →
      ∃ g, (b.group, g) ∈ (redis.ensureGroups bindings streams).groupsOf b.stream := by
  have ht : ∀ (targets : List ConsumerBinding) (redis : Redis P),
      (∀ key, (targets.foldl (fun redis b => redis.ensureGroup b.stream b.group) redis).entriesOf
        key = redis.entriesOf key) ∧
      (∀ stream group eventId, (targets.foldl (fun redis b => redis.ensureGroup b.stream b.group)
        redis).OwedTo envelopeId stream group eventId ↔
          redis.OwedTo envelopeId stream group eventId) ∧
      ∀ stream group, ((∃ g, (group, g) ∈ redis.groupsOf stream) ∨
        ∃ b ∈ targets, b.stream = stream ∧ b.group = group) →
        ∃ g, (group, g) ∈ (targets.foldl (fun redis b => redis.ensureGroup b.stream b.group)
          redis).groupsOf stream := by
    intro targets
    induction targets with
    | nil => exact fun redis => ⟨fun _ => rfl, fun _ _ _ => Iff.rfl, fun _ _ h => by simpa using h⟩
    | cons b rest ih =>
      intro redis
      obtain ⟨he, ho, hg⟩ := ih (redis.ensureGroup b.stream b.group)
      refine ⟨fun key => ?_, fun stream group eventId => ?_, fun stream group h => ?_⟩
      · rw [foldl_cons, he, entriesOf_ensureGroup]
      · rw [foldl_cons, ho, owedTo_ensureGroup]
      · apply hg
        rcases h with h | ⟨other, hot, hs⟩
        · exact .inl (exists_group_ensureGroup (.inl h))
        · rcases mem_cons.mp hot with rfl | hr
          · exact .inl (exists_group_ensureGroup (.inr hs))
          · exact .inr ⟨other, hr, hs⟩
  obtain ⟨he, ho, hg⟩ := ht
    (bindings.filter fun b => streams.isEmpty || b.stream ∈ streams) redis
  refine ⟨he, ho, fun b hb hta => hg b.stream b.group (.inr ⟨b, ?_, rfl, rfl⟩)⟩
  exact mem_filter.mpr ⟨hb, hta⟩

end Redis

structure Extended (redis redis' : Redis P) (added : List (String × P)) : Prop where
  groups : ∀ key, redis'.groupsOf key = redis.groupsOf key
  entries : ∀ key, ∃ new, redis'.entriesOf key = redis.entriesOf key ++ new ∧
    new.map Entry.ce = (added.filter (·.1 = key)).map (some ·.2) ∧
    ∀ entry ∈ new, ∀ group ∈ redis.groupsOf key, group.2.lastDeliveredId < entry.id

namespace Extended

variable {redis' redis'' : Redis P} {added more : List (String × P)}

theorem refl (redis : Redis P) : Extended redis redis [] where
  groups := fun _ => rfl
  entries := fun _ => ⟨[], by simp, rfl, nofun⟩

theorem trans (hf : Extended redis redis' added) (ht : Extended redis' redis'' more) :
    Extended redis redis'' (added ++ more) where
  groups := fun key => (ht.groups key).trans (hf.groups key)
  entries := by
    intro key
    obtain ⟨new, hnew, hce, hpa⟩ := hf.entries key
    obtain ⟨new', hn, hce', hp⟩ := ht.entries key
    refine ⟨new ++ new', ?_, ?_, ?_⟩
    · rw [hn, hnew, append_assoc]
    · rw [map_append, hce, hce', filter_append, map_append]
    · intro entry he
      rcases mem_append.mp he with he | he
      · exact hpa entry he
      · rw [← hf.groups key]
        exact hp entry he

section

variable (h : Extended redis redis' added)
include h

theorem xlen_eq (key : String) :
    redis'.xlen key = redis.xlen key + (added.filter (·.1 = key)).length := by
  obtain ⟨new, hnew, hce, -⟩ := h.entries key
  have hl := congrArg List.length hce
  rw [length_map, length_map] at hl
  rw [Redis.xlen, Redis.xlen, hnew, length_append, hl]

theorem mem_entries {entry : Entry P} {key : String} (he : entry ∈ redis'.entriesOf key) :
    entry ∈ redis.entriesOf key ∨
      (∃ payload, (key, payload) ∈ added ∧ entry.ce = some payload) ∧
        ∀ group ∈ redis.groupsOf key, group.2.lastDeliveredId < entry.id := by
  obtain ⟨new, hnew, hce, hp⟩ := h.entries key
  rw [hnew] at he
  rcases mem_append.mp he with hold | hin
  · exact .inl hold
  · refine .inr ⟨?_, hp entry hin⟩
    have hr := mem_map_of_mem (f := Entry.ce) hin
    rw [hce] at hr
    obtain ⟨⟨stream, payload⟩, hmem, heq⟩ := mem_map.mp hr
    obtain ⟨ha, hkey⟩ := mem_filter.mp hmem
    obtain rfl : stream = key := by simpa using hkey
    exact ⟨payload, ha, heq.symm⟩

theorem exists_entry {payload : P} {key : String} (ha : (key, payload) ∈ added) :
    ∃ entry ∈ redis'.entriesOf key,
      entry.ce = some payload ∧ ∀ group ∈ redis.groupsOf key,
        group.2.lastDeliveredId < entry.id := by
  obtain ⟨new, hnew, hce, hpa⟩ := h.entries key
  have hr : some payload ∈ new.map Entry.ce := by
    rw [hce]
    exact mem_map.mpr ⟨(key, payload), mem_filter.mpr ⟨ha, by simp⟩, rfl⟩
  obtain ⟨entry, hin, hp⟩ := mem_map.mp hr
  refine ⟨entry, ?_, hp, hpa entry hin⟩
  rw [hnew]
  exact mem_append_right _ hin

/-- Publications add what is owed to every group of their stream. -/
theorem owedTo_iff :
    redis'.OwedTo envelopeId stream group eventId ↔ redis.OwedTo envelopeId stream group eventId ∨
      (∃ g, (group, g) ∈ redis.groupsOf stream) ∧
        ∃ payload, (stream, payload) ∈ added ∧ envelopeId payload = some eventId := by
  rw [Redis.owedTo_iff, Redis.owedTo_iff, h.groups]
  constructor
  · rintro ⟨g, hg, entry, he, hev, ho⟩
    rcases h.mem_entries he with hold | ⟨⟨payload, ha, hce⟩, -⟩
    · exact .inl ⟨g, hg, entry, hold, hev, ho⟩
    · rw [hce] at hev
      exact .inr ⟨⟨g, hg⟩, payload, ha, hev⟩
  · rintro (⟨g, hg, entry, he, hr⟩ | ⟨⟨g, hg⟩, payload, ha, hev⟩)
    · obtain ⟨new, hnew, -⟩ := h.entries stream
      refine ⟨g, hg, entry, ?_, hr⟩
      rw [hnew]
      exact mem_append_left _ he
    · obtain ⟨entry, he, hce, hp⟩ := h.exists_entry ha
      exact ⟨g, hg, entry, he, by rw [hce]; exact hev, .inl (hp (group, g) hg)⟩

/-- Publications add their own copies to the dead letters. -/
theorem deadLettered_iff :
    redis'.DeadLettered envelopeId stream eventId ↔ redis.DeadLettered envelopeId stream eventId ∨
      ∃ payload, (stream ++ ".dlq", payload) ∈ added ∧ envelopeId payload = some eventId := by
  constructor
  · rintro ⟨entry, hen, he⟩
    rcases h.mem_entries hen with hold | ⟨⟨payload, ha, hce⟩, -⟩
    · exact .inl ⟨entry, hold, he⟩
    · rw [hce] at he
      exact .inr ⟨payload, ha, he⟩
  · rintro (⟨entry, hen, he⟩ | ⟨payload, ha, he⟩)
    · obtain ⟨new, hnew, -⟩ := h.entries (stream ++ ".dlq")
      refine ⟨entry, ?_, he⟩
      rw [hnew]
      exact mem_append_left _ hen
    · obtain ⟨entry, hen, hce, -⟩ := h.exists_entry ha
      exact ⟨entry, hen, by rw [hce]; exact he⟩

end

end Extended

theorem xadd_extended {maxlen : Option ℕ} {clock cut : ℕ} (stream : String) (payload : P)
    (hr : ∀ limit, maxlen = some limit → redis.xlen stream + 1 ≤ limit) :
    Extended redis (redis.xadd maxlen clock cut stream payload) [(stream, payload)] := by
  have hk : Stream.trimmed maxlen (((redis stream).getD .empty).entries.length + 1) cut = 0 := by
    rw [Redis.entries_getD]
    cases maxlen with
    | none => rfl
    | some limit =>
      have hl := hr limit rfl
      rw [Redis.xlen] at hl
      simp [Stream.trimmed, Nat.sub_eq_zero_of_le hl]
  constructor
  · intro key
    rw [Redis.xadd, Redis.groupsOf_update]
    split_ifs with hkey
    · subst hkey
      rw [← Redis.groups_getD]
      rfl
    · rfl
  · intro key
    rw [Redis.xadd, Redis.entriesOf_update]
    by_cases hkey : key = stream
    · subst hkey
      rw [if_pos rfl, Stream.entries_add, hk, drop_zero, Redis.entries_getD]
      refine ⟨_, rfl, by simp, ?_⟩
      intro entry he group hg
      rw [← Redis.groups_getD] at hg
      rw [mem_singleton.mp he]
      exact lt_of_le_of_lt (Stream.cursors_le _ group hg) (Stream.lt_nextId clock _)
    · exact ⟨[], by simp [hkey], by simp [Ne.symm hkey], nofun⟩

def sent (rows : List (OutboxRow P)) : List (String × P) :=
  rows.map fun row => (row.stream, row.payload)

variable {row : OutboxRow P}

theorem find_payloads {eventIds : List String} (hrow : row ∈ db.outbox) (hid : row.id ∈ eventIds) :
    (payloads db eventIds).find? (·.1 = row.id) = some (row.id, row.payload) := by
  have hmem : (row.id, row.payload) ∈ payloads db eventIds :=
    mem_map.mpr ⟨row, mem_filter.mpr ⟨hrow, by simpa using hid⟩, rfl⟩
  cases hf : (payloads db eventIds).find? (·.1 = row.id) with
  | none => simpa using List.find?_eq_none.mp hf _ hmem
  | some pair =>
    have hkey : pair.1 = row.id := by simpa using List.find?_some hf
    obtain ⟨other, ho, rfl⟩ := mem_map.mp (mem_of_find?_eq_some hf)
    obtain rfl := inj_on_of_nodup_map db.ids_nodup (mem_filter.mp ho).1 hrow hkey
    rfl

variable {rows : List (OutboxRow P)}

theorem resolved_map {f : OutboxRow P → Candidate} (hr : ∀ row ∈ rows, row ∈ db.outbox)
    (hid : ∀ row, (f row).eventId = row.id) (hs : ∀ row, (f row).stream = row.stream) :
    resolved db (rows.map f) = (sent rows).map fun pair => (pair.1, some pair.2) := by
  have hsl : ∀ slice ∈ slices chunk rows,
      (slice.map f).map (fun c => (c.stream, ((payloads db ((slice.map f).map
        Candidate.eventId)).find? (·.1 = c.eventId)).map Prod.snd)) =
      slice.map fun row => (row.stream, some row.payload) := by
    intro slice hsl
    rw [map_map]
    apply map_congr_left
    intro row hrow
    have hin : row ∈ db.outbox :=
      hr row ((mem_slices (by decide : 0 < chunk)).mp ⟨slice, hsl, hrow⟩)
    have hmem : row.id ∈ (slice.map f).map Candidate.eventId :=
      mem_map.mpr ⟨f row, mem_map_of_mem hrow, hid row⟩
    rw [Function.comp_apply, hid, hs, find_payloads hin hmem]
    rfl
  rw [resolved, slices_map, flatMap_map, flatMap_def, map_congr_left hsl, sent,
    map_map, ← map_flatten, flatten_slices (by decide : 0 < chunk)]
  rfl

def Room (redis : Redis P) (maxlen : Option ℕ) (pairs : List (String × P)) : Prop :=
  ∀ limit, maxlen = some limit → ∀ pair ∈ pairs,
    redis.xlen pair.1 + (pairs.filter (·.1 = pair.1)).length ≤ limit

theorem publishRows_spec (maxlen : Option ℕ) (replies : ℕ → Reply) :
    ∀ (pairs : List (String × P)) (n : ℕ) (redis : Redis P), Room redis maxlen pairs →
      let ran := publishRows maxlen replies (pairs.map fun pair => (pair.1, some pair.2)) n redis
      ran.refused = false ∧ ran.added <+: pairs ∧ (ran.failed = false → ran.added = pairs) ∧
        Extended redis ran.redis ran.added
  | [], _, redis, _ => ⟨rfl, prefix_refl _, fun _ => rfl, .refl redis⟩
  | (stream, payload) :: rest, n, redis, hro => by
    have hf : Extended redis (redis.xadd maxlen (replies n).clock (replies n).cut stream
        payload) [(stream, payload)] := by
      apply xadd_extended
      intro limit hl
      have hle := hro limit hl (stream, payload) mem_cons_self
      rw [filter_cons_of_pos (by simp), length_cons] at hle
      exact Nat.le_trans (Nat.add_le_add_left (Nat.le_add_left _ _) _) hle
    have hre : Room (redis.xadd maxlen (replies n).clock (replies n).cut stream payload) maxlen
        rest := by
      intro limit hl pair hp
      have hle := hro limit hl pair (mem_cons_of_mem _ hp)
      have hc : ((stream, payload) :: rest) = [(stream, payload)] ++ rest := rfl
      rw [hc, filter_append, length_append] at hle
      rw [hf.xlen_eq]
      omega
    rw [map_cons, publishRows]
    cases ha : (replies n).answer with
    | refused =>
      exact ⟨rfl, nil_prefix, nofun, .refl redis⟩
    | lost =>
      exact ⟨rfl, by simp, nofun, hf⟩
    | added =>
      obtain ⟨hr, hi, hall, hextended⟩ :=
        publishRows_spec maxlen replies rest (n + 1) _ hre
      refine ⟨hr, cons_prefix_cons.mpr ⟨rfl, hi⟩, ?_, hf.trans hextended⟩
      intro hd
      exact congrArg (List.cons (stream, payload)) (hall hd)

def Exceeds (redis : Redis P) (backstop : Option ℕ) (rows : List (OutboxRow P)) : Prop :=
  ∃ limit, backstop = some limit ∧ ∃ row ∈ rows,
    limit < redis.xlen row.stream + (rows.filter (·.stream = row.stream)).length

theorem overBackstop_map_iff (redis : Redis P) (backstop : Option ℕ) (rows : List (OutboxRow P))
    {f : OutboxRow P → Candidate} (hs : ∀ row, (f row).stream = row.stream) :
    overBackstop redis backstop (rows.map f) = true ↔ Exceeds redis backstop rows := by
  have hc : ∀ stream, ((rows.map f).filter (·.stream = stream)).length =
      (rows.filter (·.stream = stream)).length := by
    intro stream
    rw [filter_map, length_map]
    congr 2
    funext row
    simp [hs]
  rw [overBackstop, Exceeds]
  cases backstop with
  | none => simp
  | some limit => simp [hc, hs]

variable {backstop : Option ℕ}

theorem room_of_not_exceeds (h : ¬Exceeds redis backstop rows) :
    Room redis backstop (sent rows) := by
  intro limit hl pair hp
  obtain ⟨row, hrow, rfl⟩ := mem_map.mp hp
  have hc : ((sent rows).filter (·.1 = row.stream)).length =
      (rows.filter (·.stream = row.stream)).length := by
    rw [sent, filter_map, length_map]
    rfl
  rw [hc]
  exact not_lt.mp fun hlt => h ⟨limit, hl, row, hrow, hlt⟩

theorem exceeds_ensureGroups (bindings : List ConsumerBinding) (streams : List String) :
    Exceeds (redis.ensureGroups bindings streams) backstop rows ↔ Exceeds redis backstop rows := by
  obtain ⟨he, -, -⟩ := Redis.ensureGroups_spec (fun _ => none) redis bindings streams
  simp only [Exceeds, Redis.xlen, he]

theorem lost_ensureGroups {streams : List String} :
    Lost db (redis.ensureGroups bindings streams) bindings retention row ↔
      Lost db redis bindings retention row := by
  obtain ⟨he, ho, -⟩ := Redis.ensureGroups_spec envelopeId redis bindings streams
  simp only [Lost, ho, Redis.DeadLettered, he]

theorem lostRows_ensureGroups {streams : List String} :
    lostRows db (redis.ensureGroups bindings streams) bindings selection retention =
      lostRows db redis bindings selection retention := by
  rw [lostRows, lostRows]
  apply filter_congr
  intro row _
  rw [decide_eq_decide]
  exact lost_ensureGroups

/-- One run: either it refuses and only provisions groups, or it publishes the lost rows up to the
first failure. -/
theorem runReplay_spec (db : Database P envelopeId) (redis : Redis P)
    (bindings : List ConsumerBinding) (selection : Selection) (retention : ℤ)
    (backstop : Option ℕ) (replies : ℕ → Reply) :
    let lost := lostRows db redis bindings selection retention
    let ready := redis.ensureGroups bindings selection.streams
    let ran := runReplay db redis bindings selection retention backstop replies
    (Exceeds redis backstop lost → ran = ⟨ready, true, [], [], 0, false⟩) ∧
    (¬Exceeds redis backstop lost → ran.refused = false ∧ ran.added <+: sent lost ∧
      (ran.failed = false → ran.added = sent lost) ∧ Extended ready ran.redis ran.added) := by
  intro lost ready ran
  have hp : toReplay (buildPlan db ready bindings selection retention) =
      lost.map (judged db ready bindings selection retention) := by
    rw [toReplay_buildPlan, lostRows_ensureGroups]
  have ho := overBackstop_map_iff ready backstop lost
    (f := judged db ready bindings selection retention) fun _ => rfl
  rw [exceeds_ensureGroups] at ho
  constructor
  · intro hexceeds
    simp only [ran, runReplay]
    rw [hp, if_pos (ho.mpr hexceeds)]
  · intro hf
    have hr : ∀ row ∈ lost, row ∈ db.outbox := by
      intro row hrow
      exact (mem_selectRows.mp (mem_of_mem_filter hrow)).1
    have hran : ran = publishRows backstop replies
        ((sent lost).map fun pair => (pair.1, some pair.2)) 0 ready := by
      simp only [ran, runReplay]
      rw [hp, if_neg (fun h => hf (ho.mp h)),
        resolved_map hr (fun _ => rfl) fun _ => rfl]
    rw [hran]
    exact publishRows_spec backstop replies (sent lost) 0 ready
      (room_of_not_exceeds fun h => hf ((exceeds_ensureGroups _ _).mp h))

theorem mem_lostRows :
    row ∈ lostRows db redis bindings selection retention ↔
      row ∈ db.selectRows selection retention ∧ Lost db redis bindings retention row := by
  classical
  rw [lostRows, mem_filter, decide_eq_true_iff]

theorem mem_outbox_of_mem_lostRows (hrow : row ∈ lostRows db redis bindings selection retention) :
    row ∈ db.outbox :=
  (mem_selectRows.mp (mem_lostRows.mp hrow).1).1

/-- After publications the same rows are lost but for the published ones. -/
theorem lost_extended_iff {ready after : Redis P} {taken : List (OutboxRow P)}
    (hextended : Extended ready after (sent taken)) (ht : ∀ other ∈ taken, other ∈ db.outbox)
    (hg : ∀ b ∈ bindings, b.stream = row.stream →
      ∃ g, (b.group, g) ∈ ready.groupsOf b.stream) (hrow : row ∈ db.outbox) :
    Lost db after bindings retention row ↔ Lost db ready bindings retention row ∧ row ∉ taken := by
  have hsa : ∀ key payload, (key, payload) ∈ sent taken → envelopeId payload = some row.id →
      key = row.stream ∧ row ∈ taken := by
    intro key payload hp he
    obtain ⟨other, ho, heq⟩ := mem_map.mp hp
    obtain ⟨rfl, rfl⟩ := Prod.mk.inj heq
    have hid := (db.stamped other (ht other ho)).symm.trans he
    obtain rfl := inj_on_of_nodup_map db.ids_nodup (ht other ho) hrow
      (Option.some.inj hid)
    exact ⟨rfl, ho⟩
  rw [Lost, Lost, hextended.deadLettered_iff]
  constructor
  · rintro ⟨⟨group, hr, hun, hu⟩, hd, hh⟩
    rw [hextended.owedTo_iff, not_or] at hu
    rw [not_or] at hd
    refine ⟨⟨⟨group, hr, hun, hu.1⟩, hd.1, hh⟩, fun hmem => hu.2 ?_⟩
    obtain ⟨b, hb, rfl⟩ := mem_map.mp (mem_toFinset.mp hr)
    obtain ⟨hb, hre⟩ := mem_filter.mp hb
    have hs : b.stream = row.stream := (of_decide_eq_true hre).1
    refine ⟨hs ▸ hg b hb hs, row.payload, ?_, db.stamped row hrow⟩
    exact mem_map.mpr ⟨row, hmem, rfl⟩
  · rintro ⟨⟨⟨group, hr, hun, hu⟩, hd, hh⟩, hmem⟩
    refine ⟨⟨group, hr, hun, ?_⟩, ?_, hh⟩
    · rw [hextended.owedTo_iff, not_or]
      refine ⟨hu, ?_⟩
      rintro ⟨-, payload, hp, he⟩
      exact hmem (hsa _ payload hp he).2
    · rw [not_or]
      refine ⟨hd, ?_⟩
      rintro ⟨payload, hp, he⟩
      exact hmem (hsa _ payload hp he).2

theorem filter_not_mem_take {α : Type*} {l : List α} (hl : l.Nodup) (k : ℕ) (p : α → Bool)
    (hp : ∀ a ∈ l, p a = true ↔ a ∉ l.take k) : l.filter p = l.drop k := by
  have hn : (l.take k ++ l.drop k).Nodup := (take_append_drop k l).symm ▸ hl
  calc l.filter p = (l.take k).filter p ++ (l.drop k).filter p := by
        rw [← filter_append, take_append_drop]
    _ = [] ++ l.drop k := by
        congr 1
        · rw [filter_eq_nil_iff]
          intro a ha
          rw [hp a (mem_of_mem_take ha), not_not]
          exact ha
        · rw [filter_eq_self]
          intro a ha
          rw [hp a (mem_of_mem_drop ha)]
          exact fun ht => disjoint_of_nodup_append hn ht ha
    _ = l.drop k := nil_append _

theorem lostRows_runReplay {replies : ℕ → Reply}
    (hf : ¬Exceeds redis backstop (lostRows db redis bindings selection retention)) :
    let ran := runReplay db redis bindings selection retention backstop replies
    lostRows db ran.redis bindings selection retention =
      (lostRows db redis bindings selection retention).drop ran.added.length := by
  classical
  intro ran
  obtain ⟨-, hi, -, hextended⟩ :=
    (runReplay_spec db redis bindings selection retention backstop replies).2 hf
  have ht : ran.added =
      sent ((lostRows db redis bindings selection retention).take ran.added.length) := by
    rw [sent, map_take]
    exact prefix_iff_eq_take.mp hi
  have hn : (lostRows db redis bindings selection retention).Nodup :=
    (List.Nodup.of_map _ nodup_selectRows).filter _
  have hiff : ∀ row ∈ db.selectRows selection retention, Lost db ran.redis bindings retention row ↔
      Lost db redis bindings retention row ∧
        row ∉ (lostRows db redis bindings selection retention).take ran.added.length := by
    intro row hrow
    rw [ht] at hextended
    obtain ⟨hin, hr⟩ := mem_selectRows.mp hrow
    rw [lost_extended_iff hextended
      (fun other ho => mem_outbox_of_mem_lostRows (mem_of_mem_take ho)) ?_ hin,
      lost_ensureGroups]
    intro b hb hst
    apply (Redis.ensureGroups_spec envelopeId redis bindings selection.streams).2.2 b hb
    rw [hst]
    exact (Bool.and_eq_true_iff.mp hr).2
  rw [← filter_not_mem_take hn ran.added.length
    (fun row => decide (Lost db ran.redis bindings retention row))]
  · rw [lostRows, lostRows, filter_filter]
    apply filter_congr
    intro row hrow
    rw [Bool.eq_iff_iff, Bool.and_eq_true_iff, decide_eq_true_iff, decide_eq_true_iff]
    exact ⟨fun h => ⟨h, ((hiff row hrow).mp h).1⟩, And.left⟩
  · intro row hrow
    obtain ⟨hs, hl⟩ := mem_lostRows.mp hrow
    rw [decide_eq_true_iff, hiff row hs, and_iff_right hl]

/-- Between two states of Redis no group moved and no entry was taken off. -/
structure Quiet (redis redis' : Redis P) : Prop where
  groups : ∀ key, ∀ group ∈ redis.groupsOf key, group ∈ redis'.groupsOf key
  entries : ∀ key, ∀ entry ∈ redis.entriesOf key, entry ∈ redis'.entriesOf key

structure Later (db db' : Database P envelopeId) : Prop where
  outbox : db'.outbox = db.outbox
  processedEvents : db'.processedEvents = db.processedEvents
  now : db.now ≤ db'.now

theorem lost_of_later {db' : Database P envelopeId} {redis' : Redis P} (hla : Later db db')
    (hq : Quiet redis redis') (hlo : Lost db' redis' bindings retention row) :
    Lost db redis bindings retention row := by
  obtain ⟨⟨group, hr, hu, hun⟩, hd, hh⟩ := hlo
  rw [hla.processedEvents] at hu
  refine ⟨⟨group, hr, hu, fun ho => hun ?_⟩, fun hl => hd ?_, ?_⟩
  · rw [Redis.owedTo_iff] at ho ⊢
    obtain ⟨g, hg, entry, he, how⟩ := ho
    exact ⟨g, hq.groups _ _ hg, entry, hq.entries _ _ he, how⟩
  · obtain ⟨entry, he, hev⟩ := hl
    exact ⟨entry, hq.entries _ _ he, hev⟩
  · have hnow := hla.now
    rw [Database.horizon] at hh ⊢
    omega

theorem mem_sent_of_mem_added {replies : ℕ → Reply} {pair : String × P}
    (hp : pair ∈ (runReplay db redis bindings selection retention backstop replies).added) :
    ∃ row ∈ lostRows db redis bindings selection retention, pair = (row.stream, row.payload) := by
  obtain ⟨ho, hf⟩ := runReplay_spec db redis bindings selection retention backstop replies
  by_cases hexceeds : Exceeds redis backstop (lostRows db redis bindings selection retention)
  · rw [ho hexceeds] at hp
    cases hp
  · obtain ⟨row, hrow, rfl⟩ := mem_map.mp ((hf hexceeds).2.1.subset hp)
    exact ⟨row, hrow, rfl⟩

theorem not_exceeds_runReplay (replies : ℕ → Reply)
    (hf : ¬Exceeds redis backstop (lostRows db redis bindings selection retention)) :
    let ran := runReplay db redis bindings selection retention backstop replies
    ¬Exceeds ran.redis backstop
      ((lostRows db redis bindings selection retention).drop ran.added.length) := by
  intro ran
  obtain ⟨-, hi, -, hextended⟩ :=
    (runReplay_spec db redis bindings selection retention backstop replies).2 hf
  rintro ⟨limit, hl, row, hrow, hlt⟩
  refine hf ((exceeds_ensureGroups bindings selection.streams).mp
    ⟨limit, hl, row, mem_of_mem_drop hrow, lt_of_lt_of_le hlt ?_⟩)
  have ha : (ran.added.filter (·.1 = row.stream)).length =
      (((lostRows db redis bindings selection retention).take ran.added.length).filter
        (·.stream = row.stream)).length := by
    conv_lhs => rw [prefix_iff_eq_take.mp hi, sent, ← map_take, filter_map,
      length_map]
    rfl
  have hs : ((lostRows db redis bindings selection retention).filter
      (·.stream = row.stream)).length =
      (((lostRows db redis bindings selection retention).take ran.added.length).filter
        (·.stream = row.stream)).length +
      (((lostRows db redis bindings selection retention).drop ran.added.length).filter
        (·.stream = row.stream)).length := by
    rw [← length_append, ← filter_append, take_append_drop]
  rw [hextended.xlen_eq, ha, hs, Nat.add_assoc]

/-- A run refuses exactly when the lost rows of its range do not fit and then publishes nothing;
otherwise it publishes them in the relay's order up to its first failure. Another run publishes
exactly what the first one left; later, with no group moved and no entry taken off, it publishes
nothing of the first one's range that the first one did not leave. -/
theorem replay_publishes_the_lost_rows (db : Database P envelopeId) (redis : Redis P)
    (bindings : List ConsumerBinding) (selection : Selection) (retention : ℤ)
    (backstop : Option ℕ) (replies : ℕ → Reply) :
    let lost := lostRows db redis bindings selection retention
    let first := runReplay db redis bindings selection retention backstop replies
    lost.Pairwise before ∧
    (first.refused = true ↔ Exceeds redis backstop lost) ∧
    (first.refused = true →
      first.added = [] ∧ ∀ key, first.redis.entriesOf key = redis.entriesOf key) ∧
    (first.refused = false → first.added <+: sent lost ∧
      (first.failed = false → first.added = sent lost) ∧
      (∀ key, ∃ new, first.redis.entriesOf key = redis.entriesOf key ++ new ∧
        new.map Entry.ce = (first.added.filter (·.1 = key)).map (some ·.2)) ∧
      ∀ replies',
        let second := runReplay db first.redis bindings selection retention backstop replies'
        second.refused = false ∧ second.added <+: sent (lost.drop first.added.length) ∧
          (second.failed = false → second.added = sent (lost.drop first.added.length))) ∧
    ∀ (db' : Database P envelopeId) (redis' : Redis P) (backstop' : Option ℕ)
      (replies' : ℕ → Reply), Later db db' → Quiet first.redis redis' →
      ∀ pair ∈ (runReplay db' redis' bindings selection retention backstop' replies').added,
        ∃ row ∈ db.outbox, pair = (row.stream, row.payload) ∧
          (row ∉ db.selectRows selection retention ∨ row ∈ lost.drop first.added.length) := by
  intro lost first
  obtain ⟨ho, hf⟩ := runReplay_spec db redis bindings selection retention backstop replies
  have he := (Redis.ensureGroups_spec envelopeId redis bindings selection.streams).1
  have hre : first.refused = true ↔ Exceeds redis backstop lost := by
    by_cases hexceeds : Exceeds redis backstop lost
    · simp [first, ho hexceeds, hexceeds]
    · simp [first, (hf hexceeds).1, hexceeds]
  have hle : lostRows db first.redis bindings selection retention =
      lost.drop first.added.length := by
    by_cases hexceeds : Exceeds redis backstop lost
    · simp only [first, ho hexceeds]
      rw [lostRows_ensureGroups]
      rfl
    · exact lostRows_runReplay hexceeds
  refine ⟨sorted_selectRows.filter _, hre, ?_, ?_, ?_⟩
  · intro hyes
    simp only [first, ho (hre.mp hyes)]
    exact ⟨trivial, he⟩
  · intro hno
    have hexceeds : ¬Exceeds redis backstop lost := by
      rw [← hre, hno]
      simp
    obtain ⟨-, hin, hall, hextended⟩ := hf hexceeds
    refine ⟨hin, hall, fun key => ?_, fun replies' => ?_⟩
    · obtain ⟨new, hnew, hce, -⟩ := hextended.entries key
      exact ⟨new, he key ▸ hnew, hce⟩
    · have hn : ¬Exceeds first.redis backstop (lost.drop first.added.length) :=
        not_exceeds_runReplay replies hexceeds
      rw [← hle] at hn ⊢
      obtain ⟨hr, hi, ha, -⟩ :=
        (runReplay_spec db first.redis bindings selection retention backstop replies').2 hn
      exact ⟨hr, hi, ha⟩
  · intro db' redis' backstop' replies' hl hq pair hp
    obtain ⟨row, hrow, rfl⟩ := mem_sent_of_mem_added hp
    refine ⟨row, hl.outbox ▸ mem_outbox_of_mem_lostRows hrow, rfl, ?_⟩
    by_cases hs : row ∈ db.selectRows selection retention
    · rw [← hle]
      exact .inr (mem_lostRows.mpr
        ⟨hs, lost_of_later hl hq (mem_lostRows.mp hrow).2⟩)
    · exact .inl hs

def emptied : Database String some where
  now := 100
  outbox := [⟨"a", none, "jobs", "made", 10, some 11, "a"⟩,
    ⟨"b", none, "jobs", "made", 12, some 13, "b"⟩]
  processedEvents := []
  ids_nodup := by decide
  stamped := by
    intro row hrow
    rcases List.mem_cons.mp hrow with rfl | hrow
    · rfl
    · rw [List.mem_singleton.mp hrow]

/-- A run that stops at its second publication leaves a row, and the next run publishes it. -/
theorem a_stopped_replay_is_continued :
    let run := fun (redis : Redis String) (replies : ℕ → Reply) =>
      runReplay emptied redis [⟨"jobs", "workers", ["made"]⟩] ⟨none, none, none, []⟩ 1000 none
        replies
    let first := run (fun _ => none) fun n => ⟨50, 0, if n = 0 then .added else .refused⟩
    first.refused = false ∧ first.failed = true ∧ first.added = [("jobs", "a")] ∧
      (run first.redis fun _ => ⟨60, 0, .added⟩).added = [("jobs", "b")] := by
  decide +kernel

end Aizzak.OutboxReplay
