import Aizzak.EventRuns
import Aizzak.KeyedTables
import Aizzak.RedisStreams

/-!
The sweep of stale consumers and the deregistration of a worker's own name, beside workers that
read, acknowledge and claim. Every command is one round trip, and the commands of all of them
interleave. Deleting a consumer drops the rows it owns, so the deletion rests on an observation of
an earlier command: the listing that showed the consumer without a pending entry, or the one after
the claim.
-/
namespace Aizzak.ConsumerSweeper

open EventRuns KeyedTables RedisStreams Option

abbrev Pair := String × String

structure Group where
  consumers : AList fun _ : String => ℕ
  rows : List (PendingRow StreamId String)
  lastDelivered : StreamId

structure ConsumerInfo where
  name : String
  pending : ℕ
  idleMs : ℕ

inductive Kind where
  | sweep (live : String) (minIdleMs : ℕ)
  | deregister (name : String)

inductive Control where
  | list
  | reclaim (name live : String) (minIdleMs : ℕ) (cursor : Option StreamId) (batches : ℕ)
  | check (name : String)
  | delete (name : String)

structure Task where
  kind : Kind
  pair : Pair
  rest : List Pair
  infos : List ConsumerInfo
  control : Control

structure State where
  now : ℕ
  streams : String → List StreamId
  groups : Pair → Group
  tasks : AList fun _ : ℕ => Task

def State.init : State := ⟨0, fun _ => [], fun _ => ⟨∅, [], toLex (0, 0)⟩, ∅⟩

namespace Group

def seen (g : Group) (name : String) (now : ℕ) : Group :=
  { g with consumers := g.consumers.insert name now }

def newEntries (g : Group) (entries : List StreamId) (count : ℕ) : List StreamId :=
  (entries.filter (g.lastDelivered < ·)).take count

def readNew (g : Group) (entries : List StreamId) (name : String) (count now : ℕ) : Group :=
  let fresh := g.newEntries entries count
  { g.seen name now with
    rows := deliverNew g.rows name fresh now
    lastDelivered := fresh.getLast?.getD g.lastDelivered }

def readAgain (g : Group) (name : String) (count now : ℕ) : Group :=
  { g.seen name now with rows := readHistory g.rows name count now }

def xack (g : Group) (id : StreamId) : Group := { g with rows := ack g.rows id }

def xautoclaim (g : Group) (name : String) (minIdleMs : ℕ) (start : Option StreamId)
    (count now : ℕ) : Group :=
  { g.seen name now with
    rows := claim g.rows name (autoclaim g.rows minIdleMs now start count).1 now }

def deleteConsumer (g : Group) (name : String) : Group :=
  { g with consumers := g.consumers.erase name, rows := removeConsumer g.rows name }

def listConsumers (g : Group) (now : ℕ) : List ConsumerInfo :=
  (g.consumers.keys.insertionSort (· ≤ ·)).map fun name =>
    ⟨name, (owned g.rows name).length, now - (g.consumers.lookup name).getD now⟩

def pendingOf (g : Group) (now : ℕ) (name : String) : ℕ :=
  (((g.listConsumers now).find? (·.name = name)).map ConsumerInfo.pending).getD 0

end Group

def State.setGroup (s : State) (pair : Pair) (g : Group) : State :=
  { s with groups := Function.update s.groups pair g }

def reclaimCount : ℕ := 100

def maxBatches : ℕ := 100

namespace Task

def firstControl : Kind → Control
  | .sweep _ _ => .list
  | .deregister name => .check name

def start (kind : Kind) (pairs : List Pair) : Option Task :=
  match pairs.eraseDups with
  | [] => none
  | pair :: rest => some ⟨kind, pair, rest, [], firstControl kind⟩

def nextPair (task : Task) : Option Task :=
  match task.rest with
  | [] => none
  | pair :: rest => some ⟨task.kind, pair, rest, [], firstControl task.kind⟩

def next (task : Task) : Option Task :=
  match task.kind with
  | .deregister _ => task.nextPair
  | .sweep live minIdleMs =>
    match task.infos.dropWhile fun info => info.name = live ∨ info.idleMs < minIdleMs with
    | [] => task.nextPair
    | info :: infos =>
      some { task with
        infos := infos
        control :=
          if info.pending = 0 then .delete info.name
          else .reclaim info.name live minIdleMs none maxBatches }

def reply (task : Task) (g : Group) (now : ℕ) : Option Task :=
  match task.control with
  | .list => { task with infos := g.listConsumers now }.next
  | .reclaim name live minIdleMs cursor batches =>
    -- the library answers the ids alone, and the first of them is read as the cursor
    let claimed := (autoclaim g.rows minIdleMs now cursor reclaimCount).1
    some { task with
      control :=
        if claimed.length ≤ 1 ∨ batches ≤ 1 then .check name
        else .reclaim name live minIdleMs claimed.head? (batches - 1) }
  | .check name =>
    if g.pendingOf now name = 0 then some { task with control := .delete name } else task.next
  | .delete _ => task.next

def effect (task : Task) (g : Group) (now : ℕ) : Group :=
  match task.control with
  | .list | .check _ => g
  | .reclaim _ live minIdleMs cursor _ => g.xautoclaim live minIdleMs cursor reclaimCount now
  | .delete name => g.deleteConsumer name

/-- The consumers of the present pair the task has seen without a pending entry and will delete
without another look. -/
def condemned (task : Task) : List String :=
  (match task.control with
    | .delete name => [name]
    | _ => []) ++
  match task.kind with
  | .sweep live minIdleMs =>
    (task.infos.filter fun info =>
      info.pending = 0 ∧ info.name ≠ live ∧ minIdleMs ≤ info.idleMs).map ConsumerInfo.name
  | .deregister _ => []

end Task

inductive Event where
  | tick (ms : ℕ)
  | publish (stream : String) (id : StreamId)
  | readNew (pair : Pair) (name : String) (count : ℕ)
  | readAgain (pair : Pair) (name : String) (count : ℕ)
  | ack (pair : Pair) (id : StreamId)
  | autoclaim (pair : Pair) (name : String) (minIdleMs : ℕ) (start : Option StreamId) (count : ℕ)
  | begin (id : ℕ) (kind : Kind) (pairs : List Pair)
  | proceed (id : ℕ)
  | fail (id : ℕ) (executed : Bool)

def State.execute (s : State) (task : Task) : State :=
  s.setGroup task.pair (task.effect (s.groups task.pair) s.now)

/-- One command of one party. A coroutine whose command raises is over, whether or not the
command was executed. -/
def step (s : State) : Event → Option State
  | .tick ms => some { s with now := s.now + ms }
  | .publish stream id =>
    if ∀ entry ∈ s.streams stream, entry < id then
      some { s with streams := Function.update s.streams stream (s.streams stream ++ [id]) }
    else none
  | .readNew pair name count =>
    some (s.setGroup pair ((s.groups pair).readNew (s.streams pair.1) name count s.now))
  | .readAgain pair name count =>
    some (s.setGroup pair ((s.groups pair).readAgain name count s.now))
  | .ack pair id => some (s.setGroup pair ((s.groups pair).xack id))
  | .autoclaim pair name minIdleMs start count =>
    some (s.setGroup pair ((s.groups pair).xautoclaim name minIdleMs start count s.now))
  | .begin id kind pairs =>
    if id ∈ s.tasks then none
    else
      match Task.start kind pairs with
      | none => some s
      | some task => some { s with tasks := s.tasks.insert id task }
  | .proceed id =>
    (s.tasks.lookup id).map fun task =>
      match task.reply (s.groups task.pair) s.now with
      | none => { s.execute task with tasks := s.tasks.erase id }
      | some next => { s.execute task with tasks := s.tasks.insert id next }
  | .fail id executed =>
    (s.tasks.lookup id).map fun task =>
      { (if executed then s.execute task else s) with tasks := s.tasks.erase id }

def Task.gives (task : Task) (g : Group) (now : ℕ) : Option String :=
  match task.control with
  | .reclaim _ live minIdleMs cursor _ =>
    if (RedisStreams.autoclaim g.rows minIdleMs now cursor reclaimCount).1 = [] then none
    else some live
  | _ => none

def Event.gives (s : State) : Event → Option (Pair × String)
  | .readNew pair name count =>
    (if (s.groups pair).newEntries (s.streams pair.1) count = [] then none
      else some name).map (pair, ·)
  | .autoclaim pair name minIdleMs start count =>
    (if (RedisStreams.autoclaim (s.groups pair).rows minIdleMs s.now start count).1 = [] then none
      else some name).map (pair, ·)
  | .proceed id | .fail id true =>
    (s.tasks.lookup id).bind fun task =>
      (task.gives (s.groups task.pair) s.now).map (task.pair, ·)
  | _ => none

/-- No consumer takes on an entry of a pair while a sweep or a deregistration has seen it there
without one and is going to delete it. -/
def Unhindered (s : State) (e : Event) : Prop :=
  ∀ taken ∈ e.gives s, ∀ entry ∈ s.tasks.entries,
    entry.2.pair = taken.1 → taken.2 ∉ entry.2.condemned

instance (s : State) (e : Event) : Decidable (Unhindered s e) :=
  inferInstanceAs (Decidable (∀ taken ∈ e.gives s, ∀ entry ∈ s.tasks.entries,
    entry.2.pair = taken.1 → taken.2 ∉ entry.2.condemned))

variable {s t : State} {e : Event} {g : Group} {task new : Task} {name : String} {now : ℕ}

namespace Task

theorem mem_condemned : name ∈ task.condemned ↔
    task.control = .delete name ∨ ∃ live minIdleMs, task.kind = .sweep live minIdleMs ∧
      ∃ info ∈ task.infos, info.name = name ∧ info.pending = 0 ∧ info.name ≠ live ∧
        minIdleMs ≤ info.idleMs := by
  rw [condemned, List.mem_append]
  apply or_congr
  · cases hc : task.control with
    | delete other => simp [eq_comm]
    | _ => simp
  · cases hk : task.kind with
    | sweep live minIdleMs =>
      simp only [List.mem_map, List.mem_filter, decide_eq_true_eq, Kind.sweep.injEq]
      constructor
      · rintro ⟨info, ⟨hmem, hi⟩, hn⟩
        exact ⟨live, minIdleMs, ⟨rfl, rfl⟩, info, hmem, hn, hi⟩
      · rintro ⟨_, _, ⟨rfl, rfl⟩, info, hmem, hn, hi⟩
        exact ⟨info, ⟨hmem, hi⟩, hn⟩
    | deregister => simp

theorem condemned_first (kind : Kind) (pair : Pair) (rest : List Pair) :
    condemned ⟨kind, pair, rest, [], firstControl kind⟩ = [] := by
  cases kind <;> rfl

theorem condemned_start {kind : Kind} {pairs : List Pair} (h : start kind pairs = some task) :
    task.condemned = [] := by
  rw [start] at h
  split at h
  · cases h
  · cases h
    exact condemned_first _ _ _

theorem notMem_condemned_nextPair (h : task.nextPair = some new) : name ∉ new.condemned := by
  rw [nextPair] at h
  split at h
  · cases h
  · cases h
    rw [condemned_first]
    exact List.not_mem_nil

/-- Going on condemns nobody who was not condemned before. -/
theorem mem_condemned_next (h : task.next = some new) (hn : name ∈ new.condemned) :
    new.pair = task.pair ∧ name ∈ task.condemned := by
  rw [next] at h
  split at h
  · exact absurd hn (notMem_condemned_nextPair h)
  · rename_i live minIdleMs hki
    have hst := List.head?_dropWhile_not
      (fun info : ConsumerInfo => decide (info.name = live ∨ info.idleMs < minIdleMs)) task.infos
    split at h
    · exact absurd hn (notMem_condemned_nextPair h)
    · rename_i info infos hi
      cases h
      have hs : info :: infos <:+ task.infos := hi ▸ List.dropWhile_suffix _
      simp only [hi, List.head?_cons, decide_eq_false_iff_not, not_or, not_lt] at hst
      refine ⟨rfl, mem_condemned.mpr (.inr ⟨live, minIdleMs, hki, ?_⟩)⟩
      rcases mem_condemned.mp hn with hc | ⟨_, _, hk, other, hmem, ho⟩
      · simp only at hc
        split_ifs at hc with hp
        rw [Control.delete.injEq] at hc
        exact ⟨info, hs.subset List.mem_cons_self, hc, hp, hst⟩
      · rw [hki, Kind.sweep.injEq] at hk
        obtain ⟨rfl, rfl⟩ := hk
        exact ⟨other, hs.subset (List.mem_cons_of_mem _ hmem), ho⟩

end Task

namespace Group

theorem notMem_owners_of_listed {info : ConsumerInfo} (hi : info ∈ g.listConsumers now)
    (hp : info.pending = 0) : info.name ∉ owners g.rows := by
  obtain ⟨listed, -, rfl⟩ := List.mem_map.mp hi
  exact owned_eq_nil_iff.mp (List.length_eq_zero_iff.mp hp)

theorem mem_listConsumers_name (hn : name ∈ g.consumers) (now : ℕ) :
    ∃ info ∈ g.listConsumers now, info.name = name := by
  refine ⟨_, List.mem_map.mpr ⟨name, ?_, rfl⟩, rfl⟩
  exact (List.mem_insertionSort _).mpr (AList.mem_keys.mp hn)

theorem notMem_owners_of_pendingOf (hr : ∀ c ∈ owners g.rows, c ∈ g.consumers)
    (hp : g.pendingOf now name = 0) : name ∉ owners g.rows := by
  intro ho
  obtain ⟨info, hi, hn⟩ := mem_listConsumers_name (hr name ho) now
  rw [pendingOf] at hp
  cases hfo : (g.listConsumers now).find? (·.name = name) with
  | none => exact absurd (decide_eq_true hn) (List.find?_eq_none.mp hfo info hi)
  | some found =>
    rw [hfo] at hp
    have hf : found.name = name := by simpa using List.find?_some hfo
    exact notMem_owners_of_listed (List.mem_of_find?_eq_some hfo) hp
      (hf ▸ ho)

end Group

structure Commanded (g g' : Group) (given : Option String) (acked : Option StreamId)
    (deleted : Option String) : Prop where
  owners : ∀ c ∈ owners g'.rows, c ∈ owners g.rows ∨ given = some c
  registered : (∀ c ∈ RedisStreams.owners g.rows, c ∈ g.consumers) →
    ∀ c ∈ RedisStreams.owners g'.rows, c ∈ g'.consumers
  ids : ∀ id ∈ ids g.rows, id ∈ ids g'.rows ∨ acked = some id ∨
    ∃ name, deleted = some name ∧ name ∈ RedisStreams.owners g.rows

namespace Commanded

theorem refl (g : Group) : Commanded g g none none none :=
  ⟨fun _ hc => .inl hc, fun h => h, fun _ hid => .inl hid⟩

theorem readNew (g : Group) (entries : List StreamId) (name : String) (count now : ℕ) :
    Commanded g (g.readNew entries name count now)
      (if g.newEntries entries count = [] then none else some name) none none := by
  have ho : ∀ c ∈ RedisStreams.owners (g.readNew entries name count now).rows,
      c ∈ RedisStreams.owners g.rows ∨ c = name ∧ g.newEntries entries count ≠ [] :=
    fun c hc => mem_owners_deliverNew hc
  refine ⟨fun c hc => ?_, fun h c hc => ?_, fun id hid => .inl ?_⟩
  · rcases ho c hc with hold | ⟨rfl, hne⟩
    · exact .inl hold
    · exact .inr (if_neg hne)
  · rcases ho c hc with hold | ⟨rfl, -⟩
    · exact (AList.mem_insert _).mpr (.inr (h c hold))
    · exact (AList.mem_insert _).mpr (.inl rfl)
  · rw [Group.readNew, ids_deliverNew]
    exact List.mem_append_left _ hid

theorem readAgain (g : Group) (name : String) (count now : ℕ) :
    Commanded g (g.readAgain name count now) none none none := by
  have ho : RedisStreams.owners (g.readAgain name count now).rows =
      RedisStreams.owners g.rows := owners_readHistory _ _ _ _
  refine ⟨fun c hc => .inl (ho ▸ hc), fun h c hc => ?_, fun id hid => .inl ?_⟩
  · exact (AList.mem_insert _).mpr (.inr (h c (ho ▸ hc)))
  · rwa [Group.readAgain, ids_readHistory]

theorem xack (g : Group) (id : StreamId) : Commanded g (g.xack id) none (some id) none := by
  refine ⟨fun c hc => .inl (mem_owners_ack hc), fun h c hc => h c (mem_owners_ack hc),
    fun i hi => ?_⟩
  by_cases heq : i = id
  · exact .inr (.inl (congrArg some heq.symm))
  · refine .inl ?_
    rw [Group.xack, ids_ack]
    exact List.mem_filter.mpr ⟨hi, by simpa using heq⟩

theorem xautoclaim (g : Group) (name : String) (minIdleMs : ℕ) (start : Option StreamId)
    (count now : ℕ) :
    Commanded g (g.xautoclaim name minIdleMs start count now)
      (if (autoclaim g.rows minIdleMs now start count).1 = [] then none else some name)
      none none := by
  have ho : ∀ c ∈ RedisStreams.owners (g.xautoclaim name minIdleMs start count now).rows,
      c ∈ RedisStreams.owners g.rows ∨
        c = name ∧ (autoclaim g.rows minIdleMs now start count).1 ≠ [] :=
    fun c hc => mem_owners_claim hc
  refine ⟨fun c hc => ?_, fun h c hc => ?_, fun id hid => .inl ?_⟩
  · rcases ho c hc with hold | ⟨rfl, hne⟩
    · exact .inl hold
    · exact .inr (if_neg hne)
  · rcases ho c hc with hold | ⟨rfl, -⟩
    · exact (AList.mem_insert _).mpr (.inr (h c hold))
    · exact (AList.mem_insert _).mpr (.inl rfl)
  · rwa [Group.xautoclaim, ids_claim]

theorem deleteConsumer (g : Group) (name : String) :
    Commanded g (g.deleteConsumer name) none none (some name) := by
  refine ⟨fun c hc => .inl (mem_owners_removeConsumer hc).1, fun h c hc => ?_, fun id hid => ?_⟩
  · obtain ⟨hmem, hne⟩ := mem_owners_removeConsumer hc
    exact AList.mem_erase.mpr ⟨hne, h c hmem⟩
  · rcases mem_ids_removeConsumer hid name with hk | ho
    · exact .inl hk
    · exact .inr (.inr ⟨name, rfl, ho⟩)

end Commanded

def Task.deletes (task : Task) : Option String :=
  match task.control with
  | .delete name => some name
  | _ => none

/-- A task's own command does to a group what it says it does. -/
theorem Task.effect_commanded (task : Task) (g : Group) (now : ℕ) :
    Commanded g (task.effect g now) (task.gives g now) none task.deletes := by
  cases hc : task.control with
  | list | check =>
    simp only [Task.effect, Task.gives, Task.deletes, hc]
    exact .refl g
  | reclaim name live minIdleMs cursor batches =>
    simp only [Task.effect, Task.gives, Task.deletes, hc]
    have hcl := Commanded.xautoclaim g live minIdleMs cursor reclaimCount now
    split_ifs at hcl ⊢
    · exact hcl
    · exact hcl
  | delete name =>
    simp only [Task.effect, Task.gives, Task.deletes, hc]
    exact .deleteConsumer g name

def Event.acked (pair : Pair) : Event → Option StreamId
  | .ack other id => if other = pair then some id else none
  | _ => none

def Event.deletes (s : State) (pair : Pair) : Event → Option String
  | .proceed id | .fail id true =>
    (s.tasks.lookup id).bind fun task => if task.pair = pair then task.deletes else none
  | _ => none

theorem Event.deletes_eq_some {pair : Pair} (h : e.deletes s pair = some name) :
    ∃ id task, s.tasks.lookup id = some task ∧ task.pair = pair ∧
      task.control = .delete name := by
  have ht : ∀ id, ((s.tasks.lookup id).bind fun task =>
      if task.pair = pair then task.deletes else none) = some name →
      ∃ id task, s.tasks.lookup id = some task ∧ task.pair = pair ∧
        task.control = .delete name := by
    intro id h
    obtain ⟨task, ht, h⟩ := bind_eq_some_iff.mp h
    split_ifs at h with hp
    refine ⟨id, task, ht, hp, ?_⟩
    rw [Task.deletes] at h
    split at h
    · rename_i hc
      rw [hc, some.inj h]
    · cases h
  cases e with
  | proceed id => exact ht id h
  | fail id executed =>
    cases executed with
    | false => cases h
    | true => exact ht id h
  | _ => cases h

def Event.givesIn (s : State) (pair : Pair) (e : Event) : Option String :=
  ((e.gives s).filter (·.1 = pair)).map Prod.snd

theorem Event.gives_of_givesIn {pair : Pair} (h : e.givesIn s pair = some name) :
    e.gives s = some (pair, name) := by
  obtain ⟨taken, ht, rfl⟩ := map_eq_some_iff.mp h
  obtain ⟨hg, hp⟩ := filter_eq_some_iff.mp ht
  obtain rfl : taken.1 = pair := by simpa using hp
  exact hg

theorem Event.givesIn_eq {other : Pair} {given : Option String}
    (h : e.gives s = given.map (other, ·)) (pair : Pair) :
    e.givesIn s pair = if other = pair then given else none := by
  rw [Event.givesIn, h]
  cases given with
  | none => simp
  | some name =>
    by_cases heq : other = pair
    · simp [heq, Option.filter]
    · simp [heq, Option.filter]

theorem Commanded.setGroup {pair : Pair} {g' : Group} {given : Option String}
    {acked : Option StreamId} {deleted : Option String}
    (h : Commanded (s.groups pair) g' given acked deleted) (other : Pair) :
    Commanded (s.groups other) ((s.setGroup pair g').groups other)
      (if pair = other then given else none) (if pair = other then acked else none)
      (if pair = other then deleted else none) := by
  by_cases heq : pair = other
  · subst heq
    simpa [State.setGroup] using h
  · simp only [State.setGroup, Function.update_of_ne (Ne.symm heq), if_neg heq]
    exact .refl _

/-- Every step is a command in each group. -/
theorem step_commanded (ht : step s e = some t) (pair : Pair) :
    Commanded (s.groups pair) (t.groups pair) (e.givesIn s pair) (e.acked pair)
      (e.deletes s pair) := by
  cases e with
  | tick ms =>
    cases ht
    exact .refl _
  | publish stream id =>
    simp only [step] at ht
    split_ifs at ht
    cases ht
    exact .refl _
  | readNew other name count =>
    cases ht
    have h := (Commanded.readNew (s.groups other) (s.streams other.1) name count
      s.now).setGroup pair
    rw [Event.givesIn_eq rfl]
    simp only [ite_self] at h
    exact h
  | readAgain other name count =>
    cases ht
    have h := (Commanded.readAgain (s.groups other) name count s.now).setGroup pair
    simp only [ite_self] at h
    exact h
  | ack other id =>
    cases ht
    have h := (Commanded.xack (s.groups other) id).setGroup pair
    simp only [ite_self] at h
    exact h
  | autoclaim other name minIdleMs start count =>
    cases ht
    have h := (Commanded.xautoclaim (s.groups other) name minIdleMs start count
      s.now).setGroup pair
    rw [Event.givesIn_eq rfl]
    simp only [ite_self] at h
    exact h
  | begin id kind pairs =>
    simp only [step] at ht
    split_ifs at ht
    split at ht
    · cases ht
      exact .refl _
    · cases ht
      exact .refl _
  | proceed id =>
    obtain ⟨task, hta, rfl⟩ := map_eq_some_iff.mp ht
    have h := (task.effect_commanded (s.groups task.pair) s.now).setGroup pair
    have hg : (Event.proceed id).gives s =
        (task.gives (s.groups task.pair) s.now).map (task.pair, ·) := by
      rw [Event.gives, hta, bind_some]
    rw [Event.givesIn_eq hg, Event.deletes, hta, bind_some]
    simp only [ite_self] at h
    split
    · exact h
    · exact h
  | fail id executed =>
    obtain ⟨task, hta, rfl⟩ := map_eq_some_iff.mp ht
    cases executed with
    | false => exact .refl _
    | true =>
      have h := (task.effect_commanded (s.groups task.pair) s.now).setGroup pair
      have hg : (Event.fail id true).gives s =
          (task.gives (s.groups task.pair) s.now).map (task.pair, ·) := by
        rw [Event.gives, hta, bind_some]
      rw [Event.givesIn_eq hg, Event.deletes, hta, bind_some]
      simp only [ite_self] at h
      exact h

/-- Every owner of a row is registered, and whoever is to be deleted owns none. -/
structure Spared (s : State) : Prop where
  registered : ∀ pair, ∀ c ∈ owners (s.groups pair).rows, c ∈ (s.groups pair).consumers
  empty : ∀ id task, s.tasks.lookup id = some task →
    ∀ c ∈ task.condemned, c ∉ owners (s.groups task.pair).rows

theorem Spared.init : Spared State.init := by
  refine ⟨fun pair c hc => ?_, fun id task ht => ?_⟩
  · simp [State.init, owners] at hc
  · simp [State.init] at ht

/-- Whom a task condemns after a reply owned nothing when the command was executed, and was
condemned before if the command hands entries to anybody. -/
theorem Task.reply_condemned (hr : ∀ c ∈ owners g.rows, c ∈ g.consumers)
    (he : ∀ c ∈ task.condemned, c ∉ owners g.rows) (h : task.reply g now = some new)
    (hn : name ∈ new.condemned) :
    new.pair = task.pair ∧ name ∉ owners g.rows ∧
      (name ∈ task.condemned ∨ task.gives g now = none) := by
  cases hc : task.control with
  | list =>
    simp only [Task.reply, hc] at h
    obtain ⟨hpa, hmem⟩ := Task.mem_condemned_next h hn
    refine ⟨hpa, ?_, .inr (by rw [Task.gives, hc])⟩
    rcases Task.mem_condemned.mp hmem with hd | ⟨_, _, -, info, hin, rfl, hp, -⟩
    · cases hd
    · exact Group.notMem_owners_of_listed hin hp
  | reclaim other live minIdleMs cursor batches =>
    simp only [Task.reply, hc] at h
    cases h
    have hold : name ∈ task.condemned := by
      rcases Task.mem_condemned.mp hn with hd | hi
      · simp only at hd
        split_ifs at hd
      · exact Task.mem_condemned.mpr (.inr hi)
    exact ⟨rfl, he name hold, .inl hold⟩
  | check other =>
    simp only [Task.reply, hc] at h
    split_ifs at h with hp
    · cases h
      refine ⟨rfl, ?_, .inr (by rw [Task.gives, hc])⟩
      rcases Task.mem_condemned.mp hn with hd | hi
      · obtain rfl := Control.delete.inj hd
        exact Group.notMem_owners_of_pendingOf hr hp
      · exact he name (Task.mem_condemned.mpr (.inr hi))
    · obtain ⟨hpa, hold⟩ := Task.mem_condemned_next h hn
      exact ⟨hpa, he name hold, .inl hold⟩
  | delete other =>
    simp only [Task.reply, hc] at h
    obtain ⟨hpa, hold⟩ := Task.mem_condemned_next h hn
    exact ⟨hpa, he name hold, .inl hold⟩

/-- Only a reply puts a consumer on a task's list. -/
theorem step_tasks (ht : step s e = some t) {id : ℕ} (hnew : t.tasks.lookup id = some new) :
    s.tasks.lookup id = some new ∨ new.condemned = [] ∨
      ∃ task, e = .proceed id ∧ s.tasks.lookup id = some task ∧
        task.reply (s.groups task.pair) s.now = some new := by
  cases e with
  | tick | readNew | readAgain | ack | autoclaim =>
    cases ht
    exact .inl hnew
  | publish stream entry =>
    simp only [step] at ht
    split_ifs at ht
    cases ht
    exact .inl hnew
  | begin i kind pairs =>
    simp only [step] at ht
    split_ifs at ht
    split at ht
    · cases ht
      exact .inl hnew
    · rename_i task hs
      cases ht
      rcases lookup_insert_iff.mp hnew with ⟨-, rfl⟩ | ⟨-, hold⟩
      · exact .inr (.inl (Task.condemned_start hs))
      · exact .inl hold
  | proceed i =>
    obtain ⟨task, hta, rfl⟩ := map_eq_some_iff.mp ht
    split at hnew
    · exact .inl (lookup_erase_iff.mp hnew).2
    · rename_i next hr
      rcases lookup_insert_iff.mp hnew with ⟨rfl, rfl⟩ | ⟨-, hold⟩
      · exact .inr (.inr ⟨task, rfl, hta, hr⟩)
      · exact .inl hold
  | fail i executed =>
    obtain ⟨task, hta, rfl⟩ := map_eq_some_iff.mp ht
    exact .inl (lookup_erase_iff.mp hnew).2

/-- No row loses its owner while nobody hands entries to the condemned. -/
theorem step_spared (h : Spared s) (hok : Unhindered s e) (ht : step s e = some t) :
    Spared t := by
  have hco := step_commanded ht
  refine ⟨fun pair => (hco pair).registered (h.registered pair), fun id new hnew c hc => ?_⟩
  have hgi : ∀ i task, s.tasks.lookup i = some task → c ∈ task.condemned →
      e.givesIn s task.pair ≠ some c := by
    intro i task hta hcn hg
    exact hok _ (Event.gives_of_givesIn hg) ⟨i, task⟩ (AList.mem_lookup_iff.mp hta) rfl
      hcn
  intro ho
  rcases step_tasks ht hnew with hs | hno | ⟨task, rfl, hta, hr⟩
  · rcases (hco new.pair).owners c ho with hold | hg
    · exact h.empty id new hs c hc hold
    · exact hgi id new hs hc hg
  · rw [hno] at hc
    cases hc
  · obtain ⟨hp, hn, hwas⟩ := Task.reply_condemned (h.registered task.pair)
      (h.empty id task hta) hr hc
    rw [hp] at ho
    rcases (hco task.pair).owners c ho with hold | hg
    · exact hn hold
    · rcases hwas with hcn | hno
      · exact hgi id task hta hcn hg
      · have hgives' := Event.gives_of_givesIn hg
        rw [Event.gives, hta, bind_some, hno] at hgives'
        cases hgives'

theorem run_spared {es : List Event} (hok : Guarded step Unhindered State.init es)
    (hrun : run step State.init es = some s) : Spared s :=
  run_invariant (fun _ _ _ h hok ht => step_spared h hok ht) hok hrun .init

/-- In every run in which no consumer takes on an entry while it is about to be deleted, whatever
the sweeps, the deregistrations and the workers do, a pending entry of a group goes by its
acknowledgement alone. -/
theorem pending_entries_leave_by_ack {es : List Event} {id : StreamId} {pair : Pair}
    (hok : Guarded step Unhindered State.init es) (hrun : run step State.init es = some s)
    (ht : step s e = some t) (hpending : id ∈ ids (s.groups pair).rows)
    (hgone : id ∉ ids (t.groups pair).rows) : e = .ack pair id := by
  have hs := run_spared hok hrun
  rcases (step_commanded ht pair).ids id hpending with hk | ha | ⟨name, hd, ho⟩
  · exact absurd hk hgone
  · cases e with
    | ack other i =>
      simp only [Event.acked] at ha
      split_ifs at ha with hp
      rw [hp, some.inj ha]
    | _ => cases ha
  · obtain ⟨i, task, hta, hp, hde⟩ := Event.deletes_eq_some hd
    refine absurd ho (hp ▸ hs.empty i task hta name ?_)
    exact Task.mem_condemned.mpr (.inl hde)

def sweptWorker : List Event :=
  [.publish "documents" (toLex (1, 0)), .publish "documents" (toLex (2, 0)),
    .readNew ("documents", "ingestion") "first" 1, .tick 900000,
    .readNew ("documents", "ingestion") "second" 1,
    .begin 0 (.sweep "second" 900000) [("documents", "ingestion")], .proceed 0, .proceed 0,
    .proceed 0, .proceed 0]

theorem swept_worker_leaves_its_entry :
    ∃ s t, run step State.init sweptWorker = some s ∧
      step s (.ack ("documents", "ingestion") (toLex (1, 0))) = some t ∧
      "first" ∉ (s.groups ("documents", "ingestion")).consumers ∧
      ∀ id, id ∈ ids (s.groups ("documents", "ingestion")).rows →
        id ∉ ids (t.groups ("documents", "ingestion")).rows →
        Event.ack ("documents", "ingestion") (toLex (1, 0)) =
          .ack ("documents", "ingestion") id := by
  obtain ⟨s, hs, hg⟩ := exists_run_of_any
    (p := fun s : State => decide ("first" ∉ (s.groups ("documents", "ingestion")).consumers))
    (show (run step State.init sweptWorker).any _ = true by decide +kernel)
  have hok : Guarded step Unhindered State.init sweptWorker := by decide +kernel
  exact ⟨s, _, hs, rfl, of_decide_eq_true hg,
    fun id hid hg => pending_entries_leave_by_ack hok hs rfl hid hg⟩

def sweptReader : List Event :=
  [.publish "documents" (toLex (1, 0)), .readNew ("documents", "ingestion") "first" 10,
    .tick 900000, .ack ("documents", "ingestion") (toLex (1, 0)),
    .begin 0 (.sweep "second" 900000) [("documents", "ingestion")], .proceed 0,
    .publish "documents" (toLex (2, 0)), .readNew ("documents", "ingestion") "first" 10]

theorem entry_leaves_with_its_reader :
    ¬∀ (es : List Event) (s t : State) (e : Event) (pair : Pair) (id : StreamId),
      run step State.init es = some s → step s e = some t → id ∈ ids (s.groups pair).rows →
      id ∉ ids (t.groups pair).rows → e = .ack pair id := by
  intro hall
  obtain ⟨s, hs, hd⟩ := exists_run_of_any
    (p := fun s : State =>
      decide (toLex (2, 0) ∈ ids (s.groups ("documents", "ingestion")).rows) &&
      (step s (.proceed 0)).any fun t : State =>
        decide (toLex (2, 0) ∉ ids (t.groups ("documents", "ingestion")).rows))
    (show (run step State.init sweptReader).any _ = true by decide +kernel)
  obtain ⟨hp, hn⟩ := Bool.and_eq_true_iff.mp hd
  obtain ⟨t, ht, hg⟩ := (any_eq_true _ _).mp hn
  have hack := hall _ s t (.proceed 0) ("documents", "ingestion") (toLex (2, 0)) hs ht
    (of_decide_eq_true hp) (of_decide_eq_true hg)
  cases hack

end Aizzak.ConsumerSweeper
