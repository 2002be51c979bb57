import Aizzak.ConsumerSweeper
import Aizzak.FirstOccurrences

/-!
One logical read of a worker over the streams of a group: a read of the entries pending for the
worker, then, after whatever other parties do in between, a read of new ones. Each of the two
commands takes up to `count` entries from each stream. The workers pass the number of their lanes
as `count`, and the read holds no more entries than lanes exactly when the ones pending and the ones
coming fit together.
-/
namespace Aizzak.ConsumerReads

open EventRuns RedisStreams ConsumerSweeper

structure Message where
  stream : String
  entryId : StreamId
deriving DecidableEq

section Read

variable (group consumer : String) (streams : List String) (count : ℕ)

def readEach (command : State → Pair → Group) (s : State) : State :=
  streams.eraseDups.foldl (fun s stream => s.setGroup (stream, group) (command s (stream, group))) s

def again (s : State) (pair : Pair) : Group := (s.groups pair).readAgain consumer count s.now

def anew (s : State) (pair : Pair) : Group :=
  (s.groups pair).readNew (s.streams pair.1) consumer count s.now

def recovered (s : State) : List Message :=
  streams.eraseDups.flatMap fun stream =>
    (historyIds (s.groups (stream, group)).rows consumer count).map (Message.mk stream)

def fresh (s : State) : List Message :=
  streams.eraseDups.flatMap fun stream =>
    ((s.groups (stream, group)).newEntries (s.streams stream) count).map (Message.mk stream)

/-- `read`: the messages and the state after it. The events are those of other parties between the
two commands and while the second is blocked; `none` where they are no run. -/
def read (s : State) (between : List Event) : Option (List Message × State) :=
  (run step (readEach group streams (again consumer count) s) between).map fun answered =>
    (recovered group consumer streams count s ++ fresh group streams count answered,
      readEach group streams (anew consumer count) answered)

def held (s : State) : ℕ :=
  (streams.eraseDups.map fun stream =>
    (owned (s.groups (stream, group)).rows consumer).length).sum

end Read

def undelivered (s : State) (group stream : String) : ℕ :=
  ((s.streams stream).filter ((s.groups (stream, group)).lastDelivered < ·)).length

variable {s : State} {group consumer : String} {streams : List String} {count : ℕ}

/-- A command over several streams does to each group what it does to it alone, if it reads no
more of the state than that. -/
theorem groups_readEach {command : State → Pair → Group}
    (hl : ∀ s pair other g, other ≠ pair → command (s.setGroup other g) pair = command s pair)
    (stream : String) :
    (readEach group streams command s).groups (stream, group) =
      if stream ∈ streams.eraseDups then command s (stream, group)
      else s.groups (stream, group) := by
  have hn := FirstOccurrences.nodup_eraseDups streams
  rw [readEach]
  generalize streams.eraseDups = distinct at hn ⊢
  induction distinct generalizing s with
  | nil => simp
  | cons first rest ih =>
    obtain ⟨hf, hr⟩ := List.nodup_cons.mp hn
    rw [List.foldl_cons, ih hr]
    by_cases heq : stream = first
    · subst heq
      simp [hf, State.setGroup]
    · have hp : (first, group) ≠ (stream, group) := fun h => heq (Prod.mk.inj h).1.symm
      rw [hl _ _ _ _ hp]
      simp [heq, State.setGroup]

theorem anew_setGroup (s : State) (pair other : Pair) (g : Group) (h : other ≠ pair) :
    anew consumer count (s.setGroup other g) pair = anew consumer count s pair := by
  simp [anew, State.setGroup, Function.update_of_ne h.symm]

theorem length_newEntries (s : State) (group stream : String) (count : ℕ) :
    ((s.groups (stream, group)).newEntries (s.streams stream) count).length =
      min count (undelivered s group stream) := by
  rw [Group.newEntries, List.length_take, undelivered]

theorem length_historyIds (rows : List (PendingRow StreamId String)) (consumer : String)
    (count : ℕ) :
    (historyIds rows consumer count).length = min count (owned rows consumer).length := by
  rw [historyIds, ids, List.length_map, List.length_take]

theorem length_owned_readNew (g : Group) (entries : List StreamId) (consumer : String)
    (count now : ℕ) :
    (owned (g.readNew entries consumer count now).rows consumer).length =
      (owned g.rows consumer).length + (g.newEntries entries count).length := by
  have hall : owned ((g.newEntries entries count).map fun id =>
      (⟨id, consumer, now, 1⟩ : PendingRow StreamId String)) consumer =
      (g.newEntries entries count).map fun id => ⟨id, consumer, now, 1⟩ := by
    apply List.filter_eq_self.mpr
    intro row hrow
    obtain ⟨id, -, rfl⟩ := List.mem_map.mp hrow
    simp
  have hs : owned (g.readNew entries consumer count now).rows consumer =
      owned g.rows consumer ++ owned ((g.newEntries entries count).map fun id =>
        (⟨id, consumer, now, 1⟩ : PendingRow StreamId String)) consumer :=
    List.filter_append _ _
  rw [hs, hall, List.length_append, List.length_map]

theorem held_anew (s : State) :
    held group consumer streams (readEach group streams (anew consumer count) s) =
      (streams.eraseDups.map fun stream =>
        (owned (s.groups (stream, group)).rows consumer).length +
          min count (undelivered s group stream)).sum := by
  rw [held]
  congr 1
  apply List.map_congr_left
  intro stream hs
  rw [groups_readEach anew_setGroup, if_pos hs, anew, length_owned_readNew,
    length_newEntries]

theorem length_batch (s answered : State) :
    (recovered group consumer streams count s ++ fresh group streams count answered).length =
      (streams.eraseDups.map fun stream =>
        min count (owned (s.groups (stream, group)).rows consumer).length +
          min count (undelivered answered group stream)).sum := by
  rw [List.length_append, recovered, fresh, List.length_flatMap, List.length_flatMap,
    ← List.sum_map_add]
  congr 1
  apply List.map_congr_left
  intro stream _
  rw [List.length_map, List.length_map, length_historyIds, length_newEntries]

/-- A read holds no more entries than the worker has lanes, and hands over no more, exactly when
the entries pending for the worker and, from each stream, up to `count` undelivered ones come to no
more: those pending when the second command is answered, and those recovered by the first. -/
theorem read_fits_lanes_iff (s : State) (group consumer : String) (streams : List String)
    (count : ℕ) (between : List Event) {answered t : State} {batch : List Message}
    (hrun : run step (readEach group streams (again consumer count) s) between = some answered)
    (hread : read group consumer streams count s between = some (batch, t)) :
    held group consumer streams t ≤ count ∧ batch.length ≤ count ↔
      (streams.eraseDups.map fun stream =>
        (owned (answered.groups (stream, group)).rows consumer).length +
          min count (undelivered answered group stream)).sum ≤ count ∧
      (streams.eraseDups.map fun stream =>
        min count (owned (s.groups (stream, group)).rows consumer).length +
          min count (undelivered answered group stream)).sum ≤ count := by
  rw [read, hrun, Option.map_some, Option.some.injEq, Prod.mk.injEq] at hread
  obtain ⟨rfl, rfl⟩ := hread
  rw [held_anew, length_batch]

def twoStreams : State :=
  { State.init with
    streams := fun stream =>
      if stream = "documents" then [toLex (1, 0)]
      else if stream = "summaries" then [toLex (2, 0)] else [] }

/-- The worker has two lanes, and another worker takes the entry of one stream first. -/
theorem two_lanes_hold_what_comes :
    ∃ answered batch t,
      run step (readEach "knowledge" ["documents", "summaries"] (again "first" 2) twoStreams)
        [.readNew ("summaries", "knowledge") "second" 2] = some answered ∧
      read "knowledge" "first" ["documents", "summaries"] 2 twoStreams
        [.readNew ("summaries", "knowledge") "second" 2] = some (batch, t) ∧
      batch.length = 1 ∧ held "knowledge" "first" ["documents", "summaries"] t ≤ 2 := by
  have hf := (read_fits_lanes_iff twoStreams "knowledge" "first" ["documents", "summaries"] 2
    [.readNew ("summaries", "knowledge") "second" 2] rfl rfl).mpr (by decide +kernel)
  exact ⟨_, _, _, rfl, rfl, by decide +kernel, hf.1⟩

/-- One lane, and an entry published on each of two streams: both are delivered. -/
theorem one_lane_holds_two_entries :
    ¬∀ (s : State) (group consumer : String) (streams : List String) (count : ℕ)
      (between : List Event) (batch : List Message) (t : State),
      read group consumer streams count s between = some (batch, t) →
        held group consumer streams t ≤ count ∧ batch.length ≤ count := by
  intro hall
  have hf := hall twoStreams "knowledge" "first" ["documents", "summaries"] 1 [] _ _ rfl
  revert hf
  decide +kernel

end Aizzak.ConsumerReads
