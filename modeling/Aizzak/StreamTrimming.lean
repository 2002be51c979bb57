import Aizzak.EventRuns
import Aizzak.RedisStreams

/-!
Trimming a stream below its slowest reader. One pass takes a transactional
snapshot of the head, the first entry and the groups' cursors, reads the oldest
pending id of each group that had anything pending, computes the cut and issues an
approximate `XTRIM MINID`. Producers and consumers run between any two of these
commands. The invariant is that the lower bound taken for a group stays below its
cursor and its pending entries, whatever commands follow.
-/
namespace Aizzak.StreamTrimming

open RedisStreams EventRuns List

structure Group where
  cursor : StreamId
  pending : List (PendingRow StreamId String)

structure Stream where
  entries : List StreamId
  lastId : StreamId
  groups : List (String × Group)
  names_nodup : (groups.map Prod.fst).Nodup

namespace Stream

def updateGroup (st : Stream) (name : String) (f : Group → Group) : Stream where
  entries := st.entries
  lastId := st.lastId
  groups := st.groups.map fun entry => if entry.1 = name then (entry.1, f entry.2) else entry
  names_nodup := by
    have hnames : (Prod.fst ∘ fun entry : String × Group =>
        if entry.1 = name then (entry.1, f entry.2) else entry) = Prod.fst := by
      funext entry
      simp only [Function.comp_apply]
      split_ifs <;> rfl
    rw [List.map_map, hnames]
    exact st.names_nodup

def find (st : Stream) (name : String) : Option Group :=
  (st.groups.find? (·.1 = name)).map Prod.snd

def createGroup (st : Stream) (name : String) : Stream :=
  if h : name ∈ st.groups.map Prod.fst then st
  else
    { st with
      groups := st.groups ++ [(name, ⟨st.lastId, []⟩)]
      names_nodup := by
        rw [List.map_append]
        exact st.names_nodup.append (List.nodup_singleton _) (by simpa using h) }

end Stream

namespace Group

def readNew (group : Group) (entries : List StreamId) (consumer : String) (count now : ℕ) : Group :=
  let new := (entries.filter (group.cursor < ·)).take count
  ⟨new.getLast?.getD group.cursor, deliverNew group.pending consumer new now⟩

/-- `XAUTOCLAIM`: rows of entries that are gone from the stream are dropped. -/
def autoclaim (group : Group) (entries : List StreamId) (consumer : String)
    (claimed : List StreamId) (now : ℕ) : Group :=
  let kept := group.pending.filter fun row => row.id ∉ claimed ∨ row.id ∈ entries
  ⟨group.cursor, claim kept consumer claimed now⟩

end Group

inductive Command where
  | xadd (id : StreamId) (dropped : List StreamId)
  | readNew (group consumer : String) (count now : ℕ)
  | readHistory (group consumer : String) (count now : ℕ)
  | xack (group : String) (id : StreamId)
  | autoclaim (group consumer : String) (claimed : List StreamId) (now : ℕ)
  | createGroup (group : String)

/-- A command of a producer or a consumer. An added entry may push others over the
length backstop; ids only grow. -/
def exec (st : Stream) : Command → Option Stream
  | .xadd id dropped =>
    if st.lastId < id then
      some { st with lastId := id, entries := st.entries.filter (· ∉ dropped) ++ [id] }
    else none
  | .readNew group consumer count now =>
    some (st.updateGroup group (·.readNew st.entries consumer count now))
  | .readHistory group consumer count now =>
    some (st.updateGroup group fun g =>
      { g with pending := readHistory g.pending consumer count now })
  | .xack group id => some (st.updateGroup group fun g => { g with pending := ack g.pending id })
  | .autoclaim group consumer claimed now =>
    some (st.updateGroup group (·.autoclaim st.entries consumer claimed now))
  | .createGroup group => some (st.createGroup group)

structure GroupPosition where
  name : String
  lastDeliveredId : StreamId
  oldestPendingId : Option StreamId

/-- The lowest id the group may still need. -/
def GroupPosition.needsFrom (position : GroupPosition) : StreamId :=
  match position.oldestPendingId with
  | none => position.lastDeliveredId
  | some oldest => min oldest position.lastDeliveredId

structure StreamSnapshot where
  lastGeneratedId : StreamId
  firstEntryId : Option StreamId
  groups : List GroupPosition

structure TrimDecision where
  minid : Option StreamId
  holder : Option String
  boundary : StreamId

def slowest (boundary : StreamId) (holder : Option String) :
    List GroupPosition → StreamId × Option String
  | [] => (boundary, holder)
  | group :: groups =>
    if holder = none ∨ group.needsFrom < boundary then
      slowest group.needsFrom (some group.name) groups
    else slowest boundary holder groups

def cutOf (boundary : StreamId) (marginMs : ℕ) : StreamId :=
  toLex ((ofLex boundary).1 - marginMs, 0)

def trimDecision (snapshot : StreamSnapshot) (marginMs : ℕ) : TrimDecision :=
  let head := snapshot.lastGeneratedId
  let found := slowest head none snapshot.groups
  let boundary := min found.1 head
  let cut := cutOf boundary marginMs
  let minid := match snapshot.firstEntryId with
    | none => none
    | some first => if marginMs < (ofLex boundary).1 ∧ first < cut then some cut else none
  ⟨minid, found.2, boundary⟩

structure GroupRow where
  name : String
  cursor : StreamId
  hasPending : Bool

structure Pass where
  head : StreamId
  first : Option StreamId
  done : List GroupPosition
  todo : List GroupRow

structure State where
  stream : Stream
  pass : Option Pass

inductive Event where
  | command (command : Command)
  | snapshot
  | readPending
  | trim (removed : List StreamId)
  | skip

def minId : List StreamId → Option StreamId
  | [] => none
  | id :: rest => some (rest.foldl min id)

/-- The transaction: one reply describes the head, the first entry and every group. -/
def takeSnapshot (st : Stream) : Pass where
  head := st.lastId
  first := st.entries.head?
  done := []
  todo := st.groups.map fun entry => ⟨entry.1, entry.2.cursor, !entry.2.pending.isEmpty⟩

/-- `XPENDING` of the next group, skipped when the snapshot saw nothing pending. -/
def lookUpPending (st : Stream) (row : GroupRow) : Option GroupPosition :=
  if row.hasPending then
    (st.find row.name).map fun group => ⟨row.name, row.cursor, minId (ids group.pending)⟩
  else some ⟨row.name, row.cursor, none⟩

def Pass.decision (pass : Pass) (marginMs : ℕ) : TrimDecision :=
  trimDecision ⟨pass.head, pass.first, pass.done⟩ marginMs

/-- `XTRIM MINID ~` may keep entries below the id and never removes one above it. -/
def trimStream (st : Stream) (pass : Pass) (marginMs : ℕ) (removed : List StreamId) :
    Option Stream :=
  match (pass.decision marginMs).minid with
  | none => none
  | some minid =>
    if ∀ id ∈ removed, id < minid then
      some { st with entries := st.entries.filter (· ∉ removed) }
    else none

def step (marginMs : ℕ) (s : State) : Event → Option State
  | .command command => (exec s.stream command).map fun stream => { s with stream }
  | .snapshot =>
    match s.pass with
    | none => some { s with pass := some (takeSnapshot s.stream) }
    | some _ => none
  | .readPending =>
    match s.pass with
    | some ⟨head, first, done, row :: todo⟩ =>
      (lookUpPending s.stream row).map fun position =>
        { s with pass := some ⟨head, first, done ++ [position], todo⟩ }
    | _ => none
  | .trim removed =>
    match s.pass with
    | some ⟨head, first, done, []⟩ =>
      (trimStream s.stream ⟨head, first, done, []⟩ marginMs removed).map fun stream =>
        ⟨stream, none⟩
    | _ => none
  | .skip => if s.pass.isSome then some { s with pass := none } else none

/-- Everything a group may still need lies at or above the bound. -/
structure Protected (bound : StreamId) (group : Group) : Prop where
  cursor_ge : bound ≤ group.cursor
  pending_ge : ∀ id ∈ ids group.pending, bound ≤ id

/-- What is known of a group while a pass is under way: its position is taken, or it is
still to be asked about, or it was created after the snapshot. -/
inductive Tracked (pass : Pass) (name : String) (group : Group) : Prop where
  | done (position : GroupPosition) (hmem : position ∈ pass.done)
      (hprotected : Protected position.needsFrom group)
  | todo (row : GroupRow) (hmem : row ∈ pass.todo) (hname : row.name = name)
      (hcursor : row.cursor ≤ group.cursor)
      (hclear : row.hasPending = false → Protected row.cursor group)
  | created (hprotected : Protected pass.head group)

structure PassInv (st : Stream) (pass : Pass) : Prop where
  head_le : pass.head ≤ st.lastId
  tracked : ∀ entry ∈ st.groups, Tracked pass entry.1 entry.2

def Inv (s : State) : Prop := ∀ pass ∈ s.pass, PassInv s.stream pass

section Groups

variable {bound : StreamId} {group : Group}

theorem Protected.mono {lower : StreamId} (h : Protected bound group) (hle : lower ≤ bound) :
    Protected lower group :=
  ⟨hle.trans h.cursor_ge, fun id hid => hle.trans (h.pending_ge id hid)⟩

/-- Commands that add nothing to the pending list and leave the cursor alone. -/
theorem Protected.of_subset {next : Group} (h : Protected bound group)
    (hc : next.cursor = group.cursor) (hids : ids next.pending ⊆ ids group.pending) :
    Protected bound next :=
  ⟨hc ▸ h.cursor_ge, fun id hid => h.pending_ge id (hids hid)⟩

theorem cursor_le_readNew (group : Group) (entries : List StreamId) (consumer : String)
    (count now : ℕ) : group.cursor ≤ (group.readNew entries consumer count now).cursor := by
  simp only [Group.readNew]
  cases hl : ((entries.filter (group.cursor < ·)).take count).getLast? with
  | none => exact le_rfl
  | some last =>
    have hmem := mem_of_mem_take (mem_of_getLast? hl)
    have hlt : group.cursor < last := by simpa using (mem_filter.mp hmem).2
    exact hlt.le

theorem Protected.readNew (h : Protected bound group) (entries : List StreamId)
    (consumer : String) (count now : ℕ) :
    Protected bound (group.readNew entries consumer count now) := by
  refine ⟨h.cursor_ge.trans (cursor_le_readNew group entries consumer count now), ?_⟩
  intro id hid
  simp only [Group.readNew, ids_deliverNew, mem_append] at hid
  rcases hid with hold | hnew
  · exact h.pending_ge id hold
  · have hlt : group.cursor < id := by
      simpa using (mem_filter.mp (mem_of_mem_take hnew)).2
    exact h.cursor_ge.trans hlt.le

theorem ids_autoclaim_subset (group : Group) (entries : List StreamId) (consumer : String)
    (claimed : List StreamId) (now : ℕ) :
    ids (group.autoclaim entries consumer claimed now).pending ⊆ ids group.pending := by
  simp only [Group.autoclaim, ids_claim]
  exact (filter_sublist.map _).subset

theorem ids_ack_subset (rows : List (PendingRow StreamId String)) (id : StreamId) :
    ids (ack rows id) ⊆ ids rows := by
  rw [ids_ack]
  exact filter_subset_self _

end Groups

variable {st : Stream} {pass : Pass}

theorem PassInv.updateGroup (h : PassInv st pass) (name : String) {f : Group → Group}
    (hc : ∀ group, group.cursor ≤ (f group).cursor)
    (hpr : ∀ bound group, Protected bound group → Protected bound (f group)) :
    PassInv (st.updateGroup name f) pass := by
  refine ⟨h.head_le, ?_⟩
  intro entry he
  obtain ⟨old, hold, rfl⟩ := mem_map.mp he
  have ht := h.tracked old hold
  split_ifs
  · cases ht with
    | done position hmem hp => exact .done position hmem (hpr _ _ hp)
    | todo row hmem hn hle hcl =>
      exact .todo row hmem hn (hle.trans (hc old.2))
        fun hno => hpr _ _ (hcl hno)
    | created hp => exact .created (hpr _ _ hp)
  · exact ht

theorem PassInv.exec {next : Stream} {command : Command} (h : PassInv st pass)
    (hexec : exec st command = some next) : PassInv next pass := by
  cases command with
  | xadd id dropped =>
    simp only [StreamTrimming.exec] at hexec
    split_ifs at hexec with hid
    cases hexec
    exact ⟨h.head_le.trans hid.le, h.tracked⟩
  | readNew group consumer count now =>
    cases hexec
    exact h.updateGroup group (fun g => cursor_le_readNew g st.entries consumer count now)
      fun _ _ hp => hp.readNew st.entries consumer count now
  | readHistory group consumer count now =>
    cases hexec
    refine h.updateGroup group (fun _ => le_rfl) fun _ g hp => hp.of_subset rfl ?_
    simp
  | xack group id =>
    cases hexec
    exact h.updateGroup group (fun _ => le_rfl)
      fun _ g hp => hp.of_subset rfl (ids_ack_subset g.pending id)
  | autoclaim group consumer claimed now =>
    cases hexec
    exact h.updateGroup group (fun _ => le_rfl)
      fun _ g hp => hp.of_subset rfl (ids_autoclaim_subset g st.entries consumer claimed now)
  | createGroup group =>
    cases hexec
    unfold Stream.createGroup
    split_ifs with hn
    · exact h
    · refine ⟨h.head_le, ?_⟩
      intro entry he
      rcases mem_append.mp he with hold | hnew
      · exact h.tracked entry hold
      · rw [mem_singleton.mp hnew]
        exact .created ⟨h.head_le, by simp [ids]⟩

theorem passInv_takeSnapshot (st : Stream) : PassInv st (takeSnapshot st) := by
  refine ⟨le_rfl, ?_⟩
  intro entry he
  refine .todo ⟨entry.1, entry.2.cursor, !entry.2.pending.isEmpty⟩ ?_ rfl le_rfl ?_
  · exact mem_map.mpr ⟨entry, he, rfl⟩
  · intro hn
    have hnil : entry.2.pending = [] := by simpa using hn
    exact ⟨le_rfl, by simp [hnil, ids]⟩

variable {entry : String × Group}

theorem find_of_mem (st : Stream) (h : entry ∈ st.groups) :
    st.find entry.1 = some entry.2 := by
  unfold Stream.find
  cases hf : st.groups.find? (·.1 = entry.1) with
  | none => simpa using List.find?_eq_none.mp hf entry h
  | some found =>
    have hn : found.1 = entry.1 := by simpa using List.find?_some hf
    have heq : found = entry :=
      inj_on_of_nodup_map st.names_nodup (mem_of_find?_eq_some hf) h hn
    simp [heq]

private theorem foldl_min_le (id : StreamId) (rest : List StreamId) :
    rest.foldl min id ≤ id ∧ ∀ x ∈ rest, rest.foldl min id ≤ x := by
  induction rest generalizing id with
  | nil => simp
  | cons y rest ih =>
    obtain ⟨hstart, hrest⟩ := ih (min id y)
    refine ⟨hstart.trans (min_le_left id y), ?_⟩
    intro x hx
    rcases List.mem_cons.mp hx with rfl | hx
    · exact hstart.trans (min_le_right id x)
    · exact hrest x hx

theorem minId_le {l : List StreamId} {m x : StreamId} (h : minId l = some m) (hx : x ∈ l) :
    m ≤ x := by
  cases l with
  | nil => simp at hx
  | cons id rest =>
    obtain rfl : rest.foldl min id = m := by simpa [minId] using h
    rcases mem_cons.mp hx with rfl | hx
    · exact (foldl_min_le x rest).1
    · exact (foldl_min_le id rest).2 x hx

theorem lookUpPending_protected {row : GroupRow} {position : GroupPosition}
    (hl : lookUpPending st row = some position) (he : entry ∈ st.groups)
    (hn : row.name = entry.1) (hc : row.cursor ≤ entry.2.cursor)
    (hcl : row.hasPending = false → Protected row.cursor entry.2) :
    Protected position.needsFrom entry.2 := by
  unfold lookUpPending at hl
  by_cases hp : row.hasPending = true
  · rw [if_pos hp, hn, find_of_mem st he, Option.map_some,
      Option.some.injEq] at hl
    subst hl
    cases hmin : minId (ids entry.2.pending) with
    | none =>
      have hnil : ids entry.2.pending = [] := by
        cases hids : ids entry.2.pending with
        | nil => rfl
        | cons id rest => simp [hids, minId] at hmin
      exact ⟨hc, by simp [hnil]⟩
    | some oldest =>
      refine ⟨(min_le_right _ _).trans hc, ?_⟩
      intro id hid
      exact (min_le_left _ _).trans (minId_le hmin hid)
  · rw [if_neg hp, Option.some.injEq] at hl
    subst hl
    exact hcl (by simpa using hp)

theorem PassInv.readPending {head : StreamId} {first : Option StreamId} {done : List GroupPosition}
    {row : GroupRow} {todo : List GroupRow} {position : GroupPosition}
    (h : PassInv st ⟨head, first, done, row :: todo⟩)
    (hl : lookUpPending st row = some position) :
    PassInv st ⟨head, first, done ++ [position], todo⟩ := by
  refine ⟨h.head_le, ?_⟩
  intro entry he
  cases h.tracked entry he with
  | done other hmem hp => exact .done other (mem_append_left _ hmem) hp
  | todo other hmem hn hc hcl =>
    rcases mem_cons.mp hmem with rfl | hmem
    · exact .done position (mem_append_right _ (mem_singleton_self _))
        (lookUpPending_protected hl he hn hc hcl)
    · exact .todo other hmem hn hc hcl
  | created hp => exact .created hp

theorem slowest_le (boundary : StreamId) (holder : Option String) (groups : List GroupPosition) :
    (∀ group ∈ groups, (slowest boundary holder groups).1 ≤ group.needsFrom) ∧
      (holder ≠ none → (slowest boundary holder groups).1 ≤ boundary) := by
  induction groups generalizing boundary holder with
  | nil => simp [slowest]
  | cons group groups ih =>
    unfold slowest
    split_ifs with hs
    · obtain ⟨hr, hb⟩ := ih group.needsFrom (some group.name)
      have hhe := hb (by simp)
      refine ⟨?_, ?_⟩
      · intro other ho
        rcases mem_cons.mp ho with rfl | ho
        · exact hhe
        · exact hr other ho
      · intro hh
        rcases hs with hn | hlt
        · exact absurd hn hh
        · exact hhe.trans hlt.le
    · obtain ⟨hr, hb⟩ := ih boundary holder
      rw [not_or, not_lt] at hs
      have hhe := hb hs.1
      refine ⟨?_, fun _ => hhe⟩
      intro other ho
      rcases mem_cons.mp ho with rfl | ho
      · exact hhe.trans hs.2
      · exact hr other ho

theorem cutOf_le (boundary : StreamId) (marginMs : ℕ) : cutOf boundary marginMs ≤ boundary := by
  rw [cutOf, Prod.Lex.le_iff]
  rcases Nat.eq_zero_or_pos marginMs with rfl | hpos
  · exact Or.inr ⟨rfl, Nat.zero_le _⟩
  · rcases Nat.eq_zero_or_pos (ofLex boundary).1 with hz | hms
    · exact Or.inr ⟨by simp [hz], Nat.zero_le _⟩
    · exact Or.inl (Nat.sub_lt hms hpos)

variable {marginMs : ℕ}

/-- The cut never exceeds the head of the snapshot nor any position taken. -/
theorem minid_le {minid : StreamId} (h : (pass.decision marginMs).minid = some minid) :
    minid ≤ pass.head ∧ ∀ position ∈ pass.done, minid ≤ position.needsFrom := by
  have hcut : minid ≤ min (slowest pass.head none pass.done).1 pass.head := by
    simp only [Pass.decision, trimDecision] at h
    split at h
    · cases h
    · split_ifs at h
      rw [← Option.some.inj h]
      exact cutOf_le _ _
  refine ⟨hcut.trans (min_le_right _ _), ?_⟩
  intro position hp
  exact (hcut.trans (min_le_left _ _)).trans ((slowest_le _ _ _).1 position hp)

/-- What a pass removes, no group needs. -/
theorem PassInv.removed_unneeded {head : StreamId} {first : Option StreamId}
    {done : List GroupPosition} {minid id : StreamId} (h : PassInv st ⟨head, first, done, []⟩)
    (hm : ((⟨head, first, done, []⟩ : Pass).decision marginMs).minid = some minid)
    (hid : id < minid) (he : entry ∈ st.groups) :
    id ∉ ids entry.2.pending ∧ ¬ entry.2.cursor < id := by
  obtain ⟨hh, hd⟩ := minid_le hm
  have hpr : Protected minid entry.2 := by
    cases h.tracked entry he with
    | done position hmem hp => exact hp.mono (hd position hmem)
    | todo row hmem => simp at hmem
    | created hp => exact hp.mono hh
  exact ⟨fun hpe => not_le_of_gt hid (hpr.pending_ge id hpe),
    not_lt_of_ge (hid.le.trans hpr.cursor_ge)⟩

/-- Every group stays tracked while a pass is under way. -/
theorem Inv.step {s t : State} {e : Event} (h : Inv s) (hs : step marginMs s e = some t) :
    Inv t := by
  cases e with
  | command command =>
    obtain ⟨stream, hexec, rfl⟩ := Option.map_eq_some_iff.mp hs
    intro pass hp
    exact (h pass hp).exec hexec
  | snapshot =>
    simp only [StreamTrimming.step] at hs
    split at hs
    · cases hs
      intro pass hp
      obtain rfl : takeSnapshot s.stream = pass := by simpa using hp
      exact passInv_takeSnapshot s.stream
    · cases hs
  | readPending =>
    simp only [StreamTrimming.step] at hs
    split at hs
    · next head first done row todo hc =>
      obtain ⟨position, hl, rfl⟩ := Option.map_eq_some_iff.mp hs
      intro pass hp
      obtain rfl : (⟨head, first, done ++ [position], todo⟩ : Pass) = pass := by simpa using hp
      exact (h _ hc).readPending hl
    · cases hs
  | trim removed =>
    simp only [StreamTrimming.step] at hs
    split at hs
    · obtain ⟨stream, -, rfl⟩ := Option.map_eq_some_iff.mp hs
      intro pass hp
      cases hp
    · cases hs
  | skip =>
    simp only [StreamTrimming.step] at hs
    split_ifs at hs
    cases hs
    intro pass hp
    cases hp

/-- Whatever commands run between the snapshot, the pending reads and the trim, no
entry that is pending in a group or not yet delivered to it is removed by the trim. -/
theorem trim_keeps_needed_entries (marginMs : ℕ) (start : Stream) (es : List Event) (s t : State)
    (removed : List StreamId) (hrun : run (step marginMs) ⟨start, none⟩ es = some s)
    (htrim : step marginMs s (.trim removed) = some t) :
    ∀ id ∈ s.stream.entries, id ∉ t.stream.entries → ∀ entry ∈ t.stream.groups,
      id ∉ ids entry.2.pending ∧ ¬ entry.2.cursor < id := by
  have hinv : Inv s :=
    run_invariant_of_step (fun _ _ _ hi hs => hi.step hs) hrun (fun pass hp => by cases hp)
  simp only [step] at htrim
  split at htrim
  · next head first done hc =>
    obtain ⟨stream, hst, rfl⟩ := Option.map_eq_some_iff.mp htrim
    unfold trimStream at hst
    split at hst
    · cases hst
    · next minid hm =>
      split_ifs at hst with hb
      cases hst
      intro id hid hg entry he
      have hr : id ∈ removed := by
        by_contra hk
        exact hg (mem_filter.mpr ⟨hid, by simpa using hk⟩)
      exact (hinv _ hc).removed_unneeded hm (hb id hr) he
  · cases htrim

section Example

private def busyStream : Stream where
  entries := [toLex (1000, 0), toLex (2000, 0), toLex (9000, 0)]
  lastId := toLex (9000, 0)
  groups := [("cg.knowledge", ⟨toLex (9000, 0), [⟨toLex (2000, 0), "a", 0, 1⟩]⟩),
    ("cg.notify", ⟨toLex (9000, 0), []⟩)]
  names_nodup := by decide

private def overlappedPass : List Event :=
  [.snapshot, .command (.xadd (toLex (9500, 0)) []), .readPending,
    .command (.readNew "cg.notify" "n" 10 0), .readPending]

/-- The entry that is trimmed was needed by no group. -/
theorem overlapped_pass_keeps_needed_entries :
    ∃ s t, run (step 500) ⟨busyStream, none⟩ overlappedPass = some s ∧
      step 500 s (.trim [toLex (1000, 0)]) = some t ∧
      toLex (1000, 0) ∈ s.stream.entries ∧ toLex (1000, 0) ∉ t.stream.entries ∧
      ∀ entry ∈ t.stream.groups, toLex (1000, 0) ∉ ids entry.2.pending ∧
        ¬ entry.2.cursor < toLex (1000, 0) := by
  obtain ⟨s, hrun, hs⟩ := exists_run_of_any
    (p := fun s => decide (toLex (1000, 0) ∈ s.stream.entries) &&
      (step 500 s (.trim [toLex (1000, 0)])).any fun t => toLex (1000, 0) ∉ t.stream.entries)
    (show (run (step 500) ⟨busyStream, none⟩ overlappedPass).any _ = true by decide +kernel)
  simp only [Bool.and_eq_true, decide_eq_true_eq, Option.any_eq_true] at hs
  obtain ⟨hmem, t, ht, hg⟩ := hs
  exact ⟨s, t, hrun, ht, hmem, hg,
    trim_keeps_needed_entries 500 busyStream overlappedPass s t _ hrun ht _ hmem hg⟩

end Example

end Aizzak.StreamTrimming
