import Aizzak.Conversations
import Aizzak.EventRuns

/-!
The memory items of the agents. An item is remembered without a vector; a worker embeds it and
attaches the vector; a user forgets it. Indexing and forgetting read the item in one transaction
and write it in a later one, both writing the vector reference and the mark that it is forgotten
as they read them, and nothing tells them that the row has changed in between.
-/
namespace Aizzak.MemoryItems

open EventRuns KeyedTables PyText
open Conversations (AgentKey ConversationError)

inductive MemoryKind where
  | semantic
  | episodic
deriving DecidableEq

def MemoryKind.value : MemoryKind → Text
  | .semantic => ofString "semantic"
  | .episodic => ofString "episodic"

def MemoryKind.parse (kind : Text) : Option MemoryKind :=
  [.semantic, .episodic].find? (MemoryKind.value · = kind)

structure VectorRef where
  collection : Text
  pointId : Text
  hcollection : collection ≠ []
  hpointId : pointId ≠ []
deriving DecidableEq

structure MemoryItem where
  agentKey : AgentKey
  kind : MemoryKind
  content : Text
  vectorRef : Option VectorRef
  salience : Rat
  createdAt : ℕ
  deletedAt : Option ℕ
deriving DecidableEq

inductive MemoryError where
  | agentKey (problem : ConversationError)
  | invalidKind
  | contentEmpty
  | queryEmpty
  | recallBound
  | notFound
  | collectionEmpty
  | pointIdEmpty
  | forgotten

def VectorRef.make (collection pointId : Text) : Except MemoryError VectorRef :=
  if hcollection : collection = [] then .error .collectionEmpty
  else if hpointId : pointId = [] then .error .pointIdEmpty
  else .ok ⟨collection, pointId, hcollection, hpointId⟩

namespace MemoryItem

def attachVector (item : MemoryItem) (vectorRef : VectorRef) : Except MemoryError MemoryItem :=
  if item.deletedAt.isSome then .error .forgotten
  else .ok { item with vectorRef := some vectorRef }

def forget (item : MemoryItem) (now : ℕ) : MemoryItem :=
  if item.deletedAt.isSome then item else { item with deletedAt := some now }

end MemoryItem

abbrev Items := AList fun _ : ℕ => MemoryItem

/-- `save`: an update by id of the columns that forgetting and indexing change. -/
def save (items : Items) (memory : ℕ) (item : MemoryItem) : Items :=
  match items.lookup memory with
  | none => items
  | some row =>
    items.insert memory { row with vectorRef := item.vectorRef, deletedAt := item.deletedAt }

structure Hit where
  memoryId : ℕ
  score : Rat

structure RecalledMemory where
  memoryId : ℕ
  content : Text
  kind : Text
  salience : Rat
  score : Rat

def recallHit (hit : Hit) (items : Items) : Option RecalledMemory :=
  match items.lookup hit.memoryId with
  | none => none
  | some item =>
    if item.deletedAt.isSome then none
    else some ⟨hit.memoryId, item.content, item.kind.value, item.salience, hit.score⟩

def minRecallK : ℤ := 1

def maxRecallK : ℤ := 50

def recallRelevant (lower : Text → Text) (agentKey query : Text) (k : ℤ)
    (reads : List (Hit × Items)) : Except MemoryError (List RecalledMemory) :=
  match AgentKey.make lower agentKey with
  | .error problem => .error (.agentKey problem)
  | .ok _ =>
    if Blank query then .error .queryEmpty
    else if minRecallK ≤ k ∧ k ≤ maxRecallK then
      .ok (reads.filterMap fun read => recallHit read.1 read.2)
    else .error .recallBound

inductive Phase where
  | requested
  | forgetting (read : MemoryItem) (now : ℕ)
  | embedding (read : MemoryItem)
  | finalizing (read : MemoryItem) (vectorRef : VectorRef)

structure Task where
  memory : ℕ
  event : Option ℕ
  phase : Phase

structure Point where
  agentKey : AgentKey
  memoryId : ℕ

structure State where
  items : Items
  points : AList fun _ : Text × Text => Point
  claims : List ℕ
  tasks : AList fun _ : ℕ => Task

def init : State := ⟨∅, ∅, [], ∅⟩

structure RememberRequest where
  agentKey : Text
  content : Text
  kind : Text
  salience : Rat

inductive Event where
  | remember (memory : ℕ) (request : RememberRequest) (now : ℕ)
  | forget (id memory : ℕ)
  | deliver (id event memory : ℕ)
  | next (id now : ℕ) (collection : Text)
  | fails (id : ℕ)

def rememberInteraction (lower : Text → Text) (request : RememberRequest) (now : ℕ) :
    Except MemoryError MemoryItem :=
  match AgentKey.make lower request.agentKey with
  | .error problem => .error (.agentKey problem)
  | .ok key =>
    match MemoryKind.parse request.kind with
    | none => .error .invalidKind
    | some kind =>
      if Blank request.content then .error .contentEmpty
      else
        .ok
          { agentKey := key
            kind := kind
            content := request.content
            vectorRef := none
            salience := request.salience
            createdAt := now
            deletedAt := none }

namespace State

def finish (s : State) (id : ℕ) : State := { s with tasks := s.tasks.erase id }

def proceed (s : State) (id : ℕ) (task : Task) (phase : Phase) : State :=
  { s with tasks := s.tasks.insert id { task with phase := phase } }

def upsert (s : State) (id : ℕ) (task : Task) (read : MemoryItem) (collection pointId : Text) :
    State :=
  let points := s.points.insert (collection, pointId) ⟨read.agentKey, task.memory⟩
  match VectorRef.make collection pointId with
  | .error _ => { s.finish id with points := points }
  | .ok vectorRef => { s.proceed id task (.finalizing read vectorRef) with points := points }

/-- The transaction of the handler: the claim and `IndexMemoryItem.finalize`. -/
def finalize (s : State) (memory event : ℕ) (read : MemoryItem) (vectorRef : VectorRef) : State :=
  if event ∈ s.claims then s
  else
    match read.attachVector vectorRef with
    | .error _ => s
    | .ok item => { s with items := save s.items memory item, claims := event :: s.claims }

end State

section Machine

variable (lower : Text → Text) (memoryPointId : ℕ → Text)

def advance (s : State) (id : ℕ) (task : Task) (now : ℕ) (collection : Text) : State :=
  match task.phase, task.event with
  | .requested, none =>
    match s.items.lookup task.memory with
    | none => s.finish id
    | some item => s.proceed id task (.forgetting item now)
  | .requested, some _ =>
    match s.items.lookup task.memory with
    | none => s.finish id
    | some item =>
      if item.vectorRef.isSome then s.finish id else s.proceed id task (.embedding item)
  | .forgetting read now, _ =>
    { s.finish id with items := save s.items task.memory (read.forget now) }
  | .embedding read, _ => s.upsert id task read collection (memoryPointId task.memory)
  | .finalizing _ _, none => s.finish id
  | .finalizing read vectorRef, some event =>
    (s.finalize task.memory event read vectorRef).finish id

def step (s : State) : Event → Option State
  | .remember memory request now =>
    if memory ∈ s.items then none
    else
      match rememberInteraction lower request now with
      | .error _ => none
      | .ok item => some { s with items := s.items.insert memory item }
  | .forget id memory =>
    if id ∈ s.tasks then none
    else some { s with tasks := s.tasks.insert id ⟨memory, none, .requested⟩ }
  | .deliver id event memory =>
    if id ∈ s.tasks then none
    else some { s with tasks := s.tasks.insert id ⟨memory, some event, .requested⟩ }
  | .next id now collection =>
    match s.tasks.lookup id with
    | none => none
    | some task => some (advance memoryPointId s id task now collection)
  | .fails id => if id ∈ s.tasks then some (s.finish id) else none

end Machine

/-- Since the task read its item, the item has not been indexed, nor forgotten where the task is
the first to deliver its event. -/
def Task.upToDate (task : Task) (claims : List ℕ) (row : MemoryItem) : Bool :=
  match task.phase with
  | .forgetting read _ => read.vectorRef.isSome || row.vectorRef.isNone
  | .finalizing read _ =>
    task.event.any (claims.contains ·) || read.deletedAt.isSome || row.deletedAt.isNone
  | .requested | .embedding _ => true

/-- No item is forgotten between the read and the write of a worker that indexes it, nor indexed
between the read and the write of a request to forget it. -/
def upToDate (s : State) : Event → Bool
  | .next id _ _ => (s.tasks.lookup id).all fun task =>
      (s.items.lookup task.memory).all fun row => task.upToDate s.claims row
  | _ => true

def UpToDate (s : State) (e : Event) : Prop := upToDate s e = true

instance (s : State) (e : Event) : Decidable (UpToDate s e) :=
  inferInstanceAs (Decidable (_ = true))

structure Kept (old new : MemoryItem) : Prop where
  forgotten : old.deletedAt.isSome = true → new.deletedAt.isSome = true
  vectorRef : old.vectorRef.isSome = true → new.vectorRef.isSome = true

theorem Kept.refl (item : MemoryItem) : Kept item item := ⟨id, id⟩

theorem Kept.trans {old mid new : MemoryItem} (h : Kept old mid) (h' : Kept mid new) :
    Kept old new := ⟨h'.forgotten ∘ h.forgotten, h'.vectorRef ∘ h.vectorRef⟩

def AllKept (items after : Items) : Prop :=
  ∀ memory item, items.lookup memory = some item →
    ∃ new, after.lookup memory = some new ∧ Kept item new

section Steps

variable {lower : Text → Text} {memoryPointId : ℕ → Text} {s t : State} {e : Event}
  {id now : ℕ} {task : Task} {collection : Text} {items : Items} {memory : ℕ} {item : MemoryItem}

theorem allKept_refl : AllKept items items := fun _ item h => ⟨item, h, .refl item⟩

theorem AllKept.trans {mid after : Items} (h : AllKept items mid) (h' : AllKept mid after) :
    AllKept items after := by
  intro memory item hitem
  obtain ⟨between, hb, hke⟩ := h memory item hitem
  obtain ⟨new, hnew, hk⟩ := h' memory between hb
  exact ⟨new, hnew, hke.trans hk⟩

theorem allKept_insert (hnew : memory ∉ items) : AllKept items (items.insert memory item) := by
  intro other found hf
  have hne : other ≠ memory := by
    rintro rfl
    exact hnew (mem_of_lookup hf)
  exact ⟨found, (AList.lookup_insert_ne hne).trans hf, .refl found⟩

theorem save_lookup (item : MemoryItem) {row : MemoryItem}
    (hrow : items.lookup memory = some row) :
    (save items memory item).lookup memory =
      some { row with vectorRef := item.vectorRef, deletedAt := item.deletedAt } := by
  rw [save, hrow]
  exact AList.lookup_insert _

theorem allKept_save (h : ∀ row, items.lookup memory = some row →
    Kept row { row with vectorRef := item.vectorRef, deletedAt := item.deletedAt }) :
    AllKept items (save items memory item) := by
  intro other found hf
  unfold save
  split
  · exact ⟨found, hf, .refl found⟩
  · rename_i row hrow
    by_cases hne : other = memory
    · subst hne
      obtain rfl := Option.mem_unique hrow hf
      exact ⟨_, AList.lookup_insert _, h row hrow⟩
    · exact ⟨found, (AList.lookup_insert_ne hne).trans hf, .refl found⟩

theorem forget_deletedAt (item : MemoryItem) (now : ℕ) :
    (item.forget now).deletedAt.isSome = true := by
  unfold MemoryItem.forget
  split
  · assumption
  · rfl

theorem forget_vectorRef (item : MemoryItem) (now : ℕ) :
    (item.forget now).vectorRef = item.vectorRef := by
  unfold MemoryItem.forget
  split <;> rfl

variable {vectorRef : VectorRef}

theorem attachVector_eq_ok {after : MemoryItem} (h : item.attachVector vectorRef = .ok after) :
    after.vectorRef = some vectorRef := by
  unfold MemoryItem.attachVector at h
  split_ifs at h
  cases h
  rfl

theorem attachVector_live {after : MemoryItem} (h : item.attachVector vectorRef = .ok after) :
    item.deletedAt.isSome = false := by
  unfold MemoryItem.attachVector at h
  split_ifs at h with hd
  simpa using hd

variable {read : MemoryItem}

theorem allKept_forget (h : ∀ row, items.lookup memory = some row →
      (read.vectorRef.isSome || row.vectorRef.isNone) = true) :
    AllKept items (save items memory (read.forget now)) := by
  refine allKept_save fun row hrow => ⟨fun _ => forget_deletedAt read now, fun hs => ?_⟩
  have hc := h row hrow
  rw [Option.isNone_eq_false_iff.mpr hs, Bool.or_false] at hc
  rwa [forget_vectorRef]

variable {event : ℕ}

/-- What is claimed already, or was read as forgotten, is not written; the rest has not been
forgotten since. -/
theorem allKept_finalize (h : ∀ row, s.items.lookup memory = some row →
      (s.claims.contains event || read.deletedAt.isSome || row.deletedAt.isNone) = true) :
    AllKept s.items (s.finalize memory event read vectorRef).items := by
  unfold State.finalize
  split_ifs with hcl
  · exact allKept_refl
  · split
    · exact allKept_refl
    · rename_i after ha
      refine allKept_save fun row hrow => ⟨fun hs => ?_, fun _ => ?_⟩
      · have hl := h row hrow
        simp [hcl, attachVector_live ha, Option.isNone_eq_false_iff.mpr hs] at hl
      · rw [attachVector_eq_ok ha]
        rfl

theorem upsert_items {pointId : Text} :
    (s.upsert id task read collection pointId).items = s.items := by
  unfold State.upsert
  split <;> rfl

/-- A write that is up to date revives no forgotten item. -/
theorem allKept_advance (h : ∀ row, s.items.lookup task.memory = some row →
    task.upToDate s.claims row = true) :
    AllKept s.items (advance memoryPointId s id task now collection).items := by
  unfold advance
  split
  · split <;> exact allKept_refl
  · split
    · exact allKept_refl
    · split <;> exact allKept_refl
  · rename_i hp
    simp only [Task.upToDate, hp] at h
    exact allKept_forget h
  · rw [upsert_items]
    exact allKept_refl
  · exact allKept_refl
  · rename_i hp he
    simp only [Task.upToDate, hp, he, Option.any_some] at h
    exact allKept_finalize h

/-- Forgotten items stay forgotten. -/
theorem step_kept (hc : UpToDate s e) (h : step lower memoryPointId s e = some t) :
    AllKept s.items t.items := by
  cases e with
  | remember memory request now =>
    simp only [step] at h
    split_ifs at h with hnew
    split at h
    · cases h
    · cases h
      exact allKept_insert hnew
  | forget id memory =>
    simp only [step] at h
    split_ifs at h
    cases h
    exact allKept_refl
  | deliver id event memory =>
    simp only [step] at h
    split_ifs at h
    cases h
    exact allKept_refl
  | next id now collection =>
    simp only [step] at h
    split at h
    · cases h
    · rename_i task ht
      cases h
      refine allKept_advance fun row hrow => ?_
      rw [UpToDate, upToDate, ht, Option.all_some, hrow, Option.all_some] at hc
      exact hc
  | fails id =>
    simp only [step] at h
    split_ifs at h
    cases h
    exact allKept_refl

variable {events : List Event}

theorem run_kept (hg : Guarded (step lower memoryPointId) UpToDate s events)
    (hrun : run (step lower memoryPointId) s events = some t) : AllKept s.items t.items := by
  have hk : ∀ u e v, AllKept s.items u.items → UpToDate u e →
      step lower memoryPointId u e = some v → AllKept s.items v.items :=
    fun u e v hu hc hs => hu.trans (step_kept hc hs)
  exact run_invariant hk hg hrun allKept_refl

theorem visits_kept (hg : Guarded (step lower memoryPointId) UpToDate s events)
    (h : Visits (step lower memoryPointId) s events t) : AllKept s.items t.items := by
  obtain ⟨before, after, rfl, hrun⟩ := h
  exact run_kept hg.of_append hrun

theorem recallHit_memoryId {hit : Hit} {recalled : RecalledMemory}
    (h : recallHit hit items = some recalled) : recalled.memoryId = hit.memoryId ∧
      ∃ item, items.lookup hit.memoryId = some item ∧ item.deletedAt.isSome = false := by
  unfold recallHit at h
  split at h
  · cases h
  · rename_i item hitem
    split_ifs at h with hd
    cases h
    exact ⟨rfl, item, hitem, by simpa using hd⟩

def Found (items : Items) (task : Task) : Prop :=
  match task.phase with
  | .requested => True
  | .forgetting _ _ | .embedding _ | .finalizing _ _ => task.memory ∈ items

def Tracked (s : State) : Prop :=
  ∀ id task, s.tasks.lookup id = some task → Found s.items task

theorem Found.mono {after : Items} (h : Found items task) (hitems : items.keys ⊆ after.keys) :
    Found after task := by
  have hmem : task.memory ∈ items → task.memory ∈ after :=
    fun hmem => AList.mem_keys.mpr (hitems (AList.mem_keys.mp hmem))
  unfold Found at h ⊢
  split
  · trivial
  all_goals
    rename_i hp
    rw [hp] at h
    exact hmem h

theorem keys_save : items.keys ⊆ (save items memory item).keys := by
  unfold save
  split
  · exact List.Subset.refl _
  · intro other ho
    exact AList.mem_keys.mp ((AList.mem_insert _).mpr (.inr (AList.mem_keys.mpr ho)))

theorem tracked_kept (hs : Tracked s) (hitems : s.items.keys ⊆ t.items.keys)
    (ht : ∀ other u, t.tasks.lookup other = some u →
      s.tasks.lookup other = some u ∨ Found t.items u) : Tracked t := by
  intro other u hu
  rcases ht other u hu with hold | hnew
  · exact (hs other u hold).mono hitems
  · exact hnew

theorem tracked_finish (hs : Tracked s) : Tracked (s.finish id) :=
  tracked_kept hs (List.Subset.refl _) fun _ _ hu => .inl (lookup_erase_iff.mp hu).2

theorem tracked_proceed {phase : Phase} (hs : Tracked s)
    (hp : Found s.items { task with phase := phase }) : Tracked (s.proceed id task phase) :=
  tracked_kept hs (List.Subset.refl _)
    (forall_insert (.inr hp) fun _ _ => .inl)

theorem keys_finalize :
    s.items.keys ⊆ (s.finalize memory event read vectorRef).items.keys := by
  unfold State.finalize
  split
  · exact List.Subset.refl _
  · split
    · exact List.Subset.refl _
    · exact keys_save

theorem finalize_tasks :
    (s.finalize memory event read vectorRef).tasks = s.tasks := by
  unfold State.finalize
  split
  · rfl
  · split <;> rfl

/-- What a task has read of its item stays true as it goes on. -/
theorem tracked_advance (hs : Tracked s) (ht : s.tasks.lookup id = some task) :
    Tracked (advance memoryPointId s id task now collection) := by
  unfold advance
  split
  · split
    · exact tracked_finish hs
    · rename_i item hitem
      exact tracked_proceed hs (mem_of_lookup hitem)
  · split
    · exact tracked_finish hs
    · rename_i item hitem
      split
      · exact tracked_finish hs
      · exact tracked_proceed hs (mem_of_lookup hitem)
  · exact tracked_kept hs keys_save fun _ _ hu => .inl (lookup_erase_iff.mp hu).2
  · rename_i read hp
    have hf := hs id task ht
    rw [Found, hp] at hf
    unfold State.upsert
    split
    · exact tracked_kept hs (List.Subset.refl _)
        fun _ _ hu => .inl (lookup_erase_iff.mp hu).2
    · exact tracked_kept hs (List.Subset.refl _)
        (forall_insert (.inr hf) fun _ _ => .inl)
  · exact tracked_finish hs
  · refine tracked_kept hs keys_finalize fun other u hu => .inl ?_
    have hold := (lookup_erase_iff.mp hu).2
    rwa [finalize_tasks] at hold

/-- What tasks have read of their items stays true. -/
theorem step_tracked (hs : Tracked s) (h : step lower memoryPointId s e = some t) : Tracked t := by
  cases e with
  | remember memory request now =>
    simp only [step] at h
    split_ifs at h with hnew
    split at h
    · cases h
    · cases h
      refine tracked_kept hs (fun other ho => ?_) fun _ _ => .inl
      exact AList.mem_keys.mp ((AList.mem_insert _).mpr (.inr (AList.mem_keys.mpr ho)))
  | forget id memory =>
    simp only [step] at h
    split_ifs at h
    cases h
    exact tracked_kept hs (List.Subset.refl _)
      (forall_insert (.inr trivial) fun _ _ => .inl)
  | deliver id event memory =>
    simp only [step] at h
    split_ifs at h
    cases h
    exact tracked_kept hs (List.Subset.refl _)
      (forall_insert (.inr trivial) fun _ _ => .inl)
  | next id now collection =>
    simp only [step] at h
    split at h
    · cases h
    · rename_i task ht
      cases h
      exact tracked_advance hs ht
  | fails id =>
    simp only [step] at h
    split_ifs at h
    cases h
    exact tracked_finish hs

theorem run_tracked (hrun : run (step lower memoryPointId) init events = some s) : Tracked s :=
  run_invariant_of_step (fun _ _ _ hs hst => step_tracked hs hst) hrun
    fun _ _ h => by cases h

/-- A request to forget leaves its item forgotten. -/
theorem forgetting_commits {asked : ℕ} (hs : Tracked s) (ht : s.tasks.lookup id = some task)
    (hp : task.phase = .forgetting read asked)
    (h : step lower memoryPointId s (.next id now collection) = some t) :
    ∃ item, t.items.lookup task.memory = some item ∧ item.deletedAt.isSome = true := by
  simp only [step, ht] at h
  cases h
  have hf := hs id task ht
  rw [Found, hp] at hf
  obtain ⟨row, hrow⟩ := Option.isSome_iff_exists.mp (AList.lookup_isSome.mpr hf)
  have hsa : (advance memoryPointId s id task now collection).items.lookup task.memory =
      some { row with
        vectorRef := (read.forget asked).vectorRef
        deletedAt := (read.forget asked).deletedAt } := by
    simp only [advance, hp]
    exact save_lookup (read.forget asked) hrow
  exact ⟨_, hsa, forget_deletedAt read asked⟩

/-- A request to forget an item leaves it forgotten when it commits. From then on, where no item is
forgotten between the read and the write of a worker that indexes it, nor indexed between the read
and the write of a request to forget it, the item stays forgotten, no recall returns it, and
no vector reference is erased. -/
theorem forgotten_stays_forgotten {earlier events : List Event} {read : MemoryItem} {asked : ℕ}
    (hrun : run (step lower memoryPointId) init earlier = some s)
    (htask : s.tasks.lookup id = some task) (hphase : task.phase = .forgetting read asked)
    (hcommit : step lower memoryPointId s (.next id now collection) = some t) :
    (∃ item, t.items.lookup task.memory = some item ∧ item.deletedAt.isSome = true) ∧
      (Guarded (step lower memoryPointId) UpToDate t events →
        (∀ u, Visits (step lower memoryPointId) t events u →
          (∃ item, u.items.lookup task.memory = some item ∧ item.deletedAt.isSome = true) ∧
            ∀ memory item, t.items.lookup memory = some item → item.vectorRef.isSome = true →
              ∃ new, u.items.lookup memory = some new ∧ new.vectorRef.isSome = true) ∧
        ∀ agentKey query k reads recalled,
          (∀ hit items, (hit, items) ∈ reads →
            ∃ u, Visits (step lower memoryPointId) t events u ∧ items = u.items) →
          recallRelevant lower agentKey query k reads = .ok recalled →
            task.memory ∉ recalled.map (·.memoryId)) := by
  obtain ⟨item, hitem, hf⟩ :=
    forgetting_commits (run_tracked hrun) htask hphase hcommit
  refine ⟨⟨item, hitem, hf⟩, fun hg => ?_⟩
  have hs : ∀ u, Visits (step lower memoryPointId) t events u →
      ∃ new, u.items.lookup task.memory = some new ∧ new.deletedAt.isSome = true := by
    intro u hv
    obtain ⟨new, hnew, hk⟩ := visits_kept hg hv task.memory item hitem
    exact ⟨new, hnew, hk.forgotten hf⟩
  refine ⟨fun u hv => ⟨hs u hv, fun memory found hfo hso => ?_⟩, ?_⟩
  · obtain ⟨new, hnew, hk⟩ := visits_kept hg hv memory found hfo
    exact ⟨new, hnew, hk.vectorRef hso⟩
  · intro agentKey query k reads recalled hre hr hm
    obtain ⟨answer, ha, hid⟩ := List.mem_map.mp hm
    unfold recallRelevant at hr
    split at hr
    · cases hr
    · split_ifs at hr
      cases hr
      obtain ⟨⟨hit, items⟩, hrd, hhit⟩ := List.mem_filterMap.mp ha
      obtain ⟨hsa, found, hfo, hl⟩ := recallHit_memoryId hhit
      obtain ⟨u, hv, rfl⟩ := hre hit items hrd
      obtain ⟨new, hnew, hd⟩ := hs u hv
      rw [← hsa, hid, hnew] at hfo
      cases hfo
      rw [hd] at hl
      cases hl

end Steps

private def pointText (memory : ℕ) : Text := List.replicate (memory + 1) 0x61

private def remembered : Event :=
  .remember 1 ⟨ofString "rag", ofString "likes tea", ofString "semantic", 1⟩ 100

/-- A worker that has read an item writes it as it read it: the item, forgotten in between, is
stored as live and recalled again. A request to forget it writes it as it read it too, and erases
the vector reference stored in between. -/
theorem forgotten_item_comes_back :
    (∃ s t, run (step id pointText) init [remembered, .deliver 0 5 1, .next 0 101 [],
        .next 0 102 (ofString "mem-w"), .forget 9 1, .next 9 103 [], .next 9 104 []] = some s ∧
      (s.items.lookup 1).any (·.deletedAt.isSome) = true ∧
      step id pointText s (.next 0 105 []) = some t ∧
      (t.items.lookup 1).any (·.deletedAt.isNone) = true ∧
      (recallHit ⟨1, 1⟩ t.items).isSome = true) ∧
    ∃ s t, run (step id pointText) init [remembered, .forget 9 1, .next 9 101 [], .deliver 0 5 1,
        .next 0 102 [], .next 0 103 (ofString "mem-w"), .next 0 104 []] = some s ∧
      (s.items.lookup 1).any (·.vectorRef.isSome) = true ∧
      step id pointText s (.next 9 105 []) = some t ∧
      (t.items.lookup 1).any (·.vectorRef.isNone) = true := by
  refine ⟨?_, ?_⟩
  · obtain ⟨s, hrun, ht⟩ := exists_run_of_any
      (p := fun s : State => (s.items.lookup 1).any (·.deletedAt.isSome) &&
        (step id pointText s (.next 0 105 [])).any fun t =>
          (t.items.lookup 1).any (·.deletedAt.isNone) && (recallHit ⟨1, 1⟩ t.items).isSome)
      (show (run (step id pointText) init [remembered, .deliver 0 5 1, .next 0 101 [],
        .next 0 102 (ofString "mem-w"), .forget 9 1, .next 9 103 [], .next 9 104 []]).any _ = true
        by decide +kernel)
    rw [Bool.and_eq_true] at ht
    obtain ⟨hf, hn⟩ := ht
    obtain ⟨t, hs, ht⟩ := (Option.any_eq_true _ _).mp hn
    rw [Bool.and_eq_true] at ht
    exact ⟨s, t, hrun, hf, hs, ht.1, ht.2⟩
  · obtain ⟨s, hrun, ht⟩ := exists_run_of_any
      (p := fun s : State => (s.items.lookup 1).any (·.vectorRef.isSome) &&
        (step id pointText s (.next 9 105 [])).any fun t =>
          (t.items.lookup 1).any (·.vectorRef.isNone))
      (show (run (step id pointText) init [remembered, .forget 9 1, .next 9 101 [],
        .deliver 0 5 1, .next 0 102 [], .next 0 103 (ofString "mem-w"), .next 0 104 []]).any _ =
        true by decide +kernel)
    rw [Bool.and_eq_true] at ht
    obtain ⟨hi, hn⟩ := ht
    obtain ⟨t, hs, ht⟩ := (Option.any_eq_true _ _).mp hn
    exact ⟨s, t, hrun, hi, hs, ht⟩

private def indexedThenAsked : List Event :=
  [remembered, .deliver 0 5 1, .next 0 101 [], .next 0 102 (ofString "mem-w"), .next 0 103 [],
    .forget 9 1, .next 9 104 []]

private def redelivery : List Event := [.deliver 2 5 1, .next 2 106 [], .forget 3 1, .next 3 107 [],
  .next 3 108 []]

/-- An indexed item is forgotten, its event redelivered and the item forgotten once more. -/
theorem indexed_item_is_forgotten :
    ∃ s t, run (step id pointText) init indexedThenAsked = some s ∧
      step id pointText s (.next 9 105 []) = some t ∧
      Guarded (step id pointText) UpToDate t redelivery ∧
      (∃ u, run (step id pointText) t redelivery = some u) ∧
      ∀ u, Visits (step id pointText) t redelivery u →
        ∃ item, u.items.lookup 1 = some item ∧ item.deletedAt.isSome = true := by
  obtain ⟨s, hrun, ht⟩ := exists_run_of_any
    (p := fun s : State =>
      ((s.tasks.lookup 9).any fun task => task.memory = 1 && match task.phase with
        | .forgetting _ _ => true
        | _ => false) &&
      (step id pointText s (.next 9 105 [])).any fun t =>
        Guarded (step id pointText) UpToDate t redelivery &&
          (run (step id pointText) t redelivery).isSome)
    (show (run (step id pointText) init indexedThenAsked).any _ = true by decide +kernel)
  rw [Bool.and_eq_true, Option.any_eq_true, Option.any_eq_true] at ht
  obtain ⟨⟨task, hta, ht⟩, t, hs, hmo⟩ := ht
  rw [Bool.and_eq_true, decide_eq_true_eq] at ht hmo
  obtain ⟨hm, hf⟩ := ht
  cases hp : task.phase with
  | forgetting read asked =>
    obtain ⟨-, hall⟩ := forgotten_stays_forgotten hrun hta hp hs
    obtain ⟨hv, -⟩ := hall hmo.1
    rw [hm] at hv
    exact ⟨s, t, hrun, hs, hmo.1, Option.isSome_iff_exists.mp hmo.2,
      fun u hu => (hv u hu).1⟩
  | requested =>
    rw [hp] at hf
    cases hf
  | embedding read =>
    rw [hp] at hf
    cases hf
  | finalizing read vectorRef =>
    rw [hp] at hf
    cases hf

end Aizzak.MemoryItems
