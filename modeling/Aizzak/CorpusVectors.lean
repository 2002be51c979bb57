import Aizzak.DocumentRegistry

/-!
The points of the vector store beside the chunk rows that name them. An indexing attempt upserts
its points batch by batch and writes the rows only in its last transaction; re-indexing and the
purges of a file or a space collect the points through the rows, delete them and then delete the
rows. A point has a row or belongs to an attempt in flight, and a purge under way leaves no point
to the rows it is about to delete.
-/
namespace Aizzak.CorpusVectors

open EventRuns KeyedTables DocumentRegistry List

def embedBatch : ℕ := 128

def batches (count : ℕ) : List (List ℕ) :=
  (List.range ((count + embedBatch - 1) / embedBatch)).map fun i =>
    ((List.range count).drop (i * embedBatch)).take embedBatch

inductive Phase where
  | claiming
  | embedding (todo : List (List ℕ))
  | failing

structure Attempt where
  event : String
  document : String
  contentHash : String
  phase : Phase
  upserted : List ℕ
  indexed : List ℕ

def Attempt.claimed (attempt : Attempt) (count : Option ℕ) : Attempt :=
  { attempt with phase := count.elim .failing fun count => .embedding (batches count) }

inductive UpsertOutcome where
  | succeeds
  | fails (applied : List ℕ)

/-- One call of the embedding provider and the vector store: the positions that reached the
store and the attempt after it. A batch that fails is tried again chunk by chunk. -/
def Attempt.embedAndUpsert (attempt : Attempt) (batch : List ℕ) (rest : List (List ℕ)) :
    UpsertOutcome → List ℕ × Attempt
  | .succeeds =>
    (batch, { attempt with
      phase := .embedding rest
      upserted := attempt.upserted ++ batch
      indexed := attempt.indexed ++ batch })
  | .fails applied =>
    let reached := batch.filter (· ∈ applied)
    (reached, { attempt with
      phase := if batch.length = 1 then .failing else .embedding (batch.map ([·]) ++ rest)
      upserted := attempt.upserted ++ reached })

/-- What a purge covers, read off the rows of the documents. -/
inductive Scope where
  | document (id : String)
  | file (fileId : String)
  | space (spaceId : String)
deriving DecidableEq

def Scope.covers (docs : Documents) (document : String) : Scope → Bool
  | .document id => document = id
  | .file fileId => (docs.lookup document).any (·.fileId = fileId)
  | .space spaceId => (docs.lookup document).any (·.spaceId = some spaceId)

def Scope.isDocument : Scope → Bool
  | .document _ => true
  | _ => false

def sourceScopes (targets : List ReindexTarget) : List Scope := targets.map (.document ·.sourceId)

structure Purge where
  done : List Scope
  todo : List Scope
  refs : Option (List String)

structure State where
  registry : DocumentRegistry.State
  chunks : List (String × ℕ)
  points : List String
  processed : List String
  attempts : AList fun _ : ℕ => Attempt
  purges : AList fun _ : ℕ => Purge

inductive DeleteOutcome where
  | succeeds
  | fails (applied : List String)

inductive Event where
  | request (event : DocumentRegistry.Event)
  | deliver (id : ℕ) (event document contentHash : String)
  | deliverUnreadable (id : ℕ) (event document contentHash : String)
  | claim (id : ℕ) (count : Option ℕ)
  | embedAndUpsert (id : ℕ) (outcome : UpsertOutcome)
  | finalize (id : ℕ)
  | crash (id : ℕ)
  | purge (id : ℕ) (scope : Scope)
  | purgeVectors (id : ℕ)
  | collect (id : ℕ)
  | delete (id : ℕ) (outcome : DeleteOutcome)
  | purgeCommit (id : ℕ)
  | reindexCommit (id : ℕ)
  | purgeAbort (id : ℕ)

def isRequest : DocumentRegistry.Event → Bool
  | .reindexCommit _ | .setStatus _ _ _ _ | .purgeFile _ | .purgeSpace _ => false
  | _ => true

local instance lawfulBEq_chunkRow : LawfulBEq (String × ℕ) := inferInstance

namespace State

def docs (s : State) : Documents := s.registry.docs

def withDocs (s : State) (docs : Documents) : State :=
  { s with registry := { s.registry with docs := docs } }

def setStatus (s : State) (document : String) (status : IndexStatus) (contentHash : Option String)
    (version : Option ℕ) : State :=
  s.withDocs (DocumentRegistry.setStatus s.docs document status contentHash version)

def withAttempt (s : State) (id : ℕ) (attempt : Attempt) : State :=
  { s with attempts := s.attempts.insert id attempt }

def withPurge (s : State) (id : ℕ) (purge : Purge) : State :=
  { s with purges := s.purges.insert id purge }

def addChunks (s : State) (document : String) (seqs : List ℕ) : State :=
  { s with
    chunks := s.chunks ++ (seqs.filter fun seq => (document, seq) ∉ s.chunks).map (document, ·) }

def deleteRows (s : State) (id : ℕ) (covered : String → Bool)
    (registry : DocumentRegistry.State) : State :=
  { s with
    registry := registry
    chunks := s.chunks.filter fun row => !covered row.1
    purges := s.purges.erase id }

/-- The read that starts an attempt: a document that is gone or terminal starts none. -/
def start (s : State) (id : ℕ) (attempt : Attempt) : Option State :=
  if id ∈ s.attempts then none
  else match s.docs.lookup attempt.document with
    | none => some s
    | some document =>
      if document.status.isTerminal then some s else some (s.withAttempt id attempt)

/-- Whether the last transaction of the attempt writes its rows: the event is not yet
processed and the document the rows refer to exists. -/
def storesRows (s : State) (attempt : Attempt) : Bool :=
  match attempt.phase with
  | .embedding [] => attempt.event ∉ s.processed ∧ attempt.document ∈ s.docs
  | _ => false

/-- The last transaction of an attempt. A delivery processed before writes nothing, and a
missing document fails the foreign key and with it the transaction. -/
def finalize (s : State) (id : ℕ) (attempt : Attempt) : Option State :=
  let ended := { s with attempts := s.attempts.erase id }
  let claimed := { ended with processed := attempt.event :: s.processed }
  match attempt.phase with
  | .embedding [] =>
    some (if attempt.event ∈ s.processed then ended
      else if attempt.document ∈ s.docs then
        (claimed.addChunks attempt.document attempt.indexed).setStatus attempt.document
          .indexed (some attempt.contentHash) (some pipelineVersion)
      else if attempt.indexed = [] then claimed
      else ended)
  | .failing =>
    some (if attempt.event ∈ s.processed then ended
      else claimed.setStatus attempt.document .failed none none)
  | _ => none

end State

section Machine

variable (pointId : String → ℕ → String)

def pointIds (document : String) (seqs : List ℕ) : List String := seqs.map (pointId document)

def State.vectorRefs (s : State) (scope : Scope) : List String :=
  (s.chunks.filter fun row => scope.covers s.docs row.1).map fun row => pointId row.1 row.2

def step (s : State) : Event → Option State
  | .request event =>
    if isRequest event then
      (DocumentRegistry.step s.registry event).map fun registry => { s with registry := registry }
    else none
  | .deliver id event document contentHash =>
    s.start id ⟨event, document, contentHash, .claiming, [], []⟩
  | .deliverUnreadable id event document contentHash =>
    s.start id ⟨event, document, contentHash, .failing, [], []⟩
  | .claim id count =>
    match s.attempts.lookup id with
    | some attempt =>
      match attempt.phase with
      | .claiming =>
        some ((s.setStatus attempt.document .indexing none none).withAttempt id
          (attempt.claimed count))
      | _ => none
    | none => none
  | .embedAndUpsert id outcome =>
    match s.attempts.lookup id with
    | some attempt =>
      match attempt.phase with
      | .embedding (batch :: rest) =>
        let (reached, attempt) := attempt.embedAndUpsert batch rest outcome
        some ({ s with points := s.points ++ pointIds pointId attempt.document reached }.withAttempt
          id attempt)
      | _ => none
    | none => none
  | .finalize id => (s.attempts.lookup id).bind fun attempt => s.finalize id attempt
  | .crash id => some { s with attempts := s.attempts.erase id }
  | .purge id scope =>
    if id ∈ s.purges ∨ scope.isDocument then none else some (s.withPurge id ⟨[], [scope], none⟩)
  | .purgeVectors id =>
    match s.registry.calls.lookup id with
    | some (.planned targets) =>
      if id ∈ s.purges then none
      else some (s.withPurge id ⟨[], sourceScopes targets, none⟩)
    | _ => none
  | .collect id =>
    match s.purges.lookup id with
    | some ⟨done, scope :: todo, none⟩ =>
      some (s.withPurge id ⟨done, scope :: todo, some (s.vectorRefs pointId scope)⟩)
    | _ => none
  | .delete id outcome =>
    match s.purges.lookup id with
    | some ⟨done, scope :: todo, some refs⟩ =>
      match outcome with
      | .succeeds =>
        some ({ s with points := s.points.filter (· ∉ refs) }.withPurge id
          ⟨scope :: done, todo, none⟩)
      | .fails applied =>
        some { s with
          points := s.points.filter fun point => ¬ (point ∈ refs ∧ point ∈ applied)
          purges := s.purges.erase id }
    | _ => none
  | .purgeCommit id =>
    match s.purges.lookup id with
    | some ⟨[scope], [], none⟩ =>
      if scope.isDocument then none
      else
        let covered := fun document => scope.covers s.docs document
        let docs := eraseAll s.docs (s.docs.keys.filter covered)
        some (s.deleteRows id covered { s.registry with docs := docs })
    | _ => none
  | .reindexCommit id =>
    match s.purges.lookup id, s.registry.calls.lookup id with
    | some ⟨done, [], none⟩, some (.planned targets) =>
      if done = (sourceScopes targets).reverse then
        (DocumentRegistry.step s.registry (.reindexCommit id)).map fun registry =>
          s.deleteRows id (· ∈ targets.map (·.sourceId)) registry
      else none
    | _, _ => none
  | .purgeAbort id => some { s with purges := s.purges.erase id }

end Machine

/-- Every point of the store has a chunk row with its id, of a document that exists. -/
def NoOrphans (pointId : String → ℕ → String) (s : State) : Prop :=
  ∀ point ∈ s.points, ∃ row ∈ s.chunks, pointId row.1 row.2 = point ∧ row.1 ∈ s.docs

def Purge.covers (purge : Purge) (docs : Documents) (document : String) : Bool :=
  (purge.done ++ purge.todo).any (·.covers docs document)

def RowsCover (s : State) (attempt : Attempt) : Prop :=
  ∀ seq ∈ attempt.upserted, (attempt.document, seq) ∈ s.chunks

instance (s : State) (attempt : Attempt) : Decidable (RowsCover s attempt) :=
  List.decidableBAll _ attempt.upserted

def Unpurged (s : State) (document : String) : Prop :=
  ∀ id ∈ s.purges.keys, (s.purges.lookup id).all (!·.covers s.docs document) = true

instance (s : State) (document : String) : Decidable (Unpurged s document) :=
  List.decidableBAll _ s.purges.keys

def Unattempted (s : State) (scopes : List Scope) : Prop :=
  ∀ id ∈ s.attempts.keys,
    (s.attempts.lookup id).all
      (fun attempt => !scopes.any (·.covers s.docs attempt.document)) = true

instance (s : State) (scopes : List Scope) : Decidable (Unattempted s scopes) :=
  List.decidableBAll _ s.attempts.keys

/-- The attempt, if there is one, writes its rows or has left no point without a row. -/
def EndsClean (s : State) (id : ℕ) (stores : Attempt → Bool) : Prop :=
  (s.attempts.lookup id).all (fun attempt => stores attempt || decide (RowsCover s attempt)) = true

/-- Attempts end clean, and no attempt overlaps a purge or re-index of its document. -/
def Orderly (s : State) : Event → Prop
  | .deliver _ _ document _ => Unpurged s document
  | .deliverUnreadable _ _ document _ => Unpurged s document
  | .finalize id => EndsClean s id s.storesRows
  | .crash id => EndsClean s id fun _ => false
  | .purge _ scope => Unattempted s [scope]
  | .purgeVectors id =>
    match s.registry.calls.lookup id with
    | some (.planned targets) => Unattempted s (sourceScopes targets)
    | _ => True
  | _ => True

instance (s : State) (id : ℕ) (stores : Attempt → Bool) : Decidable (EndsClean s id stores) :=
  inferInstanceAs (Decidable (_ = true))

instance (s : State) : ∀ e, Decidable (Orderly s e)
  | .deliver _ _ document _ => inferInstanceAs (Decidable (Unpurged s document))
  | .deliverUnreadable _ _ document _ => inferInstanceAs (Decidable (Unpurged s document))
  | .finalize id => inferInstanceAs (Decidable (EndsClean s id s.storesRows))
  | .crash id => inferInstanceAs (Decidable (EndsClean s id fun _ => false))
  | .purge _ scope => inferInstanceAs (Decidable (Unattempted s [scope]))
  | .purgeVectors id =>
    match h : s.registry.calls.lookup id with
    | some (.planned targets) =>
      decidable_of_iff (Unattempted s (sourceScopes targets)) (by simp [Orderly, h])
    | some (.registering _ _) => .isTrue (by simp [Orderly, h])
    | some (.comparing _) => .isTrue (by simp [Orderly, h])
    | some (.preparing _ _) => .isTrue (by simp [Orderly, h])
    | none => .isTrue (by simp [Orderly, h])
  | .request _ | .claim _ _ | .embedAndUpsert _ _ | .collect _ | .delete _ _ | .purgeCommit _
  | .reindexCommit _ | .purgeAbort _ => .isTrue trivial

structure KeptAt (docs docs' : Documents) (document : String) : Prop where
  mem : document ∈ docs'
  covers : ∀ scope : Scope, scope.covers docs' document = scope.covers docs document

variable {docs docs' : Documents} {document : String}

theorem keptAt_of_lookup {row row' : Document} (h : docs.lookup document = some row)
    (h' : docs'.lookup document = some row') (hf : row'.fileId = row.fileId)
    (hs : row'.spaceId = row.spaceId) :
    KeptAt docs docs' document := by
  refine ⟨mem_of_lookup h', ?_⟩
  intro scope
  cases scope with
  | document id => rfl
  | file fileId => simp [Scope.covers, h, h', hf]
  | space spaceId => simp [Scope.covers, h, h', hs]

def Kept (docs docs' : Documents) : Prop := ∀ document ∈ docs, KeptAt docs docs' document

theorem lookup_of_mem (h : document ∈ docs) :
    ∃ row, docs.lookup document = some row :=
  Option.isSome_iff_exists.mp (AList.lookup_isSome.mpr h)

theorem kept_insert {id : String} (hf : id ∉ docs) (row : Document) :
    Kept docs (docs.insert id row) := by
  intro document hmem
  obtain ⟨old, hold⟩ := lookup_of_mem hmem
  have hne : document ≠ id := fun heq => hf (heq ▸ hmem)
  exact keptAt_of_lookup hold (lookup_insert_iff.mpr (.inr ⟨hne, hold⟩)) rfl rfl

theorem kept_setStatus (docs : Documents) (id : String) (status : IndexStatus)
    (contentHash : Option String) (version : Option ℕ) :
    Kept docs (setStatus docs id status contentHash version) := by
  intro document hmem
  obtain ⟨old, hold⟩ := lookup_of_mem hmem
  unfold setStatus
  by_cases hid : document = id
  · subst hid
    rw [hold]
    refine keptAt_of_lookup hold (AList.lookup_insert docs) ?_ ?_ <;> split_ifs <;> rfl
  · split
    next => exact keptAt_of_lookup hold hold rfl rfl
    next =>
      exact keptAt_of_lookup hold (lookup_insert_iff.mpr (.inr ⟨hid, hold⟩)) rfl rfl

/-- A request that is no commit of a re-index adds at most a fresh document. -/
theorem kept_request {r r' : DocumentRegistry.State} {e : DocumentRegistry.Event}
    (he : isRequest e = true) (h : DocumentRegistry.step r e = some r') : Kept r.docs r'.docs := by
  have hs : ∀ {t : DocumentRegistry.State}, t.docs = r.docs → Kept r.docs t.docs := by
    intro t heq document hmem
    rw [heq]
    exact ⟨hmem, fun _ => rfl⟩
  cases e with
  | indexRead call fileId view =>
    simp only [DocumentRegistry.step] at h
    split_ifs at h
    split at h
    next => exact hs (Option.some.inj h ▸ rfl)
    next => split at h <;> exact hs (Option.some.inj h ▸ rfl)
  | indexCompare call =>
    simp only [DocumentRegistry.step] at h
    split at h
    next => exact hs (Option.some.inj h ▸ rfl)
    next => cases h
  | indexCommit call documentId =>
    simp only [DocumentRegistry.step] at h
    split at h
    next =>
      split_ifs at h with hf
      cases h
      exact kept_insert hf _
    next => cases h
  | reindexStart call ids =>
    simp only [DocumentRegistry.step] at h
    split_ifs at h
    split at h <;> exact hs (Option.some.inj h ▸ rfl)
  | reindexRead call replacementId =>
    simp only [DocumentRegistry.step] at h
    split at h
    next => split at h <;> exact hs (Option.some.inj h ▸ rfl)
    next => cases h
  | reindexFiles call readable =>
    simp only [DocumentRegistry.step] at h
    split at h
    next => split at h <;> exact hs (Option.some.inj h ▸ rfl)
    next => cases h
  | abort call => exact hs (Option.some.inj h ▸ rfl)
  | reindexCommit call => cases he
  | setStatus documentId status contentHash version => cases he
  | purgeFile fileId => cases he
  | purgeSpace spaceId => cases he

theorem commitTargets_lookup {targets : List ReindexTarget}
    (h : commitTargets docs targets = some docs') {row : Document}
    (hrow : docs.lookup document = some row) (hout : document ∉ targets.map (·.sourceId)) :
    docs'.lookup document = some row := by
  induction targets generalizing docs with
  | nil => exact Option.some.inj h ▸ hrow
  | cons target targets ih =>
    simp only [map_cons, mem_cons, not_or] at hout
    simp only [commitTargets] at h
    split_ifs at h with hf
    have hk : (docs.erase target.sourceId).lookup document = some row :=
      lookup_erase_iff.mpr ⟨hout.1, hrow⟩
    have hne : document ≠ target.replacementId := fun heq => hf (heq ▸ mem_of_lookup hk)
    exact ih h (lookup_insert_iff.mpr (.inr ⟨hne, hk⟩)) hout.2

def Attempt.Accounted (attempt : Attempt) : Prop :=
  match attempt.phase with
  | .claiming => attempt.upserted = []
  | .embedding todo => ∀ seq ∈ attempt.upserted, seq ∈ attempt.indexed ∨ seq ∈ todo.flatten
  | .failing => True

/-- The point has a row that no purge under way is about to delete, or an attempt in flight. -/
def Justified (pointId : String → ℕ → String) (s : State) (point : String) : Prop :=
  (∃ row ∈ s.chunks, pointId row.1 row.2 = point ∧
    ∀ id purge, s.purges.lookup id = some purge →
      ∀ scope ∈ purge.done, scope.covers s.docs row.1 = false) ∨
  ∃ id attempt, s.attempts.lookup id = some attempt ∧
    ∃ seq ∈ attempt.upserted, pointId attempt.document seq = point

structure Sound (pointId : String → ℕ → String) (s : State) : Prop where
  foreignKey : ∀ row ∈ s.chunks, row.1 ∈ s.docs
  live : ∀ id attempt, s.attempts.lookup id = some attempt → attempt.document ∈ s.docs
  accounted : ∀ id attempt, s.attempts.lookup id = some attempt → attempt.Accounted
  apart : ∀ id attempt purgeId purge, s.attempts.lookup id = some attempt →
    s.purges.lookup purgeId = some purge → purge.covers s.docs attempt.document = false
  collected : ∀ id done scope todo refs,
    s.purges.lookup id = some ⟨done, scope :: todo, some refs⟩ →
    ∀ row ∈ s.chunks, scope.covers s.docs row.1 = true → pointId row.1 row.2 ∈ refs
  justified : ∀ point ∈ s.points, Justified pointId s point

variable {pointId : String → ℕ → String} {s : State}

theorem Purge.covers_eq_false {purge : Purge} :
    purge.covers docs document = false ↔
      ∀ scope ∈ purge.done ++ purge.todo, scope.covers docs document = false := by
  simp only [Purge.covers, any_eq_false, Bool.not_eq_true]

theorem KeptAt.purge_covers (h : KeptAt docs docs' document) (purge : Purge) :
    purge.covers docs' document = purge.covers docs document := by
  simp only [Purge.covers, h.covers]

theorem Sound.noOrphans (hs : Sound pointId s) (hi : s.attempts = ∅) : NoOrphans pointId s := by
  intro point hp
  rcases hs.justified point hp with ⟨row, hrow, hid, -⟩ | ⟨id, attempt, ha, -⟩
  · exact ⟨row, hrow, hid, hs.foreignKey row hrow⟩
  · simp [hi] at ha

/-- Documents may come and change otherwise than in what covers them. -/
theorem Sound.registry (hs : Sound pointId s) {registry : DocumentRegistry.State}
    (hk : Kept s.docs registry.docs) : Sound pointId { s with registry := registry } where
  foreignKey row hrow := (hk row.1 (hs.foreignKey row hrow)).mem
  live id attempt ha := (hk _ (hs.live id attempt ha)).mem
  accounted := hs.accounted
  apart := by
    intro id attempt purgeId purge ha hpu
    exact ((hk _ (hs.live id attempt ha)).purge_covers purge).trans
      (hs.apart id attempt purgeId purge ha hpu)
  collected := by
    intro id done scope todo refs hpu row hrow hc
    rw [State.docs, (hk row.1 (hs.foreignKey row hrow)).covers] at hc
    exact hs.collected id done scope todo refs hpu row hrow hc
  justified := by
    intro point hpo
    rcases hs.justified point hpo with ⟨row, hrow, hid, hp⟩ | ha
    · refine .inl ⟨row, hrow, hid, ?_⟩
      intro id purge hpu scope hsc
      exact ((hk row.1 (hs.foreignKey row hrow)).covers scope).trans
        (hp id purge hpu scope hsc)
    · exact .inr ha

theorem Sound.setStatus (hs : Sound pointId s) (document : String) (status : IndexStatus)
    (contentHash : Option String) (version : Option ℕ) :
    Sound pointId (s.setStatus document status contentHash version) :=
  hs.registry (kept_setStatus s.docs document status contentHash version)

theorem Sound.processed (hs : Sound pointId s) (processed : List String) :
    Sound pointId { s with processed := processed } :=
  ⟨hs.foreignKey, hs.live, hs.accounted, hs.apart, hs.collected, hs.justified⟩

variable {id : ℕ}

theorem Unpurged.covers_eq_false (h : Unpurged s document) {purge : Purge}
    (hp : s.purges.lookup id = some purge) :
    purge.covers s.docs document = false := by
  have hnot := h id (AList.mem_keys.mp (mem_of_lookup hp))
  simpa [hp] using hnot

variable {attempt : Attempt} {scope : Scope}

theorem Unattempted.covers_eq_false {scopes : List Scope} (h : Unattempted s scopes)
    (ha : s.attempts.lookup id = some attempt) (hs : scope ∈ scopes) :
    scope.covers s.docs attempt.document = false := by
  have hnot := h id (AList.mem_keys.mp (mem_of_lookup ha))
  simp only [ha, Option.all_some, Bool.not_eq_true', any_eq_false,
    Bool.not_eq_true] at hnot
  exact hnot scope hs

/-- An attempt enters the table in place of the one that was there, if any: whatever that one
upserted the new one has upserted, and new points are its own. -/
theorem Sound.withAttempt (hs : Sound pointId s) {new : Attempt} (points : List String)
    (hl : new.document ∈ s.docs) (ha : new.Accounted)
    (hap : ∀ purgeId purge, s.purges.lookup purgeId = some purge →
      purge.covers s.docs new.document = false)
    (hr : ∀ old, s.attempts.lookup id = some old →
      new.document = old.document ∧ old.upserted ⊆ new.upserted)
    (hp : ∀ point ∈ points, point ∈ s.points ∨
      ∃ seq ∈ new.upserted, pointId new.document seq = point) :
    Sound pointId ({ s with points := points }.withAttempt id new) where
  foreignKey := hs.foreignKey
  live := forall_insert hl hs.live
  accounted := forall_insert ha hs.accounted
  apart := by
    intro i a purgeId purge hi hpu
    rcases lookup_insert_iff.mp hi with ⟨-, rfl⟩ | ⟨-, hi⟩
    · exact hap purgeId purge hpu
    · exact hs.apart i a purgeId purge hi hpu
  collected := hs.collected
  justified := by
    intro point hpo
    have hnew : (s.attempts.insert id new).lookup id = some new := AList.lookup_insert s.attempts
    rcases hp point hpo with hpo | hown
    · rcases hs.justified point hpo with hrow | ⟨i, a, hi, seq, hseq, hid⟩
      · exact .inl hrow
      · by_cases hsa : i = id
        · subst hsa
          obtain ⟨hd, hu⟩ := hr a hi
          exact .inr ⟨i, new, hnew, seq, hu hseq, hd ▸ hid⟩
        · exact .inr ⟨i, a, lookup_insert_iff.mpr (.inr ⟨hsa, hi⟩), seq, hseq, hid⟩
    · exact .inr ⟨id, new, hnew, hown⟩

theorem Sound.start (hs : Sound pointId s) (attempt : Attempt) {t : State}
    (ha : attempt.Accounted) (hu : Unpurged s attempt.document)
    (h : s.start id attempt = some t) : Sound pointId t := by
  unfold State.start at h
  split_ifs at h with hnew
  split at h
  next => exact Option.some.inj h ▸ hs
  next document hd =>
    split_ifs at h
    · exact Option.some.inj h ▸ hs
    cases h
    refine hs.withAttempt s.points (mem_of_lookup hd) ha ?_ ?_ ?_
    · intro purgeId purge hp
      exact hu.covers_eq_false hp
    · intro old hold
      exact absurd (mem_of_lookup hold) hnew
    · intro point hpo
      exact .inl hpo

theorem Sound.advance (hs : Sound pointId s) {old : Attempt} (new : Attempt) (reached : List ℕ)
    (hold : s.attempts.lookup id = some old) (hd : new.document = old.document)
    (hu : new.upserted = old.upserted ++ reached) (ha : new.Accounted) :
    Sound pointId ({ s with
      points := s.points ++ pointIds pointId new.document reached }.withAttempt id new) := by
  refine hs.withAttempt _ (hd ▸ hs.live id old hold) ha ?_ ?_ ?_
  · intro purgeId purge hpu
    exact hd ▸ hs.apart id old purgeId purge hold hpu
  · intro other ho
    obtain rfl := Option.mem_unique hold ho
    exact ⟨hd, hu ▸ subset_append_left _ _⟩
  · intro point hp
    rcases mem_append.mp hp with hp | hp
    · exact .inl hp
    · obtain ⟨seq, hseq, hid⟩ := mem_map.mp hp
      exact .inr ⟨seq, by simp [hu, hseq], hid⟩

theorem Sound.leave (hs : Sound pointId s)
    (hc : ∀ attempt, s.attempts.lookup id = some attempt → RowsCover s attempt) :
    Sound pointId { s with attempts := s.attempts.erase id } where
  foreignKey := hs.foreignKey
  live i a hi := hs.live i a (lookup_erase_iff.mp hi).2
  accounted i a hi := hs.accounted i a (lookup_erase_iff.mp hi).2
  apart i a purgeId purge hi := hs.apart i a purgeId purge (lookup_erase_iff.mp hi).2
  collected := hs.collected
  justified := by
    intro point hp
    rcases hs.justified point hp with hrow | ⟨i, a, hi, seq, hseq, hid⟩
    · exact .inl hrow
    · by_cases hsa : i = id
      · subst hsa
        refine .inl ⟨_, hc a hi seq hseq, hid, ?_⟩
        intro purgeId purge hpu scope hsc
        exact Purge.covers_eq_false.mp (hs.apart i a purgeId purge hi hpu) scope
          (mem_append_left _ hsc)
      · exact .inr ⟨i, a, lookup_erase_iff.mpr ⟨hsa, hi⟩, seq, hseq, hid⟩

/-- Rows written by an attempt in flight belong to a document no purge covers. -/
theorem Sound.addChunks (hs : Sound pointId s) (ha : s.attempts.lookup id = some attempt)
    (seqs : List ℕ) :
    Sound pointId (s.addChunks attempt.document seqs) where
  foreignKey := by
    intro row hrow
    rcases mem_append.mp hrow with hrow | hrow
    · exact hs.foreignKey row hrow
    · obtain ⟨seq, -, rfl⟩ := mem_map.mp hrow
      exact hs.live id attempt ha
  live := hs.live
  accounted := hs.accounted
  apart := hs.apart
  collected := by
    intro purgeId done scope todo refs hpu row hrow hc
    rcases mem_append.mp hrow with hrow | hrow
    · exact hs.collected purgeId done scope todo refs hpu row hrow hc
    · obtain ⟨seq, -, rfl⟩ := mem_map.mp hrow
      have hnot := Purge.covers_eq_false.mp (hs.apart id attempt purgeId _ ha hpu) scope
        (by simp)
      exact absurd (hnot.symm.trans hc) (by decide)
  justified := by
    intro point hpo
    rcases hs.justified point hpo with ⟨row, hrow, hid, hp⟩ | hf
    · exact .inl ⟨row, mem_append_left _ hrow, hid, hp⟩
    · exact .inr hf

theorem rowsCover_addChunks (h : ∀ seq ∈ attempt.upserted, seq ∈ attempt.indexed) :
    RowsCover (s.addChunks attempt.document attempt.indexed) attempt := by
  intro seq hseq
  by_cases hrow : (attempt.document, seq) ∈ s.chunks
  · exact mem_append_left _ hrow
  · refine mem_append_right _ (mem_map.mpr ⟨seq, ?_, rfl⟩)
    simpa using ⟨h seq hseq, hrow⟩

theorem EndsClean.rowsCover {stores : Attempt → Bool} (h : EndsClean s id stores)
    (ha : s.attempts.lookup id = some attempt) (hs : stores attempt = false) :
    RowsCover s attempt := by
  simpa [EndsClean, ha, hs] using h

theorem Sound.finalize (hs : Sound pointId s) {t : State}
    (hat : s.attempts.lookup id = some attempt) (hc : EndsClean s id s.storesRows)
    (h : s.finalize id attempt = some t) : Sound pointId t := by
  have hl : s.storesRows attempt = false →
      Sound pointId { s with attempts := s.attempts.erase id } := by
    intro hst
    apply hs.leave
    intro a ha
    obtain rfl := Option.mem_unique hat ha
    exact hc.rowsCover hat hst
  unfold State.finalize at h
  simp only at h
  split at h
  next hph =>
    cases h
    split_ifs with hp hd hem
    · exact hl (by simp [State.storesRows, hph, hp])
    · have hac := hs.accounted id attempt hat
      simp only [Attempt.Accounted, hph, flatten_nil, not_mem_nil, or_false]
        at hac
      have hco : ∀ a, s.attempts.lookup id = some a →
          RowsCover (s.addChunks attempt.document attempt.indexed) a := by
        intro a ha
        obtain rfl := Option.mem_unique hat ha
        exact rowsCover_addChunks hac
      have hr := (hs.addChunks hat attempt.indexed).leave hco
      exact (hr.processed _).setStatus _ _ _ _
    · exact (hl (by simp [State.storesRows, hph, hd])).processed _
    · exact hl (by simp [State.storesRows, hph, hd])
  next hph =>
    cases h
    have he := hl (by simp [State.storesRows, hph])
    split_ifs with hp
    · exact he
    · exact (he.processed _).setStatus _ _ _ _
  next => cases h

/-- A purge enters the table or moves on: no attempt is over what it covers, what it has
collected is complete, and the points that are left have their rows elsewhere. -/
theorem Sound.withPurge (hs : Sound pointId s) {new : Purge} (points : List String)
    (hsu : points ⊆ s.points)
    (ha : ∀ i a, s.attempts.lookup i = some a → new.covers s.docs a.document = false)
    (hco : ∀ scope ∈ new.todo.head?, ∀ refs ∈ new.refs, ∀ row ∈ s.chunks,
      scope.covers s.docs row.1 = true → pointId row.1 row.2 ∈ refs)
    (hd : ∀ row ∈ s.chunks, pointId row.1 row.2 ∈ points →
      (∀ i purge, s.purges.lookup i = some purge →
        ∀ scope ∈ purge.done, scope.covers s.docs row.1 = false) →
      ∀ scope ∈ new.done, scope.covers s.docs row.1 = false) :
    Sound pointId ({ s with points := points }.withPurge id new) where
  foreignKey := hs.foreignKey
  live := hs.live
  accounted := hs.accounted
  apart := by
    intro i a purgeId purge hi hl
    rcases lookup_insert_iff.mp hl with ⟨-, rfl⟩ | ⟨-, hl⟩
    · exact ha i a hi
    · exact hs.apart i a purgeId purge hi hl
  collected := by
    intro purgeId done scope todo refs hl row hrow hc
    rcases lookup_insert_iff.mp hl with ⟨-, rfl⟩ | ⟨-, hl⟩
    · exact hco scope rfl refs rfl row hrow hc
    · exact hs.collected purgeId done scope todo refs hl row hrow hc
  justified := by
    intro point hpo
    rcases hs.justified point (hsu hpo) with ⟨row, hrow, rfl, hp⟩ | hf
    · exact .inl ⟨row, hrow, rfl, forall_insert (hd row hrow hpo hp) hp⟩
    · exact .inr hf

/-- A purge that has deleted nothing yet, over documents without an attempt. -/
theorem Sound.purgeStart (hs : Sound pointId s) {scopes : List Scope}
    (hf : Unattempted s scopes) :
    Sound pointId (s.withPurge id ⟨[], scopes, none⟩) := by
  refine hs.withPurge s.points (List.Subset.refl _) ?_ ?_ ?_
  · intro i a hi
    exact Purge.covers_eq_false.mpr fun scope hsc => hf.covers_eq_false hi hsc
  · intro scope _ refs hr
    cases hr
  · intro row _ _ _ scope hsc
    cases hsc

variable {done : List Scope}

theorem Sound.collect (hs : Sound pointId s) {todo : List Scope}
    (hpu : s.purges.lookup id = some ⟨done, scope :: todo, none⟩) :
    Sound pointId (s.withPurge id
      ⟨done, scope :: todo, some (s.vectorRefs pointId scope)⟩) := by
  refine hs.withPurge s.points (List.Subset.refl _) ?_ ?_ ?_
  · intro i a hi
    have hnot := hs.apart i a id _ hi hpu
    exact hnot
  · intro scope' hsc refs hr row hrow hc
    cases hsc
    cases hr
    exact mem_map.mpr ⟨row, mem_filter.mpr ⟨hrow, hc⟩, rfl⟩
  · intro row _ _ hp
    have hd := hp id _ hpu
    exact hd

/-- The points collected for a scope are gone: what is left has its row elsewhere. -/
theorem Sound.delete (hs : Sound pointId s) {todo : List Scope} {refs : List String}
    (hpu : s.purges.lookup id = some ⟨done, scope :: todo, some refs⟩) :
    Sound pointId ({ s with points := s.points.filter (· ∉ refs) }.withPurge id
      ⟨scope :: done, todo, none⟩) := by
  refine hs.withPurge _ (fun point hpo => (mem_filter.mp hpo).1) ?_ ?_ ?_
  · intro i a hi
    have hnot := Purge.covers_eq_false.mp (hs.apart i a id _ hi hpu)
    refine Purge.covers_eq_false.mpr fun scope' hsc => hnot scope' ?_
    simp only [cons_append, mem_cons, mem_append] at hsc ⊢
    tauto
  · intro scope' _ refs' hr
    cases hr
  · intro row hrow hpo hp scope' hsc
    have hl : pointId row.1 row.2 ∉ refs := by simpa using (mem_filter.mp hpo).2
    rcases mem_cons.mp hsc with rfl | hsc
    · by_contra hc
      rw [Bool.not_eq_false] at hc
      exact hl (hs.collected id done scope' todo refs hpu row hrow hc)
    · exact hp id _ hpu scope' hsc

/-- Fewer points and fewer purges under way need no justification. -/
theorem Sound.abort (hs : Sound pointId s) {points : List String}
    (hp : ∀ point ∈ points, point ∈ s.points) (id : ℕ) :
    Sound pointId { s with points := points, purges := s.purges.erase id } where
  foreignKey := hs.foreignKey
  live := hs.live
  accounted := hs.accounted
  apart i a purgeId purge hi hlookup :=
    hs.apart i a purgeId purge hi (lookup_erase_iff.mp hlookup).2
  collected purgeId done scope todo refs hlookup :=
    hs.collected purgeId done scope todo refs (lookup_erase_iff.mp hlookup).2
  justified := by
    intro point hpo
    rcases hs.justified point (hp point hpo) with ⟨row, hrow, hid, hpu⟩ | hf
    · refine .inl ⟨row, hrow, hid, ?_⟩
      intro purgeId purge hlookup
      exact hpu purgeId purge (lookup_erase_iff.mp hlookup).2
    · exact .inr hf

/-- Deleting the rows of a purge leaves no point without a row. -/
theorem Sound.deleteRows (hs : Sound pointId s)
    (hpu : s.purges.lookup id = some ⟨done, [], none⟩) {covered : String → Bool}
    (hc : ∀ document, covered document = false ↔
      ∀ scope ∈ done, scope.covers s.docs document = false) {registry : DocumentRegistry.State}
    (hk : ∀ document ∈ s.docs, covered document = false → KeptAt s.docs registry.docs document) :
    Sound pointId (s.deleteRows id covered registry) := by
  have ha : ∀ i a, s.attempts.lookup i = some a →
      KeptAt s.docs registry.docs a.document := by
    intro i a hi
    refine hk _ (hs.live i a hi) ((hc _).mpr fun scope hsc => ?_)
    exact Purge.covers_eq_false.mp (hs.apart i a id _ hi hpu) scope (by simpa using hsc)
  have hr : ∀ row ∈ s.chunks, covered row.1 = false → KeptAt s.docs registry.docs row.1 :=
    fun row hrow => hk row.1 (hs.foreignKey row hrow)
  exact {
    foreignKey := by
      intro row hrow
      simp only [State.deleteRows, mem_filter, Bool.not_eq_true'] at hrow
      exact (hr row hrow.1 hrow.2).mem
    live := fun i a hi => (ha i a hi).mem
    accounted := hs.accounted
    apart := by
      intro i a purgeId purge hi hl
      exact ((ha i a hi).purge_covers purge).trans
        (hs.apart i a purgeId purge hi (lookup_erase_iff.mp hl).2)
    collected := by
      intro purgeId done' scope todo refs hl row hrow hco
      simp only [State.deleteRows, mem_filter, Bool.not_eq_true'] at hrow
      refine hs.collected purgeId done' scope todo refs (lookup_erase_iff.mp hl).2
        row hrow.1 ?_
      exact ((hr row hrow.1 hrow.2).covers scope).symm.trans hco
    justified := by
      intro point hpo
      rcases hs.justified point hpo with ⟨row, hrow, hid, hp⟩ | hf
      · have hout : covered row.1 = false := (hc row.1).mpr (hp id _ hpu)
        refine .inl ⟨row, mem_filter.mpr ⟨hrow, by simp [hout]⟩, hid, ?_⟩
        intro purgeId purge hl scope hsc
        exact ((hr row hrow hout).covers scope).trans
          (hp purgeId purge (lookup_erase_iff.mp hl).2 scope hsc)
      · exact .inr hf }

theorem Attempt.claimed_accounted (hp : attempt.phase = .claiming)
    (ha : attempt.Accounted) (count : Option ℕ) : (attempt.claimed count).Accounted := by
  have he : attempt.upserted = [] := by
    simpa [Accounted, hp] using ha
  cases count with
  | none => trivial
  | some count => simp [Accounted, claimed, he]

theorem Attempt.embedAndUpsert_spec {batch : List ℕ} {rest : List (List ℕ)}
    (hp : attempt.phase = .embedding (batch :: rest)) (ha : attempt.Accounted)
    (outcome : UpsertOutcome) :
    (attempt.embedAndUpsert batch rest outcome).2.document = attempt.document ∧
    (attempt.embedAndUpsert batch rest outcome).2.upserted =
      attempt.upserted ++ (attempt.embedAndUpsert batch rest outcome).1 ∧
    (attempt.embedAndUpsert batch rest outcome).2.Accounted := by
  simp only [Accounted, hp, flatten_cons, mem_append] at ha
  cases outcome with
  | succeeds =>
    refine ⟨rfl, rfl, ?_⟩
    simp only [embedAndUpsert, Accounted, mem_append]
    intro seq hseq
    rcases hseq with hseq | hseq
    · have hold := ha seq hseq
      tauto
    · exact .inl (.inr hseq)
  | fails applied =>
    refine ⟨rfl, rfl, ?_⟩
    by_cases hs : batch.length = 1
    · simp [embedAndUpsert, Accounted, hs]
    · have hsi : (batch.map ([·])).flatten = batch := by
        rw [← flatMap_def, flatMap_singleton']
      simp only [embedAndUpsert, Accounted, hs, if_false, flatten_append, hsi,
        mem_append, mem_filter]
      intro seq hseq
      rcases hseq with hseq | hseq
      · exact ha seq hseq
      · exact .inr (.inl hseq.1)

theorem sourceScopes_cover {targets : List ReindexTarget} :
    (∀ scope ∈ (sourceScopes targets).reverse, scope.covers docs document = false) ↔
      document ∉ targets.map (·.sourceId) := by
  constructor
  · intro h hmem
    obtain ⟨target, ht, rfl⟩ := mem_map.mp hmem
    have hs : Scope.document target.sourceId ∈ (sourceScopes targets).reverse :=
      mem_reverse.mpr (mem_map.mpr ⟨target, ht, rfl⟩)
    have hnot := h _ hs
    simp [Scope.covers] at hnot
  · intro hout scope hs
    obtain ⟨target, ht, rfl⟩ := mem_map.mp (mem_reverse.mp hs)
    refine decide_eq_false fun heq => hout ?_
    exact mem_map.mpr ⟨target, ht, heq.symm⟩

/-- While attempts end clean, every point keeps its row. -/
theorem step_sound (pointId : String → ℕ → String) (s : State) (e : Event) (t : State)
    (hs : Sound pointId s) (hok : Orderly s e) (ht : step pointId s e = some t) :
    Sound pointId t := by
  cases e with
  | request event =>
    simp only [step] at ht
    split_ifs at ht with hr
    obtain ⟨registry, hst, rfl⟩ := Option.map_eq_some_iff.mp ht
    exact hs.registry (kept_request hr hst)
  | deliver id event document contentHash =>
    exact hs.start ⟨event, document, contentHash, .claiming, [], []⟩ rfl hok ht
  | deliverUnreadable id event document contentHash =>
    exact hs.start ⟨event, document, contentHash, .failing, [], []⟩ trivial hok ht
  | claim id count =>
    simp only [step] at ht
    split at ht
    next attempt ha =>
      split at ht
      next hph =>
        have hac := Attempt.claimed_accounted hph (hs.accounted id attempt ha) count
        have had := (hs.setStatus attempt.document .indexing none none).advance
          (attempt.claimed count) [] ha rfl (append_nil _).symm hac
        cases ht
        simpa [pointIds] using had
      next => cases ht
    next => cases ht
  | embedAndUpsert id outcome =>
    simp only [step] at ht
    split at ht
    next attempt ha =>
      split at ht
      next batch rest hph =>
        obtain ⟨hd, hu, hac⟩ :=
          Attempt.embedAndUpsert_spec hph (hs.accounted id attempt ha) outcome
        exact Option.some.inj ht ▸ hs.advance _ _ ha hd hu hac
      next => cases ht
    next => cases ht
  | finalize id =>
    obtain ⟨attempt, ha, hf⟩ := Option.bind_eq_some_iff.mp ht
    exact hs.finalize ha hok hf
  | crash id =>
    cases ht
    exact hs.leave fun attempt ha => EndsClean.rowsCover hok ha rfl
  | purge id scope =>
    simp only [step] at ht
    split_ifs at ht
    exact Option.some.inj ht ▸ hs.purgeStart hok
  | purgeVectors id =>
    simp only [step] at ht
    split at ht
    next targets hca =>
      split_ifs at ht
      simp only [Orderly, hca] at hok
      exact Option.some.inj ht ▸ hs.purgeStart hok
    next => cases ht
  | collect id =>
    simp only [step] at ht
    split at ht
    next hp => exact Option.some.inj ht ▸ hs.collect hp
    next => cases ht
  | delete id outcome =>
    simp only [step] at ht
    split at ht
    next hp =>
      split at ht
      next => exact Option.some.inj ht ▸ hs.delete hp
      next =>
        exact Option.some.inj ht ▸ hs.abort (fun point hpo => (mem_filter.mp hpo).1) id
    next => cases ht
  | purgeCommit id =>
    simp only [step] at ht
    split at ht
    next scope hp =>
      split_ifs at ht
      cases ht
      refine hs.deleteRows hp (by simp) ?_
      intro document hmem hout
      obtain ⟨row, hrow⟩ := lookup_of_mem hmem
      refine keptAt_of_lookup hrow (lookup_eraseAll_eq_some_iff.mpr ⟨?_, hrow⟩) rfl rfl
      simp [mem_filter, hout]
    next => cases ht
  | reindexCommit id =>
    simp only [step] at ht
    split at ht
    next done targets hp hca =>
      split_ifs at ht with hdo
      obtain ⟨registry, hst, rfl⟩ := Option.map_eq_some_iff.mp ht
      simp only [DocumentRegistry.step, hca] at hst
      obtain ⟨docs, hc, rfl⟩ := Option.map_eq_some_iff.mp hst
      refine hs.deleteRows hp ?_ ?_
      · intro document
        rw [hdo, sourceScopes_cover, decide_eq_false_iff_not]
      · intro document hmem hout
        obtain ⟨row, hrow⟩ := lookup_of_mem hmem
        have hk := commitTargets_lookup hc hrow (by simpa using hout)
        exact keptAt_of_lookup hrow hk rfl rfl
    next => cases ht
  | purgeAbort id =>
    cases ht
    exact hs.abort (fun point hpo => hpo) id

theorem sound_of_idle (ha : s.attempts = ∅) (hp : s.purges = ∅)
    (hkey : ∀ row ∈ s.chunks, row.1 ∈ s.docs) (hpo : NoOrphans pointId s) :
    Sound pointId s where
  foreignKey := hkey
  live := by simp [ha]
  accounted := by simp [ha]
  apart := by simp [ha]
  collected := by simp [hp]
  justified := by
    intro point hpn
    obtain ⟨row, hrow, hid, -⟩ := hpo point hpn
    exact .inl ⟨row, hrow, hid, by simp [hp]⟩

/-- When attempts end clean and overlap no purge of their document, then in every state
without an attempt in flight every point of the store has its chunk row. -/
theorem orderly_run_no_orphans (pointId : String → ℕ → String) (start : State)
    (hattempts : start.attempts = ∅) (hpurges : start.purges = ∅)
    (hkey : ∀ row ∈ start.chunks, row.1 ∈ start.docs) (hpoints : NoOrphans pointId start)
    (events : List Event) (s : State) (hok : Guarded (step pointId) Orderly start events)
    (hrun : run (step pointId) start events = some s) :
    s.attempts = ∅ → NoOrphans pointId s := by
  intro hi
  have hs := sound_of_idle hattempts hpurges hkey hpoints
  exact (run_invariant (step_sound pointId) hok hrun hs).noOrphans hi

private def emptyCorpus : State := ⟨⟨∅, ∅, none⟩, [], [], [], ∅, ∅⟩

private def namePoint (document : String) (seq : ℕ) : String := document ++ ":" ++ toString seq

private def firstBatchFails : List Event :=
  [.request (.indexRead 0 "f" (some none)), .request (.indexCommit 0 "d1"),
    .deliver 0 "e1" "d1" "h", .claim 0 (some 2), .embedAndUpsert 0 (.fails []),
    .embedAndUpsert 0 .succeeds]

private def rebuiltRun : List Event :=
  firstBatchFails ++
    [.embedAndUpsert 0 .succeeds, .finalize 0, .request (.reindexStart 1 ["d1"]),
      .request (.reindexRead 1 "d2"), .request (.reindexFiles 1 ["f"]), .purgeVectors 1, .collect 1,
      .delete 1 .succeeds, .reindexCommit 1, .deliver 2 "e2" "d2" "h", .claim 2 (some 1),
      .embedAndUpsert 2 .succeeds, .finalize 2]

theorem rebuilt_run_no_orphans :
    Guarded (step namePoint) Orderly emptyCorpus rebuiltRun ∧
    ∃ s, run (step namePoint) emptyCorpus rebuiltRun = some s ∧ s.points = ["d2:0"] ∧
      s.attempts = ∅ ∧ NoOrphans namePoint s := by
  have hok : Guarded (step namePoint) Orderly emptyCorpus rebuiltRun := by decide +kernel
  obtain ⟨s, hrun, hl⟩ := exists_run_of_any
    (p := fun s => s.points == ["d2:0"] && s.attempts.entries.isEmpty)
    (show (run (step namePoint) emptyCorpus rebuiltRun).any _ = true by decide +kernel)
  simp only [Bool.and_eq_true, beq_iff_eq, List.isEmpty_iff] at hl
  have hi : s.attempts = ∅ := AList.ext hl.2
  exact ⟨hok, s, hrun, hl.1, hi,
    orderly_run_no_orphans namePoint emptyCorpus rfl rfl (by simp [emptyCorpus])
      (by simp [NoOrphans, emptyCorpus]) rebuiltRun s hok hrun hi⟩

private def failedRun : List Event :=
  firstBatchFails ++ [.embedAndUpsert 0 (.fails []), .finalize 0]

theorem failed_document_leaves_point :
    NoOrphans namePoint emptyCorpus ∧
    ∃ s, run (step namePoint) emptyCorpus failedRun = some s ∧ s.attempts = ∅ ∧
      (s.docs.lookup "d1").any (·.status = .failed) = true ∧ ¬ NoOrphans namePoint s := by
  refine ⟨by simp [NoOrphans, emptyCorpus], ?_⟩
  obtain ⟨s, hrun, hl⟩ := exists_run_of_any
    (p := fun s => (s.docs.lookup "d1").any (·.status = .failed) && s.attempts.entries.isEmpty &&
      s.chunks.isEmpty && s.points == ["d1:0"])
    (show (run (step namePoint) emptyCorpus failedRun).any _ = true by decide +kernel)
  simp only [Bool.and_eq_true, beq_iff_eq, List.isEmpty_iff] at hl
  obtain ⟨⟨⟨hf, hi⟩, hc⟩, hp⟩ := hl
  refine ⟨s, hrun, AList.ext hi, hf, ?_⟩
  intro hcl
  obtain ⟨row, hrow, -⟩ := hcl "d1:0" (by simp [hp])
  simp [hc] at hrow

end Aizzak.CorpusVectors
