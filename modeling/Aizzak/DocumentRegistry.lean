import Aizzak.EventRuns
import Aizzak.FirstOccurrences
import Aizzak.KeyedTables
import Aizzak.PyText

/-!
The rows of `knowledge.documents` under concurrent requests. Indexing a file reads
whether the file has a document and registers one in a later statement; re-indexing
reads its sources and their files, then purges and adds in a transaction of its own.
Nothing but the read stands between two requests over one file. What a request decided
stays true until some other request commits over the same file, so requests that do not
overlap over a file keep it at one document.
-/
namespace Aizzak.DocumentRegistry

open EventRuns KeyedTables PyText Option

inductive IndexStatus where
  | pending
  | indexing
  | indexed
  | failed
deriving DecidableEq

def IndexStatus.value : IndexStatus → String
  | .pending => "pending"
  | .indexing => "indexing"
  | .indexed => "indexed"
  | .failed => "failed"

def IndexStatus.isTerminal (status : IndexStatus) : Bool :=
  status = .indexed ∨ status = .failed

structure Document where
  fileId : String
  spaceId : Option String
  status : IndexStatus
  contentHash : Option String
  pipelineVersion : Option ℕ
deriving DecidableEq

abbrev Documents := AList fun _ : String => Document

def pipelineVersion : ℕ := 7

def contentPipelineUnchanged (storedContentHash : Option String) (currentContentHash : String)
    (storedPipelineVersion : Option ℕ) (currentPipelineVersion : ℕ) : Bool :=
  storedContentHash = some currentContentHash ∧
    storedPipelineVersion = some currentPipelineVersion

def reflectsCurrentPipeline (document : Document) : Bool :=
  match document.contentHash with
  | none => false
  | some hash =>
    contentPipelineUnchanged document.contentHash hash document.pipelineVersion pipelineVersion

inductive Refusal where
  | validation (detail : String)
  | notFound (detail : String)
  | conflict (detail : String)

def pendingDocument (fileId : String) (spaceId : Option String) : Document :=
  ⟨fileId, spaceId, .pending, none, none⟩

def idsForFile (docs : Documents) (fileId : String) : List String :=
  docs.keys.filter fun id => (docs.lookup id).any (·.fileId = fileId)

def checkIndexRequest (fileId : String) (view : Option (Option String)) :
    Except Refusal (Option String) :=
  if Blank (ofString fileId) then .error (.validation "file_id must not be empty")
  else match view with
    | none => .error (.notFound "file not found")
    | some spaceId => .ok spaceId

/-- The file has a document: it is returned if a rebuild would change nothing. -/
def compareExisting (existing : Option Document) : Except Refusal Document :=
  match existing.filter reflectsCurrentPipeline with
  | some document => .ok document
  | none => .error (.conflict ("this file already has a knowledge document;" ++
      " rebuild it through POST /knowledge/reindex"))

def maxReindex : ℕ := 50

def uniqueIds (ids : List String) : List String :=
  (ids.filter fun id => ¬ Blank (ofString id)).eraseDups

def checkReindexRequest (ids : List String) : Except Refusal (List String) :=
  let unique := uniqueIds ids
  if unique = [] then .error (.validation "document_ids must not be empty")
  else if maxReindex < unique.length then
    .error (.validation
      ("at most " ++ toString maxReindex ++ " documents can be re-indexed at once"))
  else .ok unique

def checkSource (id : String) (source : Option Document) : Except Refusal Document :=
  match source with
  | none => .error (.notFound "document not found")
  | some document =>
    if document.status.isTerminal then .ok document
    else .error (.conflict ("document " ++ id ++ " is already being indexed" ++
      " (status '" ++ document.status.value ++ "')"))

/-- A document to be rebuilt, as it was read, and the id of its replacement. -/
structure ReindexTarget where
  sourceId : String
  source : Document
  replacementId : String

def ReindexTarget.replacement (target : ReindexTarget) : Document :=
  pendingDocument target.source.fileId target.source.spaceId

def checkReadable (targets : List ReindexTarget) (readable : List String) :
    Except Refusal (List ReindexTarget) :=
  if ∀ target ∈ targets, target.source.fileId ∈ readable then .ok targets
  else .error (.notFound "file not found")

inductive Call where
  | registering (fileId : String) (spaceId : Option String)
  | comparing (documentId : String)
  | preparing (remaining : List String) (targets : List ReindexTarget)
  | planned (targets : List ReindexTarget)

inductive Answer where
  | document (id : String) (document : Document)
  | job (targets : List ReindexTarget)

structure State where
  docs : Documents
  calls : AList fun _ : ℕ => Call
  answer : Option (Except Refusal Answer)

def State.withCall (s : State) (id : ℕ) (call : Call) : State :=
  { s with calls := s.calls.insert id call }

def State.reply (s : State) (id : ℕ) (answer : Except Refusal Answer) : State :=
  { s with calls := s.calls.erase id, answer := some answer }

/-- The writes of a re-index: each source goes, its replacement comes. A key that is taken
fails the transaction. -/
def commitTargets : Documents → List ReindexTarget → Option Documents
  | docs, [] => some docs
  | docs, target :: targets =>
    if target.replacementId ∈ docs.erase target.sourceId then none
    else commitTargets
      ((docs.erase target.sourceId).insert target.replacementId target.replacement) targets

inductive Event where
  | indexRead (call : ℕ) (fileId : String) (view : Option (Option String))
  | indexCompare (call : ℕ)
  | indexCommit (call : ℕ) (documentId : String)
  | reindexStart (call : ℕ) (documentIds : List String)
  | reindexRead (call : ℕ) (replacementId : String)
  | reindexFiles (call : ℕ) (readable : List String)
  | reindexCommit (call : ℕ)
  | abort (call : ℕ)
  | setStatus (documentId : String) (status : IndexStatus) (contentHash : Option String)
      (version : Option ℕ)
  | purgeFile (fileId : String)
  | purgeSpace (spaceId : String)

def setStatus (docs : Documents) (id : String) (status : IndexStatus)
    (contentHash : Option String) (version : Option ℕ) : Documents :=
  match docs.lookup id with
  | none => docs
  | some document =>
    docs.insert id
      (if status = .indexed then
        { document with
          status := status, contentHash := contentHash, pipelineVersion := version }
      else { document with status := status })

def idsInSpace (docs : Documents) (spaceId : String) : List String :=
  docs.keys.filter fun id => (docs.lookup id).any (·.spaceId = some spaceId)

/-- One statement of one request, a worker's status change or a purge. Every read sees the
rows committed so far; a refused request ends with its answer. -/
def step (s : State) : Event → Option State
  | .indexRead call fileId view =>
    if call ∈ s.calls then none
    else match checkIndexRequest fileId view with
      | .error refusal => some (s.reply call (.error refusal))
      | .ok spaceId =>
        match idsForFile s.docs fileId with
        | [] => some (s.withCall call (.registering fileId spaceId))
        | existing :: _ => some (s.withCall call (.comparing existing))
  | .indexCompare call =>
    match s.calls.lookup call with
    | some (.comparing id) =>
      some (s.reply call ((compareExisting (s.docs.lookup id)).map (.document id)))
    | _ => none
  | .indexCommit call id =>
    match s.calls.lookup call with
    | some (.registering fileId spaceId) =>
      if id ∈ s.docs then none
      else
        let document := pendingDocument fileId spaceId
        some ({ s with docs := s.docs.insert id document }.reply call (.ok (.document id document)))
    | _ => none
  | .reindexStart call ids =>
    if call ∈ s.calls then none
    else match checkReindexRequest ids with
      | .error refusal => some (s.reply call (.error refusal))
      | .ok unique => some (s.withCall call (.preparing unique []))
  | .reindexRead call replacementId =>
    match s.calls.lookup call with
    | some (.preparing (id :: remaining) targets) =>
      match checkSource id (s.docs.lookup id) with
      | .error refusal => some (s.reply call (.error refusal))
      | .ok source =>
        some (s.withCall call (.preparing remaining (targets ++ [⟨id, source, replacementId⟩])))
    | _ => none
  | .reindexFiles call readable =>
    match s.calls.lookup call with
    | some (.preparing [] targets) =>
      match checkReadable targets readable with
      | .error refusal => some (s.reply call (.error refusal))
      | .ok targets => some (s.withCall call (.planned targets))
    | _ => none
  | .reindexCommit call =>
    match s.calls.lookup call with
    | some (.planned targets) =>
      (commitTargets s.docs targets).map fun docs =>
        { s with docs := docs }.reply call (.ok (.job targets))
    | _ => none
  | .abort call => some { s with calls := s.calls.erase call }
  | .setStatus id status contentHash version =>
    some { s with docs := setStatus s.docs id status contentHash version }
  | .purgeFile fileId => some { s with docs := eraseAll s.docs (idsForFile s.docs fileId) }
  | .purgeSpace spaceId => some { s with docs := eraseAll s.docs (idsInSpace s.docs spaceId) }

def OnePerFile (docs : Documents) : Prop :=
  ∀ i j a b, docs.lookup i = some a → docs.lookup j = some b → a.fileId = b.fileId → i = j

def Call.files : Call → List String
  | .registering fileId _ => [fileId]
  | .comparing _ => []
  | .preparing _ targets => targets.map (·.source.fileId)
  | .planned targets => targets.map (·.source.fileId)

def State.filesOf (s : State) (call : ℕ) : List String :=
  (s.calls.lookup call).elim [] Call.files

/-- No other request in flight has decided about a file of this one. -/
def Alone (s : State) (call : ℕ) : Prop :=
  ∀ other ∈ s.calls.keys, other ≠ call → ∀ file ∈ s.filesOf call, file ∉ s.filesOf other

instance (s : State) (call : ℕ) : Decidable (Alone s call) :=
  List.decidableBAll _ s.calls.keys

/-- Requests commit alone over their files. -/
def CommitsAlone (s : State) : Event → Prop
  | .indexCommit call _ => Alone s call
  | .reindexCommit call => Alone s call
  | _ => True

instance (s : State) : ∀ e, Decidable (CommitsAlone s e)
  | .indexCommit call _ => inferInstanceAs (Decidable (Alone s call))
  | .reindexCommit call => inferInstanceAs (Decidable (Alone s call))
  | .indexRead _ _ _ | .indexCompare _ | .reindexStart _ _ | .reindexRead _ _ | .reindexFiles _ _
  | .abort _ | .setStatus _ _ _ _ | .purgeFile _ | .purgeSpace _ => .isTrue trivial

/-- What the targets were read from: their files have no other row, and no two of them
share a file. -/
structure TargetsCurrent (docs : Documents) (targets : List ReindexTarget) : Prop where
  only : ∀ target ∈ targets, ∀ i a, docs.lookup i = some a →
    a.fileId = target.source.fileId → i = target.sourceId
  files_nodup : (targets.map (·.source.fileId)).Nodup

def Call.Current (docs : Documents) : Call → Prop
  | .registering fileId _ => ∀ i a, docs.lookup i = some a → a.fileId ≠ fileId
  | .comparing _ => True
  | .preparing remaining targets =>
    TargetsCurrent docs targets ∧ (targets.map (·.sourceId) ++ remaining).Nodup
  | .planned targets => TargetsCurrent docs targets

structure Consistent (s : State) : Prop where
  one : OnePerFile s.docs
  current : ∀ id call, s.calls.lookup id = some call → call.Current s.docs

def RowsFrom (docs docs' : Documents) (files : List String) : Prop :=
  ∀ i a, docs'.lookup i = some a → a.fileId ∉ files →
    ∃ b, docs.lookup i = some b ∧ b.fileId = a.fileId

variable {docs docs' : Documents} {targets : List ReindexTarget} {files : List String}

theorem TargetsCurrent.mono (h : TargetsCurrent docs targets) (hr : RowsFrom docs docs' files)
    (ha : ∀ target ∈ targets, target.source.fileId ∉ files) :
    TargetsCurrent docs' targets := by
  refine ⟨?_, h.files_nodup⟩
  intro target ht i a hi hf
  obtain ⟨b, hb, hbf⟩ := hr i a hi (hf ▸ ha target ht)
  exact h.only target ht i b hb (hbf.trans hf)

variable {call : Call}

theorem Call.Current.mono (h : call.Current docs) (hr : RowsFrom docs docs' files)
    (ha : ∀ file ∈ call.files, file ∉ files) : call.Current docs' := by
  cases call with
  | registering fileId spaceId =>
    intro i a hi hf
    obtain ⟨b, hb, hbf⟩ := hr i a hi (hf ▸ ha fileId (by simp [Call.files]))
    exact h i b hb (hbf.trans hf)
  | comparing documentId => trivial
  | preparing remaining targets =>
    refine ⟨h.1.mono hr ?_, h.2⟩
    intro target ht
    exact ha _ (List.mem_map_of_mem ht)
  | planned targets =>
    exact TargetsCurrent.mono h hr fun target ht =>
      ha _ (List.mem_map_of_mem ht)

variable {s : State}

/-- Rows that go or change otherwise than in their file keep the registry consistent. -/
theorem Consistent.shrink (hs : Consistent s) (hr : RowsFrom s.docs docs' []) :
    Consistent { s with docs := docs' } := by
  constructor
  · intro i j a b hi hj hf
    obtain ⟨a', ha', ha⟩ := hr i a hi (by simp)
    obtain ⟨b', hb', hb⟩ := hr j b hj (by simp)
    exact hs.one i j a' b' ha' hb' (ha.trans (hf.trans hb.symm))
  · intro id call hc
    exact (hs.current id call hc).mono hr (by simp)

variable {id : ℕ}

theorem Consistent.withCall (hs : Consistent s) (hc : call.Current s.docs) :
    Consistent (s.withCall id call) :=
  ⟨hs.one, forall_insert hc hs.current⟩

theorem Consistent.reply (hs : Consistent s) (id : ℕ) (answer : Except Refusal Answer) :
    Consistent (s.reply id answer) := by
  refine ⟨hs.one, ?_⟩
  intro i c hi
  exact hs.current i c (lookup_erase_iff.mp hi).2

/-- A request that commits alone: what it left over its own files is one row for each, and
the decisions of the others are about other files. -/
theorem Consistent.commit (hs : Consistent s) (hc : s.calls.lookup id = some call)
    (ha : Alone s id) (hr : RowsFrom s.docs docs' call.files)
    (hown : ∀ i j a b, docs'.lookup i = some a → docs'.lookup j = some b →
      a.fileId = b.fileId → a.fileId ∈ call.files → i = j) (answer : Except Refusal Answer) :
    Consistent ({ s with docs := docs' }.reply id answer) := by
  have hf : s.filesOf id = call.files := by simp [State.filesOf, hc]
  constructor
  · intro i j a b hi hj hfi
    by_cases hmem : a.fileId ∈ call.files
    · exact hown i j a b hi hj hfi hmem
    · obtain ⟨a', ha', haf⟩ := hr i a hi hmem
      obtain ⟨b', hb', hb⟩ := hr j b hj (hfi ▸ hmem)
      exact hs.one i j a' b' ha' hb' (haf.trans (hfi.trans hb.symm))
  · intro i c hi
    obtain ⟨hne, hi⟩ := lookup_erase_iff.mp hi
    refine (hs.current i c hi).mono hr ?_
    intro file hfi hmem
    have ho := ha i (AList.mem_keys.mp (mem_of_lookup hi)) hne file (hf ▸ hmem)
    simp [State.filesOf, hi, hfi] at ho

theorem RowsFrom.insert (docs : Documents) (id : String) (document : Document) :
    RowsFrom docs (docs.insert id document) [document.fileId] := by
  intro i a hi hf
  rcases lookup_insert_iff.mp hi with ⟨-, rfl⟩ | ⟨-, hi⟩
  · simp at hf
  · exact ⟨a, hi, rfl⟩

theorem replace_only {target : ReindexTarget}
    (ho : ∀ i a, docs.lookup i = some a → a.fileId = target.source.fileId →
      i = target.sourceId) {i : String} {a : Document}
    (hi : ((docs.erase target.sourceId).insert target.replacementId target.replacement).lookup i =
      some a) (hf : a.fileId = target.source.fileId) : i = target.replacementId := by
  rcases lookup_insert_iff.mp hi with ⟨hid, -⟩ | ⟨-, hi⟩
  · exact hid
  · obtain ⟨hne, hi⟩ := lookup_erase_iff.mp hi
    exact absurd (ho i a hi hf) hne

theorem replace_rowsFrom (docs : Documents) (target : ReindexTarget) :
    RowsFrom docs ((docs.erase target.sourceId).insert target.replacementId target.replacement)
      [target.source.fileId] := by
  intro i a hi hf
  rcases lookup_insert_iff.mp hi with ⟨-, rfl⟩ | ⟨-, hi⟩
  · simp [ReindexTarget.replacement, pendingDocument] at hf
  · exact ⟨a, (lookup_erase_iff.mp hi).2, rfl⟩

theorem RowsFrom.trans {docs'' : Documents} {files' : List String} (h : RowsFrom docs docs' files)
    (h' : RowsFrom docs' docs'' files') :
    RowsFrom docs docs'' (files ++ files') := by
  intro i a hi hf
  simp only [List.mem_append, not_or] at hf
  obtain ⟨b, hb, hbf⟩ := h' i a hi hf.2
  obtain ⟨c, hc, hcf⟩ := h i b hb (hbf ▸ hf.1)
  exact ⟨c, hc, hcf.trans hbf⟩

theorem commitTargets_rowsFrom (h : commitTargets docs targets = some docs') :
    RowsFrom docs docs' (targets.map (·.source.fileId)) := by
  induction targets generalizing docs with
  | nil =>
    cases h
    exact fun i a hi _ => ⟨a, hi, rfl⟩
  | cons target targets ih =>
    simp only [commitTargets] at h
    split_ifs at h
    exact (replace_rowsFrom docs target).trans (ih h)

/-- A committed re-index leaves each file its replacement alone. -/
theorem commitTargets_only (hc : TargetsCurrent docs targets)
    (h : commitTargets docs targets = some docs') :
    ∀ target ∈ targets, ∀ i a, docs'.lookup i = some a →
      a.fileId = target.source.fileId → i = target.replacementId := by
  induction targets generalizing docs with
  | nil => simp
  | cons head targets ih =>
    simp only [commitTargets] at h
    split_ifs at h
    have hn := List.nodup_cons.mp hc.files_nodup
    have ha : ∀ target ∈ targets, target.source.fileId ∉ [head.source.fileId] := by
      intro target ht heq
      exact hn.1 (List.mem_map.mpr ⟨target, ht, List.mem_singleton.mp heq⟩)
    have hr : TargetsCurrent docs targets :=
      ⟨fun target ht => hc.only target (by simp [ht]), hn.2⟩
    intro target ht i a hi hf
    rcases List.mem_cons.mp ht with rfl | ht
    · obtain ⟨b, hb, hbf⟩ := commitTargets_rowsFrom h i a hi (hf ▸ hn.1)
      exact replace_only (hc.only target (by simp)) hb (hbf.trans hf)
    · exact ih (hr.mono (replace_rowsFrom docs head) ha) h target ht i a hi hf

variable {fileId : String}

theorem mem_idsForFile {id : String} {document : Document} (h : docs.lookup id = some document)
    (hf : document.fileId = fileId) :
    id ∈ idsForFile docs fileId := by
  refine List.mem_filter.mpr ⟨AList.mem_keys.mp (mem_of_lookup h), ?_⟩
  simpa [h] using hf

theorem setStatus_rowsFrom (docs : Documents) (id : String) (status : IndexStatus)
    (contentHash : Option String) (version : Option ℕ) :
    RowsFrom docs (setStatus docs id status contentHash version) [] := by
  intro i a hi _
  unfold setStatus at hi
  split at hi
  next => exact ⟨a, hi, rfl⟩
  next document hd =>
    rcases lookup_insert_iff.mp hi with ⟨rfl, rfl⟩ | ⟨-, hi⟩
    · refine ⟨document, hd, ?_⟩
      split_ifs <;> rfl
    · exact ⟨a, hi, rfl⟩

theorem eraseAll_rowsFrom (docs : Documents) (ids : List String) :
    RowsFrom docs (eraseAll docs ids) [] :=
  fun _ a hi _ => ⟨a, (lookup_eraseAll_eq_some_iff.mp hi).2, rfl⟩

theorem Consistent.indexRead (hs : Consistent s) (hn : idsForFile s.docs fileId = []) (id : ℕ)
    (spaceId : Option String) :
    Consistent (s.withCall id (.registering fileId spaceId)) := by
  apply hs.withCall
  intro i a hi hf
  have hmem := mem_idsForFile hi hf
  simp [hn] at hmem

theorem Consistent.indexCommit {documentId : String} {spaceId : Option String} (hs : Consistent s)
    (hc : s.calls.lookup id = some (.registering fileId spaceId)) (hal : Alone s id)
    (answer : Except Refusal Answer) :
    Consistent ({ s with
      docs := s.docs.insert documentId (pendingDocument fileId spaceId) }.reply id answer) := by
  have hd : ∀ i a, s.docs.lookup i = some a → a.fileId ≠ fileId := hs.current _ _ hc
  have hnew : ∀ i a, (s.docs.insert documentId (pendingDocument fileId spaceId)).lookup i = some a →
      a.fileId = fileId → i = documentId := by
    intro i a hi hf
    rcases lookup_insert_iff.mp hi with ⟨hid, -⟩ | ⟨-, hi⟩
    · exact hid
    · exact absurd hf (hd i a hi)
  refine hs.commit hc hal (RowsFrom.insert s.docs documentId _) ?_ answer
  intro i j a b hi hj hf hmem
  have ha : a.fileId = fileId := by simpa [Call.files] using hmem
  exact (hnew i a hi ha).trans (hnew j b hj (hf ▸ ha)).symm

variable {source : Document}

theorem TargetsCurrent.append (h : TargetsCurrent docs targets) (hone : OnePerFile docs)
    {id : String} (hs : docs.lookup id = some source)
    (hnew : ∀ target ∈ targets, target.sourceId ≠ id) (replacementId : String) :
    TargetsCurrent docs (targets ++ [⟨id, source, replacementId⟩]) := by
  constructor
  · intro target ht i a hi hf
    rcases List.mem_append.mp ht with ht | ht
    · exact h.only target ht i a hi hf
    · rw [List.mem_singleton.mp ht] at hf ⊢
      exact hone i id a source hi hs hf
  · rw [List.map_append, List.nodup_append]
    refine ⟨h.files_nodup, by simp, ?_⟩
    intro file hf other ho heq
    obtain ⟨target, ht, rfl⟩ := List.mem_map.mp hf
    rw [List.map_singleton, List.mem_singleton] at ho
    exact hnew target ht
      (h.only target ht id source hs (heq.trans ho).symm).symm

/-- A request that has read a source knows it current. -/
theorem Consistent.reindexRead {sourceId replacementId : String} {remaining : List String}
    (hs : Consistent s)
    (hca : s.calls.lookup id = some (.preparing (sourceId :: remaining) targets))
    (hso : s.docs.lookup sourceId = some source) :
    Consistent (s.withCall id
      (.preparing remaining (targets ++ [⟨sourceId, source, replacementId⟩]))) := by
  obtain ⟨hc, hn⟩ := hs.current _ _ hca
  refine hs.withCall ⟨hc.append hs.one hso ?_ replacementId, ?_⟩
  · intro target ht heq
    exact (List.nodup_append.mp hn).2.2 target.sourceId (List.mem_map_of_mem ht) sourceId
      (by simp) heq
  · simpa using hn

theorem Consistent.reindexCommit (hs : Consistent s)
    (hca : s.calls.lookup id = some (.planned targets)) (ha : Alone s id)
    (hc : commitTargets s.docs targets = some docs') (answer : Except Refusal Answer) :
    Consistent ({ s with docs := docs' }.reply id answer) := by
  have ho := commitTargets_only (hs.current _ _ hca) hc
  refine hs.commit hca ha (commitTargets_rowsFrom hc) ?_ answer
  intro i j a b hi hj hf hmem
  obtain ⟨target, ht, hso⟩ := List.mem_map.mp hmem
  exact (ho target ht i a hi hso.symm).trans
    (ho target ht j b hj (hf.symm.trans hso.symm)).symm

theorem checkSource_eq_ok {id : String} {read : Option Document}
    (h : checkSource id read = .ok source) : read = some source := by
  unfold checkSource at h
  cases read with
  | none => cases h
  | some document =>
    simp only at h
    split_ifs at h
    exact congrArg some (Except.ok.inj h)

theorem checkReadable_eq_ok {targets' : List ReindexTarget} {readable : List String}
    (h : checkReadable targets readable = .ok targets') : targets' = targets := by
  unfold checkReadable at h
  split_ifs at h
  exact (Except.ok.inj h).symm

theorem checkReindexRequest_nodup {ids unique : List String}
    (h : checkReindexRequest ids = .ok unique) : unique.Nodup := by
  unfold checkReindexRequest at h
  simp only at h
  split_ifs at h
  cases h
  exact FirstOccurrences.nodup_eraseDups _

/-- While requests commit alone, every file keeps one row. -/
theorem step_consistent (s : State) (e : Event) (t : State) (hs : Consistent s)
    (hok : CommitsAlone s e) (ht : step s e = some t) : Consistent t := by
  cases e with
  | indexRead call fileId view =>
    simp only [step] at ht
    split_ifs at ht
    split at ht
    next => exact some.inj ht ▸ hs.reply call _
    next spaceId hre =>
      split at ht
      next hn => exact some.inj ht ▸ hs.indexRead hn call spaceId
      next => exact some.inj ht ▸ hs.withCall trivial
  | indexCompare call =>
    simp only [step] at ht
    split at ht
    next => exact some.inj ht ▸ hs.reply call _
    next => cases ht
  | indexCommit call documentId =>
    simp only [step] at ht
    split at ht
    next fileId spaceId hca =>
      split_ifs at ht
      exact some.inj ht ▸ hs.indexCommit hca hok _
    next => cases ht
  | reindexStart call ids =>
    simp only [step] at ht
    split_ifs at ht
    split at ht
    next => exact some.inj ht ▸ hs.reply call _
    next unique hre =>
      refine some.inj ht ▸ hs.withCall ⟨⟨by simp, by simp⟩, ?_⟩
      simpa using checkReindexRequest_nodup hre
  | reindexRead call replacementId =>
    simp only [step] at ht
    split at ht
    next sourceId remaining targets hca =>
      split at ht
      next => exact some.inj ht ▸ hs.reply call _
      next source hso =>
        exact some.inj ht ▸ hs.reindexRead hca (checkSource_eq_ok hso)
    next => cases ht
  | reindexFiles call readable =>
    simp only [step] at ht
    split at ht
    next targets hca =>
      split at ht
      next => exact some.inj ht ▸ hs.reply call _
      next planned hr =>
        have hc : TargetsCurrent s.docs planned :=
          checkReadable_eq_ok hr ▸ (hs.current _ _ hca).1
        exact some.inj ht ▸ hs.withCall hc
    next => cases ht
  | reindexCommit call =>
    simp only [step] at ht
    split at ht
    next targets hca =>
      obtain ⟨docs', hco, rfl⟩ := map_eq_some_iff.mp ht
      exact hs.reindexCommit hca hok hco _
    next => cases ht
  | abort call =>
    simp only [step, some.injEq] at ht
    subst ht
    exact ⟨hs.one, fun i c hi => hs.current i c (lookup_erase_iff.mp hi).2⟩
  | setStatus documentId status contentHash version =>
    simp only [step, some.injEq] at ht
    exact ht ▸ hs.shrink (setStatus_rowsFrom s.docs documentId status contentHash version)
  | purgeFile fileId =>
    simp only [step, some.injEq] at ht
    exact ht ▸ hs.shrink (eraseAll_rowsFrom s.docs _)
  | purgeSpace spaceId =>
    simp only [step, some.injEq] at ht
    exact ht ▸ hs.shrink (eraseAll_rowsFrom s.docs _)

/-- Requests that commit alone over their files leave every file with at most one document,
in every state any interleaving reaches. -/
theorem lone_commits_keep_one_per_file (docs : Documents) (hdocs : OnePerFile docs)
    (events : List Event) (s : State)
    (hok : Guarded step CommitsAlone ⟨docs, ∅, none⟩ events)
    (hrun : run step ⟨docs, ∅, none⟩ events = some s) : OnePerFile s.docs := by
  have hin : Consistent ⟨docs, ∅, none⟩ := by
    refine ⟨hdocs, ?_⟩
    intro i c hi
    simp at hi
  exact (run_invariant step_consistent hok hrun hin).one

private def apartRun : List Event :=
  [.indexRead 0 "f" (some none), .indexCommit 0 "d1", .setStatus "d1" .indexed (some "h") (some 6),
    .indexRead 1 "f" (some none), .reindexStart 2 ["d1"], .indexRead 3 "g" (some none),
    .reindexRead 2 "d2", .indexCompare 1, .reindexFiles 2 ["f"], .reindexCommit 2,
    .indexCommit 3 "d3"]

theorem apart_run_keeps_one_per_file :
    OnePerFile ∅ ∧ Guarded step CommitsAlone ⟨∅, ∅, none⟩ apartRun ∧
    ∃ s, run step ⟨∅, ∅, none⟩ apartRun = some s ∧ s.docs.keys = ["d3", "d2"] ∧
      OnePerFile s.docs := by
  have he : OnePerFile ∅ := by
    intro i j a b hi
    simp at hi
  have hok : Guarded step CommitsAlone ⟨∅, ∅, none⟩ apartRun := by decide +kernel
  obtain ⟨s, hrun, hl⟩ := exists_run_of_any (p := fun s => s.docs.keys == ["d3", "d2"])
    (show (run step ⟨∅, ∅, none⟩ apartRun).any _ = true by decide +kernel)
  exact ⟨he, hok, s, hrun, by simpa using hl,
    lone_commits_keep_one_per_file ∅ he apartRun s hok hrun⟩

private def doubleClick : List Event :=
  [.indexRead 0 "f" (some none), .indexRead 1 "f" (some none), .indexCommit 0 "d1",
    .indexCommit 1 "d2"]

theorem double_click_registers_twice :
    OnePerFile ∅ ∧ ∃ s, run step ⟨∅, ∅, none⟩ doubleClick = some s ∧ ¬ OnePerFile s.docs := by
  refine ⟨fun i j a b hi => by simp at hi, ?_⟩
  obtain ⟨s, hrun, hl⟩ := exists_run_of_any
    (p := fun s => (s.docs.lookup "d1").any (·.fileId = "f") &&
      (s.docs.lookup "d2").any (·.fileId = "f"))
    (show (run step ⟨∅, ∅, none⟩ doubleClick).any _ = true by decide +kernel)
  simp only [Bool.and_eq_true, any_eq_true, decide_eq_true_eq] at hl
  obtain ⟨⟨a, ha, haf⟩, b, hb, hbf⟩ := hl
  refine ⟨s, hrun, ?_⟩
  intro hone
  have hs := hone "d1" "d2" a b ha hb (haf.trans hbf.symm)
  exact absurd hs (by decide)

end Aizzak.DocumentRegistry
