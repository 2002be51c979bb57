import Aizzak.IngestionJobs

/-!
The runs of the ingestion worker over the job, document and page rows, with the requests that write
the same rows beside them. A run is a sequence of short transactions with calls to the file store
and the PDF service between them. A transaction reads what it needs when it is opened and saves
under the versions it read when it commits; a document that it has locked live stays so until
then.
-/
namespace Aizzak.IngestionRuns

open EventRuns KeyedTables VersionedRows IngestionJobs

structure Settings where
  jobLeaseS : ℕ
  maxPages : ℕ
  inspectBatchPages : ℕ

inductive StageStatus where
  | pending
  | running
  | succeeded
  | failed
  | needsReview
deriving DecidableEq

def StageStatus.isUnfinished (status : StageStatus) : Bool :=
  status = .pending ∨ status = .running

def StageStatus.isEvidence (status : StageStatus) : Bool :=
  status = .succeeded ∨ status = .needsReview

inductive StageReason where
  | parseTimeout
  | memoryLimit
  | parseError
  | ambiguousClassification
deriving DecidableEq

structure PdfSummary where
  pageCount : ℕ
  creator : Option String
  producer : Option String
deriving DecidableEq

inductive ParseFailure where
  | range (reason : StageReason)
  | rejected (detail : String)
deriving DecidableEq

inductive Staging where
  | unreadable
  | fails (detail : String)
  | staged (sha256 : String)

structure PageResult (E : Type) where
  pageNo : ℕ
  status : StageStatus
  reason : Option StageReason
  attempts : ℕ
  content : E

/-- A page with its classify stage; it has no content until a run has recorded it. -/
structure PageRow (E : Type) where
  status : StageStatus
  reason : Option StageReason
  attempts : ℕ
  content : Option E

structure PageEvidence (E : Type) where
  pageNo : ℕ
  status : StageStatus
  reason : Option StageReason
  content : E

/-- What a run computes from what it has read: a page's outcome as it is stored, and the
characterization and the proposal of a document from its id, the fingerprint and the facts of
its file and the evidence of its pages. -/
structure Inspector (Sig P E C Q : Type) where
  pageNo : Sig → ℕ
  classify : P → Sig → StageStatus × Option StageReason × E
  blank : ℕ → E
  conclude : P → String → String → PdfSummary → List (PageEvidence E) → C × Q
  accepts : P → Q → Bool

/-- One batch of pages on its way: the ranges still to be asked for, the pages of a failed
range that are asked for one by one, and the results so far. -/
structure Batch (E : Type) where
  ranges : List (ℕ × ℕ)
  single : List ℕ
  results : List (PageResult E)
  rest : List ℕ
  emitted : Bool

abbrev Jobs := AList fun _ : String => Versioned IngestionJob

abbrev Documents := AList fun _ : String => Versioned Document

abbrev Pages (E : Type) := AList fun _ : String × ℕ => PageRow E

structure Write (E C Q : Type) where
  job : Option (Versioned IngestionJob × IngestionJob) := none
  document : Option (Versioned Document × Document) := none
  seeds : List ℕ := []
  results : List (PageResult E) := []
  record : Option C := none
  proposal : Option Q := none
  claims : Bool := false
  claimedFirst : Bool := false
  locks : Bool := false

inductive Outcome where
  | returned
  | raised
  | crashed
deriving DecidableEq

inductive Phase (P E C Q : Type) where
  | taking (read : Versioned IngestionJob) (leased : IngestionJob)
  | dropping (read : Versioned IngestionJob) (cancelled : IngestionJob)
  | profile
  | remaining (base : P)
  | staging (base : P)
  | fingerprint (base : P) (sha256 : String)
  | duplicate (sha256 : String)
  | summary (base : P) (sha256 : String)
  | seeding (base : P) (sha256 : String) (summary : PdfSummary)
  | listing (base : P)
  | honouring (base : P) (todo : List ℕ) (emitted : Bool)
  | honouringJob (base : P) (todo : List ℕ) (emitted : Bool) (live : Bool)
  | cancelling
  | classifying (base : P) (batch : Batch E)
  | keeping (base : P) (batch : Batch E)
  | committing (base : P) (batch : Batch E)
  | gathering (base : P)
  | gatheringPages (base : P) (document : Document)
  | concluding (base : P) (record : C) (proposal : Q)
  | failing (code detail : String)
  | stoppingNotLive
  | releasing (tries : ℕ)
  | writing (write : Write E C Q) (next stale : Phase P E C Q)
  | ended (outcome : Outcome)

structure Run (P E C Q : Type) where
  job : String
  document : String
  event : String
  taken : IngestionJob
  phase : Phase P E C Q

inductive RequestKind where
  | cancel
  | resume
  | confirm
  | replaceProfile
deriving DecidableEq

structure Request (E C Q : Type) where
  kind : RequestKind
  job : String
  document : String
  write : Write E C Q

structure State (P E C Q : Type) where
  issued : List String
  documents : Documents
  jobs : Jobs
  pages : Pages E
  characterizations : AList fun _ : String => C
  proposals : List (String × Q)
  processed : List String
  runs : AList fun _ : ℕ => Run P E C Q
  requests : AList fun _ : ℕ => Request E C Q

inductive Input (Sig P : Type) where
  | profile (base : P)
  | remaining
  | staged (result : Staging)
  | openTx (now : ℤ) (elapsed : Bool)
  | summary (reply : Except ParseFailure PdfSummary)
  | list
  | honourDocument
  | honourJob
  | pages (reply : Except ParseFailure (List Sig))
  | document
  | evidence
  | fault
  | crash

inductive Event (Sig P : Type) where
  | deliver (r : ℕ) (job event : String) (now : ℤ)
  | takeCommit (r : ℕ)
  | takeFails (r : ℕ)
  | proceed (r : ℕ) (input : Input Sig P)
  | commit (r : ℕ)
  | cancel (q : ℕ) (job : String) (now : ℤ)
  | resume (q : ℕ) (job : String) (now : ℤ)
  | confirm (q : ℕ) (document : String) (now : ℤ)
  | replaceProfile (q : ℕ) (document : String)
  | requestCommit (q : ℕ)
  | requestFails (q : ℕ)
  | register (document job project file : String) (active readable : List String)
  | reprocess (document job : String) (pages : Option (List ℕ))
  | purge (documents : List String) (now : ℤ)
  | sweep (document : String)

inductive Conflict where
  | stale
  | jobConflict
  | duplicateDocument
deriving DecidableEq

def documentNotLive : String := "electrical.document_not_live"

def pdfRejected : String := "electrical.pdf_rejected"

def tooManyPages : String := "electrical.too_many_pages"

def sourceUnreadable : String := "electrical.source_unreadable"

def duplicateDocument : String := "electrical.duplicate_document"

def maxCreatorChars : ℕ := 512

def releaseTries : ℕ := 3

def summaryFailed : StageReason → Option String
  | .parseTimeout => some "the PDF could not be opened in time (parse_timeout)"
  | .memoryLimit => some "the PDF needs more memory than the limit to open (memory_limit)"
  | .parseError => some "the PDF could not be parsed (parse_error)"
  | .ambiguousClassification => none

def clipMetadata (text : Option String) : Option String :=
  text.map fun t => String.ofList (t.toList.take maxCreatorChars)

def addPage : List (ℕ × ℕ) → ℕ → List (ℕ × ℕ)
  | (first, last) :: done, page =>
    if last + 1 = page then (first, page) :: done else (page, page) :: (first, last) :: done
  | [], page => [(page, page)]

def runsOf (pages : List ℕ) : List (ℕ × ℕ) := (pages.foldl addPage []).reverse

def pageRange (first last : ℕ) : List ℕ := List.range' first (last + 1 - first)

def wanted (job : IngestionJob) (pageCount : ℕ) : List ℕ :=
  match job.kind, job.pages with
  | .reprocess, some pages => pages.filter (· ≤ pageCount)
  | .reprocess, none | .ingest, _ => List.range' 1 pageCount

def openFor (jobs : Jobs) (document : String) : Option (String × Versioned IngestionJob) :=
  jobs.keys.findSome? fun id => (jobs.lookup id).bind fun row =>
    if row.value.isOpen ∧ row.value.documentId = document then some (id, row) else none

/-- `save` under the index of open jobs. -/
def saveJob (jobs : Jobs) (id : String) (read : Versioned IngestionJob) (job : IngestionJob) :
    Except Conflict Jobs :=
  match save jobs id read job with
  | none => .error .stale
  | some saved =>
    if job.isOpen && anyRow jobs fun other row =>
        other ≠ id && row.value.isOpen && row.value.documentId == job.documentId then
      .error .jobConflict
    else .ok saved

def activeWithContent (documents : Documents) (project sha256 : String) : Option String :=
  documents.keys.find? fun id => (documents.lookup id).any fun row =>
    row.value.isLive && row.value.projectId == project && row.value.contentSha256 == some sha256

/-- `save` under the index of live contents. -/
def saveDocument (documents : Documents) (id : String) (read : Versioned Document)
    (document : Document) : Except Conflict Documents :=
  match save documents id read document with
  | none => .error .stale
  | some saved =>
    if document.isLive && document.contentSha256.any fun sha256 =>
        anyRow documents fun other row => other ≠ id && row.value.isLive &&
          row.value.projectId == document.projectId && row.value.contentSha256 == some sha256 then
      .error .duplicateDocument
    else .ok saved

def seed {E : Type} (pages : Pages E) (document : String) (numbers : List ℕ) : Pages E :=
  numbers.foldl (fun rows n => if (document, n) ∈ rows then rows
    else rows.insert (document, n) ⟨.pending, none, 0, none⟩) pages

def recordPages {E : Type} (pages : Pages E) (document : String)
    (results : List (PageResult E)) : Pages E :=
  results.foldl (fun rows result => rows.insert (document, result.pageNo)
    ⟨result.status, result.reason, result.attempts, some result.content⟩) pages

def resetPages {E : Type} (pages : Pages E) (document : String) (numbers : Option (List ℕ)) :
    Pages E :=
  pages.keys.foldl (fun rows key =>
    if key.1 = document ∧ numbers.all (fun ns => key.2 ∈ ns) then
      match rows.lookup key with
      | some row => rows.insert key { row with status := .pending, reason := none, attempts := 0 }
      | none => rows
    else rows) pages

def unfinished {E : Type} (pages : Pages E) (document : String) : List ℕ :=
  ((pages.keys.filter fun key => key.1 = document &&
    (pages.lookup key).any (·.status.isUnfinished)).map (·.2)).insertionSort (· ≤ ·)

def evidence {E : Type} (pages : Pages E) (document : String) : List (PageEvidence E) :=
  ((pages.keys.filterMap fun key => (pages.lookup key).bind fun row =>
    if key.1 = document ∧ row.status.isEvidence then
      row.content.map fun content => ⟨key.2, row.status, row.reason, content⟩
    else none)).insertionSort (·.pageNo ≤ ·.pageNo)

namespace Phase

variable {P E C Q : Type}

def faulted : Phase P E C Q := .releasing releaseTries

def isTaken : Phase P E C Q → Bool
  | .taking _ _ | .dropping _ _ => false
  | _ => true

def locks : Phase P E C Q → Bool
  | .taking _ _ => true
  | .writing write _ _ => write.locks
  | _ => false

def holdsClaim : Phase P E C Q → Bool
  | .writing write _ _ => write.claimedFirst
  | _ => false

def afterReply (base : P) (batch : Batch E) : Phase P E C Q :=
  if batch.single.isEmpty && batch.ranges.isEmpty then .committing base batch
  else .classifying base batch

def fault : Phase P E C Q → Option (Phase P E C Q)
  | .taking _ _ | .dropping _ _ | .ended _ => none
  | .releasing _ | .writing _ (.ended .raised) _ => some (.ended .raised)
  | _ => some faulted

def crash : Phase P E C Q → Option (Phase P E C Q)
  | .taking _ _ | .dropping _ _ | .ended _ => none
  | _ => some (.ended .crashed)

def conflicted (next stale : Phase P E C Q) : Conflict → Phase P E C Q
  | .duplicateDocument =>
    match next with
    | .summary _ sha256 => .duplicate sha256
    | _ => stale
  | .stale | .jobConflict => stale

end Phase

section Machine

variable {Sig P E C Q : Type}

namespace State

def init : State P E C Q := ⟨[], ∅, ∅, ∅, ∅, [], [], ∅, ∅⟩

def withRun (s : State P E C Q) (r : ℕ) (run : Run P E C Q) : State P E C Q :=
  { s with runs := s.runs.insert r run }

def endRun (s : State P E C Q) (r : ℕ) : State P E C Q := { s with runs := s.runs.erase r }

def endRequest (s : State P E C Q) (q : ℕ) : State P E C Q :=
  { s with requests := s.requests.erase q }

def lockLive (s : State P E C Q) (document : String) : Option (Versioned Document) :=
  (s.documents.lookup document).filter (·.value.isLive)

def ownedJob (s : State P E C Q) (run : Run P E C Q) : Option (Versioned IngestionJob) :=
  (s.jobs.lookup run.job).filter (·.value.owned run.taken.attempt)

def lockedByOther (s : State P E C Q) (r : Option ℕ) (document : String) : Bool :=
  anyRow s.runs fun other run => some other ≠ r && run.document == document && run.phase.locks

def claimedByOther (s : State P E C Q) (r : ℕ) (event : String) : Bool :=
  anyRow s.runs fun other run => other ≠ r && run.event == event && run.phase.holdsClaim

def claim (s : State P E C Q) (event : String) : State P E C Q :=
  { s with processed := if event ∈ s.processed then s.processed else event :: s.processed }

def apply (s : State P E C Q) (document job event : String) (write : Write E C Q) :
    Except Conflict (State P E C Q) :=
  match (match write.job with
    | none => Except.ok s.jobs
    | some (read, saved) => saveJob s.jobs job read saved) with
  | .error conflict => .error conflict
  | .ok jobs =>
    match (match write.document with
      | none => Except.ok s.documents
      | some (read, saved) => saveDocument s.documents document read saved) with
    | .error conflict => .error conflict
    | .ok documents =>
      .ok { s with
        jobs := jobs
        documents := documents
        pages := recordPages (seed s.pages document write.seeds) document write.results
        characterizations := match write.record with
          | some record => s.characterizations.insert document record
          | none => s.characterizations
        proposals := (write.proposal.map (document, ·)).toList ++ s.proposals
        processed := if write.claims && event ∉ s.processed then event :: s.processed
          else s.processed }

end State

def saving (moved : Except String IngestionJob) (write : IngestionJob → Write E C Q)
    (next : Phase P E C Q) : Phase P E C Q :=
  match moved with
  | .ok job => .writing (write job) next .faulted
  | .error _ => .faulted

def tryRecord (s : State P E C Q) (run : Run P E C Q) (base : P) (sha256 : String) :
    Phase P E C Q :=
  match s.lockLive run.document with
  | none => .stoppingNotLive
  | some row =>
    if row.value.contentSha256.any (· ≠ sha256) then
      .failing sourceUnreadable "the file's content changed since it was first read"
    else if (activeWithContent s.documents row.value.projectId sha256).any (· ≠ run.document) then
      .duplicate sha256
    else
      match row.value.recordInspection sha256 (row.value.pageCount.getD 0) row.value.pdfCreator
        row.value.pdfProducer with
      | .ok document =>
        .writing { document := some (row, document), locks := true } (.summary base sha256) .faulted
      | .error _ => .faulted

def excludeDuplicate (s : State P E C Q) (run : Run P E C Q) (sha256 : String) (now : ℤ) :
    Phase P E C Q :=
  match s.lockLive run.document, s.ownedJob run with
  | some row, some read =>
    let other := match activeWithContent s.documents row.value.projectId sha256 with
      | none => "another document"
      | some twin => "document " ++ twin
    match (row.value.recordInspection sha256 (row.value.pageCount.getD 0) row.value.pdfCreator
      row.value.pdfProducer).bind (·.exclude .duplicateContent) with
    | .ok document =>
      saving (read.value.fail duplicateDocument
          ("the same content is already " ++ other ++ " of this project") now)
        (fun job => { job := some (read, job), document := some (row, document), claims := true,
                      locks := true })
        (.ended .returned)
    | .error _ => .faulted
  | _, _ => .ended .returned

def seedPages (s : State P E C Q) (run : Run P E C Q) (base : P) (sha256 : String)
    (summary : PdfSummary) : Phase P E C Q :=
  match s.lockLive run.document with
  | none => .stoppingNotLive
  | some row =>
    match row.value.recordInspection sha256 summary.pageCount (clipMetadata summary.creator)
      (clipMetadata summary.producer) with
    | .ok document =>
      .writing { document := some (row, document), seeds := wanted run.taken summary.pageCount,
                 locks := true } (.listing base) .faulted
    | .error _ => .faulted

def honourCancel (s : State P E C Q) (run : Run P E C Q) (now : ℤ) : Phase P E C Q :=
  match s.ownedJob run with
  | none => .ended .returned
  | some read =>
    saving (read.value.cancel now none) (fun job => { job := some (read, job), claims := true })
      (.ended .returned)

def keepLease (cfg : Settings) (s : State P E C Q) (run : Run P E C Q) (base : P)
    (batch : Batch E) (now : ℤ) : Phase P E C Q :=
  match s.ownedJob run with
  | none => .ended .returned
  | some read =>
    saving (read.value.extendLease now cfg.jobLeaseS) (fun job => { job := some (read, job) })
      (.afterReply base batch)

def afterBatch (base : P) (batch : Batch E) (emitted : Bool) : Phase P E C Q :=
  if batch.rest.isEmpty then .gathering base else .honouring base batch.rest emitted

def commitBatch (cfg : Settings) (s : State P E C Q) (run : Run P E C Q) (base : P)
    (batch : Batch E) (now : ℤ) (elapsed : Bool) : Phase P E C Q :=
  match s.lockLive run.document, s.ownedJob run with
  | some _, some read =>
    let due := !batch.emitted || elapsed || batch.rest.isEmpty
    saving ((read.value.extendLease now cfg.jobLeaseS).map fun job =>
        if due then job.nextSeq else job)
      (fun job => { job := some (read, job), locks := true,
                    results := batch.results.insertionSort (·.pageNo ≤ ·.pageNo) })
      (afterBatch base batch (batch.emitted || due))
  | _, _ => .ended .returned

def settle (ins : Inspector Sig P E C Q) (base : P) (record : C) (proposal : Q)
    (row : Versioned Document) (read : Versioned IngestionJob) (now : ℤ) : Phase P E C Q :=
  if row.value.profileState = .confirmed then
    saving (read.value.succeed now)
      (fun job => { job := some (read, job), document := some (row, row.value),
                    record := some record, claims := true, claimedFirst := true, locks := true })
      (.ended .returned)
  else
    let accepted := ins.accepts base proposal
    match row.value.setProfileState (if accepted then .accepted else .proposed) with
    | .ok document =>
      saving (if accepted then read.value.succeed now else read.value.awaitConfirmation)
        (fun job => { job := some (read, job), document := some (row, document),
                      record := some record, proposal := some proposal, claims := true,
                      claimedFirst := true, locks := true })
        (.ended .returned)
    | .error _ => .faulted

def conclude (ins : Inspector Sig P E C Q) (s : State P E C Q) (run : Run P E C Q) (base : P)
    (record : C) (proposal : Q) (now : ℤ) : Phase P E C Q :=
  if run.event ∈ s.processed then .ended .returned
  else
    match s.lockLive run.document, s.ownedJob run with
    | some row, some read =>
      if read.value.cancelRequestedAt ≠ none then
        saving (read.value.cancel now none)
          (fun job => { job := some (read, job), claims := true, claimedFirst := true,
                        locks := true })
          (.ended .returned)
      else settle ins base record proposal row read now
    | _, _ => .ended .returned

def failJob (s : State P E C Q) (run : Run P E C Q) (code detail : String) (now : ℤ) :
    Phase P E C Q :=
  match s.ownedJob run with
  | none => .ended .returned
  | some read =>
    saving (read.value.fail code detail now)
      (fun job => { job := some (read, job), claims := true }) (.ended .returned)

def stopNotLive (s : State P E C Q) (run : Run P E C Q) (now : ℤ) : Phase P E C Q :=
  match s.ownedJob run with
  | none => .ended .returned
  | some read =>
    saving (read.value.cancel now (some documentNotLive))
      (fun job => { job := some (read, job), claims := true }) (.ended .returned)

/-- A conflict is tried again, up to the limit; any other exception ends the run too. -/
def releaseLease (s : State P E C Q) (run : Run P E C Q) (tries : ℕ) (now : ℤ) : Phase P E C Q :=
  match s.ownedJob run with
  | none => .ended .raised
  | some read =>
    match read.value.releaseLease now with
    | .ok job =>
      .writing { job := some (read, job) } (.ended .raised)
        (if tries ≤ 1 then .ended .raised else .releasing (tries - 1))
    | .error _ => .ended .raised

def openTx (cfg : Settings) (ins : Inspector Sig P E C Q) (s : State P E C Q) (r : ℕ)
    (run : Run P E C Q) (now : ℤ) (elapsed : Bool) : Option (Phase P E C Q) :=
  match run.phase with
  | .fingerprint base sha256 => some (tryRecord s run base sha256)
  | .duplicate sha256 => some (excludeDuplicate s run sha256 now)
  | .seeding base sha256 summary => some (seedPages s run base sha256 summary)
  | .cancelling => some (honourCancel s run now)
  | .keeping base batch => some (keepLease cfg s run base batch now)
  | .committing base batch => some (commitBatch cfg s run base batch now elapsed)
  | .concluding base record proposal =>
    if s.claimedByOther r run.event then none
    else some (conclude ins s run base record proposal now)
  | .failing code detail => some (failJob s run code detail now)
  | .stoppingNotLive => some (stopNotLive s run now)
  | .releasing tries => some (releaseLease s run tries now)
  | _ => none

def resultOf (ins : Inspector Sig P E C Q) (base : P) (signals : Sig) (attempts : ℕ) :
    PageResult E where
  pageNo := ins.pageNo signals
  status := (ins.classify base signals).1
  reason := (ins.classify base signals).2.1
  attempts := attempts
  content := (ins.classify base signals).2.2

def failedPage (ins : Inspector Sig P E C Q) (n : ℕ) (reason : StageReason) (attempts : ℕ) :
    PageResult E :=
  ⟨n, .failed, some reason, attempts, ins.blank n⟩

def rangeResults (ins : Inspector Sig P E C Q) (base : P) (first last : ℕ) (signals : List Sig) :
    List (PageResult E) :=
  signals.map (resultOf ins base · 1) ++
    ((pageRange first last).filter fun n => n ∉ signals.map ins.pageNo).map
      (failedPage ins · .parseError 1)

def onePage (ins : Inspector Sig P E C Q) (base : P) (n : ℕ) (found : List Sig) : PageResult E :=
  match found.find? fun signals => ins.pageNo signals = n with
  | some signals => resultOf ins base signals 2
  | none => failedPage ins n .parseError 2

def answerPages (ins : Inspector Sig P E C Q) (base : P) (batch : Batch E)
    (reply : Except ParseFailure (List Sig)) : Option (Phase P E C Q) :=
  match batch.single, batch.ranges with
  | n :: single, _ =>
    match reply with
    | .ok found => some (.keeping base { batch with
        single := single, results := batch.results ++ [onePage ins base n found] })
    | .error (.range reason) => some (.keeping base { batch with
        single := single, results := batch.results ++ [failedPage ins n reason 2] })
    | .error (.rejected detail) => some (.failing pdfRejected detail)
  | [], (first, last) :: ranges =>
    match reply with
    | .ok signals => some (.afterReply base { batch with
        ranges := ranges, results := batch.results ++ rangeResults ins base first last signals })
    | .error (.range _) => some (.afterReply base { batch with
        ranges := ranges, single := pageRange first last })
    | .error (.rejected detail) => some (.failing pdfRejected detail)
  | [], [] => none

def answerSummary (cfg : Settings) (base : P) (sha256 : String) :
    Except ParseFailure PdfSummary → Phase P E C Q
  | .ok summary =>
    if cfg.maxPages < summary.pageCount then
      .failing tooManyPages ("the PDF has " ++ toString summary.pageCount ++
        " pages; the limit is " ++ toString cfg.maxPages)
    else .seeding base sha256 summary
  | .error (.range reason) =>
    match summaryFailed reason with
    | some text => .failing pdfRejected text
    | none => .faulted
  | .error (.rejected detail) => .failing pdfRejected detail

def answerStaging (base : P) : Staging → Phase P E C Q
  | .unreadable => .failing sourceUnreadable "the file is no longer readable"
  | .fails detail => .failing sourceUnreadable detail
  | .staged sha256 => .fingerprint base sha256

def honourJob (cfg : Settings) (s : State P E C Q) (run : Run P E C Q) (base : P)
    (todo : List ℕ) (emitted live : Bool) : Phase P E C Q :=
  match s.ownedJob run with
  | none => .ended .returned
  | some read =>
    if live = false then .stoppingNotLive
    else if read.value.cancelRequestedAt ≠ none then .cancelling
    else .classifying base
      { ranges := runsOf (todo.take cfg.inspectBatchPages), single := [], results := [],
        rest := todo.drop cfg.inspectBatchPages, emitted := emitted }

def proceed (cfg : Settings) (ins : Inspector Sig P E C Q) (s : State P E C Q) (r : ℕ)
    (run : Run P E C Q) : Input Sig P → Option (Phase P E C Q)
  | .profile base =>
    match run.phase with
    | .profile => some (.remaining base)
    | _ => none
  | .remaining =>
    match run.phase with
    | .remaining base =>
      if (unfinished s.pages run.document).isEmpty ∧ run.document ∈ s.characterizations then
        some (.gathering base)
      else some (.staging base)
    | _ => none
  | .staged result =>
    match run.phase with
    | .staging base => some (answerStaging base result)
    | _ => none
  | .openTx now elapsed => openTx cfg ins s r run now elapsed
  | .summary reply =>
    match run.phase with
    | .summary base sha256 => some (answerSummary cfg base sha256 reply)
    | _ => none
  | .list =>
    match run.phase with
    | .listing base =>
      let todo := unfinished s.pages run.document
      some (if todo.isEmpty then .gathering base else .honouring base todo false)
    | _ => none
  | .honourDocument =>
    match run.phase with
    | .honouring base todo emitted =>
      some (.honouringJob base todo emitted (s.lockLive run.document).isSome)
    | _ => none
  | .honourJob =>
    match run.phase with
    | .honouringJob base todo emitted live => some (honourJob cfg s run base todo emitted live)
    | _ => none
  | .pages reply =>
    match run.phase with
    | .classifying base batch => answerPages ins base batch reply
    | _ => none
  | .document =>
    match run.phase with
    | .gathering base =>
      match s.documents.lookup run.document with
      | some row => some (.gatheringPages base row.value)
      | none => some (.ended .returned)
    | _ => none
  | .evidence =>
    match run.phase with
    | .gatheringPages base document =>
      let concluded := ins.conclude base run.document (document.contentSha256.getD "")
        ⟨document.pageCount.getD 0, document.pdfCreator, document.pdfProducer⟩
        (evidence s.pages run.document)
      some (.concluding base concluded.1 concluded.2)
    | _ => none
  | .fault => run.phase.fault
  | .crash => run.phase.crash

def deliver (cfg : Settings) (s : State P E C Q) (r : ℕ) (job event : String) (now : ℤ) :
    Option (State P E C Q) :=
  match s.jobs.lookup job with
  | none => if s.claimedByOther r event then none else some (s.claim event)
  | some row =>
    if row.value.status ≠ .queued ∧ row.value.status ≠ .running then
      if s.claimedByOther r event then none else some (s.claim event)
    else
      match s.lockLive row.value.documentId with
      | none =>
        match row.value.cancel now (some documentNotLive) with
        | .ok cancelled =>
          some (s.withRun r ⟨job, row.value.documentId, event, row.value, .dropping row cancelled⟩)
        | .error _ => some s
      | some _ =>
        match row.value.takeLease now cfg.jobLeaseS with
        | none => some s
        | some leased =>
          let taken := { leased with stage := some .classify }
          some (s.withRun r ⟨job, row.value.documentId, event, taken, .taking row taken⟩)

def takeCommit (s : State P E C Q) (r : ℕ) (run : Run P E C Q) : Option (State P E C Q) :=
  match run.phase with
  | .taking read leased =>
    match saveJob s.jobs run.job read leased with
    | .ok jobs => some ({ s with jobs := jobs }.withRun r { run with phase := .profile })
    | .error _ => some (s.endRun r)
  | .dropping read cancelled =>
    if s.claimedByOther r run.event then none
    else
      match saveJob s.jobs run.job read cancelled with
      | .ok jobs => some (({ s with jobs := jobs }.claim run.event).endRun r)
      | .error _ => some (s.endRun r)
  | _ => none

def commitRun (s : State P E C Q) (r : ℕ) (run : Run P E C Q) : Option (State P E C Q) :=
  match run.phase with
  | .writing write next stale =>
    if write.document.isSome && s.lockedByOther r run.document ||
        write.claims && s.claimedByOther r run.event then none
    else
      match s.apply run.document run.job run.event write with
      | .ok t => some (t.withRun r { run with phase := next })
      | .error conflict => some (s.withRun r { run with phase := next.conflicted stale conflict })
  | _ => none

def requireJob (s : State P E C Q) (job : String) :
    Option (Versioned IngestionJob × Versioned Document) :=
  (s.jobs.lookup job).bind fun row =>
    ((s.documents.lookup row.value.documentId).filter (·.value.status ≠ .purging)).map (row, ·)

/-- A request that is refused changes nothing. -/
def request (s : State P E C Q) (q : ℕ) (kind : RequestKind) (job document : String)
    (moved : Except String (Write E C Q)) : State P E C Q :=
  match moved with
  | .ok write => { s with requests := s.requests.insert q ⟨kind, job, document, write⟩ }
  | .error _ => s

def cancelRequest (s : State P E C Q) (q : ℕ) (job : String) (now : ℤ) : State P E C Q :=
  match requireJob s job with
  | none => s
  | some (row, _) =>
    if row.value.status = .cancelled ∨
        row.value.status = .running ∧ row.value.cancelRequestedAt ≠ none then s
    else
      let moved := if row.value.status = .running then row.value.requestCancel now
        else row.value.cancel now none
      request s q .cancel job row.value.documentId
        (moved.map fun saved => { job := some (row, saved) })

def resumeRequest (s : State P E C Q) (q : ℕ) (job : String) (now : ℤ) : State P E C Q :=
  match requireJob s job with
  | none => s
  | some (row, document) =>
    if row.value.status = .awaitingConfirmation ∨ document.value.status ≠ .active then s
    else request s q .resume job row.value.documentId
      ((row.value.requeue now).map fun saved => { job := some (row, saved) })

def confirmRequest (s : State P E C Q) (q : ℕ) (document : String) (now : ℤ) : State P E C Q :=
  match s.lockLive document, openFor s.jobs document with
  | some row, some (job, read) =>
    if read.value.status ≠ .awaitingConfirmation then s
    else request s q .confirm job document ((row.value.setProfileState .confirmed).bind fun saved =>
      (read.value.requeue now).map fun requeued =>
        { job := some (read, requeued), document := some (row, saved) })
  | _, _ => s

def replaceProfileRequest (s : State P E C Q) (q : ℕ) (document : String) : State P E C Q :=
  match s.lockLive document with
  | none => s
  | some row =>
    if (openFor s.jobs document).any (·.2.value.status = .awaitingConfirmation) then s
    else request s q .replaceProfile "" document
      ((row.value.setProfileState .confirmed).map fun saved => { document := some (row, saved) })

def requestCommit (s : State P E C Q) (q : ℕ) (request : Request E C Q) :
    Option (State P E C Q) :=
  if request.write.document.isSome && s.lockedByOther none request.document then none
  else
    match s.apply request.document request.job "" request.write with
    | .ok t => some (t.endRequest q)
    | .error _ => some (s.endRequest q)

def orphans (s : State P E C Q) (project : String) (active readable : List String) :
    List String :=
  active.filter fun id => (s.lockLive id).any fun row =>
    row.value.projectId == project && row.value.fileId ∉ readable

def excludeOrphan (documents : Documents) (id : String) : Documents :=
  match documents.lookup id with
  | some row =>
    match row.value.exclude .fileUnreadable with
    | .ok document => documents.insert id ⟨document, row.version + 1⟩
    | .error _ => documents
  | none => documents

def register (s : State P E C Q) (document job project file : String)
    (active readable : List String) : Option (State P E C Q) :=
  let excluded := orphans s project active readable
  if document ∈ s.issued || job ∈ s.issued || document == job ||
      excluded.any (s.lockedByOther none ·) ||
      anyRow s.documents fun _ row => row.value.fileId == file && row.value.status ≠ .purging then
    none
  else some { s with
    issued := document :: job :: s.issued
    documents := (excluded.foldl excludeOrphan s.documents).insert document
      ⟨newDocument project file, 1⟩
    jobs := s.jobs.insert job ⟨newJob document .ingest none, 1⟩ }

def pagesInRange (document : Document) : Option (List ℕ) → Option (Option (List ℕ))
  | none => some none
  | some pages =>
    let asked := pages.eraseDups.insertionSort (· ≤ ·)
    if asked.isEmpty || !document.pageCount.any fun last =>
        asked.all fun n => 1 ≤ n && n ≤ last then
      none
    else some (some asked)

def reprocess (s : State P E C Q) (document job : String) (pages : Option (List ℕ)) :
    Option (State P E C Q) :=
  match s.lockLive document with
  | none => none
  | some row =>
    match pagesInRange row.value pages with
    | none => none
    | some subset =>
      if row.value.profileState = .proposed ∨ job ∈ s.issued ∨
          (openFor s.jobs document).isSome then none
      else some { s with
        issued := job :: s.issued
        jobs := s.jobs.insert job ⟨newJob document .reprocess subset, 1⟩
        pages := resetPages s.pages document subset }

def markPurging (now : ℤ) (s : State P E C Q) (document : String) : State P E C Q :=
  match s.documents.lookup document with
  | none => s
  | some row =>
    match row.value.markPurging with
    | none => s
    | some purging =>
      { s with
        documents := s.documents.insert document ⟨purging, row.version + 1⟩
        jobs := match openFor s.jobs document with
          | none => s.jobs
          | some (id, read) =>
            match read.value.cancel now (some documentNotLive) with
            | .ok cancelled => s.jobs.insert id ⟨cancelled, read.version + 1⟩
            | .error _ => s.jobs }

def sweep (s : State P E C Q) (document : String) : State P E C Q :=
  if (s.documents.lookup document).any (·.value.status = .purging) then
    { s with
      documents := s.documents.erase document
      jobs := eraseAll s.jobs (s.jobs.keys.filter fun id =>
        (s.jobs.lookup id).any (·.value.documentId = document))
      pages := eraseAll s.pages (s.pages.keys.filter (·.1 = document))
      characterizations := s.characterizations.erase document
      proposals := s.proposals.filter (·.1 ≠ document) }
  else s

def step (cfg : Settings) (ins : Inspector Sig P E C Q) (s : State P E C Q) :
    Event Sig P → Option (State P E C Q)
  | .deliver r job event now => if r ∈ s.runs then none else deliver cfg s r job event now
  | .takeCommit r => (s.runs.lookup r).bind (takeCommit s r)
  | .takeFails r => (s.runs.lookup r).bind fun run =>
      if run.phase.isTaken then none else some (s.endRun r)
  | .proceed r input => (s.runs.lookup r).bind fun run =>
      (proceed cfg ins s r run input).map fun phase => s.withRun r { run with phase := phase }
  | .commit r => (s.runs.lookup r).bind (commitRun s r)
  | .cancel q job now => if q ∈ s.requests then none else some (cancelRequest s q job now)
  | .resume q job now => if q ∈ s.requests then none else some (resumeRequest s q job now)
  | .confirm q document now =>
      if q ∈ s.requests then none else some (confirmRequest s q document now)
  | .replaceProfile q document =>
      if q ∈ s.requests then none else some (replaceProfileRequest s q document)
  | .requestCommit q => (s.requests.lookup q).bind (requestCommit s q)
  | .requestFails q => some (s.endRequest q)
  | .register document job project file active readable =>
      register s document job project file active readable
  | .reprocess document job pages => reprocess s document job pages
  | .purge documents now =>
      if documents.any (s.lockedByOther none ·) then none
      else some (documents.foldl (markPurging now) s)
  | .sweep document => some (sweep s document)

end Machine

end Aizzak.IngestionRuns
