import Aizzak.IngestionContents
import Aizzak.IngestionPages

/-!
What the runs of one document write, when all they are told comes from its file and from one
profile. The answers of the PDF service are a function of the file, and a range of pages fails
exactly when one of its pages does. Whatever a run has recorded of a page is then what the file
gives for it, so the rows left by runs that crashed are as good as one's own: a run goes on to
its conclusion only when every page is recorded, and it concludes the same as every other.
-/
namespace Aizzak.ResumeIndependence

open EventRuns KeyedTables VersionedRows IngestionJobs IngestionRuns IngestionWrites List Option
open IngestionCoherence IngestionContents IngestionPages

section Machine

variable {Sig P E C Q : Type} {ins : Inspector Sig P E C Q}

structure PdfFile (ins : Inspector Sig P E C Q) where
  sha256 : String
  summary : Except ParseFailure PdfSummary
  page : ℕ → Except ParseFailure (Option Sig)
  numbered : ∀ n signals, page n = .ok (some signals) → ins.pageNo signals = n

namespace PdfFile

variable (file : PdfFile ins)

def facts : PdfSummary :=
  match file.summary with
  | .ok summary =>
    ⟨summary.pageCount, clipMetadata summary.creator, clipMetadata summary.producer⟩
  | .error _ => ⟨0, none, none⟩

def pageNumbers : List ℕ := List.range' 1 file.facts.pageCount

def signals (n : ℕ) : Option Sig :=
  match file.page n with
  | .ok found => found
  | .error _ => none

def fails (n : ℕ) : Bool :=
  match file.page n with
  | .ok _ => false
  | .error _ => true

def Answers (first last : ℕ) : Except ParseFailure (List Sig) → Prop
  | .ok found => (∀ n ∈ pageRange first last, file.fails n = false) ∧
      found = (pageRange first last).filterMap file.signals
  | .error failure => (∃ n ∈ pageRange first last, file.fails n = true) ∧
      (first = last → file.page first = .error failure)

instance [DecidableEq Sig] (first last : ℕ) : ∀ reply, Decidable (file.Answers first last reply)
  | .ok found => inferInstanceAs (Decidable ((∀ n ∈ pageRange first last, file.fails n = false) ∧
      found = (pageRange first last).filterMap file.signals))
  | .error failure => inferInstanceAs (Decidable
      ((∃ n ∈ pageRange first last, file.fails n = true) ∧
        (first = last → file.page first = .error failure)))

def outcome (base : P) (n : ℕ) : Option (StageStatus × Option StageReason × E) :=
  match file.page n with
  | .ok (some signals) => some (ins.classify base signals)
  | .ok none => some (.failed, some .parseError, ins.blank n)
  | .error (.range reason) => some (.failed, some reason, ins.blank n)
  | .error (.rejected _) => none

def evidence (base : P) : List (PageEvidence E) :=
  file.pageNumbers.filterMap fun n => (file.outcome base n).bind fun stored =>
    if stored.1.isEvidence then some ⟨n, stored.1, stored.2.1, stored.2.2⟩ else none

structure Readable (cfg : Settings) : Prop where
  sha256 : isSha256 file.sha256 = true
  summary : ∃ summary, file.summary = .ok summary ∧ summary.pageCount ≤ cfg.maxPages

/-- A file that is not refused at any of its pages either. -/
structure Whole (cfg : Settings) (base : P) : Prop extends file.Readable cfg where
  pages : ∀ n ∈ file.pageNumbers, file.outcome base n ≠ none

def HasFacts (document : Document) : Prop :=
  document.contentSha256 = some file.sha256 ∧ document.pageCount = some file.facts.pageCount ∧
    document.pdfCreator = file.facts.creator ∧ document.pdfProducer = file.facts.producer

structure DocumentMove (document after : Document) : Prop where
  live : after.isLive = true → document.isLive = true
  facts : file.HasFacts document → file.HasFacts after

variable {file} {document after : Document}

theorem DocumentMove.of_setProfileState {state : ProfileState}
    (h : document.setProfileState state = .ok after) : file.DocumentMove document after := by
  obtain ⟨-, -, rfl⟩ := map_eq_ok h
  exact ⟨id, id⟩

theorem DocumentMove.trans {mid : Document} (h : file.DocumentMove document mid)
    (h' : file.DocumentMove mid after) : file.DocumentMove document after :=
  ⟨h.live ∘ h'.live, h'.facts ∘ h.facts⟩

theorem recordInspection_eq_ok {sha256 : String} {pageCount : ℕ} {creator producer : Option String}
    (h : document.recordInspection sha256 pageCount creator producer = .ok after) :
    document.isLive = true ∧ isSha256 sha256 = true ∧
      after = { document with
        contentSha256 := some sha256
        pageCount := some pageCount
        pdfCreator := creator
        pdfProducer := producer } := by
  obtain ⟨checked, hl, hr⟩ := bind_eq_ok h
  split_ifs at hr with hsha
  cases hr
  refine ⟨?_, hsha, rfl⟩
  unfold Document.requireLive at hl
  split_ifs at hl with hisLive
  exact hisLive

theorem DocumentMove.of_fingerprint
    (h : document.recordInspection file.sha256 (document.pageCount.getD 0) document.pdfCreator
      document.pdfProducer = .ok after) : file.DocumentMove document after := by
  obtain ⟨hl, -, rfl⟩ := recordInspection_eq_ok h
  refine ⟨fun _ => hl, fun ⟨_, hco, hc, hp⟩ => ?_⟩
  exact ⟨rfl, by simp [hco], hc, hp⟩

theorem DocumentMove.of_exclude {reason : ExclusionReason}
    (h : document.exclude reason = .ok after) : file.DocumentMove document after := by
  unfold Document.exclude at h
  split_ifs at h
  cases h
  exact ⟨fun hl => by simp [Document.isLive] at hl, id⟩

theorem DocumentMove.of_markPurging (h : document.markPurging = some after) :
    file.DocumentMove document after := by
  unfold Document.markPurging at h
  split_ifs at h
  cases h
  exact ⟨fun hl => by simp [Document.isLive] at hl, id⟩

end PdfFile

structure Subject (ins : Inspector Sig P E C Q) where
  cfg : Settings
  file : PdfFile ins
  base : P
  document : String

def askedRange : Phase P E C Q → Option (ℕ × ℕ)
  | .classifying _ batch =>
    match batch.single, batch.ranges with
    | n :: _, _ => some (n, n)
    | [], range :: _ => some range
    | [], [] => none
  | _ => none

def unanswered (batch : Batch E) : List ℕ :=
  (batch.ranges.flatMap fun range => pageRange range.1 range.2) ++ batch.single

namespace Subject

variable (subject : Subject ins)

def concluded : C × Q :=
  ins.conclude subject.base subject.document subject.file.sha256 subject.file.facts
    (subject.file.evidence subject.base)

def Told (run : Run P E C Q) : Input Sig P → Prop
  | .profile effective => effective = subject.base
  | .staged (.staged sha256) => sha256 = subject.file.sha256
  | .summary reply => reply = subject.file.summary
  | .pages reply => ∀ range ∈ askedRange run.phase, subject.file.Answers range.1 range.2 reply
  | _ => True

/-- The runs of the document are told of its file and one profile alone, and it is not
reprocessed. -/
def Follows (s : State P E C Q) : Event Sig P → Prop
  | .proceed r input => ∀ run ∈ s.runs.lookup r, run.document = subject.document →
      subject.Told run input
  | .reprocess other _ _ => other ≠ subject.document
  | _ => True

instance [DecidableEq Sig] [DecidableEq P] (run : Run P E C Q) :
    ∀ input, Decidable (subject.Told run input)
  | .profile effective => inferInstanceAs (Decidable (effective = subject.base))
  | .staged (.staged sha256) => inferInstanceAs (Decidable (sha256 = subject.file.sha256))
  | .summary reply => inferInstanceAs (Decidable (reply = subject.file.summary))
  | .pages reply => inferInstanceAs (Decidable
      (∀ range ∈ askedRange run.phase, subject.file.Answers range.1 range.2 reply))
  | .remaining | .staged .unreadable | .staged (.fails _) | .openTx _ _ | .list
  | .honourDocument | .honourJob | .document | .evidence | .fault | .crash => isTrue trivial

instance [DecidableEq Sig] [DecidableEq P] (s : State P E C Q) :
    ∀ e, Decidable (subject.Follows s e)
  | .proceed r input => inferInstanceAs (Decidable (∀ run ∈ s.runs.lookup r,
      run.document = subject.document → subject.Told run input))
  | .reprocess other _ _ => inferInstanceAs (Decidable (other ≠ subject.document))
  | .deliver _ _ _ _ | .takeCommit _ | .takeFails _ | .commit _ | .cancel _ _ _
  | .resume _ _ _ | .confirm _ _ _ | .replaceProfile _ _ | .requestCommit _ | .requestFails _
  | .register _ _ _ _ _ _ | .purge _ _ | .sweep _ => isTrue trivial

def Gone (s : State P E C Q) : Prop :=
  subject.document ∈ s.issued ∧
    ∀ row, s.documents.lookup subject.document = some row → row.value.isLive = false

structure Inspected (s : State P E C Q) : Prop where
  readable : subject.file.Readable subject.cfg
  issued : subject.document ∈ s.issued
  facts : ∀ row, s.documents.lookup subject.document = some row → subject.file.HasFacts row.value

def Recorded (s : State P E C Q) (n : ℕ) : Prop :=
  ∃ row, s.pages.lookup (subject.document, n) = some row ∧ row.content ≠ none

def Seeded (s : State P E C Q) : Prop :=
  subject.Gone s ∨ ∀ n ∈ subject.file.pageNumbers, (subject.document, n) ∈ s.pages

def Covered (s : State P E C Q) (todo : List ℕ) : Prop :=
  subject.Gone s ∨ ∀ n ∈ subject.file.pageNumbers, subject.Recorded s n ∨ n ∈ todo

def Genuine (result : PageResult E) : Prop :=
  result.pageNo ∈ subject.file.pageNumbers ∧
    subject.file.outcome subject.base result.pageNo =
      some (result.status, result.reason, result.content)

def GenuineRow (n : ℕ) (row : PageRow E) : Prop :=
  n ∈ subject.file.pageNumbers ∧ (row = pendingRow ∨ ∃ content, row.content = some content ∧
    subject.file.outcome subject.base n = some (row.status, row.reason, content))

structure BatchSound (s : State P E C Q) (batch : Batch E) : Prop where
  numbers : ∀ n ∈ unanswered batch ++ batch.rest, n ∈ subject.file.pageNumbers
  results : ∀ result ∈ batch.results, subject.Genuine result
  covered : subject.Covered s (unanswered batch ++ batch.results.map (·.pageNo) ++ batch.rest)

structure WriteSound (s : State P E C Q) (write : Write E C Q) : Prop where
  seeds : ∀ n ∈ write.seeds, n ∈ subject.file.pageNumbers
  results : ∀ result ∈ write.results, subject.Genuine result
  document : ∀ read saved, write.document = some (read, saved) →
    Current s.documents subject.document read ∧ subject.file.DocumentMove read.value saved
  record : ∀ record, write.record = some record → record = subject.concluded.1 ∧
    subject.file.Whole subject.cfg subject.base ∧ subject.Inspected s ∧ subject.Covered s []
  proposal : ∀ proposal, write.proposal = some proposal → proposal = subject.concluded.2 ∧
    subject.file.Whole subject.cfg subject.base

def NextReady (s : State P E C Q) (write : Write E C Q) : Phase P E C Q → Prop
  | .summary effective sha256 => effective = subject.base ∧ sha256 = subject.file.sha256
  | .listing effective => effective = subject.base ∧ subject.file.Readable subject.cfg ∧
      (∀ n ∈ subject.file.pageNumbers, n ∈ write.seeds) ∧
      ∃ read saved, write.document = some (read, saved) ∧ subject.file.HasFacts saved
  | .classifying effective batch => effective = subject.base ∧ subject.Inspected s ∧
      subject.BatchSound s batch
  | .committing effective batch => effective = subject.base ∧ subject.Inspected s ∧
      subject.BatchSound s batch ∧ unanswered batch = []
  | .honouring effective todo _ => effective = subject.base ∧ subject.Inspected s ∧
      (∀ n ∈ todo, n ∈ subject.file.pageNumbers) ∧
      subject.Covered s (write.results.map (·.pageNo) ++ todo)
  | .gathering effective => effective = subject.base ∧ subject.Inspected s ∧
      subject.Covered s (write.results.map (·.pageNo))
  | .ended _ => True
  | _ => False

def Ready (s : State P E C Q) : Phase P E C Q → Prop
  | .remaining effective | .staging effective => effective = subject.base
  | .duplicate sha256 => sha256 = subject.file.sha256
  | .fingerprint effective sha256 | .summary effective sha256 =>
      effective = subject.base ∧ sha256 = subject.file.sha256
  | .seeding effective sha256 summary => effective = subject.base ∧
      sha256 = subject.file.sha256 ∧ subject.file.summary = .ok summary ∧
      summary.pageCount ≤ subject.cfg.maxPages
  | .listing effective => effective = subject.base ∧ subject.Inspected s ∧ subject.Seeded s
  | .honouring effective todo _ | .honouringJob effective todo _ _ =>
      effective = subject.base ∧ subject.Inspected s ∧
        (∀ n ∈ todo, n ∈ subject.file.pageNumbers) ∧ subject.Covered s todo
  | .classifying effective batch | .keeping effective batch =>
      effective = subject.base ∧ subject.Inspected s ∧ subject.BatchSound s batch
  | .committing effective batch => effective = subject.base ∧ subject.Inspected s ∧
      subject.BatchSound s batch ∧ unanswered batch = []
  | .gathering effective => effective = subject.base ∧ subject.Inspected s ∧ subject.Covered s []
  | .gatheringPages effective document => effective = subject.base ∧
      subject.file.HasFacts document ∧ subject.Inspected s ∧ subject.Covered s []
  | .concluding effective record proposal => effective = subject.base ∧ subject.Inspected s ∧
      subject.Covered s [] ∧ (subject.Gone s ∨ (record, proposal) = subject.concluded ∧
        subject.file.Whole subject.cfg subject.base)
  | .writing write next stale => subject.WriteSound s write ∧ subject.NextReady s write next ∧
      ((∃ tries, stale = .releasing tries) ∨ ∃ outcome, stale = .ended outcome)
  | _ => True

structure Reproducible (s : State P E C Q) : Prop where
  coherent : Coherent s
  stored : ∀ row, s.documents.lookup subject.document = some row → subject.document ∈ s.issued
  jobs : ∀ id row, s.jobs.lookup id = some row → row.value.documentId = subject.document →
    subject.document ∈ s.issued ∧ row.value.kind = .ingest
  runs : ∀ r run, s.runs.lookup r = some run → run.document = subject.document →
    subject.document ∈ s.issued ∧ run.taken.kind = .ingest ∧ subject.Ready s run.phase
  requests : ∀ q request, s.requests.lookup q = some request →
    request.document = subject.document → subject.WriteSound s request.write ∧
      (request.write.document ≠ none → subject.document ∈ s.issued)
  pages : ∀ n row, s.pages.lookup (subject.document, n) = some row → subject.GenuineRow n row
  record : ∀ record, s.characterizations.lookup subject.document = some record →
    record = subject.concluded.1 ∧ subject.file.Whole subject.cfg subject.base ∧
      subject.Inspected s ∧ subject.Covered s []
  proposals : ∀ proposal, (subject.document, proposal) ∈ s.proposals →
    proposal = subject.concluded.2 ∧ subject.file.Whole subject.cfg subject.base

section Keeping

variable {subject : Subject ins} {s t : State P E C Q} {e : Event Sig P}

structure Keeps (subject : Subject ins) (s t : State P E C Q) : Prop where
  issued : subject.document ∈ s.issued → subject.document ∈ t.issued
  documents : ∀ row, t.documents.lookup subject.document = some row →
    (∃ old, s.documents.lookup subject.document = some old ∧
      Later subject.file.DocumentMove old row) ∨
    subject.document ∉ s.issued ∧ subject.document ∈ t.issued
  rows : subject.Gone t ∨ ∀ n, (subject.document, n) ∈ s.pages → (subject.document, n) ∈ t.pages
  recorded : subject.Gone t ∨ ∀ n, subject.Recorded s n → subject.Recorded t n

namespace Keeps

section

variable (h : Keeps subject s t)
include h

theorem later (hi : subject.document ∈ s.issued) (row : Versioned Document)
    (hrow : t.documents.lookup subject.document = some row) :
    ∃ old, s.documents.lookup subject.document = some old ∧
      Later subject.file.DocumentMove old row :=
  (h.documents row hrow).resolve_right fun hnew => hnew.1 hi

theorem gone (hs : subject.Gone s) : subject.Gone t := by
  refine ⟨h.issued hs.1, fun row hrow => ?_⟩
  obtain ⟨old, hold, hl⟩ := h.later hs.1 row hrow
  refine hl.keeps (p := fun doc => doc.isLive = false) (fun doc after hm hg => ?_)
    (hs.2 old hold)
  cases hli : after.isLive with
  | false => rfl
  | true => exact absurd (hm.live hli) (by simp [hg])

theorem inspected (hs : subject.Inspected s) : subject.Inspected t := by
  refine ⟨hs.readable, h.issued hs.issued, fun row hrow => ?_⟩
  obtain ⟨old, hold, hl⟩ := h.later hs.issued row hrow
  exact hl.keeps (fun _ _ hm => hm.facts) (hs.facts old hold)

theorem current (hi : subject.document ∈ s.issued) {read : Versioned Document}
    (hr : Current s.documents subject.document read) :
    Current t.documents subject.document read :=
  hr.later (h.later hi)

theorem seeded (hs : subject.Seeded s) : subject.Seeded t := by
  rcases hs with hg | hr
  · exact .inl (h.gone hg)
  · exact h.rows.imp_right fun hk n hn => hk n (hr n hn)

theorem covered {todo : List ℕ} (hs : subject.Covered s todo) : subject.Covered t todo := by
  rcases hs with hg | hr
  · exact .inl (h.gone hg)
  · exact h.recorded.imp_right fun hk n hn => (hr n hn).imp_left (hk n)

theorem batchSound {batch : Batch E} (hs : subject.BatchSound s batch) :
    subject.BatchSound t batch :=
  ⟨hs.numbers, hs.results, h.covered hs.covered⟩

theorem writeSound {write : Write E C Q}
    (his : write.document ≠ none → subject.document ∈ s.issued)
    (hs : subject.WriteSound s write) : subject.WriteSound t write := by
  refine ⟨hs.seeds, hs.results, ?_, ?_, hs.proposal⟩
  · intro read saved hd
    obtain ⟨hre, hm⟩ := hs.document read saved hd
    exact ⟨h.current (his (by simp [hd])) hre, hm⟩
  · intro record hr
    obtain ⟨heq, hw, hi, hc⟩ := hs.record record hr
    exact ⟨heq, hw, h.inspected hi, h.covered hc⟩

theorem nextReady {write : Write E C Q} {next : Phase P E C Q}
    (hs : subject.NextReady s write next) : subject.NextReady t write next := by
  cases next with
  | summary _ _ | listing _ | ended _ => exact hs
  | classifying _ _ => exact ⟨hs.1, h.inspected hs.2.1, h.batchSound hs.2.2⟩
  | committing _ _ => exact ⟨hs.1, h.inspected hs.2.1, h.batchSound hs.2.2.1, hs.2.2.2⟩
  | honouring _ _ _ => exact ⟨hs.1, h.inspected hs.2.1, hs.2.2.1, h.covered hs.2.2.2⟩
  | gathering _ => exact ⟨hs.1, h.inspected hs.2.1, h.covered hs.2.2⟩
  | _ => exact hs.elim

/-- What a run knows stays true while others go on. -/
theorem ready (hi : subject.document ∈ s.issued) {phase : Phase P E C Q}
    (hs : subject.Ready s phase) : subject.Ready t phase := by
  cases phase with
  | listing _ => exact ⟨hs.1, h.inspected hs.2.1, h.seeded hs.2.2⟩
  | honouring _ _ _ => exact ⟨hs.1, h.inspected hs.2.1, hs.2.2.1, h.covered hs.2.2.2⟩
  | honouringJob _ _ _ _ => exact ⟨hs.1, h.inspected hs.2.1, hs.2.2.1, h.covered hs.2.2.2⟩
  | classifying _ _ => exact ⟨hs.1, h.inspected hs.2.1, h.batchSound hs.2.2⟩
  | keeping _ _ => exact ⟨hs.1, h.inspected hs.2.1, h.batchSound hs.2.2⟩
  | committing _ _ => exact ⟨hs.1, h.inspected hs.2.1, h.batchSound hs.2.2.1, hs.2.2.2⟩
  | gathering _ => exact ⟨hs.1, h.inspected hs.2.1, h.covered hs.2.2⟩
  | gatheringPages _ _ => exact ⟨hs.1, hs.2.1, h.inspected hs.2.2.1, h.covered hs.2.2.2⟩
  | concluding _ _ _ =>
    exact ⟨hs.1, h.inspected hs.2.1, h.covered hs.2.2.1, hs.2.2.2.imp_left h.gone⟩
  | writing _ _ _ => exact ⟨h.writeSound (fun _ => hi) hs.1, h.nextReady hs.2.1, hs.2.2⟩
  | _ => exact hs

end

end Keeps

theorem lookup_saveDocument_of_ne {documents after : Documents} {id other : String}
    {read : Versioned Document} {document : Document} (hne : other ≠ id)
    (h : saveDocument documents id read document = .ok after) :
    after.lookup other = documents.lookup other := by
  unfold saveDocument save at h
  split at h
  · cases h
  · rename_i saved hs
    split_ifs at h
    cases h
    split at hs
    · split_ifs at hs
      cases hs
      exact AList.lookup_insert_ne hne
    · cases hs

variable {job : String} {write : Write E C Q}

theorem applied_of_ne {document : String} (h : Applied s document job write t)
    (hne : document ≠ subject.document) :
    t.documents.lookup subject.document = s.documents.lookup subject.document ∧
      (∀ n, t.pages.lookup (subject.document, n) = s.pages.lookup (subject.document, n)) ∧
      t.characterizations.lookup subject.document = s.characterizations.lookup subject.document ∧
      ∀ proposal, (subject.document, proposal) ∈ t.proposals →
        (subject.document, proposal) ∈ s.proposals := by
  refine ⟨?_, fun n => ?_, ?_, fun proposal hp => ?_⟩
  · rcases h.documents with ⟨-, hsa⟩ | ⟨read, saved, -, hsv⟩
    · rw [hsa]
    · exact lookup_saveDocument_of_ne hne.symm hsv
  · rw [h.pages]
    rcases lookup_recordPages (seed s.pages document write.seeds) document write.results
      (subject.document, n) with ⟨hsa, -⟩ | ⟨result, -, hkey, -⟩
    · rw [hsa]
      rcases lookup_seed s.pages document write.seeds (subject.document, n) with
        hs | ⟨-, -, hd, -⟩
      · exact hs
      · exact absurd hd.symm hne
    · exact absurd (congrArg Prod.fst hkey).symm hne
  · rw [h.characterizations]
    split
    · exact AList.lookup_insert_ne hne.symm
    · rfl
  · rw [h.proposals] at hp
    rcases mem_append.mp hp with hnew | hold
    · obtain ⟨other, -, heq⟩ := map_eq_some_iff.mp (mem_toList.mp hnew)
      exact absurd (congrArg Prod.fst heq) hne
    · exact hold

theorem keeps_of_lookups (hi : ∀ id ∈ s.issued, id ∈ t.issued)
    (hd : t.documents.lookup subject.document = s.documents.lookup subject.document)
    (hp : ∀ n, t.pages.lookup (subject.document, n) = s.pages.lookup (subject.document, n)) :
    Keeps subject s t := by
  refine ⟨hi _, fun row hrow => .inl ⟨row, hd ▸ hrow, .same⟩, .inr fun n hn => ?_,
    .inr fun n hn => ?_⟩
  · rw [← AList.lookup_isSome, hp, AList.lookup_isSome]
    exact hn
  · rw [Recorded, hp]
    exact hn

/-- A sound commit keeps what belongs to the document. -/
theorem applied_keeps (h : Applied s subject.document job write t)
    (hso : subject.WriteSound s write) (hi : ∀ id ∈ s.issued, id ∈ t.issued) :
    Keeps subject s t := by
  refine ⟨hi _, fun row hrow => .inl ?_, .inr fun n hn => ?_, .inr ?_⟩
  · rcases h.documents with ⟨-, hsa⟩ | ⟨read, saved, hd, hsv⟩
    · exact ⟨row, hsa ▸ hrow, .same⟩
    · obtain ⟨hc, hm⟩ := hso.document read saved hd
      obtain ⟨hr, ha⟩ := saveDocument_eq_ok hc hsv
      rw [ha, AList.lookup_insert] at hrow
      cases hrow
      exact ⟨read, hr, .single hm rfl⟩
  · rw [h.pages]
    exact mem_recordPages_of_mem (mem_seed_of_mem hn _ _) _ _
  · rintro n ⟨row, hrow, hcontent⟩
    rw [Recorded, h.pages]
    rcases lookup_recordPages (seed s.pages subject.document write.seeds) subject.document
      write.results (subject.document, n) with ⟨hsa, -⟩ | ⟨result, -, -, hnew⟩
    · rcases lookup_seed s.pages subject.document write.seeds (subject.document, n) with
        hs | ⟨hno, -⟩
      · exact ⟨row, by rw [hsa, hs, hrow], hcontent⟩
      · simp [hrow] at hno
    · exact ⟨storedRow result, hnew, by simp [storedRow]⟩

theorem genuineRow_storedRow {result : PageResult E} (h : subject.Genuine result) :
    subject.GenuineRow result.pageNo (storedRow result) :=
  ⟨h.1, .inr ⟨result.content, rfl, h.2⟩⟩

theorem applied_pages (h : Applied s subject.document job write t)
    (hso : subject.WriteSound s write)
    (hp : ∀ n row, s.pages.lookup (subject.document, n) = some row → subject.GenuineRow n row) :
    ∀ n row, t.pages.lookup (subject.document, n) = some row → subject.GenuineRow n row := by
  intro n row hrow
  rw [h.pages] at hrow
  rcases lookup_recordPages (seed s.pages subject.document write.seeds) subject.document
    write.results (subject.document, n) with ⟨hsa, -⟩ | ⟨result, hr, hkey, hnew⟩
  · rw [hsa] at hrow
    rcases lookup_seed s.pages subject.document write.seeds (subject.document, n) with
      hs | ⟨-, hs, -, hn⟩
    · exact hp n row (hs ▸ hrow)
    · obtain rfl := mem_unique hs hrow
      exact ⟨hso.seeds n hn, .inl rfl⟩
  · obtain rfl := mem_unique hnew hrow
    obtain rfl : n = result.pageNo := congrArg Prod.snd hkey
    exact genuineRow_storedRow (hso.results result hr)

theorem applied_recorded (h : Applied s subject.document job write t) {n : ℕ}
    (hn : n ∈ write.results.map (·.pageNo)) : subject.Recorded t n := by
  obtain ⟨result, hr, rfl⟩ := mem_map.mp hn
  rw [Recorded, h.pages]
  rcases lookup_recordPages (seed s.pages subject.document write.seeds) subject.document
    write.results (subject.document, result.pageNo) with ⟨-, hno⟩ | ⟨other, -, -, hnew⟩
  · exact absurd rfl (hno result hr)
  · exact ⟨storedRow other, hnew, by simp [storedRow]⟩

/-- What a step leaves of the contents that belong to the document. -/
structure Reproduces (subject : Subject ins) (s t : State P E C Q) : Prop where
  keeps : Keeps subject s t
  pages : ∀ n row, t.pages.lookup (subject.document, n) = some row → subject.GenuineRow n row
  record : ∀ record, t.characterizations.lookup subject.document = some record →
    record = subject.concluded.1 ∧ subject.file.Whole subject.cfg subject.base ∧
      subject.Inspected t ∧ subject.Covered t []
  proposals : ∀ proposal, (subject.document, proposal) ∈ t.proposals →
    proposal = subject.concluded.2 ∧ subject.file.Whole subject.cfg subject.base

/-- A step that changes no page and writes no record. -/
theorem Reproducible.reproduces (hs : subject.Reproducible s) (hk : Keeps subject s t)
    (hpa : ∀ n row, t.pages.lookup (subject.document, n) = some row → subject.GenuineRow n row)
    (hr : ∀ record, t.characterizations.lookup subject.document = some record →
      s.characterizations.lookup subject.document = some record)
    (hp : ∀ proposal, (subject.document, proposal) ∈ t.proposals →
      (subject.document, proposal) ∈ s.proposals) : Reproduces subject s t := by
  refine ⟨hk, hpa, fun record hl => ?_, fun proposal h => ?_⟩
  · obtain ⟨heq, hw, hi, hc⟩ := hs.record record (hr record hl)
    exact ⟨heq, hw, hk.inspected hi, hk.covered hc⟩
  · exact hs.proposals proposal (hp proposal h)

theorem Reproducible.applied (hs : subject.Reproducible s) {document : String}
    (h : Applied s document job write t)
    (hso : document = subject.document → subject.WriteSound s write)
    (his : ∀ id ∈ s.issued, id ∈ t.issued) : Reproduces subject s t := by
  by_cases hd : document = subject.document
  · subst hd
    have hwr := hso rfl
    have hk := applied_keeps h hwr his
    refine ⟨hk, applied_pages h hwr hs.pages, fun record hl => ?_,
      fun proposal hp => ?_⟩
    · rw [h.characterizations] at hl
      have hf : record = subject.concluded.1 ∧ subject.file.Whole subject.cfg subject.base ∧
          subject.Inspected s ∧ subject.Covered s [] := by
        split at hl
        · rename_i written hw
          rw [AList.lookup_insert] at hl
          obtain rfl := some.inj hl
          exact hwr.record written hw
        · exact hs.record record hl
      obtain ⟨heq, hwh, hi, hc⟩ := hf
      exact ⟨heq, hwh, hk.inspected hi, hk.covered hc⟩
    · rw [h.proposals] at hp
      rcases mem_append.mp hp with hnew | hold
      · obtain ⟨written, hw, heq⟩ := map_eq_some_iff.mp (mem_toList.mp hnew)
        obtain rfl : written = proposal := congrArg Prod.snd heq
        exact hwr.proposal written hw
      · exact hs.proposals proposal hold
  · obtain ⟨hdo, hpa, hr, hpr⟩ := applied_of_ne h hd
    refine hs.reproduces (keeps_of_lookups his hdo hpa) ?_ ?_ hpr
    · exact fun n row hrow => hs.pages n row (hpa n ▸ hrow)
    · exact fun record hl => hr ▸ hl

theorem Reproducible.sweep_gone (hs : subject.Reproducible s) :
    subject.Gone (sweep s subject.document) ∨ sweep s subject.document = s := by
  rcases sweep_eq_or_erased s subject.document with hsa | he
  · exact .inr hsa
  · cases hrow : s.documents.lookup subject.document with
    | none =>
      right
      simp [sweep, hrow]
    | some row =>
      left
      refine ⟨(sweep_frame s subject.document).2.2 ▸ hs.stored row hrow, fun found hf => ?_⟩
      simp [he] at hf

/-- Every event leaves the contents of the document as its file and the profile have them. -/
theorem step_reproduces (hs : subject.Reproducible s) (hok : subject.Follows s e)
    (ht : step subject.cfg ins s e = some t) : Reproduces subject s t := by
  have hi := (step_rows hs.coherent ht).issued
  cases step_contents hs.coherent ht with
  | same h =>
    refine hs.reproduces (keeps_of_lookups hi (by rw [h.documents]) fun n => by rw [h.pages])
      ?_ ?_ ?_
    · exact fun n row hrow => hs.pages n row (h.pages ▸ hrow)
    · exact fun record hl => h.characterizations ▸ hl
    · exact fun proposal hp => h.proposals ▸ hp
  | wrote r run write next stale hrun hph hap =>
    refine hs.applied hap (fun hd => ?_) hi
    have hr := (hs.runs r run hrun hd).2.2
    rw [hph] at hr
    exact hr.1
  | asked q request hrq hap =>
    refine hs.applied hap (fun hd => ?_) hi
    exact (hs.requests q request hrq hd).1
  | registered document project file excluded hnew hnow hdo hpa hre hpr =>
    have hk : Keeps subject s t := by
      refine ⟨hi _, fun row hrow => ?_, .inr fun n hn => hpa ▸ hn,
        .inr fun n hn => by rwa [Recorded, hpa]⟩
      by_cases heq : subject.document = document
      · exact .inr ⟨heq ▸ hnew, heq ▸ hnow⟩
      rw [hdo, AList.lookup_insert_ne heq] at hrow
      have ha : Advances (fun _ => subject.file.DocumentMove) (fun _ _ => False) s.documents
          (excluded.foldl excludeOrphan s.documents) :=
        excludeOrphans_advances (fun _ _ _ h => .of_exclude h) excluded s.documents
      exact (ha subject.document row hrow).imp_right False.elim
    refine hs.reproduces hk ?_ ?_ ?_
    · exact fun n row hrow => hs.pages n row (hpa ▸ hrow)
    · exact fun record hl => hre ▸ hl
    · exact fun proposal hp => hpr ▸ hp
  | reset document job numbers subset he hdo hpa hre hpr =>
    subst he
    have hro : ∀ n,
        t.pages.lookup (subject.document, n) = s.pages.lookup (subject.document, n) := by
      intro n
      rw [hpa]
      exact lookup_resetPages_of_ne s.pages subset (Ne.symm hok)
    refine hs.reproduces (keeps_of_lookups hi (by rw [hdo]) hro) ?_ ?_ ?_
    · exact fun n row hrow => hs.pages n row (hro n ▸ hrow)
    · exact fun record hl => hre ▸ hl
    · exact fun proposal hp => hpr ▸ hp
  | purged documents now heq =>
    obtain ⟨hpa, hre, hpr⟩ := markPurging_contents now documents s
    rw [← heq] at hpa hre hpr
    have ha : Advances (fun _ => subject.file.DocumentMove) (fun _ _ => False) s.documents
        t.documents :=
      heq ▸ markPurging_documents (fun _ _ _ h => .of_markPurging h) now documents s
    refine hs.reproduces ⟨hi _, fun row hrow => ?_, .inr fun n hn => hpa ▸ hn,
      .inr fun n hn => by rwa [Recorded, hpa]⟩ ?_ ?_ ?_
    · exact (ha subject.document row hrow).imp_right False.elim
    · exact fun n row hrow => hs.pages n row (hpa ▸ hrow)
    · exact fun record hl => hre ▸ hl
    · exact fun proposal hp => hpr ▸ hp
  | swept document heq =>
    subst heq
    obtain ⟨hdo, hpa, ho, hre, hpr⟩ := sweep_contents s document
    have hro : subject.Gone (sweep s document) ∨ ∀ n,
        (sweep s document).pages.lookup (subject.document, n) =
          s.pages.lookup (subject.document, n) := by
      by_cases hd : document = subject.document
      · subst hd
        exact (hs.sweep_gone).imp_right fun hsa n => by rw [hsa]
      · exact .inr fun n => ho (subject.document, n) (Ne.symm hd)
    refine hs.reproduces ⟨hi _, ?_, ?_, ?_⟩ ?_ (hre subject.document) ?_
    · exact fun row hrow => .inl ⟨row, hdo subject.document row hrow, .same⟩
    · refine hro.imp_right fun hsa n hn => ?_
      rwa [← AList.lookup_isSome, hsa, AList.lookup_isSome]
    · refine hro.imp_right fun hsa n hn => ?_
      rwa [Recorded, hsa]
    · exact fun n row hrow => hs.pages n row (hpa _ row hrow)
    · exact fun proposal hp => hpr _ hp

end Keeping

section Answers

variable {subject : Subject ins} {s : State P E C Q}

theorem Covered.mono {todo todo' : List ℕ} (h : subject.Covered s todo)
    (hsub : ∀ n ∈ todo, n ∈ todo') : subject.Covered s todo' :=
  h.imp_right fun hr n hn => (hr n hn).imp_right (hsub n)

variable {n : ℕ}

theorem signals_eq_some {signals : Sig} :
    subject.file.signals n = some signals ↔ subject.file.page n = .ok (some signals) := by
  unfold PdfFile.signals
  cases subject.file.page n with
  | error _ => simp
  | ok found => simp

theorem page_of_not_fails (h : subject.file.fails n = false) :
    ∃ one, subject.file.page n = .ok one := by
  unfold PdfFile.fails at h
  split at h
  · rename_i one hone
    exact ⟨one, hone⟩
  · cases h

theorem genuine_resultOf {signals : Sig} (hn : n ∈ subject.file.pageNumbers)
    (hp : subject.file.page n = .ok (some signals)) (attempts : ℕ) :
    subject.Genuine (resultOf ins subject.base signals attempts) := by
  have hnu : (resultOf ins subject.base signals attempts).pageNo = n :=
    subject.file.numbered n signals hp
  refine ⟨hnu ▸ hn, ?_⟩
  rw [hnu, PdfFile.outcome, hp]
  rfl

theorem genuine_failedPage (hn : n ∈ subject.file.pageNumbers) {reason : StageReason}
    (ho : subject.file.outcome subject.base n = some (.failed, some reason, ins.blank n))
    (attempts : ℕ) : subject.Genuine (failedPage ins n reason attempts) :=
  ⟨hn, ho⟩

/-- The result of a page that was asked for alone. -/
theorem genuine_onePage (hn : n ∈ subject.file.pageNumbers) {found : List Sig}
    (ha : subject.file.Answers n n (.ok found)) :
    subject.Genuine (onePage ins subject.base n found) ∧
      (onePage ins subject.base n found).pageNo = n := by
  obtain ⟨hok, hf⟩ := ha
  have hr : pageRange n n = [n] := by simp [pageRange]
  rw [hr] at hok hf
  obtain ⟨one, hone⟩ := page_of_not_fails (hok n (by simp))
  have hs : subject.file.signals n = one := by rw [PdfFile.signals, hone]
  cases one with
  | none =>
    have hnil : found = [] := by simp [hf, hs]
    have ho : subject.file.outcome subject.base n =
        some (.failed, some .parseError, ins.blank n) := by rw [PdfFile.outcome, hone]
    subst hnil
    exact ⟨genuine_failedPage hn ho 2, rfl⟩
  | some signals =>
    have hnu := subject.file.numbered n signals hone
    have hre : onePage ins subject.base n found = resultOf ins subject.base signals 2 := by
      simp [onePage, hf, hs, hnu]
    rw [hre]
    exact ⟨genuine_resultOf hn hone 2, hnu⟩

/-- An answer of the service gives each page its genuine outcome. -/
theorem genuine_rangeResults {first last : ℕ}
    (hn : ∀ n ∈ pageRange first last, n ∈ subject.file.pageNumbers) {found : List Sig}
    (ha : subject.file.Answers first last (.ok found)) :
    (∀ result ∈ rangeResults ins subject.base first last found, subject.Genuine result) ∧
      ∀ n ∈ pageRange first last,
        n ∈ (rangeResults ins subject.base first last found).map (·.pageNo) := by
  obtain ⟨hok, hf⟩ := ha
  have hpa : ∀ signals ∈ found, ∃ n ∈ pageRange first last,
      subject.file.page n = .ok (some signals) := by
    intro signals hs
    rw [hf] at hs
    obtain ⟨n, hr, hso⟩ := mem_filterMap.mp hs
    exact ⟨n, hr, signals_eq_some.mp hso⟩
  constructor
  · intro result hre
    rcases mem_append.mp hre with hrd | hm
    · obtain ⟨signals, hs, rfl⟩ := mem_map.mp hrd
      obtain ⟨n, hr, hp⟩ := hpa signals hs
      exact genuine_resultOf (hn n hr) hp 1
    · obtain ⟨n, hl, rfl⟩ := mem_map.mp hm
      obtain ⟨hr, hnot⟩ := mem_filter.mp hl
      obtain ⟨one, hone⟩ := page_of_not_fails (hok n hr)
      cases one with
      | none =>
        refine genuine_failedPage (hn n hr) ?_ 1
        rw [PdfFile.outcome, hone]
      | some signals =>
        have hmem : signals ∈ found := by
          rw [hf]
          exact mem_filterMap.mpr ⟨n, hr, signals_eq_some.mpr hone⟩
        have hnu := subject.file.numbered n signals hone
        simp only [decide_eq_true_eq] at hnot
        exact absurd (mem_map.mpr ⟨signals, hmem, hnu⟩) hnot
  · intro n hr
    rw [rangeResults, map_append, mem_append]
    by_cases hrd : n ∈ found.map ins.pageNo
    · left
      rw [List.map_map]
      exact hrd
    · right
      rw [List.map_map]
      refine mem_map.mpr ⟨n, mem_filter.mpr ⟨hr, by simpa using hrd⟩, rfl⟩

variable {batch : Batch E}

theorem ready_afterReply (hi : subject.Inspected s) (hb : subject.BatchSound s batch)
    (write : Write E C Q) :
    subject.Ready s (Phase.afterReply subject.base batch) ∧
      subject.NextReady s write (Phase.afterReply subject.base batch) := by
  unfold Phase.afterReply
  split_ifs with he
  · have hn : unanswered batch = [] := by
      simp only [Bool.and_eq_true, List.isEmpty_iff] at he
      simp [unanswered, he.1, he.2]
    exact ⟨⟨rfl, hi, hb, hn⟩, rfl, hi, hb, hn⟩
  · exact ⟨⟨rfl, hi, hb⟩, rfl, hi, hb⟩

theorem BatchSound.answered (h : subject.BatchSound s batch) {single : List ℕ}
    (hs : batch.single = n :: single) {result : PageResult E}
    (hr : subject.Genuine result) (hn : result.pageNo = n) :
    subject.BatchSound s { batch with single := single, results := batch.results ++ [result] } := by
  refine ⟨fun m hm => h.numbers m ?_, ?_, h.covered.mono fun m hm => ?_⟩
  · simp only [unanswered, hs, mem_append, mem_cons] at hm ⊢
    tauto
  · intro other ho
    rcases mem_append.mp ho with hold | hnew
    · exact h.results other hold
    · exact mem_singleton.mp hnew ▸ hr
  · simp only [unanswered, hs, mem_append, mem_cons, map_append,
      map_cons, map_nil, hn, not_mem_nil, or_false] at hm ⊢
    tauto

/-- An answered batch is ready to be committed. -/
theorem answerPages_ready {reply : Except ParseFailure (List Sig)} {phase : Phase P E C Q}
    (hi : subject.Inspected s) (hb : subject.BatchSound s batch)
    (ha : ∀ range ∈ askedRange (.classifying subject.base batch : Phase P E C Q),
      subject.file.Answers range.1 range.2 reply)
    (h : answerPages ins subject.base batch reply = some phase) : subject.Ready s phase := by
  unfold answerPages at h
  split at h
  · rename_i n single hs
    have hre : subject.file.Answers n n reply :=
      ha (n, n) (by simp [askedRange, hs])
    have hn : n ∈ subject.file.pageNumbers := hb.numbers n (by simp [unanswered, hs])
    split at h
    · rename_i found
      cases h
      obtain ⟨hg, hnu⟩ := genuine_onePage hn hre
      exact ⟨rfl, hi, hb.answered hs hg hnu⟩
    · rename_i reason
      cases h
      have ho : subject.file.outcome subject.base n =
          some (.failed, some reason, ins.blank n) := by rw [PdfFile.outcome, hre.2 rfl]
      exact ⟨rfl, hi, hb.answered hs (genuine_failedPage hn ho 2) rfl⟩
    · cases h
      trivial
  · rename_i first last ranges hs hr
    have hre : subject.file.Answers first last reply :=
      ha (first, last) (by simp [askedRange, hs, hr])
    have hn : ∀ n ∈ pageRange first last, n ∈ subject.file.pageNumbers := by
      intro n hra
      refine hb.numbers n ?_
      simp [unanswered, hr, hra]
    split at h
    · rename_i found
      cases h
      obtain ⟨hg, hc⟩ := genuine_rangeResults hn hre
      refine (ready_afterReply hi ⟨fun m hm => hb.numbers m ?_, ?_,
        hb.covered.mono fun m hm => ?_⟩ {}).1
      · simp only [unanswered, hs, hr, mem_append, flatMap_cons] at hm ⊢
        tauto
      · intro result hrs
        rcases mem_append.mp hrs with hold | hnew
        · exact hb.results result hold
        · exact hg result hnew
      · have hnew := hc m
        simp only [unanswered, hs, hr, mem_append, flatMap_cons,
          map_append] at hm ⊢
        tauto
    · cases h
      have hne : subject.BatchSound s
          { batch with ranges := ranges, single := pageRange first last } := by
        refine ⟨fun m hm => hb.numbers m ?_, hb.results,
          hb.covered.mono fun m hm => ?_⟩
        · simp only [unanswered, hs, hr, mem_append, flatMap_cons,
            not_mem_nil, or_false] at hm ⊢
          tauto
        · simp only [unanswered, hs, hr, mem_append, flatMap_cons,
            not_mem_nil, or_false] at hm ⊢
          tauto
      exact (ready_afterReply hi hne {}).1
    · cases h
      trivial
  · cases h

end Answers

section Transactions

variable {subject : Subject ins} {s : State P E C Q} {run : Run P E C Q}
  {next : Phase P E C Q} {now : ℤ}

/-- A write that saves no more than the job. -/
theorem writeSound_of_none {write : Write E C Q} (hd : write.document = none)
    (hpa : (write.seeds, write.results) = ([], []))
    (hre : (write.record, write.proposal) = (none, none)) : subject.WriteSound s write := by
  obtain ⟨hs, hr⟩ := Prod.mk.inj hpa
  obtain ⟨hn, hp⟩ := Prod.mk.inj hre
  exact ⟨by simp [hs], by simp [hr], by simp [hd], by simp [hn],
    by simp [hp]⟩

theorem writeSound_of_document {write : Write E C Q} {read : Versioned Document}
    {saved : Document} (hrd : s.documents.lookup subject.document = some read)
    (hm : subject.file.DocumentMove read.value saved)
    (hd : write.document = some (read, saved))
    (hpa : (write.seeds, write.results) = ([], []))
    (hre : (write.record, write.proposal) = (none, none)) : subject.WriteSound s write := by
  obtain ⟨hs, hr⟩ := Prod.mk.inj hpa
  obtain ⟨hn, hp⟩ := Prod.mk.inj hre
  refine ⟨by simp [hs], by simp [hr], fun other after ho => ?_, by simp [hn],
    by simp [hp]⟩
  obtain ⟨rfl, rfl⟩ := Prod.mk.inj (mem_unique hd ho)
  exact ⟨current_of_lookup hrd, hm⟩

theorem saving_ready {moved : Except String IngestionJob} {write : IngestionJob → Write E C Q}
    (h : ∀ job, subject.WriteSound s (write job) ∧ subject.NextReady s (write job) next) :
    subject.Ready s (saving moved write next) := by
  cases moved with
  | ok job => exact ⟨(h job).1, (h job).2, .inl ⟨releaseTries, rfl⟩⟩
  | error _ => trivial

theorem ending_ready {moved : Except String IngestionJob} {write : IngestionJob → Write E C Q}
    {outcome : Outcome} (h : ∀ job, (write job).document = none ∧
      ((write job).seeds, (write job).results) = ([], []) ∧
      ((write job).record, (write job).proposal) = (none, none)) :
    subject.Ready s (saving moved write (.ended outcome)) :=
  saving_ready fun job => ⟨writeSound_of_none (h job).1 (h job).2.1 (h job).2.2, trivial⟩

theorem tryRecord_ready (hrun : run.document = subject.document) :
    subject.Ready s (tryRecord s run subject.base subject.file.sha256) := by
  unfold tryRecord
  split
  · trivial
  · rename_i row hrow
    rw [hrun] at hrow
    split_ifs
    · trivial
    · rfl
    · split
      · rename_i document hr
        refine ⟨?_, ⟨rfl, rfl⟩, .inl ⟨releaseTries, rfl⟩⟩
        exact writeSound_of_document (lockLive_eq_some hrow).1 (.of_fingerprint hr) rfl rfl rfl
      · trivial

theorem excludeDuplicate_ready (hrun : run.document = subject.document) :
    subject.Ready s (excludeDuplicate s run subject.file.sha256 now) := by
  unfold excludeDuplicate
  split
  · rename_i row read hrow hre
    rw [hrun] at hrow
    simp only
    split
    · rename_i document hr
      obtain ⟨inspected, hi, hexclude⟩ := bind_eq_ok hr
      refine saving_ready fun job => ⟨?_, trivial⟩
      exact writeSound_of_document (lockLive_eq_some hrow).1
        ((PdfFile.DocumentMove.of_fingerprint hi).trans (.of_exclude hexclude)) rfl rfl rfl
    · trivial
  · trivial

/-- The pages are seeded from the file's own count. -/
theorem seedPages_ready (hrun : run.document = subject.document) (hk : run.taken.kind = .ingest)
    {summary : PdfSummary} (hs : subject.file.summary = .ok summary)
    (hc : summary.pageCount ≤ subject.cfg.maxPages) :
    subject.Ready s (seedPages s run subject.base subject.file.sha256 summary) := by
  have hf : subject.file.facts = ⟨summary.pageCount, clipMetadata summary.creator,
      clipMetadata summary.producer⟩ := by rw [PdfFile.facts, hs]
  have hw : wanted run.taken summary.pageCount = subject.file.pageNumbers := by
    simp [wanted, hk, PdfFile.pageNumbers, hf]
  unfold seedPages
  split
  · trivial
  · rename_i row hrow
    rw [hrun] at hrow
    split
    · rename_i document hr
      obtain ⟨hl, hsha, hd⟩ := PdfFile.recordInspection_eq_ok hr
      have hhas : subject.file.HasFacts document := by
        subst hd
        exact ⟨rfl, by rw [hf], by rw [hf], by rw [hf]⟩
      refine ⟨⟨by simp [hw], by simp, ?_, by simp, by simp⟩, ⟨rfl, ⟨hsha, summary, hs,
        hc⟩, by simp [hw], row, document, rfl, hhas⟩, .inl ⟨releaseTries, rfl⟩⟩
      intro read saved hsa
      obtain ⟨rfl, rfl⟩ := Prod.mk.inj (some.inj hsa)
      exact ⟨current_of_lookup (lockLive_eq_some hrow).1, fun _ => hl, fun _ => hhas⟩
    · trivial

theorem honourCancel_ready : subject.Ready s (honourCancel s run now) := by
  unfold honourCancel
  split
  · trivial
  · exact ending_ready fun _ => ⟨rfl, rfl, rfl⟩

theorem failJob_ready {code detail : String} : subject.Ready s (failJob s run code detail now) := by
  unfold failJob
  split
  · trivial
  · exact ending_ready fun _ => ⟨rfl, rfl, rfl⟩

theorem stopNotLive_ready : subject.Ready s (stopNotLive s run now) := by
  unfold stopNotLive
  split
  · trivial
  · exact ending_ready fun _ => ⟨rfl, rfl, rfl⟩

theorem releaseLease_ready {tries : ℕ} : subject.Ready s (releaseLease s run tries now) := by
  unfold releaseLease
  split
  · trivial
  · split
    · refine ⟨writeSound_of_none rfl rfl rfl, trivial, ?_⟩
      split_ifs
      · exact .inr ⟨.raised, rfl⟩
      · exact .inl ⟨tries - 1, rfl⟩
    · trivial

theorem keepLease_ready (hi : subject.Inspected s) {batch : Batch E}
    (hb : subject.BatchSound s batch) :
    subject.Ready s (keepLease subject.cfg s run subject.base batch now) := by
  unfold keepLease
  split
  · trivial
  · exact saving_ready fun job =>
      ⟨writeSound_of_none rfl rfl rfl, (ready_afterReply hi hb _).2⟩

/-- A batch is committed with genuine results alone. -/
theorem commitBatch_ready (hi : subject.Inspected s) {batch : Batch E}
    (hb : subject.BatchSound s batch) (ha : unanswered batch = []) {elapsed : Bool} :
    subject.Ready s (commitBatch subject.cfg s run subject.base batch now elapsed) := by
  unfold commitBatch
  split
  · refine saving_ready fun job => ⟨⟨by simp, ?_, by simp, by simp, by simp⟩, ?_⟩
    · intro result hr
      exact hb.results result ((perm_insertionSort _ _).mem_iff.mp hr)
    · have hc := hb.covered
      have hs : ∀ n ∈ batch.results.map (·.pageNo),
          n ∈ (batch.results.insertionSort (·.pageNo ≤ ·.pageNo)).map (·.pageNo) := fun n hn =>
        ((perm_insertionSort _ _).map _).mem_iff.mpr hn
      rw [ha, nil_append] at hc
      unfold afterBatch
      split_ifs with hre
      · refine ⟨rfl, hi, hc.mono fun n hn => hs n ?_⟩
        rwa [isEmpty_iff.mp hre, append_nil] at hn
      · refine ⟨rfl, hi, fun n hn => hb.numbers n (by simp [hn]),
          hc.mono fun n hn => ?_⟩
        rw [mem_append] at hn ⊢
        exact hn.imp_left (hs n)
  · trivial

/-- A conclusion is drawn from the evidence of all pages. -/
theorem settle_ready {record : C} {proposal : Q} {row : Versioned Document}
    {read : Versioned IngestionJob} (hrow : s.documents.lookup subject.document = some row)
    (hi : subject.Inspected s) (hco : subject.Covered s [])
    (hc : (record, proposal) = subject.concluded)
    (hwh : subject.file.Whole subject.cfg subject.base) :
    subject.Ready s (settle ins subject.base record proposal row read now) := by
  have hr : record = subject.concluded.1 := congrArg Prod.fst hc
  have hp : proposal = subject.concluded.2 := congrArg Prod.snd hc
  unfold settle
  split_ifs
  · refine saving_ready fun job => ⟨⟨by simp, by simp, ?_, ?_, by simp⟩, trivial⟩
    · intro other after ho
      obtain ⟨rfl, rfl⟩ := Prod.mk.inj (some.inj ho)
      exact ⟨current_of_lookup hrow, id, id⟩
    · intro written hw
      exact ⟨some.inj hw ▸ hr, hwh, hi, hco⟩
  · simp only
    split
    · rename_i document hs
      refine saving_ready fun job => ⟨⟨by simp, by simp, ?_, ?_, ?_⟩, trivial⟩
      · intro other after ho
        obtain ⟨rfl, rfl⟩ := Prod.mk.inj (some.inj ho)
        exact ⟨current_of_lookup hrow, .of_setProfileState hs⟩
      · intro written hw
        exact ⟨some.inj hw ▸ hr, hwh, hi, hco⟩
      · intro written hw
        exact ⟨some.inj hw ▸ hp, hwh⟩
    · trivial

theorem not_gone_of_lockLive {row : Versioned Document}
    (h : s.lockLive subject.document = some row) : ¬ subject.Gone s := by
  intro hg
  obtain ⟨hrow, hl⟩ := lockLive_eq_some h
  simp [hg.2 row hrow] at hl

theorem conclude_ready (hrun : run.document = subject.document) {record : C} {proposal : Q}
    (hr : subject.Ready s (.concluding subject.base record proposal)) :
    subject.Ready s (conclude ins s run subject.base record proposal now) := by
  obtain ⟨-, hi, hco, hc⟩ := hr
  unfold conclude
  split_ifs
  · trivial
  · split
    · rename_i row read hrow hre
      rw [hrun] at hrow
      split_ifs
      · exact ending_ready fun _ => ⟨rfl, rfl, rfl⟩
      · obtain ⟨heq, hw⟩ := hc.resolve_left (not_gone_of_lockLive hrow)
        exact settle_ready (lockLive_eq_some hrow).1 hi hco heq hw
    · trivial

end Transactions

section Proceeding

variable {subject : Subject ins} {s : State P E C Q} {run : Run P E C Q}

theorem Reproducible.evidence_eq (hs : subject.Reproducible s)
    (hr : ∀ n ∈ subject.file.pageNumbers, subject.Recorded s n) :
    IngestionRuns.evidence s.pages subject.document = subject.file.evidence subject.base ∧
      ∀ n ∈ subject.file.pageNumbers, subject.file.outcome subject.base n ≠ none := by
  have hst : ∀ n ∈ subject.file.pageNumbers, ∃ row content,
      s.pages.lookup (subject.document, n) = some row ∧ row.content = some content ∧
        subject.file.outcome subject.base n = some (row.status, row.reason, content) := by
    intro n hn
    obtain ⟨row, hrow, hcontent⟩ := hr n hn
    rcases (hs.pages n row hrow).2 with rfl | ⟨content, hsm, ho⟩
    · exact absurd rfl hcontent
    · exact ⟨row, content, hrow, hsm, ho⟩
  have hso : subject.file.pageNumbers.Pairwise (· < ·) := pairwise_lt_range'
  constructor
  · rw [IngestionPages.evidence_eq s.pages subject.document hso fun n hn => ?_]
    · refine filterMap_congr fun n hn => ?_
      obtain ⟨row, content, hrow, hcontent, ho⟩ := hst n hn
      simp [hrow, ho, evidenceOf, hcontent]
    · obtain ⟨row, hrow⟩ := isSome_iff_exists.mp (AList.lookup_isSome.mpr hn)
      exact (hs.pages n row hrow).1
  · intro n hn
    obtain ⟨row, content, -, -, ho⟩ := hst n hn
    simp [ho]

theorem Reproducible.unfinished_covers (hs : subject.Reproducible s) (hse : subject.Seeded s) :
    subject.Covered s (unfinished s.pages subject.document) := by
  refine hse.imp_right fun hr n hn => ?_
  obtain ⟨row, hrow⟩ := isSome_iff_exists.mp (AList.lookup_isSome.mpr (hr n hn))
  rcases (hs.pages n row hrow).2 with rfl | ⟨content, hcontent, -⟩
  · exact .inr (mem_unfinished.mpr ⟨pendingRow, hrow, rfl⟩)
  · exact .inl ⟨row, hrow, by simp [hcontent]⟩

theorem Reproducible.unfinished_numbers (hs : subject.Reproducible s) :
    ∀ n ∈ unfinished s.pages subject.document, n ∈ subject.file.pageNumbers := by
  intro n hn
  obtain ⟨row, hrow, -⟩ := mem_unfinished.mp hn
  exact (hs.pages n row hrow).1

/-- Every transaction a run opens is about what the file determines. -/
theorem openTx_ready (hrun : run.document = subject.document) (hk : run.taken.kind = .ingest)
    (hr : subject.Ready s run.phase) {r : ℕ} {now : ℤ} {elapsed : Bool} {phase : Phase P E C Q}
    (h : openTx subject.cfg ins s r run now elapsed = some phase) : subject.Ready s phase := by
  unfold openTx at h
  split at h
  · rename_i effective sha256 hp
    rw [hp] at hr
    obtain ⟨rfl, rfl⟩ := hr
    exact some.inj h ▸ tryRecord_ready hrun
  · rename_i sha256 hp
    rw [hp] at hr
    obtain rfl := hr
    exact some.inj h ▸ excludeDuplicate_ready hrun
  · rename_i effective sha256 summary hp
    rw [hp] at hr
    obtain ⟨rfl, rfl, hs, hc⟩ := hr
    exact some.inj h ▸ seedPages_ready hrun hk hs hc
  · exact some.inj h ▸ honourCancel_ready
  · rename_i effective batch hp
    rw [hp] at hr
    obtain ⟨rfl, hi, hb⟩ := hr
    exact some.inj h ▸ keepLease_ready hi hb
  · rename_i effective batch hp
    rw [hp] at hr
    obtain ⟨rfl, hi, hb, ha⟩ := hr
    exact some.inj h ▸ commitBatch_ready hi hb ha
  · rename_i effective record proposal hp
    rw [hp] at hr
    obtain ⟨rfl, hre⟩ := hr
    split_ifs at h
    exact some.inj h ▸ conclude_ready hrun ⟨rfl, hre⟩
  · exact some.inj h ▸ failJob_ready
  · exact some.inj h ▸ stopNotLive_ready
  · exact some.inj h ▸ releaseLease_ready
  · cases h

/-- Between two batches a run stays on the uninterrupted course. -/
theorem honourJob_ready (hi : subject.Inspected s) {todo : List ℕ}
    (hnu : ∀ n ∈ todo, n ∈ subject.file.pageNumbers) (hc : subject.Covered s todo)
    {emitted live : Bool} :
    subject.Ready s (honourJob subject.cfg s run subject.base todo emitted live) := by
  unfold honourJob
  split
  · trivial
  · split_ifs
    · trivial
    · trivial
    · have hs : unanswered (⟨runsOf (todo.take subject.cfg.inspectBatchPages), [], [],
          todo.drop subject.cfg.inspectBatchPages, emitted⟩ : Batch E) ++
          todo.drop subject.cfg.inspectBatchPages = todo := by
        simp [unanswered, flatMap_runsOf]
      refine ⟨rfl, hi, fun n hn => hnu n (hs ▸ hn), by simp, ?_⟩
      simp only [map_nil, append_nil]
      exact hs.symm ▸ hc

theorem answerSummary_ready {effective : P} (hb : effective = subject.base) :
    subject.Ready s (answerSummary subject.cfg effective subject.file.sha256
      subject.file.summary) := by
  unfold answerSummary
  split
  · rename_i summary hs
    split_ifs with hc
    · trivial
    · exact ⟨hb, rfl, hs, Nat.le_of_not_lt hc⟩
  · split
    · trivial
    · trivial
  · trivial

/-- Whatever a run is told, it stays on the uninterrupted course. -/
theorem proceed_ready (hs : subject.Reproducible s) {r : ℕ} (hl : s.runs.lookup r = some run)
    (hrun : run.document = subject.document) {input : Input Sig P} {phase : Phase P E C Q}
    (hok : subject.Follows s (.proceed r input))
    (h : proceed subject.cfg ins s r run input = some phase) : subject.Ready s phase := by
  obtain ⟨-, hk, hre⟩ := hs.runs r run hl hrun
  have ht := hok run hl hrun
  cases input with
  | openTx now elapsed => exact openTx_ready hrun hk hre h
  | profile effective =>
    simp only [proceed] at h
    split at h
    · exact some.inj h ▸ ht
    · cases h
  | remaining =>
    simp only [proceed] at h
    split at h
    · rename_i effective hph
      rw [hph] at hre
      split_ifs at h with hd
      · obtain ⟨record, hr⟩ :=
          isSome_iff_exists.mp (AList.lookup_isSome.mpr (hrun ▸ hd.2))
        obtain ⟨-, -, hi, hc⟩ := hs.record record hr
        exact some.inj h ▸ ⟨hre, hi, hc⟩
      · exact some.inj h ▸ hre
    · cases h
  | staged result =>
    simp only [proceed] at h
    split at h
    · rename_i effective hph
      rw [hph] at hre
      cases h
      cases result with
      | unreadable | fails _ => trivial
      | staged sha256 => exact ⟨hre, ht⟩
    · cases h
  | summary reply =>
    simp only [proceed] at h
    split at h
    · rename_i effective sha256 hph
      rw [hph] at hre
      obtain rfl := hre.2
      obtain rfl := ht
      exact some.inj h ▸ answerSummary_ready hre.1
    · cases h
  | list =>
    simp only [proceed] at h
    split at h
    · rename_i effective hph
      rw [hph] at hre
      obtain ⟨hba, hi, hse⟩ := hre
      have hc := hs.unfinished_covers hse
      rw [hrun] at h
      cases h
      split_ifs with hem
      · exact ⟨hba, hi, isEmpty_iff.mp hem ▸ hc⟩
      · exact ⟨hba, hi, hs.unfinished_numbers, hc⟩
    · cases h
  | honourDocument =>
    simp only [proceed] at h
    split at h
    · rename_i effective todo emitted hph
      rw [hph] at hre
      exact some.inj h ▸ hre
    · cases h
  | honourJob =>
    simp only [proceed] at h
    split at h
    · rename_i effective todo emitted live hph
      rw [hph] at hre
      obtain ⟨rfl, hi, hnu, hc⟩ := hre
      exact some.inj h ▸ honourJob_ready hi hnu hc
    · cases h
  | pages reply =>
    simp only [proceed] at h
    split at h
    · rename_i effective batch hph
      rw [hph] at hre
      obtain ⟨rfl, hi, hb⟩ := hre
      rw [Told, hph] at ht
      exact answerPages_ready hi hb ht h
    · cases h
  | document =>
    simp only [proceed] at h
    split at h
    · rename_i effective hph
      rw [hph] at hre
      obtain ⟨hba, hi, hc⟩ := hre
      rw [hrun] at h
      split at h
      · rename_i row hrow
        exact some.inj h ▸ ⟨hba, hi.facts row hrow, hi, hc⟩
      · exact some.inj h ▸ trivial
    · cases h
  | evidence =>
    simp only [proceed] at h
    split at h
    · rename_i effective document hph
      rw [hph] at hre
      obtain ⟨rfl, ⟨hsha, hco, hcr, hp⟩, hi, hc⟩ := hre
      cases h
      refine ⟨rfl, hi, hc, hc.imp_right fun hro => ?_⟩
      obtain ⟨he, hw⟩ := hs.evidence_eq fun n hn => (hro n hn).resolve_right (by simp)
      refine ⟨?_, hi.readable, hw⟩
      rw [hrun, hsha, hco, hcr, hp, he]
      rfl
    · cases h
  | fault =>
    simp only [proceed, Phase.fault] at h
    split at h
    · cases h
    · cases h
    · cases h
    · exact some.inj h ▸ trivial
    · exact some.inj h ▸ trivial
    · exact some.inj h ▸ trivial
  | crash =>
    simp only [proceed, Phase.crash] at h
    split at h
    · cases h
    · cases h
    · cases h
    · exact some.inj h ▸ trivial

end Proceeding

section Steps

variable {subject : Subject ins} {s t : State P E C Q} {e : Event Sig P}

variable {write : Write E C Q}

/-- What a commit records need not be done again. -/
theorem Covered.applied {job : String} {todo : List ℕ}
    (h : subject.Covered s (write.results.map (·.pageNo) ++ todo))
    (ha : Applied s subject.document job write t) (hk : Keeps subject s t) :
    subject.Covered t todo := by
  rcases hk.covered h with hg | hro
  · exact .inl hg
  · refine .inr fun n hn => ?_
    rcases hro n hn with hr | hl
    · exact .inl hr
    · exact (mem_append.mp hl).imp_left (applied_recorded ha)

/-- The phase after a commit knows what the commit has saved. -/
theorem ready_of_applied {job : String} {next : Phase P E C Q}
    (ha : Applied s subject.document job write t) (hk : Keeps subject s t)
    (hi : subject.document ∈ s.issued) (hso : subject.WriteSound s write)
    (hne : subject.NextReady s write next) : subject.Ready t next := by
  cases next with
  | summary _ _ => exact hne
  | listing _ =>
    obtain ⟨hb, hr, hs, read, saved, hd, hf⟩ := hne
    refine ⟨hb, ⟨hr, hk.issued hi, fun row hrow => ?_⟩, .inr fun n hn => ?_⟩
    · rcases ha.documents with ⟨hno, -⟩ | ⟨other, after, ho, hsa⟩
      · simp [hd] at hno
      · obtain ⟨rfl, rfl⟩ := Prod.mk.inj (mem_unique hd ho)
        rw [(saveDocument_eq_ok (hso.document read saved hd).1 hsa).2,
          AList.lookup_insert] at hrow
        exact some.inj hrow ▸ hf
    · rw [ha.pages]
      exact mem_recordPages_of_mem (mem_seed _ _ (hs n hn)) _ _
  | classifying _ _ => exact ⟨hne.1, hk.inspected hne.2.1, hk.batchSound hne.2.2⟩
  | committing _ _ =>
    exact ⟨hne.1, hk.inspected hne.2.1, hk.batchSound hne.2.2.1, hne.2.2.2⟩
  | honouring _ _ _ =>
    exact ⟨hne.1, hk.inspected hne.2.1, hne.2.2.1,
      Covered.applied hne.2.2.2 ha hk⟩
  | gathering _ =>
    refine ⟨hne.1, hk.inspected hne.2.1, Covered.applied ?_ ha hk⟩
    rw [append_nil]
    exact hne.2.2
  | ended _ => trivial
  | _ => exact hne.elim

theorem ready_of_conflict {next stale : Phase P E C Q}
    (hr : subject.Ready s (.writing write next stale)) (found : Conflict) :
    subject.Ready s (next.conflicted stale found) := by
  obtain ⟨-, hn, hs⟩ := hr
  have hi : subject.Ready s stale := by
    rcases hs with ⟨tries, rfl⟩ | ⟨outcome, rfl⟩ <;> trivial
  unfold Phase.conflicted
  split
  · split
    · exact hn.2
    · exact hi
  · exact hi
  · exact hi

theorem ready_of_untaken {phase : Phase P E C Q} (h : phase.isTaken = false) :
    subject.Ready s phase := by
  cases phase with
  | taking _ _ | dropping _ _ => trivial
  | _ => cases h

theorem step_jobs (hs : subject.Reproducible s) (hok : subject.Follows s e)
    (hr : RowsStep s e t) (id : String) (row : Versioned IngestionJob)
    (hrow : t.jobs.lookup id = some row) (hd : row.value.documentId = subject.document) :
    subject.document ∈ t.issued ∧ row.value.kind = .ingest := by
  rcases hr.jobs id row hrow with ⟨old, hold, hl⟩ | ha
  · have hsa : row.value.documentId = old.value.documentId ∧ row.value.kind = old.value.kind :=
      hl.keeps (p := fun job => job.documentId = old.value.documentId ∧
        job.kind = old.value.kind)
        (fun job after hm h => ⟨hm.1.same.1.trans h.1, hm.1.same.2.trans h.2⟩) ⟨rfl, rfl⟩
    obtain ⟨hi, hk⟩ := hs.jobs id old hold (hsa.1 ▸ hd)
    exact ⟨hr.issued _ hi, hsa.2.trans hk⟩
  · rcases ha.document with ⟨hi, hk⟩ | ⟨job, numbers, rfl⟩
    · exact ⟨hd ▸ hi, hk⟩
    · exact absurd hd hok

/-- Every step leaves the contents what the file determines. -/
theorem step_reproducible (s : State P E C Q) (e : Event Sig P) (t : State P E C Q)
    (hs : subject.Reproducible s) (hok : subject.Follows s e)
    (ht : step subject.cfg ins s e = some t) : subject.Reproducible t := by
  have hro := step_rows hs.coherent ht
  have hc := step_reproduces hs hok ht
  have hk := hc.keeps
  have hold : ∀ r run, s.runs.lookup r = some run → run.document = subject.document →
      subject.document ∈ t.issued ∧ run.taken.kind = .ingest ∧ subject.Ready t run.phase := by
    intro r run hrun hd
    obtain ⟨his, hki, hr⟩ := hs.runs r run hrun hd
    exact ⟨hk.issued his, hki, hk.ready his hr⟩
  refine ⟨step_coherent s e t hs.coherent ht, fun row hrow => ?_, step_jobs hs hok hro, ?_, ?_,
    hc.pages, hc.record, hc.proposals⟩
  · rcases hk.documents row hrow with ⟨old, hl, -⟩ | hnew
    · exact hk.issued (hs.stored old hl)
    · exact hnew.2
  · cases step_runs hs.coherent ht with
    | same hru => exact hru ▸ hold
    | started r run hnew hsr hj hru =>
      rw [hru]
      refine forall_insert (fun hd => ?_) hold
      obtain ⟨row, hrow, hrd, hki⟩ := hsr.read
      obtain ⟨his, hi⟩ := hs.jobs _ row hrow (hrd ▸ hd)
      exact ⟨hk.issued his, hki.trans hi, ready_of_untaken hsr.taken⟩
    | dropped r run hrun hta hru =>
      rw [hru]
      exact fun i a ha => hold i a (lookup_erase_iff.mp ha).2
    | took r run hrun hta read hrd hle hj hru =>
      rw [hru]
      refine forall_insert (fun hd => ?_) hold
      obtain ⟨his, hki, -⟩ := hold r run hrun hd
      exact ⟨his, hki, trivial⟩
    | proceeded r run input phase he hrun hta hp ho heq =>
      subst heq he
      refine forall_insert (fun hd => ?_) hold
      obtain ⟨his, hki, -⟩ := hold r run hrun hd
      exact ⟨his, hki,
        hk.ready his (proceed_ready hs hrun hd hok hp)⟩
    | committed r run write next stale he hrun hp hap hru =>
      rw [hru]
      refine forall_insert (fun hd => ?_) hold
      obtain ⟨his, hki, hr⟩ := hs.runs r run hrun hd
      rw [hp] at hr
      simp only at hd
      rw [hd] at hap
      exact ⟨hk.issued his, hki,
        ready_of_applied hap hk his hr.1 hr.2.1⟩
    | conflicted r run write next stale found hrun hp hpl hne heq =>
      subst heq
      refine forall_insert (fun hd => ?_) hold
      obtain ⟨his, hki, hr⟩ := hold r run hrun hd
      rw [hp] at hr
      exact ⟨his, hki, ready_of_conflict hr found⟩
  · intro q request hrq hd
    rcases hro.requests q request hrq with hea | ⟨-, -, hre⟩
    · obtain ⟨hsn, his⟩ := hs.requests q request hea hd
      exact ⟨hk.writeSound his hsn, fun h => hk.issued (his h)⟩
    · have hrd : ∀ read saved, request.write.document = some (read, saved) →
          s.documents.lookup subject.document = some read ∧
            subject.file.DocumentMove read.value saved := by
        intro read saved hsa
        obtain ⟨hl, state, hst⟩ := hre.document read saved hsa
        exact ⟨hd ▸ hl, .of_setProfileState hst⟩
      have his : request.write.document ≠ none → subject.document ∈ s.issued := by
        intro hso
        obtain ⟨⟨read, saved⟩, hsa⟩ := ne_none_iff_exists'.mp hso
        exact hs.stored read (hrd read saved hsa).1
      have hsn : subject.WriteSound s request.write := by
        refine ⟨by simp [hre.pages.1], by simp [hre.pages.2], fun read saved hsa => ?_,
          by simp [hre.record.1], by simp [hre.record.2]⟩
        obtain ⟨hl, hm⟩ := hrd read saved hsa
        exact ⟨current_of_lookup hl, hm⟩
      exact ⟨hk.writeSound his hsn, fun h => hk.issued (his h)⟩

theorem reproducible_init : subject.Reproducible (State.init : State P E C Q) := by
  refine ⟨coherent_init, ?_, ?_, ?_, ?_, ?_, ?_, ?_⟩ <;> simp [State.init]

end Steps

end Subject

end Machine

end Aizzak.ResumeIndependence
