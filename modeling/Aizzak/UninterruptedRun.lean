import Aizzak.ResumeIndependence

/-!
The single run of a document that nothing interrupts, one page at a time. Where the file is
refused neither as a whole nor at a page, every transaction of the run goes through and the
run comes to its end, so what any other schedule of runs has written for the document is what
this run writes.
-/
namespace Aizzak.UninterruptedRun

open EventRuns KeyedTables VersionedRows IngestionJobs IngestionRuns IngestionWrites Option
open IngestionCoherence IngestionContents IngestionPages ResumeIndependence

section Machine

variable {Sig P E C Q : Type} {ins : Inspector Sig P E C Q}

/-- The events lead from one state to another, and the runs are told of the file alone. -/
structure Leads (subject : Subject ins) (s : State P E C Q) (events : List (Event Sig P))
    (t : State P E C Q) : Prop where
  guarded : Guarded (step subject.cfg ins) subject.Follows s events
  run : EventRuns.run (step subject.cfg ins) s events = some t

section Leads

variable {subject : Subject ins} {s t u : State P E C Q} {first second : List (Event Sig P)}

theorem Leads.trans (h : Leads subject s first t) (h' : Leads subject t second u) :
    Leads subject s (first ++ second) u :=
  ⟨h.guarded.append h.run h'.guarded, (run_append h.run second).trans h'.run⟩

theorem leads_step {e : Event Sig P} (hok : subject.Follows s e)
    (ht : step subject.cfg ins s e = some t) : Leads subject s [e] t := by
  refine ⟨⟨hok, ?_⟩, ?_⟩
  · rw [ht]
    trivial
  · rw [EventRuns.run, ht, bind_some]
    rfl

theorem Leads.reproducible (h : Leads subject s first t) (hs : subject.Reproducible s) :
    subject.Reproducible t :=
  run_invariant Subject.step_reproducible h.guarded h.run hs

end Leads

def alone (file : PdfFile ins) (n : ℕ) : Except ParseFailure (List Sig) :=
  (file.page n).map Option.toList

theorem answers_alone (file : PdfFile ins) (n : ℕ) : file.Answers n n (alone file n) := by
  have hr : pageRange n n = [n] := by simp [pageRange]
  unfold alone
  cases hp : file.page n with
  | ok one =>
    refine ⟨by simp [hr, PdfFile.fails, hp], ?_⟩
    rw [hr]
    cases one with
    | none => simp [PdfFile.signals, hp]
    | some signals => simp [PdfFile.signals, hp]
  | error failure => exact ⟨⟨n, by simp [hr], by simp [PdfFile.fails, hp]⟩, fun _ => hp⟩

/-- The events of one page: its document and its job are looked at, it is asked for, and once
more by itself if it fails, and what came of it is recorded. -/
def pageEvents (subject : Subject ins) (n : ℕ) : List (Event Sig P) :=
  [.proceed 0 .honourDocument, .proceed 0 .honourJob, .proceed 0 (.pages (alone subject.file n))] ++
    (if subject.file.fails n then
      [.proceed 0 (.pages (alone subject.file n)), .proceed 0 (.openTx 0 false), .commit 0]
    else []) ++
    [.proceed 0 (.openTx 0 false), .commit 0]

structure Alone (subject : Subject ins) (run : Run P E C Q) (s : State P E C Q) : Prop where
  lookup : s.runs.lookup 0 = some run
  only : ∀ i other, s.runs.lookup i = some other → i = 0
  document : run.document = subject.document
  owned : ∃ read, s.ownedJob run = some read ∧ read.value.cancelRequestedAt = none
  jobs : ∀ id row, s.jobs.lookup id = some row → id = run.job
  live : ∃ row, s.lockLive subject.document = some row ∧ row.value.profileState = .none ∧
    row.value.contentSha256.all (· == subject.file.sha256) = true
  documents : ∀ id row, s.documents.lookup id = some row → id = subject.document
  processed : run.event ∉ s.processed

/-- What a run that is alone may save and be alone after it: its job, which it still owns, and
its document, which stays live and of the same content. -/
structure Saves (subject : Subject ins) (run : Run P E C Q) (s : State P E C Q)
    (write : Write E C Q) : Prop where
  job : ∀ read saved, write.job = some (read, saved) → s.jobs.lookup run.job = some read ∧
    saved.owned run.taken.attempt = true ∧ saved.cancelRequestedAt = none
  document : ∀ read saved, write.document = some (read, saved) →
    s.documents.lookup subject.document = some read ∧ saved.isLive = true ∧
      saved.profileState = .none ∧
      saved.contentSha256.all (· == subject.file.sha256) = true
  claims : write.claims = false

namespace Alone

variable {subject : Subject ins} {run : Run P E C Q} {s t : State P E C Q}

section

variable (h : Alone subject run s)
include h

theorem not_locked (document : String) : s.lockedByOther (some 0) document = false := by
  rw [State.lockedByOther, Bool.eq_false_iff]
  intro hany
  obtain ⟨i, other, hi, ht⟩ := anyRow_eq_true_iff.mp hany
  simp [h.only i other hi] at ht

theorem not_claimed (event : String) : s.claimedByOther 0 event = false := by
  rw [State.claimedByOther, Bool.eq_false_iff]
  intro hany
  obtain ⟨i, other, hi, ht⟩ := anyRow_eq_true_iff.mp hany
  simp [h.only i other hi] at ht

theorem proceed (input : Input Sig P) {phase : Phase P E C Q}
    (hok : subject.Follows s (.proceed 0 input))
    (hp : IngestionRuns.proceed subject.cfg ins s 0 run input = some phase) :
    Leads subject s [.proceed 0 input] (s.withRun 0 { run with phase := phase }) ∧
      Alone subject { run with phase := phase } (s.withRun 0 { run with phase := phase }) := by
  refine ⟨leads_step hok ?_, ?_⟩
  · rw [step, h.lookup, bind_some, hp]
    rfl
  · refine ⟨AList.lookup_insert _, fun i other hi => ?_, h.document, h.owned, h.jobs, h.live,
      h.documents, h.processed⟩
    rcases lookup_insert_iff.mp hi with ⟨rfl, -⟩ | ⟨-, hold⟩
    · rfl
    · exact h.only i other hold

theorem saveJob_ok {read : Versioned IngestionJob} (hr : s.jobs.lookup run.job = some read)
    (saved : IngestionJob) :
    saveJob s.jobs run.job read saved =
      .ok (s.jobs.insert run.job ⟨saved, read.version + 1⟩) := by
  have ho : (anyRow s.jobs fun other row =>
      other ≠ run.job && row.value.isOpen && row.value.documentId == saved.documentId) = false := by
    rw [Bool.eq_false_iff]
    intro hany
    obtain ⟨id, row, hrow, ht⟩ := anyRow_eq_true_iff.mp hany
    simp [h.jobs id row hrow] at ht
  simp only [saveJob, save, hr, if_true, ho, Bool.and_false, Bool.false_eq_true, if_false]

theorem saveDocument_ok {read : Versioned Document}
    (hr : s.documents.lookup subject.document = some read) (saved : Document) :
    saveDocument s.documents subject.document read saved =
      .ok (s.documents.insert subject.document ⟨saved, read.version + 1⟩) := by
  have ho : ∀ sha256, (anyRow s.documents fun other row =>
      other ≠ subject.document && row.value.isLive && row.value.projectId == saved.projectId &&
        row.value.contentSha256 == some sha256) = false := by
    intro sha256
    rw [Bool.eq_false_iff]
    intro hany
    obtain ⟨id, row, hrow, ht⟩ := anyRow_eq_true_iff.mp hany
    simp [h.documents id row hrow] at ht
  have hn : (saved.contentSha256.any fun sha256 => anyRow s.documents fun other row =>
      other ≠ subject.document && row.value.isLive && row.value.projectId == saved.projectId &&
        row.value.contentSha256 == some sha256) = false := by
    simp only [ho, any_eq_false, implies_true]
  simp only [saveDocument, save, hr, if_true, hn, Bool.and_false, Bool.false_eq_true,
    if_false]

end

variable {write : Write E C Q} {next stale : Phase P E C Q}

section

variable (h : Alone subject run s)
include h

/-- What the run is about to save goes through. -/
theorem commit (hph : run.phase = .writing write next stale)
    (hjob : ∀ read saved, write.job = some (read, saved) → s.jobs.lookup run.job = some read)
    (hd : ∀ read saved, write.document = some (read, saved) →
      s.documents.lookup subject.document = some read) :
    ∃ t, Leads subject s [.commit 0] t ∧ t.runs = s.runs.insert 0 { run with phase := next } ∧
      Applied s subject.document run.job write t ∧
      (write.claims = false → t.processed = s.processed) := by
  have ha : ∃ t, s.apply run.document run.job run.event write = .ok t ∧
      (write.claims = false → t.processed = s.processed) := by
    rw [h.document]
    unfold State.apply
    cases hwriteJob : write.job with
    | none =>
      cases hwriteDocument : write.document with
      | none => exact ⟨_, rfl, fun hc => by simp [hc]⟩
      | some pair =>
        simp only [h.saveDocument_ok (hd pair.1 pair.2 hwriteDocument)]
        exact ⟨_, rfl, fun hc => by simp [hc]⟩
    | some pair =>
      simp only [h.saveJob_ok (hjob pair.1 pair.2 hwriteJob)]
      cases hwriteDocument : write.document with
      | none => exact ⟨_, rfl, fun hc => by simp [hc]⟩
      | some pair =>
        simp only [h.saveDocument_ok (hd pair.1 pair.2 hwriteDocument)]
        exact ⟨_, rfl, fun hc => by simp [hc]⟩
  obtain ⟨t, ha, hp⟩ := ha
  obtain ⟨hr, -, -, hap⟩ := apply_eq_ok ha
  refine ⟨t.withRun 0 { run with phase := next }, leads_step trivial ?_, ?_,
    (h.document ▸ hap).withRun, hp⟩
  · rw [step, h.lookup, bind_some]
    simp only [commitRun, hph, h.not_locked, h.not_claimed, Bool.and_false, Bool.or_self,
      Bool.false_eq_true, if_false, ha]
  · simp only [State.withRun, hr]

theorem goOn (hph : run.phase = .writing write next stale)
    (hs : Saves subject run s write) :
    ∃ t, Leads subject s [.commit 0] t ∧ Alone subject { run with phase := next } t ∧
      t.pages = recordPages (seed s.pages subject.document write.seeds) subject.document
        write.results := by
  obtain ⟨t, hl, hru, ha, hp⟩ := h.commit hph
    (fun read saved hso => (hs.job read saved hso).1)
    (fun read saved hso => (hs.document read saved hso).1)
  refine ⟨t, hl, ⟨?_, fun i other hi => ?_, h.document, ?_, ?_, ?_, ?_, ?_⟩, ha.pages⟩
  · rw [hru, AList.lookup_insert]
  · rw [hru] at hi
    rcases lookup_insert_iff.mp hi with ⟨rfl, -⟩ | ⟨-, hold⟩
    · rfl
    · exact h.only i other hold
  · rcases ha.jobs with ⟨-, hsm⟩ | ⟨read, saved, hso, hsa⟩
    · obtain ⟨read, ho, hc⟩ := h.owned
      exact ⟨read, by rw [State.ownedJob, hsm]; exact ho, hc⟩
    · obtain ⟨hr, ho, hc⟩ := hs.job read saved hso
      rw [h.saveJob_ok hr] at hsa
      refine ⟨⟨saved, read.version + 1⟩, ?_, hc⟩
      rw [State.ownedJob, ← Except.ok.inj hsa, AList.lookup_insert]
      simp [ho]
  · rcases ha.jobs with ⟨-, hsm⟩ | ⟨read, saved, hso, hsa⟩
    · exact hsm ▸ h.jobs
    · rw [h.saveJob_ok (hs.job read saved hso).1] at hsa
      rw [← Except.ok.inj hsa]
      exact forall_insert rfl h.jobs
  · rcases ha.documents with ⟨-, hsm⟩ | ⟨read, saved, hso, hsa⟩
    · obtain ⟨row, hli, hre⟩ := h.live
      exact ⟨row, by rw [State.lockLive, hsm]; exact hli, hre⟩
    · obtain ⟨hr, hli, hst, hcontent⟩ := hs.document read saved hso
      rw [h.saveDocument_ok hr] at hsa
      refine ⟨⟨saved, read.version + 1⟩, ?_, hst, hcontent⟩
      rw [State.lockLive, ← Except.ok.inj hsa, AList.lookup_insert]
      simp [hli]
  · rcases ha.documents with ⟨-, hsm⟩ | ⟨read, saved, hso, hsa⟩
    · exact hsm ▸ h.documents
    · rw [h.saveDocument_ok (hs.document read saved hso).1] at hsa
      rw [← Except.ok.inj hsa]
      exact forall_insert rfl h.documents
  · rw [hp hs.claims]
    exact h.processed

theorem transact
    (ho : openTx subject.cfg ins s 0 run 0 false = some (.writing write next stale))
    (hs : Saves subject run s write) :
    ∃ t, Leads subject s [.proceed 0 (.openTx 0 false), .commit 0] t ∧
      Alone subject { run with phase := next } t ∧
      t.pages = recordPages (seed s.pages subject.document write.seeds) subject.document
        write.results := by
  obtain ⟨hl, hw⟩ := h.proceed (.openTx 0 false) (fun _ _ _ => trivial) ho
  obtain ⟨t, hc, ha, hp⟩ := hw.goOn rfl { hs with }
  exact ⟨t, hl.trans hc, ha, hp⟩

theorem extends_lease (now : ℤ) (leaseS : ℕ) :
    ∃ read, s.ownedJob run = some read ∧ read.value.extendLease now leaseS =
        .ok { read.value with leaseUntil := some (now + seconds leaseS) } ∧
      ∀ saved : IngestionJob, saved.status = read.value.status →
        saved.attempt = read.value.attempt →
        saved.cancelRequestedAt = read.value.cancelRequestedAt →
          s.jobs.lookup run.job = some read ∧ saved.owned run.taken.attempt = true ∧
            saved.cancelRequestedAt = none := by
  obtain ⟨read, ho, hc⟩ := h.owned
  obtain ⟨hrd, hm⟩ := ownedJob_eq_some ho
  obtain ⟨hr, ha⟩ := IngestionJob.owned_iff.mp hm
  refine ⟨read, ho, ?_, fun saved hs hsa hre => ⟨hrd, ?_, hre ▸ hc⟩⟩
  · simp [IngestionJob.extendLease, IngestionJob.require, hr]
    rfl
  · exact IngestionJob.owned_iff.mpr ⟨hs.trans hr, hsa.trans ha⟩

theorem keepsLease {batch : Batch E} (hp : run.phase = .keeping subject.base batch)
    (hd : (batch.single, batch.ranges) = ([], [])) :
    ∃ t, Leads subject s [.proceed 0 (.openTx 0 false), .commit 0] t ∧
      Alone subject { run with phase := .committing subject.base batch } t := by
  obtain ⟨read, ho, hextend, hk⟩ := h.extends_lease 0 subject.cfg.jobLeaseS
  obtain ⟨hs, hr⟩ := Prod.mk.inj hd
  have hop : openTx subject.cfg ins s 0 run 0 false = some (.writing
      { job := some (read,
          { read.value with leaseUntil := some (0 + seconds subject.cfg.jobLeaseS) }) }
      (.committing subject.base batch) .faulted) := by
    simp [openTx, hp, keepLease, ho, hextend, saving, Phase.afterReply, hs, hr]
  obtain ⟨t, hl, ha, -⟩ := h.transact hop ⟨fun other saved hso => by
    obtain ⟨rfl, rfl⟩ := Prod.mk.inj (some.inj hso)
    exact hk _ rfl rfl rfl, by simp, rfl⟩
  exact ⟨t, hl, ha⟩

end

variable {rest : List ℕ} {emitted : Bool}

/-- A batch that was answered is committed. -/
theorem commitsBatch (h : Alone subject run s) {results : List (PageResult E)}
    (hp : run.phase = .committing subject.base ⟨[], [], results, rest, emitted⟩) :
    ∃ t again, Leads subject s [.proceed 0 (.openTx 0 false), .commit 0] t ∧
      Alone subject
        { run with
          phase := if rest.isEmpty then .gathering subject.base
            else .honouring subject.base rest again } t := by
  obtain ⟨read, ho, hextend, hk⟩ := h.extends_lease 0 subject.cfg.jobLeaseS
  obtain ⟨row, hli, -⟩ := h.live
  have hop : ∃ saved : IngestionJob, ∃ again, saved.status = read.value.status ∧
      saved.attempt = read.value.attempt ∧
      saved.cancelRequestedAt = read.value.cancelRequestedAt ∧
      openTx subject.cfg ins s 0 run 0 false = some (.writing
        { job := some (read, saved), locks := true,
          results := results.insertionSort (·.pageNo ≤ ·.pageNo) }
        (if rest.isEmpty then .gathering subject.base else .honouring subject.base rest again)
        .faulted) := by
    let due := !emitted || false || rest.isEmpty
    let extended := { read.value with leaseUntil := some (0 + seconds subject.cfg.jobLeaseS) }
    refine ⟨if due then extended.nextSeq else extended, emitted || due, ?_, ?_, ?_, ?_⟩
    · split_ifs <;> rfl
    · split_ifs <;> rfl
    · split_ifs <;> rfl
    · simp only [openTx, hp, commitBatch, h.document, hli, ho, hextend, saving,
        afterBatch, Except.map]
      rfl
  obtain ⟨saved, again, hst, ha, hc, hop⟩ := hop
  obtain ⟨t, hl, hal, -⟩ := h.transact hop ⟨fun other after hs => by
    obtain ⟨rfl, rfl⟩ := Prod.mk.inj (some.inj hs)
    exact hk _ hst ha hc, by simp, rfl⟩
  exact ⟨t, again, hl, hal⟩

variable {n : ℕ}

theorem follows_pages (h : Alone subject run s) (ha : askedRange run.phase = some (n, n)) :
    subject.Follows s (.proceed 0 (.pages (alone subject.file n))) := by
  intro found hf _ range hr
  obtain rfl := mem_unique h.lookup hf
  obtain rfl := mem_unique ha hr
  exact answers_alone subject.file n

/-- Before a page is asked for, the run sees that it may go on. -/
theorem honours (h : Alone subject run s) (hb : subject.cfg.inspectBatchPages = 1)
    (hp : run.phase = .honouring subject.base (n :: rest) emitted) :
    ∃ t, Leads subject s [.proceed 0 .honourDocument, .proceed 0 .honourJob] t ∧
      Alone subject
        { run with
          phase := .classifying subject.base ⟨[(n, n)], [], [], rest, emitted⟩ } t := by
  obtain ⟨row, hl, -⟩ := h.live
  have hd : IngestionRuns.proceed subject.cfg ins s 0 run .honourDocument =
      some (.honouringJob subject.base (n :: rest) emitted true) := by
    simp [IngestionRuns.proceed, hp, h.document, hl]
  obtain ⟨hf, hse⟩ := h.proceed .honourDocument (fun _ _ _ => trivial) hd
  obtain ⟨read, ho, hc⟩ := hse.owned
  have hjob : IngestionRuns.proceed subject.cfg ins
      (s.withRun 0 { run with phase := .honouringJob subject.base (n :: rest) emitted true }) 0
      { run with phase := .honouringJob subject.base (n :: rest) emitted true } .honourJob =
      some (.classifying subject.base ⟨[(n, n)], [], [], rest, emitted⟩) := by
    simp [IngestionRuns.proceed, honourJob, ho, hc, hb, runsOf, addPage]
  obtain ⟨hs, ha⟩ := hse.proceed .honourJob (fun _ _ _ => trivial) hjob
  exact ⟨_, hf.trans hs, ha⟩

/-- A page that is asked for comes to be answered. -/
theorem answered (h : Alone subject run s)
    (hph : run.phase = .classifying subject.base ⟨[(n, n)], [], [], rest, emitted⟩)
    (hp : subject.file.outcome subject.base n ≠ none) :
    ∃ t results, Leads subject s ([.proceed 0 (.pages (alone subject.file n))] ++
        if subject.file.fails n then
          [.proceed 0 (.pages (alone subject.file n)), .proceed 0 (.openTx 0 false), .commit 0]
        else []) t ∧
      Alone subject
        { run with
          phase := .committing subject.base ⟨[], [], results, rest, emitted⟩ } t := by
  have hok := h.follows_pages (n := n) (by simp [hph, askedRange])
  cases hone : subject.file.page n with
  | ok one =>
    have hr : alone subject.file n = .ok one.toList := by rw [alone, hone]; rfl
    have hn : IngestionRuns.proceed subject.cfg ins s 0 run
        (.pages (alone subject.file n)) = some (.committing subject.base ⟨[], [],
          rangeResults ins subject.base n n one.toList, rest, emitted⟩) := by
      simp [IngestionRuns.proceed, hph, answerPages, hr, Phase.afterReply]
    obtain ⟨hl, ha⟩ := h.proceed _ hok hn
    exact ⟨_, _, by simpa [PdfFile.fails, hone] using hl, ha⟩
  | error failure =>
    cases failure with
    | rejected _ => simp [PdfFile.outcome, hone] at hp
    | range reason =>
      have hr : alone subject.file n = .error (.range reason) := by rw [alone, hone]; rfl
      have hn : IngestionRuns.proceed subject.cfg ins s 0 run
          (.pages (alone subject.file n)) =
          some (.classifying subject.base ⟨[], [n], [], rest, emitted⟩) := by
        simp [IngestionRuns.proceed, hph, answerPages, hr, Phase.afterReply, pageRange]
      obtain ⟨hf, hag⟩ := h.proceed _ hok hn
      have hk : IngestionRuns.proceed subject.cfg ins
          (s.withRun 0 { run with phase := .classifying subject.base ⟨[], [n], [], rest, emitted⟩ })
          0 { run with phase := .classifying subject.base ⟨[], [n], [], rest, emitted⟩ }
          (.pages (alone subject.file n)) = some (.keeping subject.base ⟨[], [],
            [failedPage ins n reason 2], rest, emitted⟩) := by
        simp [IngestionRuns.proceed, answerPages, hr]
      obtain ⟨hs, hke⟩ :=
        hag.proceed _ (hag.follows_pages (by simp [askedRange])) hk
      obtain ⟨t, ht, ha⟩ := hke.keepsLease rfl rfl
      refine ⟨t, [failedPage ins n reason 2], ?_, ha⟩
      have hl := (hf.trans hs).trans ht
      simpa [PdfFile.fails, hone] using hl

theorem page (h : Alone subject run s) (hb : subject.cfg.inspectBatchPages = 1)
    (hph : run.phase = .honouring subject.base (n :: rest) emitted)
    (hp : subject.file.outcome subject.base n ≠ none) :
    ∃ t again, Leads subject s (pageEvents subject n) t ∧
      Alone subject
        { run with
          phase := if rest.isEmpty then .gathering subject.base
            else .honouring subject.base rest again } t := by
  obtain ⟨u, hf, hc⟩ := h.honours hb hph
  obtain ⟨v, results, hs, hco⟩ := hc.answered rfl hp
  obtain ⟨t, again, ht, ha⟩ := hco.commitsBatch rfl
  exact ⟨t, again, (hf.trans hs).trans ht, ha⟩

theorem pages (todo : List ℕ) (h : Alone subject run s)
    (hb : subject.cfg.inspectBatchPages = 1)
    (hph : run.phase = if todo.isEmpty then .gathering subject.base
      else .honouring subject.base todo emitted)
    (hpa : ∀ n ∈ todo, subject.file.outcome subject.base n ≠ none) :
    ∃ t, Leads subject s (todo.flatMap (pageEvents subject)) t ∧
      Alone subject { run with phase := .gathering subject.base } t := by
  induction todo generalizing run s emitted with
  | nil =>
    have hrun : { run with phase := .gathering subject.base } = run := by
      cases run
      simp only at hph
      rw [hph]
      rfl
    exact ⟨s, ⟨trivial, rfl⟩, hrun ▸ h⟩
  | cons n rest ih =>
    rw [List.forall_mem_cons] at hpa
    obtain ⟨t, again, hp, hr⟩ := h.page hb hph hpa.1
    obtain ⟨u, hl, ha⟩ := ih hr rfl hpa.2
    exact ⟨u, hp.trans hl, ha⟩

/-- The last transaction of the run writes its conclusion. -/
theorem settles (h : Alone subject run s) {record : C} {proposal : Q}
    (hp : run.phase = .concluding subject.base record proposal) :
    ∃ t record proposal, Leads subject s [.proceed 0 (.openTx 0 false), .commit 0] t ∧
      t.characterizations.lookup subject.document = some record ∧
      (subject.document, proposal) ∈ t.proposals := by
  obtain ⟨read, ho, hc⟩ := h.owned
  obtain ⟨row, hl, hst, -⟩ := h.live
  obtain ⟨hre, hm⟩ := ownedJob_eq_some ho
  obtain ⟨hrow, hisLive⟩ := lockLive_eq_some hl
  have hr := (IngestionJob.owned_iff.mp hm).1
  have hop : ∃ saved document, openTx subject.cfg ins s 0 run 0 false = some (.writing
      { job := some (read, saved), document := some (row, document), record := some record,
        proposal := some proposal, claims := true, claimedFirst := true, locks := true }
      (.ended .returned) .faulted) := by
    obtain ⟨saved, hsa⟩ : ∃ saved, (if ins.accepts subject.base proposal then
        read.value.succeed 0 else read.value.awaitConfirmation) = .ok saved := by
      split_ifs
      · exact ⟨_, by simp only [IngestionJob.succeed, IngestionJob.require, if_pos hr]; rfl⟩
      · exact ⟨_, by
          simp only [IngestionJob.awaitConfirmation, IngestionJob.require, if_pos hr]; rfl⟩
    obtain ⟨document, hd⟩ : ∃ document, row.value.setProfileState
        (if ins.accepts subject.base proposal then .accepted else .proposed) = .ok document :=
      ⟨_, by simp only [Document.setProfileState, Document.requireLive, if_pos hisLive]; rfl⟩
    refine ⟨saved, document, ?_⟩
    simp [openTx, hp, h.not_claimed, conclude, h.processed, h.document, hl, ho, hc,
      settle, hst, hd, hsa, saving]
  obtain ⟨saved, document, hop⟩ := hop
  obtain ⟨hf, hw⟩ := h.proceed (.openTx 0 false) (fun _ _ _ => trivial) hop
  obtain ⟨t, hs, -, ha, -⟩ := hw.commit rfl
    (fun other after hso => by
      obtain ⟨rfl, rfl⟩ := Prod.mk.inj (some.inj hso)
      exact hre)
    (fun other after hso => by
      obtain ⟨rfl, rfl⟩ := Prod.mk.inj (some.inj hso)
      exact hrow)
  refine ⟨t, record, proposal, hf.trans hs, ?_, ?_⟩
  · rw [ha.characterizations]
    exact AList.lookup_insert _
  · rw [ha.proposals]
    simp

theorem concludes (h : Alone subject run s) (hp : run.phase = .gathering subject.base) :
    ∃ t record proposal, Leads subject s
        [.proceed 0 .document, .proceed 0 .evidence, .proceed 0 (.openTx 0 false), .commit 0] t ∧
      t.characterizations.lookup subject.document = some record ∧
      (subject.document, proposal) ∈ t.proposals := by
  obtain ⟨row, hli, -⟩ := h.live
  have hl : s.documents.lookup run.document = some row := by
    rw [h.document]
    exact (lockLive_eq_some hli).1
  have hd : IngestionRuns.proceed subject.cfg ins s 0 run .document =
      some (.gatheringPages subject.base row.value) := by
    simp [IngestionRuns.proceed, hp, hl]
  obtain ⟨hf, hg⟩ := h.proceed .document (fun _ _ _ => trivial) hd
  obtain ⟨hs, hc⟩ := hg.proceed .evidence (fun _ _ _ => trivial) rfl
  obtain ⟨t, record, proposal, ht, hr⟩ := hc.settles rfl
  exact ⟨t, record, proposal, (hf.trans hs).trans ht, hr⟩

theorem recordInspection_ok {document : Document} (hl : document.isLive = true) {sha256 : String}
    (hsha : isSha256 sha256 = true) (pageCount : ℕ) (creator producer : Option String) :
    ∃ after, document.recordInspection sha256 pageCount creator producer = .ok after ∧
      after.isLive = true ∧ after.profileState = document.profileState ∧
      after.contentSha256 = some sha256 := by
  refine ⟨{ document with
    contentSha256 := some sha256
    pageCount := some pageCount
    pdfCreator := creator
    pdfProducer := producer }, ?_, hl, rfl, rfl⟩
  simp only [Document.recordInspection, Document.requireLive, hl, if_true, hsha]
  rfl

theorem no_twin (h : Alone subject run s) (project sha256 : String) :
    (activeWithContent s.documents project sha256).any (· ≠ subject.document) = false := by
  rw [Bool.eq_false_iff]
  intro hany
  obtain ⟨id, hf, hne⟩ := (any_eq_true _ _).mp hany
  unfold activeWithContent at hf
  have hfo := List.find?_some hf
  obtain ⟨row, hrow, -⟩ := (any_eq_true _ _).mp hfo
  simp [h.documents id row hrow] at hne

theorem fingerprints (h : Alone subject run s) (hsha : isSha256 subject.file.sha256 = true)
    (hp : run.phase = .fingerprint subject.base subject.file.sha256) :
    ∃ t, Leads subject s [.proceed 0 (.openTx 0 false), .commit 0] t ∧
      Alone subject { run with phase := .summary subject.base subject.file.sha256 } t ∧
      t.pages = s.pages := by
  obtain ⟨row, hl, hst, hcontent⟩ := h.live
  obtain ⟨hrow, hisLive⟩ := lockLive_eq_some hl
  obtain ⟨document, hr, ha, hsm, hsa⟩ := recordInspection_ok hisLive hsha
    (row.value.pageCount.getD 0) row.value.pdfCreator row.value.pdfProducer
  have hu : row.value.contentSha256.any (· ≠ subject.file.sha256) = false := by
    cases hs : row.value.contentSha256 with
    | none => rfl
    | some sha256 =>
      rw [hs] at hcontent
      simpa using hcontent
  have ho : openTx subject.cfg ins s 0 run 0 false = some (.writing
      { document := some (row, document), locks := true }
      (.summary subject.base subject.file.sha256) .faulted) := by
    simp only [openTx, hp, tryRecord, h.document, hl, hu, h.no_twin, hr,
      Bool.false_eq_true, if_false]
  refine h.transact ho ⟨by simp, fun read saved hso => ?_, rfl⟩
  obtain ⟨rfl, rfl⟩ := Prod.mk.inj (some.inj hso)
  exact ⟨hrow, ha, hsm.trans hst, by simp [hsa]⟩

theorem seeds (h : Alone subject run s) (hk : run.taken.kind = .ingest)
    (hsha : isSha256 subject.file.sha256 = true) {summary : PdfSummary}
    (hs : subject.file.summary = .ok summary)
    (hp : run.phase = .seeding subject.base subject.file.sha256 summary) :
    ∃ t, Leads subject s [.proceed 0 (.openTx 0 false), .commit 0] t ∧
      Alone subject { run with phase := .listing subject.base } t ∧
      t.pages = seed s.pages subject.document subject.file.pageNumbers := by
  obtain ⟨row, hl, hst, -⟩ := h.live
  obtain ⟨hrow, hisLive⟩ := lockLive_eq_some hl
  obtain ⟨document, hr, ha, hsm, hsa⟩ := recordInspection_ok hisLive hsha
    summary.pageCount (clipMetadata summary.creator) (clipMetadata summary.producer)
  have hw : wanted run.taken summary.pageCount = subject.file.pageNumbers := by
    simp [wanted, hk, PdfFile.pageNumbers, PdfFile.facts, hs]
  have ho : openTx subject.cfg ins s 0 run 0 false = some (.writing
      { document := some (row, document), seeds := subject.file.pageNumbers, locks := true }
      (.listing subject.base) .faulted) := by
    simp only [openTx, hp, seedPages, h.document, hl, hr, hw]
  refine h.transact ho ⟨by simp, fun read saved hso => ?_, rfl⟩
  obtain ⟨rfl, rfl⟩ := Prod.mk.inj (some.inj hso)
  exact ⟨hrow, ha, hsm.trans hst, by simp [hsa]⟩

theorem unfinished_seed (document : String) (numbers : List ℕ)
    (hs : numbers.Pairwise (· < ·)) :
    unfinished (seed (∅ : Pages E) document numbers) document = numbers := by
  refine unfinished_eq _ document hs fun n => ?_
  rw [mem_unfinished]
  constructor
  · rintro ⟨row, hrow, -⟩
    rcases lookup_seed (∅ : Pages E) document numbers (document, n) with hsa | ⟨-, -, -, hn⟩
    · simp [hsa] at hrow
    · exact hn
  · intro hn
    have hmem := mem_seed (∅ : Pages E) document hn
    rcases lookup_seed (∅ : Pages E) document numbers (document, n) with hsa | ⟨-, hrow, -⟩
    · rw [← AList.lookup_isSome, hsa] at hmem
      simp at hmem
    · exact ⟨pendingRow, hrow, rfl⟩

/-- The file is read up to the list of its pages. -/
theorem reads (h : Alone subject run s) (hk : run.taken.kind = .ingest)
    (hph : run.phase = .profile) (hpa : s.pages = ∅) (hrc : s.characterizations = ∅)
    (hr : subject.file.Readable subject.cfg) :
    ∃ t, Leads subject s
        ([.proceed 0 (.profile subject.base), .proceed 0 .remaining,
          .proceed 0 (.staged (.staged subject.file.sha256)), .proceed 0 (.openTx 0 false),
          .commit 0, .proceed 0 (.summary subject.file.summary), .proceed 0 (.openTx 0 false),
          .commit 0, .proceed 0 .list]) t ∧
      Alone subject
        { run with
          phase := if subject.file.pageNumbers.isEmpty then .gathering subject.base
            else .honouring subject.base subject.file.pageNumbers false } t := by
  obtain ⟨summary, hs, hc⟩ := hr.summary
  have hp : IngestionRuns.proceed subject.cfg ins s 0 run (.profile subject.base) =
      some (.remaining subject.base) := by simp [IngestionRuns.proceed, hph]
  obtain ⟨hfi, hre⟩ := h.proceed (.profile subject.base) (fun _ _ _ => rfl) hp
  have hst : IngestionRuns.proceed subject.cfg ins
      (s.withRun 0 { run with phase := .remaining subject.base }) 0
      { run with phase := .remaining subject.base } .remaining = some (.staging subject.base) := by
    simp only [IngestionRuns.proceed]
    rw [if_neg]
    simp [State.withRun, hrc]
  obtain ⟨hsc, hsg⟩ := hre.proceed .remaining (fun _ _ _ => trivial) hst
  obtain ⟨ht, hf⟩ := hsg.proceed (.staged (.staged subject.file.sha256))
    (fun _ _ _ => rfl) rfl
  obtain ⟨u, hfo, hsu, hu⟩ := hf.fingerprints hr.sha256 rfl
  have hse : IngestionRuns.proceed subject.cfg ins u 0
      { run with phase := .summary subject.base subject.file.sha256 }
      (.summary subject.file.summary) =
      some (.seeding subject.base subject.file.sha256 summary) := by
    simp [IngestionRuns.proceed, answerSummary, hs, Nat.not_lt.mpr hc]
  obtain ⟨hff, hsd⟩ := hsu.proceed (.summary subject.file.summary)
    (fun _ _ _ => rfl) hse
  obtain ⟨v, hsi, hl, hv⟩ := hsd.seeds hk hr.sha256 hs rfl
  have hun : unfinished v.pages subject.document = subject.file.pageNumbers := by
    have he : v.pages = seed ∅ subject.document subject.file.pageNumbers := by
      rw [hv]
      exact congrArg (seed · _ _) (hu.trans hpa)
    rw [he]
    exact unfinished_seed subject.document subject.file.pageNumbers List.pairwise_lt_range'
  have hli : IngestionRuns.proceed subject.cfg ins v 0
      { run with phase := .listing subject.base } .list =
      some (if subject.file.pageNumbers.isEmpty then .gathering subject.base
        else .honouring subject.base subject.file.pageNumbers false) := by
    simp only [IngestionRuns.proceed, h.document, hun]
  obtain ⟨hsv, ha⟩ := hl.proceed .list (fun _ _ _ => trivial) hli
  exact ⟨_, (((((hfi.trans hsc).trans ht).trans hfo).trans hff).trans
    hsi).trans hsv, ha⟩

end Alone

section Opening

variable (subject : Subject ins) (job project file event : String)

def registered : State P E C Q :=
  { (State.init : State P E C Q) with
    issued := [subject.document, job]
    documents := (∅ : Documents).insert subject.document ⟨newDocument project file, 1⟩
    jobs := (∅ : Jobs).insert job ⟨newJob subject.document .ingest none, 1⟩ }

def taken : IngestionJob :=
  { newJob subject.document .ingest none with
    status := .running
    startedAt := some 0
    leaseUntil := some (0 + seconds subject.cfg.jobLeaseS)
    stage := some .classify }

def delivered : Run P E C Q where
  job := job
  document := subject.document
  event := event
  taken := taken subject
  phase := .taking ⟨newJob subject.document .ingest none, 1⟩ (taken subject)

theorem leads_registered (hjob : job ≠ subject.document) :
    Leads subject State.init [.register subject.document job project file [] []]
      (registered subject job project file) := by
  have hne : (subject.document == job) = false := by simpa using hjob.symm
  refine leads_step trivial ?_
  simp [step, register, State.init, orphans, hne, anyRow, registered]

theorem lookup_registered :
    (registered subject job project file : State P E C Q).jobs.lookup job =
        some ⟨newJob subject.document .ingest none, 1⟩ ∧
      (registered subject job project file : State P E C Q).lockLive subject.document =
        some ⟨newDocument project file, 1⟩ := by
  refine ⟨AList.lookup_insert _, ?_⟩
  rw [State.lockLive, registered, AList.lookup_insert]
  rfl

def started : State P E C Q :=
  { (registered subject job project file).withRun 0 (delivered subject job event) with
    jobs := (registered subject job project file : State P E C Q).jobs.insert job
      ⟨taken subject, 2⟩ }.withRun 0 { delivered subject job event with phase := .profile }

/-- The delivery of a registered document takes its job. -/
theorem leads_started :
    Leads subject (registered subject job project file)
      [.deliver 0 job event 0, .takeCommit 0] (started subject job project file event) := by
  obtain ⟨hrow, hl⟩ := lookup_registered subject job project file
  have hd : step subject.cfg ins (registered subject job project file)
      (.deliver 0 job event 0) =
      some ((registered subject job project file).withRun 0 (delivered subject job event)) := by
    have hnew : 0 ∉ (registered subject job project file : State P E C Q).runs :=
      AList.notMem_empty 0
    rw [step, if_neg hnew]
    simp only [deliver, hrow]
    rw [if_neg (by simp [newJob])]
    simp only [newJob] at hl ⊢
    rw [hl]
    rfl
  have hs : saveJob (registered subject job project file : State P E C Q).jobs job
      ⟨newJob subject.document .ingest none, 1⟩ (taken subject) =
      .ok ((registered subject job project file : State P E C Q).jobs.insert job
        ⟨taken subject, 2⟩) := by
    simp [saveJob, save, hrow]
    simp [anyRow, registered]
  have hc : step subject.cfg ins
      ((registered subject job project file).withRun 0 (delivered subject job event))
      (.takeCommit 0) = some (started subject job project file event) := by
    rw [step, State.withRun, AList.lookup_insert, bind_some, takeCommit]
    simp only [delivered]
    rw [hs]
    rfl
  have hf : Leads subject (registered subject job project file) [.deliver 0 job event 0]
      ((registered subject job project file).withRun 0 (delivered subject job event)) :=
    leads_step trivial hd
  exact hf.trans (leads_step trivial hc)

theorem alone_started :
    Alone subject { delivered subject job event with phase := .profile }
      (started subject job project file event) := by
  have hd : (started subject job project file event : State P E C Q).documents.lookup
      subject.document = some ⟨newDocument project file, 1⟩ := AList.lookup_insert _
  have hjob : (started subject job project file event : State P E C Q).jobs.lookup job =
      some ⟨taken subject, 2⟩ := AList.lookup_insert _
  have he : ∀ {κ V : Type} [DecidableEq κ] (k : κ) (v : V),
      (∅ : AList fun _ : κ => V).lookup k ≠ some v := by simp
  refine ⟨AList.lookup_insert _, fun i other hi => ?_, rfl, ⟨⟨taken subject, 2⟩, ?_, rfl⟩,
    fun id row hrow => ?_, ⟨⟨newDocument project file, 1⟩, ?_, rfl, rfl⟩, fun id row hrow => ?_, ?_⟩
  · rcases lookup_insert_iff.mp hi with ⟨rfl, -⟩ | ⟨-, hold⟩
    · rfl
    · rcases lookup_insert_iff.mp hold with ⟨rfl, -⟩ | ⟨-, hn⟩
      · rfl
      · exact absurd hn (he i other)
  · rw [State.ownedJob]
    simp only [delivered]
    rw [hjob]
    rfl
  · rcases lookup_insert_iff.mp hrow with ⟨rfl, -⟩ | ⟨-, hold⟩
    · rfl
    · rcases lookup_insert_iff.mp hold with ⟨rfl, -⟩ | ⟨-, hn⟩
      · rfl
      · exact absurd hn (he id row)
  · rw [State.lockLive, hd]
    rfl
  · rcases lookup_insert_iff.mp hrow with ⟨rfl, -⟩ | ⟨-, hn⟩
    · rfl
    · exact absurd hn (he id row)
  · exact List.not_mem_nil

def uninterrupted : List (Event Sig P) :=
  [.register subject.document job project file [] []] ++
    [.deliver 0 job event 0, .takeCommit 0] ++
    [.proceed 0 (.profile subject.base), .proceed 0 .remaining,
      .proceed 0 (.staged (.staged subject.file.sha256)), .proceed 0 (.openTx 0 false),
      .commit 0, .proceed 0 (.summary subject.file.summary), .proceed 0 (.openTx 0 false),
      .commit 0, .proceed 0 .list] ++
    subject.file.pageNumbers.flatMap (pageEvents subject) ++
    [.proceed 0 .document, .proceed 0 .evidence, .proceed 0 (.openTx 0 false), .commit 0]

theorem uninterrupted_concludes (hjob : job ≠ subject.document)
    (hb : subject.cfg.inspectBatchPages = 1)
    (hw : subject.file.Whole subject.cfg subject.base) :
    ∃ u, EventRuns.run (step subject.cfg ins) State.init
        (uninterrupted subject job project file event) = some u ∧
      u.characterizations.lookup subject.document = some subject.concluded.1 ∧
      ∀ proposal, (subject.document, proposal) ∈ u.proposals ↔
        proposal = subject.concluded.2 := by
  have hs := (leads_registered subject job project file hjob).trans
    (leads_started subject job project file event)
  obtain ⟨v, hrd, hl⟩ := (alone_started subject job project file event).reads rfl rfl rfl
    rfl hw.toReadable
  obtain ⟨w, hpa, hg⟩ := hl.pages subject.file.pageNumbers hb rfl hw.pages
  obtain ⟨u, record, proposal, hc, hre, hp⟩ := hg.concludes rfl
  have hle := ((hs.trans hrd).trans hpa).trans hc
  have hr := hle.reproducible Subject.reproducible_init
  obtain ⟨rfl, -⟩ := hr.record record hre
  obtain ⟨rfl, -⟩ := hr.proposals proposal hp
  refine ⟨u, hle.run, hre, fun other => ⟨fun ho => ?_, fun heq => heq ▸ hp⟩⟩
  exact (hr.proposals other ho).1

def onePageBatches : Subject ins :=
  { subject with cfg := { subject.cfg with inspectBatchPages := 1 } }

/-- Whatever the batches are and however often runs crash and others take over, what is written
for the document is what the one uninterrupted run writes, page by page. -/
theorem resumed_runs_conclude_alike (hjob : job ≠ subject.document) (events : List (Event Sig P))
    (t : State P E C Q)
    (hguarded : Guarded (step subject.cfg ins) subject.Follows State.init events)
    (ht : EventRuns.run (step subject.cfg ins) State.init events = some t) :
    (∀ record, t.characterizations.lookup subject.document = some record →
      ∃ u, EventRuns.run (step { subject.cfg with inspectBatchPages := 1 } ins) State.init
          (uninterrupted subject job project file event) = some u ∧
        u.characterizations.lookup subject.document = some record) ∧
    ∀ proposal, (subject.document, proposal) ∈ t.proposals →
      ∃ u, EventRuns.run (step { subject.cfg with inspectBatchPages := 1 } ins) State.init
          (uninterrupted subject job project file event) = some u ∧
        ∀ other, (subject.document, other) ∈ u.proposals ↔ other = proposal := by
  have hs : subject.Reproducible t :=
    run_invariant Subject.step_reproducible hguarded ht Subject.reproducible_init
  have hc : subject.file.Whole subject.cfg subject.base → _ := fun hwh =>
    uninterrupted_concludes (onePageBatches subject) job project file event hjob rfl
      ⟨⟨hwh.sha256, hwh.summary⟩, hwh.pages⟩
  constructor
  · intro record hr
    obtain ⟨rfl, hwh, -⟩ := hs.record record hr
    obtain ⟨u, hu, hw, -⟩ := hc hwh
    exact ⟨u, hu, hw⟩
  · intro proposal hp
    obtain ⟨rfl, hwh⟩ := hs.proposals proposal hp
    obtain ⟨u, hu, -, hw⟩ := hc hwh
    exact ⟨u, hu, hw⟩

end Opening

end Machine

private def sha : String :=
  "0123456789abcdef0123456789abcdef0123456789abcdef0123456789abcdef"

private def threePages : PdfFile pageCounter where
  sha256 := sha
  summary := .ok ⟨3, none, none⟩
  page := fun n => if n = 2 then .error (.range .parseTimeout) else .ok (some n)
  numbered := by
    intro n signals h
    split_ifs at h
    exact (Option.some.inj (Except.ok.inj h)).symm

private def sample : Subject pageCounter := ⟨sampleSettings, threePages, (), "d"⟩

private def reading (r : ℕ) (event : String) (now : ℤ) : List (Event ℕ Unit) :=
  [.deliver r "j" event now, .takeCommit r, .proceed r (.profile ()), .proceed r .remaining,
    .proceed r (.staged (.staged sha)), .proceed r (.openTx now false), .commit r,
    .proceed r (.summary (.ok ⟨3, none, none⟩)), .proceed r (.openTx now false), .commit r,
    .proceed r .list, .proceed r .honourDocument, .proceed r .honourJob]

private def resumed : List (Event ℕ Unit) :=
  [.register "d" "j" "p" "f" [] []] ++ reading 0 "e" 0 ++
    [.proceed 0 (.pages (.error (.range .memoryLimit))), .proceed 0 (.pages (.ok [1])),
      .proceed 0 (.openTx 1 false), .commit 0,
      .proceed 0 (.pages (.error (.range .parseTimeout))), .proceed 0 (.openTx 2 false), .commit 0,
      .proceed 0 (.openTx 3 false), .commit 0, .proceed 0 .crash] ++
    reading 1 "e" 100000000 ++
    [.proceed 1 (.pages (.ok [3])), .proceed 1 (.openTx 100000000 false), .commit 1,
      .proceed 1 .document, .proceed 1 .evidence, .proceed 1 (.openTx 100000000 false), .commit 1]

theorem takeover_concludes_alike :
    ∃ t record proposal,
      EventRuns.run (step sampleSettings pageCounter) State.init resumed = some t ∧
      t.characterizations.lookup "d" = some record ∧ ("d", proposal) ∈ t.proposals ∧
      (∃ u, EventRuns.run (step ⟨10, 100, 1⟩ pageCounter) State.init
          (uninterrupted sample "j" "p" "f" "e") = some u ∧
        u.characterizations.lookup "d" = some record) ∧
      ∃ u, EventRuns.run (step ⟨10, 100, 1⟩ pageCounter) State.init
          (uninterrupted sample "j" "p" "f" "e") = some u ∧
        ∀ other, ("d", other) ∈ u.proposals ↔ other = proposal := by
  obtain ⟨t, ht, hte⟩ := exists_run_of_any
    (p := fun t : State Unit Unit ℕ ℕ => (t.characterizations.lookup "d" == some 2) &&
      decide (("d", 2) ∈ t.proposals))
    (show (EventRuns.run (step sampleSettings pageCounter) State.init resumed).any _ = true by
      decide +kernel)
  simp only [Bool.and_eq_true, beq_iff_eq, decide_eq_true_eq] at hte
  obtain ⟨hr, hp⟩ := hte
  have hg : Guarded (step sampleSettings pageCounter) sample.Follows State.init resumed := by
    decide +kernel
  have ha :=
    resumed_runs_conclude_alike sample "j" "p" "f" "e" (by decide) resumed t hg ht
  exact ⟨t, 2, 2, ht, hr, hp, ha.1 2 hr, ha.2 2 hp⟩

end Aizzak.UninterruptedRun
