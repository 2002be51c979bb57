import Aizzak.IngestionCoherence

/-!
How jobs end. A cancellation that was asked for is not lost, and a run that returns leaves no
job behind that is running under its own attempt, unless it stopped without a word.
-/
namespace Aizzak.IngestionEndings

open EventRuns KeyedTables VersionedRows IngestionJobs IngestionRuns IngestionWrites
open IngestionCoherence

section Machine

variable {Sig P E C Q : Type} {cfg : Settings} {ins : Inspector Sig P E C Q}
  {s t : State P E C Q} {e : Event Sig P} {r : ℕ} {run : Run P E C Q}

def NotResumed (cfg : Settings) (ins : Inspector Sig P E C Q) (id : String) (s : State P E C Q)
    (e : Event Sig P) : Prop :=
  resumes s id e = true → ∀ t row, step cfg ins s e = some t → t.jobs.lookup id = some row →
    row.value.status ≠ .queued

structure Held (id : String) (s : State P E C Q) : Prop where
  coherent : Coherent s
  known : id ∈ s.issued
  held : ∀ row, s.jobs.lookup id = some row → row.value.CancelHeld

theorem cancelHeld_of_later {id : String} {old row : Versioned IngestionJob}
    (h : Later (Allowed s e id) old row) (hold : old.value.CancelHeld)
    (hend : resumes s id e = true → row.value.status ≠ .queued) : row.value.CancelHeld := by
  by_cases hr : resumes s id e = true
  · cases h with
    | same => exact hold
    | moved _ hm _ => exact absurd (hm.2.2 hr) (hend hr)
  · refine h.keeps (fun job after hm hh => ?_) hold
    refine hm.1.cancelHeld hh fun hq => ?_
    rcases hm.2.1 hq with hre | ha
    · exact hr hre
    · rcases hh with ⟨hs, -⟩ | hs | hs <;> simp [hs] at ha

theorem step_held {id : String} (s : State P E C Q) (e : Event Sig P) (t : State P E C Q)
    (hs : Held id s) (hok : NotResumed cfg ins id s e) (ht : step cfg ins s e = some t) :
    Held id t := by
  have hro := step_rows hs.coherent ht
  refine ⟨step_coherent s e t hs.coherent ht, hro.issued id hs.known, ?_⟩
  intro row hrow
  rcases hro.jobs id row hrow with ⟨old, hold, hl⟩ | ha
  · exact cancelHeld_of_later hl (hs.held old hold) fun hr => hok hr t row ht hrow
  · exact absurd hs.known ha.issued.1

/-- However runs, takeovers, faults, lease releases and requests interleave: once the
cancellation of a running job is stored, the job neither succeeds nor awaits a confirmation
afterwards, unless a resume puts it back into the queue. -/
theorem accepted_cancellation_is_kept (cfg : Settings) (ins : Inspector Sig P E C Q)
    (before after : List (Event Sig P)) (s t : State P E C Q) (id : String)
    (row later : Versioned IngestionJob)
    (hs : EventRuns.run (step cfg ins) State.init before = some s)
    (hrow : s.jobs.lookup id = some row) (hrunning : row.value.status = .running)
    (hcancel : row.value.cancelRequestedAt ≠ none)
    (hguarded : Guarded (step cfg ins) (NotResumed cfg ins id) s after)
    (ht : EventRuns.run (step cfg ins) s after = some t) (hlater : t.jobs.lookup id = some later) :
    later.value.status ≠ .succeeded ∧ later.value.status ≠ .awaitingConfirmation := by
  have hc : Coherent s := run_invariant_of_step step_coherent hs coherent_init
  have hh : Held id s := by
    refine ⟨hc, hc.stored id row hrow, fun found hf => ?_⟩
    obtain rfl : row = found := Option.mem_unique hrow hf
    exact .inl ⟨hrunning, hcancel⟩
  have hend := (run_invariant step_held hguarded ht hh).held later hlater
  rcases hend with ⟨hst, -⟩ | hst | hst <;> simp [hst]

/-- A run that owns its job finds its document live and its event unclaimed where it would
otherwise stop without a word. -/
def FindsItsDocument (s : State P E C Q) : Event Sig P → Prop
  | .proceed r input => (s.runs.lookup r).all fun run =>
      (s.ownedJob run).isNone || !strands s run input
  | _ => True

instance (s : State P E C Q) : (e : Event Sig P) → Decidable (FindsItsDocument s e)
  | .proceed _ _ => inferInstanceAs (Decidable (_ = true))
  | .deliver _ _ _ _ | .takeCommit _ | .takeFails _ | .commit _ | .cancel _ _ _
  | .resume _ _ _ | .confirm _ _ _ | .replaceProfile _ _ | .requestCommit _ | .requestFails _
  | .register _ _ _ _ _ _ | .reprocess _ _ _ | .purge _ _ | .sweep _ => isTrue trivial

structure Unstranded (s : State P E C Q) : Prop where
  coherent : Coherent s
  past : ∀ r run, s.runs.lookup r = some run → run.phase = .ended .returned →
    ∀ row, s.jobs.lookup run.job = some row → row.value.Past run.taken.attempt

theorem past_of_not_owned (hs : Coherent s) (hrun : s.runs.lookup r = some run)
    (ht : run.phase.isTaken = true) (hn : s.ownedJob run = none)
    {row : Versioned IngestionJob} (hrow : s.jobs.lookup run.job = some row) :
    row.value.Past run.taken.attempt := by
  refine (hs.reached r run hrun ht row hrow).past ?_
  simpa [State.ownedJob, hrow] using hn

theorem past_of_committed (hs : Coherent s) (hrun : s.runs.lookup r = some run)
    {write : Write E C Q} {next stale : Phase P E C Q}
    (hp : run.phase = .writing write next stale)
    (hap : Applied s run.document run.job write t) (hn : next = .ended .returned)
    {row : Versioned IngestionJob} (hrow : t.jobs.lookup run.job = some row) :
    row.value.Past run.taken.attempt := by
  have hso := hs.sound r run hrun
  simp only [hp] at hso
  obtain ⟨read, saved, hjob, hse⟩ := hso.1.returned hn
  obtain ⟨hc, ha, hown⟩ := hso.1.own read saved hjob
  rcases hap.jobs with ⟨hno, -⟩ | ⟨other, after, ho, hsa⟩
  · simp [hjob] at hno
  · obtain ⟨rfl, rfl⟩ := Prod.mk.inj (Option.mem_unique hjob ho)
    rw [(saveJob_eq_ok hc hsa).2, AList.lookup_insert] at hrow
    cases hrow
    exact .inr ⟨hown.attempt.trans ha, hse⟩

theorem past_of_rows (hs : Unstranded s) (hro : RowsStep s e t) (i : ℕ) (a : Run P E C Q)
    (ha : s.runs.lookup i = some a) (hr : a.phase = .ended .returned)
    (row : Versioned IngestionJob) (hrow : t.jobs.lookup a.job = some row) :
    row.value.Past a.taken.attempt := by
  rcases hro.jobs a.job row hrow with ⟨old, hold, hl⟩ | had
  · exact hl.keeps (fun _ _ hm hp => hm.1.past hp)
      (hs.past i a ha hr old hold)
  · exact absurd (hs.coherent.known i a ha) had.issued.1

/-- A run that finds its document settles the job it took. -/
theorem step_unstranded (s : State P E C Q) (e : Event Sig P) (t : State P E C Q)
    (hs : Unstranded s) (hok : FindsItsDocument s e) (ht : step cfg ins s e = some t) :
    Unstranded t := by
  refine ⟨step_coherent s e t hs.coherent ht, ?_⟩
  have hold := past_of_rows hs (step_rows hs.coherent ht)
  cases step_runs hs.coherent ht with
  | same hru => exact hru ▸ hold
  | started r run hnew hsr hj hru =>
    rw [hru]
    refine forall_insert (fun hr => ?_) hold
    have hta := hsr.taken
    simp [hr, Phase.isTaken] at hta
  | dropped r run hrun hta hru =>
    rw [hru]
    exact fun i a ha => hold i a (lookup_erase_iff.mp ha).2
  | took r run hrun hta read hre hl hj hru =>
    rw [hru]
    exact forall_insert (fun hr => by cases hr) hold
  | proceeded r run input phase he hrun hta _ ho heq =>
    subst heq he
    refine forall_insert (fun hr row hrow => ?_) hold
    cases ho with
    | returned h =>
      rcases h with hn | hst
      · exact past_of_not_owned hs.coherent hrun hta hn hrow
      · simp only [FindsItsDocument, hrun, Option.all_some, hst, Bool.not_true, Bool.or_false,
          Option.isNone_iff_eq_none] at hok
        exact past_of_not_owned hs.coherent hrun hta hok hrow
    | plain _ hne => exact absurd hr hne
    | writing _ => cases hr
  | committed r run write next stale he hrun hp hap hru =>
    rw [hru]
    refine forall_insert (fun hr row hrow => ?_) hold
    exact past_of_committed hs.coherent hrun hp hap hr hrow
  | conflicted r run write next stale found hrun hp hpl hne heq =>
    subst heq
    exact forall_insert (fun hr => absurd hr hne) hold

theorem unstranded_init : Unstranded (State.init : State P E C Q) :=
  ⟨coherent_init, by simp [State.init]⟩

/-- However runs, registrations, purges and requests interleave: as long as no run that owns
its job finds its document gone, or its event claimed, where it stops without a word, the job
of a run that has returned is not running under that run's attempt. It has come to an end, or
it has gone on to a larger attempt. -/
theorem returned_runs_strand_no_job (cfg : Settings) (ins : Inspector Sig P E C Q)
    (events : List (Event Sig P)) (t : State P E C Q)
    (hguarded : Guarded (step cfg ins) FindsItsDocument State.init events)
    (ht : EventRuns.run (step cfg ins) State.init events = some t) (r : ℕ) (run : Run P E C Q)
    (hrun : t.runs.lookup r = some run) (hreturned : run.phase = .ended .returned)
    (row : Versioned IngestionJob) (hrow : t.jobs.lookup run.job = some row) :
    row.value.owned run.taken.attempt = false ∧
      (row.value.status.isSettled = true ∨ run.taken.attempt < row.value.attempt) := by
  have hp := (run_invariant step_unstranded hguarded ht unstranded_init).past r run hrun
    hreturned row hrow
  refine ⟨hp.not_owned, ?_⟩
  rcases hp with hn | ⟨-, hs⟩
  · exact .inr hn
  · exact .inl hs

end Machine

private def sha : String := "aaaaaaaaaaaaaaaaaaaaaaaaaaaaaaaaaaaaaaaaaaaaaaaaaaaaaaaaaaaaaaaa"

private def started : List (Event ℕ Unit) :=
  [.register "d" "j" "p" "f" [] [], .deliver 0 "j" "e" 0, .takeCommit 0,
    .proceed 0 (.profile ()), .proceed 0 .remaining, .proceed 0 (.staged (.staged sha)),
    .proceed 0 (.openTx 1 false), .commit 0, .proceed 0 (.summary (.ok ⟨1, none, none⟩)),
    .proceed 0 (.openTx 2 false), .commit 0, .proceed 0 .list]

private def cancelAsked : List (Event ℕ Unit) := started ++ [.cancel 0 "j" 3, .requestCommit 0]

private def honoured : List (Event ℕ Unit) :=
  [.proceed 0 .honourDocument, .proceed 0 .honourJob, .proceed 0 (.openTx 4 false), .commit 0]

theorem asked_cancellation_ends_cancelled :
    ∃ s t row later,
      EventRuns.run (step sampleSettings pageCounter) State.init cancelAsked = some s ∧
      EventRuns.run (step sampleSettings pageCounter) s honoured = some t ∧
      s.jobs.lookup "j" = some row ∧ row.value.status = .running ∧
      row.value.cancelRequestedAt ≠ none ∧ t.jobs.lookup "j" = some later ∧
      later.value.status ≠ .succeeded ∧ later.value.status ≠ .awaitingConfirmation := by
  obtain ⟨s, hs, hte⟩ := exists_run_of_any
    (p := fun s : State Unit Unit ℕ ℕ =>
      (s.jobs.lookup "j").any (fun row =>
        row.value.status = .running ∧ row.value.cancelRequestedAt ≠ none) &&
      (EventRuns.run (step sampleSettings pageCounter) s honoured).any fun t =>
        (t.jobs.lookup "j").isSome)
    (show (EventRuns.run (step sampleSettings pageCounter) State.init cancelAsked).any _ = true by
      decide +kernel)
  simp only [Bool.and_eq_true, Option.any_eq_true, decide_eq_true_eq,
    Option.isSome_iff_exists] at hte
  obtain ⟨⟨row, hrow, hr, hc⟩, t, ht, later, hl⟩ := hte
  have hg : Guarded (step sampleSettings pageCounter)
      (NotResumed sampleSettings pageCounter "j") s honoured :=
    guarded_of_forall (by simp [honoured, NotResumed, resumes])
  have hk := accepted_cancellation_is_kept sampleSettings pageCounter cancelAsked honoured s t
    "j" row later hs hrow hr hc hg ht hl
  exact ⟨s, t, row, later, hs, ht, hrow, hr, hc, hl, hk⟩

private def endedReturned : Phase Unit Unit ℕ ℕ → Bool
  | .ended .returned => true
  | _ => false

private def completed : List (Event ℕ Unit) :=
  started ++ [.proceed 0 .honourDocument, .proceed 0 .honourJob, .proceed 0 (.pages (.ok [1])),
    .proceed 0 (.openTx 3 false), .commit 0, .proceed 0 .document, .proceed 0 .evidence,
    .proceed 0 (.openTx 4 false), .commit 0]

/-- The run that reads its one page settles its job. -/
theorem completed_run_strands_no_job :
    ∃ t run row, EventRuns.run (step sampleSettings pageCounter) State.init completed = some t ∧
      t.runs.lookup 0 = some run ∧ run.phase = .ended .returned ∧
      t.jobs.lookup run.job = some row ∧ row.value.owned run.taken.attempt = false := by
  obtain ⟨t, ht, hte⟩ := exists_run_of_any
    (p := fun t : State Unit Unit ℕ ℕ => (t.runs.lookup 0).any fun run =>
      endedReturned run.phase &&
        (t.jobs.lookup run.job).isSome)
    (show (EventRuns.run (step sampleSettings pageCounter) State.init completed).any _ = true by
      decide +kernel)
  simp only [Bool.and_eq_true, Option.any_eq_true, Option.isSome_iff_exists] at hte
  obtain ⟨run, hrun, hp, row, hrow⟩ := hte
  have hr : run.phase = .ended .returned := by
    unfold endedReturned at hp
    split at hp
    · assumption
    · cases hp
  have hg :
      Guarded (step sampleSettings pageCounter) FindsItsDocument State.init completed := by
    decide +kernel
  have hs := returned_runs_strand_no_job sampleSettings pageCounter completed t hg ht 0
    run hrun hr row hrow
  exact ⟨t, run, row, ht, hrun, hr, hrow, hs.1⟩

private def orphaned : List (Event ℕ Unit) :=
  started ++ [.proceed 0 .honourDocument, .proceed 0 .honourJob, .proceed 0 (.pages (.ok [1])),
    .register "d2" "j2" "p" "f2" ["d"] ["f2"], .proceed 0 (.openTx 3 false)]

theorem orphaned_document_strands_its_job :
    ∃ t run row, EventRuns.run (step sampleSettings pageCounter) State.init orphaned = some t ∧
      t.runs.lookup 0 = some run ∧ run.phase = .ended .returned ∧
      t.jobs.lookup run.job = some row ∧ row.value.owned run.taken.attempt = true := by
  obtain ⟨t, ht, hte⟩ := exists_run_of_any
    (p := fun t : State Unit Unit ℕ ℕ => (t.runs.lookup 0).any fun run =>
      endedReturned run.phase &&
        (t.jobs.lookup run.job).any fun row => row.value.owned run.taken.attempt)
    (show (EventRuns.run (step sampleSettings pageCounter) State.init orphaned).any _ = true by
      decide +kernel)
  simp only [Bool.and_eq_true, Option.any_eq_true] at hte
  obtain ⟨run, hrun, hp, row, hrow, ho⟩ := hte
  have hr : run.phase = .ended .returned := by
    unfold endedReturned at hp
    split at hp
    · assumption
    · cases hp
  exact ⟨t, run, row, ht, hrun, hr, hrow, ho⟩

end Aizzak.IngestionEndings
