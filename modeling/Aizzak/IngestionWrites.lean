import Aizzak.IngestionRuns

/-!
What one run may write. A run in a transaction has read a job that it owned, and what it saves
over it is one of the moves of an owner; it returns only when it has brought the job to an end
or does not own it any more, unless it finds its document gone or its event claimed at one of
three places where it stops without a word.
-/
namespace Aizzak.IngestionWrites

open EventRuns KeyedTables VersionedRows IngestionJobs IngestionRuns Option
open IngestionJob (OwnMove Move)

theorem saveJob_eq_ok {jobs after : Jobs} {id : String} {read : Versioned IngestionJob}
    {job : IngestionJob} (hc : Current jobs id read)
    (h : saveJob jobs id read job = .ok after) :
    jobs.lookup id = some read ∧ after = jobs.insert id ⟨job, read.version + 1⟩ := by
  unfold saveJob at h
  split at h
  · cases h
  · rename_i saved hs
    split_ifs at h
    cases h
    exact hc.save_eq_some hs

theorem openFor_eq_some {jobs : Jobs} {document id : String} {row : Versioned IngestionJob}
    (h : openFor jobs document = some (id, row)) :
    jobs.lookup id = some row ∧ row.value.isOpen = true ∧ row.value.documentId = document := by
  obtain ⟨key, -, hkey⟩ := List.exists_of_findSome?_eq_some h
  obtain ⟨found, hf, ht⟩ := bind_eq_some_iff.mp hkey
  split_ifs at ht with ho
  obtain ⟨rfl, rfl⟩ := Prod.mk.inj (some.inj ht)
  exact ⟨hf, ho⟩

theorem map_eq_ok {ε α β : Type} {moved : Except ε α} {f : α → β} {b : β}
    (h : moved.map f = .ok b) : ∃ a, moved = .ok a ∧ f a = b := by
  cases moved with
  | error _ => cases h
  | ok a => exact ⟨a, rfl, Except.ok.inj h⟩

theorem bind_eq_ok {ε α β : Type} {moved : Except ε α} {f : α → Except ε β} {b : β}
    (h : moved.bind f = .ok b) : ∃ a, moved = .ok a ∧ f a = .ok b := by
  cases moved with
  | error _ => cases h
  | ok a => exact ⟨a, rfl, h⟩

def Leased (read taken : IngestionJob) : Prop :=
  ∃ now leaseS stage before, read.takeLease now leaseS = some before ∧
    taken = { before with stage := stage }

theorem Leased.running {read taken : IngestionJob} (h : Leased read taken) :
    taken.status = .running := by
  obtain ⟨now, leaseS, stage, before, hl, rfl⟩ := h
  exact (IngestionJob.takeLease_running hl).1

section Machine

variable {Sig P E C Q : Type}

theorem lockLive_eq_some {s : State P E C Q} {document : String} {row : Versioned Document}
    (h : s.lockLive document = some row) :
    s.documents.lookup document = some row ∧ row.value.isLive = true :=
  filter_eq_some_iff.mp h

theorem ownedJob_eq_some {s : State P E C Q} {run : Run P E C Q} {row : Versioned IngestionJob}
    (h : s.ownedJob run = some row) :
    s.jobs.lookup run.job = some row ∧ row.value.owned run.taken.attempt = true :=
  filter_eq_some_iff.mp h

def isPlain : Phase P E C Q → Bool
  | .taking _ _ | .dropping _ _ | .writing _ _ _ => false
  | _ => true

/-- What a transaction of a run saves, it saves over a job the run owned when it was read;
page results go with the job, and a run returns only with the job settled. -/
structure SoundWrite (jobs : Jobs) (job : String) (attempt : ℕ) (write : Write E C Q)
    (next : Phase P E C Q) : Prop where
  own : ∀ read saved, write.job = some (read, saved) →
    Current jobs job read ∧ read.value.attempt = attempt ∧ OwnMove read.value saved
  results : write.job = none → write.results = []
  returned : next = .ended .returned →
    ∃ read saved, write.job = some (read, saved) ∧ saved.status.isSettled = true

def Sound (jobs : Jobs) (job : String) (taken : IngestionJob) : Phase P E C Q → Prop
  | .taking read leased => Current jobs job read ∧ leased = taken ∧ Leased read.value leased
  | .dropping read cancelled => Current jobs job read ∧
      ∃ now code, read.value.cancel now code = .ok cancelled
  | .writing write next stale => SoundWrite jobs job taken.attempt write next ∧
      isPlain next = true ∧ isPlain stale = true ∧ stale ≠ .ended .returned
  | _ => True

theorem sound_of_plain {jobs : Jobs} {job : String} {taken : IngestionJob}
    {phase : Phase P E C Q} (h : isPlain phase = true) : Sound jobs job taken phase := by
  cases phase <;> trivial

/-- Where a run stops without a word although it owns its job: its document is not live, or
its event has been claimed. -/
def strands (s : State P E C Q) (run : Run P E C Q) : Input Sig P → Bool
  | .openTx _ _ =>
    match run.phase with
    | .duplicate _ | .committing _ _ => (s.lockLive run.document).isNone
    | .concluding _ _ _ => (s.lockLive run.document).isNone || run.event ∈ s.processed
    | _ => false
  | .document =>
    match run.phase with
    | .gathering _ => run.document ∉ s.documents
    | _ => false
  | _ => false

inductive Opened (s : State P E C Q) (run : Run P E C Q) (stranded : Bool) :
    Phase P E C Q → Prop where
  | returned (h : s.ownedJob run = none ∨ stranded = true) :
      Opened s run stranded (.ended .returned)
  | plain {phase : Phase P E C Q} (hplain : isPlain phase = true)
      (hne : phase ≠ .ended .returned) : Opened s run stranded phase
  | writing {write : Write E C Q} {next stale : Phase P E C Q}
      (hsound : Sound s.jobs run.job run.taken (.writing write next stale)) :
      Opened s run stranded (.writing write next stale)

section Transactions

variable {cfg : Settings} {ins : Inspector Sig P E C Q} {s : State P E C Q} {run : Run P E C Q}
  {stranded : Bool} {read : Versioned IngestionJob} {next : Phase P E C Q} {now : ℤ} {base : P}
  {sha256 : String}

theorem owned_running (hr : s.ownedJob run = some read) : read.value.status = .running :=
  (IngestionJob.owned_iff.mp (ownedJob_eq_some hr).2).1

/-- A transaction over an owned job is sound. -/
theorem soundWrite_of_owned (hre : s.ownedJob run = some read) {saved : IngestionJob}
    {write : Write E C Q} (hjob : write.job = some (read, saved))
    (hm : OwnMove read.value saved)
    (hr : next = .ended .returned → saved.status.isSettled = true) :
    SoundWrite s.jobs run.job run.taken.attempt write next := by
  obtain ⟨hl, ho⟩ := ownedJob_eq_some hre
  refine ⟨?_, ?_, fun h => ⟨read, saved, hjob, hr h⟩⟩
  · intro other after hot
    obtain ⟨rfl, rfl⟩ := Prod.mk.inj (mem_unique hjob hot)
    exact ⟨current_of_lookup hl, (IngestionJob.owned_iff.mp ho).2, hm⟩
  · intro hn
    simp [hjob] at hn

theorem soundWrite_of_none {write : Write E C Q} (hjob : write.job = none)
    (hr : write.results = []) (hn : next ≠ .ended .returned) :
    SoundWrite s.jobs run.job run.taken.attempt write next :=
  ⟨by simp [hjob], fun _ => hr, fun h => absurd h hn⟩

theorem saving_opened {moved : Except String IngestionJob} {write : IngestionJob → Write E C Q}
    (hp : isPlain next = true)
    (hw : ∀ job, moved = .ok job →
      SoundWrite s.jobs run.job run.taken.attempt (write job) next) :
    Opened s run stranded (saving moved write next) := by
  cases moved with
  | ok job => exact .writing ⟨hw job rfl, hp, rfl, by simp [Phase.faulted]⟩
  | error _ => exact .plain rfl (by simp [saving, Phase.faulted])

theorem ending_opened (hr : s.ownedJob run = some read)
    {moved : Except String IngestionJob} {write : IngestionJob → Write E C Q}
    (hjob : ∀ job, (write job).job = some (read, job))
    (hm : ∀ job, moved = .ok job →
      OwnMove read.value job ∧ job.status.isSettled = true) :
    Opened s run stranded (saving moved write (.ended .returned)) := by
  refine saving_opened rfl fun job hok => ?_
  obtain ⟨hown, hs⟩ := hm job hok
  exact soundWrite_of_owned hr (hjob job) hown fun _ => hs

theorem cancel_ends (hr : s.ownedJob run = some read) {code : Option String}
    (job : IngestionJob) (h : read.value.cancel now code = .ok job) :
    OwnMove read.value job ∧ job.status.isSettled = true := by
  obtain ⟨hown, hs⟩ := IngestionJob.cancel_own (owned_running hr) h
  exact ⟨hown, by rw [hs]; rfl⟩

theorem fail_ends {code detail : String} (job : IngestionJob)
    (h : read.value.fail code detail now = .ok job) :
    OwnMove read.value job ∧ job.status.isSettled = true := by
  obtain ⟨hown, hs⟩ := IngestionJob.fail_own h
  exact ⟨hown, by rw [hs]; rfl⟩

theorem returned_of_missing (hs : stranded = (s.lockLive run.document).isNone)
    (h : ∀ row read, s.lockLive run.document = some row → s.ownedJob run = some read → False) :
    s.ownedJob run = none ∨ stranded = true := by
  cases hr : s.ownedJob run with
  | none => exact .inl rfl
  | some read =>
    cases hrow : s.lockLive run.document with
    | none => exact .inr (by simp [hs, hrow])
    | some row => exact absurd hr fun hr => h row read hrow hr

theorem tryRecord_opened : Opened s run stranded (tryRecord s run base sha256) := by
  unfold tryRecord
  split
  · exact .plain rfl (by simp)
  · split_ifs
    · exact .plain rfl (by simp)
    · exact .plain rfl (by simp)
    · split
      · exact .writing ⟨soundWrite_of_none rfl rfl (by simp), rfl, rfl, by simp [Phase.faulted]⟩
      · exact .plain rfl (by simp [Phase.faulted])

theorem seedPages_opened {summary : PdfSummary} :
    Opened s run stranded (seedPages s run base sha256 summary) := by
  unfold seedPages
  split
  · exact .plain rfl (by simp)
  · split
    · exact .writing ⟨soundWrite_of_none rfl rfl (by simp), rfl, rfl, by simp [Phase.faulted]⟩
    · exact .plain rfl (by simp [Phase.faulted])

theorem honourCancel_opened : Opened s run stranded (honourCancel s run now) := by
  unfold honourCancel
  split
  · rename_i hn
    exact .returned (.inl hn)
  · rename_i read hr
    exact ending_opened hr (fun _ => rfl) (cancel_ends hr)

theorem stopNotLive_opened : Opened s run stranded (stopNotLive s run now) := by
  unfold stopNotLive
  split
  · rename_i hn
    exact .returned (.inl hn)
  · rename_i read hr
    exact ending_opened hr (fun _ => rfl) (cancel_ends hr)

theorem failJob_opened {code detail : String} :
    Opened s run stranded (failJob s run code detail now) := by
  unfold failJob
  split
  · rename_i hn
    exact .returned (.inl hn)
  · rename_i read hr
    exact ending_opened hr (fun _ => rfl) fail_ends

theorem afterReply_plain (base : P) (batch : Batch E) :
    isPlain (Phase.afterReply base batch : Phase P E C Q) = true ∧
      (Phase.afterReply base batch : Phase P E C Q) ≠ .ended .returned := by
  unfold Phase.afterReply
  split_ifs
  · exact ⟨rfl, by simp⟩
  · exact ⟨rfl, by simp⟩

theorem afterBatch_plain (base : P) (batch : Batch E) (emitted : Bool) :
    isPlain (afterBatch base batch emitted : Phase P E C Q) = true ∧
      (afterBatch base batch emitted : Phase P E C Q) ≠ .ended .returned := by
  unfold afterBatch
  split_ifs
  · exact ⟨rfl, by simp⟩
  · exact ⟨rfl, by simp⟩

variable {batch : Batch E}

theorem keepLease_opened :
    Opened s run stranded (keepLease cfg s run base batch now) := by
  unfold keepLease
  split
  · rename_i hn
    exact .returned (.inl hn)
  · rename_i read hr
    obtain ⟨hp, hne⟩ := afterReply_plain (C := C) (Q := Q) base batch
    refine saving_opened hp fun job hok => ?_
    exact soundWrite_of_owned hr rfl (IngestionJob.extendLease_own hok) fun h => absurd h hne

/-- The transaction of a batch is sound or ends the run. -/
theorem commitBatch_opened {elapsed : Bool}
    (hs : stranded = (s.lockLive run.document).isNone) :
    Opened s run stranded (commitBatch cfg s run base batch now elapsed) := by
  unfold commitBatch
  split
  · rename_i row read hrow hre
    obtain ⟨hp, hne⟩ := afterBatch_plain (C := C) (Q := Q) base batch
      (batch.emitted || (!batch.emitted || elapsed || batch.rest.isEmpty))
    refine saving_opened hp fun job hok => ?_
    refine soundWrite_of_owned hre rfl ?_ fun h => absurd h hne
    obtain ⟨extended, hextend, rfl⟩ := map_eq_ok hok
    obtain ⟨hsa, hr, ha, hc⟩ := IngestionJob.extendLease_own hextend
    split_ifs
    · exact ⟨hsa, hr, ha, hc⟩
    · exact ⟨hsa, hr, ha, hc⟩
  · rename_i hn
    exact .returned (returned_of_missing hs hn)

theorem excludeDuplicate_opened (hs : stranded = (s.lockLive run.document).isNone) :
    Opened s run stranded (excludeDuplicate s run sha256 now) := by
  unfold excludeDuplicate
  split
  · rename_i row read hrow hr
    simp only
    split
    · exact ending_opened hr (fun _ => rfl) fail_ends
    · exact .plain rfl (by simp [Phase.faulted])
  · rename_i hn
    exact .returned (returned_of_missing hs hn)

/-- Concluding an owned job that nobody cancelled opens a sound transaction. -/
theorem settle_opened {record : C} {proposal : Q} {row : Versioned Document}
    (hr : s.ownedJob run = some read) (hc : read.value.cancelRequestedAt = none) :
    Opened s run stranded (settle ins base record proposal row read now) := by
  have hs : ∀ job, read.value.succeed now = .ok job →
      OwnMove read.value job ∧ job.status.isSettled = true := by
    intro job hok
    obtain ⟨hown, hst⟩ := IngestionJob.succeed_own hc hok
    exact ⟨hown, by rw [hst]; rfl⟩
  have ha : ∀ job, read.value.awaitConfirmation = .ok job →
      OwnMove read.value job ∧ job.status.isSettled = true := by
    intro job hok
    obtain ⟨hown, hst⟩ := IngestionJob.awaitConfirmation_own hc hok
    exact ⟨hown, by rw [hst]; rfl⟩
  unfold settle
  split_ifs
  · exact ending_opened hr (fun _ => rfl) hs
  · simp only
    split
    · refine ending_opened hr (fun _ => rfl) fun job hok => ?_
      split_ifs at hok
      · exact hs job hok
      · exact ha job hok
    · exact .plain rfl (by simp [Phase.faulted])

/-- A run concludes soundly, or its document is gone. -/
theorem conclude_opened {record : C} {proposal : Q}
    (hs : stranded =
      ((s.lockLive run.document).isNone || decide (run.event ∈ s.processed))) :
    Opened s run stranded (conclude ins s run base record proposal now) := by
  unfold conclude
  split_ifs with hc
  · exact .returned (.inr (by simp [hs, hc]))
  · split
    · rename_i row read hrow hr
      split_ifs with hca
      · exact ending_opened hr (fun _ => rfl) (cancel_ends hr)
      · exact settle_opened hr (by simpa using hca)
    · rename_i hn
      exact .returned (returned_of_missing (by simp [hs, hc]) hn)

theorem releaseLease_opened {tries : ℕ} : Opened s run stranded (releaseLease s run tries now) := by
  unfold releaseLease
  split
  · exact .plain rfl (by simp)
  · rename_i read hr
    split
    · rename_i job hok
      refine .writing ⟨?_, rfl, ?_, ?_⟩
      · exact soundWrite_of_owned hr rfl (IngestionJob.releaseLease_own hok) (by simp)
      · split_ifs <;> rfl
      · split_ifs <;> simp
    · exact .plain rfl (by simp)

variable {r : ℕ} {phase : Phase P E C Q}

/-- A run opens sound transactions only. -/
theorem openTx_opened {elapsed : Bool} (h : openTx cfg ins s r run now elapsed = some phase) :
    Opened s run (strands s run (.openTx now elapsed : Input Sig P)) phase := by
  unfold openTx at h
  unfold strands
  split at h
  · exact some.inj h ▸ tryRecord_opened
  · rename_i hp
    exact some.inj h ▸ excludeDuplicate_opened (by simp [hp])
  · exact some.inj h ▸ seedPages_opened
  · exact some.inj h ▸ honourCancel_opened
  · exact some.inj h ▸ keepLease_opened
  · rename_i hp
    exact some.inj h ▸ commitBatch_opened (by simp [hp])
  · rename_i hp
    split_ifs at h
    exact some.inj h ▸ conclude_opened (by simp [hp])
  · exact some.inj h ▸ failJob_opened
  · exact some.inj h ▸ stopNotLive_opened
  · exact some.inj h ▸ releaseLease_opened
  · cases h

theorem answerPages_opened {reply : Except ParseFailure (List Sig)}
    (h : answerPages ins base batch reply = some phase) :
    Opened s run stranded phase := by
  have ha : ∀ b : Batch E, Opened s run stranded (Phase.afterReply base b) := fun b =>
    .plain (afterReply_plain base b).1 (afterReply_plain base b).2
  unfold answerPages at h
  split at h
  · split at h
    · exact some.inj h ▸ .plain rfl (by simp)
    · exact some.inj h ▸ .plain rfl (by simp)
    · exact some.inj h ▸ .plain rfl (by simp)
  · split at h
    · exact some.inj h ▸ ha _
    · exact some.inj h ▸ ha _
    · exact some.inj h ▸ .plain rfl (by simp)
  · cases h

theorem answerSummary_opened (reply : Except ParseFailure PdfSummary) :
    Opened s run stranded (answerSummary cfg base sha256 reply) := by
  unfold answerSummary
  split
  · split_ifs
    · exact .plain rfl (by simp)
    · exact .plain rfl (by simp)
  · split
    · exact .plain rfl (by simp)
    · exact .plain rfl (by simp [Phase.faulted])
  · exact .plain rfl (by simp)

theorem honourJob_opened {todo : List ℕ} {emitted live : Bool} :
    Opened s run stranded (honourJob cfg s run base todo emitted live) := by
  unfold honourJob
  split
  · rename_i hn
    exact .returned (.inl hn)
  · split_ifs
    · exact .plain rfl (by simp)
    · exact .plain rfl (by simp)
    · exact .plain rfl (by simp)

/-- A run goes on without writing, or opens a sound transaction. -/
theorem proceed_opened {input : Input Sig P} (h : proceed cfg ins s r run input = some phase) :
    Opened s run (strands s run input) phase := by
  cases input with
  | openTx now elapsed => exact openTx_opened h
  | profile base =>
    simp only [proceed] at h
    split at h
    · exact some.inj h ▸ .plain rfl (by simp)
    · cases h
  | remaining =>
    simp only [proceed] at h
    split at h
    · split_ifs at h
      · exact some.inj h ▸ .plain rfl (by simp)
      · exact some.inj h ▸ .plain rfl (by simp)
    · cases h
  | staged result =>
    simp only [proceed] at h
    split at h
    · cases h
      cases result with
      | unreadable | fails _ | staged _ => exact .plain rfl (by simp [answerStaging])
    · cases h
  | summary reply =>
    simp only [proceed] at h
    split at h
    · exact some.inj h ▸ answerSummary_opened reply
    · cases h
  | list =>
    simp only [proceed] at h
    split at h
    · cases h
      split_ifs
      · exact .plain rfl (by simp)
      · exact .plain rfl (by simp)
    · cases h
  | honourDocument =>
    simp only [proceed] at h
    split at h
    · exact some.inj h ▸ .plain rfl (by simp)
    · cases h
  | honourJob =>
    simp only [proceed] at h
    split at h
    · exact some.inj h ▸ honourJob_opened
    · cases h
  | pages reply =>
    simp only [proceed] at h
    split at h
    · exact answerPages_opened h
    · cases h
  | document =>
    simp only [proceed] at h
    split at h
    · rename_i hp
      split at h
      · exact some.inj h ▸ .plain rfl (by simp)
      · rename_i hn
        refine some.inj h ▸ .returned (.inr ?_)
        simp [strands, hp, ← AList.lookup_eq_none, hn]
    · cases h
  | evidence =>
    simp only [proceed] at h
    split at h
    · exact some.inj h ▸ .plain rfl (by simp)
    · cases h
  | fault =>
    simp only [proceed, Phase.fault] at h
    split at h
    · cases h
    · cases h
    · cases h
    · exact some.inj h ▸ .plain rfl (by simp)
    · exact some.inj h ▸ .plain rfl (by simp)
    · exact some.inj h ▸ .plain rfl (by simp [Phase.faulted])
  | crash =>
    simp only [proceed, Phase.crash] at h
    split at h
    · cases h
    · cases h
    · cases h
    · exact some.inj h ▸ .plain rfl (by simp)

theorem proceed_isTaken {input : Input Sig P} (h : proceed cfg ins s r run input = some phase) :
    run.phase.isTaken = true := by
  cases hp : run.phase with
  | taking _ _ | dropping _ _ =>
    cases input <;>
      simp [proceed, openTx, hp, Phase.fault, Phase.crash] at h
  | _ => rfl

theorem Opened.sound (h : Opened s run stranded phase) :
    Sound s.jobs run.job run.taken phase := by
  cases h with
  | returned _ => trivial
  | plain hp _ => exact sound_of_plain hp
  | writing hs => exact hs

theorem isTaken_of_plain (h : isPlain phase = true) :
    phase.isTaken = true := by
  cases phase <;> trivial

theorem Opened.isTaken (h : Opened s run stranded phase) : phase.isTaken = true := by
  cases h with
  | returned _ => rfl
  | plain hp _ => exact isTaken_of_plain hp
  | writing _ => rfl

end Transactions

end Machine

end Aizzak.IngestionWrites
