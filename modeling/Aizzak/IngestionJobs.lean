import Aizzak.EventRuns
import Aizzak.VersionedRows

/-!
The aggregates of the drawing ingestion: a job, the document it is about, and the rows of the
document's pages. A run takes a queued job, or one whose lease has expired, and its attempt is the
token by which it knows that the job is still its own. Every row is saved under its version. What a
stored job can become in one save is said once, by `Move`, and the facts about attempts and
cancellations are read off it.
-/
namespace Aizzak.IngestionJobs

open EventRuns KeyedTables VersionedRows

inductive JobKind where
  | ingest
  | reprocess
deriving DecidableEq

inductive JobStatus where
  | queued
  | running
  | awaitingConfirmation
  | succeeded
  | failed
  | cancelled
deriving DecidableEq

namespace JobStatus

def value : JobStatus → String
  | queued => "queued"
  | running => "running"
  | awaitingConfirmation => "awaiting_confirmation"
  | succeeded => "succeeded"
  | failed => "failed"
  | cancelled => "cancelled"

def isOpen (status : JobStatus) : Bool :=
  status = queued ∨ status = running ∨ status = awaitingConfirmation

def isRequeueable (status : JobStatus) : Bool :=
  status = failed ∨ status = cancelled ∨ status = awaitingConfirmation

def isSettled (status : JobStatus) : Bool := status ≠ queued ∧ status ≠ running

end JobStatus

inductive Stage where
  | classify
deriving DecidableEq

structure IngestionJob where
  documentId : String
  kind : JobKind
  pages : Option (List ℕ)
  status : JobStatus
  stage : Option Stage
  failureCode : Option String
  failureDetail : Option String
  attempt : ℕ
  leaseUntil : Option ℤ
  seq : ℕ
  cancelRequestedAt : Option ℤ
  startedAt : Option ℤ
  finishedAt : Option ℤ
deriving DecidableEq

def maxFailureDetailChars : ℕ := 2000

/-- Instants are microseconds. -/
def seconds (n : ℕ) : ℤ := n * 1000000

def newJob (documentId : String) (kind : JobKind) (pages : Option (List ℕ)) : IngestionJob where
  documentId := documentId
  kind := kind
  pages := pages
  status := .queued
  stage := none
  failureCode := none
  failureDetail := none
  attempt := 1
  leaseUntil := none
  seq := 0
  cancelRequestedAt := none
  startedAt := none
  finishedAt := none

namespace IngestionJob

def isOpen (job : IngestionJob) : Bool := job.status.isOpen

def isStale (job : IngestionJob) (now : ℤ) : Bool :=
  job.status = .running ∧ job.leaseUntil.any (· < now)

def takeLease (job : IngestionJob) (now : ℤ) (leaseS : ℕ) : Option IngestionJob :=
  if job.status = .queued then
    some { job with
      status := .running
      startedAt := some (job.startedAt.getD now)
      leaseUntil := some (now + seconds leaseS) }
  else if job.isStale now then
    some { job with attempt := job.attempt + 1, leaseUntil := some (now + seconds leaseS) }
  else none

def stateError (job : IngestionJob) (what : String) : String :=
  "cannot " ++ what ++ " a job that is " ++ job.status.value

def require (job : IngestionJob) (status : JobStatus) (what : String) : Except String Unit :=
  if job.status = status then .ok () else .error (job.stateError what)

def extendLease (job : IngestionJob) (now : ℤ) (leaseS : ℕ) : Except String IngestionJob :=
  (job.require .running "extend the lease of").map fun _ =>
    { job with leaseUntil := some (now + seconds leaseS) }

/-- The lease ends one tick before now, so that the job is stale now. -/
def releaseLease (job : IngestionJob) (now : ℤ) : Except String IngestionJob :=
  (job.require .running "release the lease of").map fun _ =>
    { job with leaseUntil := some (now - 1) }

def nextSeq (job : IngestionJob) : IngestionJob := { job with seq := job.seq + 1 }

def finish (job : IngestionJob) (now : ℤ) : IngestionJob :=
  { job with leaseUntil := none, finishedAt := some now }

def awaitConfirmation (job : IngestionJob) : Except String IngestionJob :=
  (job.require .running "await confirmation of").map fun _ =>
    { job with status := .awaitingConfirmation, cancelRequestedAt := none, leaseUntil := none }

def requeue (job : IngestionJob) (now : ℤ) : Except String IngestionJob :=
  if job.status.isRequeueable ∨ job.isStale now then
    .ok { job with
      status := .queued
      attempt := job.attempt + 1
      leaseUntil := none
      cancelRequestedAt := none
      failureCode := none
      failureDetail := none
      finishedAt := none }
  else .error (job.stateError "requeue")

def succeed (job : IngestionJob) (now : ℤ) : Except String IngestionJob :=
  (job.require .running "succeed").map fun _ =>
    { job with status := .succeeded, cancelRequestedAt := none }.finish now

def fail (job : IngestionJob) (code detail : String) (now : ℤ) : Except String IngestionJob :=
  (job.require .running "fail").map fun _ =>
    { job with
      status := .failed
      failureCode := some code
      failureDetail := some (String.ofList (detail.toList.take maxFailureDetailChars))
      cancelRequestedAt := none }.finish now

def requestCancel (job : IngestionJob) (now : ℤ) : Except String IngestionJob :=
  (job.require .running "request cancellation of").map fun _ =>
    { job with cancelRequestedAt := some (job.cancelRequestedAt.getD now) }

def cancel (job : IngestionJob) (now : ℤ) (code : Option String) : Except String IngestionJob :=
  if job.isOpen then .ok ({ job with status := .cancelled, failureCode := code }.finish now)
  else .error (job.stateError "cancel")

/-- The run that took the job at this attempt still owns it. -/
def owned (job : IngestionJob) (attempt : ℕ) : Bool :=
  job.status = .running ∧ job.attempt = attempt

/-- What a run writes over a job it owns: the job keeps running, or it has come to an end,
and only a job that nobody asked to cancel succeeds or awaits a confirmation. -/
structure OwnMove (job after : IngestionJob) : Prop where
  same : after.documentId = job.documentId ∧ after.kind = job.kind
  running : job.status = .running
  attempt : after.attempt = job.attempt
  cases : after.status = .running ∧ after.cancelRequestedAt = job.cancelRequestedAt ∨
    after.status = .failed ∨ after.status = .cancelled ∨
    job.cancelRequestedAt = none ∧
      (after.status = .succeeded ∨ after.status = .awaitingConfirmation)

inductive Move (job after : IngestionJob) : Prop where
  | take (now : ℤ) (leaseS : ℕ) (stage : Option Stage) (leased : IngestionJob)
      (htake : job.takeLease now leaseS = some leased)
      (hafter : after = { leased with stage := stage })
  | own (hown : OwnMove job after)
  | cancel (now : ℤ) (code : Option String) (hcancel : job.cancel now code = .ok after)
  | requestCancel (now : ℤ) (hrequest : job.requestCancel now = .ok after)
  | requeue (now : ℤ) (hrequeue : job.requeue now = .ok after)

section Facts

variable {job after : IngestionJob} {now : ℤ} {leaseS attempt : ℕ} {status : JobStatus}
  {what code detail : String}

theorem require_map_ok {f : Unit → IngestionJob}
    (h : (job.require status what).map f = .ok after) : job.status = status ∧ after = f () := by
  unfold require at h
  split_ifs at h with hs
  · exact ⟨hs, (Except.ok.inj h).symm⟩
  · cases h

theorem owned_iff : job.owned attempt = true ↔ job.status = .running ∧ job.attempt = attempt := by
  simp [owned]

variable {leased : IngestionJob}

/-- A lease makes the job running, and taking a running job counts an attempt. -/
theorem takeLease_running (h : job.takeLease now leaseS = some leased) :
    leased.status = .running ∧ leased.cancelRequestedAt = job.cancelRequestedAt ∧
      (job.status = .queued ∧ leased.attempt = job.attempt ∨
        job.status = .running ∧ leased.attempt = job.attempt + 1) := by
  unfold takeLease at h
  split_ifs at h with hq hs
  · cases h
    exact ⟨rfl, rfl, .inl ⟨hq, rfl⟩⟩
  · cases h
    have hr : job.status = .running := by
      simp only [isStale, decide_eq_true_eq] at hs
      exact hs.1
    exact ⟨hr, rfl, .inr ⟨hr, rfl⟩⟩

theorem requeue_queued (h : job.requeue now = .ok after) :
    after.status = .queued ∧ after.attempt = job.attempt + 1 := by
  unfold requeue at h
  split_ifs at h
  cases h
  exact ⟨rfl, rfl⟩

theorem requeue_same (h : job.requeue now = .ok after) :
    after.documentId = job.documentId ∧ after.kind = job.kind := by
  unfold requeue at h
  split_ifs at h
  cases h
  exact ⟨rfl, rfl⟩

variable {reason : Option String}

theorem cancel_cancelled (h : job.cancel now reason = .ok after) :
    job.isOpen = true ∧ after.status = .cancelled ∧ after.attempt = job.attempt := by
  unfold cancel at h
  split_ifs at h with ho
  cases h
  exact ⟨ho, rfl, rfl⟩

theorem cancel_same (h : job.cancel now reason = .ok after) :
    after.documentId = job.documentId ∧ after.kind = job.kind := by
  unfold cancel at h
  split_ifs at h
  cases h
  exact ⟨rfl, rfl⟩

theorem takeLease_same (h : job.takeLease now leaseS = some leased) :
    leased.documentId = job.documentId ∧ leased.kind = job.kind := by
  unfold takeLease at h
  split_ifs at h
  · cases h
    exact ⟨rfl, rfl⟩
  · cases h
    exact ⟨rfl, rfl⟩

theorem requestCancel_running (h : job.requestCancel now = .ok after) :
    job.status = .running ∧ after.status = .running ∧ after.attempt = job.attempt ∧
      after.cancelRequestedAt ≠ none := by
  obtain ⟨hr, rfl⟩ := require_map_ok h
  exact ⟨hr, hr, rfl, by simp⟩

theorem extendLease_own (h : job.extendLease now leaseS = .ok after) : OwnMove job after := by
  obtain ⟨hr, rfl⟩ := require_map_ok h
  exact ⟨⟨rfl, rfl⟩, hr, rfl, .inl ⟨hr, rfl⟩⟩

theorem releaseLease_own (h : job.releaseLease now = .ok after) : OwnMove job after := by
  obtain ⟨hr, rfl⟩ := require_map_ok h
  exact ⟨⟨rfl, rfl⟩, hr, rfl, .inl ⟨hr, rfl⟩⟩

theorem fail_own (h : job.fail code detail now = .ok after) :
    OwnMove job after ∧ after.status = .failed := by
  obtain ⟨hr, rfl⟩ := require_map_ok h
  exact ⟨⟨⟨rfl, rfl⟩, hr, rfl, .inr (.inl rfl)⟩, rfl⟩

theorem cancel_own (hr : job.status = .running) (h : job.cancel now reason = .ok after) :
    OwnMove job after ∧ after.status = .cancelled := by
  obtain ⟨-, hc, ha⟩ := cancel_cancelled h
  exact ⟨⟨cancel_same h, hr, ha, .inr (.inr (.inl hc))⟩, hc⟩

theorem succeed_own (hc : job.cancelRequestedAt = none) (h : job.succeed now = .ok after) :
    OwnMove job after ∧ after.status = .succeeded := by
  obtain ⟨hr, rfl⟩ := require_map_ok h
  exact ⟨⟨⟨rfl, rfl⟩, hr, rfl, .inr (.inr (.inr ⟨hc, .inl rfl⟩))⟩, rfl⟩

theorem awaitConfirmation_own (hc : job.cancelRequestedAt = none)
    (h : job.awaitConfirmation = .ok after) :
    OwnMove job after ∧ after.status = .awaitingConfirmation := by
  obtain ⟨hr, rfl⟩ := require_map_ok h
  exact ⟨⟨⟨rfl, rfl⟩, hr, rfl, .inr (.inr (.inr ⟨hc, .inr rfl⟩))⟩, rfl⟩

theorem OwnMove.not_queued (h : OwnMove job after) : after.status ≠ .queued := by
  rcases h.cases with ⟨hs, -⟩ | hs | hs | ⟨-, hs | hs⟩ <;> simp [hs]

namespace Move

theorem same (h : Move job after) : after.documentId = job.documentId ∧ after.kind = job.kind := by
  cases h with
  | take _ _ _ _ ht ha =>
    subst ha
    obtain ⟨hd, hk⟩ := takeLease_same ht
    exact ⟨hd, hk⟩
  | own hown => exact hown.same
  | cancel _ _ hc => exact cancel_same hc
  | requestCancel _ hr =>
    obtain ⟨-, rfl⟩ := require_map_ok hr
    exact ⟨rfl, rfl⟩
  | requeue _ hre => exact requeue_same hre

/-- No move takes an attempt back. -/
theorem attempt_le (h : Move job after) : job.attempt ≤ after.attempt := by
  cases h with
  | take _ _ _ _ ht ha =>
    subst ha
    rcases (takeLease_running ht).2.2 with ⟨-, heq⟩ | ⟨-, heq⟩ <;> simp [heq]
  | own hown => exact Nat.le_of_eq hown.attempt.symm
  | cancel _ _ hc => exact Nat.le_of_eq (cancel_cancelled hc).2.2.symm
  | requestCancel _ hr => exact Nat.le_of_eq (requestCancel_running hr).2.2.1.symm
  | requeue _ hre =>
    have heq := (requeue_queued hre).2
    omega

/-- A job goes back to the queue only under a new attempt. -/
theorem attempt_lt_of_queued (h : Move job after) (hq : after.status = .queued) :
    job.attempt < after.attempt := by
  cases h with
  | take _ _ _ _ ht ha =>
    subst ha
    simp [(takeLease_running ht).1] at hq
  | own hown => exact absurd hq hown.not_queued
  | cancel _ _ hc => simp [(cancel_cancelled hc).2.1] at hq
  | requestCancel _ hr => simp [(requestCancel_running hr).2.1] at hq
  | requeue _ hre =>
    have heq := (requeue_queued hre).2
    omega

/-- A settled job is reopened under a new attempt only. -/
theorem settled_or_newer (h : Move job after) (hs : job.status.isSettled = true) :
    after.status.isSettled = true ∨ job.attempt < after.attempt := by
  simp only [JobStatus.isSettled, decide_eq_true_eq] at hs
  cases h with
  | take _ _ _ _ ht ha =>
    rcases (takeLease_running ht).2.2 with ⟨hq, -⟩ | ⟨hr, -⟩
    · exact absurd hq hs.1
    · exact absurd hr hs.2
  | own hown => exact absurd hown.running hs.2
  | cancel _ _ hc =>
    left
    rw [(cancel_cancelled hc).2.1]
    rfl
  | requestCancel _ hre => exact absurd (requestCancel_running hre).1 hs.2
  | requeue _ hrq =>
    right
    have heq := (requeue_queued hrq).2
    omega

end Move

def Reached (job : IngestionJob) (attempt : ℕ) : Prop :=
  attempt ≤ job.attempt ∧ (job.attempt = attempt → job.status ≠ .queued)

def Past (job : IngestionJob) (attempt : ℕ) : Prop :=
  attempt < job.attempt ∨ job.attempt = attempt ∧ job.status.isSettled = true

theorem Move.reached (h : Move job after) (hjob : job.Reached attempt) :
    after.Reached attempt := by
  have hle := h.attempt_le
  refine ⟨Nat.le_trans hjob.1 hle, ?_⟩
  intro heq hq
  have hlt := h.attempt_lt_of_queued hq
  have hr := hjob.1
  omega

/-- An attempt that is past stays past. -/
theorem Move.past (h : Move job after) (hjob : job.Past attempt) : after.Past attempt := by
  have hle := h.attempt_le
  rcases hjob with hlt | ⟨heq, hs⟩
  · exact .inl (lt_of_lt_of_le hlt hle)
  · rcases h.settled_or_newer hs with hst | hn
    · rcases Nat.lt_or_eq_of_le hle with hlt | hsa
      · exact .inl (heq ▸ hlt)
      · exact .inr ⟨hsa ▸ heq, hst⟩
    · exact .inl (heq ▸ hn)

theorem Reached.past (h : job.Reached attempt) (ho : job.owned attempt = false) :
    job.Past attempt := by
  rcases Nat.lt_or_eq_of_le h.1 with hlt | heq
  · exact .inl hlt
  · have hr : job.status ≠ .running := by
      intro hs
      simp [owned, hs, heq] at ho
    refine .inr ⟨heq.symm, ?_⟩
    simp [JobStatus.isSettled, h.2 heq.symm, hr]

theorem Reached.lt_of_takeLease (h : job.Reached attempt)
    (ht : job.takeLease now leaseS = some leased) : attempt < leased.attempt := by
  have hle := h.1
  rcases (takeLease_running ht).2.2 with ⟨hq, heq⟩ | ⟨-, heq⟩
  · have hne : job.attempt ≠ attempt := fun hs => h.2 hs hq
    omega
  · omega

theorem Past.not_owned (h : job.Past attempt) : job.owned attempt = false := by
  rcases h with hlt | ⟨-, hs⟩
  · simp [owned]
    omega
  · simp only [JobStatus.isSettled, decide_eq_true_eq] at hs
    simp [owned, hs.2]

def CancelHeld (job : IngestionJob) : Prop :=
  job.status = .running ∧ job.cancelRequestedAt ≠ none ∨ job.status = .failed ∨
    job.status = .cancelled

/-- Short of going back to the queue, a job keeps its cancellation. -/
theorem Move.cancelHeld (h : Move job after) (hh : CancelHeld job)
    (hq : after.status ≠ .queued) : CancelHeld after := by
  have hr : job.status = .running → job.cancelRequestedAt ≠ none := by
    intro hst
    rcases hh with ⟨-, hca⟩ | hf | hc
    · exact hca
    · simp [hst] at hf
    · simp [hst] at hc
  cases h with
  | take _ _ _ _ ht ha =>
    subst ha
    obtain ⟨hl, hca, ⟨hold, -⟩ | ⟨hold, -⟩⟩ := takeLease_running ht
    · rcases hh with ⟨hs, -⟩ | hs | hs <;> simp [hs] at hold
    · exact .inl ⟨hl, hca ▸ hr hold⟩
  | own hown =>
    have hca := hr hown.running
    rcases hown.cases with ⟨hs, hsa⟩ | hs | hs | ⟨hn, -⟩
    · exact .inl ⟨hs, hsa ▸ hca⟩
    · exact .inr (.inl hs)
    · exact .inr (.inr hs)
    · exact absurd hn hca
  | cancel _ _ hca => exact .inr (.inr (cancel_cancelled hca).2.1)
  | requestCancel _ hre =>
    obtain ⟨-, hst, -, hca⟩ := requestCancel_running hre
    exact .inl ⟨hst, hca⟩
  | requeue _ hrq => exact absurd (requeue_queued hrq).1 hq

end Facts

end IngestionJob

inductive DocumentStatus where
  | active
  | excluded
  | purging
deriving DecidableEq

def DocumentStatus.value : DocumentStatus → String
  | .active => "active"
  | .excluded => "excluded"
  | .purging => "purging"

inductive ExclusionReason where
  | fileUnreadable
  | duplicateContent
deriving DecidableEq

inductive ProfileState where
  | none
  | proposed
  | accepted
  | confirmed
deriving DecidableEq

structure Document where
  projectId : String
  fileId : String
  status : DocumentStatus
  exclusionReason : Option ExclusionReason
  contentSha256 : Option String
  pageCount : Option ℕ
  pdfCreator : Option String
  pdfProducer : Option String
  profileState : ProfileState
deriving DecidableEq

def newDocument (projectId fileId : String) : Document where
  projectId := projectId
  fileId := fileId
  status := .active
  exclusionReason := none
  contentSha256 := none
  pageCount := none
  pdfCreator := none
  pdfProducer := none
  profileState := .none

def isSha256 (text : String) : Bool :=
  text.toList.length == 64 && text.toList.all fun c => "0123456789abcdef".toList.contains c

namespace Document

def isLive (document : Document) : Bool := document.status = .active

def exclude (document : Document) (reason : ExclusionReason) : Except String Document :=
  if document.status = .active then
    .ok { document with status := .excluded, exclusionReason := some reason }
  else .error ("cannot exclude a document that is " ++ document.status.value)

def markPurging (document : Document) : Option Document :=
  if document.status = .purging then none
  else some { document with status := .purging, exclusionReason := none }

def requireLive (document : Document) (what : String) : Except String Unit :=
  if document.isLive then .ok ()
  else .error ("cannot " ++ what ++ ": the document is " ++ document.status.value)

def recordInspection (document : Document) (sha256 : String) (pageCount : ℕ)
    (creator producer : Option String) : Except String Document := do
  document.requireLive "record an inspection"
  if isSha256 sha256 then
    .ok { document with
      contentSha256 := some sha256
      pageCount := some pageCount
      pdfCreator := creator
      pdfProducer := producer }
  else .error "sha256 must be 64 lower-case hexadecimal characters"

def setProfileState (document : Document) (state : ProfileState) : Except String Document :=
  (document.requireLive "change its profile state").map fun _ =>
    { document with profileState := state }

end Document

end Aizzak.IngestionJobs
