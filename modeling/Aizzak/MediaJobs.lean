import Aizzak.Conversations
import Aizzak.EventRuns

/-!
Media generation jobs and the deliveries that run them. A job is queued together with the event
that asks for it. Every delivery of the event stores the job as running, generates outside any
transaction, and ends in one transaction: the claim of the event, the terminal status and the
event that announces it. A transaction holds its claim and the row it has updated until it
commits, and whoever needs them waits.
-/
namespace Aizzak.MediaJobs

open EventRuns KeyedTables VersionedRows PyText
open Conversations (AgentKey ConversationError)

inductive MediaKind where
  | image
  | video
deriving DecidableEq

def MediaKind.value : MediaKind → Text
  | .image => ofString "image"
  | .video => ofString "video"

def MediaKind.parse (kind : Text) : Option MediaKind :=
  [.image, .video].find? (MediaKind.value · = kind)

inductive JobStatus where
  | queued
  | running
  | succeeded
  | failed
deriving DecidableEq

def JobStatus.isTerminal (status : JobStatus) : Bool := status = .succeeded || status = .failed

def JobStatus.follows : JobStatus → JobStatus → Bool
  | .queued, status => status = .queued || status = .running
  | .running, status => status ≠ .queued
  | .succeeded, status => status = .succeeded
  | .failed, status => status = .failed

inductive MediaError where
  | agentKey (problem : ConversationError)
  | invalidKind
  | promptEmpty
  | onlyForVideo
  | onlyForImage
  | required (field : Text)
  | notPositive (field : Text)
  | modelBlank
  | widthLimit
  | heightLimit
  | durationLimit
  | state
  | resultFileRequired
deriving DecidableEq

abbrev Positive := { n : ℕ // 0 < n }

inductive GenParams where
  | image (width height : Positive) (model : Option Text)
  | video (durationSeconds : Positive) (model : Option Text)
deriving DecidableEq

theorem toNat_pos {n : ℤ} (h : 0 < n) : 0 < n.toNat := by omega

def requirePositiveInt (value : Option ℤ) (field : Text) : Except MediaError Positive :=
  match value with
  | none => .error (.required field)
  | some n => if h : 0 < n then .ok ⟨n.toNat, toNat_pos h⟩ else .error (.notPositive field)

def genModel : Option Text → Except MediaError (Option Text)
  | none => .ok none
  | some model => if strip model = [] then .error .modelBlank else .ok (some (strip model))

def GenParams.make (kind : MediaKind) (width height durationSeconds : Option ℤ)
    (model : Option Text) : Except MediaError GenParams :=
  match kind with
  | .image =>
    if durationSeconds.isSome then .error .onlyForVideo
    else do
      let width ← requirePositiveInt width (ofString "width")
      let height ← requirePositiveInt height (ofString "height")
      let model ← genModel model
      .ok (.image width height model)
  | .video =>
    if width.isSome || height.isSome then .error .onlyForImage
    else do
      let durationSeconds ← requirePositiveInt durationSeconds (ofString "duration_seconds")
      let model ← genModel model
      .ok (.video durationSeconds model)

structure Limits where
  maxImageDim : ℕ := 2048
  maxVideoSeconds : ℕ := 30

def enforceLimits (limits : Limits) : GenParams → Except MediaError Unit
  | .image width height _ =>
    if limits.maxImageDim < width.val then .error .widthLimit
    else if limits.maxImageDim < height.val then .error .heightLimit
    else .ok ()
  | .video durationSeconds _ =>
    if limits.maxVideoSeconds < durationSeconds.val then .error .durationLimit else .ok ()

structure MediaJob where
  agentKey : AgentKey
  prompt : Text
  params : GenParams
  status : JobStatus
  resultFileId : Option Text
  error : Option Text
  createdBy : Option ℕ
  createdAt : ℕ
deriving DecidableEq

namespace MediaJob

def startRunning (job : MediaJob) : Except MediaError MediaJob :=
  if job.status = .queued ∨ job.status = .running then .ok { job with status := .running }
  else .error .state

def complete (job : MediaJob) (resultFileId : Text) : Except MediaError MediaJob :=
  if job.status ≠ .running then .error .state
  else if resultFileId = [] then .error .resultFileRequired
  else .ok { job with status := .succeeded, resultFileId := some resultFileId, error := none }

def fail (job : MediaJob) (reason : Text) : Except MediaError MediaJob :=
  if job.status ≠ .running then .error .state
  else .ok { job with status := .failed, error := some reason }

def rewrite (stored job : MediaJob) : MediaJob :=
  { stored with status := job.status, resultFileId := job.resultFileId, error := job.error }

end MediaJob

inductive MediaEvent where
  | requested (job : ℕ) (agentKey : AgentKey) (prompt : Text) (params : GenParams)
  | generated (job : ℕ) (resultFileId : Text)
  | failed (job : ℕ) (reason : Text)

def MediaEvent.ends (job : ℕ) : MediaEvent → Bool
  | .requested _ _ _ _ => false
  | .generated other _ | .failed other _ => other = job

structure MediaRequest where
  agentKey : Text
  kind : Text
  prompt : Text
  width : Option ℤ
  height : Option ℤ
  durationSeconds : Option ℤ
  model : Option Text
  createdBy : Option ℕ

def requestMedia (lower : Text → Text) (limits : Limits) (request : MediaRequest) (now : ℕ) :
    Except MediaError MediaJob :=
  match AgentKey.make lower request.agentKey, MediaKind.parse request.kind with
  | .error problem, _ => .error (.agentKey problem)
  | .ok _, none => .error .invalidKind
  | .ok key, some kind =>
    if Blank request.prompt then .error .promptEmpty
    else
      match GenParams.make kind request.width request.height request.durationSeconds
        request.model with
      | .error problem => .error problem
      | .ok params =>
        match enforceLimits limits params with
        | .error problem => .error problem
        | .ok () => .ok ⟨key, request.prompt, params, .queued, none, none, request.createdBy, now⟩

abbrev Attempt := Except Text Text

/-- `RunMediaJob.finalize`, up to its save: the ended job and the event that announces it. -/
def finalize (id : ℕ) (job : MediaJob) : Attempt → Except MediaError (MediaJob × MediaEvent)
  | .ok resultFileId =>
    (job.complete resultFileId).map fun after => (after, .generated id resultFileId)
  | .error reason => (job.fail reason).map fun after => (after, .failed id reason)

/-- How far a delivery has come. From `claimed` on its transaction is open. -/
inductive Phase where
  | received
  | starting (read : Versioned MediaJob) (after : MediaJob)
  | generating (job : Versioned MediaJob)
  | finalizing (job : Versioned MediaJob) (attempt : Attempt)
  | claimed (job : Versioned MediaJob) (attempt : Attempt)
  | saved (job : Versioned MediaJob) (after : MediaJob) (event : MediaEvent)

structure Task where
  event : ℕ
  job : ℕ
  phase : Phase

abbrev Jobs := AList fun _ : ℕ => Versioned MediaJob

structure State where
  jobs : Jobs
  outbox : List (ℕ × MediaEvent)
  claims : List ℕ
  tasks : AList fun _ : ℕ => Task

def init : State := ⟨∅, [], [], ∅⟩

inductive Event where
  | request (job event : ℕ) (request : MediaRequest) (now : ℕ)
  | deliver (id event job : ℕ)
  | next (id newEvent : ℕ) (attempt : Attempt)
  | crash (id : ℕ)

def Task.holds (task : Task) : Bool :=
  match task.phase with
  | .claimed _ _ | .saved _ _ _ => true
  | .received | .starting _ _ | .generating _ | .finalizing _ _ => false

def Task.locks (task : Task) : Bool :=
  match task.phase with
  | .saved _ _ _ => true
  | .received | .starting _ _ | .generating _ | .finalizing _ _ | .claimed _ _ => false

namespace State

def finish (s : State) (id : ℕ) : State := { s with tasks := s.tasks.erase id }

def proceed (s : State) (id : ℕ) (task : Task) (phase : Phase) : State :=
  { s with tasks := s.tasks.insert id { task with phase := phase } }

def held (s : State) (event : ℕ) : Bool :=
  anyRow s.tasks fun _ task => task.event = event && task.holds

def locked (s : State) (job : ℕ) : Bool :=
  anyRow s.tasks fun _ task => task.job = job && task.locks

def saveJob (s : State) (job : ℕ) (read : Versioned MediaJob) (after : MediaJob) : Option Jobs :=
  match s.jobs.lookup job with
  | none => none
  | some row => save s.jobs job read (row.value.rewrite after)

def endings (s : State) (job : ℕ) : List MediaEvent :=
  (s.outbox.map Prod.snd).filter (·.ends job)

end State

def advance (s : State) (id : ℕ) (task : Task) (newEvent : ℕ) (attempt : Attempt) :
    Option State :=
  match task.phase with
  | .received =>
    match s.jobs.lookup task.job with
    | none => some (s.finish id)
    | some row =>
      if row.value.status.isTerminal then some (s.finish id)
      else
        match row.value.startRunning with
        | .error _ => some (s.finish id)
        | .ok after => some (s.proceed id task (.starting row after))
  | .starting read after =>
    if s.locked task.job then none
    else
      match s.saveJob task.job read after with
      | none => some (s.finish id)
      | some jobs =>
        some { s.proceed id task (.generating ⟨after, read.version + 1⟩) with jobs := jobs }
  | .generating job => some (s.proceed id task (.finalizing job attempt))
  | .finalizing job attempt =>
    if s.held task.event then none
    else if task.event ∈ s.claims then some (s.finish id)
    else some (s.proceed id task (.claimed job attempt))
  | .claimed job attempt =>
    match finalize task.job job.value attempt with
    | .error _ => some (s.finish id)
    | .ok (after, event) =>
      if s.locked task.job then none
      else if (s.saveJob task.job job after).isSome then
        some (s.proceed id task (.saved job after event))
      else some (s.finish id)
  | .saved job after event =>
    match s.saveJob task.job job after with
    | none => none
    | some jobs =>
      some
        { s.finish id with
          jobs := jobs
          outbox := (newEvent, event) :: s.outbox
          claims := task.event :: s.claims }

section Machine

variable (lower : Text → Text) (limits : Limits)

def step (s : State) : Event → Option State
  | .request job event request now =>
    if job ∈ s.jobs then none
    else
      match requestMedia lower limits request now with
      | .error _ => none
      | .ok value =>
        some
          { s with
            jobs := s.jobs.insert job ⟨value, 1⟩
            outbox := (event, .requested job value.agentKey value.prompt value.params) ::
              s.outbox }
  | .deliver id event job =>
    if id ∈ s.tasks then none
    else some { s with tasks := s.tasks.insert id ⟨event, job, .received⟩ }
  | .next id newEvent attempt =>
    match s.tasks.lookup id with
    | none => none
    | some task => advance s id task newEvent attempt
  | .crash id => if id ∈ s.tasks then some (s.finish id) else none

end Machine

inductive Transition (old : MediaJob) : MediaJob → Prop where
  | started (h : old.status = .queued ∨ old.status = .running) :
      Transition old { old with status := .running }
  | completed {file : Text} (h : old.status = .running) (hfile : file ≠ []) :
      Transition old
        { old with status := .succeeded, resultFileId := some file, error := none }
  | failed {reason : Text} (h : old.status = .running) :
      Transition old { old with status := .failed, error := some reason }

section Transitions

variable {job after : MediaJob} {id : ℕ} {attempt : Attempt} {event : MediaEvent}

theorem Transition.rewrite (h : Transition job after) : job.rewrite after = after := by
  cases h <;> rfl

theorem Transition.follows (h : Transition job after) :
    job.status.follows after.status = true := by
  cases h with
  | started hs =>
    rcases hs with hs | hs
    · rw [hs]
      rfl
    · rw [hs]
      rfl
  | completed hs =>
    rw [hs]
    rfl
  | failed hs =>
    rw [hs]
    rfl

/-- No save is made of a job that has ended. -/
theorem Transition.open (h : Transition job after) : job.status.isTerminal = false := by
  cases h with
  | started hs =>
    rcases hs with hs | hs
    · rw [hs]
      rfl
    · rw [hs]
      rfl
  | completed hs =>
    rw [hs]
    rfl
  | failed hs =>
    rw [hs]
    rfl

theorem follows_self (status : JobStatus) : status.follows status = true := by
  cases status <;> rfl

theorem startRunning_eq_ok (h : job.startRunning = .ok after) :
    Transition job after ∧ after.status = .running := by
  unfold MediaJob.startRunning at h
  split_ifs at h with hs
  cases h
  exact ⟨.started hs, rfl⟩

def Announced (id : ℕ) (job : MediaJob) (event : MediaEvent) : Prop :=
  (∃ file, job.status = .succeeded ∧ job.resultFileId = some file ∧ file ≠ [] ∧
      event = .generated id file) ∨
    ∃ reason, job.status = .failed ∧ job.error = some reason ∧ event = .failed id reason

/-- A finalized job has ended as its event announces. -/
theorem finalize_eq_ok (h : finalize id job attempt = .ok (after, event)) :
    Transition job after ∧ Announced id after event := by
  cases attempt with
  | ok file =>
    simp only [finalize, MediaJob.complete] at h
    split_ifs at h with hs hf
    · cases h
    · cases h
    · obtain ⟨rfl, rfl⟩ := Prod.mk.inj (Except.ok.inj h)
      exact ⟨.completed (not_not.mp hs) hf, .inl ⟨file, rfl, rfl, hf, rfl⟩⟩
  | error reason =>
    simp only [finalize, MediaJob.fail] at h
    split_ifs at h with hs
    · cases h
    · obtain ⟨rfl, rfl⟩ := Prod.mk.inj (Except.ok.inj h)
      exact ⟨.failed (not_not.mp hs), .inr ⟨reason, rfl, rfl, rfl⟩⟩

theorem requestMedia_status {lower : Text → Text} {limits : Limits} {request : MediaRequest}
    {now : ℕ} (h : requestMedia lower limits request now = .ok job) : job.status = .queued := by
  unfold requestMedia at h
  split at h
  · cases h
  · cases h
  · split_ifs at h
    split at h
    · cases h
    · split at h
      · cases h
      · cases h
        rfl

end Transitions

end Aizzak.MediaJobs
