import Aizzak.DocumentRegistry

/-!
The builds of document summaries. A request queues a job, releasing one that its worker has
abandoned; a delivery reads the job, stores it as running, builds and stores the outcome; a
cancellation reads the job and stores it as cancelled. Each of them writes back the whole row it
read. `uq_summary_job_active` keeps one queued or running job for a document, kind and language.
-/
namespace Aizzak.SummaryJobs

open EventRuns KeyedTables Option
open DocumentRegistry (IndexStatus)

inductive SummaryKind where
  | overview
  | full
deriving DecidableEq

def SummaryKind.value : SummaryKind → String
  | .overview => "overview"
  | .full => "full"

inductive SummaryLanguage where
  | auto
  | ar
  | en
deriving DecidableEq

def SummaryLanguage.value : SummaryLanguage → String
  | .auto => "auto"
  | .ar => "ar"
  | .en => "en"

inductive SummaryJobStatus where
  | queued
  | running
  | succeeded
  | failed
  | cancelled
deriving DecidableEq

namespace SummaryJobStatus

def value : SummaryJobStatus → String
  | queued => "queued"
  | running => "running"
  | succeeded => "succeeded"
  | failed => "failed"
  | cancelled => "cancelled"

def isActive (status : SummaryJobStatus) : Bool := status = queued ∨ status = running

def isTerminal (status : SummaryJobStatus) : Bool :=
  status = succeeded ∨ status = failed ∨ status = cancelled

def isSettled (status : SummaryJobStatus) : Bool := status = failed ∨ status = cancelled

theorem not_active_of_terminal {status : SummaryJobStatus} (h : status.isTerminal = true) :
    status.isActive = false := by
  cases status <;> simp_all [isTerminal, isActive]

theorem terminal_of_settled {status : SummaryJobStatus} (h : status.isSettled = true) :
    status.isTerminal = true := by
  cases status <;> simp_all [isTerminal, isSettled]

end SummaryJobStatus

structure SummaryKey where
  documentId : String
  kind : SummaryKind
  lang : SummaryLanguage
deriving DecidableEq

/-- Times are counted in milliseconds. -/
structure SummaryJob where
  key : SummaryKey
  status : SummaryJobStatus
  totalChunks : ℕ
  doneChunks : ℕ
  error : Option String
  cancelledAt : Option ℕ
  finishedAt : Option ℕ
  updatedAt : ℕ

def summaryCancelledReason : String := "the summary build was cancelled"

def summaryAbandonedReason : String :=
  "the summary build stopped before it finished and was released so it can be asked for again"

namespace SummaryJob

def queued (key : SummaryKey) (now : ℕ) : SummaryJob :=
  ⟨key, .queued, 0, 0, none, none, none, now⟩

def start (job : SummaryJob) (totalChunks : ℕ) : SummaryJob :=
  { job with status := .running, totalChunks := totalChunks, doneChunks := 0 }

def advance (job : SummaryJob) (doneChunks : ℕ) : SummaryJob :=
  { job with doneChunks := min doneChunks job.totalChunks }

def succeed (job : SummaryJob) (now : ℕ) : SummaryJob :=
  { job with
    status := .succeeded, doneChunks := job.totalChunks, error := none, finishedAt := some now }

def fail (job : SummaryJob) (reason : String) (now : ℕ) : SummaryJob :=
  { job with status := .failed, error := some reason, finishedAt := some now }

def cancel (job : SummaryJob) (reason : String) (now : ℕ) : SummaryJob :=
  { job with
    status := .cancelled, error := some reason, cancelledAt := some now, finishedAt := some now }

def isAbandoned (job : SummaryJob) (now maxBuildDuration : ℕ) : Bool :=
  job.status = .running ∧ job.updatedAt + maxBuildDuration < now

end SummaryJob

abbrev Jobs := AList fun _ : String => SummaryJob

def activeIds (jobs : Jobs) (key : SummaryKey) : List String :=
  jobs.keys.filter fun id => (jobs.lookup id).any fun job => job.key = key ∧ job.status.isActive

def activeFor (jobs : Jobs) (key : SummaryKey) : Option (String × SummaryJob) :=
  (activeIds jobs key).head?.bind fun id => (jobs.lookup id).map fun job => (id, job)

def countActive (jobs : Jobs) : ℕ :=
  (jobs.keys.filter fun id => (jobs.lookup id).any (·.status.isActive)).length

/-- An update of the whole row from the aggregate; it fails on `uq_summary_job_active`. The
trigger dates the row. -/
def save (jobs : Jobs) (id : String) (job : SummaryJob) (now : ℕ) : Option Jobs :=
  match jobs.lookup id with
  | none => some jobs
  | some row =>
    if job.status.isActive ∧ ∃ other ∈ activeIds jobs row.key, other ≠ id then none
    else some (jobs.insert id { job with key := row.key, updatedAt := now })

def recordProgress (jobs : Jobs) (id : String) (doneChunks now : ℕ) : Jobs :=
  match jobs.lookup id with
  | none => jobs
  | some row =>
    if row.status = .running then
      jobs.insert id { row with doneChunks := doneChunks, updatedAt := now }
    else jobs

inductive Refusal where
  | notFound (detail : String)
  | conflict (detail : String)

structure SummaryDraft where
  text : String
  model : String
  sourceChunks : ℕ
  truncated : Bool

inductive Outcome where
  | draft (draft : SummaryDraft)
  | error (reason : String)
  | cancelled

inductive Phase where
  | claiming (job : SummaryJob)
  | building (job : SummaryJob)
  | finalizing (job : SummaryJob) (outcome : Outcome)

structure Build where
  event : String
  job : String
  phase : Phase

structure Request where
  key : SummaryKey
  released : Option (String × SummaryJob)
  now : ℕ

structure Cancel where
  jobId : String
  job : SummaryJob

structure State where
  docs : AList fun _ : String => IndexStatus
  jobs : Jobs
  summaries : AList fun _ : SummaryKey => SummaryDraft
  processed : List String
  request : Option Request
  builds : AList fun _ : ℕ => Build
  cancels : AList fun _ : ℕ => Cancel
  answer : Option (Except Refusal String)

structure Config where
  maxBuildDuration : ℕ := 1800000
  maxActiveJobs : ℕ := 3

inductive Event where
  | document (id : String) (status : IndexStatus)
  | requestRead (key : SummaryKey) (now : ℕ)
  | requestCommit (id : String)
  | requestAbort
  | claimRead (id : ℕ) (event job : String)
  | claimSave (id : ℕ) (totalChunks now : ℕ)
  | fail (id : ℕ) (reason : String)
  | recordProgress (id : ℕ) (doneChunks now : ℕ)
  | shouldCancel (id : ℕ)
  | built (id : ℕ) (draft : SummaryDraft)
  | buildFails (id : ℕ) (reason : String)
  | finalize (id : ℕ) (now : ℕ)
  | crash (id : ℕ)
  | cancelRead (id : ℕ) (job : String)
  | cancelCommit (id : ℕ) (now : ℕ)
  | cancelAbort (id : ℕ)

/-- What a request reads: the document, and the job that holds the key, which it may release
if its worker is gone. -/
def checkRequest (cfg : Config) (s : State) (key : SummaryKey) (now : ℕ) :
    Except Refusal (Option (String × SummaryJob)) :=
  match s.docs.lookup key.documentId with
  | none => .error (.notFound "document not found")
  | some status =>
    if status ≠ .indexed then
      .error (.conflict ("document " ++ key.documentId ++ " is not indexed (status '" ++
        status.value ++ "') and has no text to summarise"))
    else match activeFor s.jobs key with
      | none => .ok none
      | some (id, job) =>
        if job.isAbandoned now cfg.maxBuildDuration then .ok (some (id, job))
        else .error (.conflict ("a " ++ key.kind.value ++ " summary of this document in " ++
          key.lang.value ++ " is already being built (job " ++ id ++ ")"))

namespace State

def withBuild (s : State) (id : ℕ) (build : Build) : State :=
  { s with builds := s.builds.insert id build }

def endBuild (s : State) (id : ℕ) : State := { s with builds := s.builds.erase id }

def release (s : State) (request : Request) : Option Jobs :=
  match request.released with
  | none => some s.jobs
  | some (id, job) => save s.jobs id (job.fail summaryAbandonedReason request.now) request.now

def admitRequest (cfg : Config) (s : State) (request : Request) (id : String) (jobs : Jobs) :
    State :=
  let ended := { s with request := none }
  if cfg.maxActiveJobs ≤ countActive jobs then
    { ended with answer := some (.error (.conflict ("this workspace already has " ++
        toString cfg.maxActiveJobs ++ " summary builds queued or running; ask again when one" ++
        " of them finishes"))) }
  else if activeIds jobs request.key ≠ [] then
    { ended with answer := some (.error (.conflict "knowledge write lost a uniqueness race")) }
  else { ended with
    jobs := jobs.insert id (.queued request.key request.now)
    answer := some (.ok id) }

/-- A failure before the terminal transaction: the job is read again, and a delivery whose
job is gone or terminal by now ends there. -/
def failBuild (s : State) (id : ℕ) (build : Build) (reason : String) : State :=
  match s.jobs.lookup build.job with
  | none => s.endBuild id
  | some job =>
    if job.status.isTerminal then s.endBuild id
    else s.withBuild id { build with phase := .finalizing job (.error reason) }

def finalize (s : State) (id : ℕ) (build : Build) (job : SummaryJob) (outcome : Outcome)
    (now : ℕ) : Option State :=
  let ended := s.endBuild id
  if build.event ∈ s.processed then some ended
  else
    let claimed := { ended with processed := build.event :: s.processed }
    match outcome with
    | .cancelled => some claimed
    | .draft draft =>
      (save s.jobs build.job (job.succeed now) now).map fun jobs =>
        { claimed with jobs := jobs, summaries := s.summaries.insert job.key draft }
    | .error reason =>
      (save s.jobs build.job (job.fail reason now) now).map fun jobs =>
        { claimed with jobs := jobs }

end State

def step (cfg : Config) (s : State) : Event → Option State
  | .document id status => some { s with docs := s.docs.insert id status }
  | .requestRead key now =>
    if s.request.isSome then none
    else match checkRequest cfg s key now with
      | .error refusal => some { s with answer := some (.error refusal) }
      | .ok released => some { s with request := some ⟨key, released, now⟩ }
  | .requestCommit id =>
    match s.request with
    | none => none
    | some request =>
      if id ∈ s.jobs then none
      else (s.release request).map (s.admitRequest cfg request id)
  | .requestAbort => some { s with request := none }
  | .claimRead id event jobId =>
    if id ∈ s.builds then none
    else match s.jobs.lookup jobId with
      | none => some s
      | some job =>
        if job.status.isTerminal then some s
        else some (s.withBuild id ⟨event, jobId, .claiming job⟩)
  | .claimSave id totalChunks now =>
    match s.builds.lookup id with
    | some ⟨event, jobId, .claiming job⟩ =>
      (save s.jobs jobId (job.start totalChunks) now).map fun jobs =>
        { s with jobs := jobs }.withBuild id ⟨event, jobId, .building (job.start totalChunks)⟩
    | _ => none
  | .fail id reason =>
    match s.builds.lookup id with
    | some build => some (s.failBuild id build reason)
    | none => none
  | .recordProgress id doneChunks now =>
    match s.builds.lookup id with
    | some ⟨event, jobId, .building job⟩ =>
      let advanced := job.advance doneChunks
      some ({ s with jobs := recordProgress s.jobs jobId advanced.doneChunks now }.withBuild id
        ⟨event, jobId, .building advanced⟩)
    | _ => none
  | .shouldCancel id =>
    match s.builds.lookup id with
    | some ⟨event, jobId, .building job⟩ =>
      if (s.jobs.lookup jobId).all (·.status.isTerminal) then
        some (s.withBuild id ⟨event, jobId, .finalizing job .cancelled⟩)
      else some s
    | _ => none
  | .built id draft =>
    match s.builds.lookup id with
    | some ⟨event, jobId, .building job⟩ =>
      some (s.withBuild id ⟨event, jobId, .finalizing job (.draft draft)⟩)
    | _ => none
  | .buildFails id reason =>
    match s.builds.lookup id with
    | some ⟨event, jobId, .building job⟩ =>
      some (s.withBuild id ⟨event, jobId, .finalizing job (.error reason)⟩)
    | _ => none
  | .finalize id now =>
    match s.builds.lookup id with
    | some ⟨event, jobId, .finalizing job outcome⟩ =>
      s.finalize id ⟨event, jobId, .finalizing job outcome⟩ job outcome now
    | _ => none
  | .crash id => some (s.endBuild id)
  | .cancelRead id jobId =>
    if id ∈ s.cancels then none
    else match s.jobs.lookup jobId with
      | none => some { s with answer := some (.error (.notFound "summary job not found")) }
      | some job =>
        if job.status = .cancelled then some { s with answer := some (.ok jobId) }
        else if job.status.isTerminal then
          some { s with answer := some (.error (.conflict
            ("summary job has already finished (" ++ job.status.value ++ ")"))) }
        else some { s with cancels := s.cancels.insert id ⟨jobId, job⟩ }
  | .cancelCommit id now =>
    match s.cancels.lookup id with
    | none => none
    | some cancel =>
      (save s.jobs cancel.jobId (cancel.job.cancel summaryCancelledReason now) now).map
        fun jobs => { s with
          jobs := jobs, cancels := s.cancels.erase id, answer := some (.ok cancel.jobId) }
  | .cancelAbort id => some { s with cancels := s.cancels.erase id }

def Phase.isClaiming : Phase → Bool
  | .claiming _ => true
  | .building _ | .finalizing _ _ => false

def State.unclaimed (s : State) (jobId : String) : Bool :=
  s.builds.keys.all fun id => (s.builds.lookup id).all fun build =>
    build.job ≠ jobId || !build.phase.isClaiming

def State.settles (s : State) : Event → Option String
  | .requestCommit _ => s.request.bind fun request => request.released.map (·.1)
  | .finalize id _ =>
    match s.builds.lookup id with
    | some ⟨event, jobId, .finalizing _ (.error _)⟩ =>
      if event ∈ s.processed then none else some jobId
    | _ => none
  | .cancelCommit id _ => (s.cancels.lookup id).map (·.jobId)
  | _ => none

/-- A job is settled only while no claim of it is waiting to be saved. -/
def SettlesUnclaimed (s : State) (e : Event) : Prop :=
  (s.settles e).all s.unclaimed = true

instance (s : State) (e : Event) : Decidable (SettlesUnclaimed s e) :=
  inferInstanceAs (Decidable (_ = true))

variable {s : State}

/-- No delivery waits to save its claim. -/
theorem unclaimed_iff {jobId : String} :
    s.unclaimed jobId = true ↔ ∀ id build, s.builds.lookup id = some build →
      build.job = jobId → build.phase.isClaiming = false := by
  simp only [State.unclaimed, List.all_eq_true, all_eq_true, Bool.or_eq_true,
    decide_eq_true_eq, Bool.not_eq_true']
  constructor
  · intro h id build hb hjob
    have hkey : id ∈ s.builds.keys := AList.mem_keys.mp (mem_of_lookup hb)
    exact (h id hkey build hb).resolve_left (by simp [hjob])
  · intro h id _ build hb
    by_cases hjob : build.job = jobId
    · exact .inr (h id build hb hjob)
    · exact .inl hjob

variable {jobs : Jobs} {id : String}

theorem mem_activeIds {key : SummaryKey} :
    id ∈ activeIds jobs key ↔
      ∃ job, jobs.lookup id = some job ∧ job.key = key ∧ job.status.isActive = true := by
  simp only [activeIds, List.mem_filter, any_eq_true, Bool.decide_and, Bool.and_eq_true,
    decide_eq_true_eq]
  constructor
  · rintro ⟨-, job, hjob, hkey, ha⟩
    exact ⟨job, hjob, hkey, by simpa using ha⟩
  · rintro ⟨job, hjob, hkey, ha⟩
    exact ⟨AList.mem_keys.mp (mem_of_lookup hjob), job, hjob, hkey, by simpa using ha⟩

variable {after : Jobs} {i : String} {job row : SummaryJob} {now : ℕ}

theorem lookup_save (h : save jobs id job now = some after) (hrow : after.lookup i = some row) :
    (i = id ∧ row.status = job.status ∧ ∃ old, jobs.lookup id = some old ∧ row.key = old.key) ∨
      (i ≠ id ∧ jobs.lookup i = some row) := by
  unfold save at h
  split at h
  next hn =>
    cases h
    refine .inr ⟨?_, hrow⟩
    rintro rfl
    simp [hn] at hrow
  next old hold =>
    split_ifs at h
    cases h
    rcases lookup_insert_iff.mp hrow with ⟨rfl, rfl⟩ | hr
    · exact .inl ⟨rfl, rfl, old, hold, rfl⟩
    · exact .inr hr

theorem lookup_save_of_lookup (h : save jobs id job now = some after)
    (hrow : jobs.lookup i = some row) :
    ∃ later, after.lookup i = some later := by
  unfold save at h
  split at h
  next => exact ⟨row, some.inj h ▸ hrow⟩
  next old hold =>
    split_ifs at h
    cases h
    by_cases hid : i = id
    · subst hid
      exact ⟨_, AList.lookup_insert ..⟩
    · exact ⟨row, (AList.lookup_insert_ne hid).trans hrow⟩

theorem lookup_recordProgress {doneChunks : ℕ}
    (h : (recordProgress jobs id doneChunks now).lookup i = some row) :
    ∃ old, jobs.lookup i = some old ∧ row.status = old.status ∧ row.key = old.key := by
  unfold recordProgress at h
  split at h
  next => exact ⟨row, h, rfl, rfl⟩
  next old hold =>
    split_ifs at h
    · rcases lookup_insert_iff.mp h with ⟨rfl, rfl⟩ | ⟨-, hr⟩
      · exact ⟨old, hold, rfl, rfl⟩
      · exact ⟨row, hr, rfl, rfl⟩
    · exact ⟨row, h, rfl, rfl⟩

theorem lookup_recordProgress_of_lookup {doneChunks : ℕ} (h : jobs.lookup i = some row) :
    ∃ later, (recordProgress jobs id doneChunks now).lookup i = some later ∧
      later.status = row.status := by
  unfold recordProgress
  split
  next => exact ⟨row, h, rfl⟩
  next old hold =>
    split_ifs
    · rcases same_or_ne hold h with ⟨rfl, rfl⟩ | hid
      · exact ⟨_, AList.lookup_insert .., rfl⟩
      · exact ⟨row, (AList.lookup_insert_ne hid).trans h, rfl⟩
    · exact ⟨row, h, rfl⟩

/-- `uq_summary_job_active`: a key has at most one job that a claim may still run. -/
def OneActive (jobs : Jobs) : Prop :=
  ∀ i j a b, jobs.lookup i = some a → jobs.lookup j = some b → a.key = b.key →
    a.status.isActive = true → b.status.isActive = true → i = j

theorem OneActive.save (hj : OneActive jobs) (h : save jobs id job now = some after) :
    OneActive after := by
  have ho : ∀ row j b, jobs.lookup id = some row → jobs.lookup j = some b → row.key = b.key →
      job.status.isActive = true → b.status.isActive = true → j = id := by
    intro row j b hrow hb hkey hac hba
    by_contra hne
    have hmem : j ∈ activeIds jobs row.key := mem_activeIds.mpr ⟨b, hb, hkey.symm, hba⟩
    have hr : SummaryJobs.save jobs id job now = none := by
      simp only [SummaryJobs.save, hrow]
      rw [if_pos ⟨hac, j, hmem, hne⟩]
    rw [hr] at h
    cases h
  intro i j a b ha hb hkey haa hba
  rcases lookup_save h ha with ⟨rfl, hat, old, hold, hak⟩ | ⟨-, ha⟩ <;>
    rcases lookup_save h hb with ⟨hjd, hbs, old', hold', hbk⟩ | ⟨-, hb⟩
  · exact hjd.symm
  · exact (ho old j b hold hb (hak.symm.trans hkey) (hat ▸ haa) hba).symm
  · subst hjd
    exact ho old' i a hold' ha (hbk.symm.trans hkey.symm) (hbs ▸ hba) haa
  · exact hj i j a b ha hb hkey haa hba

theorem OneActive.recordProgress (hj : OneActive jobs) (id : String) (doneChunks now : ℕ) :
    OneActive (recordProgress jobs id doneChunks now) := by
  intro i j a b ha hb hkey haa hba
  obtain ⟨a', ha', hat, hak⟩ := lookup_recordProgress ha
  obtain ⟨b', hb', hbs, hbk⟩ := lookup_recordProgress hb
  exact hj i j a' b' ha' hb' (hak.symm.trans (hkey.trans hbk)) (hat ▸ haa)
    (hbs ▸ hba)

theorem OneActive.insert (hj : OneActive jobs) (hf : activeIds jobs job.key = []) :
    OneActive (jobs.insert id job) := by
  have hn : ∀ j b, jobs.lookup j = some b → b.key = job.key → b.status.isActive ≠ true := by
    intro j b hb hkey hac
    have hmem : j ∈ activeIds jobs job.key := mem_activeIds.mpr ⟨b, hb, hkey, hac⟩
    simp [hf] at hmem
  intro i j a b ha hb hkey haa hba
  rcases lookup_insert_iff.mp ha with ⟨hid, rfl⟩ | ⟨-, ha⟩ <;>
    rcases lookup_insert_iff.mp hb with ⟨hjd, rfl⟩ | ⟨-, hb⟩
  · exact hid.trans hjd.symm
  · exact absurd hba (hn j b hb hkey.symm)
  · exact absurd haa (hn i a ha hkey)
  · exact hj i j a b ha hb hkey haa hba

inductive Saves (s : State) (e : Event) : Jobs → Prop where
  | terminal {id : String} {job : SummaryJob} {now : ℕ} {jobs : Jobs}
      (hsave : save s.jobs id job now = some jobs) (hstatus : job.status.isTerminal = true)
      (hsettles : job.status.isSettled = true → s.settles e = some id) : Saves s e jobs
  | claim {build : ℕ} {event id : String} {snapshot job : SummaryJob} {now : ℕ} {jobs : Jobs}
      (hbuild : s.builds.lookup build = some ⟨event, id, .claiming snapshot⟩)
      (hsave : save s.jobs id job now = some jobs) (hstatus : job.status = .running) :
      Saves s e jobs

inductive Writes (s : State) (e : Event) : Jobs → Prop where
  | nothing : Writes s e s.jobs
  | progress (id : String) (doneChunks now : ℕ) :
      Writes s e (recordProgress s.jobs id doneChunks now)
  | saves {jobs : Jobs} (hsaves : Saves s e jobs) : Writes s e jobs
  | queues {jobs : Jobs} {id : String} {key : SummaryKey} {now : ℕ} (hnew : id ∉ s.jobs)
      (hreleased : jobs = s.jobs ∨ Saves s e jobs) (hfree : activeIds jobs key = []) :
      Writes s e (jobs.insert id (.queued key now))

variable {t : State} {e : Event}

theorem finalize_writes {id : ℕ} {build : Build} {outcome : Outcome}
    (ht : s.finalize id build job outcome now = some t)
    (hs : build.event ∉ s.processed → ∀ reason, outcome = .error reason →
      s.settles e = some build.job) : Writes s e t.jobs := by
  simp only [State.finalize] at ht
  split_ifs at ht with hp
  · exact some.inj ht ▸ .nothing
  · cases outcome with
    | cancelled => exact some.inj ht ▸ .nothing
    | draft draft =>
      obtain ⟨jobs, hsa, rfl⟩ := map_eq_some_iff.mp ht
      exact .saves (.terminal hsa rfl (by simp [SummaryJob.succeed, SummaryJobStatus.isSettled]))
    | error reason =>
      obtain ⟨jobs, hsa, rfl⟩ := map_eq_some_iff.mp ht
      exact .saves (.terminal hsa rfl fun _ => hs hp reason rfl)

variable {cfg : Config}

theorem requestCommit_writes (ht : step cfg s (.requestCommit id) = some t) :
    Writes s (.requestCommit id) t.jobs := by
  simp only [step] at ht
  split at ht
  next => cases ht
  next request hrq =>
    split_ifs at ht with hnew
    obtain ⟨jobs, hr, rfl⟩ := map_eq_some_iff.mp ht
    have hrl : jobs = s.jobs ∨ Saves s (.requestCommit id) jobs := by
      unfold State.release at hr
      split at hr
      next => exact .inl (some.inj hr).symm
      next i job hre =>
        exact .inr (.terminal hr rfl fun _ => by simp [State.settles, hrq, hre])
    simp only [State.admitRequest]
    split_ifs with hb hf
    · exact .nothing
    · exact .nothing
    · exact .queues hnew hrl (not_not.mp hf)

theorem step_writes (ht : step cfg s e = some t) :
    Writes s e t.jobs := by
  cases e with
  | requestCommit id => exact requestCommit_writes ht
  | document id status =>
    simp only [step, some.injEq] at ht
    exact ht ▸ .nothing
  | requestAbort =>
    simp only [step, some.injEq] at ht
    exact ht ▸ .nothing
  | crash id =>
    simp only [step, some.injEq] at ht
    exact ht ▸ .nothing
  | cancelAbort id =>
    simp only [step, some.injEq] at ht
    exact ht ▸ .nothing
  | requestRead key now =>
    simp only [step] at ht
    split_ifs at ht
    split at ht <;> exact some.inj ht ▸ .nothing
  | claimRead id event jobId =>
    simp only [step] at ht
    split_ifs at ht
    split at ht
    next => exact some.inj ht ▸ .nothing
    next => split_ifs at ht <;> exact some.inj ht ▸ .nothing
  | claimSave id totalChunks now =>
    simp only [step] at ht
    split at ht
    next event jobId job hb =>
      obtain ⟨jobs, hs, rfl⟩ := map_eq_some_iff.mp ht
      exact .saves (.claim hb hs rfl)
    next => cases ht
  | fail id reason =>
    simp only [step] at ht
    split at ht
    next build hb =>
      cases ht
      unfold State.failBuild
      split
      next => exact .nothing
      next => split_ifs <;> exact .nothing
    next => cases ht
  | recordProgress id doneChunks now =>
    simp only [step] at ht
    split at ht
    next event jobId job hb => exact some.inj ht ▸ .progress jobId _ now
    next => cases ht
  | shouldCancel id =>
    simp only [step] at ht
    split at ht
    next => split_ifs at ht <;> exact some.inj ht ▸ .nothing
    next => cases ht
  | built id draft | buildFails id reason =>
    simp only [step] at ht
    split at ht
    next => exact some.inj ht ▸ .nothing
    next => cases ht
  | finalize id now =>
    simp only [step] at ht
    split at ht
    next event jobId job outcome hb =>
      refine finalize_writes ht fun hnew reason ho => ?_
      subst ho
      simp only [State.settles, hb]
      rw [if_neg hnew]
    next => cases ht
  | cancelRead id jobId =>
    simp only [step] at ht
    split_ifs at ht
    split at ht
    next => exact some.inj ht ▸ .nothing
    next => split_ifs at ht <;> exact some.inj ht ▸ .nothing
  | cancelCommit id now =>
    simp only [step] at ht
    split at ht
    next => cases ht
    next cancel hc =>
      obtain ⟨jobs, hs, rfl⟩ := map_eq_some_iff.mp ht
      exact .saves (.terminal hs rfl fun _ => by simp [State.settles, hc])

theorem OneActive.writes (hs : OneActive s.jobs) (h : Writes s e jobs) : OneActive jobs := by
  have hsa : ∀ after, Saves s e after → OneActive after := by
    intro after ha
    cases ha with
    | terminal hsv => exact hs.save hsv
    | claim _ hsv => exact hs.save hsv
  cases h with
  | nothing => exact hs
  | progress id doneChunks now => exact hs.recordProgress id doneChunks now
  | saves h => exact hsa _ h
  | queues hnew hr hf =>
    rcases hr with rfl | hr
    · exact hs.insert hf
    · exact (hsa _ hr).insert hf

/-- A delivery claims a job it has just seen unsettled. -/
theorem step_claims (ht : step cfg s e = some t) {id : ℕ} {build : Build}
    (hb : t.builds.lookup id = some build) (hc : build.phase.isClaiming = true) :
    s.builds.lookup id = some build ∨
      (t.jobs = s.jobs ∧ ∃ row, s.jobs.lookup build.job = some row ∧
        row.status.isTerminal = false) := by
  have hs : ∀ u : State, u = t → u.builds = s.builds → s.builds.lookup id = some build := by
    rintro u rfl hu
    exact hu ▸ hb
  have hw : ∀ (i : ℕ) (other : Build), other.phase.isClaiming = false →
      (s.withBuild i other).builds.lookup id = some build → s.builds.lookup id = some build := by
    intro i other ho hl
    rcases lookup_insert_iff.mp hl with ⟨-, rfl⟩ | ⟨-, hold⟩
    · simp [hc] at ho
    · exact hold
  have hend : ∀ i, (s.endBuild i).builds.lookup id = some build →
      s.builds.lookup id = some build :=
    fun i hl => (lookup_erase_iff.mp hl).2
  cases e with
  | document i status | requestAbort | cancelAbort i =>
    simp only [step, some.injEq] at ht
    exact .inl (hs _ ht rfl)
  | crash i =>
    simp only [step, some.injEq] at ht
    exact .inl (hend i (ht ▸ hb))
  | requestRead key now =>
    simp only [step] at ht
    split_ifs at ht
    split at ht <;> exact .inl (hs _ (some.inj ht) rfl)
  | requestCommit i =>
    simp only [step] at ht
    split at ht
    next => cases ht
    next request hr =>
      split_ifs at ht
      obtain ⟨jobs, -, rfl⟩ := map_eq_some_iff.mp ht
      refine .inl ?_
      simp only [State.admitRequest] at hb
      split_ifs at hb <;> exact hb
  | claimRead i event jobId =>
    simp only [step] at ht
    split_ifs at ht
    split at ht
    next => exact .inl (hs _ (some.inj ht) rfl)
    next job hjob =>
      split_ifs at ht with hte
      · exact .inl (hs _ (some.inj ht) rfl)
      · cases ht
        rcases lookup_insert_iff.mp hb with ⟨-, rfl⟩ | ⟨-, hold⟩
        · exact .inr ⟨rfl, job, hjob, by simpa using hte⟩
        · exact .inl hold
  | claimSave i totalChunks now =>
    simp only [step] at ht
    split at ht
    next =>
      obtain ⟨jobs, -, rfl⟩ := map_eq_some_iff.mp ht
      exact .inl (hw i _ rfl hb)
    next => cases ht
  | fail i reason =>
    simp only [step] at ht
    split at ht
    next other ho =>
      cases ht
      refine .inl ?_
      unfold State.failBuild at hb
      split at hb
      next => exact hend i hb
      next =>
        split_ifs at hb
        · exact hend i hb
        · exact hw i _ rfl hb
    next => cases ht
  | recordProgress i doneChunks now =>
    simp only [step] at ht
    split at ht
    next =>
      cases ht
      exact .inl (hw i _ rfl hb)
    next => cases ht
  | shouldCancel i =>
    simp only [step] at ht
    split at ht
    next =>
      split_ifs at ht
      · cases ht
        exact .inl (hw i _ rfl hb)
      · exact .inl (hs _ (some.inj ht) rfl)
    next => cases ht
  | built i draft | buildFails i reason =>
    simp only [step] at ht
    split at ht
    next =>
      cases ht
      exact .inl (hw i _ rfl hb)
    next => cases ht
  | finalize i now =>
    simp only [step] at ht
    split at ht
    next event jobId job outcome ho =>
      refine .inl ?_
      simp only [State.finalize] at ht
      split_ifs at ht
      · exact hend i (some.inj ht ▸ hb)
      · cases outcome with
        | cancelled =>
          cases ht
          exact hend i hb
        | draft draft =>
          obtain ⟨jobs, -, rfl⟩ := map_eq_some_iff.mp ht
          exact hend i hb
        | error reason =>
          obtain ⟨jobs, -, rfl⟩ := map_eq_some_iff.mp ht
          exact hend i hb
    next => cases ht
  | cancelRead i jobId =>
    simp only [step] at ht
    split_ifs at ht
    split at ht
    next => exact .inl (hs _ (some.inj ht) rfl)
    next => split_ifs at ht <;> exact .inl (hs _ (some.inj ht) rfl)
  | cancelCommit i now =>
    simp only [step] at ht
    split at ht
    next => cases ht
    next =>
      obtain ⟨jobs, -, rfl⟩ := map_eq_some_iff.mp ht
      exact .inl hb

/-- A delivery about to save its claim has a job that is not settled, and a key has one
active job. -/
structure Consistent (s : State) : Prop where
  unsettled : ∀ id build, s.builds.lookup id = some build → build.phase.isClaiming = true →
    ∀ row, s.jobs.lookup build.job = some row → row.status.isSettled = false
  oneActive : OneActive s.jobs

/-- A row that an event leaves settled was settled before, or no claim of it is in flight. -/
theorem settled_of_writes (hok : SettlesUnclaimed s e) (h : Writes s e jobs)
    (hrow : jobs.lookup i = some row) (hs : row.status.isSettled = true) :
    (∃ old, s.jobs.lookup i = some old ∧ old.status.isSettled = true) ∨
      s.unclaimed i = true := by
  have hsa : ∀ after, Saves s e after → after.lookup i = some row →
      (∃ old, s.jobs.lookup i = some old ∧ old.status.isSettled = true) ∨
        s.unclaimed i = true := by
    intro after ha hl
    cases ha with
    | terminal hsav hst hse =>
      rcases lookup_save hsav hl with ⟨rfl, hsm, -⟩ | ⟨-, hl⟩
      · have hse := hse (hsm ▸ hs)
        exact .inr (by simpa [SettlesUnclaimed, hse] using hok)
      · exact .inl ⟨row, hl, hs⟩
    | claim hb hsav hst =>
      rcases lookup_save hsav hl with ⟨-, hsm, -⟩ | ⟨-, hl⟩
      · simp [hsm, hst, SummaryJobStatus.isSettled] at hs
      · exact .inl ⟨row, hl, hs⟩
  cases h with
  | nothing => exact .inl ⟨row, hrow, hs⟩
  | progress id doneChunks now =>
    obtain ⟨old, hold, hsm, -⟩ := lookup_recordProgress hrow
    exact .inl ⟨old, hold, hsm ▸ hs⟩
  | saves hsv => exact hsa _ hsv hrow
  | queues hnew hr hf =>
    rcases lookup_insert_iff.mp hrow with ⟨-, rfl⟩ | ⟨-, hrow⟩
    · simp [SummaryJob.queued, SummaryJobStatus.isSettled] at hs
    · rcases hr with rfl | hr
      · exact .inl ⟨row, hrow, hs⟩
      · exact hsa _ hr hrow

theorem step_consistent (cfg : Config) (s : State) (e : Event) (t : State) (hs : Consistent s)
    (hok : SettlesUnclaimed s e) (ht : step cfg s e = some t) : Consistent t := by
  refine ⟨?_, hs.oneActive.writes (step_writes ht)⟩
  intro id build hb hc row hrow
  by_contra hse
  rw [Bool.not_eq_false] at hse
  rcases step_claims ht hb hc with hold | ⟨hj, read, hr, ho⟩
  · rcases settled_of_writes hok (step_writes ht) hrow hse with ⟨old, hl, hwas⟩ | hn
    · simp [hs.unsettled id build hold hc old hl] at hwas
    · simp [unclaimed_iff.mp hn id build hold rfl] at hc
  · rw [hj] at hrow
    obtain rfl := mem_unique hr hrow
    simp [SummaryJobStatus.terminal_of_settled hse] at ho

structure Over (jobId : String) (s : State) : Prop where
  stored : ∃ row, s.jobs.lookup jobId = some row ∧ row.status.isTerminal = true
  unclaimed : ∀ id build, s.builds.lookup id = some build → build.phase.isClaiming = true →
    build.job ≠ jobId

theorem Over.writes {jobId : String} (hs : Over jobId s) (h : Writes s e jobs) :
    ∃ row, jobs.lookup jobId = some row ∧ row.status.isTerminal = true := by
  obtain ⟨row, hrow, ht⟩ := hs.stored
  have hsa : ∀ after, Saves s e after →
      ∃ row, after.lookup jobId = some row ∧ row.status.isTerminal = true := by
    intro after ha
    cases ha with
    | terminal hsav hst _ =>
      obtain ⟨later, hl⟩ := lookup_save_of_lookup hsav hrow
      refine ⟨later, hl, ?_⟩
      rcases lookup_save hsav hl with ⟨-, hsm, -⟩ | ⟨-, hold⟩
      · exact hsm ▸ hst
      · rw [← mem_unique hrow hold]
        exact ht
    | claim hb hsav _ =>
      obtain ⟨later, hl⟩ := lookup_save_of_lookup hsav hrow
      refine ⟨later, hl, ?_⟩
      rcases lookup_save hsav hl with ⟨hid, -⟩ | ⟨-, hold⟩
      · exact absurd hid.symm (hs.unclaimed _ _ hb rfl)
      · rw [← mem_unique hrow hold]
        exact ht
  cases h with
  | nothing => exact ⟨row, hrow, ht⟩
  | progress id doneChunks now =>
    obtain ⟨later, hl, hsm⟩ := lookup_recordProgress_of_lookup hrow
    exact ⟨later, hl, hsm ▸ ht⟩
  | saves hsv => exact hsa _ hsv
  | @queues released id key now hnew hr hf =>
    have hne : jobId ≠ id := by
      rintro rfl
      exact hnew (mem_of_lookup hrow)
    have hk : ∃ row, released.lookup jobId = some row ∧ row.status.isTerminal = true := by
      rcases hr with rfl | hr
      · exact ⟨row, hrow, ht⟩
      · exact hsa _ hr
    obtain ⟨later, hl, hlaterTerminal⟩ := hk
    exact ⟨later, (AList.lookup_insert_ne hne).trans hl, hlaterTerminal⟩

theorem step_over (cfg : Config) (jobId : String) (s : State) (e : Event) (t : State)
    (hs : Over jobId s) (ht : step cfg s e = some t) : Over jobId t := by
  refine ⟨hs.writes (step_writes ht), ?_⟩
  rintro id build hb hc rfl
  rcases step_claims ht hb hc with hold | ⟨-, read, hr, ho⟩
  · exact hs.unclaimed id build hold hc rfl
  · obtain ⟨row, hrow, hte⟩ := hs.stored
    obtain rfl := mem_unique hr hrow
    simp [ho] at hte

def State.init (docs : AList fun _ : String => IndexStatus) : State :=
  ⟨docs, ∅, ∅, [], none, ∅, ∅, none⟩

/-- Where jobs are settled only while no claim of them waits to be saved: a job that was once
failed or cancelled is never again queued or running, and in every state a document, kind and
language has at most one job that is. -/
theorem unclaimed_settled_job_stays_settled (cfg : Config)
    (docs : AList fun _ : String => IndexStatus) (before after : List Event) (s t : State)
    (hbefore : Guarded (step cfg) SettlesUnclaimed (State.init docs) before)
    (hs : run (step cfg) (State.init docs) before = some s)
    (hafter : Guarded (step cfg) SettlesUnclaimed s after)
    (ht : run (step cfg) s after = some t) :
    (∀ id job, s.jobs.lookup id = some job → job.status.isSettled = true →
      ∃ later, t.jobs.lookup id = some later ∧ later.status.isActive = false) ∧
    OneActive t.jobs := by
  have hi : Consistent (State.init docs) := by
    constructor
    · simp [State.init]
    · intro i j a b ha
      simp [State.init] at ha
  have hc := run_invariant (step_consistent cfg) hbefore hs hi
  refine ⟨?_, (run_invariant (step_consistent cfg) hafter ht hc).oneActive⟩
  intro id job hjob hse
  have ho : Over id s := by
    refine ⟨⟨job, hjob, SummaryJobStatus.terminal_of_settled hse⟩, ?_⟩
    rintro i build hb hcl rfl
    simp [hc.unsettled i build hb hcl job hjob] at hse
  obtain ⟨later, hl, hte⟩ := (run_invariant_of_step (step_over cfg id) ht ho).stored
  exact ⟨later, hl, SummaryJobStatus.not_active_of_terminal hte⟩

private def key : SummaryKey := ⟨"d", .overview, .ar⟩

private def indexedDoc : AList fun _ : String => IndexStatus := (∅ : AList _).insert "d" .indexed

private def released : List Event :=
  [.requestRead key 0, .requestCommit "j1", .claimRead 0 "e1" "j1", .claimSave 0 4 10,
    .recordProgress 0 2 20, .requestRead key 2000000, .requestCommit "j2"]

private def cameBack : List Event :=
  [.recordProgress 0 3 2000010, .shouldCancel 0, .finalize 0 2000020, .claimRead 1 "e2" "j2",
    .claimSave 1 4 2000030, .cancelRead 0 "j2", .cancelCommit 0 2000040, .shouldCancel 1,
    .finalize 1 2000050, .claimRead 2 "e2" "j2", .claimRead 3 "e1" "j1"]

theorem released_job_stays_failed :
    ∃ s t, Guarded (step {}) SettlesUnclaimed (State.init indexedDoc) released ∧
      run (step {}) (State.init indexedDoc) released = some s ∧
      Guarded (step {}) SettlesUnclaimed s cameBack ∧ run (step {}) s cameBack = some t ∧
      ∃ job later, s.jobs.lookup "j1" = some job ∧ job.status = .failed ∧
        t.jobs.lookup "j1" = some later ∧ later.status.isActive = false := by
  have hb : Guarded (step {}) SettlesUnclaimed (State.init indexedDoc) released := by
    decide +kernel
  obtain ⟨s, hs, hte⟩ := exists_run_of_any
    (p := fun s : State => (s.jobs.lookup "j1").any (·.status = .failed) &&
      decide (Guarded (step {}) SettlesUnclaimed s cameBack) && (run (step {}) s cameBack).isSome)
    (show (run (step {}) (State.init indexedDoc) released).any _ = true by decide +kernel)
  simp only [Bool.and_eq_true, any_eq_true, decide_eq_true_eq] at hte
  obtain ⟨⟨⟨job, hjob, hf⟩, ha⟩, hso⟩ := hte
  obtain ⟨t, ht⟩ := isSome_iff_exists.mp hso
  obtain ⟨later, hl, hi⟩ := (unclaimed_settled_job_stays_settled {} indexedDoc released
    cameBack s t hb hs ha ht).1 "j1" job hjob (by rw [hf]; rfl)
  exact ⟨s, t, hb, hs, ha, ht, job, later, hjob, hf, hl, hi⟩

private def cancelledMidClaim : List Event :=
  [.requestRead key 0, .requestCommit "j", .claimRead 0 "e" "j", .cancelRead 0 "j",
    .cancelCommit 0 5]

/-- The claim saved late runs the cancelled job again. -/
theorem cancelled_job_runs_again :
    ∃ s t, run (step {}) (State.init indexedDoc) cancelledMidClaim = some s ∧
      (s.jobs.lookup "j").map (·.status) = some .cancelled ∧
      run (step {}) s [.claimSave 0 4 6] = some t ∧
      (t.jobs.lookup "j").map (·.status) = some .running := by
  obtain ⟨s, hs, hte⟩ := exists_run_of_any
    (p := fun s : State => (s.jobs.lookup "j").map (·.status) == some .cancelled &&
      (run (step {}) s [.claimSave 0 4 6]).any
        fun t => (t.jobs.lookup "j").map (·.status) == some .running)
    (show (run (step {}) (State.init indexedDoc) cancelledMidClaim).any _ = true by
      decide +kernel)
  simp only [Bool.and_eq_true, beq_iff_eq, any_eq_true] at hte
  obtain ⟨hc, t, ht, hr⟩ := hte
  exact ⟨s, t, hs, hc, ht, hr⟩

end Aizzak.SummaryJobs
