import Aizzak.IngestionWrites

/-!
What holds of the job rows, the runs and the requests in every reachable state. The rows of
the jobs only ever move on, each save from the row it was read from. Whoever is in a
transaction has read rows that were stored, and every run that has taken its job did so under
an attempt of its own.
-/
namespace Aizzak.IngestionCoherence

open EventRuns KeyedTables VersionedRows IngestionJobs IngestionRuns IngestionWrites Option
open IngestionJob (OwnMove Move)

section Machine

variable {Sig P E C Q : Type}

def SoundRequest (known : String → Prop) (jobs : Jobs) (request : Request E C Q) : Prop :=
  ∀ read saved, request.write.job = some (read, saved) →
    known request.job ∧ Current jobs request.job read ∧ Move read.value saved ∧
      (saved.status = .queued →
        request.kind = .resume ∨ read.value.status = .awaitingConfirmation) ∧
      (request.kind = .resume → saved.status = .queued)

/-- Whoever is in a transaction has read rows that were stored, and every run that has taken
its job did so under an attempt of its own. -/
structure Consistent (issued : List String) (jobs : Jobs)
    (runs : AList fun _ : ℕ => Run P E C Q) (requests : AList fun _ : ℕ => Request E C Q) :
    Prop where
  stored : ∀ id row, jobs.lookup id = some row → id ∈ issued
  known : ∀ r run, runs.lookup r = some run → run.job ∈ issued
  sound : ∀ r run, runs.lookup r = some run → Sound jobs run.job run.taken run.phase
  asked : ∀ q request, requests.lookup q = some request →
    SoundRequest (· ∈ issued) jobs request
  reached : ∀ r run, runs.lookup r = some run → run.phase.isTaken = true →
    ∀ row, jobs.lookup run.job = some row → row.value.Reached run.taken.attempt
  distinct : ∀ r r' run run', runs.lookup r = some run → runs.lookup r' = some run' →
    run.phase.isTaken = true → run'.phase.isTaken = true → run.job = run'.job →
    run.taken.attempt = run'.taken.attempt → r = r'

section Consistent

variable {R : String → IngestionJob → IngestionJob → Prop}
  {fresh : String → Versioned IngestionJob → Prop} {issued : List String} {jobs after : Jobs}
  {runs : AList fun _ : ℕ => Run P E C Q} {requests : AList fun _ : ℕ => Request E C Q}

/-- A request in flight stays sound while others' saves move the rows on. -/
theorem sound_advance {job : String} {taken : IngestionJob} {phase : Phase P E C Q}
    (hso : Sound jobs job taken phase)
    (hc : ∀ read, Current jobs job read → Current after job read) :
    Sound after job taken phase := by
  cases phase with
  | taking read leased => exact ⟨hc read hso.1, hso.2⟩
  | dropping read cancelled => exact ⟨hc read hso.1, hso.2⟩
  | writing write next stale =>
    obtain ⟨hw, hr⟩ := hso
    refine ⟨⟨?_, hw.results, hw.returned⟩, hr⟩
    intro read saved hjob
    obtain ⟨hre, hm⟩ := hw.own read saved hjob
    exact ⟨hc read hre, hm⟩
  | _ => trivial

section

variable (hs : Consistent issued jobs runs requests)
include hs

/-- The saves of other requests keep all runs and requests consistent. -/
theorem Consistent.advance (h : Advances R fresh jobs after)
    (hmo : ∀ id job next, R id job next → Move job next) {later : List String}
    (hi : ∀ id ∈ issued, id ∈ later)
    (hf : ∀ id row, fresh id row → id ∉ issued ∧ id ∈ later) :
    Consistent later after runs requests := by
  have hla : ∀ id ∈ issued, ∀ row, after.lookup id = some row →
      ∃ old, jobs.lookup id = some old ∧ Later (R id) old row :=
    fun id hid row hrow => (h id row hrow).resolve_right fun hnew => (hf id row hnew).1 hid
  refine ⟨?_, ?_, ?_, ?_, ?_, hs.distinct⟩
  · intro id row hrow
    rcases h id row hrow with ⟨old, hold, -⟩ | hnew
    · exact hi id (hs.stored id old hold)
    · exact (hf id row hnew).2
  · exact fun r run hrun => hi _ (hs.known r run hrun)
  · intro r run hrun
    have hid := hs.known r run hrun
    exact sound_advance (hs.sound r run hrun) fun read hrd => hrd.later (hla _ hid)
  · intro q request hre read saved hjob
    obtain ⟨hid, hrd, hrs⟩ := hs.asked q request hre read saved hjob
    exact ⟨hi _ hid, hrd.later (hla _ hid), hrs⟩
  · intro r run hrun ht row hrow
    obtain ⟨old, hl, hm⟩ := hla _ (hs.known r run hrun) row hrow
    exact hm.keeps (fun _ _ hR hr => (hmo _ _ _ hR).reached hr)
      (hs.reached r run hrun ht old hl)

/-- A run that has taken its job may go on to any sound phase. -/
theorem Consistent.rephase {r : ℕ} {run : Run P E C Q} (hrun : runs.lookup r = some run)
    (ht : run.phase.isTaken = true) {phase : Phase P E C Q}
    (hso : Sound jobs run.job run.taken phase) :
    Consistent issued jobs (runs.insert r { run with phase := phase }) requests := by
  refine ⟨hs.stored, forall_insert (hs.known r run hrun) hs.known,
    forall_insert hso hs.sound, hs.asked, ?_, ?_⟩
  · exact forall_insert (fun _ => hs.reached r run hrun ht) hs.reached
  · intro i j a b hi hj
    rcases lookup_insert_iff.mp hi with ⟨rfl, rfl⟩ | ⟨-, hio⟩
    · rcases lookup_insert_iff.mp hj with ⟨rfl, rfl⟩ | ⟨-, hjo⟩
      · exact fun _ _ _ _ => rfl
      · exact fun _ hb => hs.distinct _ j run b hrun hjo ht hb
    · rcases lookup_insert_iff.mp hj with ⟨rfl, rfl⟩ | ⟨-, hjo⟩
      · exact fun ha _ => hs.distinct i _ a run hio hrun ha ht
      · exact hs.distinct i j a b hio hjo

/-- A run may begin on any known job. -/
theorem Consistent.start {r : ℕ} {run : Run P E C Q} (hk : run.job ∈ issued)
    (ht : run.phase.isTaken = false) (hso : Sound jobs run.job run.taken run.phase) :
    Consistent issued jobs (runs.insert r run) requests := by
  refine ⟨hs.stored, forall_insert hk hs.known, forall_insert hso hs.sound,
    hs.asked, ?_, ?_⟩
  · exact forall_insert (fun h => by simp [ht] at h) hs.reached
  · intro i j a b hi hj ha hb
    rcases lookup_insert_iff.mp hi with ⟨rfl, rfl⟩ | ⟨-, hio⟩
    · simp [ht] at ha
    · rcases lookup_insert_iff.mp hj with ⟨rfl, rfl⟩ | ⟨-, hjo⟩
      · simp [ht] at hb
      · exact hs.distinct i j a b hio hjo ha hb

theorem Consistent.endRun (r : ℕ) : Consistent issued jobs (runs.erase r) requests := by
  have hsub : ∀ i run, (runs.erase r).lookup i = some run → runs.lookup i = some run :=
    fun i run h => (lookup_erase_iff.mp h).2
  exact ⟨hs.stored, fun i run h => hs.known i run (hsub i run h),
    fun i run h => hs.sound i run (hsub i run h), hs.asked,
    fun i run h => hs.reached i run (hsub i run h),
    fun i j a b hi hj => hs.distinct i j a b (hsub i a hi) (hsub j b hj)⟩

end

end Consistent

structure SameContents (s t : State P E C Q) : Prop where
  documents : t.documents = s.documents
  pages : t.pages = s.pages
  characterizations : t.characterizations = s.characterizations
  proposals : t.proposals = s.proposals

theorem SameContents.refl (s : State P E C Q) : SameContents s s := ⟨rfl, rfl, rfl, rfl⟩

structure Applied (s : State P E C Q) (document job : String) (write : Write E C Q)
    (t : State P E C Q) : Prop where
  jobs : write.job = none ∧ t.jobs = s.jobs ∨
    ∃ read saved, write.job = some (read, saved) ∧ saveJob s.jobs job read saved = .ok t.jobs
  documents : write.document = none ∧ t.documents = s.documents ∨
    ∃ read saved, write.document = some (read, saved) ∧
      saveDocument s.documents document read saved = .ok t.documents
  characterizations : t.characterizations = match write.record with
    | some record => s.characterizations.insert document record
    | none => s.characterizations
  proposals : t.proposals = (write.proposal.map (document, ·)).toList ++ s.proposals
  pages : t.pages = recordPages (seed s.pages document write.seeds) document write.results

variable {s t : State P E C Q} {document job : String} {write : Write E C Q}

theorem apply_eq_ok {event : String} (h : s.apply document job event write = .ok t) :
    t.runs = s.runs ∧ t.requests = s.requests ∧ t.issued = s.issued ∧
      Applied s document job write t := by
  unfold State.apply at h
  split at h
  · cases h
  · rename_i jobs hj
    split at h
    · cases h
    · rename_i documents hd
      cases h
      refine ⟨rfl, rfl, rfl, ?_, ?_, rfl, rfl, rfl⟩
      · split at hj
        · rename_i hn
          exact .inl ⟨hn, (Except.ok.inj hj).symm⟩
        · rename_i read saved hso
          exact .inr ⟨read, saved, hso, hj⟩
      · split at hd
        · rename_i hn
          exact .inl ⟨hn, (Except.ok.inj hd).symm⟩
        · rename_i read saved hso
          exact .inr ⟨read, saved, hso, hd⟩

theorem Applied.withRun {r : ℕ} {run : Run P E C Q} (h : Applied s document job write t) :
    Applied s document job write (t.withRun r run) :=
  ⟨h.jobs, h.documents, h.characterizations, h.proposals, h.pages⟩

theorem Applied.endRequest {q : ℕ} (h : Applied s document job write t) :
    Applied s document job write (t.endRequest q) :=
  ⟨h.jobs, h.documents, h.characterizations, h.proposals, h.pages⟩

def resumes (s : State P E C Q) (id : String) : Event Sig P → Bool
  | .requestCommit q => (s.requests.lookup q).any fun request =>
      request.kind = .resume ∧ request.job = id
  | _ => false

/-- The moves an event can make: a resume requeues its job, and otherwise a job is requeued
only when it awaits its confirmation. -/
def Allowed (s : State P E C Q) (e : Event Sig P) (id : String) (job after : IngestionJob) :
    Prop :=
  Move job after ∧
    (after.status = .queued → resumes s id e = true ∨ job.status = .awaitingConfirmation) ∧
    (resumes s id e = true → after.status = .queued)

section Steps

variable {cfg : Settings} {ins : Inspector Sig P E C Q} {s t : State P E C Q} {e : Event Sig P}
  {r : ℕ} {run : Run P E C Q}

variable {id : String}

theorem allowed_of_cancel {job after : IngestionJob} {now : ℤ} {code : Option String}
    (hnot : resumes s id e = false) (h : job.cancel now code = .ok after) :
    Allowed s e id job after := by
  refine ⟨.cancel now code h, fun hq => ?_, by simp [hnot]⟩
  simp [(IngestionJob.cancel_cancelled h).2.1] at hq

theorem allowed_of_own {job after : IngestionJob} (hnot : resumes s id e = false)
    (h : OwnMove job after) : Allowed s e id job after :=
  ⟨.own h, fun hq => absurd hq h.not_queued, by simp [hnot]⟩

theorem markPurging_frame (now : ℤ) (s : State P E C Q) (document : String) :
    (markPurging now s document).runs = s.runs ∧
      (markPurging now s document).requests = s.requests ∧
      (markPurging now s document).issued = s.issued := by
  unfold markPurging
  split
  · exact ⟨rfl, rfl, rfl⟩
  · split
    · exact ⟨rfl, rfl, rfl⟩
    · exact ⟨rfl, rfl, rfl⟩

/-- Purging a document resumes no job. -/
theorem markPurging_advances (hnot : ∀ id, resumes s id e = false)
    (now : ℤ) (u : State P E C Q) (document : String) :
    Advances (Allowed s e) (fun _ _ => False) u.jobs (markPurging now u document).jobs := by
  unfold markPurging
  split
  · exact .refl _
  · split
    · exact .refl _
    · simp only
      split
      · exact .refl _
      · rename_i id read ho
        split
        · rename_i cancelled hc
          exact .saved (openFor_eq_some ho).1 (allowed_of_cancel (hnot id) hc)
        · exact .refl _

theorem purge_frame (now : ℤ) (documents : List String) (s : State P E C Q) :
    (documents.foldl (markPurging now) s).runs = s.runs ∧
      (documents.foldl (markPurging now) s).requests = s.requests ∧
      (documents.foldl (markPurging now) s).issued = s.issued := by
  induction documents generalizing s with
  | nil => exact ⟨rfl, rfl, rfl⟩
  | cons document rest ih =>
    obtain ⟨hrn, hre, his⟩ := ih (markPurging now s document)
    obtain ⟨hru, hr, hi⟩ := markPurging_frame now s document
    exact ⟨hrn.trans hru, hre.trans hr, his.trans hi⟩

theorem purge_advances (hnot : ∀ id, resumes s id e = false) (now : ℤ)
    (documents : List String) (u : State P E C Q) :
    Advances (Allowed s e) (fun _ _ => False) u.jobs
      (documents.foldl (markPurging now) u).jobs := by
  induction documents generalizing u with
  | nil => exact .refl _
  | cons document rest ih =>
    exact (markPurging_advances hnot now u document).trans (ih (markPurging now u document))

theorem sweep_shrinks (s : State P E C Q) (document : String) :
    ∀ id row, (sweep s document).jobs.lookup id = some row → s.jobs.lookup id = some row := by
  intro id row hrow
  unfold sweep at hrow
  split_ifs at hrow
  · exact (lookup_eraseAll_eq_some_iff.mp hrow).2
  · exact hrow

theorem sweep_frame (s : State P E C Q) (document : String) :
    (sweep s document).runs = s.runs ∧ (sweep s document).requests = s.requests ∧
      (sweep s document).issued = s.issued := by
  unfold sweep
  split_ifs
  · exact ⟨rfl, rfl, rfl⟩
  · exact ⟨rfl, rfl, rfl⟩

def Coherent (s : State P E C Q) : Prop := Consistent s.issued s.jobs s.runs s.requests

variable {job : String}

theorem requireJob_eq_some {row : Versioned IngestionJob} {document : Versioned Document}
    (h : requireJob s job = some (row, document)) :
    s.jobs.lookup job = some row := by
  obtain ⟨found, hf, hr⟩ := bind_eq_some_iff.mp h
  obtain ⟨document', -, hp⟩ := map_eq_some_iff.mp hr
  obtain ⟨rfl, rfl⟩ := Prod.mk.inj hp
  exact hf

structure ReadsDocument (s : State P E C Q) (request : Request E C Q) : Prop where
  document : ∀ read saved, request.write.document = some (read, saved) →
    s.documents.lookup request.document = some read ∧
      ∃ state, read.value.setProfileState state = .ok saved
  pages : request.write.seeds = [] ∧ request.write.results = []
  record : request.write.record = none ∧ request.write.proposal = none

structure Asked (s t : State P E C Q) : Prop where
  jobs : t.jobs = s.jobs
  contents : SameContents s t
  runs : t.runs = s.runs
  issued : t.issued = s.issued
  requests : ∀ q request, t.requests.lookup q = some request →
    s.requests.lookup q = some request ∨
      SoundRequest (· ∈ s.jobs) s.jobs request ∧ ReadsDocument s request

theorem Asked.refl (s : State P E C Q) : Asked s s :=
  ⟨rfl, .refl s, rfl, rfl, fun _ _ h => .inl h⟩

variable {document : String}

theorem request_asked {q : ℕ} {kind : RequestKind} {moved : Except String (Write E C Q)}
    (h : ∀ write, moved = .ok write →
      SoundRequest (· ∈ s.jobs) s.jobs ⟨kind, job, document, write⟩ ∧
        ReadsDocument s ⟨kind, job, document, write⟩) :
    Asked s (request s q kind job document moved) := by
  cases moved with
  | error _ => exact .refl s
  | ok write =>
    refine ⟨rfl, ⟨rfl, rfl, rfl, rfl⟩, rfl, rfl, ?_⟩
    exact forall_insert (.inr (h write rfl)) fun _ _ hold => .inl hold

theorem soundRequest_of_lookup {kind : RequestKind} {read : Versioned IngestionJob}
    {saved : IngestionJob} {write : Write E C Q} (hre : s.jobs.lookup job = some read)
    (hjob : write.job = some (read, saved)) (hm : Move read.value saved)
    (hq : saved.status = .queued →
      kind = .resume ∨ read.value.status = .awaitingConfirmation)
    (hr : kind = .resume → saved.status = .queued) :
    SoundRequest (· ∈ s.jobs) s.jobs ⟨kind, job, document, write⟩ := by
  intro other after ho
  obtain ⟨rfl, rfl⟩ := Prod.mk.inj (mem_unique hjob ho)
  exact ⟨mem_of_lookup hre, current_of_lookup hre, hm, hq, hr⟩

variable {request : Request E C Q}

theorem readsDocument_of_none (hd : request.write.document = none)
    (hp : (request.write.seeds, request.write.results) = ([], []))
    (hr : (request.write.record, request.write.proposal) = (none, none)) :
    ReadsDocument s request :=
  ⟨by simp [hd], Prod.mk.inj hp, Prod.mk.inj hr⟩

theorem readsDocument_of_lookup {read : Versioned Document} {saved : Document}
    {state : ProfileState} (hre : s.documents.lookup request.document = some read)
    (hd : request.write.document = some (read, saved))
    (hsa : read.value.setProfileState state = .ok saved)
    (hp : request.write.seeds = [] ∧ request.write.results = [])
    (hr : request.write.record = none ∧ request.write.proposal = none) :
    ReadsDocument s request := by
  refine ⟨fun other after ho => ?_, hp, hr⟩
  obtain ⟨rfl, rfl⟩ := Prod.mk.inj (mem_unique hd ho)
  exact ⟨hre, state, hsa⟩

theorem cancelRequest_asked (q : ℕ) (job : String) (now : ℤ) :
    Asked s (cancelRequest s q job now) := by
  unfold cancelRequest
  split
  · exact .refl s
  · rename_i row document hr
    split_ifs with hre hru
    · exact .refl s
    · refine request_asked fun write hw => ?_
      obtain ⟨saved, hm, rfl⟩ := map_eq_ok hw
      refine ⟨soundRequest_of_lookup (requireJob_eq_some hr) rfl
        (.requestCancel now hm) ?_ (by simp), readsDocument_of_none rfl rfl rfl⟩
      simp [(IngestionJob.requestCancel_running hm).2.1]
    · refine request_asked fun write hw => ?_
      obtain ⟨saved, hm, rfl⟩ := map_eq_ok hw
      refine ⟨soundRequest_of_lookup (requireJob_eq_some hr) rfl
        (.cancel now none hm) ?_ (by simp), readsDocument_of_none rfl rfl rfl⟩
      simp [(IngestionJob.cancel_cancelled hm).2.1]

theorem resumeRequest_asked (q : ℕ) (job : String) (now : ℤ) :
    Asked s (resumeRequest s q job now) := by
  unfold resumeRequest
  split
  · exact .refl s
  · rename_i row document hr
    split_ifs
    · exact .refl s
    · refine request_asked fun write hw => ?_
      obtain ⟨saved, hm, rfl⟩ := map_eq_ok hw
      exact ⟨soundRequest_of_lookup (requireJob_eq_some hr) rfl (.requeue now hm)
        (fun _ => .inl rfl) fun _ => (IngestionJob.requeue_queued hm).1,
        readsDocument_of_none rfl rfl rfl⟩

theorem confirmRequest_asked (q : ℕ) (document : String) (now : ℤ) :
    Asked s (confirmRequest s q document now) := by
  unfold confirmRequest
  split
  · rename_i row job read hrow ho
    split_ifs with ha
    · exact .refl s
    · refine request_asked fun write hw => ?_
      obtain ⟨saved, hsa, hr⟩ := bind_eq_ok hw
      obtain ⟨requeued, hm, rfl⟩ := map_eq_ok hr
      exact ⟨soundRequest_of_lookup (openFor_eq_some ho).1 rfl (.requeue now hm)
        (fun _ => .inr (by simpa using ha)) (by simp),
        readsDocument_of_lookup (lockLive_eq_some hrow).1 rfl hsa ⟨rfl, rfl⟩ ⟨rfl, rfl⟩⟩
  · exact .refl s

theorem replaceProfileRequest_asked (q : ℕ) (document : String) :
    Asked s (replaceProfileRequest s q document) := by
  unfold replaceProfileRequest
  split
  · exact .refl s
  · rename_i row hrow
    split_ifs
    · exact .refl s
    · refine request_asked fun write hw => ?_
      obtain ⟨saved, hsa, rfl⟩ := map_eq_ok hw
      refine ⟨fun read after hjob => (by cases hjob), ?_⟩
      exact readsDocument_of_lookup (lockLive_eq_some hrow).1 rfl hsa ⟨rfl, rfl⟩ ⟨rfl, rfl⟩

structure Started (s : State P E C Q) (run : Run P E C Q) : Prop where
  read : ∃ row, s.jobs.lookup run.job = some row ∧ run.document = row.value.documentId ∧
    run.taken.kind = row.value.kind
  taken : run.phase.isTaken = false
  sound : Sound s.jobs run.job run.taken run.phase

theorem deliver_eq_some {event : String} {now : ℤ} (h : deliver cfg s r job event now = some t) :
    t.jobs = s.jobs ∧ SameContents s t ∧ t.requests = s.requests ∧ t.issued = s.issued ∧
      (t.runs = s.runs ∨ ∃ run, t.runs = s.runs.insert r run ∧ Started s run) := by
  have hc : ∀ event, SameContents s (s.claim event) := fun _ => ⟨rfl, rfl, rfl, rfl⟩
  have hw : ∀ run, SameContents s (s.withRun r run) := fun _ => ⟨rfl, rfl, rfl, rfl⟩
  unfold deliver at h
  split at h
  · split_ifs at h
    cases h
    exact ⟨rfl, hc _, rfl, rfl, .inl rfl⟩
  · rename_i row hrow
    split_ifs at h
    · cases h
      exact ⟨rfl, hc _, rfl, rfl, .inl rfl⟩
    · split at h
      · split at h
        · rename_i cancelled hca
          cases h
          refine ⟨rfl, hw _, rfl, rfl, .inr ⟨_, rfl, ⟨row, hrow, rfl, rfl⟩, rfl, ?_⟩⟩
          exact ⟨current_of_lookup hrow, _, _, hca⟩
        · cases h
          exact ⟨rfl, .refl _, rfl, rfl, .inl rfl⟩
      · split at h
        · cases h
          exact ⟨rfl, .refl _, rfl, rfl, .inl rfl⟩
        · rename_i leased ht
          cases h
          refine ⟨rfl, hw _, rfl, rfl, .inr ⟨_, rfl, ⟨row, hrow, rfl, ?_⟩, rfl, ?_⟩⟩
          · exact (IngestionJob.takeLease_same ht).2
          · exact ⟨current_of_lookup hrow, rfl, _, _, _, _, ht, rfl⟩

inductive TakeCommitted (s : State P E C Q) (r : ℕ) (run : Run P E C Q) (t : State P E C Q) :
    Prop where
  | took (read : Versioned IngestionJob) (hread : s.jobs.lookup run.job = some read)
      (hleased : Leased read.value run.taken)
      (hjobs : t.jobs = s.jobs.insert run.job ⟨run.taken, read.version + 1⟩)
      (hruns : t.runs = s.runs.insert r { run with phase := .profile })
  | dropped (read : Versioned IngestionJob) (hread : s.jobs.lookup run.job = some read)
      (cancelled : IngestionJob) (now : ℤ) (code : Option String)
      (hcancel : read.value.cancel now code = .ok cancelled)
      (hjobs : t.jobs = s.jobs.insert run.job ⟨cancelled, read.version + 1⟩)
      (hruns : t.runs = s.runs.erase r)
  | raised (hjobs : t.jobs = s.jobs) (hruns : t.runs = s.runs.erase r)

theorem takeCommit_eq_some (hso : Sound s.jobs run.job run.taken run.phase)
    (h : takeCommit s r run = some t) :
    run.phase.isTaken = false ∧ SameContents s t ∧ t.requests = s.requests ∧
      t.issued = s.issued ∧ TakeCommitted s r run t := by
  unfold takeCommit at h
  split at h
  · rename_i read leased hp
    simp only [hp] at hso
    obtain ⟨hc, rfl, ht⟩ := hso
    refine ⟨by simp [hp, Phase.isTaken], ?_⟩
    split at h
    · rename_i jobs hsa
      obtain ⟨hr, rfl⟩ := saveJob_eq_ok hc hsa
      cases h
      exact ⟨⟨rfl, rfl, rfl, rfl⟩, rfl, rfl, .took read hr ht rfl rfl⟩
    · cases h
      exact ⟨⟨rfl, rfl, rfl, rfl⟩, rfl, rfl, .raised rfl rfl⟩
  · rename_i read cancelled hp
    simp only [hp] at hso
    obtain ⟨hc, now, code, hca⟩ := hso
    refine ⟨by simp [hp, Phase.isTaken], ?_⟩
    split_ifs at h
    split at h
    · rename_i jobs hsa
      obtain ⟨hr, rfl⟩ := saveJob_eq_ok hc hsa
      cases h
      exact ⟨⟨rfl, rfl, rfl, rfl⟩, rfl, rfl,
        .dropped read hr cancelled now code hca rfl rfl⟩
    · cases h
      exact ⟨⟨rfl, rfl, rfl, rfl⟩, rfl, rfl, .raised rfl rfl⟩
  · cases h

inductive Committed (s : State P E C Q) (r : ℕ) (run : Run P E C Q) (t : State P E C Q) :
    Prop where
  | wrote (write : Write E C Q) (next stale : Phase P E C Q)
      (hphase : run.phase = .writing write next stale)
      (happlied : Applied s run.document run.job write t)
      (hruns : t.runs = s.runs.insert r { run with phase := next })
  | conflict (write : Write E C Q) (next stale : Phase P E C Q) (found : Conflict)
      (hphase : run.phase = .writing write next stale)
      (hplain : isPlain (next.conflicted stale found) = true)
      (hne : next.conflicted stale found ≠ .ended .returned)
      (ht : t = s.withRun r { run with phase := next.conflicted stale found })

/-- A commit of a run changes the tables by what it was about to write. -/
theorem commitRun_eq_some (hso : Sound s.jobs run.job run.taken run.phase)
    (h : commitRun s r run = some t) :
    run.phase.isTaken = true ∧ t.requests = s.requests ∧ t.issued = s.issued ∧
      Committed s r run t := by
  unfold commitRun at h
  split at h
  · rename_i write next stale hp
    simp only [hp] at hso
    obtain ⟨-, hn, hst, hne⟩ := hso
    refine ⟨by simp [hp, Phase.isTaken], ?_⟩
    split_ifs at h
    split at h
    · rename_i u ha
      cases h
      obtain ⟨hru, hr, hi, hap⟩ := apply_eq_ok ha
      refine ⟨hr, hi, .wrote write next stale hp hap.withRun ?_⟩
      simp only [State.withRun, hru]
    · rename_i conflict ha
      cases h
      refine ⟨rfl, rfl, .conflict write next stale conflict hp ?_ ?_ rfl⟩
      · unfold Phase.conflicted
        split
        · split
          · rfl
          · exact hst
        · exact hst
        · exact hst
      · unfold Phase.conflicted
        split
        · split
          · simp
          · exact hne
        · exact hne
        · exact hne
  · cases h

theorem requestCommit_eq_some {q : ℕ} (h : requestCommit s q request = some t) :
    t.runs = s.runs ∧ t.requests = s.requests.erase q ∧ t.issued = s.issued ∧
      (t = s.endRequest q ∨ Applied s request.document request.job request.write t) := by
  unfold requestCommit at h
  split_ifs at h
  split at h
  · rename_i u ha
    cases h
    obtain ⟨hru, hr, hi, hap⟩ := apply_eq_ok ha
    refine ⟨hru, ?_, hi, .inr hap.endRequest⟩
    simp only [State.endRequest, hr]
  · cases h
    exact ⟨rfl, rfl, rfl, .inl rfl⟩

theorem Applied.advances {write : Write E C Q} {R : String → IngestionJob → IngestionJob → Prop}
    {fresh : String → Versioned IngestionJob → Prop} (h : Applied s document job write t)
    (hm : ∀ read saved, write.job = some (read, saved) →
      Current s.jobs job read ∧ R job read.value saved) :
    Advances R fresh s.jobs t.jobs := by
  rcases h.jobs with ⟨-, hsa⟩ | ⟨read, saved, hjob, hsv⟩
  · exact hsa ▸ .refl _
  · obtain ⟨hc, hR⟩ := hm read saved hjob
    obtain ⟨hr, hj⟩ := saveJob_eq_ok hc hsv
    exact hj ▸ .saved hr hR

structure Added (s : State P E C Q) (e : Event Sig P) (t : State P E C Q) (id : String)
    (row : Versioned IngestionJob) : Prop where
  issued : id ∉ s.issued ∧ id ∈ t.issued
  document : row.value.documentId ∈ t.issued ∧ row.value.kind = .ingest ∨
    ∃ job numbers, e = .reprocess row.value.documentId job numbers

/-- What an event does to the rows of the jobs, to the ids given out and to the requests in
flight: the rows only move on, and a new request has just read its rows. -/
structure RowsStep (s : State P E C Q) (e : Event Sig P) (t : State P E C Q) : Prop where
  jobs : Advances (Allowed s e) (Added s e t) s.jobs t.jobs
  issued : ∀ id ∈ s.issued, id ∈ t.issued
  requests : ∀ q request, t.requests.lookup q = some request →
    s.requests.lookup q = some request ∨
      t.jobs = s.jobs ∧ SoundRequest (· ∈ s.jobs) s.jobs request ∧ ReadsDocument s request

theorem RowsStep.moved (hj : Advances (Allowed s e) (Added s e t) s.jobs t.jobs)
    (hi : t.issued = s.issued) (hr : t.requests = s.requests) : RowsStep s e t :=
  ⟨hj, fun _ h => hi ▸ h, fun _ _ h => .inl (hr ▸ h)⟩

theorem RowsStep.same (hj : t.jobs = s.jobs) (hi : t.issued = s.issued)
    (hr : t.requests = s.requests) : RowsStep s e t :=
  .moved (hj ▸ .refl _) hi hr

theorem Asked.rowsStep (h : Asked s t) : RowsStep s e t :=
  ⟨h.jobs ▸ .refl _, fun _ hid => h.issued ▸ hid,
    fun q request hr => (h.requests q request hr).imp_right fun hs => ⟨h.jobs, hs⟩⟩

/-- No event does anything else to the jobs. -/
theorem step_rows (hs : Coherent s) (ht : step cfg ins s e = some t) : RowsStep s e t := by
  cases e with
  | deliver r job event now =>
    simp only [step] at ht
    split_ifs at ht
    obtain ⟨hj, -, hr, hi, -⟩ := deliver_eq_some ht
    exact .same hj hi hr
  | takeCommit r =>
    obtain ⟨run, hrun, ht⟩ := bind_eq_some_iff.mp ht
    obtain ⟨-, -, hr, hi, hc⟩ := takeCommit_eq_some (hs.sound r run hrun) ht
    refine .moved ?_ hi hr
    cases hc with
    | took read hrd hle hj _ =>
      obtain ⟨now, leaseS, stage, before, hl, hta⟩ := hle
      refine hj ▸ .saved hrd
        ⟨.take now leaseS stage before hl hta, ?_, by simp [resumes]⟩
      intro hq
      simp [hta, (IngestionJob.takeLease_running hl).1] at hq
    | dropped read hrd cancelled now code hca hj _ =>
      exact hj ▸ .saved hrd (allowed_of_cancel rfl hca)
    | raised hj _ => exact hj ▸ .refl _
  | takeFails r =>
    obtain ⟨run, hrun, ht⟩ := bind_eq_some_iff.mp ht
    split_ifs at ht
    cases ht
    exact .same rfl rfl rfl
  | proceed r input =>
    obtain ⟨run, hrun, ht⟩ := bind_eq_some_iff.mp ht
    obtain ⟨phase, -, rfl⟩ := map_eq_some_iff.mp ht
    exact .same rfl rfl rfl
  | commit r =>
    obtain ⟨run, hrun, ht⟩ := bind_eq_some_iff.mp ht
    have hso := hs.sound r run hrun
    obtain ⟨-, hr, hi, hc⟩ := commitRun_eq_some hso ht
    refine .moved ?_ hi hr
    cases hc with
    | wrote write next stale hp ha _ =>
      simp only [hp] at hso
      refine ha.advances fun read saved hjob => ?_
      obtain ⟨hcu, -, hown⟩ := hso.1.own read saved hjob
      exact ⟨hcu, allowed_of_own rfl hown⟩
    | conflict _ _ _ _ _ _ _ heq => exact heq ▸ .refl _
  | cancel q job now =>
    simp only [step] at ht
    split_ifs at ht
    exact some.inj ht ▸ (cancelRequest_asked q job now).rowsStep
  | resume q job now =>
    simp only [step] at ht
    split_ifs at ht
    exact some.inj ht ▸ (resumeRequest_asked q job now).rowsStep
  | confirm q document now =>
    simp only [step] at ht
    split_ifs at ht
    exact some.inj ht ▸ (confirmRequest_asked q document now).rowsStep
  | replaceProfile q document =>
    simp only [step] at ht
    split_ifs at ht
    exact some.inj ht ▸ (replaceProfileRequest_asked q document).rowsStep
  | requestCommit q =>
    obtain ⟨request, hrq, ht⟩ := bind_eq_some_iff.mp ht
    obtain ⟨-, hr, hi, hc⟩ := requestCommit_eq_some ht
    refine ⟨?_, fun _ h => hi ▸ h,
      fun _ _ h => .inl (lookup_erase_iff.mp (hr ▸ h)).2⟩
    rcases hc with rfl | ha
    · exact .refl _
    · refine ha.advances fun read saved hjob => ?_
      obtain ⟨-, hcu, hm, hq, hre⟩ := hs.asked q request hrq read saved hjob
      refine ⟨hcu, hm, fun h => (hq h).imp_left fun hk => ?_, fun h => ?_⟩
      · simp [resumes, hrq, hk]
      · simp only [resumes, hrq, any_some, decide_eq_true_eq] at h
        exact hre h.1
  | requestFails q =>
    cases ht
    exact ⟨.refl _, fun _ h => h, fun _ _ h => .inl (lookup_erase_iff.mp h).2⟩
  | register document job project file active readable =>
    simp only [step, register] at ht
    split_ifs at ht with hrf
    cases ht
    simp only [Bool.or_eq_true, not_or, decide_eq_true_eq] at hrf
    refine ⟨.added ⟨⟨hrf.1.1.1.2, by simp⟩, .inl ⟨by simp [newJob], rfl⟩⟩, fun _ h => ?_,
      fun _ _ h => .inl h⟩
    exact List.mem_cons_of_mem _ (List.mem_cons_of_mem _ h)
  | reprocess document job pages =>
    simp only [step, reprocess] at ht
    split at ht
    · cases ht
    · split at ht
      · cases ht
      · split_ifs at ht with hrf
        cases ht
        simp only [not_or] at hrf
        exact ⟨.added ⟨⟨hrf.2.1, by simp⟩, .inr ⟨job, pages, rfl⟩⟩,
          fun _ h => List.mem_cons_of_mem _ h, fun _ _ h => .inl h⟩
  | purge documents now =>
    simp only [step] at ht
    split_ifs at ht
    obtain ⟨-, hr, hi⟩ := purge_frame now documents s
    cases ht
    exact .moved (purge_advances (fun _ => rfl) now documents s).weaken hi hr
  | sweep document =>
    obtain ⟨-, hr, hi⟩ := sweep_frame s document
    cases ht
    exact .moved (.shrink (sweep_shrinks s document)) hi hr

inductive RunsStep (cfg : Settings) (ins : Inspector Sig P E C Q) (s : State P E C Q)
    (e : Event Sig P) (t : State P E C Q) : Prop where
  | same (hruns : t.runs = s.runs)
  | started (r : ℕ) (run : Run P E C Q) (hnew : r ∉ s.runs) (hstarted : Started s run)
      (hjobs : t.jobs = s.jobs) (hruns : t.runs = s.runs.insert r run)
  | dropped (r : ℕ) (run : Run P E C Q) (hrun : s.runs.lookup r = some run)
      (htaken : run.phase.isTaken = false) (hruns : t.runs = s.runs.erase r)
  | took (r : ℕ) (run : Run P E C Q) (hrun : s.runs.lookup r = some run)
      (htaken : run.phase.isTaken = false) (read : Versioned IngestionJob)
      (hread : s.jobs.lookup run.job = some read) (hleased : Leased read.value run.taken)
      (hjobs : t.jobs = s.jobs.insert run.job ⟨run.taken, read.version + 1⟩)
      (hruns : t.runs = s.runs.insert r { run with phase := .profile })
  | proceeded (r : ℕ) (run : Run P E C Q) (input : Input Sig P) (phase : Phase P E C Q)
      (he : e = .proceed r input) (hrun : s.runs.lookup r = some run)
      (htaken : run.phase.isTaken = true) (hphase : proceed cfg ins s r run input = some phase)
      (hopened : Opened s run (strands s run input) phase)
      (ht : t = s.withRun r { run with phase := phase })
  | committed (r : ℕ) (run : Run P E C Q) (write : Write E C Q) (next stale : Phase P E C Q)
      (he : e = .commit r) (hrun : s.runs.lookup r = some run)
      (hphase : run.phase = .writing write next stale)
      (happlied : Applied s run.document run.job write t)
      (hruns : t.runs = s.runs.insert r { run with phase := next })
  | conflicted (r : ℕ) (run : Run P E C Q) (write : Write E C Q) (next stale : Phase P E C Q)
      (found : Conflict) (hrun : s.runs.lookup r = some run)
      (hphase : run.phase = .writing write next stale)
      (hplain : isPlain (next.conflicted stale found) = true)
      (hne : next.conflicted stale found ≠ .ended .returned)
      (ht : t = s.withRun r { run with phase := next.conflicted stale found })

/-- No event does anything else to the runs. -/
theorem step_runs (hs : Coherent s) (ht : step cfg ins s e = some t) :
    RunsStep cfg ins s e t := by
  cases e with
  | deliver r job event now =>
    simp only [step] at ht
    split_ifs at ht with hmem
    obtain ⟨hj, -, -, -, hru | ⟨run, hru, hst⟩⟩ := deliver_eq_some ht
    · exact .same hru
    · exact .started r run hmem hst hj hru
  | takeCommit r =>
    obtain ⟨run, hrun, ht⟩ := bind_eq_some_iff.mp ht
    obtain ⟨hta, -, -, -, hc⟩ := takeCommit_eq_some (hs.sound r run hrun) ht
    cases hc with
    | took read hre hl hj hru =>
      exact .took r run hrun hta read hre hl hj hru
    | dropped _ _ _ _ _ _ _ hru => exact .dropped r run hrun hta hru
    | raised _ hru => exact .dropped r run hrun hta hru
  | takeFails r =>
    obtain ⟨run, hrun, ht⟩ := bind_eq_some_iff.mp ht
    split_ifs at ht with hta
    cases ht
    exact .dropped r run hrun (by simpa using hta) rfl
  | proceed r input =>
    obtain ⟨run, hrun, ht⟩ := bind_eq_some_iff.mp ht
    obtain ⟨phase, hp, rfl⟩ := map_eq_some_iff.mp ht
    exact .proceeded r run input phase rfl hrun (proceed_isTaken hp) hp
      (proceed_opened hp) rfl
  | commit r =>
    obtain ⟨run, hrun, ht⟩ := bind_eq_some_iff.mp ht
    obtain ⟨-, -, -, hc⟩ := commitRun_eq_some (hs.sound r run hrun) ht
    cases hc with
    | wrote write next stale hp ha hru =>
      exact .committed r run write next stale rfl hrun hp ha hru
    | conflict write next stale found hp hpl hne heq =>
      exact .conflicted r run write next stale found hrun hp hpl hne heq
  | cancel q job now =>
    simp only [step] at ht
    split_ifs at ht
    exact .same (some.inj ht ▸ (cancelRequest_asked q job now).runs)
  | resume q job now =>
    simp only [step] at ht
    split_ifs at ht
    exact .same (some.inj ht ▸ (resumeRequest_asked q job now).runs)
  | confirm q document now =>
    simp only [step] at ht
    split_ifs at ht
    exact .same (some.inj ht ▸ (confirmRequest_asked q document now).runs)
  | replaceProfile q document =>
    simp only [step] at ht
    split_ifs at ht
    exact .same (some.inj ht ▸ (replaceProfileRequest_asked q document).runs)
  | requestCommit q =>
    obtain ⟨request, hr, ht⟩ := bind_eq_some_iff.mp ht
    exact .same (requestCommit_eq_some ht).1
  | requestFails q => exact .same (some.inj ht ▸ rfl)
  | register document job project file active readable =>
    simp only [step, register] at ht
    split_ifs at ht
    exact .same (some.inj ht ▸ rfl)
  | reprocess document job pages =>
    simp only [step, reprocess] at ht
    split at ht
    · cases ht
    · split at ht
      · cases ht
      · split_ifs at ht
        exact .same (some.inj ht ▸ rfl)
  | purge documents now =>
    simp only [step] at ht
    split_ifs at ht
    exact .same (some.inj ht ▸ (purge_frame now documents s).1)
  | sweep document => exact .same (some.inj ht ▸ (sweep_frame s document).1)

theorem Coherent.advance (hs : Coherent s) (h : RowsStep s e t) :
    Consistent t.issued t.jobs s.runs s.requests :=
  Consistent.advance hs h.jobs (fun _ _ _ ha => ha.1) h.issued
    fun _ _ had => had.issued

theorem Coherent.known_of_mem (hs : Coherent s) (h : id ∈ s.jobs) :
    id ∈ s.issued := by
  obtain ⟨row, hrow⟩ := isSome_iff_exists.mp (AList.lookup_isSome.mpr h)
  exact hs.stored id row hrow

theorem Coherent.take_exceeds (hs : Coherent s) {read : Versioned IngestionJob}
    (hre : s.jobs.lookup run.job = some read) (hle : Leased read.value run.taken)
    (i : ℕ) (other : Run P E C Q) (ho : s.runs.lookup i = some other)
    (ht : other.phase.isTaken = true) (hjob : other.job = run.job) :
    other.taken.attempt < run.taken.attempt := by
  obtain ⟨now, leaseS, stage, before, hl, hrun⟩ := hle
  have hr := hs.reached i other ho ht read (hjob ▸ hre)
  have hlt := hr.lt_of_takeLease hl
  exact hrun ▸ hlt

/-- A take supersedes the earlier runs of the job. -/
theorem Consistent.take {issued : List String} {jobs after : Jobs}
    {runs : AList fun _ : ℕ => Run P E C Q} {requests : AList fun _ : ℕ => Request E C Q}
    (hs : Consistent issued after runs requests) (hk : run.job ∈ issued)
    (hsm : ∀ i other, runs.lookup i = some other → other.phase.isTaken = true →
      other.job = run.job → other.taken.attempt < run.taken.attempt)
    {version : ℕ} (haf : after = jobs.insert run.job ⟨run.taken, version⟩)
    (hr : run.taken.status = .running) :
    Consistent issued after (runs.insert r { run with phase := .profile }) requests := by
  have hst : ∀ row, after.lookup run.job = some row → row.value = run.taken := by
    intro row hrow
    rw [haf, AList.lookup_insert] at hrow
    exact some.inj hrow ▸ rfl
  refine ⟨hs.stored, forall_insert hk hs.known,
    forall_insert trivial hs.sound, hs.asked, ?_, ?_⟩
  · refine forall_insert (fun _ row hrow => ?_) hs.reached
    rw [hst row hrow]
    exact ⟨le_rfl, fun _ => by simp [hr]⟩
  · intro i j a b hi hj ha hb hjob hat
    rcases lookup_insert_iff.mp hi with ⟨rfl, rfl⟩ | ⟨-, hio⟩
    · rcases lookup_insert_iff.mp hj with ⟨rfl, rfl⟩ | ⟨-, hjo⟩
      · rfl
      · have hlt := hsm j b hjo hb hjob.symm
        simp only at hat
        omega
    · rcases lookup_insert_iff.mp hj with ⟨rfl, rfl⟩ | ⟨-, hjo⟩
      · have hlt := hsm i a hio ha hjob
        simp only at hat
        omega
      · exact hs.distinct i j a b hio hjo ha hb hjob hat

/-- Every event keeps the machine coherent. -/
theorem step_coherent (s : State P E C Q) (e : Event Sig P) (t : State P E C Q)
    (hs : Coherent s) (ht : step cfg ins s e = some t) : Coherent t := by
  have hro := step_rows hs ht
  have hj : Consistent t.issued t.jobs s.runs s.requests := hs.advance hro
  have hru : Consistent t.issued t.jobs t.runs s.requests := by
    cases step_runs hs ht with
    | same hru => exact hru ▸ hj
    | started r run hnew hst hsa hru =>
      obtain ⟨row, hrow, -⟩ := hst.read
      have hid := hro.issued _ (hs.stored _ row hrow)
      rw [hsa] at hj ⊢
      exact hru ▸ hj.start hid hst.taken hst.sound
    | dropped r run hrun hta hru => exact hru ▸ hj.endRun r
    | took r run hrun hta read hre hl ha hru =>
      have hid := hro.issued _ (hs.stored _ read hre)
      exact hru ▸ hj.take hid (hs.take_exceeds hre hl) ha hl.running
    | proceeded r run input phase he hrun hta _ ho heq =>
      subst heq
      exact hj.rephase hrun hta ho.sound
    | committed r run write next stale he hrun hp hap hru =>
      have hso := hs.sound r run hrun
      simp only [hp] at hso
      have hta : run.phase.isTaken = true := by simp [hp, Phase.isTaken]
      exact hru ▸ hj.rephase hrun hta (sound_of_plain hso.2.1)
    | conflicted r run write next stale found hrun hp hpl hne heq =>
      subst heq
      have hta : run.phase.isTaken = true := by simp [hp, Phase.isTaken]
      exact hj.rephase hrun hta (sound_of_plain hpl)
  refine ⟨hru.stored, hru.known, hru.sound, ?_, hru.reached, hru.distinct⟩
  intro q request hr
  rcases hro.requests q request hr with hold | ⟨hsa, hso, -⟩
  · exact hj.asked q request hold
  · intro read saved hjob
    obtain ⟨hk, hc, hrs⟩ := hso read saved hjob
    exact ⟨hro.issued _ (hs.known_of_mem hk), hsa ▸ hc, hrs⟩

theorem coherent_init : Coherent (State.init : State P E C Q) := by
  constructor <;> simp [State.init]

end Steps

end Machine

def pageCounter : Inspector ℕ Unit Unit ℕ ℕ where
  pageNo := id
  classify := fun _ _ => (.succeeded, none, ())
  blank := fun _ => ()
  conclude := fun _ _ _ _ pages => (pages.length, pages.length)
  accepts := fun _ _ => true

def sampleSettings : Settings := ⟨10, 100, 2⟩

end Aizzak.IngestionCoherence
