import Aizzak.DocumentRegistry

/-!
The status of a knowledge document under the worker and the cancellation of a re-index. The
worker reads a document, stores `indexing`, runs the pipeline and stores the outcome; a
cancellation reads its job and stores `failed` for the documents that were pending. Each of
them decides on what it read and then writes without a condition. A terminal status is final
as long as, whenever one is stored, nobody else who read the document before is still about
to store another.
-/
namespace Aizzak.DocumentLifecycle

open EventRuns KeyedTables DocumentRegistry Option

/-- The documents a job rebuilds, by their new ids; their statuses are read off the corpus. -/
structure ReindexJob where
  items : List String
  cancelledAt : Option ℕ

inductive ReindexJobStatus where
  | running
  | completed
  | cancelled
deriving DecidableEq

namespace ReindexJob

def statuses (job : ReindexJob) (docs : Documents) : List (String × IndexStatus) :=
  job.items.filterMap fun id => (docs.lookup id).map fun document => (id, document.status)

def status (job : ReindexJob) (docs : Documents) : ReindexJobStatus :=
  if job.cancelledAt.isSome then .cancelled
  else if ∀ item ∈ job.statuses docs, item.2.isTerminal then .completed
  else .running

def claimed (job : ReindexJob) (docs : Documents) : List String :=
  ((job.statuses docs).filter fun item => item.2 = .pending).map (·.1)

end ReindexJob

inductive Phase where
  | claiming
  | pipeline
  | indexed (contentHash : String)
  | failing (error : String)

structure Attempt where
  event : String
  document : String
  phase : Phase

structure Cancel where
  job : String
  claimed : List String

structure State where
  docs : Documents
  jobs : AList fun _ : String => ReindexJob
  processed : List String
  attempts : AList fun _ : ℕ => Attempt
  cancels : AList fun _ : ℕ => Cancel

inductive Event where
  | register (document fileId : String) (spaceId : Option String)
  | reindex (job : String) (items : List String)
  | run (id : ℕ) (event document : String)
  | fail (id : ℕ) (event document reason : String)
  | claim (id : ℕ)
  | pipeline (id : ℕ) (outcome : Except String String)
  | finalize (id : ℕ)
  | crash (id : ℕ)
  | cancelRead (id : ℕ) (job : String)
  | cancelCommit (id : ℕ) (now : ℕ)
  | cancelAbort (id : ℕ)

def failAll (docs : Documents) (ids : List String) : Documents :=
  ids.foldl (fun docs id => setStatus docs id .failed none none) docs

namespace State

def withAttempt (s : State) (id : ℕ) (attempt : Attempt) : State :=
  { s with attempts := s.attempts.insert id attempt }

def start (s : State) (id : ℕ) (attempt : Attempt) : Option State :=
  if id ∈ s.attempts then none
  else match s.docs.lookup attempt.document with
    | none => some s
    | some document =>
      if document.status.isTerminal then some s else some (s.withAttempt id attempt)

/-- The terminal transaction. A delivery processed before writes nothing. -/
def finish (s : State) (id : ℕ) (attempt : Attempt) (status : IndexStatus)
    (contentHash : Option String) : State :=
  let ended := { s with attempts := s.attempts.erase id }
  if attempt.event ∈ s.processed then ended
  else { ended with
    docs := setStatus s.docs attempt.document status contentHash (some pipelineVersion)
    processed := attempt.event :: s.processed }

end State

def step (s : State) : Event → Option State
  | .register document fileId spaceId =>
    if document ∈ s.docs then none
    else some { s with docs := s.docs.insert document (pendingDocument fileId spaceId) }
  | .reindex job items =>
    if job ∈ s.jobs then none else some { s with jobs := s.jobs.insert job ⟨items, none⟩ }
  | .run id event document => s.start id ⟨event, document, .claiming⟩
  | .fail id event document reason => s.start id ⟨event, document, .failing reason⟩
  | .claim id =>
    match s.attempts.lookup id with
    | some ⟨event, document, .claiming⟩ =>
      some ({ s with docs := setStatus s.docs document .indexing none none }.withAttempt id
        ⟨event, document, .pipeline⟩)
    | _ => none
  | .pipeline id outcome =>
    match s.attempts.lookup id with
    | some ⟨event, document, .pipeline⟩ =>
      match outcome with
      | .ok contentHash => some (s.withAttempt id ⟨event, document, .indexed contentHash⟩)
      | .error error => some (s.withAttempt id ⟨event, document, .failing error⟩)
    | _ => none
  | .finalize id =>
    match s.attempts.lookup id with
    | some attempt =>
      match attempt.phase with
      | .indexed contentHash => some (s.finish id attempt .indexed (some contentHash))
      | .failing _ => some (s.finish id attempt .failed none)
      | _ => none
    | none => none
  | .crash id => some { s with attempts := s.attempts.erase id }
  | .cancelRead id jobId =>
    if id ∈ s.cancels then none
    else match s.jobs.lookup jobId with
      | none => some s
      | some job =>
        match job.status s.docs with
        | .cancelled | .completed => some s
        | .running =>
          some { s with cancels := s.cancels.insert id ⟨jobId, job.claimed s.docs⟩ }
  | .cancelCommit id now =>
    match s.cancels.lookup id with
    | some cancel =>
      match s.jobs.lookup cancel.job with
      | some job =>
        some { s with
          docs := failAll s.docs cancel.claimed
          jobs := s.jobs.insert cancel.job { job with cancelledAt := some now }
          cancels := s.cancels.erase id }
      | none => none
    | none => none
  | .cancelAbort id => some { s with cancels := s.cancels.erase id }

def Attempt.mayChange (attempt : Attempt) (processed : List String) (status : IndexStatus) :
    Bool :=
  match attempt.phase with
  | .claiming => true
  | .pipeline => attempt.event ∉ processed
  | .indexed _ => attempt.event ∉ processed ∧ status ≠ .indexed
  | .failing _ => attempt.event ∉ processed ∧ status ≠ .failed

def Cancel.mayChange (cancel : Cancel) (document : String) (status : IndexStatus) : Bool :=
  document ∈ cancel.claimed ∧ status ≠ .failed

def State.undisputed (s : State) (except : Option ℕ) (processed : List String)
    (document : String) (status : IndexStatus) : Bool :=
  (s.attempts.keys.all fun id => some id = except ||
    (s.attempts.lookup id).all fun attempt =>
      attempt.document ≠ document || !attempt.mayChange processed status) &&
  s.cancels.keys.all fun id =>
    (s.cancels.lookup id).all fun cancel => !cancel.mayChange document status

def Phase.outcome : Phase → Option IndexStatus
  | .indexed _ => some .indexed
  | .failing _ => some .failed
  | .claiming | .pipeline => none

/-- A terminal status is stored only when it is undisputed. -/
def SettlesUndisputed (s : State) : Event → Prop
  | .finalize id =>
    (s.attempts.lookup id).all fun attempt =>
      attempt.event ∈ s.processed || attempt.phase.outcome.all fun status =>
        s.undisputed (some id) (attempt.event :: s.processed) attempt.document status
  | .cancelCommit id _ =>
    (s.cancels.lookup id).all fun cancel =>
      cancel.claimed.all fun document => s.undisputed none s.processed document .failed
  | _ => True

instance (s : State) : ∀ e, Decidable (SettlesUndisputed s e)
  | .finalize _ | .cancelCommit _ _ => inferInstanceAs (Decidable (_ = true))
  | .register _ _ _ | .reindex _ _ | .run _ _ _ | .fail _ _ _ _ | .claim _ | .pipeline _ _
  | .crash _ | .cancelRead _ _ | .cancelAbort _ => .isTrue trivial

variable {s : State} {status : IndexStatus}

/-- Nobody in flight may store another status. -/
theorem undisputed_iff {except : Option ℕ} {processed : List String} {document : String} :
    s.undisputed except processed document status = true ↔
      (∀ id attempt, some id ≠ except → s.attempts.lookup id = some attempt →
        attempt.document = document → attempt.mayChange processed status = false) ∧
      ∀ id cancel, s.cancels.lookup id = some cancel →
        cancel.mayChange document status = false := by
  simp only [State.undisputed, Bool.and_eq_true, List.all_eq_true, Bool.or_eq_true,
    decide_eq_true_eq, all_eq_true, Bool.not_eq_true']
  constructor
  · rintro ⟨ha, hc⟩
    constructor
    · intro id attempt hne hl hd
      have hmem : id ∈ s.attempts.keys := AList.mem_keys.mp (mem_of_lookup hl)
      have hat := (ha id hmem).resolve_left hne attempt hl
      exact hat.resolve_left (by simp [hd])
    · intro id cancel hl
      exact hc id (AList.mem_keys.mp (mem_of_lookup hl)) cancel hl
  · rintro ⟨ha, hc⟩
    constructor
    · intro id _
      by_cases hne : some id = except
      · exact .inl hne
      · refine .inr fun attempt hl => ?_
        by_cases hd : attempt.document = document
        · exact .inr (ha id attempt hne hl hd)
        · exact .inl (by simpa using hd)
    · intro id _ cancel hl
      exact hc id cancel hl

/-- Nobody in flight may store another status over a terminal one. -/
structure Final (s : State) : Prop where
  attempts : ∀ id attempt, s.attempts.lookup id = some attempt →
    ∀ document, s.docs.lookup attempt.document = some document →
      document.status.isTerminal = true →
      attempt.mayChange s.processed document.status = false
  cancels : ∀ id cancel, s.cancels.lookup id = some cancel →
    ∀ i document, s.docs.lookup i = some document → document.status.isTerminal = true →
      cancel.mayChange i document.status = false

variable {docs : Documents} {id i : String} {contentHash : Option String} {document : Document}

/-- What a write of a status leaves: the given status in the row, all other rows as before. -/
theorem lookup_setStatus {version : Option ℕ}
    (h : (setStatus docs id status contentHash version).lookup i = some document) :
    (i = id ∧ document.status = status) ∨ (i ≠ id ∧ docs.lookup i = some document) := by
  unfold setStatus at h
  split at h
  next hn =>
    refine .inr ⟨?_, h⟩
    rintro rfl
    simp [hn] at h
  next old hold =>
    rcases lookup_insert_iff.mp h with ⟨rfl, rfl⟩ | hr
    · refine .inl ⟨rfl, ?_⟩
      split_ifs <;> rfl
    · exact .inr hr

theorem setStatus_keeps (h : docs.lookup i = some document)
    (hs : i = id → document.status = status) (contentHash : Option String) (version : Option ℕ) :
    ∃ after, (setStatus docs id status contentHash version).lookup i = some after ∧
      after.status = document.status := by
  unfold setStatus
  split
  next => exact ⟨document, h, rfl⟩
  next old hold =>
    by_cases hid : i = id
    · subst hid
      refine ⟨_, AList.lookup_insert .., ?_⟩
      rw [hs rfl]
      split_ifs <;> rfl
    · exact ⟨document, by rw [AList.lookup_insert_ne hid, h], rfl⟩

theorem failAll_keeps {ids : List String} (h : docs.lookup i = some document)
    (hsa : i ∈ ids → document.status = .failed) :
    ∃ after, (failAll docs ids).lookup i = some after ∧ after.status = document.status := by
  induction ids generalizing docs document with
  | nil => exact ⟨document, h, rfl⟩
  | cons id ids ih =>
    obtain ⟨next, hn, hs⟩ := setStatus_keeps h
      (fun hid => hsa (hid ▸ List.mem_cons_self ..)) none none
    obtain ⟨last, hla, hl⟩ := ih hn
      (fun hmem => hs.trans (hsa (List.mem_cons_of_mem _ hmem)))
    exact ⟨last, hla, hl.trans hs⟩

variable {attempt : Attempt}

/-- A delivery that is processed elsewhere has less left to store. -/
theorem mayChange_of_processed {event : String} {processed : List String}
    (h : attempt.mayChange processed status = false) :
    attempt.mayChange (event :: processed) status = false := by
  unfold Attempt.mayChange at h ⊢
  split at h <;> simp_all

theorem Final.setStatus (hs : Final s) {version : Option ℕ}
    (hu : status.isTerminal = true → s.undisputed none s.processed id status = true) :
    Final { s with docs := setStatus s.docs id status contentHash version } := by
  constructor
  · intro i attempt ha document hd ht
    rcases lookup_setStatus hd with ⟨hid, hst⟩ | ⟨-, hold⟩
    · rw [hst] at ht ⊢
      exact (undisputed_iff.mp (hu ht)).1 i attempt (by simp) ha hid
    · exact hs.attempts i attempt ha document hold ht
  · intro i cancel hc j document hd ht
    rcases lookup_setStatus hd with ⟨rfl, hst⟩ | ⟨-, hold⟩
    · rw [hst] at ht ⊢
      exact (undisputed_iff.mp (hu ht)).2 i cancel hc
    · exact hs.cancels i cancel hc j document hold ht

theorem Final.failAll (hs : Final s) {ids : List String}
    (hu : ∀ id ∈ ids, s.undisputed none s.processed id .failed = true) :
    Final { s with docs := failAll s.docs ids } := by
  induction ids generalizing s with
  | nil => exact hs
  | cons id ids ih =>
    have hn : Final { s with docs := DocumentRegistry.setStatus s.docs id .failed none none } :=
      hs.setStatus fun _ => hu id (List.mem_cons_self ..)
    refine ih hn ?_
    intro i hi
    exact hu i (List.mem_cons_of_mem _ hi)

theorem Final.withAttempt (hs : Final s) {id : ℕ}
    (ha : ∀ document, s.docs.lookup attempt.document = some document →
      document.status.isTerminal = true →
      attempt.mayChange s.processed document.status = false) :
    Final (s.withAttempt id attempt) :=
  ⟨forall_insert ha hs.attempts, hs.cancels⟩

theorem Final.eraseAttempt (hs : Final s) (id : ℕ) :
    Final { s with attempts := s.attempts.erase id } :=
  ⟨fun i attempt hi => hs.attempts i attempt (lookup_erase_iff.mp hi).2, hs.cancels⟩

theorem Final.eraseCancel (hs : Final s) (id : ℕ) :
    Final { s with cancels := s.cancels.erase id } :=
  ⟨hs.attempts, fun i cancel hi => hs.cancels i cancel (lookup_erase_iff.mp hi).2⟩

variable {t : State}

theorem Final.start (hs : Final s) {id : ℕ} (ht : s.start id attempt = some t) : Final t := by
  simp only [State.start] at ht
  split_ifs at ht
  split at ht
  next => exact some.inj ht ▸ hs
  next document hd =>
    split_ifs at ht with hte
    · exact some.inj ht ▸ hs
    · refine some.inj ht ▸ hs.withAttempt ?_
      intro other ho hotherTerminal
      rw [mem_unique hd ho] at hte
      exact absurd hotherTerminal hte

theorem start_docs {id : ℕ} (ht : s.start id attempt = some t) : t.docs = s.docs := by
  simp only [State.start] at ht
  split_ifs at ht
  split at ht
  next => rw [← some.inj ht]
  next document hd =>
    split_ifs at ht
    · rw [← some.inj ht]
    · rw [← some.inj ht]
      rfl

theorem Final.finish (hs : Final s) {id : ℕ} (hu : attempt.event ∉ s.processed →
      s.undisputed (some id) (attempt.event :: s.processed) attempt.document status = true) :
    Final (s.finish id attempt status contentHash) := by
  unfold State.finish
  split_ifs with hp
  · exact hs.eraseAttempt id
  · have he : Final { s with
        attempts := s.attempts.erase id, processed := attempt.event :: s.processed } := by
      refine ⟨?_, hs.cancels⟩
      intro i other hi document hd ht
      exact mayChange_of_processed
        (hs.attempts i other (lookup_erase_iff.mp hi).2 document hd ht)
    refine he.setStatus fun _ => undisputed_iff.mpr ?_
    obtain ⟨ha, hc⟩ := undisputed_iff.mp (hu hp)
    refine ⟨?_, hc⟩
    intro i other _ hi hd
    obtain ⟨hne, hi⟩ := lookup_erase_iff.mp hi
    exact ha i other (by simpa using hne) hi hd

theorem mem_claimed {job : ReindexJob} (h : id ∈ job.claimed docs)
    (hd : docs.lookup id = some document) :
    document.status = .pending := by
  simp only [ReindexJob.claimed, ReindexJob.statuses, List.mem_map, List.mem_filter,
    List.mem_filterMap, map_eq_some_iff, decide_eq_true_eq] at h
  obtain ⟨item, ⟨⟨i, -, other, ho, rfl⟩, hp⟩, rfl⟩ := h
  rw [mem_unique hd ho]
  exact hp

/-- A terminal status that was undisputed stays undisputed. -/
theorem step_final (s : State) (e : Event) (t : State) (hs : Final s)
    (hok : SettlesUndisputed s e) (ht : step s e = some t) : Final t := by
  cases e with
  | register document fileId spaceId =>
    simp only [step] at ht
    split_ifs at ht with hfr
    cases ht
    constructor
    · intro id attempt ha stored hst hte
      rcases lookup_insert_iff.mp hst with ⟨-, rfl⟩ | ⟨-, hold⟩
      · simp [pendingDocument, IndexStatus.isTerminal] at hte
      · exact hs.attempts id attempt ha stored hold hte
    · intro id cancel hc i stored hst hte
      rcases lookup_insert_iff.mp hst with ⟨-, rfl⟩ | ⟨-, hold⟩
      · simp [pendingDocument, IndexStatus.isTerminal] at hte
      · exact hs.cancels id cancel hc i stored hold hte
  | reindex job items =>
    simp only [step] at ht
    split_ifs at ht
    exact some.inj ht ▸ ⟨hs.attempts, hs.cancels⟩
  | run id event document => exact hs.start ht
  | fail id event document reason => exact hs.start ht
  | claim id =>
    simp only [step] at ht
    split at ht
    next event document ha =>
      have hi : Final { s with
          docs := DocumentRegistry.setStatus s.docs document .indexing none none } :=
        hs.setStatus (by simp [IndexStatus.isTerminal])
      refine some.inj ht ▸ hi.withAttempt ?_
      intro stored hst hte
      rcases lookup_setStatus hst with ⟨-, hss⟩ | ⟨hne, -⟩
      · simp [hss, IndexStatus.isTerminal] at hte
      · exact absurd rfl hne
    next => cases ht
  | pipeline id outcome =>
    simp only [step] at ht
    split at ht
    next event document ha =>
      have hold := hs.attempts id _ ha
      cases outcome with
      | ok contentHash =>
        refine some.inj ht ▸ hs.withAttempt ?_
        intro stored hst hte
        have hp := hold stored hst hte
        simp only [Attempt.mayChange, decide_eq_false_iff_not, not_not] at hp
        simp [Attempt.mayChange, hp]
      | error error =>
        refine some.inj ht ▸ hs.withAttempt ?_
        intro stored hst hte
        have hp := hold stored hst hte
        simp only [Attempt.mayChange, decide_eq_false_iff_not, not_not] at hp
        simp [Attempt.mayChange, hp]
    next => cases ht
  | finalize id =>
    simp only [step] at ht
    split at ht
    next attempt ha =>
      simp only [SettlesUndisputed, ha, all_some, Bool.or_eq_true,
        decide_eq_true_eq] at hok
      split at ht
      next contentHash hph =>
        refine some.inj ht ▸ hs.finish fun hnew => ?_
        simpa [hph, Phase.outcome] using hok.resolve_left hnew
      next error hph =>
        refine some.inj ht ▸ hs.finish fun hnew => ?_
        simpa [hph, Phase.outcome] using hok.resolve_left hnew
      next => cases ht
    next => cases ht
  | crash id =>
    simp only [step, some.injEq] at ht
    exact ht ▸ hs.eraseAttempt id
  | cancelRead id jobId =>
    simp only [step] at ht
    split_ifs at ht
    split at ht
    next => exact some.inj ht ▸ hs
    next job hjob =>
      split at ht
      next => exact some.inj ht ▸ hs
      next => exact some.inj ht ▸ hs
      next =>
        refine some.inj ht ▸ ⟨hs.attempts, forall_insert ?_ hs.cancels⟩
        intro i document hd hte
        by_cases hcl : i ∈ job.claimed s.docs
        · simp [mem_claimed hcl hd, IndexStatus.isTerminal] at hte
        · simp [Cancel.mayChange, hcl]
  | cancelCommit id now =>
    simp only [step] at ht
    split at ht
    next cancel hc =>
      split at ht
      next job hjob =>
        simp only [SettlesUndisputed, hc, all_some, List.all_eq_true] at hok
        have hf := (hs.failAll hok).eraseCancel id
        exact some.inj ht ▸ ⟨hf.attempts, hf.cancels⟩
      next => cases ht
    next => cases ht
  | cancelAbort id =>
    simp only [step, some.injEq] at ht
    exact ht ▸ hs.eraseCancel id

theorem finish_keeps (hs : Final s) {id : ℕ} (ha : s.attempts.lookup id = some attempt)
    (ho : attempt.phase.outcome = some status) (hd : s.docs.lookup i = some document)
    (ht : document.status.isTerminal = true) :
    ∃ after, (s.finish id attempt status contentHash).docs.lookup i = some after ∧
      after.status = document.status := by
  unfold State.finish
  split_ifs with hp
  · exact ⟨document, hd, rfl⟩
  · refine setStatus_keeps hd ?_ _ _
    rintro rfl
    have hk := hs.attempts id attempt ha document hd ht
    cases hph : attempt.phase with
    | claiming => simp [hph, Phase.outcome] at ho
    | pipeline => simp [hph, Phase.outcome] at ho
    | indexed contentHash =>
      simp only [hph, Phase.outcome, some.injEq] at ho
      simpa [Attempt.mayChange, hph, hp, ← ho] using hk
    | failing error =>
      simp only [hph, Phase.outcome, some.injEq] at ho
      simpa [Attempt.mayChange, hph, hp, ← ho] using hk

/-- What is terminal stays as it is. -/
theorem step_keeps {e : Event} (hs : Final s) (ht : step s e = some t)
    (hd : s.docs.lookup i = some document) (hte : document.status.isTerminal = true) :
    ∃ after, t.docs.lookup i = some after ∧ after.status = document.status := by
  cases e with
  | register id fileId spaceId =>
    simp only [step] at ht
    split_ifs at ht with hf
    cases ht
    have hne : i ≠ id := by
      rintro rfl
      exact hf (mem_of_lookup hd)
    exact ⟨document, (AList.lookup_insert_ne hne).trans hd, rfl⟩
  | reindex job items =>
    simp only [step] at ht
    split_ifs at ht
    exact some.inj ht ▸ ⟨document, hd, rfl⟩
  | run id event read =>
    exact ⟨document, (start_docs ht).symm ▸ hd, rfl⟩
  | fail id event read reason =>
    exact ⟨document, (start_docs ht).symm ▸ hd, rfl⟩
  | claim id =>
    simp only [step] at ht
    split at ht
    next event claimed ha =>
      cases ht
      refine setStatus_keeps hd ?_ none none
      rintro rfl
      have hk := hs.attempts id _ ha document hd hte
      simp [Attempt.mayChange] at hk
    next => cases ht
  | pipeline id outcome =>
    simp only [step] at ht
    split at ht
    next =>
      split at ht <;> exact some.inj ht ▸ ⟨document, hd, rfl⟩
    next => cases ht
  | finalize id =>
    simp only [step] at ht
    split at ht
    next attempt ha =>
      split at ht
      next contentHash hp =>
        exact some.inj ht ▸ finish_keeps hs ha (by simp [hp, Phase.outcome])
          hd hte
      next error hp =>
        exact some.inj ht ▸ finish_keeps hs ha (by simp [hp, Phase.outcome])
          hd hte
      next => cases ht
    next => cases ht
  | crash id =>
    simp only [step, some.injEq] at ht
    exact ht ▸ ⟨document, hd, rfl⟩
  | cancelRead id jobId =>
    simp only [step] at ht
    split_ifs at ht
    split at ht
    next => exact some.inj ht ▸ ⟨document, hd, rfl⟩
    next =>
      split at ht <;> exact some.inj ht ▸ ⟨document, hd, rfl⟩
  | cancelCommit id now =>
    simp only [step] at ht
    split at ht
    next cancel hca =>
      split at ht
      next job hjob =>
        cases ht
        refine failAll_keeps hd fun hc => ?_
        have hk := hs.cancels id cancel hca i document hd hte
        simpa [Cancel.mayChange, hc] using hk
      next => cases ht
    next => cases ht
  | cancelAbort id =>
    simp only [step, some.injEq] at ht
    exact ht ▸ ⟨document, hd, rfl⟩

structure SettledAs (id : String) (status : IndexStatus) (s : State) : Prop where
  final : Final s
  stored : ∃ document, s.docs.lookup id = some document ∧ document.status = status

theorem step_settledAs (hte : status.isTerminal = true) (s : State) (e : Event) (t : State)
    (hs : SettledAs id status s) (hok : SettlesUndisputed s e) (ht : step s e = some t) :
    SettledAs id status t := by
  obtain ⟨document, hd, hst⟩ := hs.stored
  obtain ⟨after, ha, hsa⟩ := step_keeps hs.final ht hd (hst.symm ▸ hte)
  exact ⟨step_final s e t hs.final hok ht, after, ha, hsa.trans hst⟩

/-- Where every terminal status is stored undisputed, it is final: in whatever state a
document is first seen indexed or failed, every later state has it in that status. -/
theorem undisputed_terminal_status_is_final (docs : Documents) (before after : List Event)
    (s t : State)
    (hbefore : Guarded step SettlesUndisputed ⟨docs, ∅, [], ∅, ∅⟩ before)
    (hs : run step ⟨docs, ∅, [], ∅, ∅⟩ before = some s)
    (hafter : Guarded step SettlesUndisputed s after) (ht : run step s after = some t)
    (id : String) (document : Document) (hdocument : s.docs.lookup id = some document)
    (hterminal : document.status.isTerminal = true) :
    ∃ later, t.docs.lookup id = some later ∧ later.status = document.status := by
  have hi : Final ⟨docs, ∅, [], ∅, ∅⟩ := by
    constructor <;> simp
  have hse : SettledAs id document.status s :=
    ⟨run_invariant step_final hbefore hs hi, document, hdocument, rfl⟩
  exact (run_invariant (step_settledAs hterminal) hafter ht hse).stored

private def cancelledInTime : List Event :=
  [.register "d1" "f1" none, .register "d2" "f2" none, .reindex "j" ["d1", "d2"],
    .run 0 "e1" "d1", .claim 0, .cancelRead 0 "j", .cancelCommit 0 7]

private def deliveredLate : List Event :=
  [.run 1 "e2" "d2", .pipeline 0 (.ok "h"), .run 2 "e1" "d1", .crash 2, .finalize 0,
    .run 3 "e1" "d1"]

theorem cancelled_document_stays_failed :
    ∃ s t, Guarded step SettlesUndisputed ⟨∅, ∅, [], ∅, ∅⟩ cancelledInTime ∧
      run step ⟨∅, ∅, [], ∅, ∅⟩ cancelledInTime = some s ∧
      Guarded step SettlesUndisputed s deliveredLate ∧ run step s deliveredLate = some t ∧
      ∃ document later, s.docs.lookup "d2" = some document ∧ document.status = .failed ∧
        t.docs.lookup "d2" = some later ∧ later.status = .failed := by
  have hb : Guarded step SettlesUndisputed ⟨∅, ∅, [], ∅, ∅⟩ cancelledInTime := by
    decide +kernel
  obtain ⟨s, hs, hte⟩ := exists_run_of_any
    (p := fun s : State => (s.docs.lookup "d2").any (·.status = .failed) &&
      decide (Guarded step SettlesUndisputed s deliveredLate) &&
      (run step s deliveredLate).isSome)
    (show (run step ⟨∅, ∅, [], ∅, ∅⟩ cancelledInTime).any _ = true by decide +kernel)
  simp only [Bool.and_eq_true, any_eq_true, decide_eq_true_eq] at hte
  obtain ⟨⟨⟨document, hd, hf⟩, ha⟩, hso⟩ := hte
  obtain ⟨t, ht⟩ := isSome_iff_exists.mp hso
  obtain ⟨later, hl, hsa⟩ := undisputed_terminal_status_is_final ∅ cancelledInTime
    deliveredLate s t hb hs ha ht "d2" document hd (by simp [hf]; rfl)
  exact ⟨s, t, hb, hs, ha, ht, document, later, hd, hf, hl,
    hsa.trans hf⟩

private def cancelledMeanwhile : List Event :=
  [.register "d" "f" none, .reindex "j" ["d"], .run 0 "e" "d", .cancelRead 0 "j",
    .cancelCommit 0 7]

theorem cancelled_document_is_indexed :
    ∃ s t, run step ⟨∅, ∅, [], ∅, ∅⟩ cancelledMeanwhile = some s ∧
      (s.docs.lookup "d").map (·.status) = some .failed ∧
      run step s [.claim 0, .pipeline 0 (.ok "h"), .finalize 0] = some t ∧
      (t.docs.lookup "d").map (·.status) = some .indexed := by
  obtain ⟨s, hs, hte⟩ := exists_run_of_any
    (p := fun s : State => (s.docs.lookup "d").map (·.status) == some .failed &&
      (run step s [.claim 0, .pipeline 0 (.ok "h"), .finalize 0]).any
        fun t => (t.docs.lookup "d").map (·.status) == some .indexed)
    (show (run step ⟨∅, ∅, [], ∅, ∅⟩ cancelledMeanwhile).any _ = true by decide +kernel)
  simp only [Bool.and_eq_true, beq_iff_eq, any_eq_true] at hte
  obtain ⟨hf, t, ht, hi⟩ := hte
  exact ⟨s, t, hs, hf, ht, hi⟩

end Aizzak.DocumentLifecycle
