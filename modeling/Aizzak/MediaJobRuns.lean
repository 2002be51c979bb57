import Aizzak.MediaJobs

/-!
A media job ends once. The deliveries of its event hold the job as they stored it: whoever saves
next makes all the others stale, and the save that ends the job commits with the one event
that announces the end.
-/
namespace Aizzak.MediaJobRuns

open EventRuns KeyedTables VersionedRows PyText MediaJobs

inductive Proceeds (s : State) (task : Task) : Phase → Prop where
  | reads {row : Versioned MediaJob} {after : MediaJob} (hrow : s.jobs.lookup task.job = some row)
      (hstart : row.value.startRunning = .ok after) : Proceeds s task (.starting row after)
  | generates {job : Versioned MediaJob} {attempt : Attempt}
      (hphase : task.phase = .generating job) : Proceeds s task (.finalizing job attempt)
  | claims {job : Versioned MediaJob} {attempt : Attempt}
      (hphase : task.phase = .finalizing job attempt) : Proceeds s task (.claimed job attempt)
  | saves {job : Versioned MediaJob} {attempt : Attempt} {after : MediaJob} {event : MediaEvent}
      (hphase : task.phase = .claimed job attempt)
      (hend : finalize task.job job.value attempt = .ok (after, event))
      (hfree : s.locked task.job = false) (hsave : (s.saveJob task.job job after).isSome = true) :
      Proceeds s task (.saved job after event)

inductive Turn (s : State) : State → Prop where
  | requested {job event : ℕ} {value : MediaJob} (hnew : job ∉ s.jobs)
      (hstatus : value.status = .queued) :
      Turn s
        { s with
          jobs := s.jobs.insert job ⟨value, 1⟩
          outbox := (event, .requested job value.agentKey value.prompt value.params) ::
            s.outbox }
  | delivered {id event job : ℕ} :
      Turn s { s with tasks := s.tasks.insert id ⟨event, job, .received⟩ }
  | proceeded {id : ℕ} {task : Task} {phase : Phase} (htask : s.tasks.lookup id = some task)
      (h : Proceeds s task phase) : Turn s (s.proceed id task phase)
  | dropped {id : ℕ} : Turn s (s.finish id)
  | started {id : ℕ} {task : Task} {read : Versioned MediaJob} {after : MediaJob} {jobs : Jobs}
      (htask : s.tasks.lookup id = some task) (hphase : task.phase = .starting read after)
      (hfree : s.locked task.job = false) (hsave : s.saveJob task.job read after = some jobs) :
      Turn s { s.proceed id task (.generating ⟨after, read.version + 1⟩) with jobs := jobs }
  | committed {id newEvent : ℕ} {task : Task} {job : Versioned MediaJob} {after : MediaJob}
      {event : MediaEvent} {jobs : Jobs} (htask : s.tasks.lookup id = some task)
      (hphase : task.phase = .saved job after event)
      (hsave : s.saveJob task.job job after = some jobs) :
      Turn s
        { s.finish id with
          jobs := jobs
          outbox := (newEvent, event) :: s.outbox
          claims := task.event :: s.claims }

section Steps

variable {lower : Text → Text} {limits : Limits} {s t : State} {e : Event} {id newEvent : ℕ}
  {task : Task} {attempt : Attempt}

theorem turn_advance (ht : s.tasks.lookup id = some task)
    (h : advance s id task newEvent attempt = some t) : Turn s t := by
  unfold advance at h
  split at h
  · split at h
    · cases h
      exact .dropped
    · rename_i row hrow
      split_ifs at h
      · cases h
        exact .dropped
      · split at h
        · cases h
          exact .dropped
        · rename_i after hs
          cases h
          exact .proceeded ht (.reads hrow hs)
  · rename_i read after hp
    split_ifs at h with hl
    split at h
    · cases h
      exact .dropped
    · rename_i jobs hsa
      cases h
      exact .started ht hp (by simpa using hl) hsa
  · rename_i job hp
    cases h
    exact .proceeded ht (.generates hp)
  · rename_i job outcome hp
    split_ifs at h
    · cases h
      exact .dropped
    · cases h
      exact .proceeded ht (.claims hp)
  · rename_i job outcome hp
    split at h
    · cases h
      exact .dropped
    · rename_i after event hend
      split_ifs at h with hl hsa
      · cases h
        exact .proceeded ht (.saves hp hend (by simpa using hl) hsa)
      · cases h
        exact .dropped
  · rename_i job after event hp
    split at h
    · cases h
    · rename_i jobs hsa
      cases h
      exact .committed ht hp hsa

theorem step_turn (h : step lower limits s e = some t) : Turn s t := by
  cases e with
  | request job event request now =>
    simp only [step] at h
    split_ifs at h with hnew
    split at h
    · cases h
    · rename_i value hvalue
      cases h
      exact .requested hnew (requestMedia_status hvalue)
  | deliver id event job =>
    simp only [step] at h
    split_ifs at h
    cases h
    exact .delivered
  | next id newEvent attempt =>
    simp only [step] at h
    split at h
    · cases h
    · rename_i task ht
      exact turn_advance ht h
  | crash id =>
    simp only [step] at h
    split_ifs at h
    cases h
    exact .dropped

end Steps

section Invariant

variable {lower : Text → Text} {limits : Limits} {s t : State} {e : Event} {id : ℕ} {task : Task}

/-- The stored job and the events that announce its end agree. -/
def Ended (s : State) (job : ℕ) (value : MediaJob) : Prop :=
  match value.status with
  | .queued | .running => s.endings job = []
  | .succeeded => ∃ file, value.resultFileId = some file ∧ file ≠ [] ∧
      s.endings job = [.generated job file]
  | .failed => ∃ reason, value.error = some reason ∧ s.endings job = [.failed job reason]

structure Holding (jobs : Jobs) (job : ℕ) (read : Versioned MediaJob) : Prop where
  held : Held Transition jobs job read
  running : read.value.status = .running

structure Ready (jobs : Jobs) (task : Task) : Prop where
  starting : ∀ read after, task.phase = .starting read after →
    Held Transition jobs task.job read ∧ Transition read.value after ∧ after.status = .running
  generating : ∀ read, task.phase = .generating read → Holding jobs task.job read
  finalizing : ∀ read attempt, task.phase = .finalizing read attempt →
    Holding jobs task.job read
  claimed : ∀ read attempt, task.phase = .claimed read attempt → Holding jobs task.job read
  saved : ∀ read after event, task.phase = .saved read after event →
    Holding jobs task.job read ∧ Transition read.value after ∧ Announced task.job after event

structure Sound (s : State) : Prop where
  ended : ∀ job row, s.jobs.lookup job = some row → Ended s job row.value
  fresh : ∀ job, job ∉ s.jobs → s.endings job = []
  tasks : ∀ id task, s.tasks.lookup id = some task → Ready s.jobs task

variable {jobs : Jobs} {job : ℕ} {read : Versioned MediaJob}

theorem Holding.grows {after : Jobs} (h : Holding jobs job read)
    (hg : Grows Transition jobs after) :
    Holding after job read := ⟨h.held.grows hg, h.running⟩

theorem Ready.grows {after : Jobs} (h : Ready jobs task) (hg : Grows Transition jobs after) :
    Ready after task where
  starting := fun read value hp => by
    obtain ⟨hhe, hr⟩ := h.starting read value hp
    exact ⟨hhe.grows hg, hr⟩
  generating := fun read hp => (h.generating read hp).grows hg
  finalizing := fun read attempt hp => (h.finalizing read attempt hp).grows hg
  claimed := fun read attempt hp => (h.claimed read attempt hp).grows hg
  saved := fun read value event hp => by
    obtain ⟨hh, hr⟩ := h.saved read value event hp
    exact ⟨hh.grows hg, hr⟩

variable {after : MediaJob}

theorem saveJob_eq_some (hh : Held Transition s.jobs job read)
    (hm : Transition read.value after) (h : s.saveJob job read after = some jobs) :
    s.jobs.lookup job = some read ∧ jobs = s.jobs.insert job ⟨after, read.version + 1⟩ := by
  unfold State.saveJob at h
  split at h
  · cases h
  · rename_i row hrow
    obtain ⟨hr, rfl⟩ := hh.save_eq_some h
    obtain rfl := Option.mem_unique hr hrow
    exact ⟨hr, by rw [hm.rewrite]⟩

theorem endings_cons_of_not {event : ℕ × MediaEvent} {claims : List ℕ}
    {tasks : AList fun _ : ℕ => Task} (h : event.2.ends job = false) :
    State.endings ⟨jobs, event :: s.outbox, claims, tasks⟩ job = s.endings job := by
  rw [State.endings, List.map_cons, List.filter_cons_of_neg (by rw [h]; exact Bool.false_ne_true)]
  rfl

theorem endings_cons_of_ends {event : ℕ × MediaEvent} {claims : List ℕ}
    {tasks : AList fun _ : ℕ => Task} (h : event.2.ends job = true) :
    State.endings ⟨jobs, event :: s.outbox, claims, tasks⟩ job = event.2 :: s.endings job := by
  rw [State.endings, List.map_cons, List.filter_cons_of_pos h]
  rfl

variable {value : MediaJob} {event : MediaEvent}

theorem announced_ends {other : ℕ} (h : Announced other value event) :
    event.ends job = decide (other = job) := by
  rcases h with ⟨file, -, -, -, rfl⟩ | ⟨reason, -, -, rfl⟩
  · rfl
  · rfl

theorem ended_announced (h : Announced job value event) (he : t.endings job = [event]) :
    Ended t job value := by
  rcases h with ⟨file, hs, hf, hne, rfl⟩ | ⟨reason, hs, hr, rfl⟩
  · rw [Ended, hs]
    exact ⟨file, hf, hne, he⟩
  · rw [Ended, hs]
    exact ⟨reason, hr, he⟩

theorem Ended.congr (h : Ended s job value) (he : t.endings job = s.endings job) :
    Ended t job value := by
  unfold Ended at h ⊢
  rwa [he]

theorem ended_open (h : Ended s job value) (ho : value.status.isTerminal = false) :
    s.endings job = [] := by
  unfold Ended at h
  cases hs : value.status <;> rw [hs] at h ho
  · exact h
  · exact h
  · cases ho
  · cases ho

theorem ended_running (hs : value.status = .running) (he : t.endings job = []) :
    Ended t job value := by
  rw [Ended, hs]
  exact he

theorem init_sound : Sound init where
  ended := fun _ _ h => by cases h
  fresh := fun _ _ => rfl
  tasks := fun _ _ h => by cases h

theorem sound_kept (hs : Sound s) (hj : t.jobs = s.jobs) (ho : t.outbox = s.outbox)
    (ht : ∀ other u, t.tasks.lookup other = some u →
      s.tasks.lookup other = some u ∨ Ready s.jobs u) : Sound t := by
  have he : ∀ job, t.endings job = s.endings job := by
    intro job
    rw [State.endings, ho]
    rfl
  refine ⟨fun job row hrow => ?_, fun job hjob => ?_, fun other u hu => ?_⟩
  · rw [hj] at hrow
    exact (hs.ended job row hrow).congr (he job)
  · rw [hj] at hjob
    rw [he]
    exact hs.fresh job hjob
  · rw [hj]
    rcases ht other u hu with hold | hnew
    · exact hs.tasks other u hold
    · exact hnew

/-- Reading changes nothing a delivery rests on. -/
theorem proceeds_ready {phase : Phase} (hr : Ready s.jobs task) (h : Proceeds s task phase) :
    Ready s.jobs { task with phase := phase } := by
  cases h with
  | reads hrow hs =>
    rename_i row after
    obtain ⟨hm, hru⟩ := startRunning_eq_ok hs
    refine ⟨fun read value h => ?_, fun _ h => (by cases h), fun _ _ h => (by cases h),
      fun _ _ h => (by cases h), fun _ _ _ h => (by cases h)⟩
    obtain ⟨rfl, rfl⟩ := Phase.starting.inj h
    exact ⟨held_of_lookup hrow, hm, hru⟩
  | generates hp =>
    refine ⟨fun _ _ h => (by cases h), fun _ h => (by cases h), fun read _ h => ?_,
      fun _ _ h => (by cases h), fun _ _ _ h => (by cases h)⟩
    obtain ⟨rfl, -⟩ := Phase.finalizing.inj h
    exact hr.generating _ hp
  | claims hp =>
    refine ⟨fun _ _ h => (by cases h), fun _ h => (by cases h), fun _ _ h => (by cases h),
      fun read _ h => ?_, fun _ _ _ h => (by cases h)⟩
    obtain ⟨rfl, -⟩ := Phase.claimed.inj h
    exact hr.finalizing _ _ hp
  | saves hp hend hf hsa =>
    refine ⟨fun _ _ h => (by cases h), fun _ h => (by cases h), fun _ _ h => (by cases h),
      fun _ _ h => (by cases h), fun read value event h => ?_⟩
    obtain ⟨rfl, rfl, rfl⟩ := Phase.saved.inj h
    exact ⟨hr.claimed _ _ hp, finalize_eq_ok hend⟩

variable {row : Versioned MediaJob}

theorem lookup_of_notMem_insert {other : ℕ} (h : other ∉ jobs.insert job row) :
    other ∉ jobs ∧ other ≠ job := by
  rw [AList.mem_insert, not_or] at h
  exact ⟨h.2, h.1⟩

/-- A stored job and the event of its end agree after every turn. -/
theorem turn_sound (hs : Sound s) (h : Turn s t) : Sound t := by
  cases h with
  | requested hnew hst =>
    rename_i job event value
    have hg : Grows Transition s.jobs (s.jobs.insert job ⟨value, 1⟩) := .added hnew
    refine ⟨forall_insert ?_ fun other row hrow => ?_, fun other ho => ?_,
      fun other u hu => (hs.tasks other u hu).grows hg⟩
    · rw [Ended, hst]
      exact (endings_cons_of_not rfl).trans (hs.fresh job hnew)
    · exact (hs.ended other row hrow).congr (endings_cons_of_not rfl)
    · exact (endings_cons_of_not rfl).trans (hs.fresh other (lookup_of_notMem_insert ho).1)
  | delivered =>
    refine sound_kept hs rfl rfl (forall_insert (.inr ?_) fun _ _ => .inl)
    exact ⟨fun _ _ h => (by cases h), fun _ h => (by cases h), fun _ _ h => (by cases h),
      fun _ _ h => (by cases h), fun _ _ _ h => (by cases h)⟩
  | proceeded ht hpr =>
    exact sound_kept hs rfl rfl
      (forall_insert (.inr (proceeds_ready (hs.tasks _ _ ht) hpr))
        fun _ _ => .inl)
  | dropped =>
    exact sound_kept hs rfl rfl fun _ _ h => .inl (lookup_erase_iff.mp h).2
  | started ht hp hfr hsa =>
    rename_i id task read after jobs
    obtain ⟨hhe, hm, hr⟩ := (hs.tasks id task ht).starting read after hp
    obtain ⟨hre, rfl⟩ := saveJob_eq_some hhe hm hsa
    have hg : Grows Transition s.jobs
        (s.jobs.insert task.job ⟨after, read.version + 1⟩) := .saved hre hm
    refine ⟨forall_insert ?_ fun other row hrow => hs.ended other row hrow,
      fun other ho => hs.fresh other (lookup_of_notMem_insert ho).1,
      forall_insert ?_ fun other u hu => (hs.tasks other u hu).grows hg⟩
    · exact ended_running hr (ended_open (hs.ended _ _ hre) hm.open)
    · refine ⟨fun _ _ h => (by cases h), fun found h => ?_, fun _ _ h => (by cases h),
        fun _ _ h => (by cases h), fun _ _ _ h => (by cases h)⟩
      obtain rfl := Phase.generating.inj h
      exact ⟨held_of_lookup (AList.lookup_insert _), hr⟩
  | committed ht hp hsa =>
    rename_i id newEvent task read after event jobs
    obtain ⟨hh, hm, ha⟩ :=
      (hs.tasks id task ht).saved read after event hp
    obtain ⟨hre, rfl⟩ := saveJob_eq_some hh.held hm hsa
    have hg : Grows Transition s.jobs
        (s.jobs.insert task.job ⟨after, read.version + 1⟩) := .saved hre hm
    have ho : ∀ other, other ≠ task.job → event.ends other = false := by
      intro other hne
      rw [announced_ends ha]
      exact decide_eq_false (Ne.symm hne)
    refine ⟨fun other row hrow => ?_, fun other hnot => ?_, fun other u hu => ?_⟩
    · rcases lookup_insert_iff.mp hrow with ⟨rfl, rfl⟩ | ⟨hne, hold⟩
      · refine ended_announced ha ?_
        have hop := ended_open (hs.ended _ _ hre) hm.open
        rw [← hop]
        exact endings_cons_of_ends (by rw [announced_ends ha]; exact decide_eq_true rfl)
      · exact (hs.ended other row hold).congr (endings_cons_of_not (ho other hne))
    · obtain ⟨hf, hne⟩ := lookup_of_notMem_insert hnot
      exact (endings_cons_of_not (ho other hne)).trans (hs.fresh other hf)
    · exact (hs.tasks other u (lookup_erase_iff.mp hu).2).grows hg

/-- Whoever has updated a row keeps it from everyone else until it commits. -/
structure Exclusive (s : State) : Prop where
  current : ∀ id task read after event, s.tasks.lookup id = some task →
    task.phase = .saved read after event → s.jobs.lookup task.job = some read
  alone : ∀ i j task other, s.tasks.lookup i = some task → s.tasks.lookup j = some other →
    task.locks = true → other.locks = true → task.job = other.job → i = j

theorem locks_of_saved (h : task.phase = .saved read after event) : task.locks = true := by
  rw [Task.locks, h]

theorem not_locked (h : s.locked job = false) (ht : s.tasks.lookup id = some task)
    (hl : task.locks = true) : task.job ≠ job := by
  intro hjob
  have hlo : s.locked job = true :=
    anyRow_eq_true_iff.mpr ⟨id, task, ht, by simp [hjob, hl]⟩
  rw [h] at hlo
  cases hlo

theorem exclusive_kept (hx : Exclusive s)
    (hj : ∀ other u, t.tasks.lookup other = some u → u.locks = true →
      t.jobs.lookup u.job = s.jobs.lookup u.job)
    (ht : ∀ other u, t.tasks.lookup other = some u →
      s.tasks.lookup other = some u ∨ u.locks = false) : Exclusive t where
  current := by
    intro other u read after event hu hp
    have hlo := locks_of_saved hp
    rw [hj other u hu hlo]
    rcases ht other u hu with hold | hn
    · exact hx.current other u read after event hold hp
    · rw [hlo] at hn
      cases hn
  alone := by
    intro i j first second hf hs hlo hl hjob
    rcases ht i first hf with hold | hn
    · rcases ht j second hs with hold' | hn
      · exact hx.alone i j first second hold hold' hlo hl hjob
      · rw [hl] at hn
        cases hn
    · rw [hlo] at hn
      cases hn

/-- One delivery at a time holds an updated row. -/
theorem turn_exclusive (hs : Sound s) (hx : Exclusive s) (h : Turn s t) : Exclusive t := by
  cases h with
  | requested hnew hst =>
    rename_i job event value
    refine exclusive_kept hx (fun other u hu hlo => ?_) fun _ _ => .inl
    have hmem : u.job ∈ s.jobs := by
      cases hph : u.phase with
      | saved read after event => exact mem_of_lookup (hx.current other u _ _ _ hu hph)
      | _ => simp [Task.locks, hph] at hlo
    refine AList.lookup_insert_ne ?_
    rintro rfl
    exact hnew hmem
  | delivered =>
    exact exclusive_kept hx (fun _ _ _ _ => rfl)
      (forall_insert (.inr rfl) fun _ _ => .inl)
  | proceeded ht hpr =>
    rename_i id task phase
    cases hpr with
    | reads hrow hsr =>
      exact exclusive_kept hx (fun _ _ _ _ => rfl)
        (forall_insert (.inr rfl) fun _ _ => .inl)
    | generates hph =>
      exact exclusive_kept hx (fun _ _ _ _ => rfl)
        (forall_insert (.inr rfl) fun _ _ => .inl)
    | claims hph =>
      exact exclusive_kept hx (fun _ _ _ _ => rfl)
        (forall_insert (.inr rfl) fun _ _ => .inl)
    | saves hph hend hfr hsa =>
      rename_i read attempt after event
      obtain ⟨jobs, hj⟩ := Option.isSome_iff_exists.mp hsa
      have hh := (hs.tasks id task ht).claimed read attempt hph
      obtain ⟨hr, -⟩ := saveJob_eq_some hh.held (finalize_eq_ok hend).1 hj
      refine ⟨?_, ?_⟩
      · refine fun other u found value announced hu hp => ?_
        rcases lookup_insert_iff.mp hu with ⟨rfl, rfl⟩ | ⟨-, hold⟩
        · obtain ⟨rfl, -, -⟩ := Phase.saved.inj hp
          exact hr
        · exact hx.current other u found value announced hold hp
      · intro i j first second hf hse hlo hl hjob
        rcases lookup_insert_iff.mp hf with ⟨rfl, rfl⟩ | ⟨-, hold⟩
        · rcases lookup_insert_iff.mp hse with ⟨rfl, -⟩ | ⟨-, hold'⟩
          · rfl
          · exact absurd hjob.symm (not_locked hfr hold' hl)
        · rcases lookup_insert_iff.mp hse with ⟨rfl, rfl⟩ | ⟨-, hold'⟩
          · exact absurd hjob (not_locked hfr hold hlo)
          · exact hx.alone i j first second hold hold' hlo hl hjob
  | dropped =>
    exact exclusive_kept hx (fun _ _ _ _ => rfl)
      fun _ _ h => .inl (lookup_erase_iff.mp h).2
  | started ht hph hfr hsa =>
    rename_i id task read after jobs
    obtain ⟨hhe, hm, -⟩ := (hs.tasks id task ht).starting read after hph
    obtain ⟨-, rfl⟩ := saveJob_eq_some hhe hm hsa
    refine exclusive_kept hx (fun other u hu hlo => ?_)
      (forall_insert (.inr rfl) fun _ _ => .inl)
    rcases lookup_insert_iff.mp hu with ⟨-, rfl⟩ | ⟨-, hold⟩
    · cases hlo
    · exact AList.lookup_insert_ne (not_locked hfr hold hlo)
  | committed ht hph hsa =>
    rename_i id newEvent task read after event jobs
    obtain ⟨hh, hm, -⟩ := (hs.tasks id task ht).saved read after event hph
    obtain ⟨-, rfl⟩ := saveJob_eq_some hh.held hm hsa
    refine exclusive_kept hx (fun other u hu hlo => ?_)
      fun _ _ h => .inl (lookup_erase_iff.mp h).2
    obtain ⟨hne, hold⟩ := lookup_erase_iff.mp hu
    refine AList.lookup_insert_ne fun hjob => hne ?_
    exact hx.alone other id u task hold ht hlo (locks_of_saved hph) hjob

theorem run_sound {events : List Event} (hrun : run (step lower limits) init events = some s) :
    Sound s ∧ Exclusive s := by
  have hk : ∀ u e v, Sound u ∧ Exclusive u → step lower limits u e = some v →
      Sound v ∧ Exclusive v := by
    intro u e v hu hs
    have ht := step_turn hs
    exact ⟨turn_sound hu.1 ht, turn_exclusive hu.1 hu.2 ht⟩
  have hi : Exclusive init := ⟨fun _ _ _ _ _ h => (by cases h), fun _ _ _ _ h => (by cases h)⟩
  exact run_invariant_of_step hk hrun ⟨init_sound, hi⟩

def Moves (s t : State) : Prop :=
  ∀ job row, s.jobs.lookup job = some row →
    ∃ next, t.jobs.lookup job = some next ∧ (next = row ∨ Transition row.value next.value)

theorem moves_saved (hr : s.jobs.lookup job = some read) (hm : Transition read.value after)
    (hj : t.jobs = s.jobs.insert job ⟨after, read.version + 1⟩) : Moves s t := by
  intro other row hrow
  rw [hj]
  rcases same_or_ne hr hrow with ⟨rfl, rfl⟩ | hne
  · exact ⟨_, AList.lookup_insert _, .inr hm⟩
  · exact ⟨row, (AList.lookup_insert_ne hne).trans hrow, .inl rfl⟩

theorem turn_moves (hs : Sound s) (h : Turn s t) : Moves s t := by
  cases h with
  | requested hnew hst =>
    rename_i job event value
    intro other row hrow
    have hne : other ≠ job := by
      rintro rfl
      exact hnew (mem_of_lookup hrow)
    exact ⟨row, (AList.lookup_insert_ne hne).trans hrow, .inl rfl⟩
  | delivered => exact fun _ row hrow => ⟨row, hrow, .inl rfl⟩
  | proceeded ht hpr => exact fun _ row hrow => ⟨row, hrow, .inl rfl⟩
  | dropped => exact fun _ row hrow => ⟨row, hrow, .inl rfl⟩
  | started ht hp hf hsa =>
    obtain ⟨hhe, hm, -⟩ := (hs.tasks _ _ ht).starting _ _ hp
    obtain ⟨hr, hj⟩ := saveJob_eq_some hhe hm hsa
    exact moves_saved hr hm hj
  | committed ht hp hsa =>
    obtain ⟨hh, hm, -⟩ := (hs.tasks _ _ ht).saved _ _ _ hp
    obtain ⟨hr, hj⟩ := saveJob_eq_some hh.held hm hsa
    exact moves_saved hr hm hj

theorem turn_queues (hs : Sound s) (h : Turn s t) (hnew : job ∉ s.jobs)
    (hrow : t.jobs.lookup job = some row) :
    row.value.status = .queued := by
  cases h with
  | requested hf hst =>
    rcases lookup_insert_iff.mp hrow with ⟨-, rfl⟩ | ⟨-, hold⟩
    · exact hst
    · exact absurd (mem_of_lookup hold) hnew
  | delivered => exact absurd (mem_of_lookup hrow) hnew
  | proceeded ht hpr => exact absurd (mem_of_lookup hrow) hnew
  | dropped => exact absurd (mem_of_lookup hrow) hnew
  | started ht hp hfr hsa =>
    obtain ⟨hhe, hm, -⟩ := (hs.tasks _ _ ht).starting _ _ hp
    obtain ⟨hr, rfl⟩ := saveJob_eq_some hhe hm hsa
    rcases lookup_insert_iff.mp hrow with ⟨rfl, -⟩ | ⟨-, hold⟩
    · exact absurd (mem_of_lookup hr) hnew
    · exact absurd (mem_of_lookup hold) hnew
  | committed ht hp hsa =>
    obtain ⟨hh, hm, -⟩ := (hs.tasks _ _ ht).saved _ _ _ hp
    obtain ⟨hr, rfl⟩ := saveJob_eq_some hh.held hm hsa
    rcases lookup_insert_iff.mp hrow with ⟨rfl, -⟩ | ⟨-, hold⟩
    · exact absurd (mem_of_lookup hr) hnew
    · exact absurd (mem_of_lookup hold) hnew

theorem run_keeps_ended {events : List Event} {job : ℕ} {row : Versioned MediaJob}
    (hs : Sound s) (hrun : run (step lower limits) s events = some t)
    (hrow : s.jobs.lookup job = some row) (ht : row.value.status.isTerminal = true) :
    t.jobs.lookup job = some row := by
  have hk : ∀ u e v, Sound u ∧ u.jobs.lookup job = some row → step lower limits u e = some v →
      Sound v ∧ v.jobs.lookup job = some row := by
    intro u e v hu hst
    have htu := step_turn hst
    obtain ⟨next, hn, hm⟩ := turn_moves hu.1 htu job row hu.2
    rcases hm with rfl | hmo
    · exact ⟨turn_sound hu.1 htu, hn⟩
    · have ho := hmo.open
      rw [ht] at ho
      cases ho
  exact (run_invariant_of_step hk hrun ⟨hs, hrow⟩).2

/-- In every run a job appears as queued, and every step leaves its status or moves it on, from
queued to running and from running to succeeded or failed. A job that has ended is never written
again; one that has succeeded has its file; and the outbox holds one event that announces the end
of an ended job, of its kind and with its file or its error, and none of any other job. -/
theorem media_job_ends_once {events more : List Event}
    (hrun : run (step lower limits) init events = some s)
    (hmore : run (step lower limits) s more = some t) :
    (∀ job row, s.jobs.lookup job = some row →
        Ended s job row.value ∧
          (row.value.status = .succeeded → row.value.resultFileId ≠ none) ∧
          (row.value.status.isTerminal = true → t.jobs.lookup job = some row) ∧
          ∀ e u, step lower limits s e = some u → ∃ next, u.jobs.lookup job = some next ∧
            row.value.status.follows next.value.status = true) ∧
      (∀ job, job ∉ s.jobs → s.endings job = []) ∧
      ∀ e u, step lower limits s e = some u → ∀ job row, job ∉ s.jobs →
        u.jobs.lookup job = some row → row.value.status = .queued := by
  obtain ⟨hs, -⟩ := run_sound hrun
  refine ⟨fun job row hrow => ⟨hs.ended job row hrow, fun hss => ?_,
    run_keeps_ended hs hmore hrow, fun e u hst => ?_⟩, hs.fresh,
    fun e u hst job row hnew hrow => turn_queues hs (step_turn hst) hnew hrow⟩
  · have he := hs.ended job row hrow
    rw [Ended, hss] at he
    obtain ⟨file, hf, -, -⟩ := he
    rw [hf]
    exact Option.some_ne_none file
  · obtain ⟨next, hn, hm⟩ := turn_moves hs (step_turn hst) job row hrow
    refine ⟨next, hn, ?_⟩
    rcases hm with rfl | hmo
    · exact follows_self _
    · exact hmo.follows

end Invariant

private def asks : MediaRequest :=
  ⟨ofString "image_agent", ofString "image", ofString "a red door", some 512, some 512, none, none,
    some 7⟩

private def contested : List Event :=
  [.request 1 50 asks 100, .deliver 8 50 1, .next 8 0 (.ok []), .next 8 0 (.ok []),
    .deliver 9 50 1, .next 9 0 (.ok []), .next 9 0 (.ok []), .next 8 0 (.error [0x78]),
    .next 9 0 (.ok [0x66]), .next 8 0 (.ok []), .next 8 0 (.ok []), .next 9 0 (.ok []),
    .next 9 0 (.ok []), .next 9 60 (.ok [])]

/-- Two workers run one job: the first one's row has gone stale, and the second ends it. -/
theorem contested_job_ends_once :
    ∃ s, run (step id {}) init contested = some s ∧
      ∃ row, s.jobs.lookup 1 = some row ∧ row.value.status = .succeeded ∧
        Ended s 1 row.value ∧ s.endings 1 = [.generated 1 [0x66]] := by
  obtain ⟨s, hrun, ht⟩ := exists_run_of_any
    (p := fun s : State => (s.jobs.lookup 1).any fun row =>
      row.value.status = .succeeded && row.value.resultFileId = some [0x66])
    (show (run (step id {}) init contested).any _ = true by decide +kernel)
  obtain ⟨row, hrow, ht⟩ := (Option.any_eq_true _ _).mp ht
  rw [Bool.and_eq_true, decide_eq_true_eq, decide_eq_true_eq] at ht
  obtain ⟨hs, hf⟩ := ht
  obtain ⟨hall, -⟩ := media_job_ends_once hrun (show run (step id {}) s [] = some s from rfl)
  have hen := (hall 1 row hrow).1
  refine ⟨s, hrun, row, hrow, hs, hen, ?_⟩
  rw [Ended, hs] at hen
  obtain ⟨file, hsa, -, he⟩ := hen
  obtain rfl := Option.mem_unique hf hsa
  exact he

end Aizzak.MediaJobRuns
