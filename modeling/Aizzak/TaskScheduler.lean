import Aizzak.EventRuns

/-!
The runner of the ops tools over its task ledger. A job is due once per cycle it has not yet
succeeded in; what was attempted and what came of it stands in the ledger only, so a process
that is killed and started again goes on from there.
-/
namespace Aizzak.TaskScheduler

open EventRuns List

structure Job where
  task : String
  argv : List String
  dsnEnv : Option String
  dsnTarget : String
  maxRuntimeS : ℚ
  requires : Option String

def daySeconds : ℚ := 86400
def hourSeconds : ℚ := 3600

/-- `JOBS`, in the order they run. -/
def catalog : List Job :=
  [⟨"backup", ["app.ops.backup", "full"], some "BACKUP_DATABASE_URL", "BACKUP_DATABASE_URL",
      2 * hourSeconds, none⟩,
    ⟨"backup_prune", ["app.ops.backup", "prune"], none, "DATABASE_URL", hourSeconds / 2, none⟩,
    ⟨"retention", ["app.ops.retention", "sweep"], some "RETENTION_DATABASE_URL", "DATABASE_URL",
      hourSeconds / 2, none⟩,
    ⟨"purge", ["app.ops.purge", "run", "--yes"], some "WORKSPACE_PURGER_DATABASE_URL",
      "DATABASE_URL", hourSeconds, some "backup"⟩,
    ⟨"rotate_transit", ["app.ops.rotate_transit", "sweep"], some "TRANSIT_ROTATOR_DATABASE_URL",
      "DATABASE_URL", hourSeconds / 2, none⟩]

def dsnVariables : List String :=
  ["DATABASE_URL", "METRICS_DATABASE_URL"] ++ catalog.filterMap (·.dsnEnv) ++
    catalog.map (·.dsnTarget)

structure Policy where
  offsetS : ℚ
  retryAfterS : ℚ
  maxAttempts : ℕ
  attempts_pos : 1 ≤ maxAttempts

inductive Refusal
  | gateClosed
  | missingDsn
deriving DecidableEq

structure RunResult where
  returncode : Option ℤ
  stderrTail : List String
  timedOut : Bool
  interrupted : Bool
deriving DecidableEq

def RunResult.succeeded (r : RunResult) : Bool :=
  r.returncode == some 0 && !r.timedOut && !r.interrupted

inductive Failure
  | refused (why : Refusal)
  | ended (result : RunResult)
deriving DecidableEq

structure TaskRecord where
  intervalS : Option ℚ
  maxRuntimeS : Option ℚ
  armedAt : Option ℚ
  lastAttemptAt : Option ℚ
  lastSuccessAt : Option ℚ
  lastFailureAt : Option ℚ
  lastDurationS : Option ℚ
  lastError : Option Failure
  attemptCycle : Option ℤ
  cycleAttempts : ℕ
  successes : ℕ
  failures : ℕ
deriving DecidableEq

def TaskRecord.empty : TaskRecord :=
  ⟨none, none, none, none, none, none, none, none, none, 0, 0, 0⟩

def TaskRecord.arm (r : TaskRecord) (intervalS maxRuntimeS now : ℚ) : TaskRecord :=
  { r with
    intervalS := some intervalS
    maxRuntimeS := some maxRuntimeS
    armedAt := r.armedAt <|> some now }

def TaskRecord.record (r : TaskRecord) (intervalS maxRuntimeS startedAt finishedAt : ℚ)
    (error : Option Failure) : TaskRecord :=
  let r :=
    { r with
      intervalS := some intervalS
      maxRuntimeS := some maxRuntimeS
      lastDurationS := some (max 0 (finishedAt - startedAt))
      armedAt := r.armedAt <|> some startedAt }
  match error with
  | none => { r with lastSuccessAt := some finishedAt, successes := r.successes + 1 }
  | some error =>
    { r with
      lastFailureAt := some finishedAt
      lastError := some error
      failures := r.failures + 1 }

def TaskRecord.attempt (r : TaskRecord) (now : ℚ) (cycle : ℤ) (attempts : ℕ) : TaskRecord :=
  { r with
    lastAttemptAt := some now
    attemptCycle := some cycle
    cycleAttempts := attempts }

def cycleOf (now intervalS offsetS : ℚ) : ℤ := ⌊(now - offsetS) / intervalS⌋

inductive Decision
  | notDue
  | run
  | retryLater
  | gaveUp
  | disabled
deriving DecidableEq

/-- Due once per cycle not yet succeeded in, counted from the last success or from the arming. -/
def decide (r : TaskRecord) (now intervalS : ℚ) (policy : Policy) : Decision :=
  if intervalS ≤ 0 then .disabled
  else
    let current := cycleOf now intervalS policy.offsetS
    match r.lastSuccessAt <|> r.armedAt with
    | none => .notDue
    | some anchor =>
      if current ≤ cycleOf anchor intervalS policy.offsetS then .notDue
      else
        match r.lastAttemptAt with
        | none => .run
        | some lastAttemptAt =>
          if r.attemptCycle ≠ some current then .run
          else if policy.maxAttempts ≤ r.cycleAttempts then .gaveUp
          else if policy.retryAfterS ≤ now - lastAttemptAt then .run
          else .retryLater

def gateOpen (required : TaskRecord) (now intervalS : ℚ) (policy : Policy) : Bool :=
  if intervalS ≤ 0 then false
  else
    match required.lastSuccessAt with
    | none => false
    | some success =>
      cycleOf now intervalS policy.offsetS ≤ cycleOf success intervalS policy.offsetS

abbrev Environ := String → Option String

def childEnv (job : Job) (environ : Environ) : Option Environ :=
  let stripped : Environ := fun key => if key ∈ dsnVariables then none else environ key
  match job.dsnEnv with
  | none => some stripped
  | some dsnEnv =>
    match (environ dsnEnv).getD "" with
    | "" => none
    | dsn => some (Function.update stripped job.dsnTarget (some dsn))

structure Config where
  jobs : List Job
  nodup : (jobs.map (·.task)).Nodup
  interval : String → ℚ
  policy : Policy
  environ : Environ

def Config.cycle (config : Config) (task : String) (now : ℚ) : ℤ :=
  cycleOf now (config.interval task) config.policy.offsetS

abbrev Ledger := String → TaskRecord

def Config.read (config : Config) (ledger : Ledger) : Ledger := fun task =>
  if task ∈ config.jobs.map (·.task) then ledger task else .empty

def Config.intervalOr (config : Config) (task : String) : ℚ :=
  if task ∈ config.jobs.map (·.task) then config.interval task else 0

inductive Entry
  | ticked (now : ℚ)
  | attempted (task : String) (startedAt : ℚ) (cycle : ℤ)
  | launched (job : Job) (env : Environ) (startedAt : ℚ)
  | succeeded (task : String) (finishedAt : ℚ)

/-- Where the process stands between two calls; a tick goes through the jobs of `rest`. -/
inductive Phase
  | down
  | idle
  | arming (now : ℚ) (rest : List Job)
  | between (rest : List Job)
  | due (job : Job) (rest : List Job) (records : Ledger)
  | attempted (job : Job) (rest : List Job) (records : Ledger) (startedAt : ℚ)
  | running (job : Job) (rest : List Job) (startedAt : ℚ)
  | ended (job : Job) (rest : List Job) (startedAt : ℚ) (error : Option Failure)

structure State where
  ledger : Ledger
  clock : ℚ
  stopping : Bool
  phase : Phase
  log : List Entry

/-- Every reading of the clock is part of an event. A call of the ledger that fails ends the
tick; the process may be killed anywhere. -/
inductive Event
  | tick (now : ℚ)
  | arm
  | look (now : ℚ)
  | attempt (now : ℚ)
  | launch
  | exit (result : RunResult)
  | record (now : ℚ)
  | requestStop
  | fail
  | kill
  | restart

def refusal (config : Config) (job : Job) (records : Ledger) (startedAt : ℚ) : Option Refusal :=
  let closed := job.requires.any fun required =>
    !gateOpen (records required) startedAt (config.intervalOr required) config.policy
  if closed then some .gateClosed
  else if (childEnv job config.environ).isNone then some .missingDsn
  else none

def beginTick (config : Config) (s : State) (now : ℚ) : State :=
  { s with clock := now, phase := .arming now config.jobs, log := .ticked now :: s.log }

def armNext (config : Config) (s : State) (now : ℚ) : List Job → State
  | [] => { s with phase := .between config.jobs }
  | job :: rest =>
    { s with
      ledger := Function.update s.ledger job.task
        ((s.ledger job.task).arm (config.interval job.task) job.maxRuntimeS now)
      phase := .arming now rest }

def look (config : Config) (s : State) (now : ℚ) : List Job → State
  | [] => { s with phase := .idle }
  | job :: rest =>
    if s.stopping then { s with phase := .idle }
    else
      let records := config.read s.ledger
      match decide (records job.task) now (config.interval job.task) config.policy with
      | .run => { s with clock := now, phase := .due job rest records }
      | _ => { s with clock := now, phase := .between rest }

def attempt (config : Config) (s : State) (job : Job) (rest : List Job) (records : Ledger)
    (startedAt : ℚ) : State :=
  let interval := config.interval job.task
  let cycle := cycleOf startedAt (if interval = 0 then daySeconds else interval)
    config.policy.offsetS
  let record := records job.task
  let attempts := if record.attemptCycle = some cycle then record.cycleAttempts + 1 else 1
  { s with
    clock := startedAt
    ledger := Function.update s.ledger job.task
      ((s.ledger job.task).attempt startedAt cycle attempts)
    phase := .attempted job rest records startedAt
    log := .attempted job.task startedAt cycle :: s.log }

def launch (config : Config) (s : State) (job : Job) (rest : List Job) (records : Ledger)
    (startedAt : ℚ) : State :=
  match refusal config job records startedAt, childEnv job config.environ with
  | none, some env =>
    { s with phase := .running job rest startedAt, log := .launched job env startedAt :: s.log }
  | some why, _ => { s with phase := .ended job rest startedAt (some (.refused why)) }
  | none, none => { s with phase := .ended job rest startedAt (some (.refused .missingDsn)) }

def record (config : Config) (s : State) (job : Job) (rest : List Job) (startedAt : ℚ)
    (error : Option Failure) (finishedAt : ℚ) : State :=
  { s with
    clock := finishedAt
    ledger := Function.update s.ledger job.task
      ((s.ledger job.task).record (config.interval job.task) job.maxRuntimeS startedAt finishedAt
        error)
    phase := .between rest
    log := if error = none then .succeeded job.task finishedAt :: s.log else s.log }

def step (config : Config) (s : State) : Event → Option State
  | .tick now =>
    match s.phase with
    | .idle => if s.clock ≤ now then some (beginTick config s now) else none
    | _ => none
  | .arm =>
    match s.phase with
    | .arming now rest => some (armNext config s now rest)
    | _ => none
  | .look now =>
    match s.phase with
    | .between rest => if s.clock ≤ now then some (look config s now rest) else none
    | _ => none
  | .attempt now =>
    match s.phase with
    | .due job rest records =>
      if s.clock ≤ now then some (attempt config s job rest records now) else none
    | _ => none
  | .launch =>
    match s.phase with
    | .attempted job rest records startedAt => some (launch config s job rest records startedAt)
    | _ => none
  | .exit result =>
    match s.phase with
    | .running job rest startedAt =>
      let error := if result.succeeded then none else some (Failure.ended result)
      some { s with phase := .ended job rest startedAt error }
    | _ => none
  | .record now =>
    match s.phase with
    | .ended job rest startedAt error =>
      if s.clock ≤ now then some (record config s job rest startedAt error now) else none
    | _ => none
  | .requestStop => some { s with stopping := true }
  | .fail =>
    match s.phase with
    | .down => none
    | _ => some { s with phase := .idle }
  | .kill => some { s with phase := .down }
  | .restart =>
    match s.phase with
    | .down => some { s with phase := .idle, stopping := false }
    | _ => none

def start (now : ℚ) : State := ⟨fun _ => .empty, now, false, .idle, []⟩

section Log

def attemptsOf (task : String) (log : List Entry) : List (ℚ × ℤ) :=
  log.filterMap fun
    | .attempted other startedAt cycle => if other = task then some (startedAt, cycle) else none
    | _ => none

def attemptedSince : List Entry → List String
  | [] => []
  | .ticked _ :: _ => []
  | .attempted task _ _ :: log => task :: attemptedSince log
  | .launched _ _ _ :: log => attemptedSince log
  | .succeeded _ _ :: log => attemptedSince log

def lastTick : List Entry → Option ℚ
  | [] => none
  | .ticked now :: _ => some now
  | _ :: log => lastTick log

def Entry.time : Entry → ℚ
  | .ticked now => now
  | .attempted _ startedAt _ => startedAt
  | .launched _ _ startedAt => startedAt
  | .succeeded _ finishedAt => finishedAt

structure Attempts (config : Config) (log : List Entry) (task : String) (startedAt : ℚ)
    (cycle : ℤ) : Prop where
  current : cycle = config.cycle task startedAt
  once : task ∉ attemptedSince log
  tick : ∀ now, lastTick log = some now → now ≤ startedAt
  fewer : ((attemptsOf task log).filter (·.2 = cycle)).length < config.policy.maxAttempts
  after : ∀ earlier ∈ attemptsOf task log, earlier.1 ≤ startedAt ∧ earlier.2 ≤ cycle
  spaced : ∀ earlier ∈ attemptsOf task log, earlier.2 = cycle →
    earlier.1 + config.policy.retryAfterS ≤ startedAt
  settled : ∀ finishedAt, .succeeded task finishedAt ∈ log → config.cycle task finishedAt < cycle

def Allowed (config : Config) (log : List Entry) : Entry → Prop
  | .ticked _ | .succeeded _ _ => True
  | .attempted task startedAt cycle => Attempts config log task startedAt cycle
  | .launched job _ startedAt =>
    ∀ required, job.requires = some required → ∃ finishedAt, .succeeded required finishedAt ∈ log ∧
      config.cycle required finishedAt = config.cycle required startedAt

def Promised (config : Config) : List Entry → Prop
  | [] => True
  | e :: log => Allowed config log e ∧ Promised config log

variable {config : Config} {log : List Entry} {task : String}

theorem allowed_of_suffix (h : Promised config log) {e : Entry} {earlier : List Entry}
    (hs : e :: earlier <:+ log) : Allowed config earlier e := by
  induction log with
  | nil => exact absurd (suffix_nil.mp hs) (cons_ne_nil _ _)
  | cons head log ih =>
    rcases suffix_cons_iff.mp hs with heq | hl
    · rw [List.cons.injEq] at heq
      obtain ⟨rfl, rfl⟩ := heq
      exact h.1
    · exact ih h.2 hl

theorem mem_attemptsOf {startedAt : ℚ} {cycle : ℤ} :
    (startedAt, cycle) ∈ attemptsOf task log ↔ .attempted task startedAt cycle ∈ log := by
  rw [attemptsOf, mem_filterMap]
  constructor
  · rintro ⟨e, he, hs⟩
    split at hs
    · split_ifs at hs with ht
      rw [Option.some.injEq, Prod.mk.injEq] at hs
      obtain ⟨rfl, rfl⟩ := hs
      rwa [← ht]
    · cases hs
  · intro h
    exact ⟨_, h, by simp⟩

theorem attemptsOf_cons_self (startedAt : ℚ) (cycle : ℤ) :
    attemptsOf task (.attempted task startedAt cycle :: log) =
      (startedAt, cycle) :: attemptsOf task log := by
  simp [attemptsOf]

theorem attemptsOf_cons_of_ne {other : String} (hne : other ≠ task) (startedAt : ℚ) (cycle : ℤ) :
    attemptsOf task (.attempted other startedAt cycle :: log) = attemptsOf task log := by
  simp [attemptsOf, hne]

theorem attempts_per_cycle (h : Promised config log) (cycle : ℤ) :
    ((attemptsOf task log).filter (·.2 = cycle)).length ≤ config.policy.maxAttempts := by
  induction log with
  | nil => simp [attemptsOf]
  | cons e log ih =>
    cases e with
    | ticked => exact ih h.2
    | launched => exact ih h.2
    | succeeded => exact ih h.2
    | attempted other startedAt counted =>
      by_cases ht : other = task
      · subst ht
        rw [attemptsOf_cons_self]
        by_cases hc : counted = cycle
        · subst hc
          rw [filter_cons_of_pos (by simp), length_cons]
          exact h.1.fewer
        · rw [filter_cons_of_neg (by simpa using hc)]
          exact ih h.2
      · rw [attemptsOf_cons_of_ne ht]
        exact ih h.2

/-- What the attempts of a log have in common with what came before each of them. -/
theorem pairwise_of_promised {R : Entry → Entry → Prop}
    (hR : ∀ e log, Allowed config log e → ∀ earlier ∈ log, R e earlier)
    (h : Promised config log) : log.Pairwise R := by
  induction log with
  | nil => exact List.Pairwise.nil
  | cons e log ih => exact pairwise_cons.mpr ⟨hR e log h.1, ih h.2⟩

end Log

section Ledger

structure Succeeded (r : TaskRecord) (task : String) (log : List Entry) : Prop where
  logged : ∀ last, r.lastSuccessAt = some last → .succeeded task last ∈ log
  last : ∀ finishedAt, .succeeded task finishedAt ∈ log →
    ∃ last, r.lastSuccessAt = some last ∧ finishedAt ≤ last

/-- The record of a task holds its last attempt, and the count of the attempts of its cycle. -/
def Counted (r : TaskRecord) : List (ℚ × ℤ) → Prop
  | [] => r.attemptCycle = none ∧ r.lastAttemptAt = none
  | (startedAt, cycle) :: earlier =>
    r.lastAttemptAt = some startedAt ∧ r.attemptCycle = some cycle ∧
      r.cycleAttempts = (((startedAt, cycle) :: earlier).filter (·.2 = cycle)).length

theorem Counted.congr {r r' : TaskRecord} {attempts : List (ℚ × ℤ)} (h : Counted r attempts)
    (hl : r'.lastAttemptAt = r.lastAttemptAt) (hc : r'.attemptCycle = r.attemptCycle)
    (hco : r'.cycleAttempts = r.cycleAttempts) : Counted r' attempts := by
  cases attempts with
  | nil => exact ⟨hc.trans h.1, hl.trans h.2⟩
  | cons head earlier => exact ⟨hl.trans h.1, hc.trans h.2.1, hco.trans h.2.2⟩

theorem record_attempt_fields (r : TaskRecord) (intervalS maxRuntimeS startedAt finishedAt : ℚ)
    (error : Option Failure) :
    (r.record intervalS maxRuntimeS startedAt finishedAt error).lastAttemptAt = r.lastAttemptAt ∧
    (r.record intervalS maxRuntimeS startedAt finishedAt error).attemptCycle = r.attemptCycle ∧
    (r.record intervalS maxRuntimeS startedAt finishedAt error).cycleAttempts =
      r.cycleAttempts := by
  cases error <;> exact ⟨rfl, rfl, rfl⟩

theorem cycleOf_mono {intervalS offsetS now later : ℚ} (hi : 0 < intervalS)
    (hle : now ≤ later) : cycleOf now intervalS offsetS ≤ cycleOf later intervalS offsetS := by
  apply Int.floor_le_floor
  exact div_le_div_of_nonneg_right (sub_le_sub_right hle offsetS) hi.le

/-- A job is run only when it is due. -/
theorem decide_eq_run {r : TaskRecord} {now intervalS : ℚ} {policy : Policy}
    (h : decide r now intervalS policy = .run) :
    0 < intervalS ∧
      (∀ last, r.lastSuccessAt = some last →
        cycleOf last intervalS policy.offsetS < cycleOf now intervalS policy.offsetS) ∧
      ∀ last, r.lastAttemptAt = some last →
        r.attemptCycle = some (cycleOf now intervalS policy.offsetS) →
          r.cycleAttempts < policy.maxAttempts ∧ policy.retryAfterS ≤ now - last := by
  unfold decide at h
  by_cases hi : intervalS ≤ 0
  · rw [if_pos hi] at h
    cases h
  rw [if_neg hi] at h
  refine ⟨not_le.mp hi, ?_⟩
  dsimp only at h
  split at h
  · cases h
  · rename_i anchor ha
    by_cases hc : cycleOf now intervalS policy.offsetS ≤ cycleOf anchor intervalS policy.offsetS
    · rw [if_pos hc] at h
      cases h
    rw [if_neg hc] at h
    constructor
    · intro last hl
      rw [hl] at ha
      obtain rfl : last = anchor := Option.some.inj ha
      exact not_le.mp hc
    · intro last hl hs
      rw [hl] at h
      dsimp only at h
      rw [if_neg (not_not.mpr hs)] at h
      split_ifs at h with hco hgap
      exact ⟨not_le.mp hco, hgap⟩

end Ledger

section Steps

structure Pending (config : Config) (rest : List Job) (log : List Entry) : Prop where
  jobs : ∀ job ∈ rest, job ∈ config.jobs
  nodup : (rest.map (·.task)).Nodup
  unattempted : ∀ job ∈ rest, job.task ∉ attemptedSince log

def Placed (config : Config) (s : State) : Prop :=
  match s.phase with
  | .down | .idle => True
  | .arming _ _ => attemptedSince s.log = []
  | .between rest | .running _ rest _ | .ended _ rest _ _ => Pending config rest s.log
  | .due job rest records =>
    Pending config (job :: rest) s.log ∧ records = config.read s.ledger ∧
      decide (records job.task) s.clock (config.interval job.task) config.policy = .run
  | .attempted _ rest records startedAt =>
    Pending config rest s.log ∧ startedAt ≤ s.clock ∧
      ∀ task last, (records task).lastSuccessAt = some last →
        .succeeded task last ∈ s.log ∧ last ≤ startedAt

structure Sound (config : Config) (s : State) : Prop where
  promised : Promised config s.log
  times : ∀ e ∈ s.log, e.time ≤ s.clock
  successes : ∀ task, Succeeded (s.ledger task) task s.log
  attempts : ∀ task, Counted (s.ledger task) (attemptsOf task s.log)
  placed : Placed config s

variable {config : Config} {s t : State}

variable {job : Job} {rest : List Job} {log : List Entry}

theorem Pending.tail (h : Pending config (job :: rest) log) : Pending config rest log where
  jobs := fun other ho => h.jobs other (mem_cons_of_mem _ ho)
  nodup := (nodup_cons.mp h.nodup).2
  unattempted := fun other ho => h.unattempted other (mem_cons_of_mem _ ho)

theorem Pending.attempted (h : Pending config (job :: rest) log) (startedAt : ℚ) (cycle : ℤ) :
    Pending config rest (.attempted job.task startedAt cycle :: log) where
  jobs := h.tail.jobs
  nodup := h.tail.nodup
  unattempted := by
    intro other ho hin
    rcases mem_cons.mp hin with heq | hin
    · exact (nodup_cons.mp h.nodup).1 (mem_map.mpr ⟨other, ho, heq⟩)
    · exact h.tail.unattempted other ho hin

variable {r : TaskRecord} {task : String}

theorem Succeeded.cons (h : Succeeded r task log) {e : Entry}
    (hne : ∀ finishedAt, e ≠ .succeeded task finishedAt) :
    Succeeded r task (e :: log) where
  logged := fun last hl => mem_cons_of_mem _ (h.logged last hl)
  last := by
    intro finishedAt hin
    rcases mem_cons.mp hin with heq | hin
    · exact absurd heq.symm (hne finishedAt)
    · exact h.last finishedAt hin

theorem Succeeded.congr {r' : TaskRecord} (h : Succeeded r task log)
    (heq : r'.lastSuccessAt = r.lastSuccessAt) :
    Succeeded r' task log := by
  constructor
  · rw [heq]
    exact h.logged
  · rw [heq]
    exact h.last

variable {now : ℚ}

theorem times_cons {clock : ℚ} (h : ∀ e ∈ log, e.time ≤ clock) (hc : clock ≤ now) {e : Entry}
    (he : e.time ≤ now) :
    ∀ other ∈ e :: log, other.time ≤ now := by
  intro other ho
  rcases mem_cons.mp ho with rfl | ho
  · exact he
  · exact le_trans (h other ho) hc

theorem Sound.move (h : Sound config s) {clock : ℚ} {stopping : Bool} {phase : Phase}
    (hc : s.clock ≤ clock) (hp : Placed config ⟨s.ledger, clock, stopping, phase, s.log⟩) :
    Sound config ⟨s.ledger, clock, stopping, phase, s.log⟩ where
  promised := h.promised
  times := fun e he => le_trans (h.times e he) hc
  successes := h.successes
  attempts := h.attempts
  placed := hp

theorem sound_beginTick (h : Sound config s) (hnow : s.clock ≤ now) :
    Sound config (beginTick config s now) where
  promised := ⟨trivial, h.promised⟩
  times := times_cons h.times hnow le_rfl
  successes := fun task => (h.successes task).cons (by simp)
  attempts := h.attempts
  placed := rfl

/-- Arming keeps the promises. -/
theorem sound_armNext (h : Sound config s) (hphase : s.phase = .arming now rest) :
    Sound config (armNext config s now rest) := by
  have hp := h.placed
  rw [Placed, hphase] at hp
  cases rest with
  | nil =>
    refine h.move le_rfl ⟨fun job hjob => hjob, config.nodup, ?_⟩
    intro job _
    rw [hp]
    exact not_mem_nil
  | cons job rest =>
    refine ⟨h.promised, h.times, ?_, ?_, hp⟩
    · rw [armNext, Function.forall_update_iff s.ledger fun task r => Succeeded r task s.log]
      exact ⟨(h.successes job.task).congr rfl, fun task _ => h.successes task⟩
    · rw [armNext,
        Function.forall_update_iff s.ledger fun task r => Counted r (attemptsOf task s.log)]
      exact ⟨(h.attempts job.task).congr rfl rfl rfl, fun task _ => h.attempts task⟩

theorem sound_look (h : Sound config s) (hnow : s.clock ≤ now) (hphase : s.phase = .between rest) :
    Sound config (look config s now rest) := by
  have hp := h.placed
  rw [Placed, hphase] at hp
  cases rest with
  | nil => exact h.move le_rfl trivial
  | cons job rest =>
    rw [look]
    split_ifs
    · exact h.move le_rfl trivial
    · dsimp only
      split
      · rename_i hrun
        exact h.move hnow ⟨hp, rfl, hrun⟩
      · exact h.move hnow hp.tail

theorem lastTick_mem (h : lastTick log = some now) :
    .ticked now ∈ log := by
  induction log with
  | nil => cases h
  | cons e log ih =>
    cases e with
    | ticked => simp_all [lastTick]
    | attempted => exact mem_cons_of_mem _ (ih h)
    | launched => exact mem_cons_of_mem _ (ih h)
    | succeeded => exact mem_cons_of_mem _ (ih h)

theorem attemptsOf_pairwise (h : Promised config log) (task : String) :
    (attemptsOf task log).Pairwise fun later earlier =>
      earlier.1 ≤ later.1 ∧ earlier.2 ≤ later.2 := by
  induction log with
  | nil => exact List.Pairwise.nil
  | cons e log ih =>
    cases e with
    | ticked => exact ih h.2
    | launched => exact ih h.2
    | succeeded => exact ih h.2
    | attempted other startedAt cycle =>
      by_cases ht : other = task
      · subst ht
        rw [attemptsOf_cons_self]
        exact pairwise_cons.mpr ⟨h.1.after, ih h.2⟩
      · rw [attemptsOf_cons_of_ne ht]
        exact ih h.2

theorem cycle_of_mem_attemptsOf (h : Promised config log) {attempt : ℚ × ℤ}
    (ha : attempt ∈ attemptsOf task log) :
    attempt.2 = config.cycle task attempt.1 := by
  obtain ⟨later, earlier, rfl⟩ := append_of_mem (mem_attemptsOf.mp ha)
  exact (allowed_of_suffix h (suffix_append later _)).current

section

variable {attempts : List (ℚ × ℤ)} (h : Counted r attempts)
    (hpairs : attempts.Pairwise fun later earlier => earlier.1 ≤ later.1 ∧ earlier.2 ≤ later.2)
include h hpairs

theorem Counted.length_filter {cycle : ℤ} (hle : ∀ attempt ∈ attempts, attempt.2 ≤ cycle) :
    (attempts.filter (·.2 = cycle)).length =
      if r.attemptCycle = some cycle then r.cycleAttempts else 0 := by
  cases attempts with
  | nil => simp [h.1]
  | cons last earlier =>
    obtain ⟨-, hc, hco⟩ := h
    rw [hc]
    by_cases hs : last.2 = cycle
    · rw [if_pos (congrArg some hs), hco, ← hs]
    · rw [if_neg fun heq => hs (Option.some.inj heq), length_eq_zero_iff,
        filter_eq_nil_iff]
      have hl := lt_of_le_of_ne (hle last mem_cons_self) hs
      intro attempt ha
      have hb : attempt.2 ≤ last.2 := by
        rcases mem_cons.mp ha with rfl | ha
        · exact le_rfl
        · exact ((pairwise_cons.mp hpairs).1 attempt ha).2
      simpa using (lt_of_le_of_lt hb hl).ne

theorem Counted.le_last {cycle : ℤ} (hle : ∀ attempt ∈ attempts, attempt.2 ≤ cycle)
    {attempt : ℚ × ℤ} (ha : attempt ∈ attempts) (hc : attempt.2 = cycle) :
    ∃ last, r.lastAttemptAt = some last ∧ r.attemptCycle = some cycle ∧ attempt.1 ≤ last := by
  cases attempts with
  | nil => exact absurd ha not_mem_nil
  | cons last earlier =>
    have hl : attempt.1 ≤ last.1 ∧ attempt.2 ≤ last.2 := by
      rcases mem_cons.mp ha with rfl | ha
      · exact ⟨le_rfl, le_rfl⟩
      · exact (pairwise_cons.mp hpairs).1 attempt ha
    have hn : last.2 = cycle :=
      le_antisymm (hle last mem_cons_self) (hc ▸ hl.2)
    exact ⟨last.1, h.1, h.2.1.trans (congrArg some hn), hl.1⟩

end

theorem read_of_mem {ledger : Ledger} (hjob : job ∈ config.jobs) :
    config.read ledger job.task = ledger job.task := by
  rw [Config.read, if_pos (mem_map.mpr ⟨job, hjob, rfl⟩)]

section Attempt

variable {job : Job} {rest : List Job} {records : Ledger} {now : ℚ}

section

variable (h : Sound config s) (hphase : s.phase = .due job rest records)
include h hphase

theorem cycle_of_due (now : ℚ) :
    cycleOf now (if config.interval job.task = 0 then daySeconds else config.interval job.task)
      config.policy.offsetS = config.cycle job.task now := by
  have hp := h.placed
  rw [Placed, hphase] at hp
  rw [if_neg (decide_eq_run hp.2.2).1.ne', Config.cycle]

theorem record_of_due : records job.task = s.ledger job.task := by
  have hp := h.placed
  rw [Placed, hphase] at hp
  rw [hp.2.1, read_of_mem (hp.1.jobs job mem_cons_self)]

theorem le_cycle_of_due (hnow : s.clock ≤ now) {attempt : ℚ × ℤ}
    (ha : attempt ∈ attemptsOf job.task s.log) :
    attempt.1 ≤ s.clock ∧ attempt.2 ≤ config.cycle job.task now := by
  have hp := h.placed
  rw [Placed, hphase] at hp
  have ht : attempt.1 ≤ s.clock := h.times _ (mem_attemptsOf.mp ha)
  refine ⟨ht, ?_⟩
  rw [cycle_of_mem_attemptsOf h.promised ha]
  exact cycleOf_mono (decide_eq_run hp.2.2).1 (le_trans ht hnow)

/-- A due job may be attempted. -/
theorem attempts_of_due (hnow : s.clock ≤ now) :
    Attempts config s.log job.task now (config.cycle job.task now) := by
  have hre := record_of_due h hphase
  have hbe : ∀ attempt ∈ attemptsOf job.task s.log,
      attempt.1 ≤ s.clock ∧ attempt.2 ≤ config.cycle job.task now :=
    fun _ hat => le_cycle_of_due h hphase hnow hat
  have hpairs := attemptsOf_pairwise h.promised job.task
  have hp := h.placed
  rw [Placed, hphase] at hp
  obtain ⟨hpe, -, hd⟩ := hp
  rw [hre] at hd
  obtain ⟨hi, hs, ham⟩ := decide_eq_run hd
  have hco := h.attempts job.task
  have hcl : config.cycle job.task s.clock ≤ config.cycle job.task now :=
    cycleOf_mono hi hnow
  have hl : ∀ attempt ∈ attemptsOf job.task s.log, attempt.2 = config.cycle job.task now →
      attempt.1 + config.policy.retryAfterS ≤ s.clock ∧
        (s.ledger job.task).cycleAttempts < config.policy.maxAttempts := by
    intro attempt hat hc
    obtain ⟨last, hl, hsa, hle⟩ :=
      hco.le_last hpairs (fun a ha => (hbe a ha).2) hat hc
    have hb : config.cycle job.task now ≤ config.cycle job.task s.clock := by
      rw [← hc, cycle_of_mem_attemptsOf h.promised hat]
      exact cycleOf_mono hi (hbe attempt hat).1
    rw [le_antisymm hb hcl] at hsa
    obtain ⟨hf, hgap⟩ := ham last hl hsa
    exact ⟨by linarith, hf⟩
  refine ⟨rfl, hpe.unattempted job mem_cons_self, ?_, ?_, ?_, ?_, ?_⟩
  · intro tick ht
    exact le_trans (h.times _ (lastTick_mem ht)) hnow
  · by_cases hany : ∃ attempt ∈ attemptsOf job.task s.log, attempt.2 = config.cycle job.task now
    · obtain ⟨attempt, hat, hc⟩ := hany
      rw [hco.length_filter hpairs fun a ha => (hbe a ha).2]
      split_ifs
      · exact (hl attempt hat hc).2
      · exact config.policy.attempts_pos
    · have hem : (attemptsOf job.task s.log).filter (·.2 = config.cycle job.task now) = [] := by
        apply filter_eq_nil_iff.mpr
        intro attempt hat hc
        exact hany ⟨attempt, hat, by simpa using hc⟩
      rw [hem]
      exact config.policy.attempts_pos
  · intro earlier he
    exact ⟨le_trans (hbe earlier he).1 hnow, (hbe earlier he).2⟩
  · intro earlier he hc
    exact le_trans (hl earlier he hc).1 hnow
  · intro finishedAt hin
    obtain ⟨last, hr, hle⟩ := (h.successes job.task).last finishedAt hin
    calc config.cycle job.task finishedAt ≤ config.cycle job.task last :=
          cycleOf_mono hi hle
      _ < config.cycle job.task s.clock := hs last hr
      _ ≤ config.cycle job.task now := hcl

/-- An attempt keeps the promises. -/
theorem sound_attempt (hnow : s.clock ≤ now) :
    Sound config (attempt config s job rest records now) := by
  have hal := attempts_of_due h hphase hnow
  have hp := h.placed
  rw [Placed, hphase] at hp
  obtain ⟨hpe, hr, -⟩ := hp
  have hc := (h.attempts job.task).length_filter (attemptsOf_pairwise h.promised job.task)
    fun a ha => (hal.after a ha).2
  simp only [attempt, cycle_of_due h hphase now]
  refine ⟨⟨hal, h.promised⟩, times_cons h.times hnow le_rfl, ?_, ?_, ?_⟩
  · rw [Function.forall_update_iff s.ledger fun task r => Succeeded r task (_ :: s.log)]
    exact ⟨((h.successes job.task).cons (by simp)).congr rfl,
      fun task _ => (h.successes task).cons (by simp)⟩
  · rw [Function.forall_update_iff s.ledger fun task r => Counted r (attemptsOf task (_ :: s.log))]
    constructor
    · rw [attemptsOf_cons_self]
      refine ⟨rfl, rfl, ?_⟩
      rw [filter_cons_of_pos (by simp), length_cons, hc, TaskRecord.attempt,
        record_of_due h hphase]
      split_ifs <;> rfl
    · intro task hne
      rw [attemptsOf_cons_of_ne (Ne.symm hne)]
      exact h.attempts task
  · refine ⟨hpe.attempted now _, le_rfl, ?_⟩
    intro task last hla
    rw [hr, Config.read] at hla
    split_ifs at hla
    · have hl := (h.successes task).logged last hla
      exact ⟨mem_cons_of_mem _ hl, le_trans (h.times _ hl) hnow⟩
    · cases hla

end

end Attempt

variable {startedAt : ℚ}

theorem success_of_gateOpen {required : TaskRecord}
    (h : gateOpen required startedAt (config.intervalOr task) config.policy = true)
    (hb : ∀ last, required.lastSuccessAt = some last → last ≤ startedAt) :
    ∃ last, required.lastSuccessAt = some last ∧
      config.cycle task last = config.cycle task startedAt := by
  unfold gateOpen at h
  split_ifs at h with hi
  rw [Config.intervalOr] at h hi
  split_ifs at h hi
  · split at h
    · cases h
    · rename_i last hl
      refine ⟨last, hl, le_antisymm ?_ (of_decide_eq_true h)⟩
      exact cycleOf_mono (not_le.mp hi) (hb last hl)
  · exact absurd le_rfl hi

/-- A started process keeps the promises. -/
theorem sound_launch {records : Ledger} (h : Sound config s)
    (hphase : s.phase = .attempted job rest records startedAt) :
    Sound config (launch config s job rest records startedAt) := by
  have hpl := h.placed
  rw [Placed, hphase] at hpl
  obtain ⟨hp, ht, hre⟩ := hpl
  rw [launch]
  split
  · rename_i env hrf henv
    refine ⟨⟨?_, h.promised⟩, times_cons h.times le_rfl ht,
      fun task => (h.successes task).cons (by simp), h.attempts,
      ⟨hp.jobs, hp.nodup, hp.unattempted⟩⟩
    intro required hr
    have ho : gateOpen (records required) startedAt (config.intervalOr required)
        config.policy = true := by
      by_contra hc
      rw [Bool.not_eq_true] at hc
      simp [refusal, hr, hc] at hrf
    obtain ⟨last, hl, hcy⟩ := success_of_gateOpen ho fun last hl =>
      (hre required last hl).2
    exact ⟨last, (hre required last hl).1, hcy⟩
  · exact h.move le_rfl hp
  · exact h.move le_rfl hp

/-- A recorded end keeps the promises. -/
theorem sound_record {error : Option Failure} (h : Sound config s)
    (hphase : s.phase = .ended job rest startedAt error) (hnow : s.clock ≤ now) :
    Sound config (record config s job rest startedAt error now) := by
  have hp := h.placed
  rw [Placed, hphase] at hp
  have hco : ∀ task, Counted
      (Function.update s.ledger job.task ((s.ledger job.task).record (config.interval job.task)
        job.maxRuntimeS startedAt now error) task) (attemptsOf task s.log) := by
    rw [Function.forall_update_iff s.ledger fun task r => Counted r (attemptsOf task s.log)]
    obtain ⟨hl, hc, hcn⟩ := record_attempt_fields (s.ledger job.task)
      (config.interval job.task) job.maxRuntimeS startedAt now error
    exact ⟨(h.attempts job.task).congr hl hc hcn, fun task _ => h.attempts task⟩
  rw [record]
  cases error with
  | none =>
    rw [if_pos rfl]
    refine ⟨⟨trivial, h.promised⟩, times_cons h.times hnow le_rfl, ?_, hco,
      ⟨hp.jobs, hp.nodup, hp.unattempted⟩⟩
    rw [Function.forall_update_iff s.ledger fun task r => Succeeded r task (_ :: s.log)]
    constructor
    · constructor
      · intro last hl
        obtain rfl : now = last := Option.some.inj hl
        exact mem_cons_self
      · intro finishedAt hin
        refine ⟨now, rfl, ?_⟩
        exact times_cons h.times hnow (le_refl (Entry.succeeded job.task now).time) _ hin
    · intro task hne
      apply (h.successes task).cons
      intro finishedAt heq
      rw [Entry.succeeded.injEq] at heq
      exact hne heq.1.symm
  | some failure =>
    rw [if_neg (Option.some_ne_none failure)]
    refine ⟨h.promised, fun e he => le_trans (h.times e he) hnow, ?_, hco, hp⟩
    rw [Function.forall_update_iff s.ledger fun task r => Succeeded r task s.log]
    exact ⟨(h.successes job.task).congr rfl, fun task _ => h.successes task⟩

/-- Every event keeps the promises of the scheduler. -/
theorem sound_step (h : Sound config s) {e : Event} (hs : step config s e = some t) :
    Sound config t := by
  unfold step at hs
  split at hs
  · split at hs
    · split_ifs at hs with hnow
      cases hs
      exact sound_beginTick h hnow
    · cases hs
  · split at hs
    · rename_i now rest hphase
      cases hs
      exact sound_armNext h hphase
    · cases hs
  · split at hs
    · rename_i rest hphase
      split_ifs at hs with hnow
      cases hs
      exact sound_look h hnow hphase
    · cases hs
  · split at hs
    · rename_i job rest records hphase
      split_ifs at hs with hnow
      cases hs
      exact sound_attempt h hphase hnow
    · cases hs
  · split at hs
    · rename_i job rest records startedAt hphase
      cases hs
      exact sound_launch h hphase
    · cases hs
  · split at hs
    · rename_i job rest startedAt hphase
      have hp := h.placed
      rw [Placed, hphase] at hp
      cases hs
      exact h.move le_rfl hp
    · cases hs
  · split at hs
    · rename_i job rest startedAt error hphase
      split_ifs at hs with hnow
      cases hs
      exact sound_record h hphase hnow
    · cases hs
  · cases hs
    exact h.move le_rfl h.placed
  · split at hs
    · cases hs
    · cases hs
      exact h.move le_rfl trivial
  · cases hs
    exact h.move le_rfl trivial
  · split at hs
    · cases hs
      exact h.move le_rfl trivial
    · cases hs

theorem sound_start (now : ℚ) : Sound config (start now) where
  promised := trivial
  times := fun _ he => absurd he not_mem_nil
  successes := fun _ =>
    ⟨fun _ hl => (Option.some_ne_none _ hl.symm).elim,
      fun _ hin => absurd hin not_mem_nil⟩
  attempts := fun _ => ⟨rfl, rfl⟩
  placed := trivial

theorem sound_run {es : List Event} (hrun : run (step config) (start now) es = some s) :
    Sound config s :=
  run_invariant_of_step (fun _ _ _ h hs => sound_step h hs) hrun (sound_start now)

end Steps

section Promises

variable (config : Config)

def SpacedApart : Entry → Entry → Prop
  | .attempted task startedAt cycle, .attempted other before counted =>
    other = task → counted = cycle → before + config.policy.retryAfterS ≤ startedAt
  | _, _ => True

def NotAfterSuccess : Entry → Entry → Prop
  | .attempted task startedAt _, .succeeded other finishedAt =>
    other = task → config.cycle task startedAt ≠ config.cycle task finishedAt
  | _, _ => True

/-- What the runner promises of all it did. The log has the last entry first. -/
structure Promises (log : List Entry) : Prop where
  bounded : ∀ task cycle, ((attemptsOf task log).filter fun attempt =>
    config.cycle task attempt.1 = cycle).length ≤ config.policy.maxAttempts
  spaced : log.Pairwise (SpacedApart config)
  settled : log.Pairwise (NotAfterSuccess config)
  caughtUp : ∀ task startedAt cycle earlier, .attempted task startedAt cycle :: earlier <:+ log →
    cycle = config.cycle task startedAt ∧ task ∉ attemptedSince earlier ∧
      ∀ now, lastTick earlier = some now → now ≤ startedAt
  gated : ∀ job env startedAt earlier required, .launched job env startedAt :: earlier <:+ log →
    job.requires = some required → ∃ finishedAt, .succeeded required finishedAt ∈ earlier ∧
      config.cycle required finishedAt = config.cycle required startedAt

variable {config} {log : List Entry}

theorem promises_of_promised (h : Promised config log) : Promises config log where
  bounded := by
    intro task cycle
    have hsa : (attemptsOf task log).filter (fun attempt => config.cycle task attempt.1 = cycle) =
        (attemptsOf task log).filter (·.2 = cycle) := by
      apply filter_congr
      intro attempt hat
      rw [cycle_of_mem_attemptsOf h hat]
    rw [hsa]
    exact attempts_per_cycle h cycle
  spaced := by
    apply pairwise_of_promised _ h
    intro e log ha earlier he
    cases e with
    | attempted task startedAt cycle =>
      cases earlier with
      | attempted other before counted =>
        rintro rfl hc
        exact ha.spaced _ (mem_attemptsOf.mpr he) hc
      | ticked | launched | succeeded => trivial
    | ticked | launched | succeeded => trivial
  settled := by
    apply pairwise_of_promised _ h
    intro e log ha earlier he
    cases e with
    | attempted task startedAt cycle =>
      cases earlier with
      | succeeded other finishedAt =>
        rintro rfl
        have hl := ha.settled finishedAt he
        rw [ha.current] at hl
        exact hl.ne'
      | ticked | launched | attempted => trivial
    | ticked | launched | succeeded => trivial
  caughtUp := by
    intro task startedAt cycle earlier hs
    have ha := allowed_of_suffix h hs
    exact ⟨ha.current, ha.once, ha.tick⟩
  gated := by
    intro job env startedAt earlier required hs hr
    exact allowed_of_suffix h hs required hr

/-- A job past the cycle it was armed or last succeeded in, and not tried in this one. -/
structure Overdue (config : Config) (s : State) (task : String) (now : ℚ) : Prop where
  interval : 0 < config.interval task
  anchor : ∃ anchor, ((s.ledger task).lastSuccessAt <|> (s.ledger task).armedAt) = some anchor ∧
    config.cycle task anchor < config.cycle task now
  untried : ∀ attempt ∈ attemptsOf task s.log, config.cycle task attempt.1 ≠ config.cycle task now

theorem decide_of_overdue {s : State} {task : String} {now : ℚ} (h : Sound config s)
    (ho : Overdue config s task now) :
    decide (s.ledger task) now (config.interval task) config.policy = .run := by
  obtain ⟨anchor, han, hc⟩ := ho.anchor
  rw [decide, if_neg (not_le.mpr ho.interval)]
  simp only [han]
  have hp : ¬ cycleOf now (config.interval task) config.policy.offsetS ≤
      cycleOf anchor (config.interval task) config.policy.offsetS := not_le.mpr hc
  rw [if_neg hp]
  cases hl : (s.ledger task).lastAttemptAt with
  | none => rfl
  | some last =>
    apply if_pos
    intro hs
    have hco := h.attempts task
    cases ha : attemptsOf task s.log with
    | nil =>
      rw [ha] at hco
      exact absurd (hl.symm.trans hco.2) (Option.some_ne_none last)
    | cons head earlier =>
      have hh : head ∈ attemptsOf task s.log := by
        rw [ha]
        exact mem_cons_self
      rw [ha] at hco
      have hnow : head.2 = config.cycle task now :=
        Option.mem_unique hco.2.1 hs
      rw [cycle_of_mem_attemptsOf h.promised hh] at hnow
      exact ho.untried head hh hnow

theorem look_of_overdue {s : State} {job : Job} {rest : List Job} {now : ℚ}
    (h : Sound config s) (hphase : s.phase = .between (job :: rest)) (hs : s.stopping = false)
    (ho : Overdue config s job.task now) :
    look config s now (job :: rest) =
      { s with clock := now, phase := .due job rest (config.read s.ledger) } := by
  have hp := h.placed
  rw [Placed, hphase] at hp
  have hd := decide_of_overdue h ho
  have hr : config.read s.ledger job.task = s.ledger job.task :=
    read_of_mem (hp.jobs job mem_cons_self)
  rw [← hr] at hd
  rw [look, hs, if_neg Bool.false_ne_true]
  simp only [hd]

/-- Over every run, killed and started again anywhere, the runner keeps its promises, and a
tick that comes to an overdue job goes on to attempt it, in the cycle it then is. -/
theorem runs_keep_promises (config : Config) {now : ℚ} {es : List Event} {s : State}
    (hrun : run (step config) (start now) es = some s) :
    Promises config s.log ∧
      ∀ job rest, s.phase = .between (job :: rest) → s.stopping = false →
        ∀ decided started, s.clock ≤ decided → decided ≤ started →
          Overdue config s job.task decided →
          ∃ t, run (step config) s [.look decided, .attempt started] = some t ∧
            t.log = .attempted job.task started (config.cycle job.task started) :: s.log := by
  have hso := sound_run hrun
  refine ⟨promises_of_promised hso.promised, ?_⟩
  intro job rest hphase hs decided started hd hst ho
  have hl := look_of_overdue hso hphase hs ho
  have hdue : step config s (.look decided) =
      some { s with clock := decided, phase := .due job rest (config.read s.ledger) } := by
    simp only [step, hphase]
    rw [if_pos hd, hl]
  have hn := sound_step hso hdue
  have ha : step config
      { s with clock := decided, phase := .due job rest (config.read s.ledger) }
      (.attempt started) = some (attempt config _ job rest (config.read s.ledger) started) :=
    if_pos hst
  refine ⟨_, by rw [run, hdue, Option.bind_some, run, ha, Option.bind_some, run], ?_⟩
  simp only [attempt, cycle_of_due hn rfl started]

def nightly : Config where
  jobs := catalog
  nodup := by decide
  interval := fun _ => daySeconds
  policy := ⟨2 * hourSeconds, hourSeconds, 3, by decide⟩
  environ := fun _ => some "dsn"

def tried (now : ℚ) (result : RunResult) : List Event :=
  [.look now, .attempt now, .launch, .exit result, .record (now + 60)]

def exited (code : ℤ) : RunResult := ⟨some code, [], false, false⟩

def restartedNight : List Event :=
  [.tick 0, .arm, .arm, .arm, .arm, .arm, .arm, .look 1, .look 1, .look 1, .look 1, .look 1,
    .look 1] ++
  [.tick 7200, .arm, .arm, .arm, .arm, .arm, .arm, .look 7200, .attempt 7200, .launch, .kill,
    .restart] ++
  [.tick 9000, .arm, .arm, .arm, .arm, .arm, .arm, .look 9000, .look 9000, .attempt 9000, .launch,
    .exit (exited 0), .record 9060, .kill, .restart] ++
  [.tick 10800, .arm, .arm, .arm, .arm, .arm, .arm] ++ tried 10800 (exited 0) ++
  [.look 10900] ++ tried 10900 (exited 0) ++ tried 11000 (exited 0)

def launchedTasks (s : State) : List String :=
  s.log.filterMap fun
    | .launched job _ _ => some job.task
    | _ => none

/-- The backup is tried again when its window is over, and the purge runs after it. -/
theorem restarted_night_keeps_promises :
    ∃ s, run (step nightly) (start 0) restartedNight = some s ∧ Promises nightly s.log ∧
      launchedTasks s = ["purge", "retention", "backup", "backup_prune", "backup"] := by
  obtain ⟨s, hrun, ht⟩ := exists_run_of_any
    (p := fun s : State =>
      launchedTasks s == ["purge", "retention", "backup", "backup_prune", "backup"])
    (show (run (step nightly) (start 0) restartedNight).any _ = true by decide +kernel)
  exact ⟨s, hrun, (runs_keep_promises nightly hrun).1, by simpa using ht⟩

end Promises

end Aizzak.TaskScheduler
