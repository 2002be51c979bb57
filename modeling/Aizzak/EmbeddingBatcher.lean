import Aizzak.EventRuns
import Aizzak.KeyedTables

/-!
The batcher of the embedding service. Requests put a waiter in a queue and wait for its future; one
task takes waiters out of the queue, may sleep for a window to let more of them arrive, and encodes
them together. A step of the model is what runs between two awaits. When the shutdown cancels the
task, it fails those it was encoding, and `close` fails those in the queue; a future is left behind
only by a cancellation that meets the task asleep.
-/
namespace Aizzak.EmbeddingBatcher

open EventRuns KeyedTables

inductive Failure where
  | notLoaded
  | encode (detail : String)
deriving DecidableEq

inductive Future (V : Type*) where
  | pending
  | result (vectors : List V) (tokens : ℕ)
  | exception (failure : Failure)
  | cancelled

def Future.done {V : Type*} : Future V → Bool
  | .pending => false
  | .result _ _ | .exception _ | .cancelled => true

structure Waiter (T : Type*) where
  future : ℕ
  texts : List T

structure Config where
  windowMs : ℕ
  maxTexts : ℕ

/-- What the single consumer is awaiting, and the waiters it has taken out of the queue. -/
inductive Task (T : Type*) where
  | getting
  | sleeping (waiters : List (Waiter T)) (total : ℕ)
  | encoding (waiters : List (Waiter T))
  | ended

def Task.waiters {T : Type*} : Task T → List (Waiter T)
  | .getting | .ended => []
  | .sleeping waiters _ | .encoding waiters => waiters

inductive Lifespan where
  | serving
  | stopping
  | closed
deriving DecidableEq

structure State (T V : Type*) where
  queue : List (Waiter T)
  futures : AList fun _ : ℕ => Future V
  task : Task T
  lifespan : Lifespan
  modelLoaded : Bool

inductive Event (T V : Type*) where
  | submit (future : ℕ) (texts : List T)
  | get
  | wake
  | encoded (vectors : List V) (tokens : List ℕ)
  | encodeFails (detail : String)
  | clientCancels (future : ℕ)
  | shutdown
  | taskCancelled
  | close

section Machine

variable {T V : Type*}

/-- The waiters taken from the queue, those left in it, and the texts taken so far. A waiter
is taken whole while the texts are below the cap. -/
def drain (cfg : Config) : List (Waiter T) → ℕ → List (Waiter T) × List (Waiter T) × ℕ
  | [], total => ([], [], total)
  | waiter :: rest, total =>
    if total < cfg.maxTexts then
      let (taken, left, total) := drain cfg rest (total + waiter.texts.length)
      (waiter :: taken, left, total)
    else ([], waiter :: rest, total)

def settle (futures : AList fun _ : ℕ => Future V) (id : ℕ) (outcome : Future V) :
    AList fun _ : ℕ => Future V :=
  if (futures.lookup id).any (·.done = false) then futures.insert id outcome else futures

def fail (futures : AList fun _ : ℕ => Future V) (waiters : List (Waiter T))
    (failure : Failure) : AList fun _ : ℕ => Future V :=
  waiters.foldl (fun futures waiter => settle futures waiter.future (.exception failure)) futures

def deliver (futures : AList fun _ : ℕ => Future V) :
    List (Waiter T) → List V → List ℕ → AList fun _ : ℕ => Future V
  | [], _, _ => futures
  | waiter :: rest, vectors, tokens =>
    let count := waiter.texts.length
    deliver (settle futures waiter.future
      (.result (vectors.take count) (tokens.take count).sum)) rest (vectors.drop count)
      (tokens.drop count)

namespace State

def init : State T V := ⟨[], ∅, .getting, .serving, true⟩

def dispatch (s : State T V) (waiters : List (Waiter T)) : State T V :=
  if s.modelLoaded then { s with task := .encoding waiters }
  else { s with futures := fail s.futures waiters .notLoaded, task := .getting }

def collect (s : State T V) (cfg : Config) (waiters : List (Waiter T)) (total : ℕ) : State T V :=
  let (taken, left, _) := drain cfg s.queue total
  { s with queue := left }.dispatch (waiters ++ taken)

def take (s : State T V) (cfg : Config) (first : Waiter T) (rest : List (Waiter T)) :
    State T V :=
  let (taken, left, total) := drain cfg rest first.texts.length
  if total < cfg.maxTexts ∧ 0 < cfg.windowMs then
    { s with queue := left, task := .sleeping (first :: taken) total }
  else { s with queue := left }.dispatch (first :: taken)

end State

/-- What runs between two awaits of the task, of a request or of the lifespan. A task whose
cancellation was asked for takes no other step before it. -/
def step (cfg : Config) (s : State T V) : Event T V → Option (State T V)
  | .submit future texts =>
    if s.lifespan = .serving ∧ future ∉ s.futures then
      some { s with
        queue := s.queue ++ [⟨future, texts⟩]
        futures := s.futures.insert future .pending }
    else none
  | .get =>
    match s.lifespan, s.task, s.queue with
    | .serving, .getting, first :: rest => some (s.take cfg first rest)
    | _, _, _ => none
  | .wake =>
    match s.lifespan, s.task with
    | .serving, .sleeping waiters total => some (s.collect cfg waiters total)
    | _, _ => none
  | .encoded vectors tokens =>
    match s.lifespan, s.task with
    | .serving, .encoding waiters =>
      some { s with futures := deliver s.futures waiters vectors tokens, task := .getting }
    | _, _ => none
  | .encodeFails detail =>
    match s.lifespan, s.task with
    | .serving, .encoding waiters =>
      some { s with futures := fail s.futures waiters (.encode detail), task := .getting }
    | _, _ => none
  | .clientCancels future =>
    if future ∈ s.futures then some { s with futures := settle s.futures future .cancelled }
    else none
  | .shutdown =>
    if s.lifespan = .serving then some { s with lifespan := .stopping } else none
  | .taskCancelled =>
    match s.lifespan, s.task with
    | .stopping, .getting | .stopping, .sleeping _ _ => some { s with task := .ended }
    | .stopping, .encoding waiters =>
      some { s with futures := fail s.futures waiters .notLoaded, task := .ended }
    | _, _ => none
  | .close =>
    match s.lifespan, s.task with
    | .stopping, .ended =>
      some { s with
        queue := []
        futures := fail s.futures s.queue .notLoaded
        lifespan := .closed
        modelLoaded := false }
    | _, _ => none

def State.sleepsOnWaiter (s : State T V) : Bool :=
  match s.task with
  | .sleeping waiters _ =>
    waiters.any fun waiter => (s.futures.lookup waiter.future).any (·.done = false)
  | _ => false

/-- The cancellation of the task does not meet it asleep on a waiter. -/
def CancelledAwake (s : State T V) : Event T V → Prop
  | .taskCancelled => s.sleepsOnWaiter = false
  | _ => True

instance (s : State T V) : ∀ e, Decidable (CancelledAwake s e)
  | .taskCancelled => inferInstanceAs (Decidable (s.sleepsOnWaiter = false))
  | .submit _ _ | .get | .wake | .encoded _ _ | .encodeFails _ | .clientCancels _ | .shutdown
  | .close => .isTrue trivial

theorem drain_append (cfg : Config) (queue : List (Waiter T)) (total : ℕ) :
    (drain cfg queue total).1 ++ (drain cfg queue total).2.1 = queue := by
  induction queue generalizing total with
  | nil => rfl
  | cons waiter rest ih =>
    simp only [drain]
    split_ifs
    · simp [ih]
    · rfl

variable {futures : AList fun _ : ℕ => Future V} {id : ℕ}

theorem settle_pending {i : ℕ} {outcome : Future V} (ho : outcome.done = true)
    (h : (settle futures i outcome).lookup id = some .pending) :
    id ≠ i ∧ futures.lookup id = some .pending := by
  unfold settle at h
  split_ifs at h with hany
  · rcases lookup_insert_iff.mp h with ⟨-, rfl⟩ | hold
    · simp [Future.done] at ho
    · exact hold
  · refine ⟨?_, h⟩
    rintro rfl
    simp [h, Future.done] at hany

variable {waiters : List (Waiter T)}

theorem fail_pending {failure : Failure}
    (h : (fail futures waiters failure).lookup id = some .pending) :
    id ∉ waiters.map (·.future) ∧ futures.lookup id = some .pending := by
  induction waiters generalizing futures with
  | nil => exact ⟨by simp, h⟩
  | cons waiter rest ih =>
    obtain ⟨hr, hs⟩ := @ih (settle futures waiter.future (.exception failure)) h
    have hd : (Future.exception failure : Future V).done = true := rfl
    obtain ⟨hne, hp⟩ := settle_pending hd hs
    exact ⟨by simp [hne, hr], hp⟩

theorem deliver_pending {vectors : List V} {tokens : List ℕ}
    (h : (deliver futures waiters vectors tokens).lookup id = some .pending) :
    id ∉ waiters.map (·.future) ∧ futures.lookup id = some .pending := by
  induction waiters generalizing futures vectors tokens with
  | nil => exact ⟨by simp, h⟩
  | cons waiter rest ih =>
    obtain ⟨hr, hs⟩ := ih h
    obtain ⟨hne, hp⟩ := settle_pending rfl hs
    exact ⟨by simp [hne, hr], hp⟩

def Task.isEnded : Task T → Bool
  | .ended => true
  | _ => false

/-- A future that is not done is that of a waiter in the queue or with the task, and none is
left once the service is closed. The task lives as long as the service does. -/
structure Accounted (s : State T V) : Prop where
  held : ∀ id, s.futures.lookup id = some .pending →
    id ∈ (s.task.waiters ++ s.queue).map (·.future)
  ended : s.lifespan = .closed → s.queue = [] ∧ s.task.waiters = []
  alive : s.lifespan = .serving → s.task.isEnded = false

theorem Accounted.init : Accounted (State.init : State T V) := by
  constructor <;> simp [State.init, Task.isEnded]

variable {s : State T V}

/-- The batch is sent: a waiter of it that is not failed at once is with the task. -/
theorem Accounted.dispatch
    (hh : ∀ id, s.futures.lookup id = some .pending → id ∈ (waiters ++ s.queue).map (·.future))
    (ho : s.lifespan ≠ .closed) :
    Accounted (s.dispatch waiters) := by
  unfold State.dispatch
  split_ifs
  · exact ⟨hh, fun hc => absurd hc ho, fun _ => rfl⟩
  · refine ⟨?_, fun hc => absurd hc ho, fun _ => rfl⟩
    intro id hp
    obtain ⟨hnot, hp⟩ := fail_pending hp
    have hmem := hh id hp
    rw [List.map_append, List.mem_append] at hmem
    simpa [Task.waiters] using hmem.resolve_left hnot

theorem Accounted.collect (hs : Accounted s) {cfg : Config} {total : ℕ}
    (ht : s.task.waiters = waiters) (ho : s.lifespan ≠ .closed) :
    Accounted (s.collect cfg waiters total) := by
  refine Accounted.dispatch ?_ ho
  intro id hp
  have hmem := hs.held id hp
  rw [ht, ← drain_append cfg s.queue total] at hmem
  simpa using hmem

/-- Taking the first waiter loses no future. -/
theorem Accounted.take (hs : Accounted s) {cfg : Config} {first : Waiter T}
    {rest : List (Waiter T)} (ht : s.task.waiters = []) (hq : s.queue = first :: rest)
    (ho : s.lifespan ≠ .closed) : Accounted (s.take cfg first rest) := by
  have hh : ∀ id, s.futures.lookup id = some .pending →
      id ∈ ((first :: (drain cfg rest first.texts.length).1) ++
        (drain cfg rest first.texts.length).2.1).map (·.future) := by
    intro id hp
    have hmem := hs.held id hp
    rw [ht, hq, List.nil_append, ← drain_append cfg rest first.texts.length] at hmem
    simpa using hmem
  simp only [State.take]
  split_ifs
  · exact ⟨hh, fun hc => absurd hc ho, fun _ => rfl⟩
  · exact Accounted.dispatch hh ho

theorem Accounted.release (hs : Accounted s) {task : Task T} (ht : task.waiters = [])
    (ha : s.lifespan = .serving → task.isEnded = false)
    (hse : ∀ id, futures.lookup id = some .pending →
      id ∉ s.task.waiters.map (·.future) ∧ s.futures.lookup id = some .pending) :
    Accounted { s with futures := futures, task := task } := by
  refine ⟨?_, fun hc => ⟨(hs.ended hc).1, ht⟩, ha⟩
  intro id hp
  obtain ⟨hnot, hp⟩ := hse id hp
  have hmem := hs.held id hp
  rw [List.map_append, List.mem_append] at hmem
  simpa [ht] using hmem.resolve_left hnot

/-- No future is lost while the task is cancelled awake. -/
theorem step_accounted (cfg : Config) (s : State T V) (e : Event T V) (t : State T V)
    (hs : Accounted s) (hok : CancelledAwake s e) (ht : step cfg s e = some t) : Accounted t := by
  cases e with
  | submit future texts =>
    simp only [step] at ht
    split_ifs at ht with he
    cases ht
    refine ⟨?_, fun hc => by simp [he.1] at hc, hs.alive⟩
    intro id hp
    rcases lookup_insert_iff.mp hp with ⟨rfl, -⟩ | ⟨-, hp⟩
    · simp
    · have hmem := hs.held id hp
      simp only [List.map_append, List.mem_append] at hmem ⊢
      exact hmem.imp_right .inl
  | get =>
    simp only [step] at ht
    split at ht
    next first rest hse hta hq =>
      refine Option.some.inj ht ▸ hs.take (by simp [hta, Task.waiters]) hq ?_
      simp [hse]
    next => cases ht
  | wake =>
    simp only [step] at ht
    split at ht
    next waiters total hse hta =>
      refine Option.some.inj ht ▸ hs.collect (by simp [hta, Task.waiters]) ?_
      simp [hse]
    next => cases ht
  | encoded vectors tokens =>
    simp only [step] at ht
    split at ht
    next waiters hse hta =>
      refine Option.some.inj ht ▸ hs.release rfl (fun _ => rfl) ?_
      intro id hp
      simpa [hta, Task.waiters] using deliver_pending hp
    next => cases ht
  | encodeFails detail =>
    simp only [step] at ht
    split at ht
    next waiters hse hta =>
      refine Option.some.inj ht ▸ hs.release rfl (fun _ => rfl) ?_
      intro id hp
      simpa [hta, Task.waiters] using fail_pending hp
    next => cases ht
  | clientCancels future =>
    simp only [step] at ht
    split_ifs at ht
    refine Option.some.inj ht ▸ ⟨?_, hs.ended, hs.alive⟩
    intro id hp
    exact hs.held id (settle_pending rfl hp).2
  | shutdown =>
    simp only [step] at ht
    split_ifs at ht
    cases ht
    exact ⟨hs.held, nofun, nofun⟩
  | taskCancelled =>
    simp only [step] at ht
    split at ht
    next hst hta =>
      refine Option.some.inj ht ▸ hs.release rfl (by simp [hst]) ?_
      intro id hp
      exact ⟨by simp [hta, Task.waiters], hp⟩
    next waiters total hst hta =>
      refine Option.some.inj ht ▸ hs.release rfl (by simp [hst]) ?_
      intro id hp
      refine ⟨?_, hp⟩
      intro hmem
      obtain ⟨waiter, hw, rfl⟩ := List.mem_map.mp hmem
      have ha : s.sleepsOnWaiter = false := hok
      simp only [State.sleepsOnWaiter, hta, List.any_eq_false] at ha
      simp only [hta, Task.waiters] at hw
      simpa [hp, Future.done] using ha waiter hw
    next waiters hst hta =>
      refine Option.some.inj ht ▸ hs.release rfl (by simp [hst]) ?_
      intro id hp
      simpa [hta, Task.waiters] using fail_pending hp
    next => cases ht
  | close =>
    simp only [step] at ht
    split at ht
    next hst hta =>
      cases ht
      refine ⟨?_, fun _ => ⟨rfl, by simp [hta, Task.waiters]⟩, nofun⟩
      intro id hp
      obtain ⟨hnot, hp⟩ := fail_pending hp
      have hmem := hs.held id hp
      simp only [hta, Task.waiters, List.nil_append] at hmem
      exact absurd hmem hnot
    next => cases ht

/-- Whatever the interleaving of requests, disconnecting clients, failing encodes and the
shutdown: when the cancellation does not meet the task asleep on a waiter, every future is
done once `close` has returned, and the shutdown can run to its end from any moment. -/
theorem awake_cancellation_answers_every_waiter (cfg : Config) (events : List (Event T V))
    (s : State T V) (hok : Guarded (step cfg) CancelledAwake State.init events)
    (hrun : run (step cfg) State.init events = some s) :
    (s.lifespan = .closed → ∀ id future, s.futures.lookup id = some future →
      future.done = true) ∧
    (s.lifespan = .serving → ∃ t, run (step cfg) s [.shutdown, .taskCancelled, .close] = some t ∧
      t.lifespan = .closed) := by
  have hs := run_invariant (step_accounted cfg) hok hrun Accounted.init
  constructor
  · intro hc id future hf
    cases future with
    | pending =>
      have hmem := hs.held id hf
      simp [hs.ended hc] at hmem
    | result vectors tokens => rfl
    | exception failure => rfl
    | cancelled => rfl
  · intro hse
    have ha := hs.alive hse
    cases ht : s.task with
    | ended => simp [ht, Task.isEnded] at ha
    | getting | sleeping waiters total | encoding waiters =>
      simp [run, step, hse, ht]

end Machine

private def cfg : Config := ⟨5, 4⟩

/-- Two requests share a batch, a third comes while it is encoded, and one client leaves; the
shutdown meets the task at its encode. -/
private def stopsEncoding : List (Event String ℕ) :=
  [.submit 0 ["a"], .get, .submit 1 ["b", "c"], .wake, .clientCancels 0, .submit 2 ["d"],
    .shutdown, .taskCancelled, .close]

theorem encoding_batch_is_answered :
    Guarded (step cfg) CancelledAwake State.init stopsEncoding ∧
    ∃ s, run (step cfg) State.init stopsEncoding = some s ∧ s.futures.keys.length = 3 ∧
      ∀ id future, s.futures.lookup id = some future → future.done = true := by
  have hok : Guarded (step cfg) CancelledAwake State.init stopsEncoding := by decide +kernel
  obtain ⟨s, hrun, ht⟩ := exists_run_of_any
    (p := fun s : State String ℕ => s.futures.keys.length == 3 && decide (s.lifespan = .closed))
    (show (run (step cfg) State.init stopsEncoding).any _ = true by decide +kernel)
  simp only [Bool.and_eq_true, beq_iff_eq, decide_eq_true_eq] at ht
  exact ⟨hok, s, hrun, ht.1,
    (awake_cancellation_answers_every_waiter cfg stopsEncoding s hok hrun).1 ht.2⟩

private def stopsAsleep : List (Event String ℕ) :=
  [.submit 0 ["a"], .get, .shutdown, .taskCancelled, .close]

theorem sleeping_batch_is_abandoned :
    ∃ s, run (step cfg) State.init stopsAsleep = some s ∧ s.lifespan = .closed ∧
      ∃ future, s.futures.lookup 0 = some future ∧ future.done = false := by
  obtain ⟨s, hrun, ht⟩ := exists_run_of_any
    (p := fun s : State String ℕ =>
      decide (s.lifespan = .closed) && (s.futures.lookup 0).any (!·.done))
    (show (run (step cfg) State.init stopsAsleep).any _ = true by decide +kernel)
  simp only [Bool.and_eq_true, decide_eq_true_eq, Option.any_eq_true, Bool.not_eq_true'] at ht
  exact ⟨s, hrun, ht.1, ht.2⟩

end Aizzak.EmbeddingBatcher
