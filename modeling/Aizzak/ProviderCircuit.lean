import Aizzak.EventRuns
import Aizzak.KeyedTables

/-!
The guard in front of a language-model provider: a concurrency ceiling, a circuit with a single
probe, and a retry. Nothing is awaited between a verdict that ends a call and the release of its
permit, so the two are one step. A verdict always clears the probe flag, whichever call it comes
from; while only the probe itself speaks, the flag mirrors the probe in flight and the circuit
admits no second one.
-/
namespace Aizzak.ProviderCircuit

open EventRuns KeyedTables

/-- Times are counted in milliseconds. -/
structure ProviderGuardSettings where
  maxConcurrency : ℤ := 5
  ollamaMaxConcurrency : ℤ := 2
  saturationRetryAfterS : ℤ := 5
  circuitFailureThreshold : ℤ := 5
  circuitOpenMs : ℤ := 30000
  maxRetries : ℤ := 2

def ProviderGuardSettings.concurrencyFor (settings : ProviderGuardSettings) (provider : String) :
    ℤ :=
  if provider = "ollama" then settings.ollamaMaxConcurrency else settings.maxConcurrency

structure ProviderFailure where
  detail : String
  transient : Bool
  retryable : Bool
  retryAfterMs : Option ℕ
  transient_of_retryable : retryable = true → transient = true

def offContract (provider detail : String) (transient retryable : Bool)
    (retryAfterMs : Option ℕ) : ProviderFailure where
  detail := provider ++ " " ++ detail
  transient := transient || retryable
  retryable := retryable
  retryAfterMs := retryAfterMs
  transient_of_retryable := by
    intro hretryable
    simp [hretryable]

inductive Refusal where
  | circuitOpen (failure : ProviderFailure)
  | rateLimited (detail : String) (retryAfterS : ℤ)

structure Config where
  provider : String
  settings : ProviderGuardSettings
  ceiling : Option ℤ

def Config.maxConcurrency (cfg : Config) : ℤ :=
  cfg.ceiling.getD (cfg.settings.concurrencyFor cfg.provider)

structure ProviderGuard where
  inFlight : ℤ
  failures : ℤ
  openedAt : Option ℕ
  probeOut : Bool
deriving DecidableEq

namespace ProviderGuard

def init : ProviderGuard := ⟨0, 0, none, false⟩

def isOpen (guard : ProviderGuard) : Bool := guard.openedAt.isSome

def circuit (cfg : Config) (now : ℕ) (guard : ProviderGuard) : Except Refusal Bool :=
  match guard.openedAt with
  | none => .ok false
  | some opened =>
    if (now : ℤ) < opened + cfg.settings.circuitOpenMs ∨ guard.probeOut = true then
      .error (.circuitOpen
        (offContract cfg.provider "is failing; not called (circuit open)" true false none))
    else .ok true

def admitCall (cfg : Config) (now : ℕ) (guard : ProviderGuard) :
    Except Refusal (Bool × ProviderGuard) := do
  let probe ← guard.circuit cfg now
  if cfg.maxConcurrency ≠ 0 ∧ cfg.maxConcurrency ≤ guard.inFlight then
    .error (.rateLimited (cfg.provider ++ " is at its concurrency ceiling")
      cfg.settings.saturationRetryAfterS)
  else .ok (probe, { guard with probeOut := probe, inFlight := guard.inFlight + 1 })

def release (guard : ProviderGuard) (probe : Bool) : ProviderGuard :=
  { guard with inFlight := guard.inFlight - 1, probeOut := !probe && guard.probeOut }

def record (cfg : Config) (now : ℕ) (guard : ProviderGuard) (failure : Option ProviderFailure) :
    ProviderGuard :=
  if failure.all (!·.transient) then
    { guard with failures := 0, openedAt := none, probeOut := false }
  else
    let failures := guard.failures + 1
    if guard.probeOut = true ∨ cfg.settings.circuitFailureThreshold ≤ failures then
      { guard with failures := failures, openedAt := some now, probeOut := false }
    else { guard with failures := failures }

def backoffBaseMs : ℕ := 500

def backoffCapMs : ℕ := 8000

/-- The wait before the next attempt; `jitter` is the random draw in thousandths. -/
def retryDelay (cfg : Config) (guard : ProviderGuard) (failure : ProviderFailure)
    (attempt jitter : ℕ) : Option ℕ :=
  if failure.retryable = true ∧ (attempt : ℤ) < cfg.settings.maxRetries ∧
      guard.openedAt = none then
    match failure.retryAfterMs with
    | some wait => if wait ≤ backoffCapMs then some wait else none
    | none => some (jitter * min backoffCapMs (backoffBaseMs * 2 ^ attempt) / 1000)
  else none

end ProviderGuard

structure Call where
  probe : Bool
  streaming : Bool
  attempt : ℕ
  started : Bool
  wakeAt : Option ℕ

structure State where
  now : ℕ
  guard : ProviderGuard
  calls : AList (fun _ : ℕ => Call)

def init (now : ℕ) : State := ⟨now, .init, ∅⟩

/-- The call if it is waiting for its provider, not for a retry. -/
def State.answering (s : State) (id : ℕ) : Option Call :=
  (s.calls.lookup id).filter (·.wakeAt.isNone)

def State.withCall (s : State) (id : ℕ) (call : Call) : State :=
  { s with calls := s.calls.insert id call }

def State.leave (s : State) (id : ℕ) (call : Call) (guard : ProviderGuard) : State :=
  { s with guard := guard.release call.probe, calls := s.calls.erase id }

inductive Event where
  | tick (elapsed : ℕ)
  | start (id : ℕ) (streaming : Bool)
  | chunk (id : ℕ)
  | succeed (id : ℕ)
  | fail (id : ℕ) (failure : ProviderFailure) (jitter : ℕ)
  | wake (id : ℕ)
  | abandon (id : ℕ)

def fail (cfg : Config) (s : State) (id : ℕ) (call : Call) (failure : ProviderFailure)
    (jitter : ℕ) : State :=
  let guard := s.guard.record cfg s.now (some failure)
  let delay := if call.started then none else guard.retryDelay cfg failure call.attempt jitter
  match delay with
  | none => s.leave id call guard
  | some wait => { s with guard := guard }.withCall id { call with wakeAt := some (s.now + wait) }

/-- One step of one call. A refused call leaves everything as it was; an abandoned one
(cancelled, closed by its reader, or stopped by an error that is no provider failure)
records no verdict. -/
def step (cfg : Config) (s : State) : Event → Option State
  | .tick elapsed => some { s with now := s.now + elapsed }
  | .start id streaming =>
    if id ∈ s.calls then none
    else match s.guard.admitCall cfg s.now with
      | .error _ => some s
      | .ok (probe, guard) =>
        some ({ s with guard := guard }.withCall id ⟨probe, streaming, 0, false, none⟩)
  | .chunk id =>
    ((s.answering id).filter (·.streaming)).map fun call =>
      s.withCall id { call with started := true }
  | .succeed id =>
    (s.answering id).map fun call => s.leave id call (s.guard.record cfg s.now none)
  | .fail id failure jitter =>
    (s.answering id).map fun call => fail cfg s id call failure jitter
  | .wake id =>
    ((s.calls.lookup id).filter (·.wakeAt.any (· ≤ s.now))).map fun call =>
      s.withCall id ⟨call.probe, call.streaming, call.attempt + 1, false, none⟩
  | .abandon id => (s.calls.lookup id).map fun call => s.leave id call s.guard

def OneProbe (s : State) : Prop :=
  ∀ i j c d, s.calls.lookup i = some c → s.calls.lookup j = some d →
    c.probe = true → d.probe = true → i = j

def NoOtherProbe (s : State) (id : ℕ) : Prop :=
  ∀ i ∈ s.calls.keys, i ≠ id → (s.calls.lookup i).all (!·.probe) = true

instance (s : State) (id : ℕ) : Decidable (NoOtherProbe s id) :=
  List.decidableBAll _ s.calls.keys

/-- A verdict comes from the probe itself or while no probe is in flight. -/
def Undisturbed (s : State) : Event → Prop
  | .succeed id => NoOtherProbe s id
  | .fail id _ _ => NoOtherProbe s id
  | _ => True

instance (s : State) : ∀ e, Decidable (Undisturbed s e)
  | .succeed id => inferInstanceAs (Decidable (NoOtherProbe s id))
  | .fail id _ _ => inferInstanceAs (Decidable (NoOtherProbe s id))
  | .tick _ | .start _ _ | .chunk _ | .wake _ | .abandon _ => .isTrue trivial

namespace ProviderGuard

variable {cfg : Config} {now : ℕ} {guard : ProviderGuard}

theorem circuit_eq_ok {probe : Bool} (h : guard.circuit cfg now = .ok probe) :
    (probe = false ∧ guard.openedAt = none) ∨
      (probe = true ∧ guard.isOpen = true ∧ guard.probeOut = false) := by
  unfold circuit at h
  cases ho : guard.openedAt with
  | none =>
    simp only [ho, Except.ok.injEq] at h
    exact .inl ⟨h.symm, rfl⟩
  | some opened =>
    simp only [ho] at h
    split_ifs at h with hr
    simp only [not_or, Bool.not_eq_true] at hr
    simp only [Except.ok.injEq] at h
    exact .inr ⟨h.symm, by simp [isOpen, ho], hr.2⟩

/-- Everything an admission can do. -/
theorem admitCall_eq_ok {guard' : ProviderGuard} {probe : Bool}
    (h : guard.admitCall cfg now = .ok (probe, guard')) :
    ((probe = false ∧ guard.openedAt = none) ∨
      (probe = true ∧ guard.isOpen = true ∧ guard.probeOut = false)) ∧
    (cfg.maxConcurrency = 0 ∨ guard.inFlight < cfg.maxConcurrency) ∧
    guard' = { guard with probeOut := probe, inFlight := guard.inFlight + 1 } := by
  unfold admitCall at h
  cases hc : guard.circuit cfg now with
  | error refusal => simp [hc, bind, Except.bind] at h
  | ok through =>
    simp only [hc, bind, Except.bind] at h
    split_ifs at h with hf
    simp only [Except.ok.injEq, Prod.mk.injEq] at h
    obtain ⟨rfl, rfl⟩ := h
    refine ⟨circuit_eq_ok hc, ?_, rfl⟩
    omega

theorem record_inFlight (cfg : Config) (now : ℕ) (guard : ProviderGuard)
    (failure : Option ProviderFailure) :
    (guard.record cfg now failure).inFlight = guard.inFlight := by
  unfold record
  simp only
  split_ifs <;> rfl

/-- A failure seen while the probe is out is not retried: a transient one has opened the
circuit again, and no other is retryable. -/
theorem retryDelay_record_of_probeOut {failure : ProviderFailure} (hp : guard.probeOut = true)
    (attempt jitter : ℕ) :
    (guard.record cfg now (some failure)).retryDelay cfg failure attempt jitter = none := by
  unfold retryDelay
  rw [if_neg]
  intro hre
  obtain ⟨hr, -, hc⟩ := hre
  have ht := failure.transient_of_retryable hr
  simp [record, ht, hp] at hc

end ProviderGuard

/-- The flag mirrors the probe in flight: there is at most one, and while it is out the
flag is up and the circuit open. -/
structure ProbeFlagged (s : State) : Prop where
  one : OneProbe s
  flag : ∀ i c, s.calls.lookup i = some c → c.probe = true →
    s.guard.probeOut = true ∧ s.guard.isOpen = true

theorem probeFlagged_init (now : ℕ) : ProbeFlagged (init now) := by
  constructor
  · intro i j c d hi
    simp [init] at hi
  · intro i c hi
    simp [init] at hi

variable {s : State}

/-- A state without a probe in flight is flagged whatever its guard. -/
theorem probeFlagged_of_none (h : ∀ i c, s.calls.lookup i = some c → c.probe = false) :
    ProbeFlagged s := by
  constructor
  · intro i j c d hi _ hc
    simp [h i c hi] at hc
  · intro i c hi hc
    simp [h i c hi] at hc

variable {id : ℕ}

theorem NoOtherProbe.probe_eq_false {i : ℕ} {c : Call} (h : NoOtherProbe s id)
    (hi : s.calls.lookup i = some c) (hne : i ≠ id) :
    c.probe = false := by
  have hmem : i ∈ s.calls.keys := AList.mem_keys.mp (mem_of_lookup hi)
  simpa [hi] using h i hmem hne

theorem ProbeFlagged.withCall {old new : Call} (hs : ProbeFlagged s)
    (hold : s.calls.lookup id = some old) (hp : new.probe = old.probe) :
    ProbeFlagged (s.withCall id new) := by
  have hba : ∀ i c, (s.withCall id new).calls.lookup i = some c →
      ∃ b, s.calls.lookup i = some b ∧ b.probe = c.probe := by
    intro i c hi
    rcases lookup_insert_iff.mp hi with ⟨rfl, rfl⟩ | ⟨hne, hi⟩
    · exact ⟨old, hold, hp.symm⟩
    · exact ⟨c, hi, rfl⟩
  constructor
  · intro i j c d hi hj hc hd
    obtain ⟨a, ha, hac⟩ := hba i c hi
    obtain ⟨b, hb, hbd⟩ := hba j d hj
    exact hs.one i j a b ha hb (hac.trans hc) (hbd.trans hd)
  · intro i c hi hc
    obtain ⟨a, ha, hac⟩ := hba i c hi
    exact hs.flag i a ha (hac.trans hc)

theorem NoOtherProbe.leave (h : NoOtherProbe s id) (call : Call) (guard : ProviderGuard) :
    ProbeFlagged (s.leave id call guard) := by
  apply probeFlagged_of_none
  intro i c hi
  obtain ⟨hne, hi⟩ := lookup_erase_iff.mp hi
  exact h.probe_eq_false hi hne

variable {call : Call}

theorem ProbeFlagged.abandon (hs : ProbeFlagged s) (hca : s.calls.lookup id = some call) :
    ProbeFlagged (s.leave id call s.guard) := by
  cases hp : call.probe with
  | true =>
    apply probeFlagged_of_none
    intro i c hi
    obtain ⟨hne, hi⟩ := lookup_erase_iff.mp hi
    by_contra hc
    exact hne (hs.one i id c call hi hca (by simpa using hc) hp)
  | false =>
    constructor
    · intro i j c d hi hj hc hd
      obtain ⟨-, hi⟩ := lookup_erase_iff.mp hi
      obtain ⟨-, hj⟩ := lookup_erase_iff.mp hj
      exact hs.one i j c d hi hj hc hd
    · intro i c hi hc
      obtain ⟨-, hi⟩ := lookup_erase_iff.mp hi
      simpa [State.leave, ProviderGuard.release, ProviderGuard.isOpen, hp]
        using hs.flag i c hi hc

theorem ProbeFlagged.fail {cfg : Config} (hs : ProbeFlagged s)
    (hca : s.calls.lookup id = some call) (ho : NoOtherProbe s id)
    (failure : ProviderFailure) (jitter : ℕ) :
    ProbeFlagged (fail cfg s id call failure jitter) := by
  unfold ProviderCircuit.fail
  simp only
  split
  next => exact ho.leave call _
  next wait hd =>
    have hc : call.probe = false := by
      by_contra hp
      have hf := (hs.flag id call hca (by simpa using hp)).1
      simp [ProviderGuard.retryDelay_record_of_probeOut hf] at hd
    apply probeFlagged_of_none
    intro i c hi
    rcases lookup_insert_iff.mp hi with ⟨rfl, rfl⟩ | ⟨hne, hi⟩
    · exact hc
    · exact ho.probe_eq_false hi hne

theorem ProbeFlagged.admitted {cfg : Config} {probe : Bool} {guard : ProviderGuard}
    (hs : ProbeFlagged s) (ha : s.guard.admitCall cfg s.now = .ok (probe, guard))
    (streaming : Bool) :
    ProbeFlagged ({ s with guard := guard }.withCall id ⟨probe, streaming, 0, false, none⟩) := by
  obtain ⟨hci, -, rfl⟩ := ProviderGuard.admitCall_eq_ok ha
  have hn : ∀ i c, s.calls.lookup i = some c → c.probe = false := by
    intro i c hi
    by_contra hc
    have hf := hs.flag i c hi (by simpa using hc)
    rcases hci with ⟨-, hcl⟩ | ⟨-, -, hprobeOut⟩
    · simp [ProviderGuard.isOpen, hcl] at hf
    · simp [hprobeOut] at hf
  rcases hci with ⟨rfl, hcl⟩ | ⟨rfl, hop, -⟩
  · apply probeFlagged_of_none
    exact forall_insert rfl hn
  · have ho : ∀ i c, (s.calls.insert id ⟨true, streaming, 0, false, none⟩).lookup i = some c →
        c.probe = true → i = id := by
      intro i c hi hc
      rcases lookup_insert_iff.mp hi with ⟨hid, -⟩ | ⟨-, hi⟩
      · exact hid
      · simp [hn i c hi] at hc
    constructor
    · intro i j c d hi hj hc hd
      exact (ho i c hi hc).trans (ho j d hj hd).symm
    · intro i c _ _
      exact ⟨rfl, hop⟩

theorem answering_lookup (h : s.answering id = some call) :
    s.calls.lookup id = some call :=
  Option.filter_eq_some_iff.mp h |>.1

theorem step_probeFlagged (cfg : Config) (s : State) (e : Event) (t : State)
    (hs : ProbeFlagged s) (hok : Undisturbed s e) (ht : step cfg s e = some t) :
    ProbeFlagged t := by
  cases e with
  | tick elapsed =>
    simp only [step, Option.some.injEq] at ht
    subst ht
    exact ⟨hs.one, hs.flag⟩
  | start id streaming =>
    simp only [step] at ht
    split_ifs at ht
    split at ht
    next => exact Option.some.inj ht ▸ hs
    next probe guard ha => exact Option.some.inj ht ▸ hs.admitted ha streaming
  | chunk id =>
    simp only [step, Option.map_eq_some_iff, Option.filter_eq_some_iff] at ht
    obtain ⟨call, ⟨hc, -⟩, rfl⟩ := ht
    exact hs.withCall (answering_lookup hc) rfl
  | succeed id =>
    simp only [step, Option.map_eq_some_iff] at ht
    obtain ⟨call, -, rfl⟩ := ht
    exact NoOtherProbe.leave hok call _
  | fail id failure jitter =>
    simp only [step, Option.map_eq_some_iff] at ht
    obtain ⟨call, hc, rfl⟩ := ht
    exact hs.fail (answering_lookup hc) hok failure jitter
  | wake id =>
    simp only [step, Option.map_eq_some_iff, Option.filter_eq_some_iff] at ht
    obtain ⟨call, ⟨hc, -⟩, rfl⟩ := ht
    exact hs.withCall hc rfl
  | abandon id =>
    simp only [step, Option.map_eq_some_iff] at ht
    obtain ⟨call, hc, rfl⟩ := ht
    exact hs.abandon hc

/-- While verdicts come only from the probe itself or with no probe in flight, an open
circuit has at most one probe in flight, in every state any interleaving reaches. -/
theorem undisturbed_run_one_probe (cfg : Config) (now : ℕ) (events : List Event) (s : State)
    (hok : Guarded (step cfg) Undisturbed (init now) events)
    (hrun : run (step cfg) (init now) events = some s) :
    s.guard.isOpen = true → OneProbe s := by
  intro _
  exact (run_invariant (step_probeFlagged cfg) hok hrun (probeFlagged_init now)).one

private def readTimeout : ProviderFailure := offContract "openai" "call timed out" true false none

private def openai : Config := ⟨"openai", {}, none⟩

private def failedCall (id : ℕ) : List Event := [.start id false, .fail id readTimeout 0]

private def probedRun : List Event :=
  failedCall 1 ++ failedCall 2 ++ failedCall 3 ++ failedCall 4 ++ failedCall 5 ++
    [.tick 30000, .start 6 false, .start 7 false, .fail 6 readTimeout 0, .tick 30000,
      .start 8 true]

theorem probed_run_one_probe :
    Guarded (step openai) Undisturbed (init 0) probedRun ∧
    ∃ s, run (step openai) (init 0) probedRun = some s ∧ s.guard.isOpen = true ∧
      s.calls.keys = [8] ∧ OneProbe s := by
  have hok : Guarded (step openai) Undisturbed (init 0) probedRun := by decide +kernel
  obtain ⟨s, hrun, hl⟩ := exists_run_of_any
    (p := fun s => s.guard.isOpen && s.calls.keys == [8])
    (show (run (step openai) (init 0) probedRun).any _ = true by decide +kernel)
  simp only [Bool.and_eq_true, beq_iff_eq] at hl
  exact ⟨hok, s, hrun, hl.1, hl.2,
    undisturbed_run_one_probe openai 0 probedRun s hok hrun hl.1⟩

private def staleRun : List Event :=
  .start 0 true :: failedCall 1 ++ failedCall 2 ++ failedCall 3 ++ failedCall 4 ++ failedCall 5 ++
    [.tick 30000, .start 6 false, .fail 0 readTimeout 0, .tick 30000, .start 7 false]

/-- The stale verdict clears the flag of a probe that is still out, and the circuit lets a
second probe through. -/
theorem stale_verdict_admits_second_probe :
    ∃ s, run (step openai) (init 0) staleRun = some s ∧ s.guard.isOpen = true ∧ ¬ OneProbe s := by
  obtain ⟨s, hrun, hl⟩ := exists_run_of_any
    (p := fun s => s.guard.isOpen && (s.calls.lookup 6).any (·.probe) &&
      (s.calls.lookup 7).any (·.probe))
    (show (run (step openai) (init 0) staleRun).any _ = true by decide +kernel)
  simp only [Bool.and_eq_true, Option.any_eq_true] at hl
  obtain ⟨⟨ho, c, hc, hcp⟩, d, hd, hdp⟩ := hl
  refine ⟨s, hrun, ho, ?_⟩
  intro hone
  have hs := hone 6 7 c d hc hd hcp hdp
  omega

end Aizzak.ProviderCircuit
