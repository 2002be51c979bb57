import Aizzak.ProviderCircuit

/-!
The permits of a provider's guard, through the two wrappers that take and return them. A call is
a coroutine or a generator: it may never be started, wait for the provider, stand at a chunk it
has handed out, close the provider's stream, sleep before another attempt, and be cancelled at
each of these. The permit is taken when the body is entered and returned when it is left.
-/
namespace Aizzak.ProviderPermits

open EventRuns KeyedTables
open ProviderCircuit (Config ProviderFailure ProviderGuard Refusal)

inductive Wrapper where
  | complete
  | stream
deriving DecidableEq

/-- How an attempt ends: with the provider's answer at its end, with its failure, or with an
exception that is none (a cancellation, a generator's exit, an error). -/
inductive Exit where
  | exhausted
  | failed (failure : ProviderFailure)
  | unwound

inductive Control where
  | fresh
  | awaiting
  | suspended
  | closing (exit : Exit)
  | sleeping (wakeAt : ℕ)
  | ended

structure Call where
  wrapper : Wrapper
  probe : Bool
  attempt : ℕ
  started : Bool
  control : Control

structure State where
  now : ℕ
  guard : ProviderGuard
  calls : AList fun _ : ℕ => Call
  admitted : List ℕ
  released : List ℕ

def State.init (now : ℕ) : State := ⟨now, .init, ∅, [], []⟩

inductive Event where
  | tick (elapsed : ℕ)
  | create (id : ℕ) (wrapper : Wrapper)
  | discard (id : ℕ)
  | enter (id : ℕ)
  | answer (id : ℕ)
  | chunk (id : ℕ)
  | next (id : ℕ)
  | exhausted (id : ℕ)
  | raised (id : ℕ) (failure : Option ProviderFailure) (jitter : ℕ)
  | closed (id : ℕ) (raised : Option (Option ProviderFailure)) (jitter : ℕ)
  | wake (id : ℕ) (again : Bool)
  | cancelled (id : ℕ)

def Exit.ofRaised : Option ProviderFailure → Exit
  | some failure => .failed failure
  | none => .unwound

def State.move (s : State) (id : ℕ) (call : Call) (control : Control) : State :=
  { s with calls := s.calls.insert id { call with control := control } }

def State.leave (s : State) (id : ℕ) (call : Call) (guard : ProviderGuard) : State :=
  { s with
    guard := guard.release call.probe
    calls := s.calls.insert id { call with control := .ended }
    released := id :: s.released }

def conclude (cfg : Config) (s : State) (id : ℕ) (call : Call) (jitter : ℕ) : Exit → State
  | .exhausted => s.leave id call (s.guard.record cfg s.now none)
  | .unwound => s.leave id call s.guard
  | .failed failure =>
    let guard := s.guard.record cfg s.now (some failure)
    let delay := if call.started then none else guard.retryDelay cfg failure call.attempt jitter
    match delay with
    | none => s.leave id call guard
    | some delay => { s with guard := guard }.move id call (.sleeping (s.now + delay))

/-- `complete` concludes an attempt at once; a stream closes the provider's stream first. -/
def finish (cfg : Config) (s : State) (id : ℕ) (call : Call) (jitter : ℕ) (exit : Exit) : State :=
  match call.wrapper with
  | .complete => conclude cfg s id call jitter exit
  | .stream => s.move id call (.closing exit)

def step (cfg : Config) (s : State) : Event → Option State
  | .tick elapsed => some { s with now := s.now + elapsed }
  | .create id wrapper =>
    if id ∈ s.calls then none
    else some { s with calls := s.calls.insert id ⟨wrapper, false, 0, false, .fresh⟩ }
  | .discard id =>
    (s.calls.lookup id).bind fun call =>
      match call.control with
      | .fresh => some (s.move id call .ended)
      | _ => none
  | .enter id =>
    (s.calls.lookup id).bind fun call =>
      match call.control with
      | .fresh =>
        match s.guard.admitCall cfg s.now with
        | .error _ => some (s.move id call .ended)
        | .ok (probe, guard) =>
          some { s with
            guard := guard
            calls := s.calls.insert id ⟨call.wrapper, probe, 0, false, .awaiting⟩
            admitted := id :: s.admitted }
      | _ => none
  | .answer id =>
    (s.calls.lookup id).bind fun call =>
      match call.wrapper, call.control with
      | .complete, .awaiting => some (conclude cfg s id call 0 .exhausted)
      | _, _ => none
  | .chunk id =>
    (s.calls.lookup id).bind fun call =>
      match call.wrapper, call.control with
      | .stream, .awaiting => some (s.move id { call with started := true } .suspended)
      | _, _ => none
  | .next id =>
    (s.calls.lookup id).bind fun call =>
      match call.control with
      | .suspended => some (s.move id call .awaiting)
      | _ => none
  | .exhausted id =>
    (s.calls.lookup id).bind fun call =>
      match call.wrapper, call.control with
      | .stream, .awaiting => some (s.move id call (.closing .exhausted))
      | _, _ => none
  | .raised id failure jitter =>
    (s.calls.lookup id).bind fun call =>
      match call.control with
      | .awaiting | .suspended => some (finish cfg s id call jitter (.ofRaised failure))
      | _ => none
  | .closed id raised jitter =>
    (s.calls.lookup id).bind fun call =>
      match call.control with
      | .closing exit => some (conclude cfg s id call jitter ((raised.map Exit.ofRaised).getD exit))
      | _ => none
  | .wake id again =>
    (s.calls.lookup id).bind fun call =>
      match call.control with
      | .sleeping wakeAt =>
        if s.now < wakeAt then none
        else if call.wrapper = .stream ∧ again = false then some (s.leave id call s.guard)
        else some (s.move id { call with attempt := call.attempt + 1, started := false } .awaiting)
      | _ => none
  | .cancelled id =>
    (s.calls.lookup id).bind fun call =>
      match call.control with
      | .sleeping _ => some (s.leave id call s.guard)
      | _ => none

def Control.Live : Control → Prop
  | .fresh | .ended => False
  | _ => True

inductive Moved (cfg : Config) (s : State) : Event → State → Prop
  | ticked (elapsed : ℕ) : Moved cfg s (.tick elapsed) { s with now := s.now + elapsed }
  | created (id : ℕ) (wrapper : Wrapper) (hid : id ∉ s.calls) :
      Moved cfg s (.create id wrapper)
        { s with calls := s.calls.insert id ⟨wrapper, false, 0, false, .fresh⟩ }
  | dropped {e : Event} (id : ℕ) (call : Call) (hcall : s.calls.lookup id = some call)
      (hfresh : call.control = .fresh) : Moved cfg s e (s.move id call .ended)
  | entered (id : ℕ) (call : Call) (probe : Bool) (guard : ProviderGuard)
      (hcall : s.calls.lookup id = some call) (hfresh : call.control = .fresh)
      (hguard : s.guard.admitCall cfg s.now = .ok (probe, guard)) :
      Moved cfg s (.enter id)
        { s with
          guard := guard
          calls := s.calls.insert id ⟨call.wrapper, probe, 0, false, .awaiting⟩
          admitted := id :: s.admitted }
  | moved {e : Event} (id : ℕ) (call new : Call) (guard : ProviderGuard)
      (hcall : s.calls.lookup id = some call) (hlive : call.control.Live)
      (hnew : new.control.Live) (hguard : guard.inFlight = s.guard.inFlight) :
      Moved cfg s e { s with guard := guard, calls := s.calls.insert id new }
  | left {e : Event} (id : ℕ) (call : Call) (guard : ProviderGuard)
      (hcall : s.calls.lookup id = some call) (hlive : call.control.Live)
      (hguard : guard.inFlight = s.guard.inFlight) : Moved cfg s e (s.leave id call guard)

variable {cfg : Config} {s t : State} {e : Event}

theorem conclude_moved {id : ℕ} {call : Call} (hcall : s.calls.lookup id = some call)
    (hl : call.control.Live) (jitter : ℕ) (exit : Exit) :
    Moved cfg s e (conclude cfg s id call jitter exit) := by
  cases exit with
  | exhausted => exact .left id call _ hcall hl (ProviderGuard.record_inFlight _ _ _ _)
  | unwound => exact .left id call _ hcall hl rfl
  | failed failure =>
    simp only [conclude]
    have hg := ProviderGuard.record_inFlight cfg s.now s.guard (some failure)
    split
    · exact .left id call _ hcall hl hg
    · exact .moved id call _ _ hcall hl trivial hg

theorem step_moved (h : step cfg s e = some t) : Moved cfg s e t := by
  cases e with
  | tick elapsed => exact Option.some.inj h ▸ .ticked elapsed
  | create id wrapper =>
    simp only [step] at h
    split_ifs at h with hid
    exact Option.some.inj h ▸ .created id wrapper hid
  | discard id =>
    obtain ⟨call, hcall, h⟩ := Option.bind_eq_some_iff.mp h
    split at h
    · rename_i hfr
      exact Option.some.inj h ▸ .dropped id call hcall hfr
    · cases h
  | enter id =>
    obtain ⟨call, hcall, h⟩ := Option.bind_eq_some_iff.mp h
    split at h
    · rename_i hfr
      split at h
      · exact Option.some.inj h ▸ .dropped id call hcall hfr
      · rename_i probe guard hg
        exact Option.some.inj h ▸ .entered id call probe guard hcall hfr hg
    · cases h
  | answer id =>
    obtain ⟨call, hcall, h⟩ := Option.bind_eq_some_iff.mp h
    split at h
    · rename_i hc
      exact Option.some.inj h ▸ conclude_moved hcall (hc ▸ trivial) _ _
    · cases h
  | chunk id =>
    obtain ⟨call, hcall, h⟩ := Option.bind_eq_some_iff.mp h
    split at h
    · rename_i hc
      exact Option.some.inj h ▸ .moved id call _ _ hcall (hc ▸ trivial) trivial rfl
    · cases h
  | next id =>
    obtain ⟨call, hcall, h⟩ := Option.bind_eq_some_iff.mp h
    split at h
    · rename_i hc
      exact Option.some.inj h ▸ .moved id call _ _ hcall (hc ▸ trivial) trivial rfl
    · cases h
  | exhausted id =>
    obtain ⟨call, hcall, h⟩ := Option.bind_eq_some_iff.mp h
    split at h
    · rename_i hc
      exact Option.some.inj h ▸ .moved id call _ _ hcall (hc ▸ trivial) trivial rfl
    · cases h
  | raised id failure jitter =>
    obtain ⟨call, hcall, h⟩ := Option.bind_eq_some_iff.mp h
    have hf : call.control.Live →
        Moved cfg s (.raised id failure jitter)
          (finish cfg s id call jitter (.ofRaised failure)) := by
      intro hl
      rw [finish]
      split
      · exact conclude_moved hcall hl _ _
      · exact .moved id call _ _ hcall hl trivial rfl
    split at h
    · rename_i hc
      exact Option.some.inj h ▸ hf (hc ▸ trivial)
    · rename_i hc
      exact Option.some.inj h ▸ hf (hc ▸ trivial)
    · cases h
  | closed id raised jitter =>
    obtain ⟨call, hcall, h⟩ := Option.bind_eq_some_iff.mp h
    split at h
    · rename_i hc
      exact Option.some.inj h ▸ conclude_moved hcall (hc ▸ trivial) _ _
    · cases h
  | wake id again =>
    obtain ⟨call, hcall, h⟩ := Option.bind_eq_some_iff.mp h
    split at h
    · rename_i hc
      split_ifs at h
      · exact Option.some.inj h ▸ .left id call _ hcall (hc ▸ trivial) rfl
      · exact Option.some.inj h ▸ .moved id call _ _ hcall (hc ▸ trivial) trivial rfl
    · cases h
  | cancelled id =>
    obtain ⟨call, hcall, h⟩ := Option.bind_eq_some_iff.mp h
    split at h
    · rename_i hc
      exact Option.some.inj h ▸ .left id call _ hcall (hc ▸ trivial) rfl
    · cases h

def State.outstanding (s : State) : List ℕ := s.admitted.filter (· ∉ s.released)

/-- Permits are where the bodies are: taken by the ones entered, returned by the ones left. -/
structure Conserved (cfg : Config) (s : State) : Prop where
  admittedOnce : s.admitted.Nodup
  releasedOnce : s.released.Nodup
  known : ∀ id ∈ s.admitted, id ∈ s.calls
  returned : ∀ id ∈ s.released, id ∈ s.admitted
  fresh : ∀ id call, s.calls.lookup id = some call → call.control = .fresh → id ∉ s.admitted
  live : ∀ id call, s.calls.lookup id = some call → call.control.Live →
    id ∈ s.admitted ∧ id ∉ s.released
  ended : ∀ id call, s.calls.lookup id = some call → call.control = .ended →
    id ∈ s.admitted → id ∈ s.released
  count : s.guard.inFlight + s.released.length = s.admitted.length
  ceiling : 0 < cfg.maxConcurrency → s.guard.inFlight ≤ cfg.maxConcurrency

namespace Conserved

theorem init (cfg : Config) (now : ℕ) : Conserved cfg (State.init now) := by
  refine ⟨List.nodup_nil, List.nodup_nil, ?_, ?_, ?_, ?_, ?_, rfl, Int.le_of_lt⟩
  all_goals simp [State.init]

/-- The permits out are the calls outstanding. -/
theorem inFlight_eq (h : Conserved cfg s) : s.guard.inFlight = s.outstanding.length := by
  have hp : (s.admitted.filter (· ∈ s.released)).Perm s.released := by
    refine (List.perm_ext_iff_of_nodup (h.admittedOnce.filter _) h.releasedOnce).mpr fun id => ?_
    simp only [List.mem_filter, decide_eq_true_eq, and_iff_right_iff_imp]
    exact h.returned id
  have hs := List.length_eq_length_filter_add (l := s.admitted) (· ∈ s.released)
  have hl := hp.length_eq
  have hc := h.count
  simp only [← decide_not] at hs
  rw [State.outstanding]
  omega

variable {id : ℕ}

theorem created (h : Conserved cfg s) (hid : id ∉ s.calls) (wrapper : Wrapper) :
    Conserved cfg { s with calls := s.calls.insert id ⟨wrapper, false, 0, false, .fresh⟩ } := by
  have hnew : id ∉ s.admitted := fun hmem => hid (h.known id hmem)
  refine ⟨h.admittedOnce, h.releasedOnce, fun i hi => ?_, h.returned, ?_, ?_, ?_, h.count,
    h.ceiling⟩
  · exact (AList.mem_insert _).mpr (.inr (h.known i hi))
  · exact forall_insert (fun _ => hnew) h.fresh
  · exact forall_insert (fun hl => hl.elim) h.live
  · exact forall_insert (fun he => by cases he) h.ended

variable {call : Call}

theorem dropped (h : Conserved cfg s) (hcall : s.calls.lookup id = some call)
    (hf : call.control = .fresh) : Conserved cfg (s.move id call .ended) := by
  refine ⟨h.admittedOnce, h.releasedOnce, fun i hi => ?_, h.returned, ?_, ?_, ?_, h.count,
    h.ceiling⟩
  · exact (AList.mem_insert _).mpr (.inr (h.known i hi))
  · exact forall_insert (fun he => by cases he) h.fresh
  · exact forall_insert (fun hl => hl.elim) h.live
  · exact forall_insert (fun _ hmem => absurd hmem (h.fresh id call hcall hf)) h.ended

variable {guard : ProviderGuard}

section

variable (h : Conserved cfg s) (hcall : s.calls.lookup id = some call)
include h hcall

theorem entered (hf : call.control = .fresh) {probe : Bool}
    (hg : s.guard.admitCall cfg s.now = .ok (probe, guard)) :
    Conserved cfg { s with
      guard := guard
      calls := s.calls.insert id ⟨call.wrapper, probe, 0, false, .awaiting⟩
      admitted := id :: s.admitted } := by
  obtain ⟨-, hr, rfl⟩ := ProviderGuard.admitCall_eq_ok hg
  have hnew : id ∉ s.admitted := h.fresh id call hcall hf
  have hu : id ∉ s.released := fun hmem => hnew (h.returned id hmem)
  have hco := h.count
  refine ⟨List.nodup_cons.mpr ⟨hnew, h.admittedOnce⟩, h.releasedOnce, fun i hi => ?_,
    fun i hi => List.mem_cons_of_mem _ (h.returned i hi), fun i c hi hc hmem => ?_,
    fun i c hi hc => ?_, fun i c hi hc hmem => ?_, ?_, fun hpos => ?_⟩
  · rcases List.mem_cons.mp hi with rfl | hi
    · exact (AList.mem_insert _).mpr (.inl rfl)
    · exact (AList.mem_insert _).mpr (.inr (h.known i hi))
  · rcases lookup_insert_iff.mp hi with ⟨-, rfl⟩ | ⟨hne, hold⟩
    · cases hc
    · exact h.fresh i c hold hc ((List.mem_cons.mp hmem).resolve_left hne)
  · rcases lookup_insert_iff.mp hi with ⟨rfl, -⟩ | ⟨hne, hold⟩
    · exact ⟨List.mem_cons_self, hu⟩
    · exact ⟨List.mem_cons_of_mem _ (h.live i c hold hc).1, (h.live i c hold hc).2⟩
  · rcases lookup_insert_iff.mp hi with ⟨-, rfl⟩ | ⟨hne, hold⟩
    · cases hc
    · exact h.ended i c hold hc ((List.mem_cons.mp hmem).resolve_left hne)
  · simp only [List.length_cons]
    omega
  · simp only
    omega

theorem moved {new : Call} (hl : call.control.Live) (hnew : new.control.Live)
    (hg : guard.inFlight = s.guard.inFlight) :
    Conserved cfg { s with guard := guard, calls := s.calls.insert id new } := by
  refine ⟨h.admittedOnce, h.releasedOnce, fun i hi => ?_, h.returned, ?_, ?_, ?_, ?_, ?_⟩
  · exact (AList.mem_insert _).mpr (.inr (h.known i hi))
  · exact forall_insert (fun hf => (hf ▸ hnew : Control.Live .fresh).elim) h.fresh
  · exact forall_insert (fun _ => h.live id call hcall hl) h.live
  · exact forall_insert (fun he => (he ▸ hnew : Control.Live .ended).elim) h.ended
  · rw [hg]
    exact h.count
  · rw [hg]
    exact h.ceiling

theorem left (hl : call.control.Live) (hg : guard.inFlight = s.guard.inFlight) :
    Conserved cfg (s.leave id call guard) := by
  obtain ⟨ha, hu⟩ := h.live id call hcall hl
  have hco := h.count
  refine ⟨h.admittedOnce, List.nodup_cons.mpr ⟨hu, h.releasedOnce⟩, fun i hi => ?_,
    fun i hi => ?_, ?_, fun i c hi hc => ?_, fun i c hi hc hmem => ?_, ?_, fun hpos => ?_⟩
  · exact (AList.mem_insert _).mpr (.inr (h.known i hi))
  · rcases List.mem_cons.mp hi with rfl | hi
    · exact ha
    · exact h.returned i hi
  · exact forall_insert (fun he => by cases he) h.fresh
  · rcases lookup_insert_iff.mp hi with ⟨-, rfl⟩ | ⟨hne, hold⟩
    · exact hc.elim
    · obtain ⟨hin, hout⟩ := h.live i c hold hc
      exact ⟨hin, fun hmem => hout ((List.mem_cons.mp hmem).resolve_left hne)⟩
  · rcases lookup_insert_iff.mp hi with ⟨rfl, -⟩ | ⟨-, hold⟩
    · exact List.mem_cons_self
    · exact List.mem_cons_of_mem _ (h.ended i c hold hc hmem)
  · simp only [State.leave, ProviderGuard.release, List.length_cons]
    omega
  · have hle := h.ceiling hpos
    simp only [State.leave, ProviderGuard.release]
    omega

end

end Conserved

theorem step_conserved (s : State) (e : Event) (t : State) (h : Conserved cfg s)
    (ht : step cfg s e = some t) : Conserved cfg t := by
  cases step_moved ht with
  | ticked elapsed =>
    exact ⟨h.admittedOnce, h.releasedOnce, h.known, h.returned, h.fresh, h.live, h.ended, h.count,
      h.ceiling⟩
  | created id wrapper hid => exact h.created hid wrapper
  | dropped id call hcall hf => exact h.dropped hcall hf
  | entered id call probe guard hcall hf hg => exact h.entered hcall hf hg
  | moved id call new guard hcall hl hnew hg => exact h.moved hcall hl hnew hg
  | left id call guard hcall hl hg => exact h.left hcall hl hg

theorem run_conserved {now : ℕ} {es : List Event}
    (hrun : run (step cfg) (State.init now) es = some s) : Conserved cfg s :=
  run_invariant_of_step step_conserved hrun (Conserved.init cfg now)

/-- In every interleaving the permits out are the admitted calls not released yet; a call releases
once, when it ends; the ceiling holds; a refused call leaves the guard as it was. -/
theorem permits_are_conserved (cfg : Config) (now : ℕ) (es : List Event) (s : State)
    (hrun : run (step cfg) (State.init now) es = some s) :
    s.guard.inFlight = s.outstanding.length ∧
    s.admitted.Nodup ∧ s.released.Nodup ∧ (∀ id ∈ s.released, id ∈ s.admitted) ∧
    (∀ id ∈ s.admitted, ∃ call, s.calls.lookup id = some call ∧
      (id ∈ s.released ↔ call.control = .ended)) ∧
    0 ≤ s.guard.inFlight ∧ (0 < cfg.maxConcurrency → s.guard.inFlight ≤ cfg.maxConcurrency) ∧
    ∀ id refusal t, s.guard.admitCall cfg s.now = .error refusal →
      step cfg s (.enter id) = some t →
        t.guard = s.guard ∧ t.admitted = s.admitted ∧ t.released = s.released := by
  have h := run_conserved hrun
  refine ⟨h.inFlight_eq, h.admittedOnce, h.releasedOnce, h.returned, fun id hid => ?_, ?_,
    h.ceiling, fun id refusal t hre ht => ?_⟩
  · obtain ⟨call, hcall⟩ := Option.isSome_iff_exists.mp (AList.lookup_isSome.mpr (h.known id hid))
    refine ⟨call, hcall, fun hr => ?_, fun he => h.ended id call hcall he hid⟩
    cases hc : call.control with
    | ended => rfl
    | fresh => exact absurd hid (h.fresh id call hcall hc)
    | awaiting | suspended | closing exit | sleeping wakeAt =>
      exact absurd hr (h.live id call hcall (hc ▸ trivial)).2
  · rw [h.inFlight_eq]
    exact Int.natCast_nonneg _
  · obtain ⟨call, hcall, ht⟩ := Option.bind_eq_some_iff.mp ht
    split at ht
    · rw [hre] at ht
      cases ht
      exact ⟨rfl, rfl, rfl⟩
    · cases ht

private def single : Config := ⟨"openai", {}, some 1⟩

private def abandoned : List Event :=
  [.create 0 .stream, .create 1 .complete, .create 2 .stream, .enter 0, .chunk 0,
    .raised 0 none 0]

/-- An abandoned stream keeps its permit until its close. -/
theorem abandoned_stream_returns_its_permit :
    ∃ s t u, run (step single) (State.init 0) abandoned = some s ∧
      step single s (.enter 1) = some t ∧ t.guard = s.guard ∧ s.guard.inFlight = 1 ∧
      run (step single) (State.init 0) (abandoned ++ [.closed 0 none 0]) = some u ∧
      u.released = [0] ∧ u.guard.inFlight = u.outstanding.length := by
  obtain ⟨s, hs, hte⟩ := exists_run_of_any
    (p := fun s : State => decide (s.guard = ⟨1, 0, none, false⟩) && decide (s.now = 0) &&
      (step single s (.enter 1)).isSome)
    (show (run (step single) (State.init 0) abandoned).any _ = true by decide +kernel)
  simp only [Bool.and_eq_true, decide_eq_true_eq, Option.isSome_iff_exists] at hte
  obtain ⟨⟨hg, hnow⟩, t, ht⟩ := hte
  obtain ⟨u, hu, hr⟩ := exists_run_of_any (p := fun s : State => s.released = [0])
    (show (run (step single) (State.init 0) (abandoned ++ [.closed 0 none 0])).any _ = true by
      decide +kernel)
  have hre : s.guard.admitCall single s.now =
      .error (.rateLimited ("openai" ++ " is at its concurrency ceiling") 5) := by
    rw [hg, hnow]
    rfl
  obtain ⟨-, -, -, -, -, -, -, hsa⟩ := permits_are_conserved single 0 abandoned s hs
  exact ⟨s, t, u, hs, ht, (hsa 1 _ t hre ht).1, by rw [hg], hu,
    of_decide_eq_true hr, (permits_are_conserved single 0 _ u hu).1⟩

end Aizzak.ProviderPermits
