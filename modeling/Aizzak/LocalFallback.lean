import Aizzak.EventRuns
import Aizzak.KeyedTables

/-!
One chat turn with a local model to fall back to. The calls an agent makes go to the primary, and
a call that the primary fails before it delivers anything goes on to the target, if the target
can take it. Once the target has answered, the later calls of the turn go straight to it. The
history of the turn has what was asked, delivered, failed and raised, and the frames that reach
the reader.
-/
namespace Aizzak.LocalFallback

open EventRuns KeyedTables List

structure LlmParams where
  model : String
  tools : List String
deriving DecidableEq

inductive Failure where
  | appError (code detail : String) (transient : Bool)
  | other (kind : String)
deriving DecidableEq

structure Target where
  model : String
  supports : String → Bool

inductive Route where
  | primary
  | target
deriving DecidableEq

def providerDown : Failure → Bool
  | .appError code _ transient => code = "agent.failed" && transient
  | .other _ => false

def eligible (target : Target) (failure : Failure) (params : LlmParams)
    (capability : Option String) : Bool :=
  providerDown failure && (params.tools.isEmpty || target.supports "tools") &&
    capability.all target.supports

def retarget (target : Target) (params : LlmParams) : LlmParams :=
  { params with model := target.model }

section Turn

inductive Entry where
  | asked (id : ℕ) (route : Route) (streaming : Bool) (params : LlmParams)
  | failed (id : ℕ) (route : Route) (failure : Failure)
  | delivered (id : ℕ) (route : Route)
  | ended (id : ℕ) (route : Route)
  | raised (id : ℕ) (failure : Failure)
  | notice
  | event
deriving DecidableEq

/-- Who a call waits for: the primary, the target after a failure of the primary, or the target
from the start. -/
inductive Status where
  | primary (started : Bool)
  | fallback (failure : Failure)
  | direct

structure Call where
  streaming : Bool
  params : LlmParams
  status : Status

/-- `_Fallback`, the calls in flight, whether the deadline has cut the turn, and its history, the
newest entry first. -/
structure State where
  switched : Bool
  announced : Bool
  primaryServed : Bool
  ended : Bool
  next : ℕ
  calls : AList fun _ : ℕ => Call
  log : List Entry

def State.init : State := ⟨false, false, false, false, 0, ∅, []⟩

def State.note (s : State) (e : Entry) : State := { s with log := e :: s.log }

def State.drop (s : State) (id : ℕ) : State := { s with calls := s.calls.erase id }

def State.keep (s : State) (id : ℕ) (call : Call) : State :=
  { s with calls := s.calls.insert id call }

def served (s : State) : State := { s with switched := true }

def billed (s : State) : Route := if s.switched && !s.primaryServed then .target else .primary

def dueNotice (s : State) : State :=
  if s.switched && !s.announced then { s.note .notice with announced := true } else s

inductive Reply where
  | chunk
  | done
  | fails (failure : Failure)
deriving DecidableEq

/-- The agent calls, is answered or walks away from a stream, and emits events; the deadline cuts
the turn. A stream may fail at its call already. -/
inductive Event where
  | call (streaming : Bool) (params : LlmParams) (atCall : Option Failure)
  | reply (id : ℕ) (reply : Reply) (atCall : Option Failure)
  | close (id : ℕ)
  | event
  | timeout

def Call.capability (call : Call) : Option String :=
  if call.streaming then some "streaming" else none

def Call.last (call : Call) (id : ℕ) (route : Route) : Entry :=
  if call.streaming then .ended id route else .delivered id route

/-- The primary's reply; on a failure that may fall back the target is asked, and `atCall` is what
the target's stream raises at that call. -/
def primaryReplies (target : Target) (s : State) (id : ℕ) (call : Call) (started : Bool)
    (atCall : Option Failure) : Reply → State
  | .chunk => { s.note (.delivered id .primary) with primaryServed := true }.keep id
      { call with status := .primary true }
  | .done =>
    { s.note (call.last id .primary) with primaryServed := s.primaryServed || !call.streaming }
  | .fails failure =>
    let failed := s.note (.failed id .primary failure)
    if started || !eligible target failure call.params call.capability then
      failed.note (.raised id failure)
    else
      let asked := failed.note (.asked id .target call.streaming (retarget target call.params))
      match atCall with
      | some error => (asked.note (.failed id .target error)).note (.raised id error)
      | none => asked.keep id { call with status := .fallback failure }

/-- The target's reply after the primary's failure, which is raised when the target fails too,
unless a stream finds that the turn has switched. -/
def targetReplies (s : State) (id : ℕ) (call : Call) (failure : Failure) : Reply → State
  | .chunk => (served (s.note (.delivered id .target))).keep id call
  | .done => served (s.note (call.last id .target))
  | .fails error => (s.note (.failed id .target error)).note
      (.raised id (if call.streaming && s.switched then error else failure))

def directReplies (s : State) (id : ℕ) (call : Call) : Reply → State
  | .chunk => (s.note (.delivered id .target)).keep id call
  | .done => s.note (call.last id .target)
  | .fails error => (s.note (.failed id .target error)).note (.raised id error)

def startCall (target : Target) (s : State) (streaming : Bool) (params : LlmParams)
    (atCall : Option Failure) : State :=
  let route := if s.switched then .target else .primary
  let sent := if s.switched then retarget target params else params
  let asked := { s with next := s.next + 1 }.note (.asked s.next route streaming sent)
  match atCall with
  | some failure => (asked.note (.failed s.next route failure)).note (.raised s.next failure)
  | none => asked.keep s.next
      ⟨streaming, params, if s.switched then .direct else .primary false⟩

def step (target : Target) (s : State) (e : Event) : Option State :=
  if s.ended then none
  else
    match e with
    | .call streaming params atCall =>
      if !streaming && atCall.isSome then none
      else some (startCall target s streaming params atCall)
    | .reply id reply atCall =>
      (s.calls.lookup id).bind fun call =>
        if !call.streaming && (reply = .chunk || atCall.isSome) then none
        else
          match call.status with
          | .primary started =>
            some (primaryReplies target (s.drop id) id call started atCall reply)
          | .fallback failure => some (targetReplies (s.drop id) id call failure reply)
          | .direct => some (directReplies (s.drop id) id call reply)
    | .close id => if id ∈ s.calls then some (s.drop id) else none
    | .event => some ((dueNotice s).note .event)
    | .timeout => some { s.note .event with ended := true }

end Turn

section Laws

def fits (target : Target) (streaming : Bool) (params : LlmParams) : Bool :=
  (params.tools.isEmpty || target.supports "tools") && (!streaming || target.supports "streaming")

def TargetAsked (log : List Entry) : Prop :=
  ∃ id streaming params, .asked id .target streaming params ∈ log

def Answered (log : List Entry) : Prop :=
  ∃ id, .delivered id .target ∈ log ∨ .ended id .target ∈ log

def PrimaryDelivered (log : List Entry) : Prop := ∃ id, .delivered id .primary ∈ log

/-- What an entry may follow. The target is only asked for what it can take, and first where the
primary was down and had delivered nothing; the primary is not asked once the target has answered;
a call has its chunks from one model; when both fail before they deliver anything the failure of
the primary is raised; and the one notice comes after the switch and before every event that
follows it. -/
def Lawful (target : Target) (before : List Entry) : Entry → Prop
  | .asked id .target streaming params => fits target streaming params = true ∧
      (TargetAsked before ∨ ∃ failure, .failed id .primary failure ∈ before ∧
        providerDown failure = true ∧ ∀ route, .delivered id route ∉ before)
  | .asked _ .primary _ _ => ¬ Answered before
  | .delivered id route => ∀ other, .delivered id other ∈ before → other = route
  | .raised id failure => ∀ first second, .failed id .primary first ∈ before →
      .failed id .target second ∈ before → (∀ route, .delivered id route ∉ before) →
        failure = first
  | .notice => Answered before ∧ .notice ∉ before
  | .event => Answered before → .notice ∈ before
  | .failed .. | .ended .. => True

/-- A lawful history, and a charge that names the target exactly when it answered and the primary
delivered nothing. -/
structure Sound (target : Target) (s : State) : Prop where
  lawful : ∀ after e before, s.log = after ++ e :: before → Lawful target before e
  charged : billed s = .target ↔ Answered s.log ∧ ¬ PrimaryDelivered s.log

/-- The target can take the calls made after the switch; a fail-over stream is not refused at its
call, and does not fail unanswered after another call has switched the turn; and the deadline
does not cut the turn between the switch and the next event. -/
def safe (target : Target) (s : State) : Event → Bool
  | .call streaming params _ => !s.switched || fits target streaming params
  | .reply id (.fails failure) atCall => (s.calls.lookup id).all fun call =>
      match call.status with
      | .primary started =>
        started || !eligible target failure call.params call.capability || atCall.isNone
      | .fallback _ => !call.streaming || !s.switched || .delivered id .target ∈ s.log
      | .direct => true
  | .timeout => !s.switched || s.announced
  | _ => true

end Laws

variable {target : Target} {s : State} {log : List Entry} {id : ℕ} {e : Entry}

section Invariant

def Entry.call : Entry → Option ℕ
  | .asked id _ _ _ | .failed id _ _ | .delivered id _ | .ended id _ | .raised id _ => some id
  | .notice | .event => none

def Entry.answers : Entry → Bool
  | .delivered _ .target | .ended _ .target => true
  | _ => false

def Entry.fromPrimary : Entry → Bool
  | .delivered _ .primary => true
  | _ => false

def InFlight (log : List Entry) (id : ℕ) : Status → Prop
  | .primary started => (∀ route failure, .failed id route failure ∉ log) ∧
      .delivered id .target ∉ log ∧ (started = false → .delivered id .primary ∉ log)
  | .fallback failure => (∀ first, .failed id .primary first ∈ log → first = failure) ∧
      (∀ second, .failed id .target second ∉ log) ∧ .delivered id .primary ∉ log ∧ TargetAsked log
  | .direct => (∀ first, .failed id .primary first ∉ log) ∧ .delivered id .primary ∉ log ∧
      ∃ e ∈ log, e.answers = true

structure Consistent (target : Target) (s : State) : Prop where
  lawful : ∀ after e before, s.log = after ++ e :: before → Lawful target before e
  fresh : ∀ e ∈ s.log, ∀ id ∈ e.call, id < s.next
  known : ∀ id call, s.calls.lookup id = some call → id < s.next
  inFlight : ∀ id call, s.calls.lookup id = some call → InFlight s.log id call.status
  switched : s.switched = true ↔ ∃ e ∈ s.log, e.answers = true
  primaryServed : s.primaryServed = true ↔ ∃ e ∈ s.log, e.fromPrimary = true
  announced : s.announced = true ↔ .notice ∈ s.log
  asked : s.switched = true → TargetAsked s.log

theorem answered_iff : Answered log ↔ ∃ e ∈ log, e.answers = true := by
  constructor
  · rintro ⟨id, hid | hid⟩
    · exact ⟨_, hid, rfl⟩
    · exact ⟨_, hid, rfl⟩
  · rintro ⟨e, he, ha⟩
    match e, ha with
    | .delivered id .target, _ => exact ⟨id, Or.inl he⟩
    | .ended id .target, _ => exact ⟨id, Or.inr he⟩

theorem primaryDelivered_iff : PrimaryDelivered log ↔ ∃ e ∈ log, e.fromPrimary = true := by
  constructor
  · rintro ⟨id, hid⟩
    exact ⟨_, hid, rfl⟩
  · rintro ⟨e, he, hp⟩
    match e, hp with
    | .delivered id .primary, _ => exact ⟨id, he⟩

theorem mem_cons_of_call {x : Entry} (hx : x.call = some id) (he : e.call ≠ some id) :
    x ∈ e :: log ↔ x ∈ log := by
  rw [mem_cons, or_iff_right]
  rintro rfl
  exact he hx

theorem TargetAsked.cons (h : TargetAsked log) (e : Entry) : TargetAsked (e :: log) := by
  obtain ⟨id, streaming, params, hmem⟩ := h
  exact ⟨id, streaming, params, mem_cons_of_mem e hmem⟩

/-- What happens to other calls leaves a call in flight as it is. -/
theorem InFlight.cons {status : Status} (h : InFlight log id status) (he : e.call ≠ some id) :
    InFlight (e :: log) id status := by
  have hf : ∀ route failure,
      .failed id route failure ∈ e :: log ↔ .failed id route failure ∈ log :=
    fun _ _ => mem_cons_of_call rfl he
  have hd : ∀ route, .delivered id route ∈ e :: log ↔ .delivered id route ∈ log :=
    fun _ => mem_cons_of_call rfl he
  cases status with
  | primary started =>
    simp only [InFlight, hf, hd] at h ⊢
    exact h
  | fallback failure =>
    simp only [InFlight, hf, hd] at h ⊢
    exact ⟨h.1, h.2.1, h.2.2.1, h.2.2.2.cons e⟩
  | direct =>
    simp only [InFlight, hf, hd] at h ⊢
    obtain ⟨answer, han, ha⟩ := h.2.2
    exact ⟨h.1, h.2.1, answer, mem_cons_of_mem e han, ha⟩

theorem Consistent.init : Consistent target State.init := by
  constructor <;> simp [State.init]

section

variable (hs : Consistent target s)
include hs

theorem Consistent.drop (id : ℕ) : Consistent target (s.drop id) :=
  { hs with
    known := fun i call hi => hs.known i call (lookup_erase_iff.mp hi).2
    inFlight := fun i call hi => hs.inFlight i call (lookup_erase_iff.mp hi).2 }

theorem Consistent.keep {call : Call} (hid : id < s.next) (hc : InFlight s.log id call.status) :
    Consistent target (s.keep id call) :=
  { hs with
    known := forall_insert hid hs.known
    inFlight := forall_insert hc hs.inFlight }

/-- One entry, about no call that is in flight, with the flags that it sets. -/
theorem Consistent.noted (hc : ∀ id ∈ e.call, id < s.next)
    (hids : ∀ id ∈ e.call, s.calls.lookup id = none) (hlaw : Lawful target s.log e)
    (ha : e.answers = true → TargetAsked s.log) :
    Consistent target { s with
      log := e :: s.log
      switched := s.switched || e.answers
      primaryServed := s.primaryServed || e.fromPrimary
      announced := s.announced || e = .notice } := by
  refine ⟨?_, forall_mem_cons.mpr ⟨hc, hs.fresh⟩, hs.known, ?_, ?_, ?_, ?_, ?_⟩
  · intro after x before heq
    cases after with
    | nil =>
      cases heq
      exact hlaw
    | cons y after => exact hs.lawful after x before (List.cons.inj heq).2
  · intro id call hid
    refine (hs.inFlight id call hid).cons fun ho => ?_
    rw [hids id ho] at hid
    cases hid
  · rw [Bool.or_eq_true, hs.switched]
    simp [or_comm]
  · rw [Bool.or_eq_true, hs.primaryServed]
    simp [or_comm]
  · rw [Bool.or_eq_true, hs.announced, decide_eq_true_iff, mem_cons, or_comm, eq_comm]
  · intro hsw
    rcases (Bool.or_eq_true _ _).mp hsw with hold | hnew
    · exact (hs.asked hold).cons e
    · exact (ha hnew).cons e

/-- An entry about a call that is not in flight, which sets no flag. -/
theorem Consistent.plain (hc : e.call = some id)
    (hp : e.answers = false ∧ e.fromPrimary = false) (hid : id < s.next)
    (hf : s.calls.lookup id = none) (hlaw : Lawful target s.log e) :
    Consistent target (s.note e) := by
  have hno : e ≠ .notice := by
    rintro rfl
    cases hc
  have hn := hs.noted (e := e) (by simp [hc, hid]) (by simp [hc, hf]) hlaw
    (by simp [hp.1])
  simpa [hp, hno, State.note] using hn

theorem Consistent.answered (hc : e.call = some id) (ha : e.answers = true)
    (hid : id < s.next) (hf : s.calls.lookup id = none) (hlaw : Lawful target s.log e)
    (hak : TargetAsked s.log) : Consistent target (served (s.note e)) := by
  have ho : e ≠ .notice ∧ e.fromPrimary = false := by
    cases e with
    | delivered id route => cases route <;> simp_all [Entry.answers, Entry.fromPrimary]
    | ended id route => exact ⟨by simp, rfl⟩
    | _ => cases ha
  have hn := hs.noted (e := e) (by simp [hc, hid]) (by simp [hc, hf]) hlaw
    fun _ => hak
  simpa [ha, ho, served, State.note] using hn

theorem Consistent.delivered (hid : id < s.next) (hf : s.calls.lookup id = none)
    (hno : .delivered id .target ∉ s.log) :
    Consistent target { s.note (.delivered id .primary) with primaryServed := true } := by
  have hlaw : Lawful target s.log (.delivered id .primary) := by
    intro other ho
    cases other with
    | primary => rfl
    | target => exact absurd ho hno
  have hn := hs.noted (e := .delivered id .primary) (by simp [Entry.call, hid])
    (by simp [Entry.call, hf]) hlaw (by simp [Entry.answers])
  simpa [Entry.answers, Entry.fromPrimary, State.note] using hn

theorem Consistent.started : Consistent target { s with next := s.next + 1 } :=
  { hs with
    fresh := fun e he id hid => (hs.fresh e he id hid).trans (Nat.lt_succ_self _)
    known := fun id call hid => (hs.known id call hid).trans (Nat.lt_succ_self _) }

end

end Invariant

section Steps

/-- A new call keeps the history consistent. -/
theorem Consistent.startCall (hs : Consistent target s) {streaming : Bool} {params : LlmParams}
    {atCall : Option Failure}
    (hsa : s.switched = true → fits target streaming params = true) :
    Consistent target (startCall target s streaming params atCall) := by
  have hnew : ∀ x ∈ s.log, x.call ≠ some s.next := by
    intro x hx hc
    exact (hs.fresh x hx s.next hc).false
  have hfr : s.calls.lookup s.next = none := by
    by_contra hb
    obtain ⟨call, hc⟩ := Option.ne_none_iff_exists'.mp hb
    exact (hs.known s.next call hc).false
  have hid : s.next < s.next + 1 := Nat.lt_succ_self _
  have hst := hs.started
  set route := if s.switched then Route.target else .primary with hro
  set sent := if s.switched then retarget target params else params with hsn
  have hlaw : Lawful target s.log (.asked s.next route streaming sent) := by
    cases hsw : s.switched with
    | false =>
      rw [hro, hsw, if_neg Bool.false_ne_true]
      rw [Lawful, answered_iff, ← hs.switched, hsw]
      exact Bool.false_ne_true
    | true =>
      rw [hro, hsn, hsw, if_pos rfl, if_pos rfl]
      exact ⟨hsa hsw, Or.inl (hs.asked hsw)⟩
  have hak : Consistent target
      ({ s with next := s.next + 1 }.note (.asked s.next route streaming sent)) :=
    hst.plain rfl ⟨rfl, rfl⟩ hid hfr hlaw
  unfold LocalFallback.startCall
  cases atCall with
  | some failure =>
    have hf := hak.plain (e := .failed s.next route failure) rfl ⟨rfl, rfl⟩ hid hfr
      trivial
    refine hf.plain rfl ⟨rfl, rfl⟩ hid hfr ?_
    intro first second hfi hse
    have ho : ∀ r f, .failed s.next r f ∈ Entry.failed s.next route failure ::
        .asked s.next route streaming sent :: s.log → r = route := by
      intro r f hmem
      rcases mem_cons.mp hmem with heq | hmem
      · cases heq
        rfl
      · exact absurd rfl (hnew _ (mem_of_ne_of_mem (by simp) hmem))
    have hr := (ho _ _ hfi).trans (ho _ _ hse).symm
    cases hr
  | none =>
    refine hak.keep hid ?_
    have hn : ∀ x : Entry, x.call = some s.next →
        x ≠ .asked s.next route streaming sent → x ∉ (s.note (.asked s.next route streaming
          sent)).log := by
      intro x hx hne hmem
      exact hnew x (mem_of_ne_of_mem hne hmem) hx
    cases hsw : s.switched with
    | false => exact ⟨fun _ _ => hn _ rfl (by simp), hn _ rfl (by simp),
        fun _ => hn _ rfl (by simp)⟩
    | true =>
      obtain ⟨answer, han, ha⟩ := hs.switched.mp hsw
      exact ⟨fun _ => hn _ rfl (by simp), hn _ rfl (by simp), answer,
        mem_cons_of_mem _ han, ha⟩

variable {call : Call}

/-- The failure of the primary hands the call over, or ends it. -/
theorem Consistent.primaryReplies (hs : Consistent target s) {started : Bool}
    {atCall : Option Failure} {reply : Reply} (hid : id < s.next)
    (hfr : s.calls.lookup id = none) (hca : InFlight s.log id (.primary started))
    (hsa : ∀ failure, reply = .fails failure → started = false →
      eligible target failure call.params call.capability = true → atCall = none) :
    Consistent target (primaryReplies target s id call started atCall reply) := by
  obtain ⟨hf, ht, hp⟩ := hca
  cases reply with
  | chunk =>
    refine (hs.delivered hid hfr ht).keep hid ⟨?_, ?_, fun h => by cases h⟩
    · intro route failure hmem
      exact hf route failure (by simpa [State.note] using hmem)
    · simpa [State.note] using ht
  | done =>
    cases hst : call.streaming with
    | false => simpa [LocalFallback.primaryReplies, Call.last, hst] using
        hs.delivered hid hfr ht
    | true =>
      have hen := hs.plain (e := .ended id .primary) rfl ⟨rfl, rfl⟩ hid hfr trivial
      simpa [LocalFallback.primaryReplies, Call.last, hst, State.note] using hen
  | fails failure =>
    have hn := hs.plain (e := .failed id .primary failure) rfl ⟨rfl, rfl⟩ hid hfr trivial
    rw [LocalFallback.primaryReplies]
    by_cases hsp : (started || !eligible target failure call.params call.capability) = true
    · simp only [hsp, if_true]
      refine hn.plain rfl ⟨rfl, rfl⟩ hid hfr ?_
      intro first second _ hse
      exact absurd (mem_of_ne_of_mem (by simp) hse) (hf _ _)
    · rw [Bool.or_eq_true, not_or, Bool.not_eq_true, Bool.not_eq_true', Bool.not_eq_false] at hsp
      obtain ⟨hsr, he⟩ := hsp
      rw [hsa failure rfl hsr he]
      have hpa := he
      simp only [eligible, Bool.and_eq_true] at hpa
      obtain ⟨⟨hd, hto⟩, hc⟩ := hpa
      have hfi : fits target call.streaming (retarget target call.params) = true := by
        rw [fits, retarget, hto, Bool.true_and]
        cases hst : call.streaming with
        | false => rfl
        | true => simpa [Call.capability, hst] using hc
      have hno : ∀ route, .delivered id route ∉ Entry.failed id .primary failure :: s.log := by
        intro route hmem
        have hlog := mem_of_ne_of_mem (by simp) hmem
        cases route with
        | primary => exact hp hsr hlog
        | target => exact ht hlog
      have ha := hn.plain
        (e := .asked id .target call.streaming (retarget target call.params)) rfl ⟨rfl, rfl⟩ hid
        hfr ⟨hfi, Or.inr ⟨failure, mem_cons_self, hd, hno⟩⟩
      simp only [hsr, he, Bool.not_true, Bool.or_false, Bool.false_eq_true, if_false]
      refine ha.keep hid ⟨?_, ?_, ?_, ?_⟩
      · intro first hmem
        rcases mem_cons.mp (mem_of_ne_of_mem (by simp) hmem) with heq | hlog
        · cases heq
          rfl
        · exact absurd hlog (hf _ _)
      · intro second hmem
        have hlog := mem_of_ne_of_mem (by simp) hmem
        exact hf _ _ (mem_of_ne_of_mem (by simp) hlog)
      · intro hmem
        exact hno _ (mem_of_ne_of_mem (by simp) hmem)
      · exact ⟨id, _, _, mem_cons_self⟩

/-- The target's chunk or its result, where the primary has delivered nothing of the call. -/
theorem lawful_last (hp : .delivered id .primary ∉ log) :
    Lawful target log (.delivered id .target) ∧ Lawful target log (call.last id .target) := by
  have hlaw : Lawful target log (.delivered id .target) := by
    intro other ho
    cases other with
    | primary => exact absurd ho hp
    | target => rfl
  refine ⟨hlaw, ?_⟩
  rw [Call.last]
  split
  · trivial
  · exact hlaw

theorem last_spec : (call.last id .target).call = some id ∧
    (call.last id .target).answers = true := by
  rw [Call.last]
  split <;> exact ⟨rfl, rfl⟩

theorem Consistent.targetReplies (hs : Consistent target s) {failure : Failure} {reply : Reply}
    (hid : id < s.next) (hfr : s.calls.lookup id = none)
    (hst : call.status = .fallback failure)
    (hca : InFlight s.log id (.fallback failure))
    (hsa : ∀ error, reply = .fails error → call.streaming = true → s.switched = true →
      .delivered id .target ∈ s.log) :
    Consistent target (targetReplies s id call failure reply) := by
  obtain ⟨hfi, hse, hp, ha⟩ := hca
  obtain ⟨hd, hl⟩ : Lawful target s.log (.delivered id .target) ∧
    Lawful target s.log (call.last id .target) := lawful_last hp
  cases reply with
  | chunk =>
    refine (hs.answered rfl rfl hid hfr hd ha).keep hid ?_
    rw [hst]
    refine ⟨fun first hmem => hfi first ?_, fun second hmem => hse second ?_, ?_,
      ha.cons _⟩
    · simpa [State.note, served] using hmem
    · simpa [State.note, served] using hmem
    · simpa [State.note, served] using hp
  | done => exact hs.answered last_spec.1 last_spec.2 hid hfr hl ha
  | fails error =>
    have hn := hs.plain (e := .failed id .target error) rfl ⟨rfl, rfl⟩ hid hfr trivial
    refine hn.plain rfl ⟨rfl, rfl⟩ hid hfr ?_
    intro first second hmem _ hno
    have hf : first = failure := hfi first (by simpa [State.note] using hmem)
    split
    · rename_i hr
      rw [Bool.and_eq_true] at hr
      have hc := hsa error rfl hr.1 hr.2
      exact absurd (mem_cons_of_mem _ hc) (hno .target)
    · exact hf.symm

theorem Consistent.directReplies (hs : Consistent target s) {reply : Reply} (hid : id < s.next)
    (hfr : s.calls.lookup id = none) (hst : call.status = .direct)
    (hc : InFlight s.log id .direct) : Consistent target (directReplies s id call reply) := by
  obtain ⟨hf, hp, ha⟩ := hc
  obtain ⟨hd, hl⟩ : Lawful target s.log (.delivered id .target) ∧
    Lawful target s.log (call.last id .target) := lawful_last hp
  have hsw := hs.switched.mpr ha
  have hsa : ∀ e, served (s.note e) = s.note e := by
    intro e
    rw [served, State.note, ← hsw]
  have hak := hs.asked hsw
  cases reply with
  | chunk =>
    have hn := hs.answered (e := .delivered id .target) rfl rfl hid hfr hd hak
    rw [hsa] at hn
    refine hn.keep hid ?_
    rw [hst]
    refine ⟨fun first hmem => hf first ?_, ?_, _, mem_cons_self, rfl⟩
    · simpa [State.note] using hmem
    · simpa [State.note] using hp
  | done =>
    have hn := hs.answered last_spec.1 last_spec.2 hid hfr hl hak
    rwa [hsa] at hn
  | fails error =>
    have hn := hs.plain (e := .failed id .target error) rfl ⟨rfl, rfl⟩ hid hfr trivial
    refine hn.plain rfl ⟨rfl, rfl⟩ hid hfr ?_
    intro first second hmem
    exact absurd (by simpa [State.note] using hmem) (hf first)

theorem Consistent.event (hs : Consistent target s) (hno : s.switched = true →
    s.announced = true) : Consistent target (s.note .event) := by
  have hlaw : Lawful target s.log .event := by
    intro ha
    exact hs.announced.mp (hno (hs.switched.mpr (answered_iff.mp ha)))
  have hn := hs.noted (e := .event) (by simp [Entry.call]) (by simp [Entry.call]) hlaw
    (by simp [Entry.answers])
  simpa [Entry.answers, Entry.fromPrimary, State.note] using hn

theorem Consistent.dueNotice (hs : Consistent target s) : Consistent target (dueNotice s) ∧
    ((dueNotice s).switched = true → (dueNotice s).announced = true) := by
  rw [LocalFallback.dueNotice]
  split
  · rename_i hdue
    rw [Bool.and_eq_true, Bool.not_eq_true'] at hdue
    have hlaw : Lawful target s.log .notice := by
      refine ⟨answered_iff.mpr (hs.switched.mp hdue.1), fun hmem => ?_⟩
      rw [← hs.announced, hdue.2] at hmem
      cases hmem
    have hn := hs.noted (e := .notice) (by simp [Entry.call]) (by simp [Entry.call]) hlaw
      (by simp [Entry.answers])
    refine ⟨?_, fun _ => rfl⟩
    simpa [Entry.answers, Entry.fromPrimary, State.note] using hn
  · rename_i hnot
    refine ⟨hs, fun hsw => ?_⟩
    simpa [hsw] using hnot

/-- Every event of a turn keeps its history lawful. -/
theorem step_consistent (s : State) (e : Event) (t : State) (hs : Consistent target s)
    (hsa : safe target s e = true) (ht : step target s e = some t) : Consistent target t := by
  unfold step at ht
  split at ht
  · cases ht
  · cases e with
    | call streaming params atCall =>
      dsimp only at ht
      split_ifs at ht
      cases ht
      exact hs.startCall fun hsw => by simpa [safe, hsw] using hsa
    | reply id reply atCall =>
      obtain ⟨call, hc, ht⟩ := Option.bind_eq_some_iff.mp ht
      split_ifs at ht
      have hid : id < (s.drop id).next := hs.known id call hc
      have hfr : (s.drop id).calls.lookup id = none := AList.lookup_erase id s.calls
      have hf := hs.inFlight id call hc
      cases hss : call.status with
      | primary started =>
        rw [hss] at ht hf
        cases ht
        refine (hs.drop id).primaryReplies hid hfr hf fun failure hr hsr hd => ?_
        subst hr
        simpa [safe, hc, hss, hsr, hd] using hsa
      | fallback failure =>
        rw [hss] at ht hf
        cases ht
        refine (hs.drop id).targetReplies hid hfr hss hf
          fun error hr hst hon => ?_
        subst hr
        have hsw : s.switched = true := hon
        simpa [safe, hc, hss, hst, hsw, State.drop] using hsa
      | direct =>
        rw [hss] at ht hf
        cases ht
        exact (hs.drop id).directReplies hid hfr hss hf
    | close id =>
      dsimp only at ht
      split_ifs at ht
      cases ht
      exact hs.drop id
    | event =>
      cases ht
      exact hs.dueNotice.1.event hs.dueNotice.2
    | timeout =>
      cases ht
      have hn := hs.event fun hsw => by simpa [safe, hsw] using hsa
      exact { hn with }

end Steps

theorem Consistent.sound (hs : Consistent target s) : Sound target s := by
  refine ⟨hs.lawful, ?_⟩
  rw [answered_iff, primaryDelivered_iff, ← hs.switched, ← hs.primaryServed, billed]
  cases s.switched <;> cases s.primaryServed <;> simp

/-- In every turn whose steps are all safe, whatever the agent calls and however the two models
fail, the history is lawful and the charge names the model that is due. -/
theorem local_fallback_sound {target : Target} {events : List Event} {s : State}
    (hsafe : Guarded (step target) (fun s e => safe target s e = true) State.init events)
    (hrun : run (step target) State.init events = some s) : Sound target s :=
  (run_invariant step_consistent hsafe hrun Consistent.init).sound

private def outage : Failure := .appError "agent.failed" "unreachable" true

private def toolless : Target := ⟨"local", (· = "streaming")⟩

private def safeTurn : List Event :=
  [.call true ⟨"cloud", ["search"]⟩ none, .reply 0 .chunk none, .call true ⟨"cloud", []⟩ none,
    .reply 1 (.fails outage) none, .reply 0 .done none, .reply 1 .chunk none, .event, .timeout]

theorem local_fallback_sound_after_outage :
    ∃ s, run (step toolless) State.init safeTurn = some s ∧ Sound toolless s := by
  have hsa : Guarded (step toolless) (fun s e => safe toolless s e = true) State.init
      safeTurn := by
    decide +kernel
  obtain ⟨s, hrun⟩ := Option.isSome_iff_exists.mp
    (show (run (step toolless) State.init safeTurn).isSome = true by decide +kernel)
  exact ⟨s, hrun, local_fallback_sound hsa hrun⟩

private def toolTurn : List Event :=
  [.call false ⟨"cloud", []⟩ none, .reply 0 (.fails outage) none, .reply 0 .done none,
    .call false ⟨"cloud", ["search"]⟩ none]

theorem tools_reach_a_target_without_tools :
    ∃ s, run (step toolless) State.init toolTurn = some s ∧ ¬ Sound toolless s := by
  obtain ⟨s, hrun, hlog⟩ := exists_run_of_any
    (p := fun s => s.log.head? = some (.asked 1 .target false ⟨"local", ["search"]⟩))
    (show (run (step toolless) State.init toolTurn).any _ = true by decide +kernel)
  refine ⟨s, hrun, fun hso => ?_⟩
  obtain ⟨before, hb⟩ := List.head?_eq_some_iff.mp (of_decide_eq_true hlog)
  exact absurd (hso.lawful [] _ before hb).1 (by decide)

end Aizzak.LocalFallback
