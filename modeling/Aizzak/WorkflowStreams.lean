import Aizzak.Generators

/-!
A workflow run, collected or streamed. The engine drives the steps one after the other and emits
the events of each agent, with one `final` event for a step that completes. `collect` pulls the
events to the end. The event stream to a client ends at the first `final` or `error` event, or at
one that has no encoding, and the run with it.
-/
namespace Aizzak.WorkflowStreams

open Generators Generator

abbrev Json (V : Type) := AList fun _ : String => V

structure AppError where
  code : String
  status : ℕ
  detail : String
  retryAfterS : Option ℕ
deriving DecidableEq

/-- An exception; `none` is one that is no `AppError`. -/
abbrev Raised := Option AppError

inductive AgentEvent (V : Type) where
  | token (data : Json V)
  | toolCall (data : Json V)
  | final (data : Json V)
  | error (data : AppError)

namespace AgentEvent

variable {V : Type}

def isError : AgentEvent V → Bool
  | .error _ => true
  | .token _ | .toolCall _ | .final _ => false

def output : AgentEvent V → Option (Json V)
  | .final data => some data
  | .token _ | .toolCall _ | .error _ => none

def isTerminal : AgentEvent V → Bool
  | .final _ | .error _ => true
  | .token _ | .toolCall _ => false

end AgentEvent

structure Usage where
  promptTotal : ℕ
  completionTotal : ℕ
deriving DecidableEq

def Usage.add (x y : Usage) : Usage :=
  ⟨x.promptTotal + y.promptTotal, x.completionTotal + y.completionTotal⟩

def Usage.total (usage : Usage) : ℕ := usage.promptTotal + usage.completionTotal

inductive Progress (V : Type) where
  | token (data : Json V)
  | toolCall (data : Json V)

def Progress.event {V : Type} : Progress V → AgentEvent V
  | .token data => .token data
  | .toolCall data => .toolCall data

inductive Ending (V : Type) where
  | final (data : Json V)
  | raises (exc : Raised)

/-- What an agent does with a request: its events, what its provider calls consume before each of
them, and its end. -/
structure AgentRun (V : Type) where
  progress : List (Usage × Progress V)
  spent : Usage
  ending : Ending V

structure BilledRoute where
  provider : String
  model : String
deriving DecidableEq

structure UsageCharge where
  agent : String
  provider : String
  tokens : ℕ
  costMicros : ℕ
deriving DecidableEq

inductive Frame (V : Type) where
  | token (data : Json V)
  | toolCall (data : Json V)
  | final (data : Json V)
  | error (problem : AppError) (correlationId : Option String)

def Frame.final? {V : Type} : Frame V → Option (Json V)
  | .final data => some data
  | .token _ | .toolCall _ | .error _ _ => none

/-- What a run meets: the answers of the resolver and the quota, which may depend on what was
charged before, the agents, the prices and the thread, and which frames have a text with a UTF-8
encoding. -/
structure Platform (V : Type) where
  repr : String → String
  encodes : Frame V → Bool
  beginStep : List UsageCharge → String → Except Raised BilledRoute
  create : String → Except Raised (Json V → AgentRun V)
  costMicros : BilledRoute → Usage → ℕ
  appends : Json V → Bool

/-- The source of a field in an `input_map`, which may be no text. -/
inductive MapSource where
  | key (name : String)
  | other (typeName : String)

structure WorkflowStep where
  agentKey : String
  inputMap : List (String × MapSource)

structure WorkflowDefinition where
  key : String
  steps : List WorkflowStep
  nonempty : steps ≠ []

structure OpenStep where
  agentKey : String
  route : BilledRoute
  meter : Usage

structure Billing where
  executed : List String
  charges : List UsageCharge
  openStep : Option OpenStep

namespace Billing

def start : Billing := ⟨[], [], none⟩

def spend (b : Billing) (usage : Usage) : Billing :=
  { b with openStep := b.openStep.map fun step => { step with meter := step.meter.add usage } }

end Billing

variable {V : Type}

def validationError (detail : String) : Raised :=
  some ⟨"common.validation_error", 422, detail, none⟩

def internalError : AppError := ⟨"common.internal", 500, "internal error", none⟩

def executorError : Raised → AppError
  | some exc => exc
  | none => internalError

def engineError : Raised → AppError
  | some exc => { exc with retryAfterS := none }
  | none => internalError

def drive (agent : AgentRun V) : List (Usage × AgentEvent V) :=
  agent.progress.map (fun entry => (entry.1, entry.2.event)) ++
    [(agent.spent, match agent.ending with
      | .final data => .final data
      | .raises exc => .error (executorError exc))]

section Engine

variable (platform : Platform V)

def project (inputMap : List (String × MapSource)) (context : Json V) :
    Except Raised (Json V) :=
  if inputMap.isEmpty then .ok context
  else
    inputMap.foldlM (fun projected entry =>
      match entry.2 with
      | .other typeName => .error (validationError
          ("input_map source for " ++ platform.repr entry.1 ++
            " must be a context key string (got " ++ typeName ++ ")"))
      | .key source =>
        match context.lookup source with
        | none => .error (validationError
            ("input_map source " ++ platform.repr source ++ " for " ++ platform.repr entry.1 ++
              " is not in the workflow context"))
        | some value => .ok (projected.insert entry.1 value)) ∅

def update (context output : Json V) : Json V := output.union context

/-- A step that consumed nothing is not charged. -/
def closeStep (b : Billing) : Billing :=
  match b.openStep with
  | none => b
  | some step =>
    if 0 < step.meter.total then
      { b with
        openStep := none
        charges := b.charges ++ [⟨step.agentKey, step.route.provider, step.meter.total,
          platform.costMicros step.route step.meter⟩] }
    else { b with openStep := none }

def forAgent (b : Billing) (agentKey : String) : Billing × Except Raised Unit :=
  let b := closeStep platform b
  match platform.beginStep b.charges agentKey with
  | .error exc => (b, .error exc)
  | .ok route => ({ b with openStep := some ⟨agentKey, route, ⟨0, 0⟩⟩ }, .ok ())

def forward (next : Bool → Option (Json V) → Billing → Generator Billing (AgentEvent V)) :
    List (Usage × AgentEvent V) → Bool → Option (Json V) → Billing →
      Generator Billing (AgentEvent V)
  | [], failed, output, b => next failed output b
  | (usage, event) :: rest, failed, output, b =>
    .yielded (b.spend usage) event
      (forward next rest (failed || event.isError) (event.output.or output) (b.spend usage))

def runSteps : List WorkflowStep → Json V → Billing → Generator Billing (AgentEvent V)
  | [], _, b => .returned b
  | step :: rest, context, b =>
    match project platform step.inputMap context with
    | .error exc => .yielded b (.error (engineError exc)) (.returned b)
    | .ok input =>
      match forAgent platform b step.agentKey with
      | (b, .error exc) => .yielded b (.error (engineError exc)) (.returned b)
      | (b, .ok ()) =>
        match platform.create step.agentKey with
        | .error exc => .yielded b (.error (engineError exc)) (.returned b)
        | .ok agent =>
          forward (fun failed output b =>
              if failed then .returned b
              else runSteps rest ((output.map (update context)).getD context) b)
            (drive (agent input)) false none
            { b with executed := b.executed ++ [step.agentKey] }

end Engine

inductive RunStatus where
  | running
  | completed
  | failed
deriving DecidableEq

structure RunRecord (V : Type) where
  outputs : List (Json V)
  thread : List (Json V)
  status : RunStatus

namespace RunRecord

def start : RunRecord V := ⟨[], [], .running⟩

def onEvent (platform : Platform V) (event : AgentEvent V) (record : RunRecord V) :
    RunRecord V :=
  match event with
  | .final data =>
    { record with
      outputs := record.outputs ++ [data]
      thread := if platform.appends data then record.thread ++ [data] else record.thread }
  | .error _ => { record with status := .failed }
  | .token _ | .toolCall _ => record

def onReturn (record : RunRecord V) : RunRecord V :=
  if record.status = .running then { record with status := .completed } else record

end RunRecord

def frameOf (correlationId : Option String) : AgentEvent V → Frame V
  | .token data => .token data
  | .toolCall data => .toolCall data
  | .final data => .final data
  | .error data => .error data correlationId

/-- `encode_frame` raises where the text of the data has no UTF-8 encoding. -/
def encodeFrame (platform : Platform V) (correlationId : Option String) (event : AgentEvent V) :
    Option (Frame V) :=
  if platform.encodes (frameOf correlationId event) then some (frameOf correlationId event)
  else none

/-- Where the stream ends: behind a terminal event, or with what encoding an event raises. -/
def endsStream (platform : Platform V) (correlationId : Option String) (event : AgentEvent V) :
    Bool :=
  event.isTerminal || (encodeFrame platform correlationId event).isNone

structure Outcome (V : Type) where
  executed : List String
  thread : List (Json V)
  charges : List UsageCharge
  status : RunStatus

section Consumers

variable (platform : Platform V) (definition : WorkflowDefinition) (input : Json V)

def events : Generator (Billing × RunRecord V) (AgentEvent V) :=
  (runSteps platform definition.steps input Billing.start).relay (RunRecord.onEvent platform)
    RunRecord.onReturn RunRecord.start

def onFinish (state : Billing × RunRecord V) : Outcome V :=
  let b := closeStep platform state.1
  ⟨b.executed, state.2.thread, b.charges, state.2.status⟩

def collect : Outcome V × List (Json V) :=
  let state := (events platform definition input).drain.2
  (onFinish platform state, state.2.outputs)

def sseStream (correlationId : Option String) : Outcome V × List (Frame V) :=
  let read := (events platform definition input).readUntil (endsStream platform correlationId)
  (onFinish platform read.2, read.1.filterMap (encodeFrame platform correlationId))

/-- The stream leaves behind what collecting does, and carries each step's output. -/
def StreamAgrees (correlationId : Option String) : Prop :=
  (sseStream platform definition input correlationId).1 =
      (collect platform definition input).1 ∧
    (sseStream platform definition input correlationId).2.filterMap Frame.final? =
      (collect platform definition input).2

def firstFails : List WorkflowStep → Bool
  | [] => false
  | step :: _ =>
    match project platform step.inputMap input, platform.beginStep [] step.agentKey,
        platform.create step.agentKey with
    | .ok stepInput, .ok _, .ok agent =>
      match (agent stepInput).ending with
      | .final _ => false
      | .raises _ => true
    | _, _, _ => true

def firstEncodes (correlationId : Option String) : List WorkflowStep → Bool
  | [] => true
  | step :: _ =>
    match project platform step.inputMap input, platform.beginStep [] step.agentKey,
        platform.create step.agentKey with
    | .ok stepInput, .ok _, .ok agent => (agent stepInput).progress.all fun entry =>
        (encodeFrame platform correlationId entry.2.event).isSome
    | _, _, _ => true

end Consumers

section Agreement

variable {platform : Platform V}

theorem isTerminal_event (progress : Progress V) : progress.event.isTerminal = false := by
  cases progress <;> rfl

theorem onEvent_of_not_terminal {event : AgentEvent V} (h : event.isTerminal = false)
    (record : RunRecord V) : RunRecord.onEvent platform event record = record := by
  cases event with
  | token | toolCall => rfl
  | final | error => cases h

theorem status_onReturn (record : RunRecord V) : record.onReturn.status ≠ .running := by
  rw [RunRecord.onReturn]
  split_ifs with hr
  · simp
  · exact hr

theorem forward_drive (next : Bool → Option (Json V) → Billing → Generator Billing (AgentEvent V))
    (agent : AgentRun V) (b : Billing) :
    ∃ front state, front.map Prod.snd = agent.progress.map (·.2.event) ∧
      forward next (drive agent) false none b = match agent.ending with
        | .final data => (yielded state (.final data) (next false (some data) state)).after front
        | .raises exc =>
          (yielded state (.error (executorError exc)) (next true none state)).after front := by
  obtain ⟨progress, spent, ending⟩ := agent
  induction progress generalizing b with
  | nil =>
    refine ⟨[], b.spend spent, rfl, ?_⟩
    cases ending with
    | final data => rfl
    | raises exc => rfl
  | cons entry progress ih =>
    obtain ⟨usage, event⟩ := entry
    obtain ⟨front, state, hfr, hf⟩ := ih (b.spend usage)
    refine ⟨(b.spend usage, event.event) :: front, state, ?_, ?_⟩
    · rw [List.map_cons, hfr]
      rfl
    · have hs : forward next (drive ⟨(usage, event) :: progress, spent, ending⟩) false none b =
          .yielded (b.spend usage) event.event
            (forward next (drive ⟨progress, spent, ending⟩) false none (b.spend usage)) := by
        cases event <;> rfl
      rw [hs, hf]
      cases ending <;> rfl

variable {front : List (Billing × AgentEvent V)} {correlationId : Option String}

/-- The events of a front are those an agent yields before its end. -/
theorem not_terminal_of_progress {progress : List (Usage × Progress V)}
    (hf : front.map Prod.snd = progress.map (·.2.event)) :
    ∀ entry ∈ front, AgentEvent.isTerminal entry.2 = false := by
  intro entry he
  have hm : entry.2 ∈ front.map Prod.snd := List.mem_map_of_mem he
  rw [hf] at hm
  obtain ⟨source, -, heq⟩ := List.mem_map.mp hm
  rw [← heq]
  exact isTerminal_event source.2

/-- The front of a first step has an event the stream ends with unless all can be encoded. -/
theorem endsStream_front (hf : ∀ entry ∈ front, AgentEvent.isTerminal entry.2 = false) :
    (∀ entry ∈ front, endsStream platform correlationId entry.2 = false) ↔
      ((front.map Prod.snd).all fun event =>
        (encodeFrame platform correlationId event).isSome) = true := by
  rw [List.all_map, List.all_eq_true]
  refine forall₂_congr fun entry he => ?_
  rw [endsStream, hf entry he, Bool.false_or, Option.isNone_eq_false_iff]
  rfl

/-- A first step that fails ends its run with an error, behind what its agent yielded. -/
theorem runSteps_of_firstFails {steps : List WorkflowStep} (hs : steps ≠ []) {input : Json V}
    (h : firstFails platform input steps = true) :
    ∃ front state exc, (∀ entry ∈ front, AgentEvent.isTerminal entry.2 = false) ∧
      ((front.map Prod.snd).all fun event =>
        (encodeFrame platform correlationId event).isSome) =
          firstEncodes platform input correlationId steps ∧
      runSteps platform steps input Billing.start =
        (yielded state (.error exc) (.returned state)).after front := by
  cases steps with
  | nil => exact absurd rfl hs
  | cons step rest =>
    rw [runSteps]
    cases hp : project platform step.inputMap input with
    | error exc =>
      exact ⟨[], _, _, List.forall_mem_nil _, by rw [firstEncodes, hp]; rfl, rfl⟩
    | ok stepInput =>
      have hc : closeStep platform Billing.start = Billing.start := rfl
      simp only [forAgent, hc]
      cases hbe : platform.beginStep Billing.start.charges step.agentKey with
      | error exc =>
        have hb : platform.beginStep [] step.agentKey = .error exc := hbe
        exact ⟨[], _, _, List.forall_mem_nil _, by rw [firstEncodes, hp, hb]; rfl, rfl⟩
      | ok route =>
        have hb : platform.beginStep [] step.agentKey = .ok route := hbe
        cases hcr : platform.create step.agentKey with
        | error exc =>
          exact ⟨[], _, _, List.forall_mem_nil _, by rw [firstEncodes, hp, hb, hcr]; rfl, rfl⟩
        | ok agent =>
          simp only
          obtain ⟨front, state, hfr, hf⟩ := forward_drive _ (agent stepInput) _
          rw [hf]
          simp only [firstFails, hp, hb, hcr] at h
          cases he : (agent stepInput).ending with
          | final data =>
            rw [he] at h
            cases h
          | raises exc =>
            refine ⟨front, state, _, not_terminal_of_progress hfr, ?_, rfl⟩
            rw [hfr, firstEncodes, hp, hb, hcr, List.all_map]
            rfl

/-- A first step that completes yields its output behind what its agent yielded. -/
theorem runSteps_of_completes {steps : List WorkflowStep} (hs : steps ≠ []) {input : Json V}
    (h : firstFails platform input steps = false) :
    ∃ front state data resumed, (∀ entry ∈ front, AgentEvent.isTerminal entry.2 = false) ∧
      runSteps platform steps input Billing.start =
        (yielded state (.final data) resumed).after front := by
  cases steps with
  | nil => exact absurd rfl hs
  | cons step rest =>
    rw [firstFails] at h
    split at h
    · rename_i stepInput route agent hp hbe hc
      obtain ⟨front, state, hfr, hf⟩ := forward_drive (fun failed output b =>
        if failed then .returned b
        else runSteps platform rest ((output.map (update input)).getD input) b)
        (agent stepInput) ⟨[step.agentKey], [], some ⟨step.agentKey, route, ⟨0, 0⟩⟩⟩
      split at h
      · rename_i data he
        rw [he] at hf
        refine ⟨front, state, data, runSteps platform rest (update input data) state,
          not_terminal_of_progress hfr, ?_⟩
        have hcl : closeStep platform Billing.start = Billing.start := rfl
        have hb : platform.beginStep Billing.start.charges step.agentKey = .ok route := hbe
        simp only [runSteps, hp, forAgent, hcl, hb, hc]
        exact hf
      · cases h
    · cases h

/-- No frame of progress or of an error carries an output. -/
theorem final?_encodeFrame {event : AgentEvent V} (h : event.output = none) :
    (encodeFrame platform correlationId event).bind Frame.final? = none := by
  rw [encodeFrame]
  split_ifs
  · cases event with
    | token | toolCall | error => rfl
    | final => cases h
  · rfl

theorem relay_after_progress (hf : ∀ entry ∈ front, AgentEvent.isTerminal entry.2 = false)
    (g : Generator Billing (AgentEvent V)) (record : RunRecord V) :
    (g.after front).relay (RunRecord.onEvent platform) RunRecord.onReturn record =
      (g.relay (RunRecord.onEvent platform) RunRecord.onReturn record).after
        (front.map fun entry => ((entry.1, record), entry.2)) := by
  apply relay_after
  intro entry he
  exact onEvent_of_not_terminal (hf entry he) record

/-- What a client reads of a run that begins so: the progress and the first end. -/
theorem readUntil_events (hf : ∀ entry ∈ front, AgentEvent.isTerminal entry.2 = false)
    (hen : ∀ entry ∈ front, endsStream platform correlationId entry.2 = false)
    {event : AgentEvent V} (he : event.isTerminal = true) (state : Billing)
    (resumed : Generator Billing (AgentEvent V)) :
    (((yielded state event resumed).after front).relay (RunRecord.onEvent platform)
        RunRecord.onReturn RunRecord.start).readUntil (endsStream platform correlationId) =
      (front.map Prod.snd ++ [event],
        state, RunRecord.onEvent platform event RunRecord.start) := by
  have hs : endsStream platform correlationId event = true := by
    rw [endsStream, he, Bool.true_or]
  rw [relay_after_progress hf, readUntil_after, List.map_map]
  · rw [relay, readUntil, if_pos hs]
    rfl
  · intro entry hentry
    obtain ⟨old, hold, rfl⟩ := List.mem_map.mp hentry
    exact hen old hold

/-- A stream that ends inside the progress of the first step leaves its run running. -/
theorem status_of_endsStream (hf : ∀ entry ∈ front, AgentEvent.isTerminal entry.2 = false)
    (hen : ¬ ∀ entry ∈ front, endsStream platform correlationId entry.2 = false)
    (g : Generator Billing (AgentEvent V)) :
    (((g.after front).relay (RunRecord.onEvent platform) RunRecord.onReturn
      RunRecord.start).readUntil (endsStream platform correlationId)).2.2.status = .running := by
  simp only [not_forall, Bool.not_eq_false] at hen
  obtain ⟨entry, he, hs⟩ := hen
  rw [relay_after_progress hf]
  obtain ⟨last, hl, heq⟩ := @readUntil_after_of_stop _ _ (endsStream platform correlationId) _
    ⟨_, List.mem_map_of_mem (f := fun entry => ((entry.1, (RunRecord.start : RunRecord V)),
      entry.2)) he, hs⟩ (g.relay (RunRecord.onEvent platform) RunRecord.onReturn RunRecord.start)
  rw [heq]
  obtain ⟨old, -, rfl⟩ := List.mem_map.mp hl
  rfl

/-- Streaming a run leaves behind what collecting it does, with every step's output in the
stream, exactly when the first step fails and all it yields until then can be encoded. -/
theorem stream_agrees_iff (platform : Platform V) (definition : WorkflowDefinition)
    (input : Json V) (correlationId : Option String) :
    StreamAgrees platform definition input correlationId ↔
      firstFails platform input definition.steps = true ∧
        firstEncodes platform input correlationId definition.steps = true := by
  constructor
  · intro ha
    have hs : (sseStream platform definition input correlationId).1.status ≠ .running := by
      rw [ha.1, collect, events, drain_relay]
      exact status_onReturn _
    rw [sseStream, events] at hs
    cases hc : firstFails platform input definition.steps with
    | false =>
      obtain ⟨front, state, data, resumed, hf, hrun⟩ :=
        runSteps_of_completes definition.nonempty hc
      rw [hrun] at hs
      by_cases hen : ∀ entry ∈ front, endsStream platform correlationId entry.2 = false
      · rw [readUntil_events hf hen rfl] at hs
        exact absurd rfl hs
      · exact absurd (status_of_endsStream hf hen _) hs
    | true =>
      obtain ⟨front, state, exc, hf, henc, hrun⟩ :=
        @runSteps_of_firstFails _ platform correlationId _ definition.nonempty _ hc
      refine ⟨rfl, ?_⟩
      rw [← henc, ← endsStream_front hf]
      by_contra hen
      rw [hrun] at hs
      exact hs (status_of_endsStream hf hen _)
  · rintro ⟨hfa, hfe⟩
    obtain ⟨front, state, exc, hf, henc, hrun⟩ :=
      @runSteps_of_firstFails _ platform correlationId _ definition.nonempty _ hfa
    have hen := (endsStream_front hf).mpr (henc.trans hfe)
    have ht : (AgentEvent.error exc : AgentEvent V).isTerminal = true := rfl
    have hr := readUntil_events hf hen ht state (.returned state)
    have hd : (events platform definition input).drain.2 =
        (state, RunRecord.onEvent platform (.error exc) RunRecord.start) := by
      rw [events, hrun, relay_after_progress hf, drain_after]
      rfl
    constructor
    · rw [sseStream, collect, hd, events, hrun, hr]
    · rw [sseStream, collect, hd, events, hrun, hr]
      simp only [List.filterMap_filterMap]
      refine List.filterMap_eq_nil_iff.mpr fun event he => final?_encodeFrame ?_
      rcases List.mem_append.mp he with he | he
      · obtain ⟨entry, hentry, rfl⟩ := List.mem_map.mp he
        have hp := hf entry hentry
        cases hc : entry.2 with
        | token | toolCall | error => rfl
        | final =>
          rw [hc] at hp
          cases hp
      · rw [List.mem_singleton.mp he]
        rfl

end Agreement

private def textOf (text : String) : Json String := AList.insert "text" text ∅

private def drafting : Platform String where
  repr := id
  encodes := fun _ => true
  beginStep := fun _ _ => .ok ⟨"openai", "gpt-4.1"⟩
  create := fun key => .ok fun _ =>
    ⟨[(⟨10, 5⟩, .token (textOf "Dear"))], ⟨0, 5⟩, .final (textOf key)⟩
  costMicros := fun _ usage => usage.total
  appends := fun _ => true

private def letter : WorkflowDefinition where
  key := "letter"
  steps := [⟨"writer", []⟩, ⟨"editor", [("draft", .key "text")]⟩]
  nonempty := List.cons_ne_nil _ _

theorem second_step_is_dropped :
    (collect drafting letter (textOf "hello")).1.executed = ["writer", "editor"] ∧
    (collect drafting letter (textOf "hello")).1.charges.length = 2 ∧
    (collect drafting letter (textOf "hello")).1.status = .completed ∧
    (sseStream drafting letter (textOf "hello") none).1.executed = ["writer"] ∧
    (sseStream drafting letter (textOf "hello") none).1.charges.length = 1 ∧
    (sseStream drafting letter (textOf "hello") none).1.status = .running ∧
    ¬ StreamAgrees drafting letter (textOf "hello") none := by
  have hc : (collect drafting letter (textOf "hello")).1.executed =
      ["writer", "editor"] := by
    decide +kernel
  have hs : (sseStream drafting letter (textOf "hello") none).1.executed = ["writer"] := by
    decide +kernel
  refine ⟨hc, by decide +kernel, by decide +kernel, hs, by decide +kernel,
    by decide +kernel, ?_⟩
  intro ha
  rw [ha.1, hc] at hs
  exact absurd hs (by decide)

end Aizzak.WorkflowStreams
