import Aizzak.EventRuns

/-!
The quota slots of agent turns and workflow steps. A turn owns its slot from its admission on:
first the code before the stream, then the `finally` of the stream that is handed back. A workflow
keeps the slot of the open step beside the engine and settles it at the next step or in its own
`finally`. A step of the models is what runs between two awaits or two pulls; a cancellation meets
the code at an await, a close at a `yield` or before the first pull.
-/
namespace Aizzak.SlotSettlement

open EventRuns List

inductive Settlement where
  | commit (tokens : ℕ)
  | release
deriving DecidableEq

/-- What was admitted under a slot, `none` where no quota is enforced, and the tokens of each
provider call it made. -/
structure Admitted where
  slot : Option ℕ
  calls : List ℕ
deriving DecidableEq

def giveBack : Option ℕ → List (ℕ × Settlement)
  | none => []
  | some slot => [(slot, .release)]

def capture (admitted : Admitted) : List (ℕ × Settlement) :=
  if 0 < admitted.calls.sum then
    admitted.slot.toList.map fun slot => (slot, .commit admitted.calls.sum)
  else giveBack admitted.slot

def Admitted.beginCall (admitted : Admitted) (tokens : ℕ) : Admitted :=
  { admitted with calls := admitted.calls ++ [tokens] }

def Admitted.meterCall (admitted : Admitted) (tokens : ℕ) : Admitted :=
  { admitted with calls := admitted.calls.dropLast ++ [tokens] }

/-- Where a turn stands: before its slot is admitted, opening its thread, with the stream handed
back, awaiting the agent, at a `yield`, closing the agent at the deadline, writing to the thread
(before a `yield`, before the last one, before an exception goes on), in the `finally` that keeps
what was streamed, or at its end. -/
inductive TurnStage where
  | preflight
  | opening
  | handed
  | pulling
  | suspended
  | closing
  | writing
  | writingLast
  | lastYield
  | raising
  | cutting
  | ended
deriving DecidableEq

structure Turn where
  stage : TurnStage
  admitted : Admitted
  terminal : Bool
  settlements : List (ℕ × Settlement)

namespace Turn

def start : Turn := ⟨.preflight, ⟨none, []⟩, false, []⟩

def capture (t : Turn) : Turn :=
  { t with
    stage := .ended
    settlements := t.settlements ++ SlotSettlement.capture t.admitted }

def unwind (t : Turn) : Turn := if t.terminal then t.capture else { t with stage := .cutting }

end Turn

inductive TurnEvent where
  | refuse
  | admitted (slot : Option ℕ)
  | openFails
  | opened
  | pull
  | beginCall (tokens : ℕ)
  | meterCall (tokens : ℕ)
  | yieldsProgress
  | yieldsTerminal
  | deadline
  | producerClosed
  | raises
  | written
  | producerEnds
  | cut
  | cancel
  | close

def stepTurn (t : Turn) : TurnEvent → Option Turn
  | .refuse =>
    match t.stage with
    | .preflight => some { t with stage := .ended }
    | _ => none
  | .admitted slot =>
    match t.stage with
    | .preflight => some { t with stage := .opening, admitted := ⟨slot, []⟩ }
    | _ => none
  | .openFails =>
    match t.stage with
    | .opening =>
      some { t with
        stage := .ended
        settlements := t.settlements ++ giveBack t.admitted.slot }
    | _ => none
  | .opened =>
    match t.stage with
    | .opening => some { t with stage := .handed }
    | _ => none
  | .pull =>
    match t.stage with
    | .handed | .suspended => some { t with stage := .pulling }
    | .lastYield => some t.unwind
    | _ => none
  | .beginCall tokens =>
    match t.stage with
    | .pulling => some { t with admitted := t.admitted.beginCall tokens }
    | _ => none
  | .meterCall tokens =>
    match t.stage with
    | .pulling => some { t with admitted := t.admitted.meterCall tokens }
    | _ => none
  | .yieldsProgress =>
    match t.stage with
    | .pulling => some { t with stage := .suspended }
    | _ => none
  | .yieldsTerminal =>
    match t.stage with
    | .pulling => some { t with stage := .writing, terminal := true }
    | _ => none
  | .deadline =>
    match t.stage with
    | .pulling => some { t with stage := .closing }
    | _ => none
  | .producerClosed =>
    match t.stage with
    | .closing => some { t with stage := .writingLast, terminal := true }
    | _ => none
  | .raises =>
    match t.stage with
    | .pulling => some { t with stage := .raising }
    | _ => none
  | .written =>
    match t.stage with
    | .writing => some { t with stage := .suspended }
    | .writingLast => some { t with stage := .lastYield }
    | .raising => some t.unwind
    | _ => none
  | .producerEnds =>
    match t.stage with
    | .pulling => some t.unwind
    | _ => none
  | .cut =>
    match t.stage with
    | .cutting => some t.capture
    | _ => none
  | .cancel =>
    match t.stage with
    | .opening | .cutting => some { t with stage := .ended }
    | .pulling | .closing | .writing | .writingLast | .raising => some t.unwind
    | _ => none
  | .close =>
    match t.stage with
    | .handed => some { t with stage := .ended }
    | .suspended | .lastYield => some t.unwind
    | _ => none

/-- Where a workflow run stands: not pulled yet, charging the step before, resolving the provider
and the quota of a step, driving the engine, at a `yield`, writing a step's output, closing the
engine at the deadline, at the `yield` after that, in its `finally`, or at its end. -/
inductive FlowStage where
  | fresh
  | charging
  | resolving
  | driving
  | suspended
  | persisting
  | closing
  | lastYield
  | finishing
  | ended
deriving DecidableEq

structure Flow where
  stage : FlowStage
  openStep : Option Admitted
  begun : List Admitted
  settlements : List (ℕ × Settlement)

namespace Flow

def start : Flow := ⟨.fresh, none, [], []⟩

def closeStep (f : Flow) : Flow :=
  match f.openStep with
  | none => f
  | some step => { f with openStep := none, settlements := f.settlements ++ capture step }

def finish (f : Flow) : Flow := { f.closeStep with stage := .finishing }

end Flow

inductive FlowEvent where
  | pull
  | nextStep
  | charged
  | refused
  | admitted (slot : Option ℕ)
  | beginCall (tokens : ℕ)
  | meterCall (tokens : ℕ)
  | yieldsProgress
  | yieldsFinal
  | persisted
  | deadline
  | producerClosed
  | engineEnds
  | cancel
  | close
  | finished

def stepFlow (f : Flow) : FlowEvent → Option Flow
  | .pull =>
    match f.stage with
    | .fresh | .suspended => some { f with stage := .driving }
    | .lastYield => some f.finish
    | _ => none
  | .nextStep =>
    match f.stage with
    | .driving => some { f.closeStep with stage := .charging }
    | _ => none
  | .charged =>
    match f.stage with
    | .charging => some { f with stage := .resolving }
    | _ => none
  | .refused =>
    match f.stage with
    | .resolving => some { f with stage := .driving }
    | _ => none
  | .admitted slot =>
    match f.stage with
    | .resolving =>
      if ∀ step ∈ f.begun, ∀ i ∈ step.slot, i ∉ slot then
        some { f with
          stage := .driving
          openStep := some ⟨slot, []⟩
          begun := f.begun ++ [⟨slot, []⟩] }
      else none
    | _ => none
  | .beginCall tokens =>
    match f.stage, f.openStep with
    | .driving, some step =>
      some { f with
        openStep := some (step.beginCall tokens)
        begun := f.begun.dropLast ++ (f.begun.getLast?.map (·.beginCall tokens)).toList }
    | _, _ => none
  | .meterCall tokens =>
    match f.stage, f.openStep with
    | .driving, some step =>
      some { f with
        openStep := some (step.meterCall tokens)
        begun := f.begun.dropLast ++ (f.begun.getLast?.map (·.meterCall tokens)).toList }
    | _, _ => none
  | .yieldsProgress =>
    match f.stage with
    | .driving => some { f with stage := .suspended }
    | _ => none
  | .yieldsFinal =>
    match f.stage with
    | .driving => some { f with stage := .persisting }
    | _ => none
  | .persisted =>
    match f.stage with
    | .persisting => some { f with stage := .suspended }
    | _ => none
  | .deadline =>
    match f.stage with
    | .charging | .resolving | .driving => some { f with stage := .closing }
    | _ => none
  | .producerClosed =>
    match f.stage with
    | .closing => some { f with stage := .lastYield }
    | _ => none
  | .engineEnds =>
    match f.stage with
    | .driving => some f.finish
    | _ => none
  | .cancel =>
    match f.stage with
    | .charging | .resolving | .driving | .persisting | .closing => some f.finish
    | _ => none
  | .close =>
    match f.stage with
    | .fresh => some { f with stage := .ended }
    | .suspended | .lastYield => some f.finish
    | _ => none
  | .finished =>
    match f.stage with
    | .finishing => some { f with stage := .ended }
    | _ => none

def callsOn (slot : ℕ) (settlements : List (ℕ × Settlement)) : List (ℕ × Settlement) :=
  settlements.filter (·.1 = slot)

/-- The slot is committed with these tokens, or released if there are none, and that is all. -/
def SettledOnce (slot tokens : ℕ) (settlements : List (ℕ × Settlement)) : Prop :=
  callsOn slot settlements = [(slot, if 0 < tokens then .commit tokens else .release)]

/-- No cancellation meets a turn with a slot before its stream is handed back or in the `finally`
that keeps what was streamed, and its stream is pulled at least once. -/
def keepsSlot (t : Turn) : TurnEvent → Bool
  | .cancel => t.admitted.slot.isNone || (t.stage ≠ .opening && t.stage ≠ .cutting)
  | .close => t.admitted.slot.isNone || t.stage ≠ .handed
  | .refuse | .admitted _ | .openFails | .opened | .pull | .beginCall _ | .meterCall _
  | .yieldsProgress | .yieldsTerminal | .deadline | .producerClosed | .raises | .written
  | .producerEnds | .cut => true

def KeepsSlot (t : Turn) (e : TurnEvent) : Prop := keepsSlot t e = true

instance (t : Turn) (e : TurnEvent) : Decidable (KeepsSlot t e) :=
  inferInstanceAs (Decidable (_ = true))

section Turns

variable {s t : Turn} {e : TurnEvent}

/-- Before its end a turn has settled nothing; at its end, its slot. No provider is called before
the first pull. -/
structure Turn.Accounted (t : Turn) : Prop where
  unadmitted : t.stage = .preflight → t.admitted.slot = none
  early : t.stage = .preflight ∨ t.stage = .opening ∨ t.stage = .handed → t.admitted.calls = []
  unsettled : t.stage ≠ .ended → t.settlements = []
  settled : t.stage = .ended → t.settlements = SlotSettlement.capture t.admitted

variable {admitted : Admitted}

theorem capture_of_no_slot (h : admitted.slot = none) :
    capture admitted = [] := by
  rw [capture, h]
  split_ifs <;> rfl

theorem capture_of_no_calls (h : admitted.calls = []) :
    capture admitted = giveBack admitted.slot := by
  rw [capture, h, sum_nil, if_neg (Nat.lt_irrefl 0)]

theorem Turn.Accounted.start : Turn.start.Accounted := by
  constructor <;> simp [Turn.start]

theorem Turn.Accounted.move (hs : s.Accounted) {stage : TurnStage} {terminal : Bool}
    (ho : s.stage ≠ .ended) (hst : stage ≠ .preflight ∧ stage ≠ .ended)
    (he : stage = .preflight ∨ stage = .opening ∨ stage = .handed → admitted.calls = []) :
    Turn.Accounted ⟨stage, admitted, terminal, s.settlements⟩ :=
  ⟨fun hp => absurd hp hst.1, he, fun _ => hs.unsettled ho,
    fun hen => absurd hen hst.2⟩

theorem Turn.Accounted.capture (hs : s.Accounted) (ho : s.stage ≠ .ended) :
    s.capture.Accounted := by
  refine ⟨nofun, ?_, fun he => absurd rfl he, ?_⟩
  · simp [Turn.capture]
  · intro _
    simp only [Turn.capture, hs.unsettled ho, nil_append]

theorem Turn.Accounted.unwind (hs : s.Accounted) (ho : s.stage ≠ .ended) :
    s.unwind.Accounted := by
  rw [Turn.unwind]
  split_ifs
  · exact hs.capture ho
  · exact hs.move ho ⟨nofun, nofun⟩ (by simp)

theorem Turn.Accounted.stop (hs : s.Accounted) (ho : s.stage ≠ .ended)
    (hsl : s.admitted.slot = none) : Turn.Accounted { s with stage := .ended } := by
  refine ⟨nofun, by simp, fun he => absurd rfl he, ?_⟩
  intro _
  rw [capture_of_no_slot hsl]
  exact hs.unsettled ho

theorem stepTurn_of_ended (h : s.stage = .ended) (e : TurnEvent) : stepTurn s e = none := by
  cases e <;> simp [stepTurn, h]

/-- A turn cancelled at a wrong moment ends with its slot unsettled. -/
theorem ended_of_not_keepsSlot (hs : s.Accounted) (hl : ¬ KeepsSlot s e)
    (h : stepTurn s e = some t) :
    t.stage = .ended ∧ t.settlements = [] ∧ ∃ slot, t.admitted.slot = some slot := by
  have hsl : ∀ stage : TurnStage, s.admitted.slot ≠ none → s.stage = stage → stage ≠ .ended →
      some { s with stage := .ended } = some t →
      t.stage = .ended ∧ t.settlements = [] ∧ ∃ slot, t.admitted.slot = some slot := by
    intro stage hso hst ho ht
    cases ht
    exact ⟨rfl, hs.unsettled (hst ▸ ho), Option.ne_none_iff_exists'.mp hso⟩
  cases e with
  | cancel =>
    simp only [KeepsSlot, keepsSlot, Bool.or_eq_true, Bool.and_eq_true, Option.isNone_iff_eq_none,
      decide_eq_true_eq, not_or, not_and_or, not_not] at hl
    obtain ⟨hso, hst | hst⟩ := hl
    · simp only [stepTurn, hst] at h
      exact hsl _ hso hst nofun h
    · simp only [stepTurn, hst] at h
      exact hsl _ hso hst nofun h
  | close =>
    simp only [KeepsSlot, keepsSlot, Bool.or_eq_true, Option.isNone_iff_eq_none,
      decide_eq_true_eq, not_or, not_not] at hl
    obtain ⟨hso, hst⟩ := hl
    simp only [stepTurn, hst] at h
    exact hsl _ hso hst nofun h
  | refuse | admitted | openFails | opened | pull | beginCall | meterCall | yieldsProgress
  | yieldsTerminal | deadline | producerClosed | raises | written | producerEnds | cut =>
    exact absurd rfl hl

/-- While the slot is kept, a turn settles it at its end. -/
theorem Turn.Accounted.step (hs : s.Accounted) (hk : KeepsSlot s e)
    (h : stepTurn s e = some t) : t.Accounted := by
  cases e with
  | refuse =>
    simp only [stepTurn] at h
    split at h
    · rename_i hst
      cases h
      exact hs.stop (by simp [hst]) (hs.unadmitted hst)
    · cases h
  | admitted slot =>
    simp only [stepTurn] at h
    split at h
    · rename_i hst
      cases h
      exact hs.move (by simp [hst]) ⟨nofun, nofun⟩ (fun _ => rfl)
    · cases h
  | openFails =>
    simp only [stepTurn] at h
    split at h
    · rename_i hst
      cases h
      refine ⟨nofun, by simp, fun he => absurd rfl he, ?_⟩
      intro _
      rw [capture_of_no_calls (hs.early (by simp [hst])), hs.unsettled (by simp [hst])]
      rfl
    · cases h
  | opened =>
    simp only [stepTurn] at h
    split at h
    · rename_i hst
      cases h
      exact hs.move (by simp [hst]) ⟨nofun, nofun⟩ (fun _ => hs.early (by simp [hst]))
    · cases h
  | pull | written =>
    simp only [stepTurn] at h
    split at h
    all_goals cases h
    all_goals rename_i hst
    all_goals first
      | exact hs.unwind (by simp [hst])
      | exact hs.move (by simp [hst]) ⟨nofun, nofun⟩ (by simp)
  | beginCall tokens | meterCall tokens | yieldsProgress | yieldsTerminal | deadline
  | producerClosed | raises =>
    simp only [stepTurn] at h
    split at h
    · rename_i hst
      cases h
      exact hs.move (by simp [hst]) (by simp [hst]) (by simp [hst])
    · cases h
  | producerEnds =>
    simp only [stepTurn] at h
    split at h
    · rename_i hst
      cases h
      exact hs.unwind (by simp [hst])
    · cases h
  | cut =>
    simp only [stepTurn] at h
    split at h
    · rename_i hst
      cases h
      exact hs.capture (by simp [hst])
    · cases h
  | cancel | close =>
    simp only [stepTurn] at h
    split at h
    all_goals cases h
    all_goals rename_i hst
    all_goals first
      | exact hs.unwind (by simp [hst])
      | exact hs.stop (by simp [hst]) (by simpa [KeepsSlot, keepsSlot, hst] using hk)

theorem callsOn_capture_of_ne {slot : ℕ} (h : admitted.slot ≠ some slot) :
    callsOn slot (capture admitted) = [] := by
  rw [callsOn, filter_eq_nil_iff]
  intro entry he
  obtain ⟨own, calls⟩ := admitted
  cases own with
  | none =>
    rw [capture_of_no_slot rfl] at he
    cases he
  | some own =>
    have hne : own ≠ slot := fun heq => h (congrArg some heq)
    rw [capture] at he
    split_ifs at he
    · rw [mem_singleton.mp he]
      simpa using hne
    · rw [mem_singleton.mp he]
      simpa using hne

theorem settledOnce_capture {slot : ℕ} (h : admitted.slot = some slot) :
    SettledOnce slot admitted.calls.sum (capture admitted) := by
  rw [SettledOnce, callsOn, capture, h]
  split_ifs <;> simp [giveBack]

theorem length_callsOn_capture (admitted : Admitted) (slot : ℕ) :
    (callsOn slot (capture admitted)).length ≤ 1 := by
  by_cases h : admitted.slot = some slot
  · rw [settledOnce_capture h]
    exact Nat.le_refl 1
  · rw [callsOn_capture_of_ne h]
    exact Nat.zero_le 1

/-- The slot of a turn is settled once when the turn ends, and never twice. -/
def Turn.SettlesOnce (t : Turn) : Prop :=
  (t.stage = .ended → ∀ slot, t.admitted.slot = some slot →
    SettledOnce slot t.admitted.calls.sum t.settlements) ∧
  ∀ slot, (callsOn slot t.settlements).length ≤ 1

theorem Turn.Accounted.settlesOnce (ht : t.Accounted) : t.SettlesOnce := by
  constructor
  · intro he slot hs
    rw [ht.settled he]
    exact settledOnce_capture hs
  · intro slot
    by_cases he : t.stage = .ended
    · rw [ht.settled he]
      exact length_callsOn_capture _ _
    · rw [ht.unsettled he]
      exact Nat.zero_le 1

/-- A turn that settled its slot once met no cancellation at a wrong moment. -/
theorem guarded_of_settlesOnce {es : List TurnEvent} (hs : s.Accounted)
    (hrun : run stepTurn s es = some t) (hse : t.SettlesOnce) :
    Guarded stepTurn KeepsSlot s es := by
  induction es generalizing s with
  | nil => trivial
  | cons e es ih =>
    obtain ⟨u, hu, hr⟩ := run_cons_eq_some hrun
    by_cases hk : KeepsSlot s e
    · refine ⟨hk, ?_⟩
      rw [hu]
      exact ih (hs.step hk hu) hr
    · obtain ⟨he, hn, slot, hsl⟩ := ended_of_not_keepsSlot hs hk hu
      cases es with
      | nil =>
        cases hr
        have ho := hse.1 he slot hsl
        rw [SettledOnce, hn] at ho
        cases ho
      | cons e' es =>
        obtain ⟨v, hv, -⟩ := run_cons_eq_some hr
        rw [stepTurn_of_ended he] at hv
        cases hv

theorem settlesOnce_iff_guarded {es : List TurnEvent}
    (hrun : run stepTurn Turn.start es = some t) :
    t.SettlesOnce ↔ Guarded stepTurn KeepsSlot Turn.start es := by
  constructor
  · exact guarded_of_settlesOnce Turn.Accounted.start hrun
  · intro hg
    have hst : ∀ s e t, Turn.Accounted s → KeepsSlot s e → stepTurn s e = some t →
        t.Accounted := fun _ _ _ hs hk h => hs.step hk h
    exact (run_invariant hst hg hrun Turn.Accounted.start).settlesOnce

end Turns

section Flows

variable {s f : Flow} {e : FlowEvent}

def FlowStage.isClosed : FlowStage → Bool
  | .fresh | .charging | .resolving | .finishing | .ended => true
  | .driving | .suspended | .persisting | .closing | .lastYield => false

/-- Every step but the open one is settled, under slots of their own. -/
structure Flow.Accounted (f : Flow) : Prop where
  distinct : (f.begun.filterMap (·.slot)).Nodup
  closed : f.stage.isClosed = true → f.openStep = none
  settled : ∃ front, f.begun = front ++ f.openStep.toList ∧ f.settlements = front.flatMap capture

theorem Flow.Accounted.start : Flow.start.Accounted :=
  ⟨nodup_nil, fun _ => rfl, [], rfl, rfl⟩

theorem Flow.Accounted.move (hs : s.Accounted) {stage : FlowStage}
    (hc : stage.isClosed = true → s.stage.isClosed = true) :
    Flow.Accounted { s with stage := stage } :=
  ⟨hs.distinct, fun h => hs.closed (hc h), hs.settled⟩

theorem openStep_closeStep (f : Flow) : f.closeStep.openStep = none := by
  rw [Flow.closeStep]
  split
  · assumption
  · rfl

theorem Flow.Accounted.closeStep (hs : s.Accounted) (stage : FlowStage) :
    Flow.Accounted { s.closeStep with stage := stage } := by
  refine ⟨?_, fun _ => openStep_closeStep s, ?_⟩
  · rw [Flow.closeStep]
    split
    · exact hs.distinct
    · exact hs.distinct
  · obtain ⟨front, hb, hse⟩ := hs.settled
    rw [Flow.closeStep]
    split
    · exact ⟨front, hb, hse⟩
    · rename_i step ho
      refine ⟨front ++ [step], ?_, ?_⟩
      · simp [hb, ho]
      · simp [hse]

theorem Flow.Accounted.meter (hs : s.Accounted) {step : Admitted} (ho : s.openStep = some step)
    (change : Admitted → Admitted) (hc : ∀ admitted, (change admitted).slot = admitted.slot)
    (hst : s.stage.isClosed = false) :
    Flow.Accounted { s with
      openStep := some (change step)
      begun := s.begun.dropLast ++ (s.begun.getLast?.map change).toList } := by
  obtain ⟨front, hb, hse⟩ := hs.settled
  rw [ho, Option.toList_some] at hb
  have hsl : [change step].filterMap (·.slot) = [step].filterMap (·.slot) := by
    simp [filterMap_cons, hc]
  have hd := hs.distinct
  rw [hb, filterMap_append, ← hsl] at hd
  constructor
  · simpa [hb] using hd
  · simp [hst]
  · exact ⟨front, by simp [hb], hse⟩

/-- A run settles each step under its own slot. -/
theorem Flow.Accounted.step (hs : s.Accounted) (h : stepFlow s e = some f) : f.Accounted := by
  cases e with
  | pull | nextStep | charged | refused | yieldsProgress | yieldsFinal | persisted | deadline
  | producerClosed | engineEnds | cancel | close | finished =>
    simp only [stepFlow] at h
    split at h
    all_goals cases h
    all_goals rename_i hst
    all_goals first
      | exact hs.closeStep _
      | exact hs.move (by simp [hst, FlowStage.isClosed])
  | admitted slot =>
    simp only [stepFlow] at h
    split at h
    · rename_i hst
      split_ifs at h with hnew
      cases h
      have hn := hs.closed (by rw [hst]; rfl)
      obtain ⟨front, hb, hse⟩ := hs.settled
      rw [hn, Option.toList_none, append_nil] at hb
      refine ⟨?_, nofun, front, by simp [hb], hse⟩
      rw [filterMap_append, nodup_append]
      refine ⟨hs.distinct, ?_, ?_⟩
      · cases slot <;> simp
      · intro i hi j hj
        obtain ⟨step, hsp, hi⟩ := mem_filterMap.mp hi
        have hf := hnew step hsp i hi
        cases slot with
        | none => simp at hj
        | some own =>
          obtain rfl : j = own := by simpa using hj
          simpa [eq_comm] using hf
    · cases h
  | beginCall tokens =>
    simp only [stepFlow] at h
    split at h
    · rename_i step hst ho
      cases h
      exact hs.meter ho (·.beginCall tokens) (fun _ => rfl) (by rw [hst]; rfl)
    · cases h
  | meterCall tokens =>
    simp only [stepFlow] at h
    split at h
    · rename_i step hst ho
      cases h
      exact hs.meter ho (·.meterCall tokens) (fun _ => rfl) (by rw [hst]; rfl)
    · cases h

theorem callsOn_append (slot : ℕ) (xs ys : List (ℕ × Settlement)) :
    callsOn slot (xs ++ ys) = callsOn slot xs ++ callsOn slot ys :=
  filter_append ..

theorem callsOn_flatMap_of_absent {steps : List Admitted} {slot : ℕ}
    (h : slot ∉ steps.filterMap (·.slot)) : callsOn slot (steps.flatMap capture) = [] := by
  induction steps with
  | nil => rfl
  | cons step steps ih =>
    have hne : step.slot ≠ some slot := by
      intro heq
      exact h (mem_filterMap.mpr ⟨step, mem_cons_self, heq⟩)
    have hr : slot ∉ steps.filterMap (·.slot) := by
      intro hmem
      obtain ⟨other, ho, heq⟩ := mem_filterMap.mp hmem
      exact h (mem_filterMap.mpr ⟨other, mem_cons_of_mem _ ho, heq⟩)
    rw [flatMap_cons, callsOn_append, callsOn_capture_of_ne hne, ih hr]
    rfl

theorem callsOn_flatMap {steps : List Admitted} (hd : (steps.filterMap (·.slot)).Nodup)
    {step : Admitted} (hs : step ∈ steps) {slot : ℕ} (hsl : step.slot = some slot) :
    callsOn slot (steps.flatMap capture) = callsOn slot (capture step) := by
  induction steps with
  | nil => cases hs
  | cons first steps ih =>
    rw [flatMap_cons, callsOn_append]
    rcases mem_cons.mp hs with rfl | hr
    · rw [filterMap_cons_some hsl, nodup_cons] at hd
      rw [callsOn_flatMap_of_absent hd.1, append_nil]
    · have hmem : slot ∈ steps.filterMap (·.slot) := mem_filterMap.mpr ⟨step, hr, hsl⟩
      cases hf : first.slot with
      | none =>
        rw [filterMap_cons_none hf] at hd
        rw [capture_of_no_slot hf, ih hd hr]
        rfl
      | some own =>
        rw [filterMap_cons_some hf, nodup_cons] at hd
        have hne : first.slot ≠ some slot := by
          rw [hf]
          rintro ⟨rfl⟩
          exact hd.1 hmem
        rw [callsOn_capture_of_ne hne, ih hd.2 hr]
        rfl

def Flow.SettlesOnce (f : Flow) : Prop :=
  (f.stage = .ended → ∀ step ∈ f.begun, ∀ slot, step.slot = some slot →
    SettledOnce slot step.calls.sum f.settlements) ∧
  ∀ slot, (callsOn slot f.settlements).length ≤ 1

theorem Flow.Accounted.settlesOnce (hf : f.Accounted) : f.SettlesOnce := by
  obtain ⟨front, hb, hs⟩ := hf.settled
  have hd := hf.distinct
  rw [hb, filterMap_append] at hd
  have hfr : (front.filterMap (·.slot)).Nodup := hd.of_append_left
  constructor
  · intro he step hst slot hsl
    rw [hf.closed (by rw [he]; rfl), Option.toList_none, append_nil] at hb
    rw [hb] at hst
    rw [SettledOnce, hs, callsOn_flatMap hfr hst hsl]
    exact settledOnce_capture hsl
  · intro slot
    rw [hs]
    by_cases hmem : slot ∈ front.filterMap (·.slot)
    · obtain ⟨step, hst, hsl⟩ := mem_filterMap.mp hmem
      rw [callsOn_flatMap hfr hst hsl]
      exact length_callsOn_capture step slot
    · rw [callsOn_flatMap_of_absent hmem]
      exact Nat.zero_le 1

end Flows

/-- In every run of a workflow the slot of each step is settled once, and in a run of a turn
exactly when the turn does not give its slot up: its stream is pulled once it is handed back, and
no cancellation meets it before that or in its last write. -/
theorem slots_are_settled_iff {es : List TurnEvent} {fs : List FlowEvent} {t : Turn} {f : Flow}
    (hturn : run stepTurn Turn.start es = some t) (hflow : run stepFlow Flow.start fs = some f) :
    (t.SettlesOnce ∧ f.SettlesOnce) ↔ Guarded stepTurn KeepsSlot Turn.start es := by
  have hst : ∀ s e f, Flow.Accounted s → stepFlow s e = some f → f.Accounted :=
    fun _ _ _ hs h => hs.step h
  have ha := run_invariant_of_step hst hflow Flow.Accounted.start
  rw [settlesOnce_iff_guarded hturn |>.symm]
  exact and_iff_left ha.settlesOnce

private def answered : List TurnEvent :=
  [.admitted (some 7), .opened, .pull, .beginCall 3, .meterCall 12, .yieldsProgress, .pull,
    .yieldsTerminal, .written, .pull, .producerEnds]

private def leftInSecond : List FlowEvent :=
  [.pull, .nextStep, .charged, .admitted (some 8), .beginCall 2, .yieldsFinal, .persisted, .pull,
    .nextStep, .charged, .admitted (some 9), .yieldsProgress, .close, .finished]

theorem answered_turn_settles_once : ∃ t f, run stepTurn Turn.start answered = some t ∧
    run stepFlow Flow.start leftInSecond = some f ∧ t.settlements = [(7, .commit 12)] ∧
    f.settlements = [(8, .commit 2), (9, .release)] ∧ t.SettlesOnce ∧ f.SettlesOnce := by
  have hk : Guarded stepTurn KeepsSlot Turn.start answered := by decide
  obtain ⟨t, ht, hc⟩ := exists_run_of_any
    (p := fun t : Turn => decide (t.settlements = [(7, .commit 12)]))
    (show (run stepTurn Turn.start answered).any _ = true by decide)
  obtain ⟨f, hf, hb⟩ := exists_run_of_any
    (p := fun f : Flow => decide (f.settlements = [(8, .commit 2), (9, .release)]))
    (show (run stepFlow Flow.start leftInSecond).any _ = true by decide)
  exact ⟨t, f, ht, hf, of_decide_eq_true hc, of_decide_eq_true hb,
    (slots_are_settled_iff ht hf).mpr hk⟩

private def Loses (es : List TurnEvent) : Prop :=
  ∃ t, run stepTurn Turn.start es = some t ∧ t.stage = .ended ∧ t.admitted.slot = some 7 ∧
    t.settlements = [] ∧ ¬ t.SettlesOnce

private theorem loses_of_any {es : List TurnEvent}
    (h : (run stepTurn Turn.start es).any (fun t =>
      decide (t.stage = .ended ∧ t.admitted.slot = some 7 ∧ t.settlements = [])) = true) :
    Loses es := by
  obtain ⟨t, hrun, hlost⟩ := exists_run_of_any h
  obtain ⟨hended, hslot, hnone⟩ := of_decide_eq_true hlost
  refine ⟨t, hrun, hended, hslot, hnone, ?_⟩
  intro hsettles
  have honce := hsettles.1 hended 7 hslot
  rw [SettledOnce, hnone] at honce
  cases honce

/-- The stream is closed before its first pull; the write that opens the thread is cancelled; a
reader leaves and the write of what was streamed is cancelled. -/
theorem lost_slot_is_not_settled :
    Loses [.admitted (some 7), .opened, .close] ∧ Loses [.admitted (some 7), .cancel] ∧
      Loses [.admitted (some 7), .opened, .pull, .beginCall 12, .yieldsProgress, .close,
        .cancel] :=
  ⟨loses_of_any (by decide), loses_of_any (by decide), loses_of_any (by decide)⟩

end Aizzak.SlotSettlement
