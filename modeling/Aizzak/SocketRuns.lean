import Aizzak.EventRuns
import Aizzak.KeyedTables
import Aizzak.PyText

/-!
The runs of one WebSocket. Each `invoke` starts a task that forwards the events of its run; the
socket keeps the task under the conversation it names, the latest one only, or among the unnamed
ones, and a task that has ended is forgotten unless another has taken its place. At the end the
socket cancels and awaits the tasks it keeps.
-/
namespace Aizzak.SocketRuns

open EventRuns KeyedTables PyText

inductive Value where
  | null
  | text (value : Text)
  | object
  | other
deriving DecidableEq

structure ClientMessage where
  kind : Value
  agentKey : Value
  conversationId : Value
  input : Value
deriving DecidableEq

structure Frame where
  size : ℕ
  message : Option ClientMessage
deriving DecidableEq

inductive Stage where
  | streaming
  | cancelled
  | done
deriving DecidableEq

structure Pump where
  conversation : Option Text
  stage : Stage
  forgotten : Bool
deriving DecidableEq

def Pump.cancel (pump : Pump) : Pump :=
  if pump.stage = .streaming then { pump with stage := .cancelled } else pump

inductive Phase where
  | admitting
  | serving
  | invoking (conversation : Option Text)
  | unregistering
  | joining (outstanding : List ℕ)
  | returned
deriving DecidableEq

structure State where
  phase : Phase
  pumps : List Pump
  runs : AList fun _ : Text => ℕ
  unnamed : List ℕ

def init : State := ⟨.admitting, [], ∅, []⟩

inductive Event where
  | admitted (accepted : Bool)
  | frame (frame : Frame)
  | disconnect
  | breaks
  | refused
  | started
  | forwards (pump : ℕ)
  | ends (pump : ℕ)
  | forgets (pump : ℕ)
  | unregistered
  | joined

namespace State

def cancel (s : State) (conversation : Text) : State :=
  match s.runs.lookup conversation with
  | none => s
  | some pump => { s with pumps := s.pumps.modify pump Pump.cancel }

def startInvoke (allowed : Bool) (s : State) (message : ClientMessage) : State :=
  match message.agentKey, message.input with
  | .text key, .object =>
    if key = [] then s
    else
      match message.conversationId with
      | .null => if allowed then { s with phase := .invoking none } else s
      | .text conversation => if allowed then { s with phase := .invoking conversation } else s
      | _ => s
  | _, _ => s

def dispatch (allowed : Bool) (s : State) (message : ClientMessage) : State :=
  if message.kind = .text (ofString "invoke") then s.startInvoke allowed message
  else if message.kind = .text (ofString "cancel") then
    match message.conversationId with
    | .text conversation => s.cancel conversation
    | _ => s
  else s

def receive (maxBytes : ℕ) (allowed : Bool) (s : State) (frame : Frame) : State :=
  if maxBytes < frame.size then { s with phase := .unregistering }
  else
    match frame.message with
    | none => s
    | some message => s.dispatch allowed message

def track (s : State) (conversation : Option Text) : State :=
  let started : State := { s with
    phase := .serving
    pumps := s.pumps ++ [⟨conversation, .streaming, false⟩] }
  match conversation with
  | some key => { started with runs := s.runs.insert key s.pumps.length }
  | none => { started with unnamed := s.pumps.length :: s.unnamed }

def forget (s : State) (index : ℕ) (conversation : Option Text) : State :=
  let called : State := { s with
    pumps := s.pumps.modify index fun pump => { pump with forgotten := true } }
  match conversation with
  | some key =>
    if s.runs.lookup key = some index then { called with runs := s.runs.erase key } else called
  | none => { called with unnamed := s.unnamed.erase index }

def outstanding (s : State) : List ℕ := s.runs.entries.map (·.2) ++ s.unnamed

def tearDown (s : State) : State :=
  { s with
    phase := .joining s.outstanding
    pumps := s.pumps.mapIdx fun index pump =>
      if index ∈ s.outstanding then pump.cancel else pump }

end State

section Machine

variable (maxBytes : ℕ) (allowed : Bool)

/-- One step of the connection's own task up to its next await, of a task, or of a callback. -/
def step (s : State) : Event → Option State
  | .admitted accepted =>
    if s.phase = .admitting then
      some { s with phase := if accepted then .serving else .returned }
    else none
  | .frame frame =>
    if s.phase = .serving then some (s.receive maxBytes allowed frame) else none
  | .disconnect =>
    if s.phase = .serving then some { s with phase := .unregistering } else none
  | .breaks =>
    match s.phase with
    | .serving | .invoking _ => some { s with phase := .unregistering }
    | _ => none
  | .refused =>
    match s.phase with
    | .invoking _ => some { s with phase := .serving }
    | _ => none
  | .started =>
    match s.phase with
    | .invoking conversation => some (s.track conversation)
    | _ => none
  | .forwards index =>
    match s.pumps[index]? with
    | none => none
    | some pump => if pump.stage = .streaming then some s else none
  | .ends index =>
    match s.pumps[index]? with
    | none => none
    | some pump =>
      if pump.stage = .done then none
      else some { s with
        pumps := s.pumps.modify index fun pump => { pump with stage := .done } }
  | .forgets index =>
    match s.pumps[index]? with
    | none => none
    | some pump =>
      if pump.stage = .done ∧ pump.forgotten = false then some (s.forget index pump.conversation)
      else none
  | .unregistered => if s.phase = .unregistering then some s.tearDown else none
  | .joined =>
    match s.phase with
    | .joining [] => some { s with phase := .returned }
    | .joining (index :: rest) =>
      if (s.pumps[index]?).any (·.stage = .done) then some { s with phase := .joining rest }
      else none
    | _ => none

end Machine

def conversationOf (pumps : List Pump) (index : ℕ) : Option Text :=
  (pumps[index]?).bind (·.conversation)

def Replaced (pumps : List Pump) (index : ℕ) : Prop :=
  ∃ later conversation, index < later ∧ conversationOf pumps index = some conversation ∧
    conversationOf pumps later = some conversation

def Kept (s : State) (index : ℕ) : Option Text → Prop
  | some conversation => s.runs.lookup conversation = some index
  | none => index ∈ s.unnamed

def Covered (s : State) (index : ℕ) (pump : Pump) : Prop :=
  match s.phase with
  | .joining outstanding => index ∈ outstanding
  | .admitting | .returned => False
  | _ => Kept s index pump.conversation

structure Tracked (s : State) : Prop where
  current : ∀ conversation index, s.runs.lookup conversation = some index →
    conversationOf s.pumps index = some conversation ∧ ¬ Replaced s.pumps index
  covered : ∀ index pump, s.pumps[index]? = some pump → pump.stage ≠ .done →
    ¬ Replaced s.pumps index → Covered s index pump

section Invariant

variable {maxBytes : ℕ} {allowed : Bool} {s t : State} {e : Event} {pumps after : List Pump}
  {index : ℕ} {pump : Pump}

theorem init_tracked : Tracked init where
  current := fun _ _ h => by cases h
  covered := fun _ _ h => by simp [init] at h

theorem conversationOf_of_getElem? (h : pumps[index]? = some pump) :
    conversationOf pumps index = pump.conversation := by
  rw [conversationOf, h]
  rfl

theorem replaced_congr (h : ∀ index, conversationOf after index = conversationOf pumps index) :
    Replaced after index ↔ Replaced pumps index := by
  simp only [Replaced, h]

theorem conversationOf_modify {f : Pump → Pump} (hf : ∀ p, (f p).conversation = p.conversation)
    (changed index : ℕ) :
    conversationOf (pumps.modify changed f) index = conversationOf pumps index := by
  unfold conversationOf
  rw [List.getElem?_modify]
  cases pumps[index]? with
  | none => rfl
  | some p =>
    by_cases heq : changed = index
    · simp [heq, hf]
    · simp [heq]

theorem cancel_conversation (pump : Pump) : pump.cancel.conversation = pump.conversation := by
  unfold Pump.cancel
  split_ifs <;> rfl

theorem cancel_stage_ne_streaming (pump : Pump) : pump.cancel.stage ≠ .streaming := by
  unfold Pump.cancel
  split_ifs with h
  · simp
  · exact h

theorem cancel_stage_eq_done : pump.cancel.stage = .done ↔ pump.stage = .done := by
  unfold Pump.cancel
  split_ifs with h
  · simp [h]
  · rfl

/-- A step that changes no more of the tasks than that some are cancelled or have ended. -/
theorem Tracked.modify {f : Pump → Pump} {changed : ℕ} (hs : Tracked s)
    (hco : ∀ p, (f p).conversation = p.conversation)
    (hsg : ∀ p, p.stage = .done → (f p).stage = .done) :
    Tracked { s with pumps := s.pumps.modify changed f } := by
  have hsa : ∀ index, conversationOf (s.pumps.modify changed f) index =
      conversationOf s.pumps index := conversationOf_modify hco changed
  constructor
  · intro conversation index hl
    rw [hsa, replaced_congr hsa]
    exact hs.current conversation index hl
  · intro index pump hp hst hr
    rw [replaced_congr hsa] at hr
    simp only [List.getElem?_modify] at hp
    obtain ⟨old, hold, rfl⟩ := Option.map_eq_some_iff.mp hp
    have hold' : old.stage ≠ .done := by
      intro hd
      split_ifs at hst
      · exact hst (hsg old hd)
      · exact hst hd
    have hc := hs.covered index old hold hold' hr
    unfold Covered at hc ⊢
    split_ifs
    · rw [hco]
      exact hc
    · exact hc

/-- A step that moves the connection between phases in which it keeps its tasks. -/
theorem Tracked.phase {phase : Phase} (hs : Tracked s)
    (hph : ∀ index pump, Covered s index pump →
      Covered { s with phase := phase } index pump) :
    Tracked { s with phase := phase } where
  current := hs.current
  covered := fun index pump hp hst hr =>
    hph index pump (hs.covered index pump hp hst hr)

theorem covered_iff_kept (h : s.phase = .serving ∨ s.phase = .unregistering ∨
    ∃ conversation, s.phase = .invoking conversation) :
    Covered s index pump ↔ Kept s index pump.conversation := by
  unfold Covered
  rcases h with h | h | ⟨conversation, h⟩ <;> rw [h]

theorem tracked_cancel (hs : Tracked s) (conversation : Text) :
    Tracked (s.cancel conversation) := by
  unfold State.cancel
  split
  · exact hs
  · exact hs.modify cancel_conversation fun p hd => cancel_stage_eq_done.mpr hd

theorem tracked_startInvoke (hs : Tracked s) (hp : s.phase = .serving)
    (message : ClientMessage) : Tracked (s.startInvoke allowed message) := by
  have hi : ∀ conversation, Tracked { s with phase := .invoking conversation } := by
    intro conversation
    refine hs.phase fun index pump hc => ?_
    exact (covered_iff_kept (.inl hp)).mp hc
  unfold State.startInvoke
  split
  · split_ifs
    · exact hs
    · split
      · exact hi _
      · exact hi _
      · exact hs
    · split <;> exact hs
  · exact hs

theorem tracked_unregistering (hs : Tracked s)
    (hp : s.phase = .serving ∨ ∃ conversation, s.phase = .invoking conversation) :
    Tracked { s with phase := .unregistering } := by
  refine hs.phase fun index pump hc => ?_
  rcases hp with hp | hp
  · exact (covered_iff_kept (.inl hp)).mp hc
  · exact (covered_iff_kept (.inr (.inr hp))).mp hc

theorem tracked_receive (hs : Tracked s) (hp : s.phase = .serving) (frame : Frame) :
    Tracked (s.receive maxBytes allowed frame) := by
  unfold State.receive
  split_ifs
  · exact tracked_unregistering hs (.inl hp)
  · split
    · exact hs
    · unfold State.dispatch
      split_ifs
      · exact tracked_startInvoke hs hp _
      · split
        · exact tracked_cancel hs _
        · exact hs
      · exact hs

theorem conversationOf_append_of_lt (h : index < pumps.length) :
    conversationOf (pumps ++ [pump]) index = conversationOf pumps index := by
  rw [conversationOf, List.getElem?_append_left h]
  rfl

theorem conversationOf_append_self :
    conversationOf (pumps ++ [pump]) pumps.length = pump.conversation := by
  simp [conversationOf]

variable {conversation : Text}

theorem lt_of_conversationOf (h : conversationOf pumps index = some conversation) :
    index < pumps.length := by
  by_contra hle
  rw [conversationOf, List.getElem?_eq_none (by omega)] at h
  cases h

theorem replaced_append (h : Replaced pumps index) : Replaced (pumps ++ [pump]) index := by
  obtain ⟨later, conversation, hlt, hi, hl⟩ := h
  refine ⟨later, conversation, hlt, ?_, ?_⟩
  · rw [conversationOf_append_of_lt (lt_of_conversationOf hi), hi]
  · rw [conversationOf_append_of_lt (lt_of_conversationOf hl), hl]

/-- The task a new one does not replace. -/
theorem not_replaced_append (h : ¬ Replaced pumps index)
    (hi : conversationOf pumps index = some conversation)
    (hne : pump.conversation ≠ some conversation) : ¬ Replaced (pumps ++ [pump]) index := by
  rintro ⟨later, other, hlt, ho, hl⟩
  rw [conversationOf_append_of_lt (lt_of_conversationOf hi), hi] at ho
  cases ho
  have hle := lt_of_conversationOf hl
  rw [List.length_append, List.length_singleton] at hle
  by_cases hnew : later < pumps.length
  · rw [conversationOf_append_of_lt hnew] at hl
    exact h ⟨later, conversation, hlt, hi, hl⟩
  · obtain rfl : later = pumps.length := by omega
    rw [conversationOf_append_self] at hl
    exact hne hl

theorem not_replaced_last : ¬ Replaced (pumps ++ [pump]) pumps.length := by
  rintro ⟨later, conversation, hlt, -, hl⟩
  have hle := lt_of_conversationOf hl
  rw [List.length_append, List.length_singleton] at hle
  omega

theorem getElem?_append_singleton {after' : Pump} (h : (pumps ++ [pump])[index]? = some after') :
    (index < pumps.length ∧ pumps[index]? = some after') ∨
      (index = pumps.length ∧ pump = after') := by
  by_cases hlt : index < pumps.length
  · rw [List.getElem?_append_left hlt] at h
    exact .inl ⟨hlt, h⟩
  · have hle := (List.getElem?_eq_some_iff.mp h).1
    rw [List.length_append, List.length_singleton] at hle
    obtain rfl : index = pumps.length := by omega
    refine .inr ⟨rfl, ?_⟩
    simpa using h

/-- A task that is started is kept, and replaces only those of its own conversation. -/
theorem tracked_track {conversation : Option Text} (hs : Tracked s)
    (hph : s.phase = .invoking conversation) : Tracked (s.track conversation) := by
  have hk : ∀ index pump, s.pumps[index]? = some pump → pump.stage ≠ .done →
      ¬ Replaced s.pumps index → Kept s index pump.conversation := by
    intro index pump hp hst hr
    exact (covered_iff_kept (.inr (.inr ⟨_, hph⟩))).mp
      (hs.covered index pump hp hst hr)
  cases conversation with
  | none =>
    constructor
    · intro named index hl
      obtain ⟨hc, hr⟩ := hs.current named index hl
      refine ⟨?_, not_replaced_append hr hc (by simp)⟩
      exact (conversationOf_append_of_lt (lt_of_conversationOf hc)).trans hc
    · intro index pump hp hst hr
      rcases getElem?_append_singleton hp with ⟨-, hold⟩ | ⟨rfl, rfl⟩
      · have hold' := hk index pump hold hst fun h => hr (replaced_append h)
        simp only [Covered, State.track]
        cases hc : pump.conversation with
        | none =>
          rw [hc] at hold'
          exact List.mem_cons_of_mem _ hold'
        | some named =>
          rw [hc] at hold'
          exact hold'
      · exact List.mem_cons_self
  | some key =>
    constructor
    · intro named index hl
      rcases lookup_insert_iff.mp hl with ⟨rfl, rfl⟩ | ⟨hne, hold⟩
      · exact ⟨conversationOf_append_self, not_replaced_last⟩
      · obtain ⟨hc, hr⟩ := hs.current named index hold
        refine ⟨?_, not_replaced_append hr hc ?_⟩
        · exact (conversationOf_append_of_lt (lt_of_conversationOf hc)).trans
            hc
        · exact fun heq => hne (Option.some.inj heq).symm
    · intro index pump hp hst hr
      rcases getElem?_append_singleton hp with ⟨hlt, hold⟩ | ⟨rfl, rfl⟩
      · have hold' := hk index pump hold hst fun h => hr (replaced_append h)
        simp only [Covered, State.track]
        cases hc : pump.conversation with
        | none =>
          rw [hc] at hold'
          exact hold'
        | some named =>
          rw [hc] at hold'
          have hne : named ≠ key := by
            rintro rfl
            refine hr ⟨s.pumps.length, named, hlt, ?_, conversationOf_append_self⟩
            rw [State.track]
            exact (conversationOf_append_of_lt hlt).trans
              ((conversationOf_of_getElem? hold).trans hc)
          exact (AList.lookup_insert_ne hne).trans hold'
      · exact AList.lookup_insert _

/-- A task stays covered while its socket keeps it. -/
theorem Covered.mono (h : Covered s index pump) (hp : t.phase = s.phase)
    (hk : Kept s index pump.conversation → Kept t index pump.conversation) :
    Covered t index pump := by
  unfold Covered at h ⊢
  rw [hp]
  cases hc : s.phase with
  | joining outstanding =>
    rw [hc] at h
    exact h
  | admitting | returned =>
    rw [hc] at h
    exact h
  | serving | invoking | unregistering =>
    rw [hc] at h
    exact hk h

/-- The callback of a task that has ended lets go of that task only. -/
theorem tracked_forget (hs : Tracked s) (hp : s.pumps[index]? = some pump)
    (hd : pump.stage = .done) : Tracked (s.forget index pump.conversation) := by
  have hc : Tracked { s with
      pumps := s.pumps.modify index fun pump => { pump with forgotten := true } } :=
    hs.modify (fun _ => rfl) fun _ h => h
  have ho : ∀ other (found : Pump), (s.pumps.modify index fun pump =>
      { pump with forgotten := true })[other]? = some found → found.stage ≠ .done →
        other ≠ index := by
    rintro other found hf hst rfl
    rw [List.getElem?_modify, hp] at hf
    simp only [if_true, Option.map_eq_map, Option.map_some, Option.some.injEq] at hf
    subst hf
    exact hst hd
  unfold State.forget
  simp only
  split
  · rename_i key hkey
    split_ifs with hcu
    · refine ⟨fun named other hl => ?_, fun other found hf hst hr => ?_⟩
      · exact hc.current named other (lookup_erase_iff.mp hl).2
      · have hne := ho other found hf hst
        refine (hc.covered other found hf hst hr).mono rfl fun hk => ?_
        cases hco : found.conversation with
        | none =>
          rw [hco] at hk
          exact hk
        | some named =>
          rw [hco] at hk
          refine lookup_erase_iff.mpr ⟨?_, hk⟩
          rintro rfl
          exact hne (Option.mem_unique hk hcu)
    · exact hc
  · refine ⟨hc.current, fun other found hf hst hr => ?_⟩
    have hne := ho other found hf hst
    refine (hc.covered other found hf hst hr).mono rfl fun hk => ?_
    cases hco : found.conversation with
    | none =>
      rw [hco] at hk
      exact (List.mem_erase_of_ne hne).mpr hk
    | some named =>
      rw [hco] at hk
      exact hk

theorem mem_outstanding_of_kept (h : Kept s index pump.conversation) : index ∈ s.outstanding := by
  unfold State.outstanding
  cases hc : pump.conversation with
  | none =>
    rw [hc] at h
    exact List.mem_append_right _ h
  | some conversation =>
    rw [hc] at h
    have hmem : (⟨conversation, index⟩ : Sigma fun _ : Text => ℕ) ∈ s.runs.entries :=
      AList.mem_lookup_iff.mp h
    exact List.mem_append_left _ (List.mem_map.mpr ⟨_, hmem, rfl⟩)

theorem tearDown_getElem? (h : s.tearDown.pumps[index]? = some pump) :
    ∃ old, s.pumps[index]? = some old ∧ (pump = old ∨ pump = old.cancel) := by
  simp only [State.tearDown, List.getElem?_mapIdx] at h
  obtain ⟨old, hold, rfl⟩ := Option.map_eq_some_iff.mp h
  refine ⟨old, hold, ?_⟩
  split_ifs
  · exact .inr rfl
  · exact .inl rfl

theorem tearDown_conversationOf (index : ℕ) :
    conversationOf s.tearDown.pumps index = conversationOf s.pumps index := by
  simp only [conversationOf, State.tearDown, List.getElem?_mapIdx]
  cases s.pumps[index]? with
  | none => rfl
  | some old =>
    simp only [Option.map_some, Option.bind_some]
    split_ifs
    · exact cancel_conversation old
    · rfl

/-- The teardown awaits every task that has not ended and is not replaced. -/
theorem tracked_tearDown (hs : Tracked s) (hph : s.phase = .unregistering) :
    Tracked s.tearDown := by
  constructor
  · intro conversation index hl
    rw [tearDown_conversationOf, replaced_congr tearDown_conversationOf]
    exact hs.current conversation index hl
  · intro index pump hp hst hr
    rw [replaced_congr tearDown_conversationOf] at hr
    obtain ⟨old, hold, heq⟩ := tearDown_getElem? hp
    have hsg : old.stage ≠ .done := by
      rcases heq with rfl | rfl
      · exact hst
      · exact fun h => hst (cancel_stage_eq_done.mpr h)
    have hc := hs.covered index old hold hsg hr
    exact mem_outstanding_of_kept ((covered_iff_kept (.inr (.inl hph))).mp hc)

theorem tracked_joined {rest : List ℕ} (hs : Tracked s)
    (hp : s.phase = .joining (index :: rest))
    (hd : (s.pumps[index]?).any (·.stage = .done) = true) :
    Tracked { s with phase := .joining rest } := by
  refine ⟨hs.current, fun other found hfo hst hr => ?_⟩
  have hc := hs.covered other found hfo hst hr
  unfold Covered at hc
  rw [hp] at hc
  rcases List.mem_cons.mp hc with rfl | hre
  · have hf : s.pumps[other]? = some found := hfo
    rw [hf] at hd
    exact absurd (by simpa using hd) hst
  · exact hre

theorem tracked_returned (hs : Tracked s) (hp : s.phase = .joining []) :
    Tracked { s with phase := .returned } := by
  refine ⟨hs.current, fun other found hf hst hr => ?_⟩
  have hc := hs.covered other found hf hst hr
  unfold Covered at hc
  rw [hp] at hc
  cases hc

/-- Every live task is kept, or was replaced. -/
theorem step_tracked (hs : Tracked s) (h : step maxBytes allowed s e = some t) : Tracked t := by
  cases e with
  | admitted accepted =>
    simp only [step] at h
    split_ifs at h with hph <;>
      · cases h
        exact hs.phase fun index pump hc => by
          simp [Covered, hph] at hc
  | frame frame =>
    simp only [step] at h
    split_ifs at h with hph
    cases h
    exact tracked_receive hs hph frame
  | disconnect =>
    simp only [step] at h
    split_ifs at h with hph
    cases h
    exact tracked_unregistering hs (.inl hph)
  | breaks =>
    simp only [step] at h
    split at h
    · rename_i hph
      cases h
      exact tracked_unregistering hs (.inl hph)
    · rename_i conversation hph
      cases h
      exact tracked_unregistering hs (.inr ⟨conversation, hph⟩)
    · cases h
  | refused =>
    simp only [step] at h
    split at h
    · rename_i conversation hph
      cases h
      refine hs.phase fun index pump hc => ?_
      exact (covered_iff_kept (.inr (.inr ⟨conversation, hph⟩))).mp hc
    · cases h
  | started =>
    simp only [step] at h
    split at h
    · rename_i conversation hph
      cases h
      exact tracked_track hs hph
    · cases h
  | forwards index =>
    simp only [step] at h
    split at h
    · cases h
    · split_ifs at h
      cases h
      exact hs
  | ends index =>
    simp only [step] at h
    split at h
    · cases h
    · split_ifs at h
      cases h
      exact hs.modify (fun _ => rfl) fun _ _ => rfl
  | forgets index =>
    simp only [step] at h
    split at h
    · cases h
    · rename_i pump hp
      split_ifs at h with hd
      cases h
      exact tracked_forget hs hp hd.1
  | unregistered =>
    simp only [step] at h
    split_ifs at h with hph
    cases h
    exact tracked_tearDown hs hph
  | joined =>
    simp only [step] at h
    split at h
    · rename_i hph
      cases h
      exact tracked_returned hs hph
    · rename_i index rest hph
      split_ifs at h with hd
      cases h
      exact tracked_joined hs hph hd
    · cases h

def Frame.Cancels (maxBytes : ℕ) (frame : Frame) (conversation : Text) : Prop :=
  frame.size ≤ maxBytes ∧ ∃ message, frame.message = some message ∧
    message.kind = .text (ofString "cancel") ∧ message.conversationId = .text conversation

theorem receive_cancel {frame : Frame} (h : frame.Cancels maxBytes conversation) :
    s.receive maxBytes allowed frame = s.cancel conversation := by
  obtain ⟨hs, message, hm, hk, hc⟩ := h
  have hi : ofString "cancel" ≠ ofString "invoke" := by decide
  simp [State.receive, State.dispatch, hm, hk, hc, hi,
    Nat.not_lt.mpr hs]

theorem cancel_stops (hs : Tracked s) (hph : s.phase = .serving)
    (hp : s.pumps[index]? = some pump) (hcn : pump.conversation = some conversation)
    (hr : ¬ Replaced s.pumps index) :
    ((s.cancel conversation).pumps[index]?).any (·.stage ≠ .streaming) = true := by
  have hk : pump.stage ≠ .done → s.runs.lookup conversation = some index := by
    intro hst
    have hco := hs.covered index pump hp hst hr
    have hk := (covered_iff_kept (.inl hph)).mp hco
    rw [hcn] at hk
    exact hk
  unfold State.cancel
  split
  · rename_i hn
    rw [hp]
    have hd : pump.stage = .done := by
      by_contra hst
      rw [hk hst] at hn
      cases hn
    simp [hd]
  · rename_i latest hl
    simp only [List.getElem?_modify, hp]
    by_cases hd : pump.stage = .done
    · have hc := cancel_stage_ne_streaming pump
      split_ifs
      · simpa using hc
      · simp [hd]
    · obtain rfl : latest = index := Option.some.inj (hl.symm.trans (hk hd))
      simpa using cancel_stage_ne_streaming pump

theorem cancel_spares (hs : Tracked s) (hp : s.pumps[index]? = some pump)
    (h : pump.conversation ≠ some conversation ∨ Replaced s.pumps index) :
    (s.cancel conversation).pumps[index]? = some pump := by
  unfold State.cancel
  split
  · exact hp
  · rename_i latest hl
    obtain ⟨hn, hc⟩ := hs.current conversation latest hl
    have hne : latest ≠ index := by
      rintro rfl
      rw [conversationOf_of_getElem? hp] at hn
      rcases h with ho | hr
      · exact ho hn
      · exact hc hr
    simp [hp, hne]

/-- In every run a task that no later invoke of its conversation has replaced is done when the
connection returns, and the cancel of a conversation stops the last started of its tasks and
touches no other. -/
theorem unreplaced_runs_end {events : List Event}
    (hrun : run (step maxBytes allowed) init events = some s) :
    (s.phase = .returned → ∀ index pump, s.pumps[index]? = some pump →
        ¬ Replaced s.pumps index → pump.stage = .done) ∧
      ∀ frame conversation, frame.Cancels maxBytes conversation →
        step maxBytes allowed s (.frame frame) = some t →
          ∀ index pump, s.pumps[index]? = some pump →
            (pump.conversation = some conversation ∧ ¬ Replaced s.pumps index →
              (t.pumps[index]?).any (·.stage ≠ .streaming) = true) ∧
            (pump.conversation ≠ some conversation ∨ Replaced s.pumps index →
              t.pumps[index]? = some pump) := by
  have hs := run_invariant_of_step (fun _ _ _ hs hsp => step_tracked hs hsp) hrun init_tracked
  constructor
  · intro hph index pump hp hr
    by_contra hst
    have hc := hs.covered index pump hp hst hr
    unfold Covered at hc
    rw [hph] at hc
    exact hc
  · intro frame conversation hca hsp index pump hp
    simp only [step] at hsp
    split_ifs at hsp with hph
    cases hsp
    rw [receive_cancel hca]
    exact ⟨fun h => cancel_stops hs hph hp h.1 h.2, cancel_spares hs hp⟩

end Invariant

private def invokes : Event :=
  .frame ⟨60, some
    ⟨.text (ofString "invoke"), .text (ofString "rag"), .text (ofString "t"), .object⟩⟩

private def cancels : Frame :=
  ⟨40, some ⟨.text (ofString "cancel"), .null, .text (ofString "t"), .null⟩⟩

/-- Two runs of one conversation: the cancel leaves the first one streaming, and so does the end
of the connection. -/
theorem replaced_run_streams_on :
    ∃ s t, run (step 65536 true) init [.admitted true, invokes, .started, invokes, .started,
        .frame cancels] = some s ∧
      s.pumps.map (·.stage) = [.streaming, .cancelled] ∧
      run (step 65536 true) s [.ends 1, .disconnect, .unregistered, .joined, .joined] = some t ∧
      t.phase = .returned ∧ t.pumps.map (·.stage) = [.streaming, .done] := by
  obtain ⟨s, hrun, ht⟩ := exists_run_of_any
    (p := fun s : State => s.pumps.map (·.stage) = [.streaming, .cancelled] &&
      (run (step 65536 true) s [.ends 1, .disconnect, .unregistered, .joined, .joined]).any
        fun t => t.phase = .returned && t.pumps.map (·.stage) = [.streaming, .done])
    (show (run (step 65536 true) init [.admitted true, invokes, .started, invokes, .started,
      .frame cancels]).any _ = true by decide +kernel)
  simp only [Bool.and_eq_true, decide_eq_true_eq, Option.any_eq_true] at ht
  obtain ⟨hc, t, ha, hr, hs⟩ := ht
  exact ⟨s, t, hrun, hc, ha, hr, hs⟩

/-- A run that is cancelled, and one the end of the connection cancels. -/
theorem single_runs_end :
    ∃ s, run (step 65536 true) init [.admitted true, invokes, .started, .frame cancels, .ends 0,
        .forgets 0, invokes, .started, .disconnect, .unregistered, .ends 1, .joined, .joined] =
          some s ∧
      s.phase = .returned ∧ ∀ pump, s.pumps[1]? = some pump → pump.stage = .done := by
  obtain ⟨s, hrun, ht⟩ := exists_run_of_any
    (p := fun s : State => s.phase = .returned && s.pumps.length = 2)
    (show (run (step 65536 true) init [.admitted true, invokes, .started, .frame cancels, .ends 0,
      .forgets 0, invokes, .started, .disconnect, .unregistered, .ends 1, .joined,
      .joined]).any _ = true by decide +kernel)
  rw [Bool.and_eq_true, decide_eq_true_eq, decide_eq_true_eq] at ht
  have hla : ¬ Replaced s.pumps 1 := by
    rintro ⟨later, conversation, hlt, -, hl⟩
    have hle := lt_of_conversationOf hl
    omega
  obtain ⟨he, -⟩ := unreplaced_runs_end hrun (t := s)
  exact ⟨s, hrun, ht.1, fun pump hp => he ht.1 1 pump hp hla⟩

end Aizzak.SocketRuns
