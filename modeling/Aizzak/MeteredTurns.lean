import Aizzak.EventRuns
import Aizzak.PyText

/-!
The turns of a conversation as the orchestrator meters them. The agent's events are pulled one
after another and forwarded to the reader. A `final` event is stored as the reply and states which
question is now open; a turn that is cut stores the part that was streamed, under a marker, and
closes the open question. An agent may yield any events, also after a `final` or an `error`.
-/
namespace Aizzak.MeteredTurns

open EventRuns PyText

/-- A value of a payload, as far as the code tells values apart; a list has `none` where an
element is no string. -/
inductive Json where
  | null
  | str (text : Text)
  | list (items : List (Option Text))
  | other (id : ℕ)
deriving DecidableEq

/-- The keys of a payload that are read here, and the file references `_file_refs` finds in it. -/
structure Data where
  delta : Option Json
  text : Option Json
  fileRefs : List Text
  pending : Option Json
  fallback : Bool
deriving DecidableEq

inductive EventType where
  | token
  | final
  | error
  | other (name : String)
deriving DecidableEq

structure AgentEvent where
  type : EventType
  data : Data
deriving DecidableEq

structure Config where
  wired : Bool
  notice : Text
  dump : Data → Text

def markerGap : Text := ofString "\n\n"

def incompleteMarkerAr : Text := ofString "⚠️ انقطعت الإجابةُ قبل اكتمالها."

def incompleteMarkerEn : Text := ofString "⚠️ This answer was cut off before it finished."

def hasArabic (text : Text) : Bool := text.any fun c => 0x600 ≤ c.val && c.val ≤ 0x6FF

def markIncomplete (text : Text) : Text :=
  text ++ (markerGap ++ if hasArabic text then incompleteMarkerAr else incompleteMarkerEn)

def Marked (text : Text) : Prop :=
  markerGap ++ incompleteMarkerAr <:+ text ∨ markerGap ++ incompleteMarkerEn <:+ text

instance (text : Text) : Decidable (Marked text) := instDecidableOr

theorem marked_markIncomplete (text : Text) : Marked (markIncomplete text) := by
  unfold markIncomplete
  split
  · exact Or.inl (List.suffix_append _ _)
  · exact Or.inr (List.suffix_append _ _)

def withFallbackNotice (notice : Text) (switched : Bool) (text : Text) : Text :=
  if !switched then text
  else if Blank text then notice
  else notice ++ markerGap ++ text

def pendingOptions : Option Json → List Text
  | some (.list items) => (items.filterMap id).filter fun item => ¬ Blank item
  | _ => []

def turnContent (cfg : Config) (data : Data) : Text :=
  match data.text with
  | some (.str raw) =>
    if ¬ Blank raw then raw else if data.fileRefs.isEmpty then cfg.dump data else []
  | _ => if data.fileRefs.isEmpty then cfg.dump data else []

def tokenDelta (event : AgentEvent) : Option Text :=
  match event.type, event.data.delta with
  | .token, some (.str delta) => some delta
  | _, _ => none

/-- `_TurnRecord` and the locals of `_metered`, with the replies the turn has stored, the events
it has pulled, the newest first, and the events it has forwarded. -/
structure Turn where
  read : List Text
  message : Option Text
  replies : List Text
  streamed : List Text
  terminal : Bool
  switched : Bool
  announced : Bool
  pulled : List AgentEvent
  forwarded : List AgentEvent
  ended : Bool

def Turn.fresh (read : List Text) : Turn :=
  ⟨read, none, [], [], false, false, false, [], [], false⟩

structure State where
  pending : List Text
  turn : Turn

def State.init : State := ⟨[], { Turn.fresh [] with ended := true }⟩

/-- How the store answers in a step: to a reply, to the open question, and to a second try. -/
structure Answers where
  append : Bool
  note : Bool
  again : Bool

def stores (cfg : Config) (t : Turn) (works : Bool) : Bool :=
  t.message.isNone && !decide (Blank t.streamed.flatten) && cfg.wired && works

def persistPartial (cfg : Config) (t : Turn) (works : Bool) : Turn :=
  if stores cfg t works then
    let text := markIncomplete (withFallbackNotice cfg.notice t.switched t.streamed.flatten)
    { t with message := some text, replies := text :: t.replies }
  else t

def writePending (cfg : Config) (s : State) (options : List Text) (works : Bool) : State :=
  if !cfg.wired || options = s.turn.read || !works then s else { s with pending := options }

def settleCut (cfg : Config) (s : State) (append note : Bool) : State :=
  writePending cfg { s with turn := persistPartial cfg s.turn append } [] note

def receive (t : Turn) (event : AgentEvent) (switched : Bool) : Turn :=
  { t with
    pulled := event :: t.pulled
    switched := t.switched || switched
    streamed := t.streamed ++ (tokenDelta event).toList
    terminal := t.terminal || event.type = .error }

/-- An event is pulled, and an error settled before anything is forwarded. -/
def pull (cfg : Config) (s : State) (event : AgentEvent) (switched : Bool) (works : Answers) :
    State :=
  let s := { s with turn := receive s.turn event switched }
  if event.type = .error then settleCut cfg s works.append works.note else s

def replyText (cfg : Config) (t : Turn) (data : Data) : Text :=
  withFallbackNotice cfg.notice t.switched (turnContent cfg data)

def persistReply (cfg : Config) (t : Turn) (data : Data) (works : Bool) : Turn :=
  if cfg.wired && works then
    { t with
      message := some (replyText cfg t data)
      replies := replyText cfg t data :: t.replies }
  else t

def stripPending (data : Data) : Data :=
  if data.pending = some .null then data else { data with pending := none }

def Turn.forward (t : Turn) (event : AgentEvent) : Turn :=
  { t with forwarded := t.forwarded ++ [event] }

def finalData (t : Turn) (data : Data) : Data :=
  stripPending { data with fallback := data.fallback || t.switched }

def deliver (cfg : Config) (s : State) (event : AgentEvent) (works : Answers) : State :=
  if event.type = .final then
    let s := writePending cfg s (pendingOptions event.data.pending) works.note
    let data := finalData s.turn event.data
    let t := persistReply cfg { s.turn with terminal := true } data works.append
    { s with turn := t.forward ⟨.final, data⟩ }
  else { s with turn := s.turn.forward event }

/-- The `finally` of a generator that nothing was thrown into but the reader's close. -/
def finish (cfg : Config) (s : State) (append note : Bool) : State :=
  let s := if s.turn.terminal then s else settleCut cfg s append note
  { s with turn := { s.turn with ended := true } }

def noticeDue (t : Turn) : Bool := t.switched && !t.announced

def plainData : Data := ⟨none, none, [], none, false⟩

def noticeEvent : AgentEvent := ⟨.other "notice", plainData⟩

def timeoutEvent : AgentEvent := ⟨.error, plainData⟩

def announce (s : State) : State :=
  { s with turn := { s.turn with announced := true }.forward noticeEvent }

/-- A turn begins; an event is pulled, after which the reader may leave at the notice that goes
out before it; the stream ends or is closed; the deadline passes; or the pull raises. -/
inductive Event where
  | begin
  | pulled (event : AgentEvent) (switched stays : Bool) (works : Answers)
  | left (works : Answers)
  | deadline (works : Answers)
  | raised (works : Answers)

def step (cfg : Config) (s : State) (e : Event) : Option State :=
  match e with
  | .begin => if s.turn.ended then some { s with turn := Turn.fresh s.pending } else none
  | .pulled event switched stays works =>
    if s.turn.ended then none
    else
      let s := pull cfg s event switched works
      if noticeDue s.turn then
        if stays then some (deliver cfg (announce s) event works)
        else some (finish cfg (announce s) works.append works.note)
      else some (deliver cfg s event works)
  | .left works => if s.turn.ended then none else some (finish cfg s works.append works.note)
  | .deadline works =>
    if s.turn.ended then none
    else
      let s := settleCut cfg s works.append works.note
      some { s with turn := { s.turn with terminal := true, ended := true }.forward timeoutEvent }
  | .raised works =>
    if s.turn.ended then none
    else some (finish cfg (settleCut cfg s works.append works.note) works.again works.note)

def produced (t : Turn) : Bool := t.pulled.any fun event => event.type = .final

def forwardedText (t : Turn) : Text := (t.forwarded.filterMap tokenDelta).flatten

/-- At most one reply, with the marker exactly when the agent produced no `final` event, and then
with the text that was forwarded. -/
def OneReply (cfg : Config) (t : Turn) : Prop :=
  t.replies.length ≤ 1 ∧ ∀ m ∈ t.replies, (Marked m ↔ produced t = false) ∧
    (produced t = false → ∃ switched, m =
      markIncomplete (withFallbackNotice cfg.notice switched (forwardedText t)))

def deltaText (event : AgentEvent) : Text := (tokenDelta event).getD []

/-- A cut does not come upon text that it would store after a `final` event. -/
def CutsBefore (cfg : Config) (t : Turn) (works : Bool) : Prop :=
  stores cfg t works = true → produced t = false

/-- No event comes after one that stored a reply it does not agree with, no stored reply of a
`final` event ends like a marked one, and the reader does not leave at a notice that holds back
the event for whose sake it is sent. -/
def Undivided (cfg : Config) (s : State) : Event → Prop
  | .begin => True
  | .pulled event switched stays works =>
    let t := receive s.turn event switched
    (event.type = .error → CutsBefore cfg t works.append) ∧
    (event.type = .final → ∀ m ∈ t.replies, ¬ Marked m) ∧
    if noticeDue t && !stays then
      t.terminal = false → stores cfg t works.append = true →
        produced t = false ∧ deltaText event = []
    else
      (event.type = .final → (cfg.wired && works.append) = true →
        t.replies = [] ∧ ¬ Marked (replyText cfg t (finalData t event.data))) ∧
      (produced t = false → deltaText event ≠ [] → t.replies = [])
  | .left works => s.turn.terminal = false → CutsBefore cfg s.turn works.append
  | .deadline works => CutsBefore cfg s.turn works.append
  | .raised works => CutsBefore cfg s.turn works.append ∧ CutsBefore cfg s.turn works.again

instance (cfg : Config) (t : Turn) (works : Bool) : Decidable (CutsBefore cfg t works) :=
  inferInstanceAs (Decidable (_ → _))

instance (cfg : Config) (s : State) : ∀ e, Decidable (Undivided cfg s e)
  | .begin => isTrue trivial
  | .pulled _ _ _ _ => by
    unfold Undivided
    infer_instance
  | .left _ => inferInstanceAs (Decidable (_ → CutsBefore _ _ _))
  | .deadline _ => inferInstanceAs (Decidable (CutsBefore _ _ _))
  | .raised _ => inferInstanceAs (Decidable (CutsBefore _ _ _ ∧ CutsBefore _ _ _))

/-- The reply agrees with the events, and what was streamed is what was forwarded and a rest. -/
structure Agrees (cfg : Config) (rest : Text) (t : Turn) : Prop where
  one : OneReply cfg t
  message : t.message = none → t.replies = []
  streamed : t.streamed.flatten = forwardedText t ++ rest

section Agreement

variable {cfg : Config} {rest : Text} {t : Turn} {s u : State} {event : AgentEvent}
  {works : Bool}

theorem Agrees.fresh (read : List Text) : Agrees cfg [] (Turn.fresh read) :=
  ⟨⟨Nat.zero_le 1, fun _ h => absurd h List.not_mem_nil⟩, fun _ => rfl, rfl⟩

theorem Agrees.receive (h : Agrees cfg [] t) (switched : Bool)
    (hfi : event.type = .final → ∀ m ∈ t.replies, ¬ Marked m) :
    Agrees cfg (deltaText event) (receive t event switched) := by
  refine ⟨⟨h.one.1, fun m hm => ?_⟩, h.message, ?_⟩
  · have hp : produced (MeteredTurns.receive t event switched) =
        (decide (event.type = .final) || produced t) := rfl
    obtain ⟨hma, htext⟩ := h.one.2 m hm
    by_cases hf : event.type = .final
    · simp [hp, hf, hfi hf m hm]
    · rw [hp, decide_eq_false hf, Bool.false_or]
      exact ⟨hma, htext⟩
  · have hfl : ((tokenDelta event).toList).flatten = deltaText event := by
      unfold deltaText
      cases tokenDelta event <;> simp
    have hs := h.streamed
    rw [List.append_nil] at hs
    rw [MeteredTurns.receive, List.flatten_append, hfl, hs]
    rfl

/-- A cut is stored only where no final event was. -/
theorem Agrees.persistPartial (h : Agrees cfg rest t)
    (hst : stores cfg t works = true → produced t = false ∧ rest = []) :
    Agrees cfg rest (persistPartial cfg t works) := by
  unfold MeteredTurns.persistPartial
  split
  · rename_i hs
    obtain ⟨hp, rfl⟩ := hst hs
    have hn : t.message = none := by
      simp only [stores, Bool.and_eq_true, Option.isNone_iff_eq_none] at hs
      exact hs.1.1.1
    have hnil := h.message hn
    have htext : t.streamed.flatten = forwardedText t := by simpa using h.streamed
    refine ⟨⟨by simp [hnil], fun m hm => ?_⟩, fun hm => (by cases hm), h.streamed⟩
    rw [hnil, List.mem_singleton] at hm
    subst hm
    exact ⟨iff_of_true (marked_markIncomplete _) hp,
      fun _ => ⟨t.switched, by rw [htext]; rfl⟩⟩
  · exact h

/-- A reply is stored once. -/
theorem Agrees.persistReply (h : Agrees cfg rest t) {data : Data} (hp : produced t = true)
    (hst : (cfg.wired && works) = true → t.replies = [] ∧ ¬ Marked (replyText cfg t data)) :
    Agrees cfg rest (persistReply cfg t data works) := by
  unfold MeteredTurns.persistReply
  split
  · rename_i hs
    obtain ⟨hnil, hm⟩ := hst hs
    refine ⟨⟨by simp [hnil], fun m hmem => ?_⟩, fun hm => (by cases hm), h.streamed⟩
    rw [hnil, List.mem_singleton] at hmem
    subst hmem
    have hyes : ¬ produced t = false := by simp [hp]
    exact ⟨iff_of_false hm hyes, fun hno => absurd hno hyes⟩
  · exact h

theorem forwardedText_forward : forwardedText (t.forward event) =
    forwardedText t ++ deltaText event := by
  unfold forwardedText Turn.forward deltaText
  rw [List.filterMap_append, List.flatten_append]
  cases hd : tokenDelta event <;> simp [hd]

theorem Agrees.forward (h : Agrees cfg (deltaText event ++ rest) t)
    (hs : produced t = false → deltaText event ≠ [] → t.replies = []) :
    Agrees cfg rest (t.forward event) := by
  refine ⟨⟨h.one.1, fun m hm => ?_⟩, h.message, ?_⟩
  · obtain ⟨hma, htext⟩ := h.one.2 m hm
    refine ⟨hma, fun hp => ?_⟩
    have hd : deltaText event = [] := by
      by_contra hne
      exact absurd hm (by rw [Turn.forward, hs hp hne]; exact List.not_mem_nil)
    rw [forwardedText_forward, hd, List.append_nil]
    exact htext hp
  · rw [forwardedText_forward, List.append_assoc]
    exact h.streamed

@[simp] theorem writePending_turn (options : List Text) :
    (writePending cfg s options works).turn = s.turn := by
  unfold writePending
  split <;> rfl

/-- What was stored of a cut is not stored again. -/
theorem stores_persistPartial {again : Bool}
    (h : stores cfg (persistPartial cfg t works) again = true) :
    persistPartial cfg t works = t := by
  unfold persistPartial at h ⊢
  split at h
  · simp [stores] at h
  · rename_i hs
    rw [if_neg hs]

theorem tokenDelta_of_final (h : event.type = .final) : deltaText event = [] := by
  rw [deltaText, tokenDelta, h]
  rfl

theorem Agrees.deliver {answers : Answers} (h : Agrees cfg (deltaText event) s.turn)
    (hfi : event.type = .final → produced s.turn = true ∧
      ((cfg.wired && answers.append) = true →
        s.turn.replies = [] ∧ ¬ Marked (replyText cfg s.turn (finalData s.turn event.data))))
    (hst : produced s.turn = false → deltaText event ≠ [] → s.turn.replies = []) :
    Agrees cfg [] (deliver cfg s event answers).turn := by
  unfold MeteredTurns.deliver
  split
  · rename_i hf
    obtain ⟨hp, hs⟩ := hfi hf
    rw [tokenDelta_of_final hf] at h
    have he : Agrees cfg [] { s.turn with terminal := true } := ⟨h.one, h.message, h.streamed⟩
    simp only [writePending_turn]
    exact (he.persistReply hp hs).forward fun _ hne => absurd rfl hne
  · exact Agrees.forward (by rwa [List.append_nil]) hst

theorem Agrees.finish {append note : Bool} (h : Agrees cfg rest s.turn)
    (hcut : s.turn.terminal = false → stores cfg s.turn append = true →
      produced s.turn = false ∧ rest = []) :
    Agrees cfg rest (finish cfg s append note).turn := by
  unfold MeteredTurns.finish
  split
  · exact ⟨h.one, h.message, h.streamed⟩
  · rename_i ht
    have hpart := h.persistPartial (hcut (Bool.eq_false_iff.mpr ht))
    simp only [settleCut, writePending_turn]
    exact ⟨hpart.one, hpart.message, hpart.streamed⟩

def Sound (cfg : Config) (s : State) : Prop :=
  ∃ rest, Agrees cfg rest s.turn ∧ (s.turn.ended = false → rest = [])

theorem Agrees.pull {switched : Bool} {answers : Answers} (h : Agrees cfg [] s.turn)
    (her : event.type = .error →
      CutsBefore cfg (MeteredTurns.receive s.turn event switched) answers.append)
    (hf : event.type = .final →
      ∀ m ∈ (MeteredTurns.receive s.turn event switched).replies, ¬ Marked m) :
    Agrees cfg (deltaText event) (MeteredTurns.pull cfg s event switched answers).turn := by
  have hr := h.receive switched hf
  unfold MeteredTurns.pull
  split
  · rename_i he
    have hd : deltaText event = [] := by
      rw [deltaText, tokenDelta, he]
      rfl
    simp only [settleCut, writePending_turn]
    exact hr.persistPartial fun hs => ⟨her he hs, hd⟩
  · exact hr

theorem Agrees.announce (h : Agrees cfg rest s.turn) : Agrees cfg rest (announce s).turn :=
  Agrees.forward ⟨h.one, h.message, h.streamed⟩ fun _ hne => absurd rfl hne

theorem pull_turn {switched : Bool} {answers : Answers} (h : event.type ≠ .error) :
    (pull cfg s event switched answers).turn = receive s.turn event switched := by
  rw [pull, if_neg h]

theorem pull_spec (cfg : Config) (s : State) (event : AgentEvent) (switched : Bool)
    (answers : Answers) :
    (pull cfg s event switched answers).turn.terminal =
        (receive s.turn event switched).terminal ∧
      noticeDue (pull cfg s event switched answers).turn =
        noticeDue (receive s.turn event switched) := by
  unfold pull
  split
  · simp only [settleCut, writePending_turn, persistPartial]
    split <;> exact ⟨rfl, rfl⟩
  · exact ⟨rfl, rfl⟩

end Agreement

/-- While events stay undivided, replies agree with them. -/
theorem step_sound {cfg : Config} (s : State) (e : Event) (t : State) (hs : Sound cfg s)
    (hok : Undivided cfg s e) (ht : step cfg s e = some t) : Sound cfg t := by
  obtain ⟨rest, ha, hr⟩ := hs
  cases e with
  | begin =>
    simp only [step] at ht
    split_ifs at ht
    cases ht
    exact ⟨[], Agrees.fresh _, fun _ => rfl⟩
  | pulled event switched stays works =>
    have ho : ¬ s.turn.ended = true := by
      intro ho
      simp [step, ho] at ht
    rw [step, if_neg ho] at ht
    obtain rfl := hr (Bool.eq_false_iff.mpr ho)
    obtain ⟨her, hfi, hl⟩ := hok
    have hpu := ha.pull her hfi
    have hpr : event.type = .final → produced (receive s.turn event switched) = true :=
      fun hf => by simp [produced, receive, hf]
    have hot : event.type = .final → event.type ≠ .error := fun hf he => by
      rw [hf] at he
      cases he
    have hd : deltaText event ≠ [] → event.type ≠ .error := fun hne he => by
      rw [deltaText, tokenDelta, he] at hne
      exact hne rfl
    simp only [(pull_spec cfg s event switched works).2] at ht
    split_ifs at ht with hnow hsy
    · cases ht
      rw [hnow, hsy, if_neg (by simp)] at hl
      refine ⟨[], hpu.announce.deliver (fun hf => ?_) fun hp hne => ?_, fun _ => rfl⟩
      · simp only [announce, Turn.forward, pull_turn (hot hf)]
        exact ⟨hpr hf, hl.1 hf⟩
      · simp only [announce, Turn.forward, pull_turn (hd hne), produced] at hp ⊢
        exact hl.2 hp hne
    · cases ht
      rw [hnow, Bool.eq_false_iff.mpr hsy, if_pos (by simp)] at hl
      refine ⟨_, hpu.announce.finish fun hop hst => ?_, fun hop => by cases hop⟩
      have hne : event.type ≠ .error := by
        intro he
        have hopen' := (pull_spec cfg s event switched works).1.symm.trans hop
        simp [receive, he] at hopen'
      simp only [announce, Turn.forward, pull_turn hne] at hop hst ⊢
      exact hl hop hst
    · cases ht
      rw [Bool.eq_false_iff.mpr hnow, if_neg (by simp)] at hl
      refine ⟨[], hpu.deliver (fun hf => ?_) fun hp hne => ?_, fun _ => rfl⟩
      · rw [pull_turn (hot hf)]
        exact ⟨hpr hf, hl.1 hf⟩
      · rw [pull_turn (hd hne)] at hp ⊢
        exact hl.2 hp hne
  | left works =>
    simp only [step] at ht
    split_ifs at ht with ho
    cases ht
    obtain rfl := hr (Bool.eq_false_iff.mpr ho)
    exact ⟨_, ha.finish fun hop hst => ⟨hok hop hst, rfl⟩, fun h => by cases h⟩
  | deadline works =>
    simp only [step] at ht
    split_ifs at ht with ho
    cases ht
    obtain rfl := hr (Bool.eq_false_iff.mpr ho)
    have hcut := ha.persistPartial fun hst => ⟨hok hst, rfl⟩
    refine ⟨[], ?_, fun _ => rfl⟩
    simp only [settleCut, writePending_turn]
    exact Agrees.forward ⟨hcut.one, hcut.message, hcut.streamed⟩ fun _ hne => absurd rfl hne
  | raised works =>
    simp only [step] at ht
    split_ifs at ht with ho
    cases ht
    obtain rfl := hr (Bool.eq_false_iff.mpr ho)
    have hcut := ha.persistPartial fun hst => ⟨hok.1 hst, rfl⟩
    have htu : (settleCut cfg s works.append works.note).turn =
      persistPartial cfg s.turn works.append := writePending_turn _
    rw [← htu] at hcut
    refine ⟨_, hcut.finish fun _ hst => ?_, fun h => by cases h⟩
    rw [htu] at hst ⊢
    have hsa := stores_persistPartial hst
    rw [hsa] at hst ⊢
    exact ⟨hok.2 hst, rfl⟩

/-- In every run whose steps are undivided, each turn has one reply at most, marked exactly when
the agent produced no `final` event and then with the text that was forwarded. -/
theorem one_turn_one_reply {cfg : Config} {events : List Event} {s : State}
    (hok : Guarded (step cfg) (Undivided cfg) State.init events)
    (hrun : run (step cfg) State.init events = some s) : OneReply cfg s.turn := by
  have hi : Sound cfg State.init :=
    ⟨[], ⟨⟨Nat.zero_le 1, fun _ h => absurd h List.not_mem_nil⟩, fun _ => rfl, rfl⟩, fun _ => rfl⟩
  obtain ⟨rest, hs, -⟩ := run_invariant step_sound hok hrun hi
  exact hs.one

private def heard : Config := ⟨true, ofString "local", fun _ => []⟩

private def stored : Answers := ⟨true, true, true⟩

private def tells (text : String) : AgentEvent :=
  ⟨.token, { plainData with delta := some (.str (ofString text)) }⟩

private def ends (text : String) (pending : Option Json) : AgentEvent :=
  ⟨.final, { plainData with text := some (.str (ofString text)), pending := pending }⟩

private def twoTurns : List Event :=
  [.begin, .pulled (tells "Half") false true stored, .deadline stored, .begin,
    .pulled (tells "All") true true stored, .pulled (ends "All" none) false true stored,
    .left stored]

theorem one_turn_one_reply_of_two :
    ∃ s, run (step heard) State.init twoTurns = some s ∧ OneReply heard s.turn := by
  obtain ⟨s, hrun⟩ := Option.isSome_iff_exists.mp
    (show (run (step heard) State.init twoTurns).isSome = true by decide +kernel)
  have hok : Guarded (step heard) (Undivided heard) State.init twoTurns := by
    decide +kernel
  exact ⟨s, hrun, one_turn_one_reply hok hrun⟩

private def twoFinals : List Event :=
  [.begin, .pulled (ends "Yes" none) false true stored,
    .pulled (ends "No" none) false true stored, .left stored]

theorem two_finals_two_replies :
    ∃ s, run (step heard) State.init twoFinals = some s ∧ ¬ OneReply heard s.turn := by
  obtain ⟨s, hrun, htwo⟩ := exists_run_of_any (p := fun s => s.turn.replies.length = 2)
    (show (run (step heard) State.init twoFinals).any _ = true by decide +kernel)
  refine ⟨s, hrun, fun hone => ?_⟩
  have hl := hone.1
  rw [of_decide_eq_true htwo] at hl
  omega

end Aizzak.MeteredTurns
