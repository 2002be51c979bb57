import Aizzak.SummaryMessages
import Aizzak.Transcripts

/-!
The delivery of a finished or a failed summary to the thread that asked for it. The relay may
publish an event twice and the stream may deliver an entry many times, to several workers at
once; the claim of the event and the message are committed together. Whatever the handler takes
for an answer is acknowledged: that there is nowhere to deliver, but also any failure that the
adapters have translated.
-/
namespace Aizzak.SummaryDeliveries

open EventRuns KeyedTables VersionedRows PyText Conversations SummaryJobs SummaryMessages

inductive Content where
  | built (key : SummaryKey)
  | failed (reason : Text)

structure Notice where
  conversationId : Option ℕ
  content : Content

inductive Phase where
  | received
  | claiming (text : Text)
  | reading (text : Text)
  | inserting (message : Message)
  | answered

def Phase.holds : Phase → Bool
  | .reading _ | .inserting _ => true
  | .received | .claiming _ | .answered => false

structure Delivery where
  entry : ℕ
  event : ℕ
  notice : Notice
  phase : Phase

/-- `delivered` lists the events whose transactions have committed, each with its message. -/
structure State where
  threads : Transcripts.State
  summaries : AList fun _ : SummaryKey => Summary
  outbox : AList fun _ : ℕ => Notice
  entries : AList fun _ : ℕ => ℕ
  deliveries : AList fun _ : ℕ => Delivery
  claims : List ℕ
  delivered : List (ℕ × ℕ)
  acked : List ℕ
  dead : List ℕ

def init : State := ⟨Transcripts.init, ∅, ∅, ∅, ∅, [], [], [], []⟩

inductive Event where
  | thread (e : Transcripts.Event)
  | store (key : SummaryKey) (summary : Summary)
  | drop (key : SummaryKey)
  | publish (event : ℕ) (notice : Notice)
  | relay (entry event : ℕ)
  | deliver (id entry : ℕ)
  | next (id newId now : ℕ) (fileName : Option Text)
  | databaseError (id : ℕ)
  | crash (id : ℕ)
  | commitUnanswered (id newId : ℕ)
  | ack (id : ℕ)
  | deadLetter (entry : ℕ)

def appendTask (conversation : ℕ) (text : Text) : Transcripts.Task :=
  ⟨conversation, .append (ofString "assistant") text [] none, .requested⟩

def execute (threads : Transcripts.State) (conversation : ℕ) (text : Text) (now : ℕ) :
    Except Transcripts.Refusal Transcripts.Phase :=
  Transcripts.perform (appendTask conversation text) (threads.conversations.lookup conversation)
    (messageCount threads.messages conversation) now []

namespace State

def held (s : State) (event : ℕ) : Bool :=
  anyRow s.deliveries fun _ delivery => delivery.event = event && delivery.phase.holds

def accepts (s : State) (message : Message) : Bool :=
  (s.threads.conversations.lookup message.conversationId).isSome && !s.threads.taken message

def moved (s : State) (id : ℕ) (delivery : Delivery) (phase : Phase) : State :=
  { s with deliveries := s.deliveries.insert id { delivery with phase := phase } }

def dropped (s : State) (id : ℕ) : State := { s with deliveries := s.deliveries.erase id }

def committed (s : State) (delivery : Delivery) (newId : ℕ) (message : Message) : State :=
  { s with
    threads := s.threads.insertMessage newId message
    claims := delivery.event :: s.claims
    delivered := (delivery.event, newId) :: s.delivered }

end State

section Machine

variable (lower : Text → Text) (isAlpha : CodePoint → Bool)

def compose (summaries : AList fun _ : SummaryKey => Summary) (content : Content)
    (fileName : Option Text) : Option Text :=
  match content with
  | .built key =>
    (summaries.lookup key).map fun summary => deliveredSummaryText isAlpha summary fileName
  | .failed reason => some (deliveredFailureText isAlpha reason fileName)

def advance (s : State) (id : ℕ) (delivery : Delivery) (newId now : ℕ)
    (fileName : Option Text) : Option State :=
  match delivery.phase, delivery.notice.conversationId with
  | .received, none => some (s.moved id delivery .answered)
  | .received, some _ =>
    match compose isAlpha s.summaries delivery.notice.content fileName with
    | none => some (s.moved id delivery .answered)
    | some text => some (s.moved id delivery (.claiming text))
  | .claiming text, _ =>
    if s.held delivery.event then none
    else if delivery.event ∈ s.claims then some (s.moved id delivery .answered)
    else some (s.moved id delivery (.reading text))
  | .reading _, none => none
  | .reading text, some conversation =>
    match execute s.threads conversation text now with
    | .error _ => some (s.moved id delivery .answered)
    | .ok (.inserting message) => some (s.moved id delivery (.inserting message))
    | .ok _ => none
  | .inserting message, _ =>
    if newId ∈ s.threads.messages then none
    else if s.accepts message then
      some ((s.committed delivery newId message).moved id delivery .answered)
    else some (s.moved id delivery .answered)
  | .answered, _ => none

/-- A database failure in the delivery. Outside the `try` it escapes; inside, the adapters make
an `AppError` of it and the handler returns. -/
def failDatabase (s : State) (id : ℕ) (delivery : Delivery) : Option State :=
  match delivery.phase with
  | .received => some (s.dropped id)
  | .claiming _ | .reading _ | .inserting _ => some (s.moved id delivery .answered)
  | .answered => none

def commitUnanswered (s : State) (id newId : ℕ) (delivery : Delivery) : Option State :=
  match delivery.phase with
  | .inserting message =>
    if newId ∈ s.threads.messages then none
    else if s.accepts message then some ((s.committed delivery newId message).dropped id)
    else none
  | _ => none

def step (s : State) : Event → Option State
  | .thread e =>
    match Transcripts.step lower s.threads e with
    | none => none
    | some threads => some { s with threads := threads }
  | .store key summary => some { s with summaries := s.summaries.insert key summary }
  | .drop key => some { s with summaries := s.summaries.erase key }
  | .publish event notice =>
    if event ∈ s.outbox then none
    else some { s with outbox := s.outbox.insert event notice }
  | .relay entry event =>
    if entry ∈ s.entries ∨ event ∉ s.outbox then none
    else some { s with entries := s.entries.insert entry event }
  | .deliver id entry =>
    if id ∈ s.deliveries ∨ entry ∈ s.acked ∨ entry ∈ s.dead then none
    else
      match s.entries.lookup entry with
      | none => none
      | some event =>
        match s.outbox.lookup event with
        | none => none
        | some notice =>
          some { s with deliveries := s.deliveries.insert id ⟨entry, event, notice, .received⟩ }
  | .next id newId now fileName =>
    match s.deliveries.lookup id with
    | none => none
    | some delivery => advance isAlpha s id delivery newId now fileName
  | .databaseError id =>
    match s.deliveries.lookup id with
    | none => none
    | some delivery => failDatabase s id delivery
  | .crash id => if id ∈ s.deliveries then some (s.dropped id) else none
  | .commitUnanswered id newId =>
    match s.deliveries.lookup id with
    | none => none
    | some delivery => commitUnanswered s id newId delivery
  | .ack id =>
    match s.deliveries.lookup id with
    | none => none
    | some delivery =>
      match delivery.phase with
      | .answered => some { s.dropped id with acked := delivery.entry :: s.acked }
      | _ => none
  | .deadLetter entry =>
    if entry ∈ s.entries then some { s with dead := entry :: s.dead } else none

end Machine

def Phase.loses (threads : Transcripts.State) : Phase → Bool
  | .inserting message => threads.taken message
  | _ => false

def Phase.outsideTry : Phase → Bool
  | .claiming _ | .reading _ | .inserting _ => false
  | .received | .answered => true

/-- The database does not fail between the start of the claim and the end of the append, and the
append does not lose a race for its number. -/
def undisturbed (s : State) : Event → Bool
  | .next id _ _ _ => (s.deliveries.lookup id).all fun delivery => !delivery.phase.loses s.threads
  | .databaseError id => (s.deliveries.lookup id).all (·.phase.outsideTry)
  | _ => true

def Undisturbed (s : State) (e : Event) : Prop := undisturbed s e = true

instance (s : State) (e : Event) : Decidable (Undisturbed s e) :=
  inferInstanceAs (Decidable (_ = true))

structure Kept (s t : Transcripts.State) : Prop where
  threads : ∀ conversation ∈ s.conversations, conversation ∈ t.conversations
  messages : ∀ key message, s.messages.lookup key = some message →
    ∃ deletedAt, t.messages.lookup key = some { message with deletedAt := deletedAt }

theorem Kept.refl (s : Transcripts.State) : Kept s s :=
  ⟨fun _ => id, fun _ message h => ⟨message.deletedAt, h⟩⟩

variable {s : Transcripts.State}

theorem threaded_kept {e : Transcripts.Event} {threads : Threads}
    (h : Transcripts.Threaded s e threads) :
    ∀ conversation ∈ s.conversations, conversation ∈ threads := by
  intro conversation hmem
  cases h with
  | same => exact hmem
  | started he hf hs => exact (AList.mem_insert _).mpr (.inr hmem)
  | continued hrow => exact (AList.mem_insert _).mpr (.inr hmem)
  | saved he ht hp hsa =>
    obtain ⟨row, hrow, hv, rfl⟩ := Transcripts.saveConversation_eq_some hsa
    exact (AList.mem_insert _).mpr (.inr hmem)

theorem messaged_kept {messages : Messages} (h : Transcripts.Messaged s messages) :
    ∀ key message, s.messages.lookup key = some message →
      ∃ deletedAt, messages.lookup key = some { message with deletedAt := deletedAt } := by
  intro key message hm
  cases h with
  | same => exact ⟨message.deletedAt, hm⟩
  | inserted ht hp hkey hrow hf =>
    rename_i id newId task new row
    have hne : key ≠ newId := by
      rintro rfl
      exact hkey (mem_of_lookup hm)
    exact ⟨message.deletedAt, (AList.lookup_insert_ne hne).trans hm⟩
  | marked hma =>
    rename_i other found deletedAt
    rcases same_or_ne hma hm with ⟨rfl, rfl⟩ | hne
    · exact ⟨deletedAt, AList.lookup_insert _⟩
    · exact ⟨message.deletedAt, (AList.lookup_insert_ne hne).trans hm⟩

theorem step_kept {lower : Text → Text} {t : Transcripts.State} {e : Transcripts.Event}
    (h : Transcripts.step lower s e = some t) : Kept s t :=
  ⟨threaded_kept (Transcripts.step_change h).threads,
    messaged_kept (Transcripts.step_change h).messages⟩

theorem insertMessage_eq {newId : ℕ} {message : Message} {row : Versioned Conversation}
    (hrow : s.conversations.lookup message.conversationId = some row)
    (hf : s.taken message = false) :
    s.insertMessage newId message =
      { s with
        conversations := s.conversations.insert message.conversationId
          ⟨row.value, row.version + 1⟩
        messages := s.messages.insert newId message } := by
  rw [Transcripts.State.insertMessage]
  simp only [hrow, hf, Bool.false_eq_true, if_false]

theorem insertMessage_kept {newId : ℕ} {message : Message} (hnew : newId ∉ s.messages) :
    Kept s (s.insertMessage newId message) := by
  unfold Transcripts.State.insertMessage
  split
  · exact .refl s
  · split
    · exact .refl s
    · refine ⟨fun conversation hmem => (AList.mem_insert _).mpr (.inr hmem), ?_⟩
      intro key found hf
      have hne : key ≠ newId := by
        rintro rfl
        exact hnew (mem_of_lookup hf)
      exact ⟨found.deletedAt, (AList.lookup_insert_ne hne).trans hf⟩

section Messages

variable {isAlpha : CodePoint → Bool} {threads : Transcripts.State} {conversation now : ℕ}
  {text : Text}

theorem compose_not_blank {summaries : AList fun _ : SummaryKey => Summary} {content : Content}
    {fileName : Option Text} (h : compose isAlpha summaries content fileName = some text) :
    ¬ Blank text := by
  cases content with
  | built key =>
    obtain ⟨summary, -, rfl⟩ := Option.map_eq_some_iff.mp h
    exact deliveredSummaryText_not_blank summary fileName
  | failed reason =>
    cases h
    exact deliveredFailureText_not_blank reason fileName

theorem compose_eq_none {summaries : AList fun _ : SummaryKey => Summary} {content : Content}
    {fileName : Option Text} (h : compose isAlpha summaries content fileName = none) :
    ∃ key, content = .built key ∧ key ∉ summaries := by
  cases content with
  | built key =>
    refine ⟨key, rfl, ?_⟩
    rw [← AList.lookup_eq_none]
    exact Option.map_eq_none_iff.mp h
  | failed reason => cases h

theorem content_make (h : ¬ Blank text) :
    ∃ content, MessageContent.make text [] = .ok content ∧ content.text = strip text := by
  have hs : ¬ strip text = [] := fun he => h (blank_of_strip_eq_nil he)
  simp [MessageContent.make, hs]

structure Carries (conversation : ℕ) (text : Text) (message : Message) : Prop where
  conversationId : message.conversationId = conversation
  role : message.role = .assistant
  content : message.content.text = strip text

def Unreachable (threads : Transcripts.State) (conversation : ℕ) : Prop :=
  ∀ row, threads.conversations.lookup conversation = some row → row.value.isLive = false

theorem execute_eq (threads : Transcripts.State) (conversation now : ℕ) (h : ¬ Blank text) :
    (∃ refusal, execute threads conversation text now = .error refusal ∧
        Unreachable threads conversation) ∨
      ∃ message, execute threads conversation text now = .ok (.inserting message) ∧
        conversation ∈ threads.conversations ∧ Carries conversation text message := by
  obtain ⟨content, hcontent, htext⟩ := content_make h
  have hr : MessageRole.parse (ofString "assistant") = some .assistant := by decide +kernel
  unfold execute Transcripts.perform appendTask
  cases hrow : threads.conversations.lookup conversation with
  | none =>
    refine .inl ⟨.notFound, ?_, fun row hf => ?_⟩
    · simp only [hr, hcontent]
    · rw [hrow] at hf
      cases hf
  | some read =>
    cases hl : read.value.isLive with
    | false =>
      have hd : read.value.deletedAt.isSome = true := by
        rw [Conversation.isLive] at hl
        simpa [Option.isNone_eq_false_iff] using hl
      refine .inl ⟨.conversationDeleted, ?_, fun row hf => ?_⟩
      · simp only [hr, hcontent, Conversation.appendMessage, Conversation.guardNotDeleted,
          hd, if_true]
        rfl
      · rw [hrow] at hf
        cases hf
        exact hl
    | true =>
      have hk : read.value.deletedAt.isSome = false := by
        rw [Conversation.isLive] at hl
        simpa using hl
      refine .inr ⟨⟨conversation, .assistant, content, none,
        messageCount threads.messages conversation + 1, now, none⟩, ?_, mem_of_lookup hrow,
        ⟨rfl, rfl, htext⟩⟩
      simp only [hr, hcontent, Conversation.appendMessage, Conversation.guardNotDeleted, hk,
        Bool.false_eq_true, if_false]
      rfl

end Messages

inductive Spared (s : State) (e : Event) (id : ℕ) (delivery : Delivery) : Prop where
  | nowhere (h : delivery.notice.conversationId = none)
  | gone {key : SummaryKey} (hcontent : delivery.notice.content = .built key)
      (h : key ∉ s.summaries)
  | duplicate (h : delivery.event ∈ s.claims)
  | declined {text : Text} {conversation now : ℕ} {refusal : Transcripts.Refusal}
      (hphase : delivery.phase = .reading text)
      (hconversation : delivery.notice.conversationId = some conversation)
      (h : execute s.threads conversation text now = .error refusal)
  | refused {message : Message} {newId now : ℕ} {fileName : Option Text}
      (he : e = .next id newId now fileName) (hphase : delivery.phase = .inserting message)
      (h : s.accepts message = false)
  | failed (he : e = .databaseError id) (hphase : delivery.phase.outsideTry = false)

inductive Moves (isAlpha : CodePoint → Bool) (s : State) (delivery : Delivery) : Phase → Prop where
  | composes {text : Text} {fileName : Option Text} {conversation : ℕ}
      (hconversation : delivery.notice.conversationId = some conversation)
      (h : compose isAlpha s.summaries delivery.notice.content fileName = some text) :
      Moves isAlpha s delivery (.claiming text)
  | claims {text : Text} (hphase : delivery.phase = .claiming text)
      (hfree : s.held delivery.event = false) (hnew : delivery.event ∉ s.claims) :
      Moves isAlpha s delivery (.reading text)
  | appends {text : Text} {conversation now : ℕ} {message : Message}
      (hphase : delivery.phase = .reading text)
      (hconversation : delivery.notice.conversationId = some conversation)
      (h : execute s.threads conversation text now = .ok (.inserting message)) :
      Moves isAlpha s delivery (.inserting message)

inductive Turn (isAlpha : CodePoint → Bool) (s : State) (e : Event) : State → Prop where
  | threads {threads : Transcripts.State} (hkept : Kept s.threads threads) :
      Turn isAlpha s e { s with threads := threads }
  | summaries {summaries : AList fun _ : SummaryKey => Summary} :
      Turn isAlpha s e { s with summaries := summaries }
  | published {event : ℕ} {notice : Notice} (hnew : event ∉ s.outbox) :
      Turn isAlpha s e { s with outbox := s.outbox.insert event notice }
  | relayed {entry event : ℕ} (hnew : entry ∉ s.entries) (hevent : event ∈ s.outbox) :
      Turn isAlpha s e { s with entries := s.entries.insert entry event }
  | deadLettered {entry : ℕ} : Turn isAlpha s e { s with dead := entry :: s.dead }
  | delivered {id entry event : ℕ} {notice : Notice}
      (hentry : s.entries.lookup entry = some event)
      (hnotice : s.outbox.lookup event = some notice) :
      Turn isAlpha s e
        { s with deliveries := s.deliveries.insert id ⟨entry, event, notice, .received⟩ }
  | moved {id : ℕ} {delivery : Delivery} {phase : Phase}
      (hdelivery : s.deliveries.lookup id = some delivery) (h : Moves isAlpha s delivery phase) :
      Turn isAlpha s e (s.moved id delivery phase)
  | spared {id : ℕ} {delivery : Delivery} (hdelivery : s.deliveries.lookup id = some delivery)
      (h : Spared s e id delivery) : Turn isAlpha s e (s.moved id delivery .answered)
  | committed {id newId : ℕ} {delivery : Delivery} {message : Message}
      {deliveries : AList fun _ : ℕ => Delivery}
      (hdelivery : s.deliveries.lookup id = some delivery)
      (hphase : delivery.phase = .inserting message) (hnew : newId ∉ s.threads.messages)
      (haccepts : s.accepts message = true)
      (hafter : deliveries = s.deliveries.insert id { delivery with phase := .answered } ∨
        deliveries = s.deliveries.erase id) :
      Turn isAlpha s e { s.committed delivery newId message with deliveries := deliveries }
  | dropped {id : ℕ} : Turn isAlpha s e (s.dropped id)
  | acked {id : ℕ} {delivery : Delivery} (hdelivery : s.deliveries.lookup id = some delivery)
      (hphase : delivery.phase = .answered) :
      Turn isAlpha s e { s.dropped id with acked := delivery.entry :: s.acked }

section Steps

variable {lower : Text → Text} {isAlpha : CodePoint → Bool} {s t : State} {e : Event}
  {id newId now : ℕ} {delivery : Delivery} {fileName : Option Text}

theorem turn_advance (he : e = .next id newId now fileName)
    (hd : s.deliveries.lookup id = some delivery)
    (h : advance isAlpha s id delivery newId now fileName = some t) : Turn isAlpha s e t := by
  unfold advance at h
  split at h
  · rename_i hn
    cases h
    exact .spared hd (.nowhere hn)
  · rename_i conversation _ hc
    split at h
    · rename_i hn
      cases h
      obtain ⟨key, hcontent, hg⟩ := compose_eq_none hn
      exact .spared hd (.gone hcontent hg)
    · rename_i text htext
      cases h
      exact .moved hd (.composes hc htext)
  · rename_i text hp
    split_ifs at h with hh hcl
    · cases h
      exact .spared hd (.duplicate hcl)
    · cases h
      exact .moved hd (.claims hp (by simpa using hh) hcl)
  · cases h
  · rename_i text conversation hp hc
    split at h
    · rename_i refusal hr
      cases h
      exact .spared hd (.declined hp hc hr)
    · rename_i message hm
      cases h
      exact .moved hd (.appends hp hc hm)
    · cases h
  · rename_i message hp
    split_ifs at h with hnew ha
    · cases h
      exact .committed hd hp hnew ha (.inl rfl)
    · cases h
      exact .spared hd (.refused he hp (by simpa using ha))
  · cases h

theorem turn_failDatabase (he : e = .databaseError id)
    (hd : s.deliveries.lookup id = some delivery)
    (h : failDatabase s id delivery = some t) : Turn isAlpha s e t := by
  have hs (hp : delivery.phase.outsideTry = false) :
      Turn isAlpha s e (s.moved id delivery .answered) := .spared hd (.failed he hp)
  unfold failDatabase at h
  split at h
  · cases h
    exact .dropped
  · rename_i hp
    cases h
    exact hs (by rw [hp]; rfl)
  · rename_i hp
    cases h
    exact hs (by rw [hp]; rfl)
  · rename_i hp
    cases h
    exact hs (by rw [hp]; rfl)
  · cases h

theorem turn_commitUnanswered (hd : s.deliveries.lookup id = some delivery)
    (h : commitUnanswered s id newId delivery = some t) : Turn isAlpha s e t := by
  unfold commitUnanswered at h
  split at h
  · rename_i message hp
    split_ifs at h with hnew ha
    cases h
    exact .committed hd hp hnew ha (.inr rfl)
  · cases h

theorem step_turn (h : step lower isAlpha s e = some t) : Turn isAlpha s e t := by
  cases e with
  | thread e =>
    simp only [step] at h
    split at h
    · cases h
    · rename_i threads ht
      cases h
      exact .threads (step_kept ht)
  | store key summary =>
    cases h
    exact .summaries
  | drop key =>
    cases h
    exact .summaries
  | publish event notice =>
    simp only [step] at h
    split_ifs at h with hnew
    cases h
    exact .published hnew
  | relay entry event =>
    simp only [step] at h
    split_ifs at h with hnew
    cases h
    rw [not_or, not_not] at hnew
    exact .relayed hnew.1 hnew.2
  | deliver id entry =>
    simp only [step] at h
    split_ifs at h
    split at h
    · cases h
    · rename_i event he
      split at h
      · cases h
      · rename_i notice hn
        cases h
        exact .delivered he hn
  | next id newId now fileName =>
    simp only [step] at h
    split at h
    · cases h
    · rename_i delivery hd
      exact turn_advance rfl hd h
  | databaseError id =>
    simp only [step] at h
    split at h
    · cases h
    · rename_i delivery hd
      exact turn_failDatabase rfl hd h
  | crash id =>
    simp only [step] at h
    split_ifs at h
    cases h
    exact .dropped
  | commitUnanswered id newId =>
    simp only [step] at h
    split at h
    · cases h
    · rename_i delivery hd
      exact turn_commitUnanswered hd h
  | ack id =>
    simp only [step] at h
    split at h
    · cases h
    · rename_i delivery hd
      split at h
      · rename_i hp
        cases h
        exact .acked hd hp
      · cases h
  | deadLetter entry =>
    simp only [step] at h
    split_ifs at h
    cases h
    exact .deadLettered

end Steps

end Aizzak.SummaryDeliveries
