import Aizzak.Conversations
import Aizzak.EventRuns

/-!
Threads that many requests continue, edit and delete at once. Each request reads the thread in
one transaction and writes in a later one. The insert of a message is held to a free number of
its thread and to nothing else of what was read: the number is the next one or taken, so the
transcript keeps its numbers, but a thread deleted in between is continued all the same.
-/
namespace Aizzak.Transcripts

open EventRuns KeyedTables VersionedRows PyText Conversations

structure StartRequest where
  spaceId : Option ℕ
  agentKey : Text
  kind : ConversationKind
  title : Option Text
  user : Option ℕ

def startConversation (lower : Text → Text) (request : StartRequest) (now : ℕ) :
    Except ConversationError Conversation := do
  let key ← AgentKey.make lower request.agentKey
  .ok
    { spaceId := request.spaceId
      agentKey := key
      kind := request.kind
      title := request.title
      modelRoute := none
      pendingClarification := []
      createdBy := request.user
      createdAt := now
      deletedAt := none }

inductive Operation where
  | append (role text : Text) (attachments : List Text) (tokenCount : Option ℕ)
  | deleteMessage (message : ℕ)
  | rename (title : Option Text)
  | pin (route : Option Text)
  | expect (options : List Text)
  | delete

inductive Refusal where
  | invalidRole
  | invalidContent (problem : ConversationError)
  | routeBlank
  | routeUnknown
  | notFound
  | conversationDeleted
deriving DecidableEq

inductive Phase where
  | requested
  | inserting (message : Message)
  | saving (read : Versioned Conversation) (after : Conversation)
  | locating (message : ℕ)
  | marking (key : ℕ) (message : Message)

structure Task where
  conversation : ℕ
  operation : Operation
  phase : Phase

structure State where
  conversations : Threads
  messages : Messages
  tasks : AList fun _ : ℕ => Task

def init : State := ⟨∅, ∅, ∅⟩

inductive Event where
  | start (conversation : ℕ) (request : StartRequest) (now : ℕ)
  | request (id : ℕ) (conversation : ℕ) (operation : Operation)
  | next (id newId now : ℕ) (routes : List Text)
  | fails (id : ℕ)

def edited (read : Versioned Conversation) :
    Except ConversationError Conversation → Except Refusal Phase
  | .ok after => .ok (.saving read after)
  | .error _ => .error .conversationDeleted

def requireRoutable (routes : List Text) : Option Text → Except Refusal Unit
  | none => .ok ()
  | some route =>
    if Blank route then .error .routeBlank
    else if route ∈ routes then .ok ()
    else .error .routeUnknown

def perform (task : Task) (found : Option (Versioned Conversation)) (count now : ℕ)
    (routes : List Text) : Except Refusal Phase :=
  match task.operation, found with
  | .append role text attachments tokenCount, found =>
    match MessageRole.parse role, MessageContent.make text attachments, found with
    | none, _, _ => .error .invalidRole
    | some _, .error problem, _ => .error (.invalidContent problem)
    | some _, .ok _, none => .error .notFound
    | some role, .ok content, some read =>
      match read.value.appendMessage task.conversation count role content tokenCount now with
      | .ok message => .ok (.inserting message)
      | .error _ => .error .conversationDeleted
  | _, none => .error .notFound
  | .deleteMessage message, some read =>
    if read.value.isLive then .ok (.locating message) else .error .conversationDeleted
  | .rename title, some read => edited read (read.value.rename title)
  | .pin route, some read =>
    match requireRoutable routes route with
    | .error refusal => .error refusal
    | .ok _ => edited read (read.value.pinModelRoute route)
  | .expect options, some read => edited read (read.value.expectClarification options)
  | .delete, some read => .ok (.saving read (read.value.softDelete now))

namespace State

def finish (s : State) (id : ℕ) : State := { s with tasks := s.tasks.erase id }

def proceed (s : State) (id : ℕ) (task : Task) : Except Refusal Phase → State
  | .ok phase => { s with tasks := s.tasks.insert id { task with phase := phase } }
  | .error _ => s.finish id

def taken (s : State) (message : Message) : Bool :=
  anyRow s.messages fun _ other =>
    other.conversationId = message.conversationId && other.seq = message.seq

/-- The transaction of `append_message`: the insert and the unconditional raise of the version. -/
def insertMessage (s : State) (newId : ℕ) (message : Message) : State :=
  match s.conversations.lookup message.conversationId with
  | none => s
  | some row =>
    if s.taken message then s
    else
      { s with
        conversations := s.conversations.insert message.conversationId
          ⟨row.value, row.version + 1⟩
        messages := s.messages.insert newId message }

def saveConversation (s : State) (conversation : ℕ) (read : Versioned Conversation)
    (after : Conversation) : Option Threads :=
  match s.conversations.lookup conversation with
  | none => none
  | some row => save s.conversations conversation read (row.value.rewrite after)

def saveMessage (s : State) (key : ℕ) (message : Message) : State :=
  match s.messages.lookup key with
  | none => s
  | some row =>
    { s with messages := s.messages.insert key { row with deletedAt := message.deletedAt } }

def locate (s : State) (conversation key now : ℕ) : Except Refusal Phase :=
  match s.messages.lookup key with
  | none => .error .notFound
  | some message =>
    if message.conversationId = conversation then .ok (.marking key (message.softDelete now))
    else .error .notFound

def advance (s : State) (id : ℕ) (task : Task) (newId now : ℕ) (routes : List Text) :
    Option State :=
  match task.phase with
  | .requested =>
    some (s.proceed id task (perform task (s.conversations.lookup task.conversation)
      (messageCount s.messages task.conversation) now routes))
  | .inserting message =>
    if newId ∈ s.messages then none else some ((s.insertMessage newId message).finish id)
  | .saving read after =>
    match s.saveConversation task.conversation read after with
    | none => some (s.finish id)
    | some conversations => some ({ s with conversations := conversations }.finish id)
  | .locating key => some (s.proceed id task (s.locate task.conversation key now))
  | .marking key message => some ((s.saveMessage key message).finish id)

end State

section Machine

variable (lower : Text → Text)

def step (s : State) : Event → Option State
  | .start conversation request now =>
    if conversation ∈ s.conversations then none
    else
      match startConversation lower request now with
      | .error _ => none
      | .ok value =>
        some { s with conversations := s.conversations.insert conversation ⟨value, 1⟩ }
  | .request id conversation operation =>
    if id ∈ s.tasks then none
    else some { s with tasks := s.tasks.insert id ⟨conversation, operation, .requested⟩ }
  | .next id newId now routes =>
    match s.tasks.lookup id with
    | none => none
    | some task => s.advance id task newId now routes
  | .fails id => if id ∈ s.tasks then some (s.finish id) else none

end Machine

def Phase.continues (conversation count : ℕ) : Phase → Bool
  | .inserting message => message.conversationId = conversation && message.seq = count + 1
  | _ => false

def State.awaits (s : State) (conversation : ℕ) : Bool :=
  anyRow s.tasks fun _ task =>
    task.phase.continues conversation (messageCount s.messages conversation)

def State.deletes (s : State) (task : Task) : Bool :=
  match task.phase with
  | .saving read after =>
    read.value.isLive && !after.isLive &&
      (s.conversations.lookup task.conversation).any (·.version = read.version)
  | _ => false

/-- A conversation is deleted only while no request has its next message ready. -/
def Settled (s : State) : Event → Prop
  | .next id _ _ _ => ∀ task ∈ s.tasks.lookup id, s.deletes task = true →
      s.awaits task.conversation = false
  | _ => True

instance (s : State) : ∀ e, Decidable (Settled s e)
  | .next id _ _ _ =>
    match h : s.tasks.lookup id with
    | none => isTrue fun task htask => by
        rw [h] at htask
        cases htask
    | some task =>
      decidable_of_iff (s.deletes task = true → s.awaits task.conversation = false) (by
        simp [Settled, h])
  | .start _ _ _ | .request _ _ _ | .fails _ => isTrue trivial

/-- A write of a thread: it is not moved to another space, nor revived. -/
structure Moved (old new : Conversation) : Prop where
  spaceId : new.spaceId = old.spaceId
  live : new.isLive = true → old.isLive = true

theorem Moved.refl (conversation : Conversation) : Moved conversation conversation := ⟨rfl, id⟩

theorem moved_of_edited {old new : Conversation} (h : old.Edited new) : Moved old new :=
  ⟨h.spaceId, fun _ => h.live⟩

theorem moved_softDelete (conversation : Conversation) (now : ℕ) :
    Moved conversation (conversation.softDelete now) := by
  refine ⟨conversation.softDelete_spaceId now, fun hl => ?_⟩
  rw [conversation.softDelete_isLive] at hl
  cases hl

theorem moved_rewrite {stored conversation : Conversation} (h : Moved stored conversation) :
    Moved stored (stored.rewrite conversation) := ⟨rfl, h.live⟩

inductive Begun (task : Task) (count : ℕ) (read : Versioned Conversation) : Phase → Prop where
  | appends {message : Message} (hlive : read.value.isLive = true)
      (hconversation : message.conversationId = task.conversation)
      (hseq : message.seq = count + 1) : Begun task count read (.inserting message)
  | saves {after : Conversation} (hmoved : Moved read.value after) :
      Begun task count read (.saving read after)
  | locates {message : ℕ} : Begun task count read (.locating message)

theorem edited_eq_ok {read : Versioned Conversation} {task : Task} {count : ℕ} {phase : Phase}
    {result : Except ConversationError Conversation} (h : edited read result = .ok phase)
    (he : ∀ after, result = .ok after → read.value.Edited after) :
    Begun task count read phase := by
  cases result with
  | error problem => cases h
  | ok after =>
    cases h
    exact .saves (moved_of_edited (he after rfl))

theorem perform_eq_ok {task : Task} {found : Option (Versioned Conversation)} {count now : ℕ}
    {routes : List Text} {phase : Phase} (h : perform task found count now routes = .ok phase) :
    ∃ read, found = some read ∧ Begun task count read phase := by
  unfold perform at h
  split at h
  · split at h
    · cases h
    · cases h
    · cases h
    · rename_i role content read _ _
      split at h
      · rename_i message hm
        cases h
        obtain ⟨hl, hc, hseq⟩ := Conversation.appendMessage_eq_ok hm
        exact ⟨read, rfl, .appends hl hc hseq⟩
      · cases h
  · cases h
  · rename_i read _
    split_ifs at h
    cases h
    exact ⟨read, rfl, .locates⟩
  · rename_i read _
    exact ⟨read, rfl, edited_eq_ok h fun _ => Conversation.rename_eq_ok⟩
  · rename_i read _
    split at h
    · cases h
    · exact ⟨read, rfl, edited_eq_ok h fun _ => Conversation.pinModelRoute_eq_ok⟩
  · rename_i read _
    exact ⟨read, rfl, edited_eq_ok h fun _ => Conversation.expectClarification_eq_ok⟩
  · rename_i read _
    cases h
    exact ⟨read, rfl, .saves (moved_softDelete _ _)⟩

inductive Threaded (s : State) (e : Event) : Threads → Prop where
  | same : Threaded s e s.conversations
  | started {conversation : ℕ} {request : StartRequest} {now : ℕ} {value : Conversation}
      (he : e = .start conversation request now) (hfresh : conversation ∉ s.conversations)
      (hspace : value.spaceId = request.spaceId) :
      Threaded s e (s.conversations.insert conversation ⟨value, 1⟩)
  | continued {conversation : ℕ} {row : Versioned Conversation}
      (hrow : s.conversations.lookup conversation = some row) :
      Threaded s e (s.conversations.insert conversation ⟨row.value, row.version + 1⟩)
  | saved {id newId now : ℕ} {routes : List Text} {task : Task} {read : Versioned Conversation}
      {after : Conversation} {changed : Threads} (he : e = .next id newId now routes)
      (htask : s.tasks.lookup id = some task) (hphase : task.phase = .saving read after)
      (hsave : s.saveConversation task.conversation read after = some changed) :
      Threaded s e changed

inductive Messaged (s : State) : Messages → Prop where
  | same : Messaged s s.messages
  | inserted {id key : ℕ} {task : Task} {message : Message} {row : Versioned Conversation}
      (htask : s.tasks.lookup id = some task) (hphase : task.phase = .inserting message)
      (hkey : key ∉ s.messages)
      (hrow : s.conversations.lookup message.conversationId = some row)
      (hfree : s.taken message = false) : Messaged s (s.messages.insert key message)
  | marked {key : ℕ} {message : Message} {deletedAt : Option ℕ}
      (hmessage : s.messages.lookup key = some message) :
      Messaged s (s.messages.insert key { message with deletedAt := deletedAt })

inductive Tasked (s t : State) (id : ℕ) (task : Task) : Prop where
  | same (h : s.tasks.lookup id = some task)
  | requested (hphase : task.phase = .requested)
  | begun {read : Versioned Conversation} (hsame : t.conversations = s.conversations)
      (hread : s.conversations.lookup task.conversation = some read)
      (h : Begun task (messageCount s.messages task.conversation) read task.phase)
  | marking {key : ℕ} {message : Message} (hphase : task.phase = .marking key message)

structure Change (s : State) (e : Event) (t : State) : Prop where
  threads : Threaded s e t.conversations
  messages : Messaged s t.messages
  tasks : ∀ id task, t.tasks.lookup id = some task → Tasked s t id task

section Steps

variable {lower : Text → Text} {s t : State} {e : Event} {id newId now : ℕ} {task : Task}
  {routes : List Text}

theorem tasked_finish (h : t.tasks = s.tasks) :
    ∀ other u, (t.finish id).tasks.lookup other = some u → Tasked s (t.finish id) other u := by
  intro other u hu
  have hold := (lookup_erase_iff.mp hu).2
  rw [h] at hold
  exact .same hold

theorem change_finish : Change s e (s.finish id) := ⟨.same, .same, tasked_finish rfl⟩

theorem change_proceed {result : Except Refusal Phase}
    (h : ∀ phase, result = .ok phase →
      Tasked s (s.proceed id task result) id { task with phase := phase }) :
    Change s e (s.proceed id task result) := by
  cases result with
  | error refusal => exact change_finish
  | ok phase =>
    exact ⟨.same, .same, forall_insert (h phase rfl) fun _ _ => .same⟩

theorem locate_eq_ok {conversation key : ℕ} {phase : Phase}
    (h : s.locate conversation key now = .ok phase) :
    ∃ message, phase = .marking key message := by
  unfold State.locate at h
  split at h
  · cases h
  · split_ifs at h
    exact ⟨_, (Except.ok.inj h).symm⟩

theorem change_insertMessage {message : Message} (hta : s.tasks.lookup id = some task)
    (hp : task.phase = .inserting message) (hkey : newId ∉ s.messages) :
    Change s e ((s.insertMessage newId message).finish id) := by
  unfold State.insertMessage
  split
  · exact change_finish
  · rename_i row hrow
    split_ifs with ht
    · exact change_finish
    · exact ⟨.continued hrow, .inserted hta hp hkey hrow (by simpa using ht),
        tasked_finish rfl⟩

theorem change_saveMessage {key : ℕ} {message : Message} :
    Change s e ((s.saveMessage key message).finish id) := by
  unfold State.saveMessage
  split
  · exact change_finish
  · rename_i row hrow
    exact ⟨.same, .marked hrow, tasked_finish rfl⟩

theorem change_advance (he : e = .next id newId now routes)
    (ht : s.tasks.lookup id = some task) (h : s.advance id task newId now routes = some t) :
    Change s e t := by
  unfold State.advance at h
  split at h
  · cases h
    refine change_proceed fun phase hp => ?_
    obtain ⟨read, hr, hb⟩ := perform_eq_ok hp
    refine .begun (by rw [hp]; rfl) hr ?_
    cases hb with
    | appends hl hc hseq => exact .appends hl hc hseq
    | saves hm => exact .saves hm
    | locates => exact .locates
  · rename_i message hp
    split_ifs at h with hkey
    cases h
    exact change_insertMessage ht hp hkey
  · rename_i read after hp
    split at h
    · cases h
      exact change_finish
    · rename_i changed hs
      cases h
      exact ⟨.saved he ht hp hs, .same, tasked_finish rfl⟩
  · cases h
    refine change_proceed fun phase hp => ?_
    obtain ⟨message, rfl⟩ := locate_eq_ok hp
    exact .marking rfl
  · cases h
    exact change_saveMessage

theorem startConversation_spaceId {request : StartRequest} {value : Conversation}
    (h : startConversation lower request now = .ok value) : value.spaceId = request.spaceId := by
  unfold startConversation at h
  cases hkey : AgentKey.make lower request.agentKey with
  | error problem =>
    rw [hkey] at h
    cases h
  | ok key =>
    rw [hkey] at h
    cases h
    rfl

theorem step_change (h : step lower s e = some t) : Change s e t := by
  cases e with
  | start conversation request now =>
    simp only [step] at h
    split_ifs at h with hf
    split at h
    · cases h
    · rename_i value hvalue
      cases h
      exact ⟨.started rfl hf (startConversation_spaceId hvalue), .same, fun _ _ hu => .same hu⟩
  | request id conversation operation =>
    simp only [step] at h
    split_ifs at h
    cases h
    exact ⟨.same, .same, forall_insert (.requested rfl) fun _ _ => .same⟩
  | next id newId now routes =>
    simp only [step] at h
    split at h
    · cases h
    · rename_i task ht
      exact change_advance rfl ht h
  | fails id =>
    simp only [step] at h
    split_ifs at h
    cases h
    exact change_finish

theorem saveConversation_eq_some {conversation : ℕ} {read : Versioned Conversation}
    {after : Conversation} {changed : Threads}
    (h : s.saveConversation conversation read after = some changed) :
    ∃ row, s.conversations.lookup conversation = some row ∧ row.version = read.version ∧
      changed = s.conversations.insert conversation
        ⟨row.value.rewrite after, row.version + 1⟩ := by
  unfold State.saveConversation at h
  split at h
  · cases h
  · rename_i row hrow
    simp only [save, hrow] at h
    split_ifs at h with hv
    exact ⟨row, hrow, hv, (Option.some.inj h).symm⟩

end Steps

end Aizzak.Transcripts
