import Aizzak.PyText
import Aizzak.VersionedRows

/-!
The `Conversation` aggregate and its `Message` children. A thread is opened in a space for
good. Until it is marked deleted it may be renamed, pinned to a model route, told what it asked
and continued by a message, which takes the number after the highest one there is; a message
is changed by nothing but the mark that it is deleted.
-/
namespace Aizzak.Conversations

open KeyedTables VersionedRows PyText

inductive ConversationError where
  | agentKeyEmpty
  | agentKeyTooLong
  | agentKeyInvalid (value : Text)
  | attachmentEmpty
  | contentEmpty
  | conversationDeleted
deriving DecidableEq

inductive ConversationKind where
  | agent
  | workflow
deriving DecidableEq

inductive MessageRole where
  | user
  | assistant
  | system
  | tool
deriving DecidableEq

def MessageRole.value : MessageRole → Text
  | .user => ofString "user"
  | .assistant => ofString "assistant"
  | .system => ofString "system"
  | .tool => ofString "tool"

def MessageRole.parse (role : Text) : Option MessageRole :=
  [.user, .assistant, .system, .tool].find? (MessageRole.value · = role)

def maxAgentKeyLen : ℕ := 64

def isSlugStart (c : CodePoint) : Bool :=
  (0x61 ≤ c.val && c.val ≤ 0x7A) || (0x30 ≤ c.val && c.val ≤ 0x39)

def isSlugRest (c : CodePoint) : Bool := isSlugStart c || c.val == 0x5F || c.val == 0x2D

/-- `_AGENT_KEY_RE.match`: its `$` also matches before a last line feed. -/
def isSlug : Text → Bool
  | [] => false
  | c :: rest =>
    isSlugStart c &&
      (rest.all isSlugRest || (rest.getLast?.any (·.val == 0x0A) && rest.dropLast.all isSlugRest))

def agentKeyProblem (value normalized : Text) : Option ConversationError :=
  if normalized = [] then some .agentKeyEmpty
  else if maxAgentKeyLen < normalized.length then some .agentKeyTooLong
  else if isSlug normalized then none
  else some (.agentKeyInvalid value)

structure AgentKey where
  value : Text
  hvalue : isSlug value = true ∧ value.length ≤ maxAgentKeyLen
deriving DecidableEq

theorem agentKey_of_no_problem {value normalized : Text}
    (h : agentKeyProblem value normalized = none) :
    isSlug normalized = true ∧ normalized.length ≤ maxAgentKeyLen := by
  unfold agentKeyProblem at h
  split_ifs at h with he hl hs
  exact ⟨hs, by omega⟩

def AgentKey.make (lower : Text → Text) (value : Text) : Except ConversationError AgentKey :=
  let normalized := lower (strip value)
  match h : agentKeyProblem value normalized with
  | some problem => .error problem
  | none => .ok ⟨normalized, agentKey_of_no_problem h⟩

structure MessageContent where
  text : Text
  attachments : List Text
  hattachments : ∀ attachment ∈ attachments, strip attachment ≠ []
  hcontent : text ≠ [] ∨ attachments ≠ []
deriving DecidableEq

def MessageContent.make (text : Text) (attachments : List Text) :
    Except ConversationError MessageContent :=
  if hblank : ∃ attachment ∈ attachments, strip attachment = [] then .error .attachmentEmpty
  else if hempty : strip text = [] ∧ attachments = [] then .error .contentEmpty
  else
    .ok ⟨strip text, attachments, fun a ha hstrip => hblank ⟨a, ha, hstrip⟩,
      not_and_or.mp hempty⟩

structure Conversation where
  spaceId : Option ℕ
  agentKey : AgentKey
  kind : ConversationKind
  title : Option Text
  modelRoute : Option Text
  pendingClarification : List Text
  createdBy : Option ℕ
  createdAt : ℕ
  deletedAt : Option ℕ
deriving DecidableEq

structure Message where
  conversationId : ℕ
  role : MessageRole
  content : MessageContent
  tokenCount : Option ℕ
  seq : ℕ
  createdAt : ℕ
  deletedAt : Option ℕ
deriving DecidableEq

abbrev Threads := AList fun _ : ℕ => Versioned Conversation

abbrev Messages := AList fun _ : ℕ => Message

/-- `COALESCE(MAX(seq), 0)` over the messages of a conversation, the deleted ones too. -/
def messageCount (messages : Messages) (conversation : ℕ) : ℕ :=
  highest (fun message => if message.conversationId = conversation then message.seq else 0)
    messages

namespace Conversation

def isLive (conversation : Conversation) : Bool := conversation.deletedAt.isNone

def guardNotDeleted (conversation : Conversation) : Except ConversationError Unit :=
  if conversation.deletedAt.isSome then .error .conversationDeleted else .ok ()

def rename (conversation : Conversation) (title : Option Text) :
    Except ConversationError Conversation := do
  conversation.guardNotDeleted
  .ok { conversation with title := title }

def pinModelRoute (conversation : Conversation) (route : Option Text) :
    Except ConversationError Conversation := do
  conversation.guardNotDeleted
  .ok { conversation with modelRoute := route }

def expectClarification (conversation : Conversation) (options : List Text) :
    Except ConversationError Conversation := do
  conversation.guardNotDeleted
  .ok { conversation with pendingClarification := options }

def softDelete (conversation : Conversation) (now : ℕ) : Conversation :=
  if conversation.deletedAt.isSome then conversation
  else { conversation with deletedAt := some now }

def appendMessage (conversation : Conversation) (id count : ℕ) (role : MessageRole)
    (content : MessageContent) (tokenCount : Option ℕ) (now : ℕ) :
    Except ConversationError Message := do
  conversation.guardNotDeleted
  .ok
    { conversationId := id
      role := role
      content := content
      tokenCount := tokenCount
      seq := count + 1
      createdAt := now
      deletedAt := none }

def rewrite (stored conversation : Conversation) : Conversation :=
  { stored with
    title := conversation.title
    modelRoute := conversation.modelRoute
    pendingClarification := conversation.pendingClarification
    deletedAt := conversation.deletedAt }

structure Edited (old new : Conversation) : Prop where
  live : old.isLive = true
  deletedAt : new.deletedAt = old.deletedAt
  spaceId : new.spaceId = old.spaceId

variable {conversation after : Conversation}

theorem guardNotDeleted_eq_ok {done : Unit} :
    conversation.guardNotDeleted = .ok done ↔ conversation.isLive = true := by
  unfold guardNotDeleted isLive
  cases conversation.deletedAt <;> simp

/-- A guarded transition went through on a live conversation. -/
theorem guarded_eq_ok {α : Type} {value : α} {moved : Except ConversationError α}
    (h : (do conversation.guardNotDeleted; moved) = .ok value) :
    conversation.isLive = true ∧ moved = .ok value := by
  cases hg : conversation.guardNotDeleted with
  | error problem =>
    rw [hg] at h
    cases h
  | ok done =>
    rw [hg] at h
    exact ⟨guardNotDeleted_eq_ok.mp hg, h⟩

theorem rename_eq_ok {title : Option Text} (h : conversation.rename title = .ok after) :
    Edited conversation after := by
  obtain ⟨hl, hm⟩ := guarded_eq_ok h
  cases hm
  exact ⟨hl, rfl, rfl⟩

theorem pinModelRoute_eq_ok {route : Option Text}
    (h : conversation.pinModelRoute route = .ok after) : Edited conversation after := by
  obtain ⟨hl, hm⟩ := guarded_eq_ok h
  cases hm
  exact ⟨hl, rfl, rfl⟩

theorem expectClarification_eq_ok {options : List Text}
    (h : conversation.expectClarification options = .ok after) : Edited conversation after := by
  obtain ⟨hl, hm⟩ := guarded_eq_ok h
  cases hm
  exact ⟨hl, rfl, rfl⟩

theorem softDelete_spaceId (conversation : Conversation) (now : ℕ) :
    (conversation.softDelete now).spaceId = conversation.spaceId := by
  unfold softDelete
  split_ifs <;> rfl

theorem softDelete_isLive (conversation : Conversation) (now : ℕ) :
    (conversation.softDelete now).isLive = false := by
  unfold softDelete isLive
  split_ifs with hd
  · simpa using hd
  · rfl

/-- A message goes under a live conversation, with the next number. -/
theorem appendMessage_eq_ok {id count now : ℕ} {role : MessageRole} {content : MessageContent}
    {tokenCount : Option ℕ} {message : Message}
    (h : conversation.appendMessage id count role content tokenCount now = .ok message) :
    conversation.isLive = true ∧ message.conversationId = id ∧ message.seq = count + 1 := by
  obtain ⟨hl, hm⟩ := guarded_eq_ok h
  cases hm
  exact ⟨hl, rfl, rfl⟩

end Conversation

def Message.softDelete (message : Message) (now : ℕ) : Message :=
  if message.deletedAt.isSome then message else { message with deletedAt := some now }

def place (messages : Messages) (key : ℕ) : Option (ℕ × ℕ) :=
  (messages.lookup key).map fun message => (message.conversationId, message.seq)

section Places

variable {messages after : Messages} {conversation key seq : ℕ} {message : Message}

theorem place_of_lookup (h : messages.lookup key = some message) :
    place messages key = some (message.conversationId, message.seq) := by
  rw [place, h]
  rfl

theorem place_eq_some (h : place messages key = some (conversation, seq)) :
    ∃ message, messages.lookup key = some message ∧ message.conversationId = conversation ∧
      message.seq = seq := by
  obtain ⟨message, hl, heq⟩ := Option.map_eq_some_iff.mp h
  exact ⟨message, hl, congrArg Prod.fst heq, congrArg Prod.snd heq⟩

theorem place_insert_self :
    place (messages.insert key message) key = some (message.conversationId, message.seq) :=
  place_of_lookup (AList.lookup_insert _)

theorem place_insert_ne {other : ℕ} (h : other ≠ key) :
    place (messages.insert key message) other = place messages other := by
  rw [place, AList.lookup_insert_ne h]
  rfl

/-- No message has a number past the count. -/
theorem le_messageCount (h : place messages key = some (conversation, seq)) :
    seq ≤ messageCount messages conversation := by
  obtain ⟨message, hl, rfl, rfl⟩ := place_eq_some h
  have hle := le_highest
    (f := fun m : Message => if m.conversationId = message.conversationId then m.seq else 0)
    hl
  rwa [if_pos rfl] at hle

/-- The count is the number of some message. -/
theorem exists_place_messageCount (h : 0 < messageCount messages conversation) :
    ∃ key, place messages key = some (conversation, messageCount messages conversation) := by
  obtain ⟨key, message, hl, heq⟩ := exists_of_highest_pos h
  split_ifs at heq with hc
  · refine ⟨key, ?_⟩
    rw [place_of_lookup hl, hc, heq]
    rfl
  · exact absurd heq (Nat.ne_of_lt h)

theorem messageCount_le (conversation : ℕ)
    (h : ∀ key p, place messages key = some p → place after key = some p) :
    messageCount messages conversation ≤ messageCount after conversation := by
  by_cases hpos : 0 < messageCount messages conversation
  · obtain ⟨key, hkey⟩ := exists_place_messageCount hpos
    exact le_messageCount (h key _ hkey)
  · omega

theorem messageCount_insert_of_notMem (h : key ∉ messages) :
    messageCount (messages.insert key message) conversation =
      max (if message.conversationId = conversation then message.seq else 0)
        (messageCount messages conversation) :=
  highest_insert_of_notMem h

end Places

end Aizzak.Conversations
