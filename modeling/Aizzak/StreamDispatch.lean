import Aizzak.PyText

/-!
The per-message policy of the stream consumer: decode the envelope, find the handler for its type,
run it, and acknowledge, dead-letter or leave the entry. The JSON decoder is a parameter, so every
value it can return is covered; a handler is any function of the context and the envelope. An entry
is settled when the dispatch returns and issued exactly one of the three outcomes.
-/
namespace Aizzak.StreamDispatch

open PyText

abbrev Bytes := List UInt8

/-- A decoded JSON value. A float is its 64 bits, of which only the zeros matter. -/
inductive Json where
  | null
  | bool (b : Bool)
  | int (n : ℤ)
  | float (bits : BitVec 64)
  | str (text : Text)
  | arr (items : List Json)
  | obj (fields : List (Text × Json))

namespace Json

def truthy : Json → Bool
  | null => false
  | bool b => b
  | int n => n != 0
  | float bits => bits != 0 && bits != BitVec.ofNat 64 (2 ^ 63)
  | str text => !text.isEmpty
  | arr items => !items.isEmpty
  | obj fields => !fields.isEmpty

/-- Lists and dictionaries cannot be looked up in a dictionary. -/
def hashable : Json → Bool
  | arr _ => false
  | obj _ => false
  | _ => true

end Json

abbrev Envelope := List (Text × Json)

def Envelope.get (envelope : Envelope) (key : String) : Json :=
  match envelope.find? (·.1 = ofString key) with
  | none => .null
  | some field => field.2

/-- What `json.loads` does with the bytes of an entry. Invalid encodings, invalid
JSON and oversized integers are all `ValueError`; nesting deeper than the
interpreter's stack is not. -/
inductive Loaded where
  | value (json : Json)
  | valueError
  | recursionError

structure StreamMessage where
  stream : String
  entryId : String
  raw : Option Bytes
  deliveryCount : ℕ
  trimmed : Bool

structure Failure where
  typeName : Text
  text : Option Text
  appStatus : Option ℤ

inductive HandlerOutcome where
  | returned
  | raised (failure : Failure)

structure ExecutionContext where
  workspaceId : Json
  correlationId : Json

abbrev EventHandler := ExecutionContext → Envelope → HandlerOutcome

structure Subscription where
  handlers : Text → Option EventHandler

def Subscription.handlerFor (subscription : Subscription) : Json → Option EventHandler
  | .str eventType => subscription.handlers eventType
  | _ => none

structure DeadLetter where
  dlq : String
  reason : Text
  sourceStream : String
  sourceEntryId : String
  consumerGroup : String
  deliveries : ℕ
  ce : Option Bytes
  reason_encodable : Encodable reason

inductive Command where
  | xack (stream group entryId : String)
  | transfer (letter : DeadLetter)

inductive Escape where
  | recursionError
  | unhashableType
  | failureTextRaised
  | unencodableReason
deriving DecidableEq, Repr

structure Dispatched where
  commands : List Command
  result : Except Escape Bool

def clientErrorFloor : ℤ := 400
def serverErrorFloor : ℤ := 500
def retryableClientErrors : List ℤ := [409, 429]

/-- A failure that another attempt would reproduce: an input error of the catalog
other than a conflict or a rate limit. -/
def isPermanent (failure : Failure) : Bool :=
  match failure.appStatus with
  | none => false
  | some status =>
    clientErrorFloor ≤ status && status < serverErrorFloor &&
      !retryableClientErrors.contains status

inductive Decoded where
  | malformed
  | envelope (envelope : Envelope)
  | escaped

variable (loads : Bytes → Loaded)

def decode (message : StreamMessage) : Decoded :=
  match message.raw with
  | none => .malformed
  | some raw =>
    match loads raw with
    | .valueError => .malformed
    | .recursionError => .escaped
    | .value (.obj fields) => .envelope fields
    | .value _ => .malformed

def deadLetter (group : String) (message : StreamMessage) (reason : Text) : Dispatched :=
  if h : Encodable reason then
    ⟨[.transfer ⟨message.stream ++ ".dlq", reason, message.stream, message.entryId, group,
      message.deliveryCount, message.raw, h⟩], .ok false⟩
  else ⟨[], .error .unencodableReason⟩

def failureReason (failure : Failure) : Option Text :=
  failure.text.map fun text =>
    let label := if isPermanent failure then "handler_rejected" else "handler_failed"
    (ofString label ++ ofString ": " ++ failure.typeName ++ ofString ": " ++ text).take 500

def budgetSpent (maxDeliveries : ℕ) (message : StreamMessage) (failure : Failure) : Bool :=
  isPermanent failure || maxDeliveries ≤ message.deliveryCount

def handleFailure (maxDeliveries : ℕ) (group : String) (message : StreamMessage)
    (failure : Failure) : Dispatched :=
  if budgetSpent maxDeliveries message failure then
    match failureReason failure with
    | none => ⟨[], .error .failureTextRaised⟩
    | some reason => deadLetter group message reason
  else ⟨[], .ok false⟩

def contextOf (envelope : Envelope) : ExecutionContext :=
  let correlation := envelope.get "correlationid"
  ⟨envelope.get "workspaceid", if correlation.truthy then correlation else envelope.get "id"⟩

def runHandler (maxDeliveries : ℕ) (group : String) (message : StreamMessage)
    (envelope : Envelope) (handler : EventHandler) : Dispatched :=
  match handler (contextOf envelope) envelope with
  | .returned => ⟨[.xack message.stream group message.entryId], .ok true⟩
  | .raised failure => handleFailure maxDeliveries group message failure

def routable (envelope : Envelope) : Bool :=
  (envelope.get "type").truthy && (envelope.get "workspaceid").truthy && (envelope.get "id").truthy

/-- Find the handler of a well-formed envelope. The lookup hashes the type first. -/
def routeEnvelope (maxDeliveries : ℕ) (group : String) (byStream : String → Option Subscription)
    (message : StreamMessage) (envelope : Envelope) : Dispatched :=
  match byStream message.stream with
  | none => ⟨[.xack message.stream group message.entryId], .ok false⟩
  | some subscription =>
    if (envelope.get "type").hashable then
      match subscription.handlerFor (envelope.get "type") with
      | none => ⟨[.xack message.stream group message.entryId], .ok false⟩
      | some handler => runHandler maxDeliveries group message envelope handler
    else ⟨[], .error .unhashableType⟩

def dispatch (maxDeliveries : ℕ) (group : String) (byStream : String → Option Subscription)
    (message : StreamMessage) : Dispatched :=
  if message.trimmed then deadLetter group message (ofString "entry_trimmed")
  else
    match decode loads message with
    | .escaped => ⟨[], .error .recursionError⟩
    | .malformed => deadLetter group message (ofString "malformed_envelope")
    | .envelope envelope =>
      if routable envelope then routeEnvelope maxDeliveries group byStream message envelope
      else deadLetter group message (ofString "unroutable_envelope")

section Settlement

variable (group : String) (message : StreamMessage)

def Acknowledged (d : Dispatched) : Prop :=
  d.commands = [.xack message.stream group message.entryId]

def DeadLettered (d : Dispatched) : Prop :=
  ∃ letter : DeadLetter, d.commands = [.transfer letter] ∧
    letter.sourceStream = message.stream ∧ letter.sourceEntryId = message.entryId ∧
    letter.consumerGroup = group ∧ letter.ce = message.raw

def LeftPending (d : Dispatched) : Prop := d.commands = []

/-- The dispatch returned, and the entry has exactly one of the three outcomes. -/
def Settles (d : Dispatched) : Prop :=
  (∃ handled, d.result = .ok handled) ∧
    ((Acknowledged group message d ∧ ¬ DeadLettered group message d ∧ ¬ LeftPending d) ∨
      (¬ Acknowledged group message d ∧ DeadLettered group message d ∧ ¬ LeftPending d) ∨
      (¬ Acknowledged group message d ∧ ¬ DeadLettered group message d ∧ LeftPending d))

theorem settles_ack (handled : Bool) :
    Settles group message ⟨[.xack message.stream group message.entryId], .ok handled⟩ := by
  refine ⟨⟨handled, rfl⟩, Or.inl ⟨rfl, ?_, ?_⟩⟩
  · rintro ⟨letter, hc, -⟩
    simp at hc
  · simp [LeftPending]

theorem settles_pending : Settles group message ⟨[], .ok false⟩ := by
  refine ⟨⟨false, rfl⟩, Or.inr (Or.inr ⟨?_, ?_, rfl⟩)⟩
  · simp [Acknowledged]
  · rintro ⟨letter, hc, -⟩
    simp at hc

theorem not_settles_error (commands : List Command) (escape : Escape) :
    ¬ Settles group message ⟨commands, .error escape⟩ := by
  rintro ⟨⟨handled, hr⟩, -⟩
  cases hr

theorem settles_deadLetter_iff (reason : Text) :
    Settles group message (deadLetter group message reason) ↔ Encodable reason := by
  unfold deadLetter
  split_ifs with h
  · refine iff_of_true ⟨⟨false, rfl⟩, Or.inr (Or.inl ⟨?_, ?_, ?_⟩)⟩ h
    · simp [Acknowledged]
    · exact ⟨_, rfl, rfl, rfl, rfl, rfl⟩
    · simp [LeftPending]
  · exact iff_of_false (not_settles_error group message _ _) h

theorem settles_deadLetter_literal (reason : String) :
    Settles group message (deadLetter group message (ofString reason)) :=
  (settles_deadLetter_iff group message _).mpr (encodable_ofString reason)

theorem settles_handleFailure_iff (maxDeliveries : ℕ) (failure : Failure) :
    Settles group message (handleFailure maxDeliveries group message failure) ↔
      (budgetSpent maxDeliveries message failure = true →
        ∃ reason, failureReason failure = some reason ∧ Encodable reason) := by
  unfold handleFailure
  split_ifs with hs
  · cases hr : failureReason failure with
    | none => simpa [hs] using not_settles_error group message _ _
    | some reason => simpa [hs] using settles_deadLetter_iff group message reason
  · simpa [hs] using settles_pending group message

end Settlement

section Escapes

variable (maxDeliveries : ℕ) (group : String) (byStream : String → Option Subscription)
  (message : StreamMessage)

def Routed (envelope : Envelope) : Prop :=
  message.trimmed = false ∧ decode loads message = .envelope envelope ∧ routable envelope = true

/-- The bytes of an entry still on the stream do not nest past the interpreter's stack. -/
def NestingBounded : Prop :=
  message.trimmed = false → ∀ raw, message.raw = some raw → loads raw ≠ .recursionError

/-- The type of a routed envelope on a subscribed stream is not a list or an object. -/
def TypeHashable : Prop :=
  ∀ envelope subscription, Routed loads message envelope →
    byStream message.stream = some subscription → (envelope.get "type").hashable = true

/-- A handler failure that spends the budget has a text, and the reason built from it
has no surrogate among its first 500 code points. -/
def FailureReportable : Prop :=
  ∀ envelope subscription handler failure, Routed loads message envelope →
    byStream message.stream = some subscription →
    subscription.handlerFor (envelope.get "type") = some handler →
    handler (contextOf envelope) envelope = .raised failure →
    budgetSpent maxDeliveries message failure = true →
      ∃ reason, failureReason failure = some reason ∧ Encodable reason

theorem decode_eq_escaped_iff :
    decode loads message = .escaped ↔
      ∃ raw, message.raw = some raw ∧ loads raw = .recursionError := by
  cases hraw : message.raw with
  | none => simp [decode, hraw]
  | some raw =>
    cases hl : loads raw with
    | value json => cases json <;> simp [decode, hraw, hl]
    | valueError => simp [decode, hraw, hl]
    | recursionError => simp [decode, hraw, hl]

/-- A dispatch settles exactly when its type can be looked up and its failure written. -/
theorem settles_routeEnvelope_iff (envelope : Envelope) :
    Settles group message (routeEnvelope maxDeliveries group byStream message envelope) ↔
      ∀ subscription, byStream message.stream = some subscription →
        (envelope.get "type").hashable = true ∧
          ∀ handler failure, subscription.handlerFor (envelope.get "type") = some handler →
            handler (contextOf envelope) envelope = .raised failure →
            budgetSpent maxDeliveries message failure = true →
              ∃ reason, failureReason failure = some reason ∧ Encodable reason := by
  unfold routeEnvelope
  cases hs : byStream message.stream with
  | none => exact iff_of_true (settles_ack group message false) (by simp)
  | some subscription =>
    by_cases hha : (envelope.get "type").hashable = true
    · simp only [hha, if_true, Option.some.injEq, true_and, forall_eq']
      cases hh : subscription.handlerFor (envelope.get "type") with
      | none => exact iff_of_true (settles_ack group message false) (by simp)
      | some handler =>
        simp only [runHandler]
        cases ho : handler (contextOf envelope) envelope with
        | returned =>
          refine iff_of_true (settles_ack group message true) ?_
          intro other failure hot hr
          rw [← Option.some.inj hot, ho] at hr
          cases hr
        | raised failure =>
          refine (settles_handleFailure_iff group message maxDeliveries failure).trans ?_
          constructor
          · intro hre other failure' hot hr hsp
            rw [← Option.some.inj hot, ho] at hr
            obtain rfl : failure = failure' := by simpa using hr
            exact hre hsp
          · intro hre hsp
            exact hre handler failure rfl ho hsp
    · refine iff_of_false ?_ ?_
      · simpa [hha] using not_settles_error group message [] .unhashableType
      · intro hall
        exact hha (hall subscription rfl).1

/-- An entry that is never routed cannot fail on its type or in a handler. -/
private theorem unrouted_conditions (h : ∀ envelope, ¬ Routed loads message envelope) :
    TypeHashable loads byStream message ∧
      FailureReportable loads maxDeliveries byStream message := by
  constructor
  · intro envelope subscription hrouted
    exact absurd hrouted (h envelope)
  · intro envelope subscription handler failure hrouted
    exact absurd hrouted (h envelope)

private theorem nestingBounded_of_decode_ne (h : decode loads message ≠ .escaped) :
    NestingBounded loads message := by
  intro _ raw hraw hloads
  exact h ((decode_eq_escaped_iff loads message).mpr ⟨raw, hraw, hloads⟩)

/-- The dispatch settles an entry exactly when its bytes do not nest too deep, the type
of a routed envelope is not a list or an object, and a failure it has to dead-letter
can be written down. -/
theorem dispatch_settles_iff :
    Settles group message (dispatch loads maxDeliveries group byStream message) ↔
      NestingBounded loads message ∧ TypeHashable loads byStream message ∧
        FailureReportable loads maxDeliveries byStream message := by
  unfold dispatch
  by_cases ht : message.trimmed = true
  · rw [if_pos ht]
    refine iff_of_true (settles_deadLetter_literal group message _) ⟨?_, ?_⟩
    · intro hk
      simp [ht] at hk
    · exact unrouted_conditions loads maxDeliveries byStream message
        fun envelope hr => absurd ht (by simp [hr.1])
  rw [if_neg ht]
  have hk : message.trimmed = false := by simpa using ht
  cases hd : decode loads message with
  | escaped =>
    obtain ⟨raw, hraw, hl⟩ := (decode_eq_escaped_iff loads message).mp hd
    refine iff_of_false (not_settles_error group message _ _) ?_
    intro hall
    exact hall.1 hk raw hraw hl
  | malformed =>
    refine iff_of_true (settles_deadLetter_literal group message _) ⟨?_, ?_⟩
    · exact nestingBounded_of_decode_ne loads message (by simp [hd])
    · exact unrouted_conditions loads maxDeliveries byStream message
        fun envelope hr => absurd hd (by simp [hr.2.1])
  | envelope envelope =>
    have hb := nestingBounded_of_decode_ne loads message (by simp [hd])
    have hu : ∀ other, Routed loads message other → other = envelope := by
      intro other ho
      have hde := ho.2.1
      simpa [hd] using hde.symm
    by_cases hro : routable envelope = true
    · have hr : Routed loads message envelope := ⟨hk, hd, hro⟩
      simp only [if_pos hro]
      rw [settles_routeEnvelope_iff]
      constructor
      · intro hall
        refine ⟨hb, ?_, ?_⟩
        · intro other subscription ho hs
          rw [hu other ho]
          exact (hall subscription hs).1
        · intro other subscription handler failure ho hs hh hra hsp
          rw [hu other ho] at hh hra
          exact (hall subscription hs).2 handler failure hh hra hsp
      · rintro ⟨-, hha, hre⟩ subscription hs
        refine ⟨hha envelope subscription hr hs, ?_⟩
        intro handler failure hh hra hsp
        exact hre envelope subscription handler failure hr hs hh hra hsp
    · simp only [if_neg hro]
      refine iff_of_true (settles_deadLetter_literal group message _) ⟨hb, ?_⟩
      exact unrouted_conditions loads maxDeliveries byStream message fun other hr =>
        hro (hu other hr ▸ hr.2.2)

end Escapes

section ListType

def listTypeBytes : Bytes :=
  [123, 34, 116, 121, 112, 101, 34, 58, 91, 34, 97, 34, 93, 44, 34, 119, 111, 114, 107, 115, 112,
    97, 99, 101, 105, 100, 34, 58, 34, 119, 34, 44, 34, 105, 100, 34, 58, 34, 49, 34, 125]

def listTypeLoads (raw : Bytes) : Loaded :=
  if raw = listTypeBytes then
    .value (.obj [(ofString "type", .arr [.str (ofString "a")]),
      (ofString "workspaceid", .str (ofString "w")), (ofString "id", .str (ofString "1"))])
  else .valueError

def listTypeMessage : StreamMessage :=
  ⟨"stream.knowledge", "1-0", some listTypeBytes, 1, false⟩

def emptySubscription (stream : String) : Option Subscription :=
  if stream = "stream.knowledge" then some ⟨fun _ => none⟩ else none

/-- An envelope whose type is a list stops the dispatch with the lookup's `TypeError`. -/
theorem list_type_escapes :
    ¬ Settles "cg.knowledge" listTypeMessage
      (dispatch listTypeLoads 5 "cg.knowledge" emptySubscription listTypeMessage) := by
  have hr : dispatch listTypeLoads 5 "cg.knowledge" emptySubscription listTypeMessage =
      ⟨[], .error .unhashableType⟩ := by
    rfl
  rw [hr]
  exact not_settles_error _ _ _ _

end ListType

end Aizzak.StreamDispatch
