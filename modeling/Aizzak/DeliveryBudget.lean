import Aizzak.EventRuns
import Aizzak.RedisStreams
import Aizzak.StreamDispatch

/-!
Deliveries of well-formed entries to one consumer group. A worker reads its own pending entries
again, asks for their delivery counters, reads new entries, and dispatches the batch in any order;
workers crash at any moment and claim each other's idle entries. The counter of a message is one
for a new entry and the one Redis reported for a recovered entry; the ghost field `deliveries`
counts how often an entry has really been delivered.
-/
namespace Aizzak.DeliveryBudget

open PyText StreamDispatch RedisStreams EventRuns List

variable {loads : Bytes → Loaded}

/-- An entry whose bytes decode to a routable envelope with a string type. -/
structure Entry (loads : Bytes → Loaded) where
  raw : Bytes
  envelope : Envelope
  eventType : Text
  decodes : loads raw = .value (.obj envelope)
  routable : routable envelope = true
  typed : envelope.get "type" = .str eventType

structure Config (loads : Bytes → Loaded) where
  stream : String
  group : String
  maxDeliveries : ℕ
  minIdleMs : ℕ
  payload : StreamId → Entry loads

/-- A message in a worker's hands: the counter it carries, and the true number of its
deliveries when this one was made. -/
structure Delivery where
  id : StreamId
  count : ℕ
  ordinal : ℕ
deriving DecidableEq

inductive Phase where
  | idle
  | recovering (batch : List (StreamId × ℕ))
  | counted (batch : List Delivery)
  | holding (batch : List Delivery)
deriving DecidableEq

/-- One dispatched delivery: `none` as outcome means that no handler claims the type. -/
structure Settlement where
  id : StreamId
  ordinal : ℕ
  outcome : Option HandlerOutcome
  commands : List Command

structure State where
  now : ℕ
  lastId : StreamId
  undelivered : List StreamId
  pending : List (PendingRow StreamId String)
  phase : String → Phase
  deliveries : StreamId → ℕ
  letters : List DeadLetter
  log : List Settlement

def State.initial : State where
  now := 0
  lastId := toLex (0, 0)
  undelivered := []
  pending := []
  phase := fun _ => .idle
  deliveries := fun _ => 0
  letters := []
  log := []

def State.setPhase (s : State) (consumer : String) (phase : Phase) : State :=
  { s with phase := Function.update s.phase consumer phase }

inductive Event where
  | tick (ms : ℕ)
  | publish (id : StreamId)
  | recover (consumer : String) (count : ℕ)
  | countDeliveries (consumer : String)
  | readNew (consumer : String) (count : ℕ)
  | settle (consumer : String) (id : StreamId) (outcome : Option HandlerOutcome)
  | finish (consumer : String)
  | crash (consumer : String)
  | reclaim (consumer : String) (claimed : List StreamId)

def delivered (deliveries : StreamId → ℕ) (entries : List StreamId) (id : StreamId) : ℕ :=
  if id ∈ entries then deliveries id + 1 else deliveries id

def deliveryCount (rows : List (PendingRow StreamId String)) (id : StreamId) : ℕ :=
  match rows.find? (·.id = id) with
  | none => 1
  | some row => row.timesDelivered

def countBatch (pending : List (PendingRow StreamId String)) (consumer : String)
    (batch : List (StreamId × ℕ)) : List Delivery :=
  match batch.head?, batch.getLast? with
  | some first, some last =>
    let rows := pendingRange pending consumer first.1 last.1 batch.length
    batch.map fun entry => ⟨entry.1, deliveryCount rows entry.1, entry.2⟩
  | _, _ => []

variable (cfg : Config loads)

def messageOf (d : Delivery) : StreamMessage :=
  ⟨cfg.stream, formatStreamId d.id, some (cfg.payload d.id).raw, d.count, false⟩

def subscribedTo (outcome : Option HandlerOutcome) (stream : String) : Option Subscription :=
  if stream = cfg.stream then some ⟨fun _ => outcome.map fun result _ _ => result⟩ else none

def dispatchDelivery (d : Delivery) (outcome : Option HandlerOutcome) : Dispatched :=
  dispatch loads cfg.maxDeliveries cfg.group (subscribedTo cfg outcome) (messageOf cfg d)

def lettersOf (commands : List Command) : List DeadLetter :=
  commands.filterMap fun
    | .transfer letter => some letter
    | .xack _ _ _ => none

/-- Both commands end in an `XACK` of the entry. A dispatch that raises takes the
worker down with the rest of its batch. -/
def settleDelivery (s : State) (consumer : String) (batch : List Delivery) (d : Delivery)
    (outcome : Option HandlerOutcome) : State :=
  let result := dispatchDelivery cfg d outcome
  let next := match result.result with
    | .ok _ => .holding (batch.erase d)
    | .error _ => .idle
  State.setPhase { s with
    pending := if result.commands.isEmpty then s.pending else ack s.pending d.id
    letters := s.letters ++ lettersOf result.commands
    log := s.log ++ [⟨d.id, d.ordinal, outcome, result.commands⟩] } consumer next

def recoverBatch (s : State) (consumer : String) (count : ℕ) : State :=
  let deliveries := delivered s.deliveries (historyIds s.pending consumer count)
  let batch := (historyBatch s.pending consumer count s.now).map fun row =>
    (row.id, deliveries row.id)
  State.setPhase { s with
    pending := readHistory s.pending consumer count s.now
    deliveries } consumer (if batch = [] then .counted [] else .recovering batch)

/-- The read of new entries, which join the batch with a counter of one. -/
def readNewEntries (s : State) (consumer : String) (count : ℕ) (batch : List Delivery) : State :=
  let entries := s.undelivered.take count
  let deliveries := delivered s.deliveries entries
  State.setPhase { s with
    undelivered := s.undelivered.drop count
    pending := deliverNew s.pending consumer entries s.now
    deliveries } consumer (.holding (batch ++ entries.map fun id => ⟨id, 1, deliveries id⟩))

def step (s : State) : Event → Option State
  | .tick ms => some { s with now := s.now + ms }
  | .publish id =>
    if s.lastId < id then some { s with lastId := id, undelivered := s.undelivered ++ [id] }
    else none
  | .recover consumer count =>
    match s.phase consumer with
    | .idle => some (recoverBatch s consumer count)
    | _ => none
  | .countDeliveries consumer =>
    match s.phase consumer with
    | .recovering batch =>
      some (s.setPhase consumer (.counted (countBatch s.pending consumer batch)))
    | _ => none
  | .readNew consumer count =>
    match s.phase consumer with
    | .counted batch => some (readNewEntries s consumer count batch)
    | _ => none
  | .settle consumer id outcome =>
    match s.phase consumer with
    | .holding batch =>
      (batch.find? (·.id = id)).map fun d => settleDelivery cfg s consumer batch d outcome
    | _ => none
  | .finish consumer =>
    match s.phase consumer with
    | .holding [] => some (s.setPhase consumer .idle)
    | _ => none
  | .crash consumer => some (s.setPhase consumer .idle)
  | .reclaim consumer claimed =>
    if s.phase consumer = .idle ∧ ∀ id ∈ claimed,
        ∃ row ∈ s.pending, row.id = id ∧ row.deliveredAt + cfg.minIdleMs ≤ s.now then
      some { s with pending := claim s.pending consumer claimed s.now }
    else none

namespace Settlement

def Acknowledged (e : Settlement) : Prop :=
  ∃ stream group entryId, .xack stream group entryId ∈ e.commands

def DeadLettered (e : Settlement) : Prop := ∃ letter, .transfer letter ∈ e.commands

end Settlement

/-- The delivery budget, over everything that has been dispatched so far. -/
structure BudgetKept (s : State) : Prop where
  removed : ∀ id, 0 < s.deliveries id → id ∉ ids s.pending → ∃ e ∈ s.log, e.id = id ∧
    ((e.outcome = some .returned ∨ e.outcome = none) ∧ e.Acknowledged ∨
      ∃ letter ∈ s.letters, .transfer letter ∈ e.commands)
  permanent : ∀ e ∈ s.log, ∀ failure, e.outcome = some (.raised failure) →
    isPermanent failure = true → e.DeadLettered
  transient : ∀ e ∈ s.log, ∀ failure, e.outcome = some (.raised failure) →
    isPermanent failure = false → (e.DeadLettered ↔ cfg.maxDeliveries ≤ e.ordinal)
  exclusive : ∀ e ∈ s.log, ¬ (e.Acknowledged ∧ e.DeadLettered)

def Phase.recoveringIds : Phase → List StreamId
  | .recovering batch => batch.map Prod.fst
  | _ => []

def State.Recovering (s : State) (row : PendingRow StreamId String) : Prop :=
  row.id ∈ (s.phase row.consumer).recoveringIds

instance (s : State) (row : PendingRow StreamId String) : Decidable (s.Recovering row) :=
  inferInstanceAs (Decidable (row.id ∈ (s.phase row.consumer).recoveringIds))

def State.inHand (s : State) (consumer : String) (id : StreamId) : Option Delivery :=
  match s.phase consumer with
  | .holding batch => batch.find? (·.id = id)
  | _ => none

def spendsEntry (d : Delivery) : Option HandlerOutcome → Bool
  | some (.raised failure) => budgetSpent cfg.maxDeliveries (messageOf cfg d) failure
  | some .returned => true
  | none => true

def reportable (failure : Failure) : Bool :=
  match failureReason failure with
  | none => false
  | some reason => Encodable reason

def failureReportable (d : Delivery) : Option HandlerOutcome → Bool
  | some (.raised failure) =>
    !budgetSpent cfg.maxDeliveries (messageOf cfg d) failure || reportable failure
  | some .returned => true
  | none => true

/-- No entry of a recovered batch is claimed, acknowledged or dead-lettered by another
worker before its counters are read, and dead letters can be written. -/
def Undisturbed (s : State) : Event → Prop
  | .reclaim _ claimed => ∀ row ∈ s.pending, row.id ∈ claimed → ¬ s.Recovering row
  | .settle consumer id outcome => ∀ d ∈ s.inHand consumer id,
      (spendsEntry cfg d outcome = true → ∀ row ∈ s.pending, row.id = id → ¬ s.Recovering row) ∧
        failureReportable cfg d outcome = true
  | _ => True

instance (s : State) : (e : Event) → Decidable (Undisturbed cfg s e)
  | .reclaim _ claimed => inferInstanceAs (Decidable (∀ row ∈ s.pending, row.id ∈ claimed → _))
  | .settle consumer id _ => inferInstanceAs (Decidable (∀ d ∈ s.inHand consumer id, _))
  | .tick _ | .publish _ | .recover _ _ | .countDeliveries _ | .readNew _ _ | .finish _
  | .crash _ => isTrue trivial

section Dispatch

variable {cfg}

theorem dispatchDelivery_eq (d : Delivery) (outcome : Option HandlerOutcome) :
    dispatchDelivery cfg d outcome =
      match outcome with
      | none => ⟨[.xack cfg.stream cfg.group (formatStreamId d.id)], .ok false⟩
      | some .returned => ⟨[.xack cfg.stream cfg.group (formatStreamId d.id)], .ok true⟩
      | some (.raised failure) =>
        handleFailure cfg.maxDeliveries cfg.group (messageOf cfg d) failure := by
  have hd : decode loads (messageOf cfg d) = .envelope (cfg.payload d.id).envelope := by
    simp [decode, messageOf, (cfg.payload d.id).decodes]
  have hk : (messageOf cfg d).trimmed = false := rfl
  have hs : (messageOf cfg d).stream = cfg.stream := rfl
  simp only [dispatchDelivery, dispatch, hk, Bool.false_eq_true, if_false, hd,
    (cfg.payload d.id).routable, if_true, routeEnvelope, subscribedTo, hs,
    (cfg.payload d.id).typed, Json.hashable, Subscription.handlerFor]
  cases outcome with
  | none => rfl
  | some result => cases result <;> rfl

theorem exists_reason_of_reportable {failure : Failure} (h : reportable failure = true) :
    ∃ reason, failureReason failure = some reason ∧ Encodable reason := by
  unfold reportable at h
  split at h
  · cases h
  · next reason hr => exact ⟨reason, hr, by simpa using h⟩

theorem handleFailure_of_reportable {d : Delivery} {failure : Failure}
    (h : failureReportable cfg d (some (.raised failure)) = true) :
    (budgetSpent cfg.maxDeliveries (messageOf cfg d) failure = true ∧
        ∃ letter, handleFailure cfg.maxDeliveries cfg.group (messageOf cfg d) failure =
          ⟨[.transfer letter], .ok false⟩) ∨
      (budgetSpent cfg.maxDeliveries (messageOf cfg d) failure = false ∧
        handleFailure cfg.maxDeliveries cfg.group (messageOf cfg d) failure = ⟨[], .ok false⟩) := by
  by_cases hs : budgetSpent cfg.maxDeliveries (messageOf cfg d) failure = true
  · have hr : reportable failure = true := by simpa [failureReportable, hs] using h
    obtain ⟨reason, hre, he⟩ := exists_reason_of_reportable hr
    refine Or.inl ⟨hs, ?_⟩
    simp only [handleFailure, hs, if_true, hre, deadLetter, dif_pos he]
    exact ⟨_, rfl⟩
  · exact Or.inr ⟨by simpa using hs, by simp [handleFailure, hs]⟩

end Dispatch

section Settlements

variable {cfg}

structure Settlement.Sound (cfg : Config loads) (e : Settlement) : Prop where
  removed : e.commands ≠ [] → (e.outcome = some .returned ∨ e.outcome = none) ∧ e.Acknowledged ∨
    ∃ letter ∈ lettersOf e.commands, .transfer letter ∈ e.commands
  permanent : ∀ failure, e.outcome = some (.raised failure) → isPermanent failure = true →
    e.DeadLettered
  transient : ∀ failure, e.outcome = some (.raised failure) → isPermanent failure = false →
    (e.DeadLettered ↔ cfg.maxDeliveries ≤ e.ordinal)
  exclusive : ¬ (e.Acknowledged ∧ e.DeadLettered)

theorem Settlement.sound_of_xack {e : Settlement} {stream group entryId : String}
    (hc : e.commands = [.xack stream group entryId])
    (ho : e.outcome = some .returned ∨ e.outcome = none) : e.Sound cfg where
  removed _ := Or.inl ⟨ho, stream, group, entryId, by simp [hc]⟩
  permanent failure hfailure := by simp [hfailure] at ho
  transient failure hfailure := by simp [hfailure] at ho
  exclusive := by
    rintro ⟨-, letter, hl⟩
    simp [hc] at hl

variable {d : Delivery}

/-- A failed delivery settles within the budget. -/
theorem Settlement.sound_of_failure {e : Settlement} {failure : Failure}
    (hor : d.count = e.ordinal) (ho : e.outcome = some (.raised failure))
    (hc : (budgetSpent cfg.maxDeliveries (messageOf cfg d) failure = true ∧
        ∃ letter, e.commands = [.transfer letter]) ∨
      (budgetSpent cfg.maxDeliveries (messageOf cfg d) failure = false ∧ e.commands = [])) :
    e.Sound cfg := by
  have hd : e.DeadLettered ↔
      budgetSpent cfg.maxDeliveries (messageOf cfg d) failure = true := by
    rcases hc with ⟨hs, letter, hl⟩ | ⟨hs, hn⟩
    · simp [Settlement.DeadLettered, hl, hs]
    · simp [Settlement.DeadLettered, hn, hs]
  have hb : budgetSpent cfg.maxDeliveries (messageOf cfg d) failure = true ↔
      isPermanent failure = true ∨ cfg.maxDeliveries ≤ e.ordinal := by
    simp [budgetSpent, messageOf, hor]
  refine ⟨?_, ?_, ?_, ?_⟩
  · intro hne
    rcases hc with ⟨-, letter, hl⟩ | ⟨-, hn⟩
    · exact Or.inr ⟨letter, by simp [lettersOf, hl], by simp [hl]⟩
    · exact absurd hn hne
  · intro other hot hp
    obtain rfl : failure = other := by simpa [ho] using hot
    exact hd.mpr (hb.mpr (Or.inl hp))
  · intro other hot ht
    obtain rfl : failure = other := by simpa [ho] using hot
    rw [hd, hb]
    simp [ht]
  · rintro ⟨⟨stream, group, entryId, hack⟩, -⟩
    rcases hc with ⟨-, letter, hl⟩ | ⟨-, hn⟩
    · simp [hl] at hack
    · simp [hn] at hack

theorem settlement_sound {outcome : Option HandlerOutcome} (hc : d.count = d.ordinal)
    (hr : failureReportable cfg d outcome = true) :
    Settlement.Sound cfg ⟨d.id, d.ordinal, outcome, (dispatchDelivery cfg d outcome).commands⟩ := by
  rw [dispatchDelivery_eq]
  cases outcome with
  | none => exact Settlement.sound_of_xack rfl (Or.inr rfl)
  | some result =>
    cases result with
    | returned => exact Settlement.sound_of_xack rfl (Or.inl rfl)
    | raised failure =>
      refine Settlement.sound_of_failure hc rfl ?_
      rcases handleFailure_of_reportable hr with ⟨hs, letter, heq⟩ | ⟨hs, heq⟩
      · exact Or.inl ⟨hs, letter, by simp [heq]⟩
      · exact Or.inr ⟨hs, by simp [heq]⟩

theorem commands_ne_nil_of_removed {outcome : Option HandlerOutcome}
    (h : (dispatchDelivery cfg d outcome).commands ≠ []) : spendsEntry cfg d outcome = true := by
  rw [dispatchDelivery_eq] at h
  cases outcome with
  | none => rfl
  | some result =>
    cases result with
    | returned => rfl
    | raised failure =>
      by_contra hs
      have hk : budgetSpent cfg.maxDeliveries (messageOf cfg d) failure = false := by
        simpa [spendsEntry] using hs
      simp [handleFailure, hk] at h

end Settlements

/-- Rows in id order, new entries above them, and counters that match the deliveries. -/
structure Bookkeeping (pending : List (PendingRow StreamId String)) (undelivered : List StreamId)
    (lastId : StreamId) (deliveries : StreamId → ℕ) : Prop where
  sorted : Sorted pending
  newSorted : undelivered.Pairwise (· < ·)
  pending_lt : ∀ x ∈ ids pending, ∀ y ∈ undelivered, x < y
  pending_le : ∀ x ∈ ids pending, x ≤ lastId
  new_le : ∀ y ∈ undelivered, y ≤ lastId
  unread : ∀ y ∈ undelivered, deliveries y = 0
  unpublished : ∀ y, lastId < y → deliveries y = 0
  times : ∀ row ∈ pending, row.timesDelivered = deliveries row.id

/-- A recovered batch is the head of its worker's rows, and from then on every message
carries its true counter. -/
def PhaseSound (pending : List (PendingRow StreamId String)) (consumer : String) : Phase → Prop
  | .idle => True
  | .recovering batch => ∃ rows, rows ≠ [] ∧ rows <+: owned pending consumer ∧
      batch = rows.map fun row => (row.id, row.timesDelivered)
  | .counted batch => ∀ d ∈ batch, d.count = d.ordinal
  | .holding batch => ∀ d ∈ batch, d.count = d.ordinal

structure Inv (s : State) : Prop where
  books : Bookkeeping s.pending s.undelivered s.lastId s.deliveries
  phases : ∀ consumer, PhaseSound s.pending consumer (s.phase consumer)
  kept : BudgetKept cfg s

section Bookkeeping

variable {pending : List (PendingRow StreamId String)} {undelivered : List StreamId}
  {lastId : StreamId} {deliveries : StreamId → ℕ}

variable {id : StreamId}

theorem Bookkeeping.publish (h : Bookkeeping pending undelivered lastId deliveries)
    (hid : lastId < id) :
    Bookkeeping pending (undelivered ++ [id]) id deliveries where
  sorted := h.sorted
  newSorted := by
    rw [pairwise_append]
    refine ⟨h.newSorted, pairwise_singleton _ _, ?_⟩
    intro x hx y hy
    rw [mem_singleton.mp hy]
    exact lt_of_le_of_lt (h.new_le x hx) hid
  pending_lt x hx y hy := by
    rcases mem_append.mp hy with hold | hnew
    · exact h.pending_lt x hx y hold
    · rw [mem_singleton.mp hnew]
      exact lt_of_le_of_lt (h.pending_le x hx) hid
  pending_le x hx := (h.pending_le x hx).trans hid.le
  new_le y hy := by
    rcases mem_append.mp hy with hold | hnew
    · exact (h.new_le y hold).trans hid.le
    · exact (mem_singleton.mp hnew).le
  unread y hy := by
    rcases mem_append.mp hy with hold | hnew
    · exact h.unread y hold
    · rw [mem_singleton.mp hnew]
      exact h.unpublished id hid
  unpublished y hy := h.unpublished y (hid.trans hy)
  times := h.times

theorem historyIds_subset {consumer : String} {count : ℕ}
    (h : id ∈ historyIds pending consumer count) : id ∈ ids pending := by
  obtain ⟨row, hrow, hid⟩ := mem_ids.mp h
  exact mem_ids.mpr ⟨row, (mem_owned.mp (mem_of_mem_take hrow)).1, hid⟩

theorem delivered_of_not_mem {entries : List StreamId} (h : id ∉ entries) :
    delivered deliveries entries id = deliveries id :=
  if_neg h

section

variable (h : Bookkeeping pending undelivered lastId deliveries)
include h

theorem Bookkeeping.of_sublist {next : List (PendingRow StreamId String)}
    {deliveries' : StreamId → ℕ} (hids : (ids next).Sublist (ids pending))
    (hs : ∀ id, id ∉ ids pending → deliveries' id = deliveries id)
    (ht : ∀ row ∈ next, row.timesDelivered = deliveries' row.id) :
    Bookkeeping next undelivered lastId deliveries' where
  sorted := h.sorted.sublist hids
  newSorted := h.newSorted
  pending_lt x hx := h.pending_lt x (hids.subset hx)
  pending_le x hx := h.pending_le x (hids.subset hx)
  new_le := h.new_le
  unread y hy := by
    rw [hs y fun hp => lt_irrefl y (h.pending_lt y hp y hy)]
    exact h.unread y hy
  unpublished y hy := by
    rw [hs y fun hp => not_le_of_gt hy (h.pending_le y hp)]
    exact h.unpublished y hy
  times := ht

theorem Bookkeeping.recover (consumer : String) (count now : ℕ) :
    Bookkeeping (readHistory pending consumer count now) undelivered lastId
      (delivered deliveries (historyIds pending consumer count)) := by
  apply h.of_sublist
  · rw [ids_readHistory]
  · intro id hid
    exact delivered_of_not_mem fun hr => hid (historyIds_subset hr)
  · intro row hrow
    obtain ⟨old, hold, rfl⟩ := mem_map.mp hrow
    have ht := h.times old hold
    unfold delivered
    by_cases hr : old.id ∈ historyIds pending consumer count
    · simp [hr, ht]
    · simp [hr, ht]

theorem Bookkeeping.readNew (consumer : String) (count now : ℕ) :
    Bookkeeping (deliverNew pending consumer (undelivered.take count) now)
      (undelivered.drop count) lastId (delivered deliveries (undelivered.take count)) := by
  have hs := h.newSorted
  rw [← take_append_drop count undelivered, pairwise_append] at hs
  obtain ⟨ht, hd, ha⟩ := hs
  refine ⟨?_, hd, ?_, ?_, ?_, ?_, ?_, ?_⟩
  · rw [Sorted, ids_deliverNew, pairwise_append]
    exact ⟨h.sorted, ht, fun x hx y hy => h.pending_lt x hx y (mem_of_mem_take hy)⟩
  · intro x hx y hy
    rw [ids_deliverNew] at hx
    rcases mem_append.mp hx with hold | hnew
    · exact h.pending_lt x hold y (mem_of_mem_drop hy)
    · exact ha x hnew y hy
  · intro x hx
    rw [ids_deliverNew] at hx
    rcases mem_append.mp hx with hold | hnew
    · exact h.pending_le x hold
    · exact h.new_le x (mem_of_mem_take hnew)
  · intro y hy
    exact h.new_le y (mem_of_mem_drop hy)
  · intro y hy
    rw [delivered_of_not_mem fun hr => lt_irrefl y (ha y hr y hy)]
    exact h.unread y (mem_of_mem_drop hy)
  · intro y hy
    rw [delivered_of_not_mem fun hr =>
      not_le_of_gt hy (h.new_le y (mem_of_mem_take hr))]
    exact h.unpublished y hy
  · intro row hrow
    rcases mem_append.mp hrow with hold | hnew
    · have hlt := h.pending_lt row.id (mem_ids.mpr ⟨row, hold, rfl⟩)
      rw [delivered_of_not_mem fun hr =>
        lt_irrefl row.id (hlt row.id (mem_of_mem_take hr))]
      exact h.times row hold
    · obtain ⟨id, hid, rfl⟩ := mem_map.mp hnew
      simp [delivered, hid, h.unread id (mem_of_mem_take hid)]

theorem Bookkeeping.ack (id : StreamId) :
    Bookkeeping (ack pending id) undelivered lastId deliveries := by
  refine h.of_sublist ?_ (fun _ _ => rfl) ?_
  · rw [ids_ack]
    exact filter_sublist
  · intro row hrow
    exact h.times row (mem_of_mem_filter hrow)

theorem Bookkeeping.reclaim (consumer : String) (claimed : List StreamId) (now : ℕ) :
    Bookkeeping (claim pending consumer claimed now) undelivered lastId deliveries := by
  refine h.of_sublist ?_ (fun _ _ => rfl) ?_
  · rw [ids_claim]
  · intro row hrow
    obtain ⟨old, hold, rfl⟩ := mem_map.mp hrow
    split_ifs
    · simpa using h.times old hold
    · exact h.times old hold

end

end Bookkeeping

section Phases

variable {pending next : List (PendingRow StreamId String)} {consumer : String} {phase : Phase}

theorem PhaseSound.of_owned_eq (h : PhaseSound pending consumer phase)
    (heq : owned next consumer = owned pending consumer) : PhaseSound next consumer phase := by
  cases phase with
  | idle => trivial
  | recovering batch =>
    obtain ⟨rows, hne, hi, hb⟩ := h
    exact ⟨rows, hne, heq ▸ hi, hb⟩
  | counted batch => exact h
  | holding batch => exact h

/-- Losing rows outside the recovered batch leaves the batch at the head. -/
theorem PhaseSound.of_owned_filter (h : PhaseSound pending consumer phase)
    {keep : PendingRow StreamId String → Bool}
    (heq : owned next consumer = (owned pending consumer).filter keep)
    (hk : ∀ row ∈ owned pending consumer, row.id ∈ phase.recoveringIds → keep row = true) :
    PhaseSound next consumer phase := by
  cases phase with
  | idle => trivial
  | recovering batch =>
    obtain ⟨rows, hne, hi, hb⟩ := h
    refine ⟨rows, hne, ?_, hb⟩
    rw [heq]
    apply prefix_filter hi
    intro row hrow
    apply hk row (hi.subset hrow)
    simp only [Phase.recoveringIds, hb, map_map, mem_map]
    exact ⟨row, hrow, rfl⟩
  | counted batch => exact h
  | holding batch => exact h

theorem phases_setPhase {s : State}
    (hot : ∀ other, other ≠ consumer → PhaseSound s.pending other (s.phase other))
    (hp : PhaseSound s.pending consumer phase) (other : String) :
    PhaseSound (s.setPhase consumer phase).pending other
      ((s.setPhase consumer phase).phase other) := by
  by_cases ho : other = consumer
  · subst ho
    simpa [State.setPhase] using hp
  · simpa [State.setPhase, ho] using hot other ho

/-- The counters read for an undisturbed batch are the true ones. -/
theorem countBatch_exact (hs : Sorted pending) {batch : List (StreamId × ℕ)}
    (h : PhaseSound pending consumer (.recovering batch)) :
    PhaseSound pending consumer (.counted (countBatch pending consumer batch)) := by
  obtain ⟨rows, hne, hi, rfl⟩ := h
  have hr := pendingRange_of_prefix hs hi hne
  have hh : (rows.map fun row => (row.id, row.timesDelivered)).head? =
      some ((rows.head hne).id, (rows.head hne).timesDelivered) := by
    rw [List.head?_map, List.head?_eq_some_head hne, Option.map_some]
  have hl : (rows.map fun row => (row.id, row.timesDelivered)).getLast? =
      some ((rows.getLast hne).id, (rows.getLast hne).timesDelivered) := by
    rw [List.getLast?_map, List.getLast?_eq_some_getLast hne, Option.map_some]
  intro d hd
  simp only [countBatch, hh, hl, length_map, hr, mem_map] at hd
  obtain ⟨entry, ⟨row, hrow, rfl⟩, rfl⟩ := hd
  have hro : ∀ a ∈ rows, ∀ b ∈ rows, a.id = b.id → a = b := fun a ha b hb =>
    hs.row_unique (mem_owned.mp (hi.subset ha)).1 (mem_owned.mp (hi.subset hb)).1
  simp only [deliveryCount]
  cases hf : rows.find? (fun other => decide (other.id = row.id)) with
  | none => simpa using List.find?_eq_none.mp hf row hrow
  | some found =>
    have hid : found.id = row.id := by simpa using List.find?_some hf
    rw [hro found (mem_of_find?_eq_some hf) row hrow hid]

end Phases

section Steps

variable {cfg} {s t : State}

/-- A step that dispatches nothing keeps the budget when it takes no entry away. -/
theorem BudgetKept.frame (h : BudgetKept cfg s) (hlog : t.log = s.log)
    (hl : t.letters = s.letters)
    (hr : ∀ id, 0 < t.deliveries id → id ∉ ids t.pending →
      0 < s.deliveries id ∧ id ∉ ids s.pending) : BudgetKept cfg t where
  removed id hpos hg := by
    obtain ⟨hold, hnot⟩ := hr id hpos hg
    rw [hlog, hl]
    exact h.removed id hold hnot
  permanent := hlog ▸ h.permanent
  transient := hlog ▸ h.transient
  exclusive := hlog ▸ h.exclusive

variable {consumer : String}

theorem Inv.setPhase (h : Inv cfg s) {phase : Phase}
    (hp : PhaseSound s.pending consumer phase) :
    Inv cfg (s.setPhase consumer phase) where
  books := h.books
  phases := phases_setPhase (fun other _ => h.phases other) hp
  kept := h.kept.frame rfl rfl fun _ hpos hg => ⟨hpos, hg⟩

theorem Inv.recover (h : Inv cfg s) (consumer : String) (count : ℕ) :
    Inv cfg (recoverBatch s consumer count) where
  books := h.books.recover consumer count s.now
  phases := by
    apply phases_setPhase
    · intro other ho
      exact (h.phases other).of_owned_eq (owned_readHistory_of_ne h.books.sorted ho count s.now)
    · split_ifs with hnil
      · exact fun d hd => absurd hd (not_mem_nil)
      · refine ⟨historyBatch s.pending consumer count s.now, ?_, take_prefix _ _, ?_⟩
        · intro he
          exact hnil (by rw [he]; rfl)
        · apply map_congr_left
          intro row hrow
          have hmem := (mem_owned.mp (mem_of_mem_take hrow)).1
          rw [(h.books.recover consumer count s.now).times row hmem]
  kept := by
    refine h.kept.frame (t := recoverBatch s consumer count) rfl rfl ?_
    intro id hpos hg
    have hnot : id ∉ ids s.pending := by simpa [recoverBatch, State.setPhase] using hg
    have hs : delivered s.deliveries (historyIds s.pending consumer count) id =
        s.deliveries id :=
      delivered_of_not_mem fun hr => hnot (historyIds_subset hr)
    exact ⟨hs ▸ hpos, hnot⟩

theorem Inv.readNew (h : Inv cfg s) (count : ℕ) {batch : List Delivery}
    (hp : s.phase consumer = .counted batch) :
    Inv cfg (readNewEntries s consumer count batch) where
  books := h.books.readNew consumer count s.now
  phases := by
    apply phases_setPhase
    · intro other ho
      exact (h.phases other).of_owned_eq (owned_deliverNew_of_ne ho _ s.now)
    · have hc := h.phases consumer
      rw [hp] at hc
      intro d hd
      rcases mem_append.mp hd with hold | hnew
      · exact hc d hold
      · obtain ⟨id, hid, rfl⟩ := mem_map.mp hnew
        simp [delivered, hid, h.books.unread id (mem_of_mem_take hid)]
  kept := by
    refine h.kept.frame (t := readNewEntries s consumer count batch) rfl rfl ?_
    intro id hpos hg
    have hnot : id ∉ ids s.pending ++ s.undelivered.take count := by
      simpa only [readNewEntries, State.setPhase, ids_deliverNew] using hg
    have hs : delivered s.deliveries (s.undelivered.take count) id = s.deliveries id :=
      delivered_of_not_mem fun hr => hnot (mem_append_right _ hr)
    exact ⟨hs ▸ hpos, fun hold => hnot (mem_append_left _ hold)⟩

theorem Inv.reclaim (h : Inv cfg s) {claimed : List StreamId} (hi : s.phase consumer = .idle)
    (hok : ∀ row ∈ s.pending, row.id ∈ claimed → ¬ s.Recovering row) :
    Inv cfg { s with pending := claim s.pending consumer claimed s.now } where
  books := h.books.reclaim consumer claimed s.now
  phases other := by
    by_cases ho : other = consumer
    · subst ho
      simp only [hi]
      trivial
    · apply (h.phases other).of_owned_filter (owned_claim_of_ne ho claimed s.now)
      intro row hrow hr
      obtain ⟨hmem, how⟩ := mem_owned.mp hrow
      simp only [decide_not, Bool.not_eq_true', decide_eq_false_iff_not]
      intro hc
      exact hok row hmem hc (by simpa only [State.Recovering, how] using hr)
  kept := h.kept.frame rfl rfl fun id hpos hg => ⟨hpos, by simpa using hg⟩

theorem BudgetKept.settle (h : BudgetKept cfg s) {e : Settlement} (he : e.Sound cfg)
    (hlog : t.log = s.log ++ [e]) (hle : t.letters = s.letters ++ lettersOf e.commands)
    (hd : t.deliveries = s.deliveries)
    (hp : ∀ id, id ∉ ids t.pending → id ∉ ids s.pending ∨ id = e.id ∧ e.commands ≠ []) :
    BudgetKept cfg t := by
  have hmem : ∀ x, x ∈ t.log ↔ x ∈ s.log ∨ x = e := by simp [hlog]
  refine ⟨?_, ?_, ?_, ?_⟩
  · intro id hpos hg
    rw [hd] at hpos
    rcases hp id hg with hold | ⟨rfl, hne⟩
    · obtain ⟨x, hx, hid, hc⟩ := h.removed id hpos hold
      refine ⟨x, (hmem x).mpr (Or.inl hx), hid, hc.imp_right ?_⟩
      rintro ⟨letter, hl, ht⟩
      exact ⟨letter, by simp [hle, hl], ht⟩
    · refine ⟨e, (hmem e).mpr (Or.inr rfl), rfl, (he.removed hne).imp_right ?_⟩
      rintro ⟨letter, hl, ht⟩
      exact ⟨letter, by simp [hle, hl], ht⟩
  · intro x hx
    rcases (hmem x).mp hx with hold | rfl
    · exact h.permanent x hold
    · exact he.permanent
  · intro x hx
    rcases (hmem x).mp hx with hold | rfl
    · exact h.transient x hold
    · exact he.transient
  · intro x hx
    rcases (hmem x).mp hx with hold | rfl
    · exact h.exclusive x hold
    · exact he.exclusive

/-- Settling a delivery keeps the counters true. -/
theorem Inv.settle (h : Inv cfg s) {batch : List Delivery} {d : Delivery}
    {outcome : Option HandlerOutcome} (hp : s.phase consumer = .holding batch) (hd : d ∈ batch)
    (hr : failureReportable cfg d outcome = true)
    (hq : spendsEntry cfg d outcome = true →
      ∀ row ∈ s.pending, row.id = d.id → ¬ s.Recovering row) :
    Inv cfg (settleDelivery cfg s consumer batch d outcome) := by
  have hh := h.phases consumer
  rw [hp] at hh
  have hso := settlement_sound (hh d hd) hr
  have hrs : ∀ e ∈ batch.erase d, e.count = e.ordinal := fun e he =>
    hh e (mem_of_mem_erase he)
  refine ⟨?_, ?_, ?_⟩
  · simp only [settleDelivery, State.setPhase]
    split_ifs
    · exact h.books
    · exact h.books.ack d.id
  · apply phases_setPhase
    · intro other hot
      by_cases hnil : (dispatchDelivery cfg d outcome).commands.isEmpty
      · simpa only [hnil, if_true] using h.phases other
      · simp only [hnil, Bool.false_eq_true, if_false]
        apply (h.phases other).of_owned_filter (owned_ack d.id other)
        intro row hrow hre
        obtain ⟨hmem, ho⟩ := mem_owned.mp hrow
        have hs := commands_ne_nil_of_removed
          (show (dispatchDelivery cfg d outcome).commands ≠ [] by simpa using hnil)
        simp only [ne_eq, decide_not, Bool.not_eq_true', decide_eq_false_iff_not]
        intro hid
        exact hq hs row hmem hid
          (by simpa only [State.Recovering, ho] using hre)
    · cases (dispatchDelivery cfg d outcome).result with
      | ok handled => exact hrs
      | error escape => trivial
  · refine h.kept.settle hso rfl rfl rfl ?_
    intro id hg
    simp only [settleDelivery, State.setPhase] at hg
    split_ifs at hg with hnil
    · exact Or.inl hg
    · by_cases hid : id = d.id
      · exact Or.inr ⟨hid, by simpa using hnil⟩
      · refine Or.inl fun hold => hg ?_
        rw [ids_ack]
        exact mem_filter.mpr ⟨hold, by simpa using hid⟩

/-- While no entry is claimed under a recovering worker, the counters stay true. -/
theorem Inv.step {e : Event} (h : Inv cfg s) (hok : Undisturbed cfg s e)
    (hs : step cfg s e = some t) : Inv cfg t := by
  cases e with
  | tick ms =>
    cases hs
    exact ⟨h.books, h.phases, h.kept.frame rfl rfl fun _ hpos hg => ⟨hpos, hg⟩⟩
  | publish id =>
    simp only [DeliveryBudget.step] at hs
    split_ifs at hs with hid
    cases hs
    exact ⟨h.books.publish hid, h.phases, h.kept.frame rfl rfl fun _ hpos hg => ⟨hpos, hg⟩⟩
  | recover consumer count =>
    simp only [DeliveryBudget.step] at hs
    split at hs
    · cases hs
      exact h.recover consumer count
    · cases hs
  | countDeliveries consumer =>
    simp only [DeliveryBudget.step] at hs
    split at hs
    · next batch hp =>
      cases hs
      exact h.setPhase (countBatch_exact h.books.sorted (hp ▸ h.phases consumer))
    · cases hs
  | readNew consumer count =>
    simp only [DeliveryBudget.step] at hs
    split at hs
    · next batch hp =>
      cases hs
      exact h.readNew count hp
    · cases hs
  | settle consumer id outcome =>
    simp only [DeliveryBudget.step] at hs
    split at hs
    · next batch hp =>
      obtain ⟨d, hf, rfl⟩ := Option.map_eq_some_iff.mp hs
      have hid : d.id = id := by simpa using List.find?_some hf
      have hh : d ∈ s.inHand consumer id := by simpa [State.inHand, hp] using hf
      obtain ⟨hq, hr⟩ := hok d hh
      exact h.settle hp (mem_of_find?_eq_some hf) hr (hid ▸ hq)
    · cases hs
  | finish consumer =>
    simp only [DeliveryBudget.step] at hs
    split at hs
    · cases hs
      exact h.setPhase trivial
    · cases hs
  | crash consumer =>
    cases hs
    exact h.setPhase trivial
  | reclaim consumer claimed =>
    simp only [DeliveryBudget.step] at hs
    split_ifs at hs with hi
    cases hs
    exact h.reclaim hi.1 hok

theorem inv_initial : Inv cfg State.initial where
  books := by
    refine ⟨List.Pairwise.nil, List.Pairwise.nil, ?_, ?_, ?_, ?_, ?_, ?_⟩ <;>
      simp [State.initial, ids]
  phases _ := trivial
  kept := by
    refine ⟨?_, ?_, ?_, ?_⟩ <;> simp [State.initial]

end Steps

/-- In every undisturbed run the delivery budget is kept: entries leave the pending
list only by a success, for want of a handler or with a dead-letter copy, permanent
failures are dead-lettered at once, and transient ones exactly when the number of
deliveries has reached the maximum. -/
theorem undisturbed_run_keeps_budget (loads : Bytes → Loaded) (cfg : Config loads)
    (es : List Event) (s : State)
    (hquiet : Guarded (step cfg) (Undisturbed cfg) State.initial es)
    (hrun : run (step cfg) State.initial es = some s) : BudgetKept cfg s :=
  (run_invariant (fun _ _ _ hi hok hs => hi.step hok hs) hquiet hrun inv_initial).kept

section Escapes

def plainBytes : Bytes :=
  [123, 34, 116, 121, 112, 101, 34, 58, 34, 116, 34, 44, 34, 119, 111, 114, 107, 115, 112, 97, 99,
    101, 105, 100, 34, 58, 34, 119, 34, 44, 34, 105, 100, 34, 58, 34, 49, 34, 125]

def plainEnvelope : Envelope :=
  [(ofString "type", .str (ofString "t")), (ofString "workspaceid", .str (ofString "w")),
    (ofString "id", .str (ofString "1"))]

def plainLoads (raw : Bytes) : Loaded :=
  if raw = plainBytes then .value (.obj plainEnvelope) else .valueError

def plainEntry : Entry plainLoads :=
  ⟨plainBytes, plainEnvelope, ofString "t", rfl, rfl, rfl⟩

def plainConfig : Config plainLoads :=
  ⟨"stream.knowledge", "cg.knowledge", 2, 900000, fun _ => plainEntry⟩

private def surrogateRefusal : Failure :=
  ⟨ofString "ValidationError", some [0xD800], some 400⟩

private def driverError : Failure := ⟨ofString "OSError", some (ofString "reset"), none⟩

private def onlyEntry : StreamId := toLex (1, 0)

private def refusedDelivery : List Event :=
  [.publish onlyEntry, .recover "a" 1, .readNew "a" 1,
    .settle "a" onlyEntry (some (.raised surrogateRefusal))]

private def refusedUnlettered (e : Settlement) : Bool :=
  e.commands.isEmpty &&
    match e.outcome with
    | some (.raised failure) => isPermanent failure
    | _ => false

/-- A permanent failure whose reason cannot be encoded is not dead-lettered: the
dispatch raises, and the entry stays pending for the next crash. -/
theorem unreportable_refusal_breaks_budget :
    ¬ ∀ (loads : Bytes → Loaded) (cfg : Config loads) (es : List Event) (s : State),
      run (step cfg) State.initial es = some s → BudgetKept cfg s := by
  intro h
  obtain ⟨s, hrun, hs⟩ := exists_run_of_any (p := fun s => s.log.any refusedUnlettered)
    (show (run (step plainConfig) State.initial refusedDelivery).any _ = true by decide +kernel)
  obtain ⟨e, he, hr⟩ := List.any_eq_true.mp hs
  simp only [refusedUnlettered, Bool.and_eq_true, List.isEmpty_iff] at hr
  obtain ⟨hn, ho⟩ := hr
  split at ho
  · next failure heq =>
    obtain ⟨letter, hl⟩ := (h plainLoads plainConfig refusedDelivery s hrun).permanent e he
      failure heq ho
    simp [hn] at hl
  · cases ho

private def spentBudget : List Event :=
  [.publish onlyEntry, .recover "a" 1, .readNew "a" 1,
    .settle "a" onlyEntry (some (.raised driverError)), .crash "a", .recover "a" 1,
    .countDeliveries "a", .readNew "a" 1, .settle "a" onlyEntry (some (.raised driverError))]

theorem spent_budget_kept :
    ∃ s, run (step plainConfig) State.initial spentBudget = some s ∧ s.letters.length = 1 ∧
      BudgetKept plainConfig s := by
  obtain ⟨s, hrun, hl⟩ := exists_run_of_any (p := fun s => s.letters.length == 1)
    (show (run (step plainConfig) State.initial spentBudget).any _ = true by decide +kernel)
  have hq : Guarded (step plainConfig) (Undisturbed plainConfig) State.initial spentBudget := by
    decide +kernel
  exact ⟨s, hrun, by simpa using hl,
    undisturbed_run_keeps_budget plainLoads plainConfig spentBudget s hq hrun⟩

end Escapes

end Aizzak.DeliveryBudget
