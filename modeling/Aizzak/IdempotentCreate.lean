import Aizzak.EventRuns
import Aizzak.KeyedTables
import Aizzak.PyText

/-!
Creates behind an `Idempotency-Key`. A request claims its key by inserting a row, in a transaction
of its own, runs the operation, and then either stores the response in the row or, when the
operation raises, deletes the row again. No two requests run for one key at a time; as long as an
operation raises only before it commits, a key has at most one effect.
-/
namespace Aizzak.IdempotentCreate

open EventRuns KeyedTables PyText Option

def maxKeyLength : ℕ := 255

def guardKey (key : String) : Option String :=
  if Blank (ofString key) then some "Idempotency-Key must not be blank"
  else if maxKeyLength < (ofString key).length then
    some ("Idempotency-Key must be at most " ++ toString maxKeyLength ++ " characters")
  else none

structure Slot where
  workspaceId : String
  endpoint : String
  key : String
deriving DecidableEq

structure Row (J : Type*) where
  requestHash : String
  responseBody : Option J

inductive Standing (J : Type*) where
  | replay (responseBody : J)
  | mismatch
  | inProgress

def inspect {J : Type*} (row : Option (Row J)) (requestHash : String) : Standing J :=
  match row with
  | none => .inProgress
  | some row =>
    if row.requestHash ≠ requestHash then .mismatch
    else match row.responseBody with
      | none => .inProgress
      | some body => .replay body

inductive Conflict where
  | usedWithDifferentBody (key endpoint : String)
  | alreadyInFlight (key endpoint : String)

inductive Answer (R : Type*) where
  | response (result : R)
  | validation (detail : String)
  | conflict (conflict : Conflict)
  | raised
  | abandoned

inductive Phase (R : Type*) where
  | claiming
  | inspecting
  | running
  | committed (result : R)
  | returned (result : R)
  | raised

def Phase.owns {R : Type*} : Phase R → Bool
  | .claiming | .inspecting => false
  | .running | .committed _ | .returned _ | .raised => true

structure Request (B : Type*) where
  workspaceId : String
  endpoint : String
  key : Option String
  body : B

def Request.slot {B : Type*} (request : Request B) : Option Slot :=
  request.key.map (⟨request.workspaceId, request.endpoint, ·⟩)

structure Call (B R : Type*) where
  request : Request B
  phase : Phase R

structure Effect (B R : Type*) where
  call : ℕ
  request : Request B
  result : R

structure State (B R J : Type*) where
  rows : AList fun _ : Slot => Row J
  calls : AList fun _ : ℕ => Call B R
  effects : List (Effect B R)
  answers : AList fun _ : ℕ => Request B × Answer R

inductive Event (B R : Type*) where
  | request (id : ℕ) (request : Request B)
  | insert (id : ℕ)
  | inspect (id : ℕ)
  | commit (id : ℕ) (result : R)
  | returns (id : ℕ)
  | returnsWithoutEffect (id : ℕ) (result : R)
  | raises (id : ℕ)
  | release (id : ℕ)
  | releaseFails (id : ℕ) (applied : Bool)
  | complete (id : ℕ)
  | completeFails (id : ℕ) (applied : Bool)
  | crash (id : ℕ)

namespace State

variable {B R J : Type*}

def init : State B R J := ⟨∅, ∅, [], ∅⟩

def withCall (s : State B R J) (id : ℕ) (request : Request B) (phase : Phase R) : State B R J :=
  { s with calls := s.calls.insert id ⟨request, phase⟩ }

def answer (s : State B R J) (id : ℕ) (request : Request B) (answer : Answer R) : State B R J :=
  { s with calls := s.calls.erase id, answers := s.answers.insert id (request, answer) }

def release (s : State B R J) : Option Slot → State B R J
  | none => s
  | some slot =>
    if (s.rows.lookup slot).any (·.responseBody.isNone) then
      { s with rows := s.rows.erase slot }
    else s

def complete (s : State B R J) (responseBody : J) : Option Slot → State B R J
  | none => s
  | some slot =>
    match s.rows.lookup slot with
    | none => s
    | some row =>
      { s with rows := s.rows.insert slot { row with responseBody := some responseBody } }

def effectsOn (s : State B R J) (slot : Slot) : List (Effect B R) :=
  s.effects.filter fun effect => effect.request.slot = some slot

/-- The rows apart, a release leaves everything as it was. -/
theorem release_kept (s : State B R J) (slot : Option Slot) :
    (s.release slot).answers = s.answers ∧ (s.release slot).effects = s.effects := by
  cases slot with
  | none => exact ⟨rfl, rfl⟩
  | some slot =>
    simp only [release]
    split_ifs <;> exact ⟨rfl, rfl⟩

theorem complete_kept (s : State B R J) (responseBody : J) (slot : Option Slot) :
    (s.complete responseBody slot).answers = s.answers ∧
      (s.complete responseBody slot).effects = s.effects := by
  cases slot with
  | none => exact ⟨rfl, rfl⟩
  | some slot =>
    simp only [complete]
    split <;> exact ⟨rfl, rfl⟩

end State

section Machine

variable {B R J : Type*} (requestHash : B → String) (dump : R → J) (validate : J → Option R)

def refuse (request : Request B) (slot : Slot) : Standing J → Answer R
  | .replay responseBody => (validate responseBody).elim .raised .response
  | .mismatch => .conflict (.usedWithDifferentBody slot.key request.endpoint)
  | .inProgress => .conflict (.alreadyInFlight slot.key request.endpoint)

/-- One step of one request. The operation commits its own unit of work before it returns;
it may raise or be cancelled on either side of that commit. -/
def step (s : State B R J) : Event B R → Option (State B R J)
  | .request id request =>
    if id ∈ s.calls ∨ id ∈ s.answers then none
    else match request.key with
      | none => some (s.withCall id request .running)
      | some key =>
        match guardKey key with
        | some detail => some (s.answer id request (.validation detail))
        | none => some (s.withCall id request .claiming)
  | .insert id =>
    match s.calls.lookup id with
    | some ⟨request, .claiming⟩ =>
      request.slot.map fun slot =>
        if slot ∈ s.rows then s.withCall id request .inspecting
        else { s with rows := s.rows.insert slot ⟨requestHash request.body, none⟩ }.withCall id
          request .running
    | _ => none
  | .inspect id =>
    match s.calls.lookup id with
    | some ⟨request, .inspecting⟩ =>
      request.slot.map fun slot =>
        s.answer id request (refuse validate request slot
          (inspect (s.rows.lookup slot) (requestHash request.body)))
    | _ => none
  | .commit id result =>
    match s.calls.lookup id with
    | some ⟨request, .running⟩ =>
      some ({ s with effects := ⟨id, request, result⟩ :: s.effects }.withCall id request
        (.committed result))
    | _ => none
  | .returns id =>
    match s.calls.lookup id with
    | some ⟨request, .committed result⟩ => some (s.withCall id request (.returned result))
    | _ => none
  | .returnsWithoutEffect id result =>
    match s.calls.lookup id with
    | some ⟨request, .running⟩ => some (s.withCall id request (.returned result))
    | _ => none
  | .raises id =>
    match s.calls.lookup id with
    | some ⟨request, .running⟩ | some ⟨request, .committed _⟩ =>
      some (s.withCall id request .raised)
    | _ => none
  | .release id =>
    match s.calls.lookup id with
    | some ⟨request, .raised⟩ => some ((s.release request.slot).answer id request .raised)
    | _ => none
  | .releaseFails id applied =>
    match s.calls.lookup id with
    | some ⟨request, .raised⟩ =>
      some ((if applied then s.release request.slot else s).answer id request .raised)
    | _ => none
  | .complete id =>
    match s.calls.lookup id with
    | some ⟨request, .returned result⟩ =>
      some ((s.complete (dump result) request.slot).answer id request (.response result))
    | _ => none
  | .completeFails id applied =>
    match s.calls.lookup id with
    | some ⟨request, .returned result⟩ =>
      some ((if applied then s.complete (dump result) request.slot else s).answer id request
        .raised)
    | _ => none
  | .crash id =>
    match s.calls.lookup id with
    | some ⟨request, _⟩ => some (s.answer id request .abandoned)
    | none => none

def State.isCommitted (s : State B R J) (id : ℕ) : Bool :=
  match s.calls.lookup id with
  | some ⟨_, .committed _⟩ => true
  | _ => false

/-- Operations raise, and are cancelled, only before they commit. -/
def RaisesUncommitted (s : State B R J) : Event B R → Prop
  | .raises id => s.isCommitted id = false
  | _ => True

instance (s : State B R J) : ∀ e, Decidable (RaisesUncommitted s e)
  | .raises id => inferInstanceAs (Decidable (s.isCommitted id = false))
  | .request _ _ | .insert _ | .inspect _ | .commit _ _ | .returns _ | .returnsWithoutEffect _ _
  | .release _ | .releaseFails _ _ | .complete _ | .completeFails _ _ | .crash _ => .isTrue trivial

structure Owned (s : State B R J) (id : ℕ) (call : Call B R) (slot : Slot) : Prop where
  row : s.rows.lookup slot = some ⟨requestHash call.request.body, none⟩
  effects : ∀ effect ∈ s.effects, effect.request.slot = some slot → effect.call = id ∧
    (call.phase = .committed effect.result ∨ call.phase = .returned effect.result)

def State.Owner (s : State B R J) (slot : Slot) (id : ℕ) (call : Call B R) : Prop :=
  s.calls.lookup id = some call ∧ call.phase.owns = true ∧ call.request.slot = some slot

structure Consistent (s : State B R J) : Prop where
  owned : ∀ slot id call, s.Owner slot id call → Owned requestHash s id call slot
  single : ∀ slot i j a b, s.Owner slot i a → s.Owner slot j b → i = j
  took : ∀ effect ∈ s.effects, ∀ slot, effect.request.slot = some slot →
    ∃ row, s.rows.lookup slot = some row ∧ row.requestHash = requestHash effect.request.body ∧
      ∀ j, row.responseBody = some j → j = dump effect.result
  once : ∀ slot, (s.effectsOn slot).length ≤ 1
  keyed : ∀ id call, s.calls.lookup id = some call → ∀ slot, call.request.slot = some slot →
    guardKey slot.key = none
  rowKeyed : ∀ slot row, s.rows.lookup slot = some row → guardKey slot.key = none

/-- A conflict or the first response, and the latter only for a body of the same hash; a
request that died gets no answer. -/
def Answer.AfterEffect (effect : Effect B R) (request : Request B) : Answer R → Prop
  | .conflict _ | .abandoned => True
  | .response result =>
    result = effect.result ∧ requestHash request.body = requestHash effect.request.body
  | .validation _ | .raised => False

/-- What holds after an effect on a key: every request answered since then, other than the
one that took effect, got a conflict or the first response. -/
structure Settled (answered : AList fun _ : ℕ => Request B × Answer R) (effect : Effect B R)
    (slot : Slot) (s : State B R J) : Prop where
  consistent : Consistent requestHash dump s
  mem : effect ∈ s.effects
  since : ∀ id, id ≠ effect.call → ∀ request reply, request.slot = some slot →
    s.answers.lookup id = some (request, reply) →
    answered.lookup id = some (request, reply) ∨ Answer.AfterEffect requestHash effect request reply

variable {requestHash dump validate}

theorem Consistent.init : Consistent requestHash dump (State.init : State B R J) := by
  constructor <;> simp [State.init, State.Owner, State.effectsOn]

variable {s : State B R J} {id : ℕ} {request : Request B} {phase : Phase R} {slot : Slot}

theorem State.Owner.of_withCall {i : ℕ} {call : Call B R}
    (h : (s.withCall id request phase).Owner slot i call) :
    (i = id ∧ call = ⟨request, phase⟩ ∧ phase.owns = true ∧ request.slot = some slot) ∨
      (i ≠ id ∧ s.Owner slot i call) := by
  obtain ⟨hl, ho, hsl⟩ := h
  rcases lookup_insert_iff.mp hl with ⟨rfl, rfl⟩ | ⟨hne, hl⟩
  · exact .inl ⟨rfl, rfl, ho, hsl⟩
  · exact .inr ⟨hne, hl, ho, hsl⟩

variable {reply : Answer R}

theorem State.Owner.of_answer {i : ℕ} {call : Call B R}
    (h : (s.answer id request reply).Owner slot i call) : i ≠ id ∧ s.Owner slot i call := by
  obtain ⟨hl, ho, hsl⟩ := h
  obtain ⟨hne, hl⟩ := lookup_erase_iff.mp hl
  exact ⟨hne, hl, ho, hsl⟩

section

variable (hs : Consistent requestHash dump s)
include hs

theorem Consistent.withCall (hkey : ∀ slot, request.slot = some slot → guardKey slot.key = none)
    (ho : phase.owns = true → ∀ slot, request.slot = some slot →
      Owned requestHash s id ⟨request, phase⟩ slot)
    (hsi : phase.owns = true → ∀ slot, request.slot = some slot → ∀ j b, s.Owner slot j b →
      j = id) :
    Consistent requestHash dump (s.withCall id request phase) := by
  refine ⟨?_, ?_, hs.took, hs.once, forall_insert hkey hs.keyed, hs.rowKeyed⟩
  · intro slot i call hi
    rcases hi.of_withCall with ⟨rfl, rfl, hph, hst⟩ | ⟨-, hi⟩
    · exact ⟨(ho hph slot hst).row, (ho hph slot hst).effects⟩
    · exact ⟨(hs.owned slot i call hi).row, (hs.owned slot i call hi).effects⟩
  · intro slot i j a b hi hj
    rcases hi.of_withCall with ⟨hid, -, hph, hst⟩ | ⟨-, hi'⟩ <;>
      rcases hj.of_withCall with ⟨hjd, -, hp, hsl⟩ | ⟨-, hj'⟩
    · exact hid.trans hjd.symm
    · exact hid.trans (hsi hph slot hst j b hj').symm
    · exact (hsi hp slot hsl i a hi').trans hjd.symm
    · exact hs.single slot i j a b hi' hj'

theorem Consistent.answer (id : ℕ) (request : Request B) (reply : Answer R) :
    Consistent requestHash dump (s.answer id request reply) := by
  refine ⟨?_, ?_, hs.took, hs.once, ?_, hs.rowKeyed⟩
  · intro slot i call hi
    have ho := hs.owned slot i call hi.of_answer.2
    exact ⟨ho.row, ho.effects⟩
  · intro slot i j a b hi hj
    exact hs.single slot i j a b hi.of_answer.2 hj.of_answer.2
  · intro i call hi
    exact hs.keyed i call (lookup_erase_iff.mp hi).2

/-- A change of phase within the operation: the row and the effects stay as they were. -/
theorem Consistent.advance {phase' : Phase R} (hc : s.calls.lookup id = some ⟨request, phase⟩)
    (how : phase.owns = true)
    (hre : ∀ result, phase = .committed result → phase' = .returned result)
    (hr : ∀ result, phase ≠ .returned result) :
    Consistent requestHash dump (s.withCall id request phase') := by
  have ho : ∀ slot, request.slot = some slot → s.Owner slot id ⟨request, phase⟩ :=
    fun slot hsl => ⟨hc, how, hsl⟩
  refine hs.withCall (hs.keyed id _ hc) ?_ ?_
  · intro _ slot hsl
    have hold := hs.owned slot id _ (ho slot hsl)
    refine ⟨hold.row, ?_⟩
    intro effect he hon
    obtain ⟨hid, hp | hp⟩ := hold.effects effect he hon
    · exact ⟨hid, .inr (hre _ hp)⟩
    · exact absurd hp (hr _)
  · intro _ slot hsl j b hj
    exact hs.single slot j id b _ hj (ho slot hsl)

theorem Consistent.insert (hc : s.calls.lookup id = some ⟨request, phase⟩)
    (hst : request.slot = some slot) (hf : slot ∉ s.rows) :
    Consistent requestHash dump
      ({ s with rows := s.rows.insert slot ⟨requestHash request.body, none⟩ }.withCall id request
        .running) := by
  have hn : s.rows.lookup slot = none := AList.lookup_eq_none.mpr hf
  have hnoOwner : ∀ i call, ¬ s.Owner slot i call := by
    intro i call hi
    have hrow := (hs.owned slot i call hi).row
    simp [hn] at hrow
  have hnoEffect : ∀ effect ∈ s.effects, effect.request.slot ≠ some slot := by
    intro effect he hon
    obtain ⟨row, hrow, -⟩ := hs.took effect he slot hon
    simp [hn] at hrow
  have ho : ∀ slot', slot' ≠ slot →
      (s.rows.insert slot ⟨requestHash request.body, none⟩).lookup slot' = s.rows.lookup slot' :=
    fun slot' hne => AList.lookup_insert_ne hne
  have hkey : ∀ slot', request.slot = some slot' → guardKey slot'.key = none :=
    hs.keyed id _ hc
  refine ⟨?_, ?_, ?_, hs.once, forall_insert hkey hs.keyed, ?_⟩
  · intro slot' i call hi
    rcases hi.of_withCall with ⟨rfl, rfl, -, hsl⟩ | ⟨-, hi⟩
    · obtain rfl : slot = slot' := mem_unique hst hsl
      refine ⟨AList.lookup_insert .., ?_⟩
      intro effect he hon
      exact absurd hon (hnoEffect effect he)
    · have hne : slot' ≠ slot := by
        rintro rfl
        exact hnoOwner i call hi
      have hold := hs.owned slot' i call hi
      exact ⟨(ho slot' hne).trans hold.row, hold.effects⟩
  · intro slot' i j a b hi hj
    rcases hi.of_withCall with ⟨hid, -, -, hsl⟩ | ⟨-, hi'⟩ <;>
      rcases hj.of_withCall with ⟨hjd, -, -, hslot''⟩ | ⟨-, hj'⟩
    · exact hid.trans hjd.symm
    · obtain rfl : slot = slot' := mem_unique hst hsl
      exact absurd hj' (hnoOwner j b)
    · obtain rfl : slot = slot' := mem_unique hst hslot''
      exact absurd hi' (hnoOwner i a)
    · exact hs.single slot' i j a b hi' hj'
  · intro effect he slot' hon
    have hne : slot' ≠ slot := by
      rintro rfl
      exact hnoEffect effect he hon
    obtain ⟨row, hrow, hr⟩ := hs.took effect he slot' hon
    exact ⟨row, (ho slot' hne).trans hrow, hr⟩
  · exact forall_insert (hkey slot hst) hs.rowKeyed

end

theorem State.effectsOn_cons (s : State B R J) (effect : Effect B R) (slot : Slot) :
    { s with effects := effect :: s.effects }.effectsOn slot =
      if effect.request.slot = some slot then effect :: s.effectsOn slot
      else s.effectsOn slot := by
  simp only [State.effectsOn, List.filter_cons, decide_eq_true_eq]

section

variable (hs : Consistent requestHash dump s)
include hs

/-- A commit of the operation is recorded with its call. -/
theorem Consistent.commit (hc : s.calls.lookup id = some ⟨request, .running⟩) (result : R) :
    Consistent requestHash dump
      ({ s with effects := ⟨id, request, result⟩ :: s.effects }.withCall id request
        (.committed result)) := by
  have how : ∀ slot, request.slot = some slot → s.Owner slot id ⟨request, .running⟩ :=
    fun slot hst => ⟨hc, rfl, hst⟩
  have hnoEffect : ∀ slot, request.slot = some slot →
      ∀ effect ∈ s.effects, effect.request.slot ≠ some slot := by
    intro slot hst effect he hon
    have ho := hs.owned slot id _ (how slot hst)
    obtain ⟨-, hp | hp⟩ := ho.effects effect he hon
    · cases hp
    · cases hp
  have hkey : ∀ slot, request.slot = some slot → guardKey slot.key = none := hs.keyed id _ hc
  refine ⟨?_, ?_, ?_, ?_, forall_insert hkey hs.keyed, hs.rowKeyed⟩
  · intro slot i call hi
    rcases hi.of_withCall with ⟨rfl, rfl, -, hst⟩ | ⟨hne, hi⟩
    · refine ⟨(hs.owned slot i _ (how slot hst)).row, ?_⟩
      intro effect he hon
      rcases List.mem_cons.mp he with rfl | he
      · exact ⟨rfl, .inl rfl⟩
      · exact absurd hon (hnoEffect slot hst effect he)
    · have hold := hs.owned slot i call hi
      refine ⟨hold.row, ?_⟩
      intro effect he hon
      rcases List.mem_cons.mp he with rfl | he
      · exact absurd (hs.single slot i id call _ hi (how slot hon)) hne
      · exact hold.effects effect he hon
  · intro slot i j a b hi hj
    rcases hi.of_withCall with ⟨hid, -, -, hst⟩ | ⟨-, hi'⟩ <;>
      rcases hj.of_withCall with ⟨hjd, -, -, hsl⟩ | ⟨-, hj'⟩
    · exact hid.trans hjd.symm
    · exact hid.trans (hs.single slot j id b _ hj' (how slot hst)).symm
    · exact (hs.single slot i id a _ hi' (how slot hsl)).trans hjd.symm
    · exact hs.single slot i j a b hi' hj'
  · intro effect he slot hon
    rcases List.mem_cons.mp he with rfl | he
    · have hrow := (hs.owned slot id _ (how slot hon)).row
      exact ⟨_, hrow, rfl, by simp⟩
    · exact hs.took effect he slot hon
  · intro slot
    have heq : ({ s with effects := ⟨id, request, result⟩ :: s.effects }.withCall id request
        (.committed result)).effectsOn slot =
        { s with effects := ⟨id, request, result⟩ :: s.effects }.effectsOn slot := rfl
    rw [heq, State.effectsOn_cons]
    split_ifs with hst
    · have hem : s.effectsOn slot = [] := by
        rw [State.effectsOn, List.filter_eq_nil_iff]
        intro effect he
        simpa using hnoEffect slot hst effect he
      simp [hem]
    · exact hs.once slot

theorem Consistent.settle {rows : AList fun _ : Slot => Row J}
    (hc : s.calls.lookup id = some ⟨request, phase⟩) (hos : phase.owns = true)
    (hst : request.slot = some slot)
    (ho : ∀ slot', slot' ≠ slot → rows.lookup slot' = s.rows.lookup slot')
    (hrow : ∀ effect ∈ s.effects, effect.request.slot = some slot →
      ∃ row, rows.lookup slot = some row ∧ row.requestHash = requestHash effect.request.body ∧
      ∀ j, row.responseBody = some j → j = dump effect.result)
    (reply : Answer R) :
    Consistent requestHash dump ({ s with rows := rows }.answer id request reply) := by
  have how : s.Owner slot id ⟨request, phase⟩ := ⟨hc, hos, hst⟩
  refine ⟨?_, ?_, ?_, hs.once, ?_, ?_⟩
  · intro slot' i call hi
    obtain ⟨hne, hi⟩ := hi.of_answer
    have hi : s.Owner slot' i call := hi
    have hsl : slot' ≠ slot := by
      rintro rfl
      exact hne (hs.single slot' i id call _ hi how)
    have hold := hs.owned slot' i call hi
    exact ⟨(ho slot' hsl).trans hold.row, hold.effects⟩
  · intro slot' i j a b hi hj
    exact hs.single slot' i j a b hi.of_answer.2 hj.of_answer.2
  · intro effect he slot' hon
    by_cases hsl : slot' = slot
    · subst hsl
      exact hrow effect he hon
    · obtain ⟨row, hl, hr⟩ := hs.took effect he slot' hon
      exact ⟨row, (ho slot' hsl).trans hl, hr⟩
  · intro i call hi
    exact hs.keyed i call (lookup_erase_iff.mp hi).2
  · intro slot' row hl
    by_cases hsl : slot' = slot
    · subst hsl
      exact hs.keyed id _ hc slot' hst
    · exact hs.rowKeyed slot' row ((ho slot' hsl).symm.trans hl)

theorem Consistent.release (hc : s.calls.lookup id = some ⟨request, .raised⟩) (reply : Answer R)
    : Consistent requestHash dump ((s.release request.slot).answer id request reply) := by
  cases hsl : request.slot with
  | none => exact hs.answer id request reply
  | some slot =>
    have ho := hs.owned slot id _ ⟨hc, rfl, hsl⟩
    have he : s.release (some slot) = { s with rows := s.rows.erase slot } := by
      simp [State.release, ho.row]
    rw [he]
    refine hs.settle hc rfl hsl (fun slot' hne => AList.lookup_erase_ne hne) ?_ reply
    intro effect hef hon
    obtain ⟨-, hp | hp⟩ := ho.effects effect hef hon
    · cases hp
    · cases hp

theorem Consistent.complete {result : R}
    (hc : s.calls.lookup id = some ⟨request, .returned result⟩) (reply : Answer R) :
    Consistent requestHash dump
      ((s.complete (dump result) request.slot).answer id request reply) := by
  cases hsl : request.slot with
  | none => exact hs.answer id request reply
  | some slot =>
    have ho := hs.owned slot id _ ⟨hc, rfl, hsl⟩
    have hst : s.complete (dump result) (some slot) =
        { s with
          rows := s.rows.insert slot ⟨requestHash request.body, some (dump result)⟩ } := by
      simp [State.complete, ho.row]
    rw [hst]
    refine hs.settle hc rfl hsl (fun slot' hne => AList.lookup_insert_ne hne) ?_ reply
    intro effect he hon
    refine ⟨_, AList.lookup_insert .., ?_, ?_⟩
    · obtain ⟨row, hrow, hh, -⟩ := hs.took effect he slot hon
      obtain rfl := mem_unique ho.row hrow
      exact hh
    · intro j hj
      obtain ⟨-, hp | hp⟩ := ho.effects effect he hon
      · cases hp
      · obtain rfl := Phase.returned.inj hp
        exact (some.inj hj).symm

end

section Moves

variable (requestHash dump validate s)

inductive Moved : Event B R → State B R J → Prop
  | unkeyed {id : ℕ} {request : Request B} (hkey : request.key = none) :
    Moved (.request id request) (s.withCall id request .running)
  | refused {id : ℕ} {request : Request B} {key detail : String} (hkey : request.key = some key)
    (hguard : guardKey key = some detail) :
    Moved (.request id request) (s.answer id request (.validation detail))
  | keyed {id : ℕ} {request : Request B} {key : String} (hkey : request.key = some key)
    (hguard : guardKey key = none) :
    Moved (.request id request) (s.withCall id request .claiming)
  | found {id : ℕ} {request : Request B}
    (hcall : s.calls.lookup id = some ⟨request, .claiming⟩) :
    Moved (.insert id) (s.withCall id request .inspecting)
  | claimed {id : ℕ} {request : Request B} {slot : Slot}
    (hcall : s.calls.lookup id = some ⟨request, .claiming⟩) (hslot : request.slot = some slot)
    (hrow : slot ∉ s.rows) :
    Moved (.insert id)
      ({ s with rows := s.rows.insert slot ⟨requestHash request.body, none⟩ }.withCall id request
        .running)
  | inspected {id : ℕ} {request : Request B} {slot : Slot} (hslot : request.slot = some slot) :
    Moved (.inspect id) (s.answer id request (refuse validate request slot
      (inspect (s.rows.lookup slot) (requestHash request.body))))
  | committed {id : ℕ} {request : Request B} {result : R}
    (hcall : s.calls.lookup id = some ⟨request, .running⟩) :
    Moved (.commit id result) ({ s with effects := ⟨id, request, result⟩ :: s.effects }.withCall
      id request (.committed result))
  | advanced {e : Event B R} {id : ℕ} {request : Request B} {phase phase' : Phase R}
    (hcall : s.calls.lookup id = some ⟨request, phase⟩) (howns : phase.owns = true)
    (hresult : RaisesUncommitted s e → ∀ result, phase = .committed result →
      phase' = .returned result) (hrunning : ∀ result, phase ≠ .returned result) :
    Moved e (s.withCall id request phase')
  | released {e : Event B R} {id : ℕ} {request : Request B}
    (hcall : s.calls.lookup id = some ⟨request, .raised⟩) :
    Moved e ((s.release request.slot).answer id request .raised)
  | completed {e : Event B R} {id : ℕ} {request : Request B} {result : R} {reply : Answer R}
    (hcall : s.calls.lookup id = some ⟨request, .returned result⟩) :
    Moved e ((s.complete (dump result) request.slot).answer id request reply)
  | ended {e : Event B R} {id : ℕ} {request : Request B} {phase : Phase R} {reply : Answer R}
    (hcall : s.calls.lookup id = some ⟨request, phase⟩)
    (hreply : phase.owns = true ∨ reply = .abandoned) : Moved e (s.answer id request reply)

end Moves

variable {t : State B R J} {e : Event B R}

theorem step_moved (ht : step requestHash dump validate s e = some t) :
    Moved requestHash dump validate s e t := by
  cases e with
  | request id request =>
    simp only [step] at ht
    split_ifs at ht
    split at ht
    next hkey => exact some.inj ht ▸ .unkeyed hkey
    next key hkey =>
      split at ht
      next hg => exact some.inj ht ▸ .refused hkey hg
      next hg => exact some.inj ht ▸ .keyed hkey hg
  | insert id =>
    simp only [step] at ht
    split at ht
    next hc =>
      obtain ⟨slot, hsl, rfl⟩ := map_eq_some_iff.mp ht
      split_ifs with hrow
      · exact .found hc
      · exact .claimed hc hsl hrow
    next => cases ht
  | inspect id =>
    simp only [step] at ht
    split at ht
    next =>
      obtain ⟨slot, hsl, rfl⟩ := map_eq_some_iff.mp ht
      exact .inspected hsl
    next => cases ht
  | commit id result =>
    simp only [step] at ht
    split at ht
    next hc => exact some.inj ht ▸ .committed hc
    next => cases ht
  | returns id =>
    simp only [step] at ht
    split at ht
    next hc =>
      refine some.inj ht ▸ .advanced hc rfl (fun _ other ho => ?_) (by simp)
      rw [Phase.committed.inj ho]
    next => cases ht
  | returnsWithoutEffect id result =>
    simp only [step] at ht
    split at ht
    next hc => exact some.inj ht ▸ .advanced hc rfl (by simp) (by simp)
    next => cases ht
  | raises id =>
    simp only [step] at ht
    split at ht
    next hc => exact some.inj ht ▸ .advanced hc rfl (by simp) (by simp)
    next hc =>
      refine some.inj ht ▸ .advanced hc rfl (fun hok => ?_) (by simp)
      simp [RaisesUncommitted, State.isCommitted, hc] at hok
    next => cases ht
  | release id =>
    simp only [step] at ht
    split at ht
    next hc => exact some.inj ht ▸ .released hc
    next => cases ht
  | releaseFails id applied =>
    simp only [step] at ht
    split at ht
    next hc =>
      cases applied
      · exact some.inj ht ▸ .ended hc (.inl rfl)
      · exact some.inj ht ▸ .released hc
    next => cases ht
  | complete id =>
    simp only [step] at ht
    split at ht
    next hc => exact some.inj ht ▸ .completed hc
    next => cases ht
  | completeFails id applied =>
    simp only [step] at ht
    split at ht
    next hc =>
      cases applied
      · exact some.inj ht ▸ .ended hc (.inl rfl)
      · exact some.inj ht ▸ .completed hc
    next => cases ht
  | crash id =>
    simp only [step] at ht
    split at ht
    next hc => exact some.inj ht ▸ .ended hc (.inr rfl)
    next => cases ht

theorem step_consistent (s : State B R J) (e : Event B R) (t : State B R J)
    (hs : Consistent requestHash dump s) (hok : RaisesUncommitted s e)
    (ht : step requestHash dump validate s e = some t) : Consistent requestHash dump t := by
  cases step_moved ht with
  | @unkeyed _ request hkey =>
    have hsl : request.slot = none := by simp [Request.slot, hkey]
    refine hs.withCall ?_ ?_ ?_ <;> simp [hsl]
  | refused | inspected | ended => exact hs.answer _ _ _
  | keyed hkey hg =>
    refine hs.withCall ?_ (by simp [Phase.owns]) (by simp [Phase.owns])
    intro slot hsl
    simp only [Request.slot, hkey, map_some, some.injEq] at hsl
    exact hsl ▸ hg
  | found hc =>
    exact hs.withCall (hs.keyed _ _ hc) (by simp [Phase.owns]) (by simp [Phase.owns])
  | claimed hc hsl hrow => exact hs.insert hc hsl hrow
  | committed hc => exact hs.commit hc _
  | advanced hc ho hre hr => exact hs.advance hc ho (hre hok) hr
  | released hc => exact hs.release hc _
  | completed hc => exact hs.complete hc _

theorem step_answers (ht : step requestHash dump validate s e = some t)
    (hr : t.answers.lookup id = some (request, reply)) :
    s.answers.lookup id = some (request, reply) ∨
    (∃ key detail, request.key = some key ∧ guardKey key = some detail) ∨
    reply = .abandoned ∨
    (∃ slot, request.slot = some slot ∧ reply = refuse validate request slot
      (inspect (s.rows.lookup slot) (requestHash request.body))) ∨
    ∃ phase : Phase R, s.calls.lookup id = some ⟨request, phase⟩ ∧ phase.owns = true := by
  have hnew : ∀ (u : State B R J) (i : ℕ) (r : Request B) (a : Answer R),
      u.answers = s.answers → (u.answer i r a).answers.lookup id = some (request, reply) →
      (i = id ∧ r = request ∧ a = reply) ∨ s.answers.lookup id = some (request, reply) := by
    intro u i r a hu hl
    rcases lookup_insert_iff.mp hl with ⟨rfl, heq⟩ | ⟨-, hl⟩
    · exact .inl ⟨rfl, congrArg Prod.fst heq, congrArg Prod.snd heq⟩
    · exact .inr (hu ▸ hl)
  cases step_moved ht with
  | unkeyed | keyed | found | claimed | committed | advanced => exact .inl hr
  | refused hkey hg =>
    rcases hnew s _ _ _ rfl hr with ⟨rfl, rfl, rfl⟩ | hold
    · exact .inr (.inl ⟨_, _, hkey, hg⟩)
    · exact .inl hold
  | inspected hsl =>
    rcases hnew s _ _ _ rfl hr with ⟨rfl, rfl, rfl⟩ | hold
    · exact .inr (.inr (.inr (.inl ⟨_, hsl, rfl⟩)))
    · exact .inl hold
  | released hc =>
    rcases hnew _ _ _ _ (s.release_kept _).1 hr with ⟨rfl, rfl, rfl⟩ | hold
    · exact .inr (.inr (.inr (.inr ⟨_, hc, rfl⟩)))
    · exact .inl hold
  | completed hc =>
    rcases hnew _ _ _ _ (s.complete_kept _ _).1 hr with ⟨rfl, rfl, rfl⟩ | hold
    · exact .inr (.inr (.inr (.inr ⟨_, hc, rfl⟩)))
    · exact .inl hold
  | ended hc he =>
    rcases hnew s _ _ _ rfl hr with ⟨rfl, rfl, rfl⟩ | hold
    · rcases he with ho | rfl
      · exact .inr (.inr (.inr (.inr ⟨_, hc, ho⟩)))
      · exact .inr (.inr (.inl rfl))
    · exact .inl hold

variable {effect : Effect B R}

/-- A request other than the one that took effect is answered with a conflict or with the
first response. -/
theorem Consistent.answered (hs : Consistent requestHash dump s)
    (hro : ∀ result, validate (dump result) = some result) (he : effect ∈ s.effects)
    (hon : effect.request.slot = some slot) (ht : step requestHash dump validate s e = some t)
    (hid : id ≠ effect.call) (hst : request.slot = some slot)
    (hre : t.answers.lookup id = some (request, reply)) :
    s.answers.lookup id = some (request, reply) ∨
      Answer.AfterEffect requestHash effect request reply := by
  obtain ⟨row, hrow, hh, hb⟩ := hs.took effect he slot hon
  rcases step_answers ht hre with hold | ⟨key, detail, hkey, hg⟩ | rfl | hrf | hran
  · exact .inl hold
  · have hslotKey : slot.key = key := by
      simp only [Request.slot, hkey, map_some, some.injEq] at hst
      simp [← hst]
    have hn := hs.rowKeyed slot row hrow
    rw [hslotKey, hg] at hn
    cases hn
  · exact .inr trivial
  · obtain ⟨slot', hsl, rfl⟩ := hrf
    obtain rfl : slot = slot' := mem_unique hst hsl
    refine .inr ?_
    rw [hrow, inspect]
    split_ifs with hd
    · trivial
    · have hsa : requestHash request.body = requestHash effect.request.body :=
        (not_not.mp hd).symm.trans hh
      cases hr : row.responseBody with
      | none => trivial
      | some body => simp [refuse, hb body hr, hro, Answer.AfterEffect, hsa]
  · obtain ⟨phase, hc, how⟩ := hran
    have ho := hs.owned slot id _ ⟨hc, how, hst⟩
    exact absurd (ho.effects effect he hon).1.symm hid

/-- Effects are never taken back. -/
theorem step_effects (ht : step requestHash dump validate s e = some t)
    (he : effect ∈ s.effects) : effect ∈ t.effects := by
  cases step_moved ht with
  | unkeyed | refused | keyed | found | claimed | inspected | advanced | ended => exact he
  | committed => exact List.mem_cons_of_mem _ he
  | released => exact (s.release_kept _).2.symm ▸ he
  | completed => exact (s.complete_kept _ _).2.symm ▸ he

theorem step_settled (hr : ∀ result, validate (dump result) = some result)
    {answered : AList fun _ : ℕ => Request B × Answer R} (hon : effect.request.slot = some slot)
    (s : State B R J) (e : Event B R) (t : State B R J)
    (hs : Settled requestHash dump answered effect slot s) (hok : RaisesUncommitted s e)
    (ht : step requestHash dump validate s e = some t) :
    Settled requestHash dump answered effect slot t := by
  refine ⟨step_consistent s e t hs.consistent hok ht, step_effects ht hs.mem, ?_⟩
  intro id hid request reply hsl hre
  rcases hs.consistent.answered hr hs.mem hon ht hid hsl hre with hold | ha
  · exact hs.since id hid request reply hsl hold
  · exact .inr ha

/-- Where no operation raises after its commit, whatever the interleaving: a key has at most
one effect and at most one request runs for it at a time; once it has its effect no other
request runs, and every other request answered from then on gets a conflict or the first
response, the latter only if its body has the hash of the first. -/
theorem uncommitted_raises_take_effect_once
    (hround : ∀ result, validate (dump result) = some result)
    (before after : List (Event B R)) (s t : State B R J)
    (hbefore : Guarded (step requestHash dump validate) RaisesUncommitted State.init before)
    (hs : run (step requestHash dump validate) State.init before = some s)
    (hafter : Guarded (step requestHash dump validate) RaisesUncommitted s after)
    (ht : run (step requestHash dump validate) s after = some t) :
    (∀ slot, (t.effectsOn slot).length ≤ 1) ∧
    (∀ slot i j a b, t.Owner slot i a → t.Owner slot j b → i = j) ∧
    ∀ effect ∈ s.effects, ∀ slot, effect.request.slot = some slot →
      ∀ id, id ≠ effect.call →
        (∀ call, ¬ t.Owner slot id call) ∧
        ∀ request reply, id ∉ s.answers → request.slot = some slot →
          t.answers.lookup id = some (request, reply) →
            Answer.AfterEffect requestHash effect request reply := by
  have hi : Consistent requestHash dump (State.init : State B R J) := .init
  have hc := run_invariant step_consistent hbefore hs hi
  have hl := run_invariant step_consistent hafter ht hc
  refine ⟨hl.once, hl.single, ?_⟩
  intro effect he slot hon id hid
  have hse : Settled requestHash dump s.answers effect slot t := by
    refine run_invariant (step_settled hround hon) hafter ht ⟨hc, he, ?_⟩
    exact fun i _ request reply _ hr => .inl hr
  constructor
  · intro call how
    have ho := hl.owned slot id call how
    exact hid (ho.effects effect hse.mem hon).1.symm
  · intro request reply hnew hsl hr
    rcases hse.since id hid request reply hsl hr with hold | hafter
    · exact absurd (mem_of_lookup hold) hnew
    · exact hafter

end Machine

private def media (body : String) : Request String := ⟨"w", "createMediaJob", some "k", body⟩

private def mediaSlot : Slot := ⟨"w", "createMediaJob", "k"⟩

private def mediaStep : State String String String → Event String String →
    Option (State String String String) :=
  step (fun body => body) (fun result => result) some

private def retried : List (Event String String) :=
  [.request 0 (media "b"), .insert 0, .raises 0, .release 0,
    .request 1 (media "b"), .insert 1, .request 2 (media "c"), .insert 2, .commit 1 "job-1"]

private def answered : List (Event String String) :=
  [.inspect 2, .returns 1, .complete 1, .request 3 (media "b"), .insert 3, .inspect 3]

theorem retried_create_takes_effect_once :
    ∃ s t : State String String String,
      Guarded mediaStep RaisesUncommitted State.init retried ∧
      run mediaStep State.init retried = some s ∧
      Guarded mediaStep RaisesUncommitted s answered ∧ run mediaStep s answered = some t ∧
      s.effects.map (·.result) = ["job-1"] ∧ (t.effectsOn mediaSlot).length ≤ 1 := by
  have hb : Guarded mediaStep RaisesUncommitted State.init retried := by decide +kernel
  obtain ⟨s, hs, hte⟩ := exists_run_of_any
    (p := fun s => s.effects.map (·.result) == ["job-1"] &&
      decide (Guarded mediaStep RaisesUncommitted s answered) &&
      (run mediaStep s answered).isSome)
    (show (run mediaStep State.init retried).any _ = true by decide +kernel)
  simp only [Bool.and_eq_true, beq_iff_eq, decide_eq_true_eq] at hte
  obtain ⟨⟨he, ha⟩, hso⟩ := hte
  obtain ⟨t, ht⟩ := isSome_iff_exists.mp hso
  have ho := uncommitted_raises_take_effect_once (fun _ => rfl) retried answered s t hb hs
    ha ht
  exact ⟨s, t, hb, hs, ha, ht, he, ho.1 mediaSlot⟩

private def hangUp : List (Event String String) :=
  [.request 0 (media "b"), .insert 0, .commit 0 "job-0", .raises 0, .release 0,
    .request 1 (media "b"), .insert 1, .commit 1 "job-1"]

theorem hang_up_after_commit_takes_effect_twice :
    ∃ t : State String String String, run mediaStep State.init hangUp = some t ∧
      (t.effectsOn mediaSlot).map (·.result) = ["job-1", "job-0"] := by
  obtain ⟨t, ht, hte⟩ := exists_run_of_any
    (p := fun t => (t.effectsOn mediaSlot).map (·.result) == ["job-1", "job-0"])
    (show (run mediaStep State.init hangUp).any _ = true by decide +kernel)
  exact ⟨t, ht, by simpa using hte⟩

end Aizzak.IdempotentCreate
