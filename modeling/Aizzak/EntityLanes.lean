import Aizzak.DealtLanes
import Aizzak.EventRuns
import Aizzak.StreamDispatch

/-!
A batch dispatched through several lanes at once. The messages about one entity are in one lane,
in the order they arrived, and a lane runs one message at a time, so whatever way the tasks of the
lanes are interleaved no two messages about an entity run at once or out of order. The key of a
message is read from its body a second time, outside of any guard but the one for bodies that are
not JSON: a body nested deeper than the decoder's stack takes the whole batch down.
-/
namespace Aizzak.EntityLanes

open DealtLanes EventRuns PyText StreamDispatch List

section Keys

variable (loads : Bytes → Loaded)

def usableSubject (envelope : Envelope) : Option Text :=
  match envelope.get "subject" with
  | .str subject => if subject.isEmpty then none else some subject
  | _ => none

/-- `none` stands for an exception. -/
def entityKey (message : StreamMessage) : Option (String × Text) :=
  match decode loads message with
  | .escaped => none
  | .malformed => some (message.stream, ofString message.entryId)
  | .envelope envelope =>
    some (message.stream, (usableSubject envelope).getD (ofString message.entryId))

def lanes (messages : List StreamMessage) (width : ℕ) : Option (List (List StreamMessage)) :=
  (messages.foldlM (fun parts message =>
    (entityKey loads message).map fun key => place key message parts) []).map
      fun parts => deal width (parts.map Prod.snd)

def isAbout (stream : String) (subject : Text) (message : StreamMessage) : Bool :=
  match decode loads message with
  | .envelope envelope =>
    message.stream = stream && usableSubject envelope = some subject
  | _ => false

end Keys

section Tasks

structure LaneTask where
  busy : Option StreamMessage
  rest : List StreamMessage

structure Batch where
  tasks : List LaneTask
  begun : List StreamMessage

inductive Event where
  | begins (lane : ℕ)
  | returns (lane : ℕ)
  | stops (lane : ℕ)

/-- A task stops for good when an exception escapes its dispatch, or another's. -/
def step (batch : Batch) : Event → Option Batch
  | .begins lane =>
    match batch.tasks[lane]? with
    | some ⟨none, message :: rest⟩ =>
      some ⟨batch.tasks.set lane ⟨some message, rest⟩, batch.begun ++ [message]⟩
    | _ => none
  | .returns lane =>
    match batch.tasks[lane]? with
    | some ⟨some _, rest⟩ => some { batch with tasks := batch.tasks.set lane ⟨none, rest⟩ }
    | _ => none
  | .stops lane =>
    match batch.tasks[lane]? with
    | some _ => some { batch with tasks := batch.tasks.set lane ⟨none, []⟩ }
    | none => none

def start (lanes : List (List StreamMessage)) : Batch := ⟨lanes.map (⟨none, ·⟩), []⟩

end Tasks

section Runs

variable {p : StreamMessage → Bool} {lane : ℕ} {arrived : List StreamMessage}
  {batch after : Batch} {event : Event}

def InTurn (p : StreamMessage → Bool) (lane : ℕ) (arrived begun : List StreamMessage) (i : ℕ)
    (task : LaneTask) : Prop :=
  if i = lane then begun.filter p ++ task.rest.filter p <+: arrived
  else (∀ message, task.busy = some message → p message = false) ∧ task.rest.filter p = []

/-- The messages of the class begin in the order they arrived, in one lane. -/
def Orderly (p : StreamMessage → Bool) (lane : ℕ) (arrived : List StreamMessage) (batch : Batch) :
    Prop :=
  batch.begun.filter p <+: arrived ∧
    ∀ i task, batch.tasks[i]? = some task → InTurn p lane arrived batch.begun i task

section

variable (h : Orderly p lane arrived batch)
include h

theorem Orderly.set {task : LaneTask} {i : ℕ} (ht : InTurn p lane arrived batch.begun i task) :
    Orderly p lane arrived { batch with tasks := batch.tasks.set i task } := by
  refine ⟨h.1, fun j other ho => ?_⟩
  rw [List.getElem?_set] at ho
  split_ifs at ho with hij hl
  · cases ho
    exact hij ▸ ht
  · exact h.2 j other ho

/-- A task that begins its next message keeps the order. -/
theorem Orderly.begins {message : StreamMessage} {rest : List StreamMessage} {i : ℕ}
    (hta : batch.tasks[i]? = some ⟨none, message :: rest⟩) :
    Orderly p lane arrived
      ⟨batch.tasks.set i ⟨some message, rest⟩, batch.begun ++ [message]⟩ := by
  have ht := h.2 i _ hta
  rw [InTurn] at ht
  by_cases hi : i = lane
  · rw [if_pos hi] at ht
    have hb : (batch.begun ++ [message]).filter p ++ rest.filter p <+: arrived := by
      rwa [← filter_append, append_assoc, singleton_append, filter_append]
    refine ⟨(prefix_append _ _).trans hb, fun j other ho => ?_⟩
    rw [List.getElem?_set] at ho
    rw [InTurn]
    by_cases hij : i = j
    · rw [if_pos hij] at ho
      split_ifs at ho
      cases ho
      rw [if_pos (hij.symm.trans hi)]
      exact hb
    · rw [if_neg hij] at ho
      have hother' := h.2 j other ho
      have hj : ¬ j = lane := fun hj => hij (hi.trans hj.symm)
      rw [InTurn, if_neg hj] at hother'
      rw [if_neg hj]
      exact hother'
  · rw [if_neg hi] at ht
    obtain ⟨-, hn⟩ := ht
    have hm : p message = false := by
      have hall := filter_eq_nil_iff.mp hn message mem_cons_self
      exact Bool.eq_false_iff.mpr hall
    have hb : (batch.begun ++ [message]).filter p = batch.begun.filter p := by
      rw [filter_append, filter_cons_of_neg (by simpa using hm), filter_nil,
        append_nil]
    refine ⟨hb.symm ▸ h.1, fun j other ho => ?_⟩
    rw [List.getElem?_set] at ho
    by_cases hij : i = j
    · rw [if_pos hij] at ho
      split_ifs at ho
      cases ho
      rw [InTurn, if_neg (hij ▸ hi)]
      refine ⟨fun other ho => ?_, ?_⟩
      · cases ho
        exact hm
      · rwa [filter_cons_of_neg (by simpa using hm)] at hn
    · rw [if_neg hij] at ho
      rw [InTurn, hb]
      exact h.2 j other ho

/-- The messages of a class begin in the order they arrived. -/
theorem step_orderly (hs : step batch event = some after) : Orderly p lane arrived after := by
  cases event with
  | begins i =>
    rw [step] at hs
    split at hs
    · rename_i message rest hta
      cases hs
      exact h.begins hta
    · cases hs
  | returns i =>
    rw [step] at hs
    split at hs
    · rename_i message rest hta
      cases hs
      apply h.set
      have ht := h.2 i _ hta
      rw [InTurn] at ht ⊢
      split_ifs at ht ⊢ with hi
      · exact ht
      · exact ⟨nofun, ht.2⟩
    · cases hs
  | stops i =>
    rw [step] at hs
    split at hs
    · cases hs
      apply h.set
      rw [InTurn]
      split_ifs with hi
      · rw [filter_nil, append_nil]
        exact h.1
      · exact ⟨nofun, rfl⟩
    · cases hs

theorem run_orderly {events : List Event} (hrun : run step batch events = some after) :
    Orderly p lane arrived after :=
  run_invariant_of_step (fun _ _ _ hinv hs => step_orderly hinv hs) hrun h

theorem Orderly.busy_unique {i j : ℕ} {task other : LaneTask} {message later : StreamMessage}
    (hta : batch.tasks[i]? = some task) (ho : batch.tasks[j]? = some other)
    (hb : task.busy = some message) (hl : other.busy = some later)
    (hme : p message = true) (hp : p later = true) : i = j := by
  have hla : ∀ n (t : LaneTask) (m : StreamMessage), batch.tasks[n]? = some t →
      t.busy = some m → p m = true → n = lane := by
    intro n t m ht hm hpm
    by_contra hn
    have htu := h.2 n t ht
    rw [InTurn, if_neg hn] at htu
    rw [htu.1 m hm] at hpm
    cases hpm
  rw [hla i task message hta hb hme, hla j other later ho hl hp]

end

end Runs

section Spec

variable {loads : Bytes → Loaded} {messages : List StreamMessage} {width : ℕ}
  {message : StreamMessage}

theorem decode_escaped_iff : decode loads message = .escaped ↔
    ∃ raw, message.raw = some raw ∧ loads raw = .recursionError := by
  rw [decode]
  cases message.raw with
  | none => simp
  | some raw =>
    cases hl : loads raw with
    | valueError => simp [hl]
    | recursionError => simp [hl]
    | value json => cases json <;> simp [hl]

theorem entityKey_eq_none_iff : entityKey loads message = none ↔
    decode loads message = .escaped := by
  rw [entityKey]
  cases decode loads message <;> simp

theorem entityKey_of_isAbout {stream : String} {subject : Text}
    (h : isAbout loads stream subject message = true) :
    entityKey loads message = some (stream, subject) := by
  rw [isAbout] at h
  rw [entityKey]
  cases hd : decode loads message with
  | malformed => rw [hd] at h; cases h
  | escaped => rw [hd] at h; cases h
  | envelope envelope =>
    rw [hd] at h
    obtain ⟨hst, hs⟩ := Bool.and_eq_true_iff.mp h
    dsimp only
    rw [of_decide_eq_true hst, of_decide_eq_true hs, Option.getD_some]

theorem foldlM_place {key : StreamMessage → String × Text} {parts : List _}
    (hkey : ∀ message ∈ messages, entityKey loads message = some (key message)) :
    messages.foldlM (fun parts message =>
      (entityKey loads message).map fun key => place key message parts) parts =
        some (messages.foldl (fun parts message => place (key message) message parts) parts) := by
  induction messages generalizing parts with
  | nil => rfl
  | cons message messages ih =>
    obtain ⟨hme, hm⟩ := forall_mem_cons.mp hkey
    rw [foldlM_cons, hme, foldl_cons]
    exact ih hm

theorem lanes_eq_none (hmem : message ∈ messages) (hkey : entityKey loads message = none) :
    lanes loads messages width = none := by
  have hf : ∀ (l : List StreamMessage) (parts : List ((String × Text) × List StreamMessage)),
      message ∈ l → l.foldlM (fun parts message =>
        (entityKey loads message).map fun key => place key message parts) parts = none := by
    intro l
    induction l with
    | nil => exact fun _ h => absurd h not_mem_nil
    | cons first rest ih =>
      intro parts h
      rw [foldlM_cons]
      rcases mem_cons.mp h with rfl | h
      · rw [hkey]
        rfl
      · cases (entityKey loads first).map fun key => place key first parts with
        | none => rfl
        | some parts => exact ih parts h
  rw [lanes, hf messages [] hmem, Option.map_none]

/-- What the lanes of a batch promise: nothing is lost or doubled, and the messages about an
entity begin in the order they arrived, one after the other, however the tasks are interleaved. -/
structure Ordered (loads : Bytes → Loaded) (messages : List StreamMessage) (width : ℕ)
    (dealt : List (List StreamMessage)) : Prop where
  length_le : dealt.length ≤ width
  perm : dealt.flatten.Perm messages
  together : ∀ stream subject, ∃ i : ℕ, ∀ (j : ℕ) (lane : List StreamMessage),
    dealt[j]? = some lane → lane.filter (isAbout loads stream subject) =
      if j = i then messages.filter (isAbout loads stream subject) else []
  begins : ∀ stream subject events batch, run step (start dealt) events = some batch →
    batch.begun.filter (isAbout loads stream subject) <+:
      messages.filter (isAbout loads stream subject)
  alone : ∀ stream subject events batch, run step (start dealt) events = some batch →
    ∀ (i j : ℕ) (task other : LaneTask) (message later : StreamMessage),
      batch.tasks[i]? = some task → batch.tasks[j]? = some other → task.busy = some message →
        other.busy = some later → isAbout loads stream subject message = true →
          isAbout loads stream subject later = true → i = j

theorem start_orderly {p : StreamMessage → Bool} {dealt : List (List StreamMessage)} {lane : ℕ}
    (h : ∀ (j : ℕ) (items : List StreamMessage), dealt[j]? = some items →
      items.filter p = if j = lane then messages.filter p else []) :
    Orderly p lane (messages.filter p) (start dealt) := by
  refine ⟨ nil_prefix, fun i task ht => ?_⟩
  rw [start, List.getElem?_map, Option.map_eq_some_iff] at ht
  obtain ⟨items, hitems, rfl⟩ := ht
  have hc := h i items hitems
  rw [InTurn]
  split_ifs at hc ⊢ with hi
  · exact hc ▸ prefix_refl _
  · exact ⟨nofun, hc⟩

/-- Every batch has its lanes, and they keep the order of each entity, if and only if no body of
the batch is nested deeper than the decoder can read. -/
theorem lanes_ordered_iff (hwidth : 0 < width) :
    (∃ dealt, lanes loads messages width = some dealt ∧ Ordered loads messages width dealt) ↔
      ∀ message ∈ messages, ∀ raw, message.raw = some raw → loads raw ≠ .recursionError := by
  constructor
  · rintro ⟨dealt, hd, -⟩ message hm raw hraw hlo
    have hkey := entityKey_eq_none_iff.mpr (decode_escaped_iff.mpr ⟨raw, hraw, hlo⟩)
    rw [lanes_eq_none hm hkey] at hd
    cases hd
  · intro h
    obtain ⟨key, hkey⟩ : ∃ key : StreamMessage → String × Text,
        ∀ message ∈ messages, entityKey loads message = some (key message) := by
      refine ⟨fun message => (entityKey loads message).getD ("", []), fun message hm => ?_⟩
      cases hkey : entityKey loads message with
      | none =>
        obtain ⟨raw, hraw, hlo⟩ := decode_escaped_iff.mp (entityKey_eq_none_iff.mp hkey)
        exact absurd hlo (h message hm raw hraw)
      | some key => simp only [hkey, Option.getD_some]
    have ht : ∀ stream subject, ∃ i : ℕ, ∀ (j : ℕ) (lane : List StreamMessage),
        (deal width ((partsBy key messages).map Prod.snd))[j]? = some lane →
          lane.filter (isAbout loads stream subject) =
            if j = i then messages.filter (isAbout loads stream subject) else [] := by
      intro stream subject
      apply exists_lane (k := (stream, subject)) hwidth
      intro message hm ha
      exact Option.some.inj ((hkey message hm).symm.trans (entityKey_of_isAbout ha))
    refine ⟨deal width ((partsBy key messages).map Prod.snd), ?_, ?_, ?_, ht, ?_, ?_⟩
    · rw [lanes, foldlM_place hkey]
      rfl
    · rw [length_deal]
      exact Nat.min_le_left _ _
    · exact (perm_deal hwidth).trans (partsBy_spec key messages).2.1
    · intro stream subject events batch hrun
      obtain ⟨i, hi⟩ := ht stream subject
      exact (run_orderly (start_orderly hi) hrun).1
    · intro stream subject events batch hrun i j task other message later hta ho hb hl
        hm hp
      obtain ⟨lane, hla⟩ := ht stream subject
      exact (run_orderly (start_orderly hla) hrun).busy_unique hta ho hb hl hm
        hp

def nestedBody : Bytes := List.replicate 200000 0x5B

def stackBound (raw : Bytes) : Loaded :=
  if raw.length < 100000 then .valueError else .recursionError

def nestedMessage : StreamMessage := ⟨"s", "2-0", some nestedBody, 1, false⟩

def shortMessage : StreamMessage := ⟨"s", "1-0", some [0x7B], 1, false⟩

/-- One such body, and a batch has no lanes. -/
theorem nested_body_has_no_lanes :
    ¬ ∃ dealt, lanes stackBound [shortMessage, nestedMessage] 2 = some dealt ∧
      Ordered stackBound [shortMessage, nestedMessage] 2 dealt := by
  rintro ⟨dealt, hd, -⟩
  have hl : stackBound nestedBody = .recursionError := by
    rw [stackBound, nestedBody, length_replicate]
    exact if_neg (by omega)
  have hkey := entityKey_eq_none_iff.mpr
    (decode_escaped_iff.mpr ⟨nestedBody, show nestedMessage.raw = some nestedBody from rfl, hl⟩)
  rw [lanes_eq_none (mem_cons_of_mem _ mem_cons_self) hkey] at hd
  cases hd

theorem lanes_ordered_short :
    (∃ dealt, lanes stackBound [shortMessage] 2 = some dealt ∧
        Ordered stackBound [shortMessage] 2 dealt) ↔
      ∀ message ∈ [shortMessage], ∀ raw, message.raw = some raw →
        stackBound raw ≠ .recursionError :=
  lanes_ordered_iff (by decide)

end Spec

end Aizzak.EntityLanes
