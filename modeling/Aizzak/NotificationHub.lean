import Aizzak.EventRuns
import Aizzak.KeyedTables

/-!
The fan-out of notifications to the sessions of a workspace. A session is put into the routing
map with a bounded queue and a sender task; `notify` puts a payload into the queue of every
session routed, and drops a session whose queue is full. Registrations, removals, an account's
disconnection and a drain of the process run beside it, each suspended wherever it awaits. The
endpoint makes one session for a socket and registers it once.
-/
namespace Aizzak.NotificationHub

open EventRuns KeyedTables Option

structure Config where
  sessionQueueSize : ℕ
  atLeastOne : 1 ≤ sessionQueueSize

structure Payload (D : Type*) where
  type : String
  event : String
  data : D
deriving DecidableEq

def notification {D : Type*} (event : String) (data : D) : Payload D :=
  ⟨"notification", event, data⟩

/-- Where a session's sender stands: at its queue, in `send_json`, or gone. -/
inductive Sender where
  | idle
  | sending
  | ended
deriving DecidableEq

/-- What the hub holds of a session: whether its slot and its outbox are in their maps, the
queue, and the sender with a cancellation it has not met yet. The payloads handed to `send_json`
and the numbers of notifications issued when it was registered and when it left the routing map
are history. -/
structure Session (D : Type*) where
  workspace : ℕ
  user : ℕ
  slot : Bool
  outbox : Bool
  queue : List (Payload D)
  sender : Sender
  cancelled : Bool
  handed : List (Payload D)
  joined : ℕ
  left : Option ℕ

variable {D : Type*}

namespace Session

def fresh (workspace user joined : ℕ) : Session D :=
  ⟨workspace, user, true, true, [], .idle, false, [], joined, none⟩

def popSlot (x : Session D) : Session D := { x with slot := false }

def closeOutbox (x : Session D) : Session D :=
  if x.outbox then { x with outbox := false, cancelled := true } else x

def hand (x : Session D) : Session D :=
  match x.queue with
  | [] => { x with sender := .idle }
  | payload :: rest =>
    { x with sender := .sending, queue := rest, handed := x.handed ++ [payload] }

/-- The cancellation is raised in the sender. A `send_json` may catch it. -/
def interrupt (x : Session D) (caught : Bool) : Session D :=
  if x.sender = .sending ∧ caught = true then { x with cancelled := false }
  else { x with sender := .ended, cancelled := false }

end Session

/-- The maps of the hub and the coroutines suspended: sessions whose slot is being released,
sessions of a disconnected account still to be closed, and drains before and in their flush.
The log holds every `notify` in the order of the calls. -/
structure State (D : Type*) where
  byWorkspace : AList fun _ : ℕ => List ℕ
  sessions : AList fun _ : ℕ => Session D
  releasing : List ℕ
  disconnecting : List ℕ
  sleeping : List (ℕ × ℕ)
  flushing : List (ℕ × ℕ)
  log : List (ℕ × Payload D)

namespace State

def init : State D := ⟨∅, ∅, [], [], [], [], []⟩

def routedIn (s : State D) (workspace : ℕ) : List ℕ := (s.byWorkspace.lookup workspace).getD []

def update (s : State D) (id : ℕ) (f : Session D → Session D) : State D :=
  match s.sessions.lookup id with
  | none => s
  | some x => { s with sessions := s.sessions.insert id (f x) }

def closeOutbox (s : State D) (id : ℕ) : State D := s.update id Session.closeOutbox

def dropFromRouting (s : State D) (workspace id : ℕ) : State D :=
  match s.byWorkspace.lookup workspace with
  | none => s
  | some ids =>
    if id ∈ ids then
      let rest := ids.erase id
      let byWorkspace :=
        if rest = [] then s.byWorkspace.erase workspace else s.byWorkspace.insert workspace rest
      { s with byWorkspace := byWorkspace }.update id fun x => { x with left := some s.log.length }
    else s

def evict (s : State D) (workspace id : ℕ) : State D :=
  (s.dropFromRouting workspace id).closeOutbox id

def offer (cfg : Config) (workspace : ℕ) (payload : Payload D) (s : State D) (id : ℕ) : State D :=
  match s.sessions.lookup id with
  | none => s
  | some x =>
    if x.outbox then
      if x.queue.length < cfg.sessionQueueSize then
        s.update id fun x => { x with queue := x.queue ++ [payload] }
      else s.evict workspace id
    else s

def notify (cfg : Config) (s : State D) (workspace : ℕ) (payload : Payload D) : State D :=
  (s.routedIn workspace).foldl (offer cfg workspace payload)
    { s with log := s.log ++ [(workspace, payload)] }

def routed (s : State D) : List (ℕ × ℕ) :=
  s.byWorkspace.entries.flatMap fun entry => entry.2.map fun id => (entry.1, id)

def holdsSlotOf (s : State D) (user id : ℕ) : Bool :=
  (s.sessions.lookup id).any fun x => x.slot && x.user == user

end State

inductive Event (D : Type*) where
  | register (id workspace user : ℕ) (admitted : Bool)
  | unregister (workspace id : ℕ)
  | released (id : ℕ)
  | disconnectUser (user : ℕ)
  | disconnectCloses (id : ℕ)
  | drain
  | drainWakes (workspace id : ℕ)
  | drainFlushed (workspace id : ℕ)
  | notify (workspace : ℕ) (event : String) (data : D)
  | senderRuns (id : ℕ)
  | sent (id : ℕ) (failed : Bool)
  | interrupted (id : ℕ) (caught : Bool)

/-- One stretch between two awaits. `register` is the answer of the registry, `sent` the return
of a `send_json` with or without an exception, after which the sender asks its queue at once. The
first session of a disconnected account is closed with the snapshot; here another event may come
between, and the order of the others is open. A flush is over when the queue is or after its
time. -/
def step (cfg : Config) (s : State D) : Event D → Option (State D)
  | .register id workspace user admitted =>
    if id ∈ s.sessions then none
    else if admitted then
      some { s with
        byWorkspace := s.byWorkspace.insert workspace (s.routedIn workspace ++ [id])
        sessions := s.sessions.insert id (.fresh workspace user s.log.length) }
    else some s
  | .unregister workspace id =>
    let dropped := s.dropFromRouting workspace id
    match dropped.sessions.lookup id with
    | none => some dropped
    | some x =>
      if x.slot then
        some { dropped.update id Session.popSlot with
          releasing := id :: s.releasing }
      else some (dropped.closeOutbox id)
  | .released id =>
    if id ∈ s.releasing then
      some { s.closeOutbox id with releasing := s.releasing.erase id }
    else none
  | .disconnectUser user =>
    some { s with
      disconnecting := s.disconnecting ++ (s.routed.map Prod.snd).filter (s.holdsSlotOf user) }
  | .disconnectCloses id =>
    if id ∈ s.disconnecting then
      some { s.closeOutbox id with disconnecting := s.disconnecting.erase id }
    else none
  | .drain => some { s with sleeping := s.sleeping ++ s.routed }
  | .drainWakes workspace id =>
    if (workspace, id) ∈ s.sleeping then
      let woken := { s with sleeping := s.sleeping.erase (workspace, id) }
      if (s.sessions.lookup id).any Session.outbox then
        some { woken with flushing := (workspace, id) :: s.flushing }
      else some (woken.evict workspace id)
    else none
  | .drainFlushed workspace id =>
    if (workspace, id) ∈ s.flushing then
      some ({ s with flushing := s.flushing.erase (workspace, id) }.evict workspace id)
    else none
  | .notify workspace event data => some (s.notify cfg workspace (notification event data))
  | .senderRuns id =>
    (s.sessions.lookup id).bind fun x =>
      if x.sender = .idle ∧ x.cancelled = false then some (s.update id Session.hand) else none
  | .sent id _ =>
    (s.sessions.lookup id).bind fun x =>
      if x.sender = .sending then some (s.update id Session.hand) else none
  | .interrupted id caught =>
    (s.sessions.lookup id).bind fun x =>
      if x.cancelled = true ∧ x.sender ≠ .ended then
        some (s.update id fun x => x.interrupt caught)
      else none

namespace Session

theorem hand_keeps (x : Session D) :
    x.hand.workspace = x.workspace ∧ x.hand.left = x.left := by
  rw [hand]
  split <;> exact ⟨rfl, rfl⟩

theorem interrupt_keeps (caught : Bool) (x : Session D) :
    (x.interrupt caught).workspace = x.workspace ∧ (x.interrupt caught).left = x.left := by
  rw [interrupt]
  split_ifs <;> exact ⟨rfl, rfl⟩

def leave (x : Session D) (workspace count : ℕ) : Session D :=
  if x.workspace = workspace ∧ x.left = none then { x with left := some count } else x

def offered (cfg : Config) (payload : Payload D) (count : ℕ) (x : Session D) : Session D :=
  if x.outbox then
    if x.queue.length < cfg.sessionQueueSize then { x with queue := x.queue ++ [payload] }
    else { x with outbox := false, cancelled := true, left := some count }
  else x

/-- What an event does to a session, out of the session alone and the number of notifications
issued before. -/
def effect (cfg : Config) (count id : ℕ) (x : Session D) : Event D → Session D
  | .unregister workspace i =>
    if i = id then
      let y := x.leave workspace count
      if y.slot then y.popSlot else y.closeOutbox
    else x
  | .released i | .disconnectCloses i => if i = id then x.closeOutbox else x
  | .drainWakes workspace i =>
    if i = id ∧ x.outbox = false then (x.leave workspace count).closeOutbox else x
  | .drainFlushed workspace i =>
    if i = id then (x.leave workspace count).closeOutbox else x
  | .notify workspace event data =>
    if x.workspace = workspace ∧ x.left = none then
      x.offered cfg (notification event data) (count + 1)
    else x
  | .senderRuns i | .sent i _ => if i = id then x.hand else x
  | .interrupted i caught => if i = id then x.interrupt caught else x
  | .register _ _ _ _ | .disconnectUser _ | .drain => x

end Session

structure Routed (s : State D) : Prop where
  mem_iff : ∀ workspace id, id ∈ s.routedIn workspace ↔
    ∃ x, s.sessions.lookup id = some x ∧ x.workspace = workspace ∧ x.left = none
  nodup : ∀ workspace, (s.routedIn workspace).Nodup

variable {cfg : Config} {s t : State D} {e : Event D} {id i workspace : ℕ} {x : Session D}

namespace State

theorem lookup_update (f : Session D → Session D) :
    (s.update id f).sessions.lookup i =
      if i = id then (s.sessions.lookup i).map f else s.sessions.lookup i := by
  rw [update]
  split
  · rename_i hn
    split_ifs with hi
    · rw [hi, hn, map_none]
    · rfl
  · rename_i x hx
    split_ifs with hi
    · rw [hi, hx, AList.lookup_insert, map_some]
    · exact AList.lookup_insert_ne hi

@[simp] theorem update_log (f : Session D → Session D) : (s.update id f).log = s.log := by
  rw [update]
  split <;> rfl

@[simp] theorem update_byWorkspace (f : Session D → Session D) :
    (s.update id f).byWorkspace = s.byWorkspace := by
  rw [update]
  split <;> rfl

@[simp] theorem closeOutbox_log : (s.closeOutbox id).log = s.log := update_log _

/-- Leaving changes the session's workspace alone. -/
theorem dropFromRouting_eq (workspace id : ℕ) :
    s.dropFromRouting workspace id = s ∧ id ∉ s.routedIn workspace ∨
    id ∈ s.routedIn workspace ∧ ∃ table : AList fun _ : ℕ => List ℕ,
      (∀ w, (table.lookup w).getD [] =
        if w = workspace then (s.routedIn w).erase id else s.routedIn w) ∧
      s.dropFromRouting workspace id =
        { s with byWorkspace := table }.update id
          fun x => { x with left := some s.log.length } := by
  rw [dropFromRouting, routedIn]
  split
  · rename_i hn
    exact .inl ⟨rfl, by simp [hn]⟩
  · rename_i ids hids
    rw [hids]
    by_cases hid : id ∈ ids
    · rw [if_pos hid]
      refine .inr ⟨hid, _, fun w => ?_, rfl⟩
      by_cases hw : w = workspace
      · subst hw
        by_cases he : ids.erase id = []
        · simp [routedIn, hids, he]
        · simp [routedIn, hids, he]
      · rw [if_neg hw, routedIn]
        split_ifs
        · rw [AList.lookup_erase_ne hw]
        · rw [AList.lookup_insert_ne hw]
    · exact .inl ⟨if_neg hid, hid⟩

@[simp] theorem dropFromRouting_log : (s.dropFromRouting workspace id).log = s.log := by
  rcases dropFromRouting_eq (s := s) workspace id with ⟨h, -⟩ | ⟨-, table, -, h⟩
  · rw [h]
  · rw [h, update_log]

end State

open State

namespace Routed

theorem init : Routed (State.init : State D) := by
  refine ⟨fun workspace id => ?_, fun workspace => ?_⟩
  · simp [State.init, routedIn]
  · simp [State.init, routedIn]

section

variable (h : Routed s)
include h

theorem congr (hmap : t.byWorkspace = s.byWorkspace) (hs : t.sessions = s.sessions) :
    Routed t := by
  have hr : ∀ w, t.routedIn w = s.routedIn w := fun w => by rw [routedIn, hmap, routedIn]
  refine ⟨fun w i => ?_, fun w => ?_⟩
  · rw [hr, hs, h.mem_iff]
  · rw [hr]
    exact h.nodup w

theorem update {f : Session D → Session D}
    (hf : ∀ x, (f x).workspace = x.workspace ∧ (f x).left = x.left) : Routed (s.update id f) := by
  have hr : ∀ w, (s.update id f).routedIn w = s.routedIn w := by
    intro w
    rw [routedIn, update_byWorkspace, routedIn]
  refine ⟨fun w i => ?_, fun w => hr w ▸ h.nodup w⟩
  rw [hr, h.mem_iff, lookup_update]
  split_ifs
  · cases hx : s.sessions.lookup i with
    | none => simp
    | some x => simp [hf x]
  · rfl

theorem closeOutbox : Routed (s.closeOutbox id) := by
  refine h.update fun x => ?_
  rw [Session.closeOutbox]
  split_ifs
  · exact ⟨rfl, rfl⟩
  · exact ⟨rfl, rfl⟩

theorem lookup_dropFromRouting (workspace id i : ℕ) :
    (s.dropFromRouting workspace id).sessions.lookup i =
      if i = id then (s.sessions.lookup i).map (·.leave workspace s.log.length)
      else s.sessions.lookup i := by
  rcases dropFromRouting_eq (s := s) workspace id with ⟨heq, hid⟩ | ⟨hid, table, -, heq⟩
  · rw [heq]
    split_ifs with hi
    · subst hi
      cases hx : s.sessions.lookup i with
      | none => rfl
      | some x =>
        rw [h.mem_iff] at hid
        have hs : ¬(x.workspace = workspace ∧ x.left = none) := fun hx' => hid ⟨x, hx, hx'⟩
        simp [Session.leave, hs]
    · rfl
  · rw [heq, lookup_update]
    split_ifs with hi
    · subst hi
      obtain ⟨x, hx, hx'⟩ := (h.mem_iff workspace i).mp hid
      simp [hx, Session.leave, hx']
    · rfl

theorem dropFromRouting : Routed (s.dropFromRouting workspace id) := by
  rcases dropFromRouting_eq (s := s) workspace id with ⟨heq, hid⟩ | ⟨hid, table, ht, heq⟩
  · rwa [heq]
  · have hr : ∀ w, (s.dropFromRouting workspace id).routedIn w =
        if w = workspace then (s.routedIn w).erase id else s.routedIn w := by
      intro w
      rw [heq, routedIn, update_byWorkspace, ht]
    refine ⟨fun w i => ?_, fun w => ?_⟩
    · rw [hr, h.lookup_dropFromRouting]
      by_cases hi : i = id
      · subst hi
        obtain ⟨x, hx, hx'⟩ := (h.mem_iff workspace i).mp hid
        have hl : (x.leave workspace s.log.length).left = some s.log.length := by
          rw [Session.leave, if_pos hx']
        rw [if_pos rfl, hx, map_some]
        constructor
        · intro hmem
          split_ifs at hmem with hw
          · exact absurd hmem ((h.nodup w).not_mem_erase)
          · obtain ⟨y, hy, hyw, -⟩ := (h.mem_iff w i).mp hmem
            rw [hx, some.injEq] at hy
            exact absurd (hyw.symm.trans (hy ▸ hx'.1)) hw
        · rintro ⟨y, hy, -, hy'⟩
          rw [← some.inj hy, hl] at hy'
          cases hy'
      · rw [if_neg hi, ← h.mem_iff]
        split_ifs
        · exact List.mem_erase_of_ne hi
        · rfl
    · rw [hr]
      split_ifs
      · exact (h.nodup w).erase id
      · exact h.nodup w

theorem registered (hno : s.sessions.lookup id = none) (user : ℕ) :
    Routed { s with
      byWorkspace := s.byWorkspace.insert workspace (s.routedIn workspace ++ [id])
      sessions := s.sessions.insert id (.fresh workspace user s.log.length) } := by
  have hout : ∀ w, id ∉ s.routedIn w := by
    intro w hmem
    obtain ⟨x, hx, -⟩ := (h.mem_iff w id).mp hmem
    rw [hno] at hx
    cases hx
  refine ⟨fun w i => ?_, fun w => ?_⟩
  · by_cases hi : i = id
    · subst hi
      simp only [AList.lookup_insert]
      by_cases hw : w = workspace
      · subst hw
        simp [routedIn, Session.fresh]
      · have hi := hout w
        rw [routedIn] at hi
        simpa [routedIn, AList.lookup_insert_ne hw, hi, Session.fresh] using Ne.symm hw
    · simp only [AList.lookup_insert_ne hi]
      rw [← h.mem_iff]
      by_cases hw : w = workspace
      · subst hw
        simp [routedIn, hi]
      · simp [routedIn, AList.lookup_insert_ne hw]
  · by_cases hw : w = workspace
    · subst hw
      have hn := (h.nodup w).append (List.nodup_singleton id) (by simpa using hout w)
      simpa [routedIn] using hn
    · have hn := h.nodup w
      simpa [routedIn, AList.lookup_insert_ne hw] using hn

theorem evict : Routed (s.evict workspace id) := h.dropFromRouting.closeOutbox

theorem lookup_evict (workspace id i : ℕ) :
    (s.evict workspace id).sessions.lookup i =
      if i = id then
        (s.sessions.lookup i).map fun x => (x.leave workspace s.log.length).closeOutbox
      else s.sessions.lookup i := by
  rw [State.evict, State.closeOutbox, lookup_update, h.lookup_dropFromRouting]
  split_ifs
  · rw [map_map]
    rfl
  · rfl

/-- A broadcast offers the payload to each routed session once. -/
theorem foldl_offer (cfg : Config) (payload : Payload D) {ids : List ℕ} (hn : ids.Nodup)
    (hids : ∀ id ∈ ids, id ∈ s.routedIn workspace) :
    Routed (ids.foldl (offer cfg workspace payload) s) ∧
    (ids.foldl (offer cfg workspace payload) s).log = s.log ∧
    ∀ i, (ids.foldl (offer cfg workspace payload) s).sessions.lookup i =
      if i ∈ ids then (s.sessions.lookup i).map (·.offered cfg payload s.log.length)
      else s.sessions.lookup i := by
  induction ids generalizing s with
  | nil => exact ⟨h, rfl, fun i => by simp⟩
  | cons id ids ih =>
    obtain ⟨hid, hn⟩ := List.nodup_cons.mp hn
    obtain ⟨x, hx, hx'⟩ := (h.mem_iff workspace id).mp (hids id List.mem_cons_self)
    have hlog : (offer cfg workspace payload s id).log = s.log := by
      simp only [offer, hx]
      split_ifs
      · exact update_log _
      · exact closeOutbox_log.trans dropFromRouting_log
      · rfl
    have hr : Routed (offer cfg workspace payload s id) := by
      simp only [offer, hx]
      split_ifs
      · exact h.update fun x => ⟨rfl, rfl⟩
      · exact h.evict
      · exact h
    have hl : ∀ i, (offer cfg workspace payload s id).sessions.lookup i =
        if i = id then (s.sessions.lookup i).map (·.offered cfg payload s.log.length)
        else s.sessions.lookup i := by
      intro i
      simp only [offer, hx]
      split_ifs with ho hro hi hi hi
      · subst hi
        simp [lookup_update, hx, Session.offered, ho, hro]
      · simp [lookup_update, hi]
      · subst hi
        simp [h.lookup_evict, hx, Session.offered, ho, hro, Session.leave, hx',
          Session.closeOutbox]
      · simp [h.lookup_evict, hi]
      · subst hi
        simp [hx, Session.offered, ho]
      · rfl
    have hre : ∀ i ∈ ids, i ∈ (offer cfg workspace payload s id).routedIn workspace := by
      intro i hi
      have hne : i ≠ id := fun heq => hid (heq ▸ hi)
      rw [hr.mem_iff, hl, if_neg hne, ← h.mem_iff]
      exact hids i (List.mem_cons_of_mem _ hi)
    obtain ⟨hfl, hfo, hf⟩ := ih hr hn hre
    refine ⟨hfl, hfo.trans hlog, fun i => ?_⟩
    rw [List.foldl_cons, hf, hl, hlog]
    by_cases hi : i = id
    · subst hi
      simp [hid]
    · simp [hi]

end

end Routed

def Event.logged (log : List (ℕ × Payload D)) : Event D → List (ℕ × Payload D)
  | .notify workspace event data => log ++ [(workspace, notification event data)]
  | _ => log

def Event.added (count id : ℕ) : Event D → Option (Session D)
  | .register i workspace user true =>
    if id = i then some (.fresh workspace user count) else none
  | _ => none

structure Stepped (cfg : Config) (s : State D) (e : Event D) (t : State D) : Prop where
  routed : Routed t
  log : t.log = e.logged s.log
  lookup : ∀ id x, s.sessions.lookup id = some x →
    t.sessions.lookup id = some (x.effect cfg s.log.length id e)
  added : ∀ id, s.sessions.lookup id = none → t.sessions.lookup id = e.added s.log.length id

namespace Stepped

theorem of_lookup_eq (id : ℕ) {f : Session D → Session D} (hr : Routed t)
    (hlog : t.log = e.logged s.log)
    (hl : ∀ i, t.sessions.lookup i =
      if i = id then (s.sessions.lookup i).map f else s.sessions.lookup i)
    (ha : ∀ i, e.added s.log.length i = none)
    (hf : ∀ x, s.sessions.lookup id = some x → x.effect cfg s.log.length id e = f x)
    (ho : ∀ i (x : Session D), i ≠ id → x.effect cfg s.log.length i e = x) :
    Stepped cfg s e t := by
  refine ⟨hr, hlog, fun i x hx => ?_, fun i hi => ?_⟩
  · rw [hl, hx]
    split_ifs with hi
    · subst hi
      rw [hf x hx, map_some]
    · rw [ho i x hi]
  · rw [hl, hi, map_none, ite_self, ha]

theorem of_eq (hr : Routed t) (hlog : t.log = e.logged s.log)
    (hs : t.sessions = s.sessions) (ha : ∀ i, e.added s.log.length i = none)
    (he : ∀ i x, s.sessions.lookup i = some x → x.effect cfg s.log.length i e = x) :
    Stepped cfg s e t := by
  refine ⟨hr, hlog, fun i x hx => ?_, fun i hi => ?_⟩
  · rw [hs, hx, he i x hx]
  · rw [hs, hi, ha]

end Stepped

/-- Every step does to each session what its effect says. -/
theorem step_effect (h : Routed s) (ht : step cfg s e = some t) : Stepped cfg s e t := by
  cases e with
  | register id workspace user admitted =>
    simp only [step] at ht
    split_ifs at ht with hid ha
    · cases ht
      have hn : s.sessions.lookup id = none := AList.lookup_eq_none.mpr hid
      subst ha
      refine ⟨h.registered hn user, rfl, fun i x hx => ?_, fun i hi => ?_⟩
      · have hne : i ≠ id := by
          rintro rfl
          rw [hn] at hx
          cases hx
        exact (AList.lookup_insert_ne hne).trans hx
      · by_cases heq : i = id
        · subst heq
          rw [Event.added, if_pos rfl]
          exact AList.lookup_insert _
        · rw [Event.added, if_neg heq]
          exact (AList.lookup_insert_ne heq).trans hi
    · cases ht
      exact .of_eq h rfl rfl (fun _ => by simp [Event.added, ha]) fun _ _ _ => rfl
  | unregister workspace id =>
    have hd : Routed (s.dropFromRouting workspace id) := h.dropFromRouting
    have hl := h.lookup_dropFromRouting workspace id
    simp only [step] at ht
    split at ht
    · rename_i hn
      cases ht
      refine .of_lookup_eq id hd dropFromRouting_log hl (fun _ => rfl) (fun x hx => ?_)
        fun i x hi => if_neg (Ne.symm hi)
      simp [hl, hx] at hn
    · rename_i y hy
      rw [hl, if_pos rfl] at hy
      obtain ⟨x, hx, rfl⟩ := map_eq_some_iff.mp hy
      split_ifs at ht with hs
      · cases ht
        have hu : Routed ((s.dropFromRouting workspace id).update id Session.popSlot) :=
          hd.update fun x => ⟨rfl, rfl⟩
        refine .of_lookup_eq (f := fun x => (x.leave workspace s.log.length).popSlot) id
          (hu.congr rfl rfl) ((update_log _).trans dropFromRouting_log) (fun i => ?_)
          (fun _ => rfl) (fun z hz => ?_) fun i x hi => if_neg (Ne.symm hi)
        · rw [lookup_update, hl]
          split_ifs
          · rw [map_map]
            rfl
          · rfl
        · obtain rfl := mem_unique hx hz
          simp only [Session.effect, if_true, hs]
      · cases ht
        refine .of_lookup_eq id hd.closeOutbox (closeOutbox_log.trans dropFromRouting_log)
          (h.lookup_evict workspace id) (fun _ => rfl) (fun z hz => ?_)
          fun i x hi => if_neg (Ne.symm hi)
        obtain rfl := mem_unique hx hz
        simp only [Session.effect, if_true, hs, Bool.false_eq_true, if_false]
  | released id =>
    simp only [step] at ht
    split_ifs at ht
    cases ht
    refine .of_lookup_eq id (h.closeOutbox.congr rfl rfl) closeOutbox_log
      (fun i => lookup_update _) (fun _ => rfl) (fun x _ => if_pos rfl)
      fun i x hi => if_neg (Ne.symm hi)
  | disconnectUser user =>
    cases ht
    exact .of_eq (h.congr rfl rfl) rfl rfl (fun _ => rfl) fun _ _ _ => rfl
  | disconnectCloses id =>
    simp only [step] at ht
    split_ifs at ht
    cases ht
    refine .of_lookup_eq id (h.closeOutbox.congr rfl rfl) closeOutbox_log
      (fun i => lookup_update _) (fun _ => rfl) (fun x _ => if_pos rfl)
      fun i x hi => if_neg (Ne.symm hi)
  | drain =>
    cases ht
    exact .of_eq (h.congr rfl rfl) rfl rfl (fun _ => rfl) fun _ _ _ => rfl
  | drainWakes workspace id =>
    simp only [step] at ht
    split_ifs at ht with hmem ho
    · cases ht
      refine .of_eq (h.congr rfl rfl) rfl rfl (fun _ => rfl) fun i x hx => if_neg ?_
      rintro ⟨rfl, hc⟩
      simp [hx, hc] at ho
    · cases ht
      have hw : Routed { s with sleeping := s.sleeping.erase (workspace, id) } :=
        h.congr rfl rfl
      refine .of_lookup_eq id hw.evict (closeOutbox_log.trans dropFromRouting_log)
        (hw.lookup_evict workspace id) (fun _ => rfl) (fun x hx => ?_) fun i x hi => ?_
      · have hc : x.outbox = false := by simpa [hx] using ho
        exact if_pos ⟨rfl, hc⟩
      · exact if_neg fun h => hi h.1.symm
  | drainFlushed workspace id =>
    simp only [step] at ht
    split_ifs at ht
    cases ht
    have hf : Routed { s with flushing := s.flushing.erase (workspace, id) } :=
      h.congr rfl rfl
    exact .of_lookup_eq id hf.evict (closeOutbox_log.trans dropFromRouting_log)
      (hf.lookup_evict workspace id) (fun _ => rfl) (fun x _ => if_pos rfl)
      fun i x hi => if_neg (Ne.symm hi)
  | notify workspace event data =>
    cases ht
    have hlo : Routed { s with log := s.log ++ [(workspace, notification event data)] } :=
      h.congr rfl rfl
    obtain ⟨hr, hlog, hl⟩ := hlo.foldl_offer cfg
      (notification event data) (h.nodup workspace) fun i hi => hi
    refine ⟨hr, hlog, fun i x hx => ?_, fun i hi => ?_⟩
    · have hmem : i ∈ s.routedIn workspace ↔ x.workspace = workspace ∧ x.left = none := by
        rw [h.mem_iff, hx]
        simp
      rw [State.notify, hl]
      simp only [hx, Session.effect, hmem, List.length_append, List.length_singleton]
      split_ifs <;> rfl
    · rw [State.notify, hl]
      simp only [hi, map_none, ite_self]
      rfl
  | senderRuns id =>
    obtain ⟨x, hx, ht⟩ := bind_eq_some_iff.mp ht
    split_ifs at ht
    cases ht
    exact .of_lookup_eq id (h.update Session.hand_keeps) (update_log _) (fun i => lookup_update _)
      (fun _ => rfl) (fun x _ => if_pos rfl) fun i x hi => if_neg (Ne.symm hi)
  | sent id failed =>
    obtain ⟨x, hx, ht⟩ := bind_eq_some_iff.mp ht
    split_ifs at ht
    cases ht
    exact .of_lookup_eq id (h.update Session.hand_keeps) (update_log _) (fun i => lookup_update _)
      (fun _ => rfl) (fun x _ => if_pos rfl) fun i x hi => if_neg (Ne.symm hi)
  | interrupted id caught =>
    obtain ⟨x, hx, ht⟩ := bind_eq_some_iff.mp ht
    split_ifs at ht
    cases ht
    exact .of_lookup_eq id (h.update (Session.interrupt_keeps caught)) (update_log _)
      (fun i => lookup_update _) (fun _ => rfl) (fun x _ => if_pos rfl)
      fun i x hi => if_neg (Ne.symm hi)

end Aizzak.NotificationHub
