import Aizzak.NotificationHub

/-!
What a session is handed of the notifications of its workspace. The payloads handed and the ones
queued are together the notifications issued while the session was routed to, as long as its
outbox is open, and a beginning of them afterwards. A session's payloads do not depend on the
sends of another.
-/
namespace Aizzak.NotificationHub

open EventRuns KeyedTables State List

variable {D : Type*}

def issued (log : List (ℕ × Payload D)) (x : Session D) : List (Payload D) :=
  (((log.take (x.left.getD log.length)).drop x.joined).filter (·.1 = x.workspace)).map Prod.snd

variable {cfg : Config} {s t : State D} {e : Event D} {id : ℕ} {x : Session D}
  {log : List (ℕ × Payload D)}

theorem issued_logged (hj : x.joined ≤ log.length)
    (hl : ∀ n, x.left = some n → n ≤ log.length) (w : ℕ) (payload : Payload D) :
    issued (log ++ [(w, payload)]) x =
      issued log x ++ if x.workspace = w ∧ x.left = none then [payload] else [] := by
  cases hx : x.left with
  | none =>
    simp only [issued, hx, Option.getD_none, take_length, and_true]
    rw [drop_append_of_le_length hj, filter_append, map_append]
    by_cases hw : w = x.workspace
    · simp [hw]
    · simp [hw, Ne.symm hw]
  | some n =>
    simp only [issued, hx, Option.getD_some]
    rw [take_append_of_le_length (hl n hx)]
    simp

theorem mem_log_of_mem_issued {payload : Payload D} (h : payload ∈ issued log x) :
    (x.workspace, payload) ∈ log := by
  obtain ⟨⟨w, p⟩, hmem, rfl⟩ := mem_map.mp h
  obtain ⟨hmem, hw⟩ := mem_filter.mp hmem
  obtain rfl : w = x.workspace := by simpa using hw
  exact mem_of_mem_take (mem_of_mem_drop hmem)

/-- What the hub owes a session: every notification issued while it was routed to, handed or
queued in the order of the calls, up to where its outbox was closed. -/
structure Served (cfg : Config) (log : List (ℕ × Payload D)) (x : Session D) : Prop where
  handed : x.handed ++ x.queue <+: issued log x
  complete : x.outbox = true → x.handed ++ x.queue = issued log x
  bounded : x.queue.length ≤ cfg.sessionQueueSize
  working : x.outbox = true → x.cancelled = false ∧ x.sender ≠ .ended
  joined : x.joined ≤ log.length
  left : ∀ n, x.left = some n → n ≤ log.length

namespace Served

theorem fresh (workspace user : ℕ) : Served cfg log (.fresh workspace user log.length) := by
  have hi : issued log (.fresh workspace user log.length) = [] := by
    simp [issued, Session.fresh]
  refine ⟨?_, fun _ => ?_, Nat.zero_le _, fun _ => ⟨rfl, by simp [Session.fresh]⟩,
    Nat.le_refl _, by simp [Session.fresh]⟩
  · exact nil_prefix
  · rw [hi]
    rfl

section

variable (h : Served cfg log x)
include h

theorem popSlot : Served cfg log x.popSlot :=
  ⟨h.handed, h.complete, h.bounded, h.working, h.joined, h.left⟩

theorem closeOutbox : Served cfg log x.closeOutbox := by
  rw [Session.closeOutbox]
  split_ifs
  · exact ⟨h.handed, by simp, h.bounded, by simp, h.joined, h.left⟩
  · exact h

theorem leave (workspace : ℕ) : Served cfg log (x.leave workspace log.length) := by
  rw [Session.leave]
  split_ifs with hx
  · have hi : issued log { x with left := some log.length } = issued log x := by
      simp [issued, hx.2]
    refine ⟨hi ▸ h.handed, fun ho => hi ▸ h.complete ho, h.bounded, h.working,
      h.joined, fun n hn => ?_⟩
    cases hn
    exact Nat.le_refl _
  · exact h

theorem hand : Served cfg log x.hand := by
  rw [Session.hand]
  split
  · exact ⟨h.handed, h.complete, h.bounded, fun ho => ⟨(h.working ho).1, by simp⟩, h.joined,
      h.left⟩
  · rename_i payload rest hq
    have hs : (x.handed ++ [payload]) ++ rest = x.handed ++ x.queue := by
      rw [hq, append_assoc, singleton_append]
    have hb := h.bounded
    rw [hq, length_cons] at hb
    refine ⟨?_, fun ho => ?_, by show rest.length ≤ _; omega,
      fun ho => ⟨(h.working ho).1, by simp⟩, h.joined, h.left⟩
    · exact hs ▸ h.handed
    · exact hs.trans (h.complete ho)

theorem interrupt (hca : x.cancelled = true) (caught : Bool) :
    Served cfg log (x.interrupt caught) := by
  have hc : x.outbox ≠ true := by
    intro ho
    have hw := (h.working ho).1
    rw [hca] at hw
    cases hw
  rw [Session.interrupt]
  split_ifs
  · exact ⟨h.handed, h.complete, h.bounded, fun ho => absurd ho hc, h.joined, h.left⟩
  · exact ⟨h.handed, h.complete, h.bounded, fun ho => absurd ho hc, h.joined, h.left⟩

/-- A notification the session is not routed. -/
theorem passed {w : ℕ} (hx : ¬(x.workspace = w ∧ x.left = none)) (payload : Payload D) :
    Served cfg (log ++ [(w, payload)]) x := by
  have hi := issued_logged h.joined h.left w payload
  rw [if_neg hx, append_nil] at hi
  have hl : log.length ≤ (log ++ [(w, payload)]).length := by simp
  exact ⟨hi ▸ h.handed, fun ho => hi ▸ h.complete ho, h.bounded, h.working,
    Nat.le_trans h.joined hl, fun n hn => Nat.le_trans (h.left n hn) hl⟩

theorem offered {w : ℕ} (hx : x.workspace = w ∧ x.left = none) (payload : Payload D) :
    Served cfg (log ++ [(w, payload)]) (x.offered cfg payload (log.length + 1)) := by
  have hi := issued_logged h.joined h.left w payload
  rw [if_pos hx] at hi
  have hln : (log ++ [(w, payload)]).length = log.length + 1 := by simp
  have hj : x.joined ≤ (log ++ [(w, payload)]).length := by
    have := h.joined
    omega
  have hle : ∀ n, x.left = some n → n ≤ (log ++ [(w, payload)]).length := by
    intro n hn
    rw [hx.2] at hn
    cases hn
  have hl : x.handed ++ x.queue <+: issued (log ++ [(w, payload)]) x :=
    hi ▸ h.handed.trans (prefix_append _ _)
  rw [Session.offered]
  split_ifs with hop hr
  · have hc : x.handed ++ (x.queue ++ [payload]) = issued (log ++ [(w, payload)]) x := by
      rw [hi, ← h.complete hop, append_assoc]
    refine ⟨hc ▸ prefix_rfl, fun _ => hc, ?_, h.working, hj, hle⟩
    show (x.queue ++ [payload]).length ≤ _
    rw [length_append]
    exact hr
  · have hs : issued (log ++ [(w, payload)])
          { x with outbox := false, cancelled := true, left := some (log.length + 1) } =
        issued (log ++ [(w, payload)]) x := by
      simp [issued, hx.2]
    refine ⟨hs ▸ hl, by simp, h.bounded, by simp, hj, fun n hn => ?_⟩
    cases hn
    exact Nat.le_of_eq hln.symm
  · exact ⟨hl, fun ho => absurd ho hop, h.bounded, h.working, hj, hle⟩

/-- Every event keeps it, with the log the event leaves. -/
theorem effect (hc : ∀ caught, e = .interrupted id caught → x.cancelled = true) :
    Served cfg (e.logged log) (x.effect cfg log.length id e) := by
  cases e with
  | register | disconnectUser | drain => exact h
  | unregister workspace i =>
    simp only [Session.effect]
    split_ifs
    · exact (h.leave workspace).popSlot
    · exact (h.leave workspace).closeOutbox
    · exact h
  | released i | disconnectCloses i =>
    simp only [Session.effect]
    split_ifs
    · exact h.closeOutbox
    · exact h
  | drainWakes workspace i | drainFlushed workspace i =>
    simp only [Session.effect]
    split_ifs
    · exact (h.leave workspace).closeOutbox
    · exact h
  | notify workspace event data =>
    simp only [Session.effect]
    split_ifs with hx
    · exact h.offered hx _
    · exact h.passed hx _
  | senderRuns i | sent i failed =>
    simp only [Session.effect]
    split_ifs
    · exact h.hand
    · exact h
  | interrupted i caught =>
    simp only [Session.effect]
    split_ifs with hi
    · exact h.interrupt (hc caught (hi ▸ rfl)) caught
    · exact h

end

end Served

structure Sound (cfg : Config) (s : State D) : Prop where
  routed : Routed s
  served : ∀ id x, s.sessions.lookup id = some x → Served cfg s.log x

theorem Sound.init : Sound cfg (State.init : State D) :=
  ⟨Routed.init, fun id x hx => by simp [State.init] at hx⟩

/-- Every notification reaches the sessions that were routed to. -/
theorem step_sound (h : Sound cfg s) (ht : step cfg s e = some t) : Sound cfg t := by
  have hs := step_effect h.routed ht
  refine ⟨hs.routed, fun id y hy => ?_⟩
  rw [hs.log]
  cases hx : s.sessions.lookup id with
  | none =>
    have ha := (hs.added id hx).symm.trans hy
    cases e with
    | register i workspace user admitted =>
      cases admitted with
      | false => cases ha
      | true =>
        simp only [Event.added] at ha
        split_ifs at ha
        cases ha
        exact .fresh workspace user
    | _ => cases ha
  | some x =>
    obtain rfl := Option.some.inj ((hs.lookup id x hx).symm.trans hy)
    refine (h.served id x hx).effect fun caught he => ?_
    subst he
    obtain ⟨z, hz, ht⟩ := Option.bind_eq_some_iff.mp ht
    obtain rfl := Option.mem_unique hx hz
    split_ifs at ht with hc
    exact hc.1

theorem run_sound {es : List (Event D)} (hrun : run (step cfg) State.init es = some s) :
    Sound cfg s :=
  run_invariant_of_step (fun _ _ _ h ht => step_sound h ht) hrun .init

def Event.sendOf : Event D → Option ℕ
  | .senderRuns id | .sent id _ | .interrupted id _ => some id
  | _ => none

def Event.heardBy (id : ℕ) (e : Event D) : Bool := e.sendOf.all (· == id)

theorem effect_of_not_heard (he : e.heardBy id = false) (count : ℕ) :
    x.effect cfg count id e = x := by
  cases e <;> simp_all [Event.heardBy, Event.sendOf, Session.effect]

/-- What a session's sender does while nothing else happens: it hands over one payload after
another, whatever the other sessions wait for. -/
theorem sender_empties_queue (h : Sound cfg s) (hx : s.sessions.lookup id = some x)
    (ho : x.outbox = true) :
    ∃ fs t y, fs.length = x.queue.length ∧
      (∀ e ∈ fs, e = .senderRuns id ∨ e = .sent id false) ∧
      run (step cfg) s fs = some t ∧ t.sessions.lookup id = some y ∧
      y.handed = issued s.log x := by
  induction hq : x.queue generalizing s x with
  | nil =>
    refine ⟨[], s, x, rfl, nofun, rfl, hx, ?_⟩
    have hco := (h.served id x hx).complete ho
    rwa [hq, append_nil] at hco
  | cons payload rest ih =>
    obtain ⟨hc, hen⟩ := (h.served id x hx).working ho
    obtain ⟨e, he, hst⟩ : ∃ e : Event D, (e = .senderRuns id ∨ e = .sent id false) ∧
        step cfg s e = some (s.update id Session.hand) := by
      cases hs : x.sender with
      | idle => exact ⟨_, .inl rfl, by simp [step, hx, hs, hc]⟩
      | sending => exact ⟨_, .inr rfl, by simp [step, hx, hs]⟩
      | ended => exact absurd hs hen
    have hha : x.hand =
        { x with sender := .sending, queue := rest, handed := x.handed ++ [payload] } := by
      rw [Session.hand, hq]
    have hx' : (s.update id Session.hand).sessions.lookup id = some x.hand := by
      rw [lookup_update, if_pos rfl, hx, Option.map_some]
    obtain ⟨fs, t, y, hl, hfs, hrun, hy, hh⟩ := ih (step_sound h hst) hx'
      (by rw [hha]; exact ho) (by rw [hha])
    refine ⟨e :: fs, t, y, by simp [hl], ?_, ?_, hy, ?_⟩
    · intro f hf
      rcases mem_cons.mp hf with rfl | hf
      · exact he
      · exact hfs f hf
    · rw [run, hst, Option.bind_some]
      exact hrun
    · rw [hh, update_log, hha]
      rfl

/-- A step that is not a session's own leaves it as it is. -/
theorem quiet_step_keeps_view (h : Sound cfg s) (he : e.heardBy id = false)
    (ht : step cfg s e = some t) :
    (t.log, t.sessions.lookup id) = (s.log, s.sessions.lookup id) := by
  have hs := step_effect h.routed ht
  have hlog : e.logged s.log = s.log := by
    cases e <;> simp_all [Event.heardBy, Event.sendOf, Event.logged]
  rw [hs.log, hlog]
  cases hx : s.sessions.lookup id with
  | none =>
    rw [hs.added id hx]
    cases e with
    | register => cases he
    | _ => rfl
  | some x => rw [hs.lookup id x hx, effect_of_not_heard he]

theorem step_view_eq {s' t' : State D} (h : Sound cfg s) (h' : Sound cfg s')
    (hv : (s.log, s.sessions.lookup id) = (s'.log, s'.sessions.lookup id))
    (ht : step cfg s e = some t) (ht' : step cfg s' e = some t') :
    (t.log, t.sessions.lookup id) = (t'.log, t'.sessions.lookup id) := by
  obtain ⟨hlog, hl⟩ := Prod.mk.inj hv
  have hs := step_effect h.routed ht
  have hstep' := step_effect h'.routed ht'
  rw [hs.log, hstep'.log, hlog]
  cases hx : s.sessions.lookup id with
  | some x => rw [hs.lookup id x hx, hstep'.lookup id x (hl ▸ hx), hlog]
  | none => rw [hs.added id hx, hstep'.added id (hl ▸ hx), hlog]

/-- The fan-out, in every state the hub can come to. What a session has been handed is a beginning
of the notifications issued for its workspace while it was routed to, and with what is queued all
of them unless its outbox was closed; the queue is bounded, and the sender hands over what is in
it whatever the others wait for. Two futures that differ in the sends of other sessions leave the
session alike. -/
theorem notifications_are_fanned_out {es : List (Event D)}
    (hrun : run (step cfg) State.init es = some s) :
    (∀ id x, s.sessions.lookup id = some x →
      x.handed <+: issued s.log x ∧
      (x.outbox = true → x.handed ++ x.queue = issued s.log x) ∧
      (∀ payload ∈ x.handed, (x.workspace, payload) ∈ s.log) ∧
      x.queue.length ≤ cfg.sessionQueueSize ∧
      (x.outbox = true → ∃ fs t y, fs.length = x.queue.length ∧
        (∀ e ∈ fs, e = .senderRuns id ∨ e = .sent id false) ∧
        run (step cfg) s fs = some t ∧ t.sessions.lookup id = some y ∧
        y.handed = issued s.log x)) ∧
    ∀ id fs gs t u, run (step cfg) s fs = some t → run (step cfg) s gs = some u →
      fs.filter (Event.heardBy id) = gs.filter (Event.heardBy id) →
      t.log = u.log ∧ t.sessions.lookup id = u.sessions.lookup id := by
  have hso := run_sound hrun
  refine ⟨fun id x hx => ?_, fun id fs gs t u hfs hgs hsa => ?_⟩
  · have hs := hso.served id x hx
    have hh : x.handed <+: issued s.log x := (prefix_append _ _).trans hs.handed
    exact ⟨hh, hs.complete,
      fun payload hp => mem_log_of_mem_issued (hh.subset hp), hs.bounded,
      sender_empties_queue hso hx⟩
  · exact Prod.mk.inj (run_view_eq (fun s => (s.log, s.sessions.lookup id)) (Event.heardBy id)
      (fun _ _ _ h ht => step_sound h ht)
      (fun _ _ _ h he ht => quiet_step_keeps_view h he ht)
      (fun _ _ _ _ _ h h' hv ht ht' => step_view_eq h h' hv ht ht')
      hso hso rfl hfs hgs hsa)

def stuckSession : List (Event ℕ) :=
  [.register 1 7 20 true, .register 2 7 21 true, .register 3 8 22 true,
    .notify 7 "document.ready" 0, .senderRuns 1, .senderRuns 2, .sent 1 false,
    .notify 7 "document.ready" 1, .senderRuns 1, .sent 1 true,
    .notify 7 "document.ready" 2, .senderRuns 1, .unregister 7 1, .released 1,
    .sent 1 false, .interrupted 1 false]

theorem stuck_session_costs_nobody_else :
    ∃ s, run (step ⟨1, Nat.le_refl 1⟩) State.init stuckSession = some s ∧
      (s.sessions.lookup 1).map Session.handed =
        some [notification "document.ready" 0, notification "document.ready" 1,
          notification "document.ready" 2] ∧
      (s.sessions.lookup 2).map Session.handed = some [notification "document.ready" 0] ∧
      (s.sessions.lookup 3).map Session.handed = some [] ∧
      ∀ id x, s.sessions.lookup id = some x → x.handed <+: issued s.log x := by
  obtain ⟨s, hs, hh⟩ := exists_run_of_any
    (p := fun s : State ℕ => decide ((s.sessions.lookup 1).map Session.handed =
        some [notification "document.ready" 0, notification "document.ready" 1,
          notification "document.ready" 2] ∧
      (s.sessions.lookup 2).map Session.handed = some [notification "document.ready" 0] ∧
      (s.sessions.lookup 3).map Session.handed = some []))
    (show (run (step ⟨1, Nat.le_refl 1⟩) State.init stuckSession).any _ = true by decide +kernel)
  obtain ⟨hf, hse, ht⟩ := of_decide_eq_true hh
  exact ⟨s, hs, hf, hse, ht,
    fun id x hx => ((notifications_are_fanned_out hs).1 id x hx).1⟩

end Aizzak.NotificationHub
