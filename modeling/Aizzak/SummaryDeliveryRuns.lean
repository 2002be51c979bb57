import Aizzak.SummaryDeliveries

/-!
A summary reaches its thread at most once, whatever fails. It reaches it at all, when its entry
is acknowledged and the thread and the summary are still there, in the runs whose database does
not fail inside the transaction of a delivery and whose appends win the races for their numbers.
-/
namespace Aizzak.SummaryDeliveryRuns

open EventRuns KeyedTables PyText Conversations SummaryMessages SummaryDeliveries
open SummaryJobs (SummaryKey SummaryLanguage)

section Invariant

variable (isAlpha : CodePoint → Bool) (visited : State → Prop)

/-- The text was composed for the notice in some state of the run. -/
def Composed (notice : Notice) (text : Text) : Prop :=
  ∃ u fileName, visited u ∧ compose isAlpha u.summaries notice.content fileName = some text

/-- In some state of the run in which the event was being delivered there was no summary to
deliver or no live thread to deliver it to. -/
def Excused (event : ℕ) (notice : Notice) (conversation : ℕ) : Prop :=
  ∃ u, visited u ∧ (∃ id delivery, u.deliveries.lookup id = some delivery ∧
    delivery.event = event) ∧
    ((∃ key, notice.content = .built key ∧ key ∉ u.summaries) ∨
      Unreachable u.threads conversation)

structure Ready (s : State) (delivery : Delivery) : Prop where
  notice : s.outbox.lookup delivery.event = some delivery.notice
  entry : s.entries.lookup delivery.entry = some delivery.event
  claiming : ∀ text, delivery.phase = .claiming text → Composed isAlpha visited delivery.notice text
  reading : ∀ text, delivery.phase = .reading text → Composed isAlpha visited delivery.notice text
  inserting : ∀ message, delivery.phase = .inserting message →
    message.conversationId ∈ s.threads.conversations ∧
      ∃ conversation text, delivery.notice.conversationId = some conversation ∧
        Composed isAlpha visited delivery.notice text ∧ Carries conversation text message
  holding : delivery.phase.holds = true → delivery.event ∉ s.claims

def Appended (s : State) (event key : ℕ) : Prop :=
  ∃ notice conversation text message, s.outbox.lookup event = some notice ∧
    notice.conversationId = some conversation ∧ Composed isAlpha visited notice text ∧
    s.threads.messages.lookup key = some message ∧ Carries conversation text message

structure Sound (s : State) : Prop where
  deliveries : ∀ id delivery, s.deliveries.lookup id = some delivery →
    Ready isAlpha visited s delivery
  unique : ∀ i j delivery other, s.deliveries.lookup i = some delivery →
    s.deliveries.lookup j = some other → delivery.event = other.event →
      delivery.phase.holds = true → other.phase.holds = true → i = j
  claimed : s.delivered.map Prod.fst = s.claims
  nodup : s.claims.Nodup
  keys : (s.delivered.map Prod.snd).Nodup
  messages : ∀ event key, (event, key) ∈ s.delivered → Appended isAlpha visited s event key

def Settled (s : State) (event : ℕ) (notice : Notice) : Prop :=
  ∀ conversation, notice.conversationId = some conversation →
    (∃ key, (event, key) ∈ s.delivered) ∨ Excused visited event notice conversation

structure Honest (s : State) : Prop where
  answered : ∀ id delivery, s.deliveries.lookup id = some delivery →
    delivery.phase = .answered → Settled visited s delivery.event delivery.notice
  acked : ∀ entry ∈ s.acked, ∃ event notice, s.entries.lookup entry = some event ∧
    s.outbox.lookup event = some notice ∧ Settled visited s event notice

structure Grown (s t : State) : Prop where
  outbox : ∀ event notice, s.outbox.lookup event = some notice →
    t.outbox.lookup event = some notice
  entries : ∀ entry event, s.entries.lookup entry = some event →
    t.entries.lookup entry = some event
  threads : Kept s.threads t.threads
  delivered : ∀ pair ∈ s.delivered, pair ∈ t.delivered

variable {isAlpha visited} {s t : State} {e : Event} {id : ℕ} {delivery : Delivery}

theorem init_sound : Sound isAlpha visited init where
  deliveries := fun _ _ h => by cases h
  unique := fun _ _ _ _ h => by cases h
  claimed := rfl
  nodup := List.nodup_nil
  keys := List.nodup_nil
  messages := fun _ _ h => by cases h

theorem init_honest : Honest visited init where
  answered := fun _ _ h => by cases h
  acked := fun _ h => by cases h

variable {message : Message}

theorem carries_marked {conversation : ℕ} {text : Text} {deletedAt : Option ℕ}
    (h : Carries conversation text message) :
    Carries conversation text { message with deletedAt := deletedAt } :=
  ⟨h.conversationId, h.role, h.content⟩

variable {event : ℕ}

theorem Appended.grown {key : ℕ} (h : Appended isAlpha visited s event key) (hg : Grown s t) :
    Appended isAlpha visited t event key := by
  obtain ⟨notice, conversation, text, message, hn, hco, htext, hm, hc⟩ :=
    h
  obtain ⟨deletedAt, hk⟩ := hg.threads.messages key message hm
  exact ⟨notice, conversation, text, _, hg.outbox event notice hn, hco, htext,
    hk, carries_marked hc⟩

theorem Ready.grown (h : Ready isAlpha visited s delivery) (hg : Grown s t)
    (hc : delivery.phase.holds = true → delivery.event ∉ t.claims) :
    Ready isAlpha visited t delivery where
  notice := hg.outbox _ _ h.notice
  entry := hg.entries _ _ h.entry
  claiming := h.claiming
  reading := h.reading
  inserting := fun message hp => by
    obtain ⟨hmem, hr⟩ := h.inserting message hp
    exact ⟨hg.threads.threads _ hmem, hr⟩
  holding := hc

theorem Settled.grown {notice : Notice} (h : Settled visited s event notice) (hg : Grown s t) :
    Settled visited t event notice := by
  intro conversation hc
  rcases h conversation hc with ⟨key, hkey⟩ | hexcused
  · exact .inl ⟨key, hg.delivered _ hkey⟩
  · exact .inr hexcused

theorem grown_insert_outbox {notice : Notice} (hnew : event ∉ s.outbox) :
    Grown s { s with outbox := s.outbox.insert event notice } where
  outbox := fun other found hf => by
    have hne : other ≠ event := by
      rintro rfl
      exact hnew (mem_of_lookup hf)
    exact (AList.lookup_insert_ne hne).trans hf
  entries := fun _ _ h => h
  threads := .refl _
  delivered := fun _ h => h

theorem grown_insert_entries {entry : ℕ} (hnew : entry ∉ s.entries) :
    Grown s { s with entries := s.entries.insert entry event } where
  outbox := fun _ _ h => h
  entries := fun other found hf => by
    have hne : other ≠ entry := by
      rintro rfl
      exact hnew (mem_of_lookup hf)
    exact (AList.lookup_insert_ne hne).trans hf
  threads := .refl _
  delivered := fun _ h => h

/-- Where the tables of messages, events and entries stay. -/
theorem grown_of_eq (ht : Kept s.threads t.threads) (ho : t.outbox = s.outbox)
    (he : t.entries = s.entries) (hd : ∀ pair ∈ s.delivered, pair ∈ t.delivered) :
    Grown s t where
  outbox := by
    rw [ho]
    exact fun _ _ h => h
  entries := by
    rw [he]
    exact fun _ _ h => h
  threads := ht
  delivered := hd

theorem turn_grown (h : Turn isAlpha s e t) : Grown s t := by
  cases h with
  | threads hk => exact grown_of_eq hk rfl rfl fun _ => id
  | summaries => exact grown_of_eq (.refl _) rfl rfl fun _ => id
  | published hnew => exact grown_insert_outbox hnew
  | relayed hnew he => exact grown_insert_entries hnew
  | deadLettered => exact grown_of_eq (.refl _) rfl rfl fun _ => id
  | delivered hen hn => exact grown_of_eq (.refl _) rfl rfl fun _ => id
  | moved hd hm => exact grown_of_eq (.refl _) rfl rfl fun _ => id
  | spared hd hs => exact grown_of_eq (.refl _) rfl rfl fun _ => id
  | committed hd hp hnew ha haf =>
    exact grown_of_eq (insertMessage_kept hnew) rfl rfl fun _ => List.mem_cons_of_mem _
  | dropped => exact grown_of_eq (.refl _) rfl rfl fun _ => id
  | acked hd hp => exact grown_of_eq (.refl _) rfl rfl fun _ => id

/-- A delivery that enters a phase, no other one holding the claim it holds. -/
structure Entering (isAlpha : CodePoint → Bool) (visited : State → Prop) (s : State) (id : ℕ)
    (delivery : Delivery) : Prop where
  ready : Ready isAlpha visited s delivery
  alone : delivery.phase.holds = true → ∀ j other, s.deliveries.lookup j = some other →
    other.event = delivery.event → other.phase.holds = true → j = id

theorem entering_free {phase : Phase} (h : Ready isAlpha visited s { delivery with phase := phase })
    (hp : phase.holds = false) :
    Entering isAlpha visited s id { delivery with phase := phase } where
  ready := h
  alone := fun hh => by
    rw [hp] at hh
    cases hh

theorem sound_kept (i : ℕ) (hs : Sound isAlpha visited s) (hg : Grown s t)
    (hc : t.claims = s.claims) (hd : t.delivered = s.delivered)
    (ht : ∀ j other, t.deliveries.lookup j = some other →
      s.deliveries.lookup j = some other ∨ (j = i ∧ Entering isAlpha visited s i other)) :
    Sound isAlpha visited t where
  deliveries := by
    intro j other ho
    have hr : Ready isAlpha visited s other := by
      rcases ht j other ho with hold | ⟨-, he⟩
      · exact hs.deliveries j other hold
      · exact he.ready
    refine hr.grown hg ?_
    rw [hc]
    exact hr.holding
  unique := by
    intro k j first second hf hse hev hho hh
    rcases ht k first hf with hold | ⟨rfl, he⟩
    · rcases ht j second hse with hold' | ⟨rfl, hen⟩
      · exact hs.unique k j first second hold hold' hev hho hh
      · exact hen.alone hh k first hold hev hho
    · rcases ht j second hse with hold' | ⟨rfl, -⟩
      · exact (he.alone hho j second hold' hev.symm hh).symm
      · rfl
  claimed := by
    rw [hc, hd]
    exact hs.claimed
  nodup := by
    rw [hc]
    exact hs.nodup
  keys := by
    rw [hd]
    exact hs.keys
  messages := by
    rw [hd]
    exact fun event key h => (hs.messages event key h).grown hg

theorem not_held {j : ℕ} {other : Delivery} (h : s.held event = false)
    (ho : s.deliveries.lookup j = some other) (he : other.event = event) :
    other.phase.holds = false := by
  by_contra hh
  rw [Bool.not_eq_false] at hh
  have hhe : s.held event = true :=
    anyRow_eq_true_iff.mpr ⟨j, other, ho, by simp [he, hh]⟩
  rw [h] at hhe
  cases hhe

theorem moves_entering {phase : Phase} (hs : Sound isAlpha visited s) (hv : visited s)
    (hd : s.deliveries.lookup id = some delivery) (h : Moves isAlpha s delivery phase) :
    Entering isAlpha visited s id { delivery with phase := phase } := by
  have hr := hs.deliveries id delivery hd
  cases h with
  | composes hcn hcm =>
    rename_i text fileName conversation
    refine entering_free ⟨hr.notice, hr.entry, fun other hot => ?_,
      fun _ h => (by cases h), fun _ h => (by cases h), fun h => (by cases h)⟩ rfl
    obtain rfl := Phase.claiming.inj hot
    exact ⟨s, fileName, hv, hcm⟩
  | claims hp hfr hnew =>
    rename_i text
    refine ⟨⟨hr.notice, hr.entry, fun _ h => (by cases h), fun other hot => ?_,
      fun _ h => (by cases h), fun _ => hnew⟩, ?_⟩
    · obtain rfl := Phase.reading.inj hot
      exact hr.claiming _ hp
    · intro _ j other hot he hh
      rw [not_held hfr hot he] at hh
      cases hh
  | appends hp hcn hexecute =>
    rename_i text conversation now message
    have hco := hr.reading text hp
    obtain ⟨u, fileName, hu, hcm⟩ := hco
    have hh : delivery.phase.holds = true := by
      rw [hp]
      rfl
    refine ⟨⟨hr.notice, hr.entry, fun _ h => (by cases h), fun _ h => (by cases h),
      fun other hot => ?_, fun _ => hr.holding hh⟩, ?_⟩
    · obtain rfl := Phase.inserting.inj hot
      have hca := execute_eq s.threads conversation now (compose_not_blank hcm)
      rcases hca with ⟨refusal, hre, -⟩ | ⟨found, hf, hmem, hc⟩
      · rw [hexecute] at hre
        cases hre
      · rw [hexecute] at hf
        obtain rfl := Transcripts.Phase.inserting.inj (Except.ok.inj hf)
        exact ⟨by rwa [hc.conversationId],
          conversation, text, hcn, ⟨u, fileName, hu, hcm⟩, hc⟩
    · intro _ j other hot he ho
      exact hs.unique j id other delivery hot hd he ho hh

theorem ready_answered (h : Ready isAlpha visited s delivery) :
    Ready isAlpha visited s { delivery with phase := .answered } :=
  ⟨h.notice, h.entry, fun _ h => (by cases h), fun _ h => (by cases h), fun _ h => (by cases h),
    fun h => (by cases h)⟩

/-- A committed delivery leaves its message behind. -/
theorem sound_committed {newId : ℕ} {deliveries : AList fun _ : ℕ => Delivery}
    (hs : Sound isAlpha visited s) (hd : s.deliveries.lookup id = some delivery)
    (hph : delivery.phase = .inserting message) (hnew : newId ∉ s.threads.messages)
    (ha : s.accepts message = true)
    (haf : deliveries = s.deliveries.insert id { delivery with phase := .answered } ∨
      deliveries = s.deliveries.erase id)
    (hg : Grown s { s.committed delivery newId message with deliveries := deliveries }) :
    Sound isAlpha visited { s.committed delivery newId message with deliveries := deliveries } := by
  have hr := hs.deliveries id delivery hd
  have hh : delivery.phase.holds = true := by
    rw [hph]
    rfl
  have hfr := hr.holding hh
  obtain ⟨-, conversation, text, hco, htext, hc⟩ := hr.inserting message hph
  have ht : ∀ j other, deliveries.lookup j = some other →
      (j ≠ id ∧ s.deliveries.lookup j = some other) ∨
        (j = id ∧ other = { delivery with phase := .answered }) := by
    intro j other hot
    rcases haf with rfl | rfl
    · rcases lookup_insert_iff.mp hot with ⟨hj, heq⟩ | hold
      · exact .inr ⟨hj, heq.symm⟩
      · exact .inl hold
    · exact .inl (lookup_erase_iff.mp hot)
  have hi : (s.threads.insertMessage newId message).messages.lookup newId =
      some message := by
    rw [State.accepts, Bool.and_eq_true, Option.isSome_iff_exists, Bool.not_eq_true'] at ha
    obtain ⟨⟨row, hrow⟩, hfre⟩ := ha
    rw [insertMessage_eq hrow hfre]
    exact AList.lookup_insert _
  refine ⟨?_, ?_, ?_, ?_, ?_, ?_⟩
  · intro j other hot
    rcases ht j other hot with ⟨hj, hold⟩ | ⟨rfl, rfl⟩
    · refine (hs.deliveries j other hold).grown hg fun ho => ?_
      rw [State.committed, List.mem_cons, not_or]
      refine ⟨fun he => ?_, (hs.deliveries j other hold).holding ho⟩
      exact hj (hs.unique j id other delivery hold hd he ho hh)
    · exact (ready_answered hr).grown hg fun ho => by cases ho
  · intro i j first second hfi hsc he hf hse
    rcases ht i first hfi with ⟨-, hold⟩ | ⟨rfl, rfl⟩
    · rcases ht j second hsc with ⟨-, hold'⟩ | ⟨rfl, rfl⟩
      · exact hs.unique i j first second hold hold' he hf hse
      · cases hse
    · cases hf
  · exact congrArg (delivery.event :: ·) hs.claimed
  · exact List.nodup_cons.mpr ⟨hfr, hs.nodup⟩
  · refine List.nodup_cons.mpr ⟨fun hmem => ?_, hs.keys⟩
    obtain ⟨⟨event, key⟩, hp, rfl⟩ := List.mem_map.mp hmem
    obtain ⟨_, _, _, _, _, _, _, hm, _⟩ := hs.messages event key hp
    exact hnew (mem_of_lookup hm)
  · intro event key hp
    rcases List.mem_cons.mp hp with heq | hold
    · obtain ⟨rfl, rfl⟩ := Prod.mk.inj heq
      exact ⟨delivery.notice, conversation, text, message, hr.notice, hco, htext,
        hi, hc⟩
    · exact (hs.messages event key hold).grown hg

theorem turn_sound (hs : Sound isAlpha visited s) (hv : visited s)
    (h : Turn isAlpha s e t) : Sound isAlpha visited t := by
  have hg := turn_grown h
  cases h with
  | threads hk => exact sound_kept 0 hs hg rfl rfl fun _ _ => .inl
  | summaries => exact sound_kept 0 hs hg rfl rfl fun _ _ => .inl
  | published hnew => exact sound_kept 0 hs hg rfl rfl fun _ _ => .inl
  | relayed hnew hev => exact sound_kept 0 hs hg rfl rfl fun _ _ => .inl
  | deadLettered => exact sound_kept 0 hs hg rfl rfl fun _ _ => .inl
  | delivered hen hn =>
    rename_i id entry event notice
    have he : Entering isAlpha visited s id ⟨entry, event, notice, .received⟩ :=
      ⟨⟨hn, hen, fun _ h => (by cases h), fun _ h => (by cases h),
        fun _ h => (by cases h), fun h => (by cases h)⟩, fun h => (by cases h)⟩
    exact sound_kept _ hs hg rfl rfl
      (forall_insert (.inr ⟨rfl, he⟩) fun _ _ => .inl)
  | moved hd hm =>
    exact sound_kept _ hs hg rfl rfl
      (forall_insert (.inr ⟨rfl, moves_entering hs hv hd hm⟩)
        fun _ _ => .inl)
  | spared hd hsp =>
    have hr := ready_answered (hs.deliveries _ _ hd)
    exact sound_kept _ hs hg rfl rfl
      (forall_insert (.inr ⟨rfl, entering_free hr rfl⟩) fun _ _ => .inl)
  | committed hd hp hnew ha haf =>
    exact sound_committed hs hd hp hnew ha haf hg
  | dropped =>
    rename_i id
    exact sound_kept id hs hg rfl rfl
      fun _ _ h => .inl (lookup_erase_iff.mp h).2
  | acked hd hp =>
    rename_i id delivery
    exact sound_kept id hs hg rfl rfl
      fun _ _ h => .inl (lookup_erase_iff.mp h).2

theorem taken_of_refused (hr : Ready isAlpha visited s delivery)
    (hp : delivery.phase = .inserting message) (h : s.accepts message = false) :
    s.threads.taken message = true := by
  obtain ⟨hmem, -⟩ := hr.inserting message hp
  rw [← AList.lookup_isSome] at hmem
  simpa [State.accepts, hmem] using h

theorem spared_settled (hs : Sound isAlpha visited s) (hv : visited s)
    (hun : Undisturbed s e) (hde : s.deliveries.lookup id = some delivery)
    (h : Spared s e id delivery) : Settled visited s delivery.event delivery.notice := by
  intro conversation hc
  have hr := hs.deliveries id delivery hde
  cases h with
  | nowhere hn =>
    rw [hc] at hn
    cases hn
  | gone hcontent hg =>
    exact .inr ⟨s, hv, ⟨id, delivery, hde, rfl⟩, .inl ⟨_, hcontent, hg⟩⟩
  | duplicate hcl =>
    rw [← hs.claimed, List.mem_map] at hcl
    obtain ⟨⟨event, key⟩, hp, rfl⟩ := hcl
    exact .inl ⟨key, hp⟩
  | declined hph ho hre =>
    obtain rfl := Option.mem_unique ho hc
    obtain ⟨u, fileName, hu, hco⟩ := hr.reading _ hph
    rcases execute_eq _ _ _ (compose_not_blank hco) with
      ⟨_, -, hd⟩ | ⟨message, hm, -⟩
    · exact .inr ⟨s, hv, ⟨id, delivery, hde, rfl⟩, .inr hd⟩
    · rw [hre] at hm
      cases hm
  | refused he hph hrf =>
    have ht := taken_of_refused hr hph hrf
    subst he
    simp [Undisturbed, undisturbed, hde, hph, Phase.loses, ht] at hun
  | failed he hph =>
    subst he
    simp [Undisturbed, undisturbed, hde, hph] at hun

theorem honest_kept (hh : Honest visited s) (hg : Grown s t)
    (ha : ∀ j other, t.deliveries.lookup j = some other → other.phase = .answered →
      s.deliveries.lookup j = some other ∨ Settled visited t other.event other.notice)
    (hac : ∀ entry ∈ t.acked, entry ∈ s.acked ∨ ∃ event notice,
      t.entries.lookup entry = some event ∧ t.outbox.lookup event = some notice ∧
        Settled visited t event notice) : Honest visited t where
  answered := by
    intro j other ho hp
    rcases ha j other ho hp with hold | hs
    · exact (hh.answered j other hold hp).grown hg
    · exact hs
  acked := by
    intro entry he
    rcases hac entry he with hold | hnew
    · obtain ⟨event, notice, hl, hn, hs⟩ := hh.acked entry hold
      exact ⟨event, notice, hg.entries _ _ hl, hg.outbox _ _ hn,
        hs.grown hg⟩
    · exact hnew

/-- An undisturbed delivery is excused or leaves its message. -/
theorem turn_honest (hs : Sound isAlpha visited s) (hh : Honest visited s) (hv : visited s)
    (hu : Undisturbed s e) (h : Turn isAlpha s e t) : Honest visited t := by
  have hg := turn_grown h
  cases h with
  | threads hk => exact honest_kept hh hg (fun _ _ h _ => .inl h) fun _ => .inl
  | summaries => exact honest_kept hh hg (fun _ _ h _ => .inl h) fun _ => .inl
  | published hnew => exact honest_kept hh hg (fun _ _ h _ => .inl h) fun _ => .inl
  | relayed hnew hev => exact honest_kept hh hg (fun _ _ h _ => .inl h) fun _ => .inl
  | deadLettered => exact honest_kept hh hg (fun _ _ h _ => .inl h) fun _ => .inl
  | delivered he hn =>
    exact honest_kept hh hg
      (forall_insert (fun h => by cases h) fun _ _ h _ => .inl h) fun _ => .inl
  | moved hd hm =>
    refine honest_kept hh hg
      (forall_insert (fun hp => ?_) fun _ _ h _ => .inl h) fun _ => .inl
    simp only at hp
    subst hp
    cases hm
  | spared hd hsp =>
    have hse := spared_settled hs hv hu hd hsp
    exact honest_kept hh hg
      (forall_insert (fun _ => .inr (hse.grown hg)) fun _ _ h _ => .inl h)
      fun _ => .inl
  | committed hd hp hnew hac ha =>
    rename_i id newId delivery message deliveries
    refine honest_kept hh hg ?_ fun _ => .inl
    rcases ha with rfl | rfl
    · refine forall_insert (fun _ => .inr fun conversation _ => ?_) fun _ _ h _ => .inl h
      exact .inl ⟨newId, List.mem_cons_self⟩
    · exact fun _ _ h _ => .inl (lookup_erase_iff.mp h).2
  | dropped =>
    exact honest_kept hh hg (fun _ _ h _ => .inl (lookup_erase_iff.mp h).2)
      fun _ => .inl
  | acked hd hp =>
    refine honest_kept hh hg (fun _ _ h _ => .inl (lookup_erase_iff.mp h).2) ?_
    intro entry he
    rcases List.mem_cons.mp he with rfl | hold
    · have hr := hs.deliveries _ _ hd
      exact .inr ⟨_, _, hr.entry, hr.notice,
        (hh.answered _ _ hd hp).grown hg⟩
    · exact .inl hold

end Invariant

section Runs

variable {lower : Text → Text} {isAlpha : CodePoint → Bool} {s : State} {events : List Event}

theorem run_sound (hrun : run (step lower isAlpha) init events = some s) :
    Sound isAlpha (Visits (step lower isAlpha) init events) s := by
  have hg : Guarded (step lower isAlpha) (fun _ _ => True) init events :=
    guarded_of_forall fun _ _ _ => trivial
  refine run_invariant_of_visits ?_ hg hrun init_sound
  intro v e t hv _ hs _ hst
  exact turn_sound hs hv (step_turn hst)

theorem run_honest (hg : Guarded (step lower isAlpha) Undisturbed init events)
    (hrun : run (step lower isAlpha) init events = some s) :
    Honest (Visits (step lower isAlpha) init events) s := by
  have hk : ∀ v e t, Visits (step lower isAlpha) init events v →
      Visits (step lower isAlpha) init events t →
      Sound isAlpha (Visits (step lower isAlpha) init events) v ∧
        Honest (Visits (step lower isAlpha) init events) v →
      Undisturbed v e → step lower isAlpha v e = some t →
      Sound isAlpha (Visits (step lower isAlpha) init events) t ∧
        Honest (Visits (step lower isAlpha) init events) t := by
    intro v e t hvi _ hv hu hs
    have ht := step_turn hs
    exact ⟨turn_sound hv.1 hvi ht, turn_honest hv.1 hv.2 hvi hu ht⟩
  exact (run_invariant_of_visits hk hg hrun ⟨init_sound, init_honest⟩).2

theorem countP_eq_count {event : ℕ} (delivered : List (ℕ × ℕ)) :
    delivered.countP (fun pair => pair.1 = event) = (delivered.map Prod.fst).count event := by
  induction delivered with
  | nil => rfl
  | cons pair rest ih =>
    rw [List.countP_cons, List.map_cons, List.count_cons, ih]
    simp [beq_iff_eq]

/-- In every run each event appends at most one message, an assistant message of its own that
carries the text composed for it to its conversation; and where the database does not fail inside
the transaction of a delivery and no append loses the race for its number, an event whose entry is
acknowledged has appended one, or there was no summary or no live thread while it was being
delivered. -/
theorem summaries_are_delivered (hrun : run (step lower isAlpha) init events = some s) :
    (∀ event, s.delivered.countP (fun pair => pair.1 = event) ≤ 1) ∧
      (s.delivered.map Prod.snd).Nodup ∧
      (∀ event key, (event, key) ∈ s.delivered →
        Appended isAlpha (Visits (step lower isAlpha) init events) s event key) ∧
      (Guarded (step lower isAlpha) Undisturbed init events → ∀ entry ∈ s.acked,
        ∃ event notice, s.entries.lookup entry = some event ∧
          s.outbox.lookup event = some notice ∧
          ∀ conversation, notice.conversationId = some conversation →
            s.delivered.countP (fun pair => pair.1 = event) = 1 ∨
              Excused (Visits (step lower isAlpha) init events) event notice conversation) := by
  have hs := run_sound hrun
  have hco : ∀ event, s.delivered.countP (fun pair => pair.1 = event) ≤ 1 := by
    intro event
    rw [countP_eq_count, hs.claimed]
    exact List.nodup_iff_count_le_one.mp hs.nodup event
  refine ⟨hco, hs.keys, hs.messages, fun hg entry he => ?_⟩
  obtain ⟨event, notice, hl, hn, hse⟩ :=
    (run_honest hg hrun).acked entry he
  refine ⟨event, notice, hl, hn, fun conversation hc => ?_⟩
  rcases hse conversation hc with ⟨key, hkey⟩ | hexcused
  · have hpos : 0 < s.delivered.countP (fun pair => pair.1 = event) :=
      List.countP_pos_iff.mpr ⟨_, hkey, by simp⟩
    have hle := hco event
    exact .inl (by omega)
  · exact .inr hexcused

end Runs

private def asked : Event :=
  .thread (.start 1 ⟨none, ofString "rag", .agent, none, some 7⟩ 100)

private def failure : Notice := ⟨some 1, .failed (ofString "the summary build produced no text")⟩

private def lost : List Event :=
  [asked, .publish 5 failure, .relay 0 5, .deliver 9 0, .next 9 0 0 none, .databaseError 9, .ack 9]

/-- A database error in the claim is answered like a thread that is gone: the entry is
acknowledged, and the live thread never hears that its summary failed. -/
theorem unclaimed_notice_is_acked :
    ∃ s, run (step id fun _ => true) init lost = some s ∧ 0 ∈ s.acked ∧ s.dead = [] ∧
      s.entries.lookup 0 = some 5 ∧ s.delivered = [] ∧
      ¬ Excused (Visits (step id fun _ => true) init lost) 5 failure 1 := by
  obtain ⟨s, hrun, ht⟩ := exists_run_of_any
    (p := fun s : State => 0 ∈ s.acked && s.dead = [] && s.entries.lookup 0 = some 5 &&
      s.delivered = [])
    (show (run (step id fun _ => true) init lost).any _ = true by decide +kernel)
  simp only [Bool.and_eq_true, decide_eq_true_eq] at ht
  obtain ⟨⟨⟨ha, hde⟩, he⟩, hd⟩ := ht
  refine ⟨s, hrun, ha, hde, he, hd, ?_⟩
  have hl : ∀ k ≤ lost.length, (run (step id fun _ => true) init (lost.take k)).all
      (fun u => u.deliveries.keys = [] ||
        (u.threads.conversations.lookup 1).any (·.value.isLive)) = true := by
    decide +kernel
  rintro ⟨u, hv, ⟨id, delivery, hdl, -⟩, ⟨key, hb, -⟩ | hde⟩
  · cases hb
  · obtain ⟨k, hk, hta⟩ := exists_take_of_visits hv
    have ht := hl k hk
    have hmem := AList.mem_keys.mp (mem_of_lookup hdl)
    have hke : u.deliveries.keys ≠ [] := List.ne_nil_of_mem hmem
    simp only [hta, Option.all_some, hke, decide_false, Bool.false_or,
      Option.any_eq_true] at ht
    obtain ⟨row, hrow, hl⟩ := ht
    rw [hde row hrow] at hl
    cases hl

private def overviewKey : SummaryKey := ⟨"d", .overview, .auto⟩

private def overview : Summary := ⟨.auto, ofString "In short.", false, by decide +kernel⟩

private def redelivered : List Event :=
  [asked, .store overviewKey overview, .publish 5 ⟨some 1, .built overviewKey⟩, .relay 0 5,
    .relay 1 5, .deliver 9 0, .deliver 8 0, .next 9 0 0 (some (ofString "budget.pdf")), .crash 9,
    .next 8 0 0 (some (ofString "budget.pdf")), .next 8 0 0 none, .next 8 0 101 none,
    .deliver 7 1, .next 7 0 0 none, .next 8 77 102 none, .ack 8, .next 7 0 0 none, .ack 7]

/-- An event published twice and delivered three times, once to a worker that crashes, appends one
message. -/
theorem redelivered_summary_is_appended_once :
    ∃ s, run (step id fun _ => true) init redelivered = some s ∧
      Guarded (step id fun _ => true) Undisturbed init redelivered ∧ s.acked = [1, 0] ∧
      s.delivered = [(5, 77)] ∧
      ∀ entry ∈ s.acked, ∃ event notice, s.entries.lookup entry = some event ∧
        s.outbox.lookup event = some notice ∧
        ∀ conversation, notice.conversationId = some conversation →
          s.delivered.countP (fun pair => pair.1 = event) = 1 ∨
            Excused (Visits (step id fun _ => true) init redelivered) event notice
              conversation := by
  obtain ⟨s, hrun, ht⟩ := exists_run_of_any
    (p := fun s : State => s.acked = [1, 0] && s.delivered = [(5, 77)])
    (show (run (step id fun _ => true) init redelivered).any _ = true by decide +kernel)
  simp only [Bool.and_eq_true, decide_eq_true_eq] at ht
  obtain ⟨ha, hd⟩ := ht
  have hg : Guarded (step id fun _ => true) Undisturbed init redelivered := by
    decide +kernel
  obtain ⟨-, -, -, hall⟩ := summaries_are_delivered hrun
  exact ⟨s, hrun, hg, ha, hd, hall hg⟩

end Aizzak.SummaryDeliveryRuns
