import Aizzak.Transcripts

/-!
What a transcript keeps in every run, and what it keeps when no thread is deleted under a
message that is ready to be inserted.
-/
namespace Aizzak.TranscriptRuns

open EventRuns KeyedTables VersionedRows PyText Conversations Transcripts

/-- The numbers of every conversation are those from one to its count, each given once. -/
structure Numbered (messages : Messages) : Prop where
  positive : ∀ key conversation seq, place messages key = some (conversation, seq) → 1 ≤ seq
  given : ∀ conversation seq, 1 ≤ seq → seq ≤ messageCount messages conversation →
    ∃ key, place messages key = some (conversation, seq)
  unique : ∀ key other p, place messages key = some p → place messages other = some p → key = other

section Numbers

variable {messages after : Messages} {key : ℕ} {message : Message}

theorem numbered_empty : Numbered ∅ where
  positive := fun _ _ _ h => by cases h
  given := fun _ seq hpos hle => by
    have hz : seq ≤ 0 := hle
    omega
  unique := fun _ _ _ h => by cases h

theorem messageCount_congr (h : place after = place messages) (conversation : ℕ) :
    messageCount after conversation = messageCount messages conversation := by
  apply le_antisymm
  · exact messageCount_le conversation fun key p hp => by rw [← hp, h]
  · exact messageCount_le conversation fun key p hp => by rw [← hp, h]

theorem Numbered.congr (hs : Numbered messages) (h : place after = place messages) :
    Numbered after where
  positive := by
    rw [h]
    exact hs.positive
  given := by
    intro conversation seq hpos hle
    rw [messageCount_congr h] at hle
    rw [h]
    exact hs.given conversation seq hpos hle
  unique := by
    rw [h]
    exact hs.unique

theorem place_marked {deletedAt : Option ℕ} (h : messages.lookup key = some message) :
    place (messages.insert key { message with deletedAt := deletedAt }) = place messages := by
  funext other
  by_cases ho : other = key
  · subst ho
    rw [place_insert_self, place_of_lookup h]
  · exact place_insert_ne ho

theorem place_eq_none_of_notMem (h : key ∉ messages) : place messages key = none := by
  rw [place, AList.lookup_eq_none.mpr h]
  rfl

theorem place_inserted {other : ℕ} {p : ℕ × ℕ} (hkey : key ∉ messages)
    (h : place messages other = some p) : place (messages.insert key message) other = some p := by
  have hne : other ≠ key := by
    rintro rfl
    rw [place_eq_none_of_notMem hkey] at h
    cases h
  rw [place_insert_ne hne, h]

theorem messageCount_next {conversation : ℕ} (hkey : key ∉ messages)
    (hseq : message.seq = messageCount messages message.conversationId + 1) :
    messageCount (messages.insert key message) conversation =
      if message.conversationId = conversation then message.seq
      else messageCount messages conversation := by
  rw [messageCount_insert_of_notMem hkey]
  split_ifs with hc
  · subst hc
    omega
  · omega

/-- The next number is the one given. -/
theorem Numbered.inserted (hs : Numbered messages) (hkey : key ∉ messages)
    (hseq : message.seq = messageCount messages message.conversationId + 1) :
    Numbered (messages.insert key message) := by
  have hpl : ∀ other p, place (messages.insert key message) other = some p →
      other = key ∧ p = (message.conversationId, message.seq) ∨
        other ≠ key ∧ place messages other = some p := by
    intro other p hp
    by_cases ho : other = key
    · subst ho
      rw [place_insert_self] at hp
      exact .inl ⟨rfl, (Option.some.inj hp).symm⟩
    · rw [place_insert_ne ho] at hp
      exact .inr ⟨ho, hp⟩
  have hnew : ∀ other, place messages other ≠ some (message.conversationId, message.seq) := by
    intro other ho
    have hle := le_messageCount ho
    omega
  refine ⟨?_, ?_, ?_⟩
  · intro other conversation seq hp
    rcases hpl other _ hp with ⟨-, heq⟩ | ⟨-, hold⟩
    · obtain ⟨-, rfl⟩ := Prod.mk.inj heq
      omega
    · exact hs.positive other conversation seq hold
  · intro conversation seq hpos hle
    rw [messageCount_next hkey hseq] at hle
    by_cases hco : seq ≤ messageCount messages conversation
    · obtain ⟨other, ho⟩ := hs.given conversation seq hpos hco
      exact ⟨other, place_inserted hkey ho⟩
    · split_ifs at hle with hc
      · subst hc
        obtain rfl : seq = message.seq := by omega
        exact ⟨key, place_insert_self⟩
      · omega
  · intro one other p hone ho
    rcases hpl one p hone with ⟨rfl, rfl⟩ | ⟨-, hold⟩
    · rcases hpl other _ ho with ⟨rfl, -⟩ | ⟨-, hold⟩
      · rfl
      · exact absurd hold (hnew other)
    · rcases hpl other p ho with ⟨rfl, rfl⟩ | ⟨-, hold'⟩
      · exact absurd hold (hnew one)
      · exact hs.unique one other p hold hold'

end Numbers

/-- What a request rests on: the number it would give is the next one or an earlier one, and the
row it would replace is still there in some form. -/
structure Sound (s : State) (task : Task) : Prop where
  inserting : ∀ message, task.phase = .inserting message → 1 ≤ message.seq ∧
    message.seq ≤ messageCount s.messages message.conversationId + 1
  saving : ∀ read after, task.phase = .saving read after →
    Held Moved s.conversations task.conversation read ∧ Moved read.value after

structure Transcribed (s : State) : Prop where
  numbered : Numbered s.messages
  tasks : ∀ id task, s.tasks.lookup id = some task → Sound s task

section Invariant

variable {lower : Text → Text} {s t : State} {e : Event}

theorem init_transcribed : Transcribed init where
  numbered := numbered_empty
  tasks := fun _ _ h => by cases h

variable {message : Message}

theorem not_taken {other : Message} {key : ℕ} (hf : s.taken message = false)
    (ho : s.messages.lookup key = some other)
    (hc : other.conversationId = message.conversationId) :
    other.seq ≠ message.seq := by
  intro hseq
  have ht : s.taken message = true :=
    anyRow_eq_true_iff.mpr ⟨key, other, ho, by simp [hc, hseq]⟩
  rw [hf] at ht
  cases ht

theorem inserted_seq (hs : Numbered s.messages) (hpos : 1 ≤ message.seq)
    (hle : message.seq ≤ messageCount s.messages message.conversationId + 1)
    (hf : s.taken message = false) :
    message.seq = messageCount s.messages message.conversationId + 1 := by
  by_contra hne
  obtain ⟨key, hkey⟩ := hs.given message.conversationId message.seq hpos (by omega)
  obtain ⟨other, ho, hc, hseq⟩ := place_eq_some hkey
  exact not_taken hf ho hc hseq

theorem messages_numbered (hs : Transcribed s) (h : Messaged s t.messages) :
    Numbered t.messages ∧
      ∀ key p, place s.messages key = some p → place t.messages key = some p := by
  generalize t.messages = messages at h
  cases h with
  | same => exact ⟨hs.numbered, fun _ _ => id⟩
  | inserted ht hph hkey hrow hf =>
    obtain ⟨hpos, hle⟩ := (hs.tasks _ _ ht).inserting _ hph
    exact ⟨hs.numbered.inserted hkey (inserted_seq hs.numbered hpos hle hf),
      fun _ _ => place_inserted hkey⟩
  | marked hm =>
    refine ⟨hs.numbered.congr (place_marked hm), fun _ _ hp => ?_⟩
    rw [place_marked hm, hp]

theorem saved_read {conversation : ℕ} {read : Versioned Conversation} {after : Conversation}
    {changed : Threads} (hh : Held Moved s.conversations conversation read)
    (h : s.saveConversation conversation read after = some changed) :
    s.conversations.lookup conversation = some read ∧
      changed = s.conversations.insert conversation
        ⟨read.value.rewrite after, read.version + 1⟩ := by
  obtain ⟨row, hrow, hv, rfl⟩ := saveConversation_eq_some h
  obtain ⟨found, hf, hl⟩ := hh
  obtain rfl := Option.mem_unique hrow hf
  obtain rfl := hl.eq_of_version hv
  exact ⟨hrow, rfl⟩

theorem threads_grow (hs : Transcribed s) (h : Threaded s e t.conversations) :
    Grows Moved s.conversations t.conversations := by
  generalize t.conversations = conversations at h
  cases h with
  | same => exact .refl _
  | started he hf hsp => exact .added hf
  | continued hrow => exact .saved hrow (.refl _)
  | saved he ht hp hsa =>
    obtain ⟨hh, hm⟩ := (hs.tasks _ _ ht).saving _ _ hp
    obtain ⟨hr, rfl⟩ := saved_read hh hsa
    exact .saved hr (moved_rewrite hm)

/-- Every request keeps resting on true reads. -/
theorem task_sound {id : ℕ} {task : Task} (hs : Transcribed s) (h : Change s e t)
    (ht : t.tasks.lookup id = some task) : Sound t task := by
  have hg := threads_grow hs h.threads
  obtain ⟨-, hpl⟩ := messages_numbered hs h.messages
  cases h.tasks id task ht with
  | same hold =>
    have hso := hs.tasks id task hold
    refine ⟨fun message hp => ?_, fun read after hp => ?_⟩
    · obtain ⟨hpos, hle⟩ := hso.inserting message hp
      have hmo := messageCount_le message.conversationId hpl
      omega
    · obtain ⟨hh, hm⟩ := hso.saving read after hp
      exact ⟨hh.grows hg, hm⟩
  | requested hp =>
    refine ⟨fun message ho => ?_, fun read after ho => ?_⟩
    · rw [hp] at ho
      cases ho
    · rw [hp] at ho
      cases ho
  | begun hsa hr hb =>
    refine ⟨fun message hp => ?_, fun read after hp => ?_⟩
    · rw [hp] at hb
      cases hb with
      | appends hl hc hseq =>
        have hmo := messageCount_le task.conversation hpl
        rw [hc]
        omega
    · rw [hp] at hb
      cases hb with
      | saves hm => exact ⟨(held_of_lookup hr).grows hg, hm⟩
  | marking hp =>
    refine ⟨fun message ho => ?_, fun read after ho => ?_⟩
    · rw [hp] at ho
      cases ho
    · rw [hp] at ho
      cases ho

theorem step_transcribed (hs : Transcribed s) (h : step lower s e = some t) : Transcribed t where
  numbered := (messages_numbered hs (step_change h).messages).1
  tasks := fun _ _ => task_sound hs (step_change h)

variable {events : List Event}

theorem run_transcribed (hrun : run (step lower) init events = some s) :
    Transcribed s :=
  run_invariant_of_step (fun _ _ _ hs hst => step_transcribed hs hst) hrun init_transcribed

/-- No message of a transcript goes away or changes its place. -/
theorem run_keeps_places (hs : Transcribed s) (hrun : run (step lower) s events = some t) (key : ℕ)
    (p : ℕ × ℕ) (hp : place s.messages key = some p) : place t.messages key = some p := by
  have hk : ∀ u e v, Transcribed u ∧ place u.messages key = some p →
      step lower u e = some v → Transcribed v ∧ place v.messages key = some p := by
    intro u e v hu hst
    have hpl := (messages_numbered hu.1 (step_change hst).messages).2
    exact ⟨step_transcribed hu.1 hst, hpl key p hu.2⟩
  exact (run_invariant_of_step hk hrun ⟨hs, hp⟩).2

/-- Whoever has the next message of a conversation ready finds it live. -/
def Continued (s : State) : Prop :=
  ∀ id task message, s.tasks.lookup id = some task → task.phase = .inserting message →
    message.seq = messageCount s.messages message.conversationId + 1 →
      ∃ row, s.conversations.lookup message.conversationId = some row ∧ row.value.isLive = true

theorem awaits_of_inserting {id : ℕ} {task : Task} (ht : s.tasks.lookup id = some task)
    (hp : task.phase = .inserting message)
    (hseq : message.seq = messageCount s.messages message.conversationId + 1) :
    s.awaits message.conversationId = true :=
  anyRow_eq_true_iff.mpr ⟨id, task, ht, by simp [Phase.continues, hp, hseq]⟩

theorem live_after {conversation : ℕ} {row : Versioned Conversation} (hs : Transcribed s)
    (hse : Settled s e) (h : Threaded s e t.conversations)
    (hrow : s.conversations.lookup conversation = some row) (hl : row.value.isLive = true)
    (ha : s.awaits conversation = true) :
    ∃ after, t.conversations.lookup conversation = some after ∧ after.value.isLive = true := by
  generalize t.conversations = conversations at h
  cases h with
  | same => exact ⟨row, hrow, hl⟩
  | started he hf hsp =>
    rename_i other request now value
    have hne : conversation ≠ other := by
      rintro rfl
      exact hf (mem_of_lookup hrow)
    exact ⟨row, (AList.lookup_insert_ne hne).trans hrow, hl⟩
  | continued ho =>
    rename_i other found
    rcases same_or_ne ho hrow with ⟨rfl, rfl⟩ | hne
    · exact ⟨_, AList.lookup_insert _, hl⟩
    · exact ⟨row, (AList.lookup_insert_ne hne).trans hrow, hl⟩
  | saved he ht hp hsa =>
    rename_i id newId now routes task read after
    obtain ⟨hh, -⟩ := (hs.tasks _ _ ht).saving _ _ hp
    obtain ⟨hr, rfl⟩ := saved_read hh hsa
    by_cases hne : conversation = task.conversation
    · subst hne
      obtain rfl := Option.mem_unique hr hrow
      refine ⟨_, AList.lookup_insert _, ?_⟩
      by_contra hde
      have hd : s.deletes task = true := by
        have haf : after.isLive = false := by
          rw [Bool.not_eq_true] at hde
          exact hde
        simp [State.deletes, hp, hl, haf, hr]
      subst he
      rw [hse task ht hd] at ha
      cases ha
    · exact ⟨row, (AList.lookup_insert_ne hne).trans hrow, hl⟩

/-- While no thread is deleted under a message, whoever has the next one ready finds it live. -/
theorem step_continued (hs : Transcribed s) (hc : Continued s) (hse : Settled s e)
    (h : step lower s e = some t) : Continued t := by
  have hch := step_change h
  obtain ⟨-, hpl⟩ := messages_numbered hs hch.messages
  intro id task message ht hp hseq
  cases hch.tasks id task ht with
  | same hold =>
    have hm := messageCount_le message.conversationId hpl
    obtain ⟨-, hle⟩ := (hs.tasks id task hold).inserting message hp
    have hn : message.seq = messageCount s.messages message.conversationId + 1 := by omega
    obtain ⟨row, hrow, hl⟩ := hc id task message hold hp hn
    exact live_after hs hse hch.threads hrow hl
      (awaits_of_inserting hold hp hn)
  | requested ho =>
    rw [hp] at ho
    cases ho
  | begun hsa hr hb =>
    rw [hp] at hb
    cases hb with
    | appends hl hco _ =>
      rw [hsa, hco]
      exact ⟨_, hr, hl⟩
  | marking ho =>
    rw [hp] at ho
    cases ho

theorem run_continued (hg : Guarded (step lower) Settled init events)
    (hrun : run (step lower) init events = some s) : Continued s := by
  have hk : ∀ u e v, Transcribed u ∧ Continued u → Settled u e → step lower u e = some v →
      Transcribed v ∧ Continued v := fun u e v hu hs hst =>
    ⟨step_transcribed hu.1 hst, step_continued hu.1 hu.2 hs hst⟩
  have hi : Continued init := fun _ _ _ h => by cases h
  exact (run_invariant hk hg hrun ⟨init_transcribed, hi⟩).2

/-- The message a step adds is the one some request had ready. -/
theorem appended_live {key : ℕ} (hs : Transcribed s) (hc : Continued s) (h : Messaged s t.messages)
    (hm : t.messages.lookup key = some message) (hnew : key ∉ s.messages) :
    ∃ row, s.conversations.lookup message.conversationId = some row ∧
      row.value.isLive = true := by
  generalize t.messages = messages at h hm
  cases h with
  | same => exact absurd (mem_of_lookup hm) hnew
  | inserted ht hp hkey hrow hf =>
    rcases lookup_insert_iff.mp hm with ⟨-, rfl⟩ | ⟨-, hold⟩
    · obtain ⟨hpos, hle⟩ := (hs.tasks _ _ ht).inserting _ hp
      exact hc _ _ _ ht hp (inserted_seq hs.numbered hpos hle hf)
    · exact absurd (mem_of_lookup hold) hnew
  | marked hrow =>
    rcases lookup_insert_iff.mp hm with ⟨rfl, -⟩ | ⟨-, hold⟩
    · exact absurd (mem_of_lookup hrow) hnew
    · exact absurd (mem_of_lookup hold) hnew

/-- In every run the numbers of a conversation's messages are those from one to its count, each
given once, and no message or number goes away; and where no conversation is deleted under a
message that is ready for it, every message is appended to a live one. -/
theorem transcript_is_kept {events more : List Event}
    (hrun : run (step lower) init events = some s) (hmore : run (step lower) s more = some t) :
    (∀ conversation seq, (∃ key, place s.messages key = some (conversation, seq)) ↔
        1 ≤ seq ∧ seq ≤ messageCount s.messages conversation) ∧
      (∀ key other p, place s.messages key = some p → place s.messages other = some p →
        key = other) ∧
      (∀ key p, place s.messages key = some p → place t.messages key = some p) ∧
      (∀ conversation,
        messageCount s.messages conversation ≤ messageCount t.messages conversation) ∧
      (Guarded (step lower) Settled init events → ∀ e u, step lower s e = some u →
        ∀ key message, u.messages.lookup key = some message → key ∉ s.messages →
          ∃ row, s.conversations.lookup message.conversationId = some row ∧
            row.value.isLive = true) := by
  have hs := run_transcribed hrun
  have hp := run_keeps_places hs hmore
  refine ⟨fun conversation seq => ⟨?_, ?_⟩, hs.numbered.unique, hp,
    fun conversation => messageCount_le conversation hp, ?_⟩
  · rintro ⟨key, hkey⟩
    exact ⟨hs.numbered.positive key _ _ hkey, le_messageCount hkey⟩
  · rintro ⟨hpos, hle⟩
    exact hs.numbered.given conversation seq hpos hle
  · intro hg e u hst key message hm hnew
    exact appended_live hs (run_continued hg hrun) (step_change hst).messages hm hnew

end Invariant

private def opened : Event :=
  .start 1 ⟨none, ofString "rag", .agent, none, some 7⟩ 100

private def asks (id : ℕ) (text : String) : Event :=
  .request id 1 (.append (ofString "user") (ofString text) [] none)

/-- A thread is deleted between the read and the insert of a message: the message is appended to
it all the same. -/
theorem deleted_thread_is_continued :
    ∃ s u, run (step id) init [opened, asks 1 "hi", .next 1 0 101 [], .request 2 1 .delete,
        .next 2 0 102 [], .next 2 0 103 []] = some s ∧
      step id s (.next 1 9 104 []) = some u ∧ 9 ∉ s.messages ∧
      (s.conversations.lookup 1).any (·.value.isLive) = false ∧
      (u.messages.lookup 9).any (·.conversationId = 1) = true := by
  obtain ⟨s, hrun, ht⟩ := exists_run_of_any
    (p := fun s : State => 9 ∉ s.messages && !(s.conversations.lookup 1).any (·.value.isLive) &&
      (step id s (.next 1 9 104 [])).any fun u => (u.messages.lookup 9).any (·.conversationId = 1))
    (show (run (step id) init [opened, asks 1 "hi", .next 1 0 101 [], .request 2 1 .delete,
      .next 2 0 102 [], .next 2 0 103 []]).any _ = true by decide +kernel)
  simp only [Bool.and_eq_true, decide_eq_true_eq, Bool.not_eq_true', Option.any_eq_true] at ht
  obtain ⟨⟨hnew, hd⟩, u, hs, message, hm, hc⟩ := ht
  exact ⟨s, u, hrun, hs, hnew, hd, by rw [hm]; simpa using hc⟩

private def raced : List Event :=
  [opened, asks 1 "hi", asks 2 "hello", .next 1 0 101 [], .next 2 0 102 [], .next 1 9 103 [],
    .next 2 8 104 [], asks 2 "hello", .next 2 0 105 [], .next 2 8 106 []]

/-- Two requests race for a number; the second gets its own in the end. -/
theorem two_messages_are_numbered :
    ∃ s, run (step id) init raced = some s ∧ Guarded (step id) Settled init raced ∧
      messageCount s.messages 1 = 2 ∧
      ∀ seq, (∃ key, place s.messages key = some (1, seq)) ↔ 1 ≤ seq ∧ seq ≤ 2 := by
  obtain ⟨s, hrun, ht⟩ := exists_run_of_any
    (p := fun s : State => messageCount s.messages 1 = 2)
    (show (run (step id) init raced).any _ = true by decide +kernel)
  have hc := of_decide_eq_true ht
  obtain ⟨hn, -⟩ := transcript_is_kept hrun (show run (step id) s [] = some s from rfl)
  refine ⟨s, hrun, by decide +kernel, hc, fun seq => ?_⟩
  rw [hn, hc]

end Aizzak.TranscriptRuns
