import Aizzak.SpaceDeletion

/-!
What a deleted space leaves behind: nothing, where the deletion overtook no start of a thread and
no registration of a document between its check and its insert. The files need no such condition:
a registration that has checked its space keeps the deletion waiting.
-/
namespace Aizzak.EmptiedSpaces

open EventRuns KeyedTables VersionedRows PyText StoredFiles SpaceDeletion

def Spaceless (files : Files) (file : ℕ) : Prop :=
  ∃ row, files.lookup file = some row ∧ row.value.spaceId = none

def madeFile : SpaceQuota.Phase → Option ℕ
  | .storing file | .completing file | .saving file _ _ => some file
  | _ => none

/-- What a registration rests on: the space it names is active while it holds the row of the
space, and the files the media worker completes are in no space. -/
structure Admitted (files : Files) (spaces : List ℕ) (task : SpaceQuota.Task) : Prop where
  spaceless : task.locks = false → task.request.spaceId = none
  placed : holdsRow task.phase = true → ∀ space, task.request.spaceId = some space →
    space ∈ spaces
  made : ∀ file, madeFile task.phase = some file → Spaceless files file
  saving : ∀ file read after, task.phase = .saving file read after → after.spaceId = none

def FilesFrom (spaces : List ℕ) (files after : Files) : Prop :=
  ∀ key row, after.lookup key = some row →
    (∃ old, files.lookup key = some old ∧ old.value.spaceId = row.value.spaceId) ∨
      ∀ space, row.value.spaceId = some space → space ∈ spaces

structure Uploaded (s t : SpaceQuota.State) : Prop where
  files : FilesFrom s.spaces s.files t.files
  spaceless : ∀ file, Spaceless s.files file → Spaceless t.files file
  tasks : ∀ id task, t.tasks.lookup id = some task →
    s.tasks.lookup id = some task ∨ Admitted t.files s.spaces task

section Uploads

variable {lower : Text → Text} {limits : SpaceQuota.Limits} {s t : SpaceQuota.State}
  {files after : Files} {spaces spaces' : List ℕ} {task : SpaceQuota.Task} {id key : ℕ}
  {file : File} {row : Versioned File} {version : ℕ}

theorem Admitted.mono (h : Admitted files spaces task)
    (hsp : ∀ space, task.request.spaceId = some space → holdsRow task.phase = true →
      space ∈ spaces → space ∈ spaces')
    (hf : ∀ file, Spaceless files file → Spaceless after file) :
    Admitted after spaces' task where
  spaceless := h.spaceless
  placed := fun hp space hsc => hsp space hsc hp (h.placed hp space hsc)
  made := fun file hfi => hf file (h.made file hfi)
  saving := h.saving

theorem filesFrom_refl : FilesFrom spaces files files :=
  fun _ row hrow => .inl ⟨row, hrow, rfl⟩

theorem filesFrom_written (hrow : files.lookup key = some row)
    (hsp : file.spaceId = row.value.spaceId) :
    FilesFrom spaces files (files.insert key ⟨file, version⟩) := by
  intro other found hf
  rcases lookup_insert_iff.mp hf with ⟨rfl, rfl⟩ | ⟨-, hold⟩
  · exact .inl ⟨row, hrow, hsp.symm⟩
  · exact .inl ⟨found, hold, rfl⟩

theorem filesFrom_added (hsp : ∀ space, file.spaceId = some space → space ∈ spaces) :
    FilesFrom spaces files (files.insert key ⟨file, version⟩) := by
  intro other found hf
  rcases lookup_insert_iff.mp hf with ⟨rfl, rfl⟩ | ⟨-, hold⟩
  · exact .inr hsp
  · exact .inl ⟨found, hold, rfl⟩

variable {other : ℕ}

theorem spaceless_insert (h : Spaceless files other) (hkey : other = key → file.spaceId = none) :
    Spaceless (files.insert key ⟨file, version⟩) other := by
  by_cases ho : other = key
  · subst ho
    exact ⟨_, AList.lookup_insert _, hkey rfl⟩
  · obtain ⟨row, hrow, hsp⟩ := h
    exact ⟨row, (AList.lookup_insert_ne ho).trans hrow, hsp⟩

theorem spaceless_written (h : Spaceless files other) (hrow : files.lookup key = some row)
    (hsp : file.spaceId = row.value.spaceId) :
    Spaceless (files.insert key ⟨file, version⟩) other := by
  refine spaceless_insert h fun ho => ?_
  subst ho
  obtain ⟨found, hf, hn⟩ := h
  obtain rfl := Option.mem_unique hrow hf
  rw [hsp, hn]

theorem notMem_of_spaceless (h : Spaceless files other) (hkey : key ∉ files) :
    other ≠ key := by
  rintro rfl
  obtain ⟨row, hrow, -⟩ := h
  exact hkey (mem_of_lookup hrow)

theorem uploaded_kept (hf : t.files = s.files)
    (ht : ∀ id task, t.tasks.lookup id = some task →
      s.tasks.lookup id = some task ∨ Admitted s.files s.spaces task) : Uploaded s t where
  files := by
    rw [hf]
    exact filesFrom_refl
  spaceless := by
    rw [hf]
    exact fun _ h => h
  tasks := by
    rw [hf]
    exact ht

theorem uploaded_finish : Uploaded s (s.finish id) :=
  uploaded_kept rfl fun _ _ hu => .inl (lookup_erase_iff.mp hu).2

theorem uploaded_proceed {result : Except SpaceQuota.Refusal SpaceQuota.Phase}
    (h : ∀ phase, result = .ok phase →
      Admitted s.files s.spaces { task with phase := phase }) :
    Uploaded s (s.proceed id task result) := by
  cases result with
  | error refusal => exact uploaded_finish
  | ok phase =>
    exact uploaded_kept rfl (forall_insert (.inr (h phase rfl)) fun _ _ => .inl)

theorem measure_space {request : SpaceQuota.Request} {phase : SpaceQuota.Phase} {space : ℕ}
    (h : SpaceQuota.measure limits s request = .ok phase) (hsp : request.spaceId = some space) :
    space ∈ s.spaces := by
  unfold SpaceQuota.measure at h
  rw [hsp] at h
  simp only at h
  split_ifs at h with ha
  exact ha

theorem admitted_plain {phase : SpaceQuota.Phase} (h : Admitted files spaces task)
    (hm : madeFile phase = none)
    (hp : holdsRow phase = true → ∀ space, task.request.spaceId = some space →
      space ∈ spaces) : Admitted files spaces { task with phase := phase } where
  spaceless := h.spaceless
  placed := hp
  made := fun file hf => by
    have hn : some file = none := hf.symm.trans hm
    cases hn
  saving := by
    rintro file read after rfl
    cases hm

theorem uploaded_insertFile (hs : Admitted s.files s.spaces task)
    (hsp : file.spaceId = task.request.spaceId) (hp : holdsRow task.phase = true)
    (hkey : key ∉ s.files) : Uploaded s (SpaceQuota.insertFile s id task key file) := by
  have hf : FilesFrom s.spaces s.files (s.files.insert key ⟨file, 1⟩) := by
    refine filesFrom_added fun space hfi => ?_
    rw [hsp] at hfi
    exact hs.placed hp space hfi
  have hk : ∀ other, Spaceless s.files other →
      Spaceless (s.files.insert key ⟨file, 1⟩) other := by
    intro other ho
    exact spaceless_insert ho fun heq => absurd heq (notMem_of_spaceless ho hkey)
  unfold SpaceQuota.insertFile
  split_ifs with hl
  · exact ⟨hf, hk, fun _ _ hu => .inl (lookup_erase_iff.mp hu).2⟩
  · refine ⟨hf, hk, forall_insert (.inr ?_) fun _ _ => .inl⟩
    have hn : file.spaceId = none := by
      rw [hsp, hs.spaceless (by simpa using hl)]
    refine ⟨hs.spaceless, fun h => ?_, fun other ho => ?_, fun _ _ _ h => ?_⟩
    · cases h
    · cases ho
      exact ⟨_, AList.lookup_insert _, hn⟩
    · cases h

/-- A registration files into an active space or into none. -/
theorem uploaded_advance {newId now uploadId : ℕ} (hs : Admitted s.files s.spaces task)
    (h : SpaceQuota.advance lower limits s id task newId now uploadId = some t) :
    Uploaded s t := by
  unfold SpaceQuota.advance at h
  split at h
  · split_ifs at h
    cases h
    refine uploaded_kept rfl (forall_insert (.inr ?_) fun _ _ => .inl)
    exact admitted_plain hs rfl fun hp => by cases hp
  · cases h
    refine uploaded_proceed fun phase hp => ?_
    obtain rfl := SpaceQuota.measure_eq_ok hp
    exact admitted_plain hs rfl fun _ space hsp => measure_space hp hsp
  · rename_i hr
    cases h
    refine uploaded_proceed fun phase hp => ?_
    obtain ⟨name, -, rfl, -⟩ := SpaceQuota.countFiles_eq_ok hp
    exact admitted_plain hs rfl fun _ => hs.placed (by rw [hr]; rfl)
  · rename_i name hco
    split_ifs at h with hkey
    cases h
    exact uploaded_insertFile hs rfl (by rw [hco]; rfl) hkey
  · rename_i other hst
    cases h
    refine uploaded_proceed fun phase hp => ?_
    cases hp
    refine ⟨hs.spaceless, (fun h => by cases h), fun found hf => ?_,
      fun _ _ _ h => by cases h⟩
    exact hs.made found (by rw [hst]; exact hf)
  · rename_i other hc
    split at h
    · cases h
      exact uploaded_finish
    · rename_i row hrow
      split at h
      · cases h
        exact uploaded_finish
      · rename_i after ha
        cases h
        have hm := hs.made other (by rw [hc]; rfl)
        refine uploaded_proceed fun phase hp => ?_
        cases hp
        refine ⟨hs.spaceless, (fun h => by cases h), fun found hf => ?_, ?_⟩
        · cases hf
          exact hm
        · intro file read new heq
          obtain ⟨-, -, rfl⟩ := SpaceQuota.Phase.saving.inj heq
          obtain ⟨found, hf, hn⟩ := hm
          obtain rfl := Option.mem_unique hrow hf
          rw [(SpaceQuota.lightens_complete ha).space, hn]
  · rename_i other read new hsa
    split at h
    · cases h
      exact uploaded_finish
    · rename_i changed hsv
      cases h
      have hn := hs.saving other read new hsa
      unfold save at hsv
      split at hsv
      · split_ifs at hsv
        cases hsv
        refine ⟨filesFrom_added fun space hsp => ?_,
          fun file hfi => spaceless_insert hfi fun _ => hn,
          fun _ _ hu => .inl (lookup_erase_iff.mp hu).2⟩
        rw [hn] at hsp
        cases hsp
      · cases hsv

/-- Every step of the uploads files into an active space or into none. -/
theorem uploaded_step {e : SpaceQuota.Event}
    (hs : ∀ id task, s.tasks.lookup id = some task → Admitted s.files s.spaces task)
    (h : SpaceQuota.step lower limits s e = some t) : Uploaded s t := by
  cases e with
  | setSpaces spaces =>
    cases h
    exact uploaded_kept rfl fun _ _ => .inl
  | register id space request =>
    simp only [SpaceQuota.step] at h
    split_ifs at h
    cases h
    refine uploaded_kept rfl (forall_insert (.inr ?_) fun _ _ => .inl)
    exact ⟨(fun h => by cases h), (fun h => by cases h), (fun _ h => by cases h),
      fun _ _ _ h => by cases h⟩
  | generate id user name contentType sizeBytes checksum =>
    simp only [SpaceQuota.step] at h
    split_ifs at h
    cases h
    refine uploaded_kept rfl (forall_insert (.inr ?_) fun _ _ => .inl)
    exact ⟨fun _ => rfl, (fun _ _ h => by cases h), (fun _ h => by cases h),
      fun _ _ _ h => by cases h⟩
  | next id newId now uploadId =>
    simp only [SpaceQuota.step] at h
    split at h
    · cases h
    · rename_i task ht
      exact uploaded_advance (hs id task ht) h
  | fails id =>
    simp only [SpaceQuota.step] at h
    split_ifs at h
    cases h
    exact uploaded_finish
  | delete file now =>
    simp only [SpaceQuota.step] at h
    split at h
    · cases h
    · rename_i row hrow
      cases h
      have hsp := (SpaceQuota.lightens_softDelete row.value now).space
      exact ⟨filesFrom_written hrow hsp, fun _ hf => spaceless_written hf hrow hsp,
        fun _ _ => .inl⟩

end Uploads

section Threads

variable {lower : Text → Text} {s t : Transcripts.State} {e : Transcripts.Event}

def Linked (s : Transcripts.State) : Prop :=
  ∀ key message, s.messages.lookup key = some message →
    ∃ row, s.conversations.lookup message.conversationId = some row

theorem threads_from (h : Transcripts.Threaded s e t.conversations) {conversation : ℕ}
    {row : Versioned Conversations.Conversation}
    (hrow : t.conversations.lookup conversation = some row) :
    (∃ old, s.conversations.lookup conversation = some old ∧
        old.value.spaceId = row.value.spaceId) ∨
      ∃ request now, e = .start conversation request now ∧
        row.value.spaceId = request.spaceId := by
  generalize t.conversations = conversations at h hrow
  cases h with
  | same => exact .inl ⟨row, hrow, rfl⟩
  | started he _ hsp =>
    rcases lookup_insert_iff.mp hrow with ⟨rfl, rfl⟩ | ⟨-, hold⟩
    · exact .inr ⟨_, _, he, hsp⟩
    · exact .inl ⟨row, hold, rfl⟩
  | continued hf =>
    rcases lookup_insert_iff.mp hrow with ⟨rfl, rfl⟩ | ⟨-, hold⟩
    · exact .inl ⟨_, hf, rfl⟩
    · exact .inl ⟨row, hold, rfl⟩
  | saved _ _ _ hsa =>
    obtain ⟨found, hf, -, rfl⟩ := Transcripts.saveConversation_eq_some hsa
    rcases lookup_insert_iff.mp hrow with ⟨rfl, rfl⟩ | ⟨-, hold⟩
    · exact .inl ⟨found, hf, rfl⟩
    · exact .inl ⟨row, hold, rfl⟩

theorem lookup_insert_persists {κ α : Type} [DecidableEq κ] {table : AList fun _ : κ => α}
    {key other : κ} {a b : α} (h : table.lookup other = some b) :
    ∃ after, (table.insert key a).lookup other = some after := by
  by_cases ho : other = key
  · subst ho
    exact ⟨a, AList.lookup_insert _⟩
  · exact ⟨b, (AList.lookup_insert_ne ho).trans h⟩

theorem threads_persist (h : Transcripts.Threaded s e t.conversations) {conversation : ℕ}
    {row : Versioned Conversations.Conversation}
    (hrow : s.conversations.lookup conversation = some row) :
    ∃ after, t.conversations.lookup conversation = some after := by
  generalize t.conversations = conversations at h
  cases h with
  | same => exact ⟨row, hrow⟩
  | started => exact lookup_insert_persists hrow
  | continued => exact lookup_insert_persists hrow
  | saved _ _ _ hsa =>
    obtain ⟨found, hf, -, rfl⟩ := Transcripts.saveConversation_eq_some hsa
    exact lookup_insert_persists hrow

/-- A message never outlives its thread. -/
theorem linked_step (hs : Linked s) (h : Transcripts.step lower s e = some t) : Linked t := by
  have hc := Transcripts.step_change h
  have hp : ∀ conversation, (∃ row, s.conversations.lookup conversation = some row) →
      ∃ row, t.conversations.lookup conversation = some row := by
    rintro conversation ⟨row, hrow⟩
    exact threads_persist hc.threads hrow
  intro key message hme
  refine hp message.conversationId ?_
  have hm := hc.messages
  generalize t.messages = messages at hm hme
  cases hm with
  | same => exact hs key message hme
  | inserted _ _ _ hrow _ =>
    rcases lookup_insert_iff.mp hme with ⟨rfl, rfl⟩ | ⟨-, hold⟩
    · exact ⟨_, hrow⟩
    · exact hs key message hold
  | marked hf =>
    rcases lookup_insert_iff.mp hme with ⟨rfl, rfl⟩ | ⟨-, hold⟩
    · obtain ⟨row, hrow⟩ := hs key _ hf
      exact ⟨row, hrow⟩
    · exact hs key message hold

end Threads

section Documents

variable {s t : DocumentRegistry.State} {e : DocumentRegistry.Event}

theorem checkIndexRequest_view {fileId : String} {view : Option (Option String)}
    {spaceId : Option String} (h : DocumentRegistry.checkIndexRequest fileId view = .ok spaceId) :
    view = some spaceId := by
  unfold DocumentRegistry.checkIndexRequest at h
  split_ifs at h
  cases view with
  | none => cases h
  | some found => exact congrArg some (Except.ok.inj h)

def DocumentsFrom (s : DocumentRegistry.State) (e : DocumentRegistry.Event)
    (after : DocumentRegistry.Documents) : Prop :=
  ∀ key document, after.lookup key = some document →
    (∃ old, s.docs.lookup key = some old ∧ old.spaceId = document.spaceId) ∨
      ∃ call fileId, e = .indexCommit call key ∧
        s.calls.lookup call = some (.registering fileId document.spaceId)

theorem documentsFrom_same : DocumentsFrom s e s.docs :=
  fun _ document hd => .inl ⟨document, hd, rfl⟩

variable {call : ℕ}

def CallsFrom (s t : DocumentRegistry.State) : Prop :=
  ∀ id call, t.calls.lookup id = some call → s.calls.lookup id = some call

theorem callsFrom_reply {docs : DocumentRegistry.Documents}
    {answer : Except DocumentRegistry.Refusal DocumentRegistry.Answer} :
    CallsFrom s (DocumentRegistry.State.reply { s with docs := docs } call answer) :=
  fun _ _ hc => (lookup_erase_iff.mp hc).2

theorem documents_indexRead {fileId : String} {view : Option (Option String)}
    (h : DocumentRegistry.step s (.indexRead call fileId view) = some t) :
    t.docs = s.docs ∧ ∀ id c, t.calls.lookup id = some c →
      s.calls.lookup id = some c ∨ (∃ spaceId, view = some spaceId ∧
        c = .registering fileId spaceId) ∨ ∃ existing, c = .comparing existing := by
  simp only [DocumentRegistry.step] at h
  split_ifs at h
  split at h
  · cases h
    exact ⟨rfl, fun id c hc => .inl (callsFrom_reply id c hc)⟩
  · rename_i spaceId hv
    split at h
    · cases h
      refine ⟨rfl, forall_insert (.inr (.inl ⟨spaceId, ?_, rfl⟩)) fun _ _ => .inl⟩
      exact checkIndexRequest_view hv
    · cases h
      exact ⟨rfl, forall_insert (.inr (.inr ⟨_, rfl⟩)) fun _ _ => .inl⟩

theorem documents_indexCompare (h : DocumentRegistry.step s (.indexCompare call) = some t) :
    t.docs = s.docs ∧ CallsFrom s t := by
  simp only [DocumentRegistry.step] at h
  split at h
  · cases h
    exact ⟨rfl, callsFrom_reply⟩
  · cases h

theorem documents_indexCommit {id : String}
    (h : DocumentRegistry.step s (.indexCommit call id) = some t) :
    DocumentsFrom s (.indexCommit call id) t.docs ∧ CallsFrom s t := by
  simp only [DocumentRegistry.step] at h
  split at h
  · rename_i fileId spaceId hc
    split_ifs at h
    cases h
    refine ⟨fun key document hd => ?_, callsFrom_reply⟩
    rcases lookup_insert_iff.mp hd with ⟨rfl, rfl⟩ | ⟨-, hold⟩
    · exact .inr ⟨call, fileId, rfl, hc⟩
    · exact .inl ⟨document, hold, rfl⟩
  · cases h

theorem documents_setStatus {id : String} {status : DocumentRegistry.IndexStatus}
    {contentHash : Option String} {version : Option ℕ}
    (h : DocumentRegistry.step s (.setStatus id status contentHash version) = some t) :
    DocumentsFrom s e t.docs := by
  cases h
  unfold DocumentRegistry.setStatus
  split
  · exact documentsFrom_same
  · rename_i found hf
    intro key document hd
    rcases lookup_insert_iff.mp hd with ⟨rfl, rfl⟩ | ⟨-, hold⟩
    · refine .inl ⟨found, hf, ?_⟩
      split_ifs <;> rfl
    · exact .inl ⟨document, hold, rfl⟩

end Documents

/-- How far deletions have come, what is gone where they have been, and that no request still in
flight can bring it back. -/
structure Cleared (s : State) : Prop where
  uploads : ∀ id task, s.uploads.tasks.lookup id = some task →
    Admitted s.uploads.files s.active task
  linked : Linked s.threads
  closed : ∀ space, s.past space Stage.knowledge.rank = true →
    ∃ row, s.spaces.lookup space = some row ∧ row.value = false
  corpus : ∀ space, s.past space Stage.files.rank = true →
    ∀ key document, s.registry.docs.lookup key = some document →
      document.spaceId ≠ some (spaceText space)
  files : ∀ space, s.past space Stage.messages.rank = true →
    ∀ key row, s.uploads.files.lookup key = some row → row.value.spaceId ≠ some space
  threads : ∀ space ∈ s.deleted, ∀ key row, s.threads.conversations.lookup key = some row →
    row.value.spaceId ≠ some space
  calls : ∀ space, s.past space Stage.files.rank = true →
    ∀ id call, s.registry.calls.lookup id = some call → registersIn space call = false
  starts : ∀ space ∈ s.deleted, ∀ id task, s.tasks.lookup id = some task →
    task.opens space = false

section Invariant

variable {lower : Text → Text} {limits : SpaceQuota.Limits} {s t : State} {e : Event}
  {id space rank : ℕ} {task : Task}

theorem past_eq_true_iff : s.past space rank = true ↔
    space ∈ s.deleted ∨ ∃ id task, s.tasks.lookup id = some task ∧ rank ≤ task.rank space := by
  simp [State.past, anyRow_eq_true_iff]

theorem past_mono {lower : ℕ} (h : s.past space rank = true) (hle : lower ≤ rank) :
    s.past space lower = true := by
  rcases past_eq_true_iff.mp h with hd | ⟨id, task, ht, hr⟩
  · exact past_eq_true_iff.mpr (.inl hd)
  · exact past_eq_true_iff.mpr (.inr ⟨id, task, ht, by omega⟩)

theorem past_finish (h : (s.finish id).past space rank = true) : s.past space rank = true := by
  rcases past_eq_true_iff.mp h with hd | ⟨other, task, ht, hr⟩
  · exact past_eq_true_iff.mpr (.inl hd)
  · have hold := (lookup_erase_iff.mp ht).2
    exact past_eq_true_iff.mpr (.inr ⟨other, task, hold, hr⟩)

theorem past_proceed (h : (s.proceed id task).past space rank = true) :
    s.past space rank = true ∨ rank ≤ task.rank space := by
  rcases past_eq_true_iff.mp h with hd | ⟨other, found, hf, hr⟩
  · exact .inl (past_eq_true_iff.mpr (.inl hd))
  · rcases lookup_insert_iff.mp hf with ⟨-, rfl⟩ | ⟨-, hold⟩
    · exact .inr hr
    · exact .inl (past_eq_true_iff.mpr (.inr ⟨other, found, hold, hr⟩))

theorem mem_active : space ∈ s.active ↔
    ∃ row, s.spaces.lookup space = some row ∧ row.value = true := by
  unfold State.active
  constructor
  · intro h
    obtain ⟨entry, he, rfl⟩ := List.mem_map.mp h
    obtain ⟨hrow, hvalue⟩ := List.mem_filter.mp he
    exact ⟨entry.2, AList.mem_lookup_iff.mpr hrow, hvalue⟩
  · rintro ⟨row, hrow, hvalue⟩
    refine List.mem_map.mpr ⟨⟨space, row⟩, List.mem_filter.mpr ⟨?_, hvalue⟩, rfl⟩
    exact AList.mem_lookup_iff.mp hrow

theorem Cleared.notMem_active (hs : Cleared s) (h : s.past space Stage.knowledge.rank = true) :
    space ∉ s.active := by
  intro ha
  obtain ⟨row, hrow, hf⟩ := hs.closed space h
  obtain ⟨found, hfo, ht⟩ := mem_active.mp ha
  obtain rfl := Option.mem_unique hrow hfo
  rw [hf] at ht
  cases ht

theorem init_cleared : Cleared init where
  uploads := fun _ _ h => by cases h
  linked := fun _ _ h => by cases h
  closed := fun _ h => by cases h
  corpus := fun _ _ _ _ h => by cases h
  files := fun _ _ _ _ h => by cases h
  threads := fun _ h => by cases h
  calls := fun _ _ _ _ h => by cases h
  starts := fun _ h => by cases h

theorem cleared_uploads {uploads : SpaceQuota.State} (hs : Cleared s)
    (h : Uploaded s.files uploads) : Cleared { s with uploads := uploads } where
  uploads := by
    intro id task ht
    rcases h.tasks id task ht with hold | hnew
    · exact (hs.uploads id task hold).mono (fun _ _ _ h => h) h.spaceless
    · exact hnew
  linked := hs.linked
  closed := hs.closed
  corpus := hs.corpus
  files := by
    intro space hp key row hrow hsp
    rcases h.files key row hrow with ⟨old, hold, hsa⟩ | ha
    · exact hs.files space hp key old hold (hsa.trans hsp)
    · exact hs.notMem_active (past_mono hp (by decide)) (ha space hsp)
  threads := hs.threads
  calls := hs.calls
  starts := hs.starts

/-- What the registry does behind a purge keeps the space cleared. -/
theorem cleared_registry {registry : DocumentRegistry.State} (hs : Cleared s)
    (h : ∀ key document, registry.docs.lookup key = some document →
      (∃ old, s.registry.docs.lookup key = some old ∧ old.spaceId = document.spaceId) ∨
        ∀ space, s.past space Stage.files.rank = true →
          document.spaceId ≠ some (spaceText space))
    (hc : ∀ id call, registry.calls.lookup id = some call →
      s.registry.calls.lookup id = some call ∨
        ∀ space, s.past space Stage.files.rank = true → registersIn space call = false) :
    Cleared { s with registry := registry } where
  uploads := hs.uploads
  linked := hs.linked
  closed := hs.closed
  corpus := by
    intro space hp key document hd
    rcases h key document hd with ⟨old, hold, hsa⟩ | hnew
    · rw [← hsa]
      exact hs.corpus space hp key old hold
    · exact hnew space hp
  files := hs.files
  threads := hs.threads
  calls := by
    intro space hp id call hca
    rcases hc id call hca with hold | hnew
    · exact hs.calls space hp id call hold
    · exact hnew space hp
  starts := hs.starts

theorem cleared_threads {threads : Transcripts.State} (hs : Cleared s) (hl : Linked threads)
    (h : ∀ key row, threads.conversations.lookup key = some row →
      (∃ old, s.threads.conversations.lookup key = some old ∧
          old.value.spaceId = row.value.spaceId) ∨
        ∀ space ∈ s.deleted, row.value.spaceId ≠ some space) :
    Cleared { s with threads := threads } where
  uploads := hs.uploads
  linked := hl
  closed := hs.closed
  corpus := hs.corpus
  files := hs.files
  threads := by
    intro space hsp key row hrow
    rcases h key row hrow with ⟨old, hold, hsa⟩ | hnew
    · rw [← hsa]
      exact hs.threads space hsp key old hold
    · exact hnew space hsp
  calls := hs.calls
  starts := hs.starts

theorem cleared_finish (hs : Cleared s) : Cleared (s.finish id) where
  uploads := hs.uploads
  linked := hs.linked
  closed := fun space hp => hs.closed space (past_finish hp)
  corpus := fun space hp => hs.corpus space (past_finish hp)
  files := fun space hp => hs.files space (past_finish hp)
  threads := hs.threads
  calls := fun space hp => hs.calls space (past_finish hp)
  starts := fun space hd other task ht =>
    hs.starts space hd other task (lookup_erase_iff.mp ht).2

/-- A deletion that goes on to its next module leaves the former one empty. -/
theorem cleared_proceed (hs : Cleared s)
    (hc : ∀ space, Stage.knowledge.rank ≤ task.rank space →
      ∃ row, s.spaces.lookup space = some row ∧ row.value = false)
    (hco : ∀ space, Stage.files.rank ≤ task.rank space →
      ∀ key document, s.registry.docs.lookup key = some document →
        document.spaceId ≠ some (spaceText space))
    (hf : ∀ space, Stage.messages.rank ≤ task.rank space →
      ∀ key row, s.uploads.files.lookup key = some row → row.value.spaceId ≠ some space)
    (hca : ∀ space, Stage.files.rank ≤ task.rank space →
      ∀ id call, s.registry.calls.lookup id = some call → registersIn space call = false)
    (hst : ∀ space ∈ s.deleted, task.opens space = false) :
    Cleared (s.proceed id task) where
  uploads := hs.uploads
  linked := hs.linked
  closed := by
    intro space hp
    rcases past_proceed hp with hold | hnew
    · exact hs.closed space hold
    · exact hc space hnew
  corpus := by
    intro space hp
    rcases past_proceed hp with hold | hnew
    · exact hs.corpus space hold
    · exact hco space hnew
  files := by
    intro space hp
    rcases past_proceed hp with hold | hnew
    · exact hs.files space hold
    · exact hf space hnew
  threads := hs.threads
  calls := by
    intro space hp
    rcases past_proceed hp with hold | hnew
    · exact hs.calls space hold
    · exact hca space hnew
  starts := fun space hd => forall_insert (hst space hd) (hs.starts space hd)

variable {next : Stage}

theorem rank_emptying {other : ℕ} {least : ℕ} (hpos : 0 < least)
    (h : least ≤ (Task.emptying other next).rank space) : space = other ∧ least ≤ next.rank := by
  simp only [Task.rank] at h
  split_ifs at h with heq
  · exact ⟨heq.symm, h⟩
  · omega

theorem cleared_proceed_early (hs : Cleared s) (h : ∀ space, task.rank space = 0)
    (hst : ∀ space ∈ s.deleted, task.opens space = false) : Cleared (s.proceed id task) := by
  refine cleared_proceed hs ?_ ?_ ?_ ?_ hst <;>
    · intro space hr
      rw [h space] at hr
      cases hr

/-- A deletion that has emptied one module more. -/
theorem cleared_proceed_emptying (hs : Cleared s)
    (hc : ∃ row, s.spaces.lookup space = some row ∧ row.value = false)
    (hco : Stage.files.rank ≤ next.rank →
      ∀ key document, s.registry.docs.lookup key = some document →
        document.spaceId ≠ some (spaceText space)) (hf : Stage.messages.rank ≤ next.rank →
      ∀ key row, s.uploads.files.lookup key = some row → row.value.spaceId ≠ some space)
    (hca : Stage.files.rank ≤ next.rank →
      ∀ id call, s.registry.calls.lookup id = some call → registersIn space call = false) :
    Cleared (s.proceed id (.emptying space next)) := by
  refine cleared_proceed hs ?_ ?_ ?_ ?_ fun _ _ => rfl
  · intro other hr
    obtain ⟨rfl, -⟩ := rank_emptying (by decide) hr
    exact hc
  · intro other hr
    obtain ⟨rfl, hn⟩ := rank_emptying (by decide) hr
    exact hco hn
  · intro other hr
    obtain ⟨rfl, hn⟩ := rank_emptying (by decide) hr
    exact hf hn
  · intro other hr
    obtain ⟨rfl, hn⟩ := rank_emptying (by decide) hr
    exact hca hn

theorem forall_of_anyRow_eq_false {α : Type} {table : AList fun _ : ℕ => α} {test : α → Bool}
    (h : anyRow table (fun _ => test) = false) :
    ∀ key a, table.lookup key = some a → test a = false := by
  intro key a ha
  by_contra ht
  have hr : anyRow table (fun _ => test) = true :=
    anyRow_eq_true_iff.mpr ⟨key, a, ha, by simpa using ht⟩
  rw [h] at hr
  cases hr

theorem past_of_emptying (ht : s.tasks.lookup id = some (.emptying space next)) :
    s.past space next.rank = true :=
  past_eq_true_iff.mpr (.inr ⟨id, _, ht, by simp [Task.rank]⟩)

section

variable (hs : Cleared s)
include hs

/-- The purge of the corpus, with no registration that has read a file of the space in flight. -/
theorem cleared_purge_knowledge (ht : s.tasks.lookup id = some (.emptying space .knowledge))
    (hc : ∀ key call, s.registry.calls.lookup key = some call → registersIn space call = false) :
    Cleared (s.purge id space .knowledge) := by
  have hf : ∀ key document,
      (eraseAll s.registry.docs
        (DocumentRegistry.idsInSpace s.registry.docs (spaceText space))).lookup key =
          some document →
        s.registry.docs.lookup key = some document ∧
          document.spaceId ≠ some (spaceText space) := by
    intro key document hd
    obtain ⟨hkey, hold⟩ := lookup_eraseAll_eq_some_iff.mp hd
    refine ⟨hold, fun hsp => hkey ?_⟩
    refine List.mem_filter.mpr ⟨AList.mem_keys.mp (mem_of_lookup hold), ?_⟩
    simp [hold, hsp]
  refine cleared_proceed_emptying
    (cleared_registry hs (fun key document hd => .inl ⟨document, ?_, rfl⟩) fun _ _ => .inl)
    ?_ ?_ ?_ fun _ => hc
  · exact (hf key document hd).1
  · exact hs.closed space (past_of_emptying ht)
  · exact fun _ key document hd => (hf key document hd).2
  · intro hr
    exact absurd hr (by decide)

theorem cleared_purge_files (ht : s.tasks.lookup id = some (.emptying space .files)) :
    Cleared (s.purge id space .files) := by
  have hp := past_of_emptying ht
  have hf : ∀ key (row : Versioned File),
      (eraseWhere s.uploads.files fun _ row => row.value.spaceId = some space).lookup key =
        some row → s.uploads.files.lookup key = some row ∧ row.value.spaceId ≠ some space := by
    intro key row hrow
    obtain ⟨hold, hsp⟩ := lookup_eraseWhere_eq_some_iff.mp hrow
    exact ⟨hold, by simpa using hsp⟩
  refine cleared_proceed_emptying (cleared_uploads hs ⟨?_, ?_, fun _ _ => .inl⟩) ?_ ?_ ?_
    fun _ => hs.calls space hp
  · intro key row hrow
    exact .inl ⟨row, (hf key row hrow).1, rfl⟩
  · rintro file ⟨row, hrow, hn⟩
    exact ⟨row, lookup_eraseWhere_eq_some_iff.mpr ⟨hrow, by simp [hn]⟩, hn⟩
  · exact hs.closed space (past_mono hp (by decide))
  · exact fun _ => hs.corpus space hp
  · exact fun _ key row hrow => (hf key row hrow).2

theorem cleared_purge_messages (ht : s.tasks.lookup id = some (.emptying space .messages)) :
    Cleared (s.purge id space .messages) := by
  have hp := past_of_emptying ht
  exact cleared_proceed_emptying hs (hs.closed space (past_mono hp (by decide)))
    (fun _ => hs.corpus space (past_mono hp (by decide))) (fun _ => hs.files space hp)
    fun _ => hs.calls space (past_mono hp (by decide))

/-- The drop of the threads: no message it leaves belongs to them, and no start that has found
the space active is in flight. -/
theorem cleared_purge_threads {dropped : List ℕ}
    (hta : s.tasks.lookup id = some (.emptying space (.threads dropped)))
    (hst : ∀ key task, s.tasks.lookup key = some task → task.opens space = false) :
    Cleared (s.purge id space (.threads dropped)) := by
  have hp := past_of_emptying hta
  unfold State.purge
  simp only
  split_ifs with hl
  · exact cleared_finish hs
  · have hk : ∀ other rank, rank ≤ 4 → (other ∈ space :: s.deleted ∨ ∃ id task,
        s.tasks.lookup id = some task ∧ rank ≤ task.rank other) → s.past other rank = true := by
      rintro other rank hle (hmem | ht)
      · rcases List.mem_cons.mp hmem with rfl | hmem
        · exact past_mono hp hle
        · exact past_eq_true_iff.mpr (.inl hmem)
      · exact past_eq_true_iff.mpr (.inr ht)
    have hd : ∀ key row, (eraseWhere s.threads.conversations fun _ row =>
        row.value.spaceId = some space).lookup key = some row →
          s.threads.conversations.lookup key = some row ∧ row.value.spaceId ≠ some space := by
      intro key row hrow
      obtain ⟨hold, hsp⟩ := lookup_eraseWhere_eq_some_iff.mp hrow
      exact ⟨hold, by simpa using hsp⟩
    refine cleared_finish ⟨hs.uploads, ?_, ?_, ?_, ?_, ?_, ?_, ?_⟩
    · intro key message hm
      obtain ⟨hkey, hold⟩ := lookup_eraseAll_eq_some_iff.mp hm
      obtain ⟨row, hrow⟩ := hs.linked key message hold
      refine ⟨row, lookup_eraseWhere_eq_some_iff.mpr ⟨hrow, ?_⟩⟩
      by_contra hsp
      refine hl (anyRow_eq_true_iff.mpr ⟨key, message, hold, ?_⟩)
      simpa [State.threadOf, hkey, hrow] using hsp
    · intro other h
      exact hs.closed other (hk other _ (by decide) (past_eq_true_iff.mp h))
    · intro other h
      exact hs.corpus other (hk other _ (by decide) (past_eq_true_iff.mp h))
    · intro other h
      exact hs.files other (hk other _ (by decide) (past_eq_true_iff.mp h))
    · intro other hmem key row hrow
      rcases List.mem_cons.mp hmem with rfl | hmem
      · exact (hd key row hrow).2
      · exact hs.threads other hmem key row (hd key row hrow).1
    · intro other h
      exact hs.calls other (hk other _ (by decide) (past_eq_true_iff.mp h))
    · intro other hmem
      rcases List.mem_cons.mp hmem with rfl | hmem
      · exact hst
      · exact hs.starts other hmem

/-- Deactivating the space begins a deletion that has cleared nothing yet. -/
theorem cleared_saving {read : Versioned Bool} {spaces : AList fun _ : ℕ => Versioned Bool}
    (hfr : s.rowLocked space = false) (hsa : save s.spaces space read false = some spaces) :
    Cleared ({ s with spaces := spaces }.proceed id (.emptying space .knowledge)) := by
  unfold save at hsa
  split at hsa
  · rename_i row hrow
    split_ifs at hsa
    cases hsa
    have ha : ∀ other, other ≠ space → other ∈ s.active → other ∈ State.active
        { s with spaces := s.spaces.insert space ⟨false, row.version + 1⟩ } := by
      intro other hne hmem
      obtain ⟨found, hfo, ht⟩ := mem_active.mp hmem
      exact mem_active.mpr ⟨found, (AList.lookup_insert_ne hne).trans hfo, ht⟩
    refine cleared_proceed_emptying
      ⟨?_, hs.linked, ?_, hs.corpus, hs.files, hs.threads, hs.calls, hs.starts⟩
      ⟨_, AList.lookup_insert _, rfl⟩ ?_ ?_ ?_
    · intro other task hta
      refine (hs.uploads other task hta).mono (fun found hfo hp hmem => ?_) fun _ h => h
      refine ha found ?_ hmem
      rintro rfl
      have hl : s.rowLocked found = true :=
        anyRow_eq_true_iff.mpr ⟨other, task, hta, by simp [hp, hfo]⟩
      rw [hfr] at hl
      cases hl
    · intro other hpa
      by_cases hne : other = space
      · subst hne
        exact ⟨_, AList.lookup_insert _, rfl⟩
      · obtain ⟨found, hfo, hf⟩ := hs.closed other hpa
        exact ⟨found, (AList.lookup_insert_ne hne).trans hfo, hf⟩
    all_goals
      intro hr
      exact absurd hr (by decide)
  · cases hsa

theorem cleared_opening {request : Transcripts.StartRequest} {newId now : ℕ}
    {threads : Transcripts.State} (ht : s.tasks.lookup id = some (.opening request))
    (h : Transcripts.step lower s.threads (.start newId request now) = some threads) :
    Cleared ({ s with threads := threads }.finish id) := by
  refine cleared_finish (cleared_threads hs (linked_step hs.linked h) fun key row hrow => ?_)
  rcases threads_from (Transcripts.step_change h).threads hrow with hold | ⟨_, _, he, hsp⟩
  · exact .inl hold
  · obtain ⟨-, rfl, -⟩ := Transcripts.Event.start.inj he
    refine .inr fun other hd ho => ?_
    rw [hsp] at ho
    have hop := hs.starts other hd id _ ht
    simp [Task.opens, ho] at hop

/-- A step of a start or a deletion that crosses no purge keeps the spaces cleared. -/
theorem cleared_advance {newId now : ℕ} (hta : s.tasks.lookup id = some task)
    (hti : s.crosses (.next id newId now) = false)
    (h : s.advance lower id newId now task = some t) : Cleared t := by
  simp only [State.crosses, hta] at hti
  cases task with
  | starting request =>
    simp only [State.advance] at h
    split_ifs at h with ha
    · cases h
      exact cleared_finish hs
    · cases h
      -- a deleted space is not active, so the start was refused
      refine cleared_proceed_early hs (fun _ => rfl) fun space hd => ?_
      by_contra hop
      have hsp : request.spaceId = some space := by simpa [Task.opens] using hop
      refine ha ?_
      simpa [hsp] using hs.notMem_active (past_eq_true_iff.mpr (.inl hd))
  | opening request =>
    obtain ⟨threads, ht, rfl⟩ := Option.map_eq_some_iff.mp h
    exact cleared_opening hs hta ht
  | marking space =>
    simp only [State.advance] at h
    split at h
    · cases h
      exact cleared_finish hs
    · cases h
      exact cleared_proceed_early hs (fun _ => rfl) fun _ _ => rfl
  | saving space read =>
    simp only [State.advance] at h
    split_ifs at h with hl
    split at h
    · cases h
      exact cleared_finish hs
    · rename_i spaces hsa
      cases h
      exact cleared_saving hs (by simpa using hl) hsa
  | emptying space next =>
    cases h
    cases next with
    | knowledge => exact cleared_purge_knowledge hs hta (forall_of_anyRow_eq_false hti)
    | files => exact cleared_purge_files hs hta
    | messages => exact cleared_purge_messages hs hta
    | threads dropped => exact cleared_purge_threads hs hta (forall_of_anyRow_eq_false hti)

theorem cleared_register {e : DocumentRegistry.Event} {registry : DocumentRegistry.State}
    (h : DocumentsFrom s.registry e registry.docs) (hc : CallsFrom s.registry registry) :
    Cleared { s with registry := registry } := by
  refine cleared_registry hs (fun key document hd => ?_) fun id call hca => .inl (hc id call hca)
  rcases h key document hd with hold | ⟨call, fileId, rfl, hca⟩
  · exact .inl hold
  · refine .inr fun space hp hsp => ?_
    have hr := hs.calls space hp call _ hca
    simp [registersIn, hsp] at hr

/-- A file that is read lies in no space whose corpus is gone: its own purge has followed, or the
read falls between the two. -/
theorem readable_not_past {file : ℕ} {spaceId : Option String}
    (ht : s.crosses (.index call file) = false) (hv : s.readable file = some spaceId)
    (hp : s.past space Stage.files.rank = true) : spaceId ≠ some (spaceText space) := by
  rintro rfl
  obtain ⟨row, hro, hro'⟩ := Option.map_eq_some_iff.mp hv
  obtain ⟨hrow, hre⟩ := Option.filter_eq_some_iff.mp hro
  obtain ⟨other, hsp, hte⟩ := Option.map_eq_some_iff.mp hro'
  obtain rfl : other = space := Nat.repr_injective hte
  have hn : s.past other Stage.messages.rank = false := by
    by_contra hm
    exact hs.files other (by simpa using hm) file row hrow hsp
  have hb : s.betweenPurges other = true := by
    rcases past_eq_true_iff.mp hp with hd | ⟨id, task, hta, hr⟩
    · rw [past_eq_true_iff.mpr (.inl hd)] at hn
      cases hn
    · refine anyRow_eq_true_iff.mpr ⟨id, task, hta, decide_eq_true ?_⟩
      by_contra hne
      have hm : s.past other Stage.messages.rank = true :=
        past_eq_true_iff.mpr (.inr ⟨id, task, hta, lt_of_le_of_ne hr (Ne.symm hne)⟩)
      rw [hn] at hm
      cases hm
  simp [State.crosses, hrow, hre, hsp, hb] at ht

theorem cleared_createSpace (hsp : space ∉ s.spaces) :
    Cleared { s with spaces := s.spaces.insert space ⟨true, 1⟩ } := by
  have hk : ∀ other (row : Versioned Bool), s.spaces.lookup other = some row →
      (s.spaces.insert space ⟨true, 1⟩).lookup other = some row := by
    intro other row hrow
    have hne : other ≠ space := by
      rintro rfl
      exact hsp (mem_of_lookup hrow)
    exact (AList.lookup_insert_ne hne).trans hrow
  refine ⟨fun id task hta => ?_, hs.linked, fun other hp => ?_, hs.corpus, hs.files,
    hs.threads, hs.calls, hs.starts⟩
  · refine (hs.uploads id task hta).mono (fun other _ _ hmem => ?_) fun _ h => h
    obtain ⟨row, hrow, ht⟩ := mem_active.mp hmem
    exact mem_active.mpr ⟨row, hk other row hrow, ht⟩
  · obtain ⟨row, hrow, hf⟩ := hs.closed other hp
    exact ⟨row, hk other row hrow, hf⟩

/-- While no deletion overtakes a request, cleared spaces stay cleared. -/
theorem step_cleared (ht : Timely s e) (h : step lower limits s e = some t) : Cleared t := by
  cases e with
  | createSpace space =>
    simp only [step] at h
    split_ifs at h with hsp
    cases h
    exact cleared_createSpace hs hsp
  | upload e =>
    obtain ⟨uploads, hu, rfl⟩ := Option.map_eq_some_iff.mp h
    exact cleared_uploads hs (uploaded_step hs.uploads hu)
  | complete file checksum =>
    simp only [step] at h
    split at h
    · cases h
    · rename_i row hrow
      split at h
      · cases h
      · rename_i after ha
        cases h
        have hsp := (SpaceQuota.lightens_complete ha).space
        exact cleared_uploads hs ⟨filesFrom_written hrow hsp,
          fun _ hfi => spaceless_written hfi hrow hsp, fun _ _ => .inl⟩
  | index call file =>
    obtain ⟨registry, hr, rfl⟩ := Option.map_eq_some_iff.mp h
    obtain ⟨hd, hc⟩ := documents_indexRead hr
    refine cleared_registry hs (fun key document hdo => .inl ⟨document, hd ▸ hdo, rfl⟩)
      fun id c hca => ?_
    rcases hc id c hca with hold | ⟨spaceId, hv, rfl⟩ | ⟨existing, rfl⟩
    · exact .inl hold
    · exact .inr fun space hp => decide_eq_false (readable_not_past hs ht hv hp)
    · exact .inr fun _ _ => rfl
  | register e =>
    simp only [step] at h
    split at h
    · obtain ⟨registry, hr, rfl⟩ := Option.map_eq_some_iff.mp h
      obtain ⟨hd, hc⟩ := documents_indexCompare hr
      refine cleared_register hs (e := .abort 0) ?_ hc
      rw [hd]
      exact documentsFrom_same
    · obtain ⟨registry, hr, rfl⟩ := Option.map_eq_some_iff.mp h
      obtain ⟨hd, hc⟩ := documents_indexCommit hr
      exact cleared_register hs hd hc
    · obtain ⟨registry, hr, rfl⟩ := Option.map_eq_some_iff.mp h
      cases hr
      exact cleared_register hs (e := .abort 0) documentsFrom_same fun _ _ hc =>
        (lookup_erase_iff.mp hc).2
    · obtain ⟨registry, hr, rfl⟩ := Option.map_eq_some_iff.mp h
      have hd := documents_setStatus (e := .abort 0) hr
      cases hr
      exact cleared_register hs hd fun _ _ => id
    · cases h
  | thread e =>
    simp only [step] at h
    split at h
    · cases h
    · rename_i hnot
      obtain ⟨threads, hth, rfl⟩ := Option.map_eq_some_iff.mp h
      refine cleared_threads hs (linked_step hs.linked hth) fun key row hrow => .inl ?_
      have hf := threads_from (Transcripts.step_change hth).threads hrow
      rcases hf with hold | ⟨request, now, rfl, -⟩
      · exact hold
      · exact absurd rfl (hnot key request now)
  | start id request =>
    simp only [step] at h
    split_ifs at h
    cases h
    exact cleared_proceed_early hs (fun _ => rfl) fun _ _ => rfl
  | delete id space =>
    simp only [step] at h
    split_ifs at h
    cases h
    exact cleared_proceed_early hs (fun _ => rfl) fun _ _ => rfl
  | next id newId now =>
    simp only [step] at h
    split at h
    · cases h
    · rename_i task hta
      exact cleared_advance hs hta ht h
  | fails id =>
    simp only [step] at h
    split_ifs at h
    cases h
    exact cleared_finish hs

end

/-- Where no deletion overtakes a start or a registration between its check and its insert, a
space whose deletion has returned has no file, document or thread, and every message is in a
thread of another space. -/
theorem deleted_spaces_are_empty {events : List Event}
    (hguarded : Guarded (step lower limits) Timely init events)
    (hrun : run (step lower limits) init events = some s) (hdeleted : space ∈ s.deleted) :
    (∀ key row, s.uploads.files.lookup key = some row → row.value.spaceId ≠ some space) ∧
      (∀ key document, s.registry.docs.lookup key = some document →
        document.spaceId ≠ some (spaceText space)) ∧
      (∀ key row, s.threads.conversations.lookup key = some row →
        row.value.spaceId ≠ some space) ∧
      ∀ key message, s.threads.messages.lookup key = some message →
        ∃ row, s.threads.conversations.lookup message.conversationId = some row ∧
          row.value.spaceId ≠ some space := by
  have hs := run_invariant (fun _ _ _ hs ht hst => step_cleared hs ht hst) hguarded
    hrun init_cleared
  have hp : ∀ rank, s.past space rank = true :=
    fun _ => past_eq_true_iff.mpr (.inl hdeleted)
  refine ⟨hs.files space (hp _), hs.corpus space (hp _), hs.threads space hdeleted, ?_⟩
  intro key message hm
  obtain ⟨row, hrow⟩ := hs.linked key message hm
  exact ⟨row, hrow, hs.threads space hdeleted _ row hrow⟩

end Invariant

private def ordinary : SpaceQuota.Limits :=
  { allowedMime := [ofString "image/png"], maxUploadBytes := 100, maxSinglePutBytes := 100,
    maxSpaceBytes := 100, maxFilesPerWorkspace := 10, multipartPartBytes := minPartBytes,
    hpart := le_refl _ }

private def sketch : SpaceQuota.Request :=
  { user := some 7, spaceId := none, name := ofString "a.png", contentType := ofString "image/png",
    sizeBytes := 60, mode := .single, tags := ⟨none, none, none⟩ }

private def talk : Transcripts.StartRequest := ⟨some 5, ofString "rag", .agent, none, some 7⟩

private def emptying : List Event :=
  [.next 2 0 0, .next 2 0 0, .next 2 0 0, .next 2 0 0, .next 2 0 0, .next 2 0 0]

private def overtaken : List Event :=
  [.createSpace 5, .start 1 talk, .next 1 0 0, .delete 2 5] ++ emptying ++ [.next 1 9 100]

/-- A thread whose space was still active when it was asked for is opened after the deletion of
the space has returned. -/
theorem late_thread_stays :
    ∃ s, run (step id ordinary) init overtaken = some s ∧ s.tasks.keys = [] ∧ 5 ∈ s.deleted ∧
      (s.threads.conversations.lookup 9).any (·.value.spaceId = some 5) = true := by
  obtain ⟨s, hrun, ht⟩ := exists_run_of_any
    (p := fun s : State => s.tasks.keys = [] && s.deleted.contains 5 &&
      (s.threads.conversations.lookup 9).any (·.value.spaceId = some 5))
    (show (run (step id ordinary) init overtaken).any _ = true by decide +kernel)
  simp only [Bool.and_eq_true, decide_eq_true_eq, List.contains_iff_mem] at ht
  exact ⟨s, hrun, ht.1.1, ht.1.2, ht.2⟩

private def filled : List Event :=
  [.createSpace 5, .upload (.register 1 5 sketch), .upload (.next 1 0 0 0),
    .upload (.next 1 0 0 0), .upload (.next 1 0 0 0), .upload (.next 1 1 100 0),
    .complete 1 none, .index 3 1, .register (.indexCommit 3 "d"), .start 1 talk, .next 1 0 0,
    .next 1 9 100, .thread (.request 4 9 (.append (ofString "user") (ofString "hi") [] none)),
    .thread (.next 4 0 101 []), .thread (.next 4 8 102 [])]

/-- A file, its document, a thread and a message, and nothing of them in the end. -/
theorem filled_space_is_emptied :
    ∃ s t, run (step id ordinary) init filled = some s ∧
      (s.uploads.files.keys, s.registry.docs.keys, s.threads.messages.keys) =
        ([1], ["d"], [8]) ∧
      run (step id ordinary) s (.delete 2 5 :: emptying) = some t ∧ 5 ∈ t.deleted ∧
      ∀ key row, t.uploads.files.lookup key = some row → row.value.spaceId ≠ some 5 := by
  obtain ⟨s, hrun, ht⟩ := exists_run_of_any
    (p := fun s : State => decide ((s.uploads.files.keys, s.registry.docs.keys,
      s.threads.messages.keys) = ([1], ["d"], [8])) &&
        (run (step id ordinary) s (.delete 2 5 :: emptying)).any (·.deleted.contains 5))
    (show (run (step id ordinary) init filled).any _ = true by decide +kernel)
  rw [Bool.and_eq_true, decide_eq_true_eq, Option.any_eq_true] at ht
  obtain ⟨hf, t, ha, hd⟩ := ht
  have hmem : 5 ∈ t.deleted := List.contains_iff_mem.mp hd
  have hw := (run_append hrun (.delete 2 5 :: emptying)).trans ha
  exact ⟨s, t, hrun, hf, ha, hmem,
    (deleted_spaces_are_empty (by decide +kernel) hw hmem).1⟩

end Aizzak.EmptiedSpaces
