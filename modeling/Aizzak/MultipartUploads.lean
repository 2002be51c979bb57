import Aizzak.EventRuns
import Aizzak.StoredFiles
import Aizzak.UploadParts

/-!
Multipart uploads from their registration to `ready`. Parts are put under signed numbers into a
session that storage keeps until they are joined or the session is dropped; a completion reads
the file, lists the parts, has them joined and looks at the size of the object before the row is
written, and any number of completions of one file may run at once. Only a join makes an object
and it ends the session, so an object that has once been seen at its declared size stays.
-/
namespace Aizzak.MultipartUploads

open EventRuns KeyedTables VersionedRows PyText StoredFiles UploadParts

inductive Refusal where
  | notFound
  | singleUpload
  | alreadyComplete
  | partNumbersRepeat
  | partNumbersOutside (count : ℕ)
  | uploadExpired
  | uploadIncomplete (problems : List ℕ)
  | notAssembled
  | partsRejected
  | fileState (problem : FileError)
  | staleVersion
deriving DecidableEq

structure Part where
  sizeBytes : ℕ
  etag : ℕ
deriving DecidableEq

structure Upload where
  file : ℕ
  parts : AList fun _ : ℕ => Part

def Upload.listed (upload : Upload) : List StoredPart :=
  upload.parts.entries.map fun entry => ⟨entry.1, entry.2.sizeBytes, entry.2.etag⟩

def Upload.join (upload : Upload) (parts : List StoredPart) : Option ℕ :=
  if parts ≠ [] ∧ (parts.map (·.partNumber)).IsChain (· < ·) ∧
      ∀ part ∈ parts, (upload.parts.lookup part.partNumber).map (·.etag) = some part.etag then
    some (parts.map fun part =>
      ((upload.parts.lookup part.partNumber).map (·.sizeBytes)).getD 0).sum
  else none

inductive Phase where
  | assembling
  | listing (file : File) (session : MultipartUpload)
  | joining (file : File) (session : MultipartUpload) (parts : List StoredPart)
  | sizing (file : File) (otherwise : Refusal)
  | reading
  | saving (read : Versioned File) (after : File)

structure Task where
  user : Option ℕ
  file : ℕ
  checksum : Option Text
  phase : Phase

/-- The rows, the sessions and objects of storage, the signed part numbers, who opened and who
completed which file, and the completions in flight. -/
structure State where
  files : Files
  uploads : AList fun _ : ℕ => Upload
  objects : AList fun _ : ℕ => ℕ
  signed : List (ℕ × ℕ)
  opened : List (Option ℕ × ℕ)
  completed : List (Option ℕ × ℕ)
  tasks : AList fun _ : ℕ => Task

inductive Edit where
  | rename (name : FileName)
  | retag (tags : FileTags)
  | delete (now : ℕ)

inductive Event where
  | putPart (upload number : ℕ) (part : Part)
  | putObject (file sizeBytes : ℕ)
  | sign (user : Option ℕ) (file : ℕ) (numbers : List ℕ)
  | progress (user : Option ℕ) (file : ℕ)
  | complete (id : ℕ) (user : Option ℕ) (file : ℕ) (checksum : Option Text)
  | next (id : ℕ)
  | joinUnanswered (id : ℕ)
  | fails (id : ℕ)
  | abort (upload : ℕ)
  | edit (file : ℕ) (edit : Edit)

def Edit.apply (lower : Text → Text) (file : File) : Edit → Except FileError File
  | .rename name => file.rename lower name
  | .retag tags => file.retag tags
  | .delete now => .ok (file.softDelete now)

namespace State

def openUpload (s : State) (user : Option ℕ) (id : ℕ) : Except Refusal (File × MultipartUpload) :=
  match s.files.lookup id with
  | none => .error .notFound
  | some row =>
    if !row.value.isLive || !registeredByCaller user row.value then .error .notFound
    else match row.value.multipart with
      | none => .error .singleUpload
      | some session =>
        if row.value.status ≠ .uploaded then .error .alreadyComplete
        else .ok (row.value, session)

def signParts (s : State) (user : Option ℕ) (id : ℕ) (numbers : List ℕ) :
    Except Refusal (List (ℕ × ℕ)) := do
  let (file, session) ← s.openUpload user id
  let count := partCount session.partBytes file.sizeBytes
  if ¬ numbers.Nodup then .error .partNumbersRepeat
  else if numbers.any fun number => number < 1 || count < number then
    .error (.partNumbersOutside count)
  else .ok (numbers.map (session.uploadId, ·))

def session (s : State) (file : ℕ) (session : MultipartUpload) : Option Upload :=
  (s.uploads.lookup session.uploadId).filter (·.file = file)

def progress (s : State) (user : Option ℕ) (id : ℕ) : Except Refusal (List (ℕ × ℕ)) := do
  let (_, session) ← s.openUpload user id
  match s.session id session with
  | none => .error .uploadExpired
  | some upload =>
    .ok ((upload.listed.insertionSort (·.partNumber ≤ ·.partNumber)).map
      fun part => (part.partNumber, part.sizeBytes))

def assemble (s : State) (task : Task) : Except Refusal Phase :=
  match s.files.lookup task.file with
  | none => .ok .reading
  | some row =>
    match row.value.multipart with
    | none => .ok .reading
    | some session =>
      if !row.value.isLive || row.value.status ≠ .uploaded then .ok .reading
      else if !registeredByCaller task.user row.value then .error .notFound
      else .ok (.listing row.value session)

def checkListed (s : State) (task : Task) (file : File) (session : MultipartUpload) :
    Except Refusal Phase :=
  match s.session task.file session with
  | none => .ok (.sizing file .uploadExpired)
  | some upload =>
    let check := checkParts session.partBytes file.sizeBytes (sizesOf upload.listed)
    if !check.complete then
      .error (.uploadIncomplete ((check.missing ++ check.wrongSize).insertionSort (· ≤ ·)))
    else
      .ok (.joining file session ((upload.listed.filter fun part =>
        part.partNumber ≤ partCount session.partBytes file.sizeBytes).insertionSort
          (·.partNumber ≤ ·.partNumber)))

def readFile (s : State) (task : Task) : Except Refusal Phase :=
  match s.files.lookup task.file with
  | none => .error .notFound
  | some row =>
    match row.value.complete task.checksum with
    | .error problem => .error (.fileState problem)
    | .ok after => .ok (.saving row after)

def proceed (s : State) (id : ℕ) (task : Task) : Except Refusal Phase → State
  | .ok phase => { s with tasks := s.tasks.insert id { task with phase := phase } }
  | .error _ => { s with tasks := s.tasks.erase id }

def joinParts (s : State) (id : ℕ) (task : Task) (file : File) (session : MultipartUpload)
    (parts : List StoredPart) : State :=
  match s.session task.file session with
  | none => s.proceed id task (.ok (.sizing file .uploadExpired))
  | some upload =>
    match upload.join parts with
    | none => s.proceed id task (.error .partsRejected)
    | some sizeBytes =>
      { s with uploads := s.uploads.erase session.uploadId,
               objects := s.objects.insert task.file sizeBytes }.proceed id task
        (.ok (.sizing file .notAssembled))

def advance (s : State) (id : ℕ) (task : Task) : State :=
  match task.phase with
  | .assembling => s.proceed id task (s.assemble task)
  | .listing file session => s.proceed id task (s.checkListed task file session)
  | .joining file session parts => s.joinParts id task file session parts
  | .sizing file otherwise =>
    s.proceed id task (if s.objects.lookup task.file = some file.sizeBytes then .ok .reading
      else .error otherwise)
  | .reading => s.proceed id task (s.readFile task)
  | .saving read after =>
    match save s.files task.file read after with
    | none => s.proceed id task (.error .staleVersion)
    | some files =>
      { s with files := files, completed := (task.user, task.file) :: s.completed,
               tasks := s.tasks.erase id }

end State

local instance lawfulBEq_uploadPart : LawfulBEq (ℕ × ℕ) := inferInstance

def step (lower : Text → Text) (s : State) : Event → Option State
  | .putPart upload number part =>
    match s.uploads.lookup upload with
    | none => none
    | some session =>
      if (upload, number) ∈ s.signed then
        some { s with uploads := s.uploads.insert upload
                        { session with parts := session.parts.insert number part } }
      else none
  | .putObject file sizeBytes =>
    match s.files.lookup file with
    | none => none
    | some row =>
      if row.value.multipart.isNone then
        some { s with objects := s.objects.insert file sizeBytes }
      else none
  | .sign user file numbers =>
    match s.signParts user file numbers with
    | .error _ => some s
    | .ok parts =>
      some { s with signed := parts ++ s.signed, opened := (user, file) :: s.opened }
  | .progress user file =>
    match s.progress user file with
    | .error _ => some s
    | .ok _ => some { s with opened := (user, file) :: s.opened }
  | .complete id user file checksum =>
    if id ∈ s.tasks then none
    else some { s with tasks := s.tasks.insert id ⟨user, file, checksum, .assembling⟩ }
  | .next id => (s.tasks.lookup id).map (s.advance id)
  | .joinUnanswered id =>
    match s.tasks.lookup id with
    | none => none
    | some task =>
      match task.phase with
      | .joining file _ _ => some (s.proceed id task (.ok (.sizing file .notAssembled)))
      | _ => none
  | .fails id => if id ∈ s.tasks then some { s with tasks := s.tasks.erase id } else none
  | .abort upload => some { s with uploads := s.uploads.erase upload }
  | .edit file edit =>
    match s.files.lookup file with
    | none => none
    | some row =>
      match edit.apply lower row.value with
      | .error _ => some s
      | .ok after => some { s with files := s.files.insert file ⟨after, row.version + 1⟩ }

/-- Files that have been registered, each multipart one with its own empty session. -/
structure Registered (files : Files) (uploads : AList fun _ : ℕ => Upload) : Prop where
  uploaded : ∀ id row, files.lookup id = some row → row.value.status = .uploaded
  sessions : ∀ uploadId upload, uploads.lookup uploadId = some upload →
    ∃ row session, files.lookup upload.file = some row ∧ row.value.multipart = some session ∧
      session.uploadId = uploadId

def start (files : Files) (uploads : AList fun _ : ℕ => Upload) : State :=
  ⟨files, uploads, ∅, [], [], [], ∅⟩

/-- What every write keeps of a file: what was uploaded and by whom. A file that is still live
and uploaded has always been. -/
structure Kept (old new : File) : Prop where
  size : new.sizeBytes = old.sizeBytes
  multipart : new.multipart = old.multipart
  uploadedBy : new.uploadedBy = old.uploadedBy
  live : new.isLive = true → old.isLive = true
  uploaded : new.status = .uploaded → old.status = .uploaded
  status : old.status = .uploaded ∨ old.status = .ready →
    new.status = .uploaded ∨ new.status = .ready

theorem Kept.refl (file : File) : Kept file file := ⟨rfl, rfl, rfl, id, id, id⟩

theorem Kept.trans {old mid new : File} (h : Kept old mid) (h' : Kept mid new) : Kept old new where
  size := h'.size.trans h.size
  multipart := h'.multipart.trans h.multipart
  uploadedBy := h'.uploadedBy.trans h.uploadedBy
  live := fun hl => h.live (h'.live hl)
  uploaded := fun hu => h.uploaded (h'.uploaded hu)
  status := fun hs => h'.status (h.status hs)

theorem Kept.of_later {old new : Versioned File} (h : Later Kept old new) :
    Kept old.value new.value := by
  induction h with
  | same => exact .refl _
  | moved _ hm _ ih => exact ih.trans hm

theorem kept_softDelete (file : File) (now : ℕ) : Kept file (file.softDelete now) := by
  have hl : (file.softDelete now).isLive = true → file.isLive = true := by
    rw [File.softDelete_isLive]
    exact fun h => by cases h
  unfold File.softDelete at hl ⊢
  split_ifs at hl ⊢ with hd
  · exact .refl _
  · exact ⟨rfl, rfl, rfl, hl, id, id⟩

theorem kept_complete {file after : File} {checksum : Option Text}
    (h : file.complete checksum = .ok after) : Kept file after ∧ after.status = .ready := by
  obtain ⟨hl, -, rfl⟩ := File.complete_eq_ok h
  refine ⟨⟨rfl, rfl, rfl, id, fun hu => ?_, fun _ => .inr rfl⟩, rfl⟩
  cases hu

theorem kept_edit {lower : Text → Text} {file after : File} {edit : Edit}
    (h : edit.apply lower file = .ok after) : Kept file after ∧ after.status = file.status := by
  cases edit with
  | rename newName =>
    obtain ⟨-, name, rfl⟩ := File.rename_eq_ok h
    exact ⟨⟨rfl, rfl, rfl, id, id, id⟩, rfl⟩
  | retag tags =>
    obtain ⟨-, rfl⟩ := File.retag_eq_ok h
    exact ⟨⟨rfl, rfl, rfl, id, id, id⟩, rfl⟩
  | delete now =>
    cases h
    refine ⟨kept_softDelete file now, ?_⟩
    unfold File.softDelete
    split_ifs <;> rfl

theorem registeredByCaller_kept {user : Option ℕ} {old new : File} (h : Kept old new) :
    registeredByCaller user new = registeredByCaller user old := by
  rw [registeredByCaller, registeredByCaller, h.uploadedBy]

section Invariant

variable {lower : Text → Text} {s t : State} {files : Files} {uploads : AList fun _ : ℕ => Upload}
  {objects : AList fun _ : ℕ => ℕ} {user : Option ℕ} {id : ℕ} {task : Task}

/-- A completion may write the file: what is still an upload in parts is the caller's, and its
object has the declared size. -/
def Cleared (objects : AList fun _ : ℕ => ℕ) (user : Option ℕ) (id : ℕ) (file : File) : Prop :=
  file.multipart.isSome = true → file.isLive = true → file.status = .uploaded →
    objects.lookup id = some file.sizeBytes ∧ registeredByCaller user file = true

theorem Cleared.kept {old new : File} (h : Cleared objects user id old) (hk : Kept old new) :
    Cleared objects user id new := by
  intro hm hl hu
  rw [hk.multipart] at hm
  obtain ⟨ho, hc⟩ := h hm (hk.live hl) (hk.uploaded hu)
  rw [hk.size, registeredByCaller_kept hk]
  exact ⟨ho, hc⟩

def Opened (files : Files) (user : Option ℕ) (id : ℕ) (file : File) : Prop :=
  ∃ row, files.lookup id = some row ∧ Kept file row.value ∧ registeredByCaller user file = true

def Phase.Sound (files : Files) (objects : AList fun _ : ℕ => ℕ) (user : Option ℕ) (id : ℕ) :
    Phase → Prop
  | .assembling => True
  | .listing file _ | .joining file _ _ | .sizing file _ => Opened files user id file
  | .reading => ∀ row, files.lookup id = some row → Cleared objects user id row.value
  | .saving read after => Held Kept files id read ∧
      (∃ checksum, read.value.complete checksum = .ok after) ∧ Cleared objects user id read.value

/-- A multipart file is ready only with its object, no session is left for a file with an
object, and only the registrant has opened or completed an upload. -/
structure Whole (s : State) : Prop where
  status : ∀ id row, s.files.lookup id = some row →
    row.value.status = .uploaded ∨ row.value.status = .ready
  ready : ∀ id row, s.files.lookup id = some row → row.value.multipart.isSome = true →
    row.value.status = .ready → s.objects.lookup id = some row.value.sizeBytes
  sessions : ∀ uploadId upload, s.uploads.lookup uploadId = some upload →
    ∃ row session, s.files.lookup upload.file = some row ∧ row.value.multipart = some session ∧
      session.uploadId = uploadId
  fresh : ∀ uploadId upload, s.uploads.lookup uploadId = some upload → upload.file ∉ s.objects
  phases : ∀ id task, s.tasks.lookup id = some task →
    task.phase.Sound s.files s.objects task.user task.file
  opened : ∀ user id, (user, id) ∈ s.opened → ∃ row, s.files.lookup id = some row ∧
    registeredByCaller user row.value = true
  completed : ∀ user id, (user, id) ∈ s.completed → ∃ row, s.files.lookup id = some row ∧
    (row.value.multipart.isSome = true → registeredByCaller user row.value = true)

theorem start_whole (h : Registered files uploads) : Whole (start files uploads) where
  status := fun id row hrow => .inl (h.uploaded id row hrow)
  ready := by
    intro id row hrow _ hr
    rw [h.uploaded id row hrow] at hr
    cases hr
  sessions := h.sessions
  fresh := fun _ _ _ => AList.notMem_empty _
  phases := fun _ _ h => by cases h
  opened := fun _ _ h => by cases h
  completed := fun _ _ h => by cases h

variable {phase : Phase} {after : File}

/-- The write of another request leaves what a completion has read. -/
theorem Phase.Sound.write {key : ℕ} {row : Versioned File} (h : phase.Sound files objects user id)
    (hrow : files.lookup key = some row) (hk : Kept row.value after) :
    phase.Sound (files.insert key ⟨after, row.version + 1⟩) objects user id := by
  have hg : Grows Kept files (files.insert key ⟨after, row.version + 1⟩) :=
    .saved hrow hk
  have ho : ∀ file, Opened files user id file →
      Opened (files.insert key ⟨after, row.version + 1⟩) user id file := by
    rintro file ⟨found, hf, hs, hc⟩
    obtain ⟨now, hnow, hl⟩ := hg id found hf
    exact ⟨now, hnow, hs.trans (.of_later hl), hc⟩
  cases phase with
  | assembling => trivial
  | listing file | joining file | sizing file => exact ho file h
  | reading =>
    intro found hf
    rcases lookup_insert_iff.mp hf with ⟨rfl, rfl⟩ | ⟨-, hold⟩
    · exact (h row hrow).kept hk
    · exact h found hold
  | saving read new => exact ⟨h.1.grows hg, h.2.1, h.2.2⟩

theorem Phase.Sound.stored {after : AList fun _ : ℕ => ℕ} (h : phase.Sound files objects user id)
    (hk : ∀ row size, files.lookup id = some row → row.value.multipart.isSome = true →
      objects.lookup id = some size → after.lookup id = some size) :
    phase.Sound files after user id := by
  cases phase with
  | assembling => trivial
  | listing file | joining file | sizing file => exact h
  | reading =>
    intro row hrow hm hli hu
    obtain ⟨ho, hc⟩ := h row hrow hm hli hu
    exact ⟨hk row _ hrow hm ho, hc⟩
  | saving read new =>
    refine ⟨h.1, h.2.1, fun hm hli hu => ?_⟩
    obtain ⟨ho, hc⟩ := h.2.2 hm hli hu
    obtain ⟨row, hrow, hl⟩ := h.1
    have hs := (Kept.of_later hl).multipart
    exact ⟨hk row _ hrow (by rwa [hs]) ho, hc⟩

/-- A request that goes on from what it may rest on, or ends. -/
theorem Whole.proceed {result : Except Refusal Phase} (hs : Whole s)
    (hr : ∀ phase, result = .ok phase →
      phase.Sound s.files s.objects task.user task.file) :
    Whole (s.proceed id task result) := by
  cases result with
  | error refusal =>
    exact { hs with
      phases := fun other found hf =>
        hs.phases other found (lookup_erase_iff.mp hf).2 }
  | ok phase =>
    exact { hs with
      phases := forall_insert
        (P := fun _ (u : Task) => u.phase.Sound s.files s.objects u.user u.file)
        (hr phase rfl) hs.phases }

/-- Sessions that are changed or dropped. -/
theorem Whole.withUploads {after : AList fun _ : ℕ => Upload} (hs : Whole s)
    (ha : ∀ uploadId upload, after.lookup uploadId = some upload →
      ∃ old, s.uploads.lookup uploadId = some old ∧ old.file = upload.file) :
    Whole { s with uploads := after } :=
  { hs with
    sessions := by
      intro uploadId upload hu
      obtain ⟨old, hold, hf⟩ := ha uploadId upload hu
      rw [← hf]
      exact hs.sessions uploadId old hold
    fresh := by
      intro uploadId upload hu
      obtain ⟨old, hold, hf⟩ := ha uploadId upload hu
      rw [← hf]
      exact hs.fresh uploadId old hold }

theorem Whole.object (hs : Whole s) (key size : ℕ)
    (hse : ∀ uploadId upload, s.uploads.lookup uploadId = some upload → upload.file ≠ key)
    (hnew : ∀ row, s.files.lookup key = some row → row.value.multipart.isSome = true →
      key ∉ s.objects) :
    Whole { s with objects := s.objects.insert key size } := by
  have hk : ∀ other row found, s.files.lookup other = some row →
      row.value.multipart.isSome = true → s.objects.lookup other = some found →
      (s.objects.insert key size).lookup other = some found := by
    intro other row found hrow hm hf
    have hne : other ≠ key := by
      rintro rfl
      exact hnew row hrow hm (mem_of_lookup hf)
    exact (AList.lookup_insert_ne hne).trans hf
  exact { hs with
    ready := fun other row hrow hm hr =>
      hk other row _ hrow hm (hs.ready other row hrow hm hr)
    fresh := by
      intro uploadId upload hu hmem
      rcases (AList.mem_insert _).mp hmem with heq | hold
      · exact hse uploadId upload hu heq
      · exact hs.fresh uploadId upload hu hold
    phases := fun other found hf =>
      (hs.phases other found hf).stored fun row size => hk found.file row size }

theorem Whole.write {key : ℕ} {row : Versioned File} (hs : Whole s)
    (hrow : s.files.lookup key = some row) (hk : Kept row.value after)
    (hr : after.multipart.isSome = true → after.status = .ready →
      s.objects.lookup key = some after.sizeBytes) :
    Whole { s with files := s.files.insert key ⟨after, row.version + 1⟩ } := by
  have hf : ∀ other found, s.files.lookup other = some found →
      ∃ now, (s.files.insert key ⟨after, row.version + 1⟩).lookup other = some now ∧
        Kept found.value now.value := by
    intro other found hfo
    obtain ⟨now, hnow, hl⟩ :=
      (Grows.saved hrow hk : Grows Kept s.files _) other found hfo
    exact ⟨now, hnow, .of_later hl⟩
  exact {
    status := forall_insert
      (P := fun _ (u : Versioned File) => u.value.status = .uploaded ∨ u.value.status = .ready)
      (hk.status (hs.status key row hrow)) hs.status
    ready := forall_insert
      (P := fun k (u : Versioned File) => u.value.multipart.isSome = true →
        u.value.status = .ready → s.objects.lookup k = some u.value.sizeBytes)
      hr hs.ready
    sessions := by
      intro uploadId upload hu
      obtain ⟨found, session, hfo, hse, hid⟩ := hs.sessions uploadId upload hu
      obtain ⟨now, hnow, hsa⟩ := hf _ found hfo
      exact ⟨now, session, hnow, hsa.multipart.trans hse, hid⟩
    fresh := hs.fresh
    phases := fun other found hfo => (hs.phases other found hfo).write hrow hk
    opened := by
      intro who other hmem
      obtain ⟨found, hfo, hc⟩ := hs.opened who other hmem
      obtain ⟨now, hnow, hsa⟩ := hf other found hfo
      exact ⟨now, hnow, (registeredByCaller_kept hsa).trans hc⟩
    completed := by
      intro who other hmem
      obtain ⟨found, hfo, hc⟩ := hs.completed who other hmem
      obtain ⟨now, hnow, hsa⟩ := hf other found hfo
      refine ⟨now, hnow, fun hm => ?_⟩
      rw [registeredByCaller_kept hsa]
      exact hc (by rwa [hsa.multipart] at hm) }

variable {file : File} {session : MultipartUpload}

theorem openUpload_eq_ok (h : s.openUpload user id = .ok (file, session)) :
    ∃ row, s.files.lookup id = some row ∧ registeredByCaller user row.value = true := by
  unfold State.openUpload at h
  split at h
  · cases h
  · rename_i row hrow
    split at h
    · cases h
    · rename_i hg
      rw [Bool.or_eq_true, not_or] at hg
      exact ⟨row, hrow, by simpa using hg.2⟩

theorem opened_of_ok {α : Type} {f : File × MultipartUpload → Except Refusal α} {a : α}
    (h : (s.openUpload user id).bind f = .ok a) :
    ∃ row, s.files.lookup id = some row ∧ registeredByCaller user row.value = true := by
  cases ho : s.openUpload user id with
  | error refusal =>
    rw [ho] at h
    cases h
  | ok opened => exact openUpload_eq_ok ho

theorem Whole.withOpened (hs : Whole s) {signed : List (ℕ × ℕ)}
    (h : ∃ row, s.files.lookup id = some row ∧ registeredByCaller user row.value = true) :
    Whole { s with signed := signed, opened := (user, id) :: s.opened } :=
  { hs with
    opened := by
      intro who other hmem
      rcases List.mem_cons.mp hmem with heq | hold
      · obtain ⟨rfl, rfl⟩ := Prod.mk.inj heq
        exact h
      · exact hs.opened who other hold }

theorem session_eq_some {upload : Upload} (h : s.session id session = some upload) :
    s.uploads.lookup session.uploadId = some upload ∧ upload.file = id := by
  obtain ⟨hl, hf⟩ := Option.filter_eq_some_iff.mp h
  exact ⟨hl, of_decide_eq_true hf⟩

/-- `assemble` lets a request through to `CompleteUpload` at once only for a file that cannot be
completed in parts any more, and lists parts only for the registrant. -/
theorem assemble_sound (h : s.assemble task = .ok phase) :
    phase.Sound s.files s.objects task.user task.file := by
  unfold State.assemble at h
  split at h
  · rename_i hn
    cases h
    intro row hrow
    rw [hn] at hrow
    cases hrow
  · rename_i row hrow
    have hr : ¬ (row.value.multipart.isSome = true ∧ row.value.isLive = true ∧
        row.value.status = .uploaded) →
          Phase.reading.Sound s.files s.objects task.user task.file := by
      intro hnot found hf hm hl hu
      obtain rfl := Option.mem_unique hrow hf
      exact absurd ⟨hm, hl, hu⟩ hnot
    split at h
    · rename_i hs
      cases h
      exact hr (by simp [hs])
    · split_ifs at h with hc hca
      · cases h
        refine hr ?_
        rintro ⟨-, hl, hu⟩
        simp [hl, hu] at hc
      · cases h
        exact ⟨row, hrow, .refl _, by simpa using hca⟩

theorem checkListed_sound (ho : Opened s.files task.user task.file file)
    (h : s.checkListed task file session = .ok phase) :
    phase.Sound s.files s.objects task.user task.file := by
  unfold State.checkListed at h
  split at h
  · cases h
    exact ho
  · simp only at h
    split_ifs at h
    cases h
    exact ho

theorem sized_sound (hop : Opened s.files task.user task.file file)
    (ho : s.objects.lookup task.file = some file.sizeBytes) :
    Phase.reading.Sound s.files s.objects task.user task.file := by
  obtain ⟨row, hrow, hk, hc⟩ := hop
  intro found hf _ _ _
  obtain rfl := Option.mem_unique hrow hf
  rw [hk.size, registeredByCaller_kept hk]
  exact ⟨ho, hc⟩

theorem readFile_sound (hc : Phase.reading.Sound s.files s.objects task.user task.file)
    (h : s.readFile task = .ok phase) : phase.Sound s.files s.objects task.user task.file := by
  unfold State.readFile at h
  split at h
  · cases h
  · rename_i row hrow
    split at h
    · cases h
    · rename_i after ha
      cases h
      exact ⟨held_of_lookup hrow, ⟨_, ha⟩, hc row hrow⟩

theorem joinParts_whole {parts : List StoredPart} (hs : Whole s)
    (ho : Opened s.files task.user task.file file) :
    Whole (s.joinParts id task file session parts) := by
  have hsi : ∀ objects (refusal : Refusal) (phase : Phase),
      (.ok (.sizing file refusal) : Except Refusal Phase) = .ok phase →
      phase.Sound s.files objects task.user task.file := by
    intro objects refusal phase hp
    cases hp
    exact ho
  unfold State.joinParts
  split
  · exact hs.proceed (hsi _ _)
  · rename_i upload hu
    obtain ⟨hl, hfi⟩ := session_eq_some hu
    split
    · exact hs.proceed fun phase hp => by cases hp
    · rename_i size hsz
      have he : Whole { s with uploads := s.uploads.erase session.uploadId } := by
        refine hs.withUploads fun uploadId found hf => ?_
        exact ⟨found, (lookup_erase_iff.mp hf).2, rfl⟩
      have hj := he.object task.file size ?_ ?_
      · exact hj.proceed (hsi _ _)
      · intro uploadId found hf hsa
        obtain ⟨hne, hold⟩ := lookup_erase_iff.mp hf
        obtain ⟨row, one, hrow, hone, hid⟩ := hs.sessions uploadId found hold
        obtain ⟨row', other, hr, hot, hid'⟩ := hs.sessions _ upload hl
        rw [hsa, ← hfi] at hrow
        obtain rfl := Option.mem_unique hrow hr
        obtain rfl := Option.mem_unique hone hot
        exact hne (hid.symm.trans hid')
      · intro _ _ _
        rw [← hfi]
        exact hs.fresh _ upload hl

theorem saved_whole {read : Versioned File} {changed : Files} (hs : Whole s)
    (hp : (Phase.saving read after).Sound s.files s.objects task.user task.file)
    (hsa : save s.files task.file read after = some changed) :
    Whole { s with files := changed,
                   completed := (task.user, task.file) :: s.completed,
                   tasks := s.tasks.erase id } := by
  obtain ⟨hh, ⟨checksum, hc⟩, hcl⟩ := hp
  obtain ⟨hre, rfl⟩ := hh.save_eq_some hsa
  obtain ⟨hk, -⟩ := kept_complete hc
  obtain ⟨hl, hsc, ha⟩ := File.complete_eq_ok hc
  have hu : read.value.status = .uploaded := by
    rcases hs.status _ read hre with hu | hr
    · exact hu
    · rw [hr] at hsc
      cases hsc
  have hw := hs.write hre hk fun hm _ => by
    rw [hk.size]
    exact (hcl (by rwa [hk.multipart] at hm) hl hu).1
  exact { hw with
    phases := fun other found hf =>
      hw.phases other found (lookup_erase_iff.mp hf).2
    completed := by
      intro who other hmem
      rcases List.mem_cons.mp hmem with heq | hold
      · obtain ⟨rfl, rfl⟩ := Prod.mk.inj heq
        refine ⟨_, AList.lookup_insert _, fun hm => ?_⟩
        rw [registeredByCaller_kept hk]
        exact (hcl (by rwa [hk.multipart] at hm) hl hu).2
      · exact hw.completed who other hold }

/-- A completion's step leaves every ready file whole. -/
theorem advance_whole (hs : Whole s) (ht : s.tasks.lookup id = some task) :
    Whole (s.advance id task) := by
  have hp := hs.phases id task ht
  unfold State.advance
  split
  · exact hs.proceed fun phase h => assemble_sound h
  · rename_i file session heq
    rw [heq] at hp
    exact hs.proceed fun phase h => checkListed_sound hp h
  · rename_i file session parts heq
    rw [heq] at hp
    exact joinParts_whole hs hp
  · rename_i file refusal heq
    rw [heq] at hp
    refine hs.proceed fun phase h => ?_
    split_ifs at h with ho
    cases h
    exact sized_sound hp ho
  · rename_i heq
    rw [heq] at hp
    exact hs.proceed fun phase h => readFile_sound hp h
  · rename_i read after heq
    rw [heq] at hp
    split
    · exact hs.proceed fun phase h => by cases h
    · rename_i changed hsa
      exact saved_whole hs hp hsa

/-- Every ready file stays whole. -/
theorem step_whole {e : Event} (hs : Whole s) (h : step lower s e = some t) : Whole t := by
  cases e with
  | putPart uploadId number part =>
    simp only [step] at h
    split at h
    · cases h
    rename_i session hse
    split_ifs at h
    cases h
    refine hs.withUploads fun other upload hu => ?_
    rcases lookup_insert_iff.mp hu with ⟨rfl, rfl⟩ | ⟨-, hold⟩
    · exact ⟨session, hse, rfl⟩
    · exact ⟨upload, hold, rfl⟩
  | putObject file sizeBytes =>
    simp only [step] at h
    split at h
    · cases h
    rename_i row hrow
    split_ifs at h with hsi
    cases h
    rw [Option.isNone_iff_eq_none] at hsi
    refine hs.object file sizeBytes ?_ ?_
    · rintro uploadId upload hu rfl
      obtain ⟨found, session, hf, hse, -⟩ := hs.sessions uploadId upload hu
      obtain rfl := Option.mem_unique hrow hf
      rw [hsi] at hse
      cases hse
    · intro found hf hm
      obtain rfl := Option.mem_unique hrow hf
      rw [hsi] at hm
      cases hm
  | sign user file numbers =>
    simp only [step] at h
    split at h
    · cases h
      exact hs
    · rename_i parts hp
      cases h
      exact hs.withOpened (opened_of_ok hp)
  | progress user file =>
    simp only [step] at h
    split at h
    · cases h
      exact hs
    · rename_i parts hp
      cases h
      exact hs.withOpened (opened_of_ok hp)
  | complete id user file checksum =>
    simp only [step] at h
    split_ifs at h
    cases h
    exact { hs with
      phases := forall_insert
        (P := fun _ (u : Task) => u.phase.Sound s.files s.objects u.user u.file)
        trivial hs.phases }
  | next id =>
    obtain ⟨task, ht, rfl⟩ := Option.map_eq_some_iff.mp h
    exact advance_whole hs ht
  | joinUnanswered id =>
    simp only [step] at h
    split at h
    · cases h
    rename_i task ht
    split at h
    · rename_i file session parts hph
      cases h
      have hso := hs.phases id task ht
      rw [hph] at hso
      refine hs.proceed fun phase hok => ?_
      cases hok
      exact hso
    · cases h
  | fails id =>
    simp only [step] at h
    split_ifs at h
    cases h
    exact { hs with
      phases := fun other found hf =>
        hs.phases other found (lookup_erase_iff.mp hf).2 }
  | abort uploadId =>
    cases h
    exact hs.withUploads fun other found hf =>
      ⟨found, (lookup_erase_iff.mp hf).2, rfl⟩
  | edit file edit =>
    simp only [step] at h
    split at h
    · cases h
    rename_i row hrow
    split at h
    · cases h
      exact hs
    · rename_i after ha
      cases h
      obtain ⟨hk, hst⟩ := kept_edit ha
      refine hs.write hrow hk fun hm hr => ?_
      rw [hk.multipart] at hm
      rw [hst] at hr
      rw [hk.size]
      exact hs.ready file row hrow hm hr

theorem run_whole {events : List Event} (hr : Registered files uploads)
    (hrun : run (step lower) (start files uploads) events = some s) : Whole s :=
  run_invariant_of_step (fun _ _ _ hs hst => step_whole hs hst) hrun
    (start_whole hr)

end Invariant

/-- The expected sizes of the parts add up to the declared size, the check of the parts is exact,
and in every run a multipart file is ready only with an object of its declared size and is opened
and completed only by the user who registered it. -/
theorem multipart_files_are_whole {lower : Text → Text} {partBytes sizeBytes : ℕ}
    {files : Files} {uploads : AList fun _ : ℕ => Upload} {events : List Event} {s : State}
    (hpart : 1 ≤ partBytes) (hsize : 1 ≤ sizeBytes) (held : List StoredPart)
    (hregistered : Registered files uploads)
    (hrun : run (step lower) (start files uploads) events = some s) :
    (∃ sizes, (List.range' 1 (partCount partBytes sizeBytes)).mapM
        (expectedSize partBytes sizeBytes) = .ok sizes ∧
      sizes.length = partCount partBytes sizeBytes ∧
      (∀ size ∈ sizes, 1 ≤ size ∧ size ≤ partBytes) ∧ sizes.sum = sizeBytes) ∧
    ((checkParts partBytes sizeBytes (sizesOf held)).complete = true ↔
      ∀ number, 1 ≤ number → number ≤ partCount partBytes sizeBytes →
        ∃ size, heldSize held number = some size ∧
          expectedSize partBytes sizeBytes number = .ok size) ∧
    ∀ id row, s.files.lookup id = some row → row.value.multipart.isSome = true →
      (row.value.status = .ready → s.objects.lookup id = some row.value.sizeBytes) ∧
      ∀ user, (user, id) ∈ s.opened ∨ (user, id) ∈ s.completed →
        user.isSome = true ∧ row.value.uploadedBy = user := by
  refine ⟨expectedSizes_sum hpart hsize, checkParts_complete_iff held, ?_⟩
  intro id row hrow hm
  have hs := run_whole hregistered hrun
  refine ⟨hs.ready id row hrow hm, fun user hmem => ?_⟩
  have hc : registeredByCaller user row.value = true := by
    rcases hmem with ho | hco
    · obtain ⟨found, hf, hc⟩ := hs.opened user id ho
      obtain rfl := Option.mem_unique hrow hf
      exact hc
    · obtain ⟨found, hf, hc⟩ := hs.completed user id hco
      obtain rfl := Option.mem_unique hrow hf
      exact hc hm
  simpa [registeredByCaller] using hc

private def drawing : File :=
  { spaceId := some 1, name := ⟨ofString "plan.dwg", by decide +kernel⟩, sizeBytes := 5242881,
    checksum := none, status := .uploaded, uploadedBy := some 7, createdAt := 100,
    deletedAt := none, multipart := some ⟨1, minPartBytes, le_refl _⟩,
    tags := ⟨none, none, none⟩ }

private def oneDrawing : Files := AList.insert 1 ⟨drawing, 1⟩ ∅

private def oneSession : AList fun _ : ℕ => Upload := AList.insert 1 ⟨1, ∅⟩ ∅

private theorem registered_oneDrawing : Registered oneDrawing oneSession := by
  constructor
  · refine forall_insert rfl ?_
    intro id row h
    cases h
  · refine forall_insert ⟨_, _, rfl, rfl, rfl⟩ ?_
    intro id row h
    cases h

private def twoCompletions : List Event :=
  [.sign (some 7) 1 [2, 1], .putPart 1 2 ⟨1, 20⟩, .putPart 1 1 ⟨5242880, 10⟩,
    .sign (some 8) 1 [1], .complete 1 (some 8) 1 none, .next 1, .complete 2 (some 7) 1 none,
    .next 2, .next 2, .complete 3 (some 7) 1 none, .next 3, .next 3, .next 2, .next 3, .next 2,
    .next 2, .next 2, .next 3, .next 3]

theorem drawing_is_assembled :
    ∃ s, run (step id) (start oneDrawing oneSession) twoCompletions = some s ∧
      ((s.files.lookup 1).map (·.value.status) = some .ready ∧
        s.completed = [(some 7, 1)] ∧ s.opened = [(some 7, 1)] ∧ s.tasks.keys = []) ∧
      s.objects.lookup 1 = some 5242881 := by
  obtain ⟨s, hrun, ht⟩ := exists_run_of_any
    (p := fun s : State => (s.files.lookup 1).map (·.value) =
        some { drawing with status := .ready } ∧
      s.completed = [(some 7, 1)] ∧ s.opened = [(some 7, 1)] ∧ s.tasks.keys = [])
    (show (run (step id) (start oneDrawing oneSession) twoCompletions).any _ = true by
      decide +kernel)
  obtain ⟨hvalue, hl⟩ := of_decide_eq_true ht
  obtain ⟨row, hrow, hd⟩ := Option.map_eq_some_iff.mp hvalue
  have hw := (multipart_files_are_whole (le_refl 1) (le_refl 1) [] registered_oneDrawing
    hrun).2.2 1 row hrow (by rw [hd]; rfl)
  refine ⟨s, hrun, ⟨?_, hl⟩, ?_⟩
  · rw [hrow, Option.map_some, hd]
  · have ho := hw.1 (by rw [hd])
    rwa [hd] at ho

end Aizzak.MultipartUploads
