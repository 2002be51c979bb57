import Aizzak.EventRuns
import Aizzak.StoredFiles

/-!
Registrations of files under two ceilings: the files of the workspace and the bytes of a space.
A registration of a user holds the lock of the workspace from before its first read to its
commit, so what it has counted is still so when it inserts. The media worker counts and inserts
without the lock, each in a transaction of its own: it names no space and spends no bytes of
one, but a count that another insertion has overtaken lets it, or the other, past the ceiling.
-/
namespace Aizzak.SpaceQuota

open EventRuns KeyedTables VersionedRows PyText StoredFiles

structure Limits where
  allowedMime : List Text
  maxUploadBytes : ℕ
  maxSinglePutBytes : ℕ
  maxSpaceBytes : ℕ
  maxFilesPerWorkspace : ℕ
  multipartPartBytes : ℕ
  hpart : minPartBytes ≤ multipartPartBytes

inductive UploadMode where
  | single
  | multipart
deriving DecidableEq

structure Request where
  user : Option ℕ
  spaceId : Option ℕ
  name : Text
  contentType : Text
  sizeBytes : ℤ
  mode : UploadMode
  tags : FileTags

inductive Refusal where
  | invalidName (problem : FileError)
  | invalidContentType
  | unsupportedType
  | negativeSize
  | tooLarge
  | multipartRequired
  | emptyMultipart
  | spaceNotFound
  | tooManyFiles
  | quotaExceeded (left ceiling sizeBytes : ℤ)
deriving DecidableEq

def isMimeStart (c : CodePoint) : Bool :=
  (0x61 ≤ c.val && c.val ≤ 0x7A) || (0x30 ≤ c.val && c.val ≤ 0x39)

def isMimeRest (c : CodePoint) : Bool :=
  isMimeStart c || [0x21, 0x23, 0x24, 0x26, 0x5E, 0x5F, 0x2E, 0x2B, 0x2D].contains c.val

def isMimeToken : Text → Bool
  | [] => false
  | c :: rest => isMimeStart c && rest.all isMimeRest

def contentType (lower : Text → Text) (value : Text) : Option Text :=
  let normalized := lower (strip value)
  match normalized.splitOnP (·.val == 0x2F) with
  | [kind, subtype] => if isMimeToken kind && isMimeToken subtype then some normalized else none
  | _ => none

def validate (lower : Text → Text) (limits : Limits) (request : Request) :
    Except Refusal FileName :=
  match FileName.make request.name, contentType lower request.contentType with
  | .error problem, _ => .error (.invalidName problem)
  | .ok _, none => .error .invalidContentType
  | .ok name, some mediaType =>
    if ¬ limits.allowedMime.contains mediaType then .error .unsupportedType
    else if request.sizeBytes < 0 then .error .negativeSize
    else if limits.maxUploadBytes < request.sizeBytes then .error .tooLarge
    else if request.mode = .single ∧ limits.maxSinglePutBytes < request.sizeBytes then
      .error .multipartRequired
    else if request.mode = .multipart ∧ request.sizeBytes < 1 then .error .emptyMultipart
    else .ok name

def activeWeight (row : Versioned File) : ℕ := if row.value.isLive then 1 else 0

def spaceWeight (space : ℕ) (row : Versioned File) : ℕ :=
  if row.value.isLive && row.value.spaceId = some space then row.value.sizeBytes else 0

def count (files : Files) : ℕ := total activeWeight files

def bytesInSpace (files : Files) (space : ℕ) : ℕ := total (spaceWeight space) files

/-- The phases of a registration; the last ones are the media worker's, which stores the bytes
and completes the file itself. -/
inductive Phase where
  | waiting
  | locked
  | registering
  | counted (name : FileName)
  | storing (file : ℕ)
  | completing (file : ℕ)
  | saving (file : ℕ) (read : Versioned File) (after : File)

structure Task where
  request : Request
  locks : Bool
  checksum : Option Text
  phase : Phase

/-- The rows, the active spaces, who holds the lock of the workspace, and the registrations in
flight. -/
structure State where
  files : Files
  spaces : List ℕ
  holder : Option ℕ
  tasks : AList fun _ : ℕ => Task

def init : State := ⟨∅, [], none, ∅⟩

inductive Event where
  | setSpaces (spaces : List ℕ)
  | register (id : ℕ) (space : ℕ) (request : Request)
  | generate (id : ℕ) (user : Option ℕ) (name contentType : Text) (sizeBytes : ℕ)
      (checksum : Text)
  | next (id : ℕ) (newId now uploadId : ℕ)
  | fails (id : ℕ)
  | delete (file : ℕ) (now : ℕ)

namespace State

def finish (s : State) (id : ℕ) : State :=
  { s with
    holder := if s.holder = some id then none else s.holder
    tasks := s.tasks.erase id }

def proceed (s : State) (id : ℕ) (task : Task) : Except Refusal Phase → State
  | .ok phase => { s with tasks := s.tasks.insert id { task with phase := phase } }
  | .error _ => s.finish id

end State

section Machine

variable (lower : Text → Text) (limits : Limits)

def measure (s : State) (request : Request) : Except Refusal Phase :=
  match request.spaceId with
  | none => .error .spaceNotFound
  | some space =>
    if space ∉ s.spaces then .error .spaceNotFound
    else
      let used : ℤ := bytesInSpace s.files space
      let ceiling : ℤ := limits.maxSpaceBytes
      if request.sizeBytes ≤ limits.maxUploadBytes ∧ ceiling < used + request.sizeBytes then
        .error (.quotaExceeded (max (ceiling - used) 0) ceiling request.sizeBytes)
      else .ok .registering

def countFiles (s : State) (request : Request) : Except Refusal Phase :=
  match validate lower limits request with
  | .error refusal => .error refusal
  | .ok name =>
    if request.spaceId.any (· ∉ s.spaces) then .error .spaceNotFound
    else if limits.maxFilesPerWorkspace ≤ count s.files then .error .tooManyFiles
    else .ok (.counted name)

def newFile (request : Request) (name : FileName) (now uploadId : ℕ) : File :=
  { spaceId := request.spaceId
    name := name
    sizeBytes := request.sizeBytes.toNat
    checksum := none
    status := .uploaded
    uploadedBy := request.user
    createdAt := now
    deletedAt := none
    multipart :=
      if request.mode = .multipart then
        some ⟨uploadId, limits.multipartPartBytes, limits.hpart⟩
      else none
    tags := request.tags }

/-- The insert; the unit of work of a user's registration commits with it. -/
def insertFile (s : State) (id : ℕ) (task : Task) (newId : ℕ) (file : File) : State :=
  if task.locks then { s with files := s.files.insert newId ⟨file, 1⟩ }.finish id
  else { s with files := s.files.insert newId ⟨file, 1⟩ }.proceed id task (.ok (.storing newId))

def advance (s : State) (id : ℕ) (task : Task) (newId now uploadId : ℕ) : Option State :=
  match task.phase with
  | .waiting =>
    if s.holder = none then some ({ s with holder := some id }.proceed id task (.ok .locked))
    else none
  | .locked => some (s.proceed id task (measure limits s task.request))
  | .registering => some (s.proceed id task (countFiles lower limits s task.request))
  | .counted name =>
    if newId ∈ s.files then none
    else some (insertFile s id task newId (newFile limits task.request name now uploadId))
  | .storing file => some (s.proceed id task (.ok (.completing file)))
  | .completing file =>
    match s.files.lookup file with
    | none => some (s.finish id)
    | some row =>
      match row.value.complete task.checksum with
      | .error _ => some (s.finish id)
      | .ok after => some (s.proceed id task (.ok (.saving file row after)))
  | .saving file read after =>
    match save s.files file read after with
    | none => some (s.finish id)
    | some files => some ({ s with files := files }.finish id)

def step (s : State) : Event → Option State
  | .setSpaces spaces => some { s with spaces := spaces }
  | .register id space request =>
    if id ∈ s.tasks then none
    else some { s with
      tasks := s.tasks.insert id ⟨{ request with spaceId := some space }, true, none, .waiting⟩ }
  | .generate id user name contentType sizeBytes checksum =>
    if id ∈ s.tasks then none
    else some { s with
      tasks := s.tasks.insert id
        ⟨⟨user, none, name, contentType, sizeBytes, .single, ⟨none, none, none⟩⟩, false,
          some checksum, .registering⟩ }
  | .next id newId now uploadId =>
    match s.tasks.lookup id with
    | none => none
    | some task => advance lower limits s id task newId now uploadId
  | .fails id => if id ∈ s.tasks then some (s.finish id) else none
  | .delete file now =>
    match s.files.lookup file with
    | none => none
    | some row =>
      some { s with files := s.files.insert file ⟨row.value.softDelete now, row.version + 1⟩ }

end Machine

def Phase.isCounted : Phase → Bool
  | .counted _ => true
  | _ => false

/-- A registration other than the given one has counted the files and not inserted its own. -/
def State.overtaken (s : State) (id : ℕ) : Bool :=
  anyRow s.tasks fun other task => other ≠ id && task.phase.isCounted

/-- A file is inserted past another registration's count only when one more still fits. -/
def Room (limits : Limits) (s : State) : Event → Prop
  | .next id _ _ _ => (s.tasks.lookup id).any (·.phase.isCounted) = true →
      s.overtaken id = true → count s.files + 1 < limits.maxFilesPerWorkspace
  | _ => True

instance (limits : Limits) (s : State) : ∀ e, Decidable (Room limits s e)
  | .next _ _ _ _ => inferInstanceAs (Decidable (_ → _ → _))
  | .setSpaces _ | .register _ _ _ | .generate _ _ _ _ _ _ | .fails _ | .delete _ _ =>
    isTrue trivial

section Weights

variable {files : Files} {id space : ℕ} {row : Versioned File} {file : File}

structure Lightens (old new : File) : Prop where
  live : new.isLive = true → old.isLive = true
  space : new.spaceId = old.spaceId
  size : new.sizeBytes = old.sizeBytes

theorem lightens_softDelete (file : File) (now : ℕ) : Lightens file (file.softDelete now) := by
  refine ⟨fun h => ?_, ?_, ?_⟩
  · rw [File.softDelete_isLive] at h
    cases h
  · unfold File.softDelete
    split_ifs <;> rfl
  · unfold File.softDelete
    split_ifs <;> rfl

theorem lightens_complete {file after : File} {checksum : Option Text}
    (h : file.complete checksum = .ok after) : Lightens file after := by
  obtain ⟨hl, -, rfl⟩ := File.complete_eq_ok h
  exact ⟨fun _ => hl, rfl, rfl⟩

theorem total_le_of_insert {f : Versioned File → ℕ} {after : Versioned File}
    (hrow : files.lookup id = some row) (hle : f after ≤ f row) :
    total f (files.insert id after) ≤ total f files := by
  have hsum := total_insert_of_lookup (f := f) (a := after) hrow
  omega

variable {version : ℕ}

theorem count_write_le (hrow : files.lookup id = some row) (h : Lightens row.value file) :
    count (files.insert id ⟨file, version⟩) ≤ count files := by
  refine total_le_of_insert hrow ?_
  unfold activeWeight
  split_ifs with hnew hold
  · exact le_rfl
  · exact absurd (h.live hnew) hold
  · exact Nat.zero_le _
  · exact le_rfl

theorem bytes_write_le (hrow : files.lookup id = some row) (h : Lightens row.value file) :
    bytesInSpace (files.insert id ⟨file, version⟩) space ≤ bytesInSpace files space := by
  refine total_le_of_insert hrow ?_
  unfold spaceWeight
  rw [h.space, h.size]
  split_ifs with hnew hold
  · exact le_rfl
  · rw [Bool.and_eq_true] at hnew hold
    exact absurd ⟨h.live hnew.1, hnew.2⟩ hold
  · exact Nat.zero_le _
  · exact le_rfl

theorem count_insert (hid : id ∉ files) :
    count (files.insert id ⟨file, version⟩) ≤ count files + 1 := by
  rw [count, total_insert_of_notMem hid, ← count]
  unfold activeWeight
  split_ifs <;> omega

theorem bytes_insert (hid : id ∉ files) (hl : file.isLive = true) :
    bytesInSpace (files.insert id ⟨file, version⟩) space =
      (if file.spaceId = some space then file.sizeBytes else 0) + bytesInSpace files space := by
  rw [bytesInSpace, total_insert_of_notMem hid, ← bytesInSpace]
  simp [spaceWeight, hl]

end Weights

def Phase.holdsLock : Phase → Bool
  | .locked | .registering | .counted _ => true
  | _ => false

/-- What a registration rests on: a user's one holds the lock, and after its check the space has
room for its file; the media worker names no space. -/
structure Sound (limits : Limits) (files : Files) (holder : Option ℕ) (id : ℕ) (task : Task) :
    Prop where
  spaceless : task.locks = false → task.request.spaceId = none
  holder : task.locks = true → task.phase.holdsLock = true → holder = some id
  registering : task.locks = true → task.phase = .registering →
    ∀ space, task.request.spaceId = some space →
      task.request.sizeBytes ≤ limits.maxUploadBytes →
        bytesInSpace files space + task.request.sizeBytes ≤ limits.maxSpaceBytes
  counted : task.locks = true → task.phase.isCounted = true →
    ∀ space, task.request.spaceId = some space →
      bytesInSpace files space + task.request.sizeBytes.toNat ≤ limits.maxSpaceBytes
  saving : ∀ file read after, task.phase = .saving file read after →
    Held Lightens files file read ∧ Lightens read.value after

structure Capped (limits : Limits) (s : State) : Prop where
  tasks : ∀ id task, s.tasks.lookup id = some task → Sound limits s.files s.holder id task
  bytes : ∀ space, bytesInSpace s.files space ≤ limits.maxSpaceBytes

section Invariant

variable {lower : Text → Text} {limits : Limits} {s t : State} {e : Event} {id : ℕ} {task : Task}
  {files after : Files} {holder holder' : Option ℕ}

theorem init_capped : Capped limits init where
  tasks := fun _ _ h => by cases h
  bytes := fun _ => Nat.zero_le _

theorem Sound.mono (h : Sound limits files holder id task) (hg : Grows Lightens files after)
    (hk : task.locks = true → task.phase.holdsLock = true →
      holder' = some id ∧ ∀ space, bytesInSpace after space ≤ bytesInSpace files space) :
    Sound limits after holder' id task where
  spaceless := h.spaceless
  holder := fun hl hp => (hk hl hp).1
  registering := by
    intro hl hp space hsp hs
    have hle := (hk hl (by rw [hp]; rfl)).2 space
    have hr := h.registering hl hp space hsp hs
    omega
  counted := by
    intro hl hp space hsp
    have hh : task.phase.holdsLock = true := by
      cases hc : task.phase <;> simp_all [Phase.isCounted, Phase.holdsLock]
    have hle := (hk hl hh).2 space
    have hr := h.counted hl hp space hsp
    omega
  saving := fun file read new hp =>
    ⟨(h.saving file read new hp).1.grows hg, (h.saving file read new hp).2⟩

/-- Another registration is not in the phases in which the lock is held. -/
theorem holdsLock_unique {other : ℕ} {u : Task} (hs : Capped limits s)
    (hh : s.holder = some id) (hu : s.tasks.lookup other = some u) (hne : other ≠ id)
    (hl : u.locks = true) (hp : u.phase.holdsLock = true) : False := by
  have heq := (hs.tasks other u hu).holder hl hp
  rw [hh] at heq
  exact hne (Option.some.inj heq).symm

theorem Capped.finish (hs : Capped limits s) (id : ℕ) : Capped limits (s.finish id) where
  tasks := by
    intro other u hu
    obtain ⟨hne, hold⟩ := lookup_erase_iff.mp hu
    refine (hs.tasks other u hold).mono (.refl _) fun hl hp => ⟨?_, fun _ => le_rfl⟩
    have heq := (hs.tasks other u hold).holder hl hp
    have ho : s.holder ≠ some id := fun hh =>
      holdsLock_unique hs hh hold hne hl hp
    rw [State.finish, if_neg ho, heq]
  bytes := hs.bytes

theorem Capped.proceed {result : Except Refusal Phase} (hs : Capped limits s)
    (hr : ∀ phase, result = .ok phase →
      Sound limits s.files s.holder id { task with phase := phase }) :
    Capped limits (s.proceed id task result) := by
  cases result with
  | error refusal => exact hs.finish id
  | ok phase =>
    exact ⟨forall_insert (hr phase rfl) hs.tasks, hs.bytes⟩

theorem Capped.write {file : ℕ} {row : Versioned File} {new : File} (hs : Capped limits s)
    (hrow : s.files.lookup file = some row) (hnew : Lightens row.value new) :
    Capped limits { s with files := s.files.insert file ⟨new, row.version + 1⟩ } where
  tasks := fun other u hu => (hs.tasks other u hu).mono (.saved hrow hnew) fun hl hp =>
    ⟨(hs.tasks other u hu).holder hl hp, fun _ => bytes_write_le hrow hnew⟩
  bytes := fun space => (bytes_write_le hrow hnew).trans (hs.bytes space)

variable {request : Request}

theorem validate_sizeBytes {name : FileName} (h : validate lower limits request = .ok name) :
    0 ≤ request.sizeBytes ∧ request.sizeBytes ≤ limits.maxUploadBytes := by
  unfold validate at h
  split at h
  · cases h
  · cases h
  · split_ifs at h
    omega

variable {phase : Phase}

theorem measure_sound (ht : Sound limits s.files s.holder id task)
    (hp : task.phase = .locked) (h : measure limits s task.request = .ok phase) :
    Sound limits s.files s.holder id { task with phase := phase } := by
  unfold measure at h
  split at h
  · cases h
  · rename_i space hsp
    simp only at h
    split_ifs at h with ha hf
    cases h
    refine ⟨ht.spaceless, fun hl _ => ht.holder hl (by rw [hp]; rfl), ?_, ?_, ?_⟩
    · intro _ _ other ho hsi
      obtain rfl := Option.mem_unique hsp ho
      rw [not_and] at hf
      exact Int.not_lt.mp (hf hsi)
    · intro _ hc
      cases hc
    · intro _ _ _ hs
      cases hs

theorem countFiles_eq_ok (h : countFiles lower limits s request = .ok phase) :
    ∃ name, validate lower limits request = .ok name ∧ phase = .counted name ∧
      count s.files < limits.maxFilesPerWorkspace := by
  unfold countFiles at h
  split at h
  · cases h
  · rename_i name hn
    split_ifs at h with hs hf
    exact ⟨name, hn, (Except.ok.inj h).symm, by omega⟩

theorem countFiles_sound (ht : Sound limits s.files s.holder id task)
    (hp : task.phase = .registering) (h : countFiles lower limits s task.request = .ok phase) :
    Sound limits s.files s.holder id { task with phase := phase } := by
  obtain ⟨name, hna, rfl, -⟩ := countFiles_eq_ok h
  obtain ⟨hn, hsi⟩ := validate_sizeBytes hna
  refine ⟨ht.spaceless, fun hl _ => ht.holder hl (by rw [hp]; rfl), ?_, ?_, ?_⟩
  · intro _ hr
    cases hr
  · intro hl _ space hsp
    have hro := ht.registering hl hp space hsp hsi
    simp only
    omega
  · intro _ _ _ hs
    cases hs

/-- The phases of the media worker after its insert hold nothing. -/
theorem sound_of_stored (ht : Sound limits files holder id task)
    (hl : phase.holdsLock = false)
    (hs : ∀ file read after, phase = .saving file read after →
      Held Lightens files file read ∧ Lightens read.value after) :
    Sound limits files holder id { task with phase := phase } := by
  refine ⟨ht.spaceless, fun _ h => ?_, fun _ h => ?_, fun _ h => ?_, hs⟩
  · simp [hl] at h
  · obtain rfl : phase = .registering := h
    cases hl
  · cases phase <;> simp_all [Phase.isCounted, Phase.holdsLock]

variable {newId now uploadId : ℕ}

theorem insertFile_capped {name : FileName} (hs : Capped limits s)
    (ht : s.tasks.lookup id = some task) (hp : task.phase = .counted name)
    (hnew : newId ∉ s.files) :
    Capped limits (insertFile s id task newId (newFile limits task.request name now uploadId)) := by
  have hso := hs.tasks id task ht
  have hb : ∀ space, bytesInSpace
      (s.files.insert newId ⟨newFile limits task.request name now uploadId, 1⟩) space =
      (if task.request.spaceId = some space then task.request.sizeBytes.toNat else 0) +
        bytesInSpace s.files space := fun space => bytes_insert hnew rfl
  unfold insertFile
  split_ifs with hl
  · have hh := hso.holder hl (by rw [hp]; rfl)
    constructor
    · intro other u hu
      obtain ⟨hne, hold⟩ := lookup_erase_iff.mp hu
      refine (hs.tasks other u hold).mono (.added hnew) fun hul hup => ?_
      exact (holdsLock_unique hs hh hold hne hul hup).elim
    · intro space
      have hold := hs.bytes space
      have hsum := hb space
      simp only [State.finish]
      split_ifs at hsum with hsc
      · have hr := hso.counted hl (by rw [hp]; rfl) space hsc
        omega
      · omega
  · have hsp := hso.spaceless (by simpa using hl)
    have hsm : ∀ space, bytesInSpace
        (s.files.insert newId ⟨newFile limits task.request name now uploadId, 1⟩) space =
        bytesInSpace s.files space := by
      intro space
      rw [hb, hsp]
      simp
    have hold : ∀ other u, s.tasks.lookup other = some u →
        Sound limits (s.files.insert newId ⟨newFile limits task.request name now uploadId, 1⟩)
          s.holder other u := by
      intro other u hu
      refine (hs.tasks other u hu).mono (.added hnew) fun hul hup => ?_
      exact ⟨(hs.tasks other u hu).holder hul hup, fun space => (hsm space).le⟩
    constructor
    · refine forall_insert (sound_of_stored (hold id task ht) rfl ?_) hold
      intro _ _ _ hsa
      cases hsa
    · intro space
      exact (hsm space).trans_le (hs.bytes space)

/-- A registration's step keeps the space within its quota. -/
theorem advance_capped (hs : Capped limits s) (ht : s.tasks.lookup id = some task)
    (h : advance lower limits s id task newId now uploadId = some t) : Capped limits t := by
  have hso := hs.tasks id task ht
  unfold advance at h
  split at h
  · rename_i hp
    split_ifs at h with hfr
    cases h
    have hf : ∀ other u, s.tasks.lookup other = some u →
        Sound limits s.files (some id) other u := by
      intro other u hu
      refine (hs.tasks other u hu).mono (.refl _) fun hlo hho => ?_
      have hh := (hs.tasks other u hu).holder hlo hho
      rw [hfr] at hh
      cases hh
    refine ⟨forall_insert ?_ hf, hs.bytes⟩
    refine ⟨hso.spaceless, fun _ _ => rfl, fun _ hc => ?_, fun _ hc => ?_,
      fun _ _ _ hc => ?_⟩ <;> cases hc
  · rename_i hp
    cases h
    exact hs.proceed fun phase hok => measure_sound hso hp hok
  · rename_i hp
    cases h
    exact hs.proceed fun phase hok => countFiles_sound hso hp hok
  · rename_i name hp
    split_ifs at h with hnew
    cases h
    exact insertFile_capped hs ht hp hnew
  · cases h
    refine hs.proceed fun phase hok => ?_
    cases hok
    exact sound_of_stored hso rfl fun _ _ _ hsa => by cases hsa
  · split at h
    · cases h
      exact hs.finish id
    · rename_i row hrow
      split at h
      · cases h
        exact hs.finish id
      · rename_i new hnew
        cases h
        refine hs.proceed fun phase hok => ?_
        cases hok
        refine sound_of_stored hso rfl fun _ _ _ hsa => ?_
        cases hsa
        exact ⟨held_of_lookup hrow, lightens_complete hnew⟩
  · rename_i file read new hp
    split at h
    · cases h
      exact hs.finish id
    · rename_i changed hsv
      cases h
      obtain ⟨hhe, hl⟩ := hso.saving file read new hp
      obtain ⟨hr, rfl⟩ := hhe.save_eq_some hsv
      exact (hs.write hr hl).finish id

/-- Every space stays within its quota. -/
theorem step_capped (hs : Capped limits s) (h : step lower limits s e = some t) :
    Capped limits t := by
  cases e with
  | setSpaces spaces =>
    cases h
    exact ⟨hs.tasks, hs.bytes⟩
  | register id space request =>
    simp only [step] at h
    split_ifs at h
    cases h
    refine ⟨forall_insert ?_ hs.tasks, hs.bytes⟩
    refine ⟨fun hc => ?_, fun _ hc => ?_, fun _ hc => ?_, fun _ hc => ?_,
      fun _ _ _ hc => ?_⟩ <;> cases hc
  | generate id user name contentType sizeBytes checksum =>
    simp only [step] at h
    split_ifs at h
    cases h
    refine ⟨forall_insert ?_ hs.tasks, hs.bytes⟩
    refine ⟨fun _ => rfl, fun hc => ?_, fun hc => ?_, fun hc => ?_,
      fun _ _ _ hc => ?_⟩ <;> cases hc
  | next id newId now uploadId =>
    simp only [step] at h
    split at h
    · cases h
    · rename_i task ht
      exact advance_capped hs ht h
  | fails id =>
    simp only [step] at h
    split_ifs at h
    cases h
    exact hs.finish id
  | delete file now =>
    simp only [step] at h
    split at h
    · cases h
    · rename_i row hrow
      cases h
      exact hs.write hrow (lightens_softDelete _ _)

inductive Counting (limits : Limits) (s : State) (e : Event) (t : State) : Prop where
  | added {id newId now uploadId : ℕ} {task : Task} (he : e = .next id newId now uploadId)
      (htask : s.tasks.lookup id = some task) (hphase : task.phase.isCounted = true)
      (hcount : count t.files ≤ count s.files + 1)
      (hothers : ∀ other u, t.tasks.lookup other = some u → u.phase.isCounted = true →
        other ≠ id ∧ s.tasks.lookup other = some u)
  | kept (hcount : count t.files ≤ count s.files)
      (hcounted : ∀ other u, t.tasks.lookup other = some u → u.phase.isCounted = true →
        s.tasks.lookup other = some u ∨ count t.files < limits.maxFilesPerWorkspace)

theorem counting_finish {changed : Files} (hc : count changed ≤ count s.files) :
    Counting limits s e ({ s with files := changed }.finish id) :=
  .kept hc fun _ _ hu _ => .inl (lookup_erase_iff.mp hu).2

theorem counting_proceed {result : Except Refusal Phase}
    (hr : ∀ phase, result = .ok phase → phase.isCounted = true →
      count s.files < limits.maxFilesPerWorkspace) :
    Counting limits s e (s.proceed id task result) := by
  cases result with
  | error refusal => exact counting_finish le_rfl
  | ok phase =>
    refine .kept le_rfl fun other u hu hc => ?_
    rcases lookup_insert_iff.mp hu with ⟨rfl, rfl⟩ | ⟨-, hold⟩
    · exact .inr (hr phase rfl hc)
    · exact .inl hold

theorem measure_eq_ok (h : measure limits s request = .ok phase) : phase = .registering := by
  unfold measure at h
  split at h
  · cases h
  · simp only at h
    split_ifs at h
    exact (Except.ok.inj h).symm

theorem counting_insertFile {file : File} (he : e = .next id newId now uploadId)
    (ht : s.tasks.lookup id = some task) (hp : task.phase.isCounted = true)
    (hnew : newId ∉ s.files) :
    Counting limits s e (insertFile s id task newId file) := by
  unfold insertFile
  split_ifs
  · refine .added he ht hp (count_insert hnew) fun other u hu _ => ?_
    exact lookup_erase_iff.mp hu
  · refine .added he ht hp (count_insert hnew) fun other u hu hc => ?_
    rcases lookup_insert_iff.mp hu with ⟨rfl, rfl⟩ | hold
    · cases hc
    · exact hold

theorem counting_advance (hs : Capped limits s) (he : e = .next id newId now uploadId)
    (ht : s.tasks.lookup id = some task)
    (h : advance lower limits s id task newId now uploadId = some t) :
    Counting limits s e t := by
  unfold advance at h
  split at h
  · split_ifs at h
    cases h
    refine .kept le_rfl fun other u hu hc => ?_
    rcases lookup_insert_iff.mp hu with ⟨rfl, rfl⟩ | ⟨-, hold⟩
    · cases hc
    · exact .inl hold
  · cases h
    refine counting_proceed fun phase hok hc => ?_
    obtain rfl := measure_eq_ok hok
    cases hc
  · cases h
    refine counting_proceed fun phase hok _ => ?_
    obtain ⟨-, -, -, hr⟩ := countFiles_eq_ok hok
    exact hr
  · rename_i name hp
    split_ifs at h with hnew
    cases h
    exact counting_insertFile he ht (by rw [hp]; rfl) hnew
  · cases h
    refine counting_proceed fun phase hok hc => ?_
    cases hok
    cases hc
  · split at h
    · cases h
      exact counting_finish le_rfl
    · split at h
      · cases h
        exact counting_finish le_rfl
      · cases h
        refine counting_proceed fun phase hok hc => ?_
        cases hok
        cases hc
  · rename_i file read new hp
    split at h
    · cases h
      exact counting_finish le_rfl
    · rename_i changed hsa
      cases h
      obtain ⟨hh, hl⟩ := (hs.tasks id task ht).saving file read new hp
      obtain ⟨hre, rfl⟩ := hh.save_eq_some hsa
      exact counting_finish (count_write_le hre hl)

/-- A step counts a file in only with room for it. -/
theorem step_counting (hs : Capped limits s) (h : step lower limits s e = some t) :
    Counting limits s e t := by
  cases e with
  | setSpaces spaces =>
    cases h
    exact .kept le_rfl fun _ _ hu _ => .inl hu
  | register id space request =>
    simp only [step] at h
    split_ifs at h
    cases h
    refine .kept le_rfl fun other u hu hc => ?_
    rcases lookup_insert_iff.mp hu with ⟨rfl, rfl⟩ | ⟨-, hold⟩
    · cases hc
    · exact .inl hold
  | generate id user name contentType sizeBytes checksum =>
    simp only [step] at h
    split_ifs at h
    cases h
    refine .kept le_rfl fun other u hu hc => ?_
    rcases lookup_insert_iff.mp hu with ⟨rfl, rfl⟩ | ⟨-, hold⟩
    · cases hc
    · exact .inl hold
  | next id newId now uploadId =>
    simp only [step] at h
    split at h
    · cases h
    · rename_i task ht
      exact counting_advance hs rfl ht h
  | fails id =>
    simp only [step] at h
    split_ifs at h
    cases h
    exact counting_finish le_rfl
  | delete file now =>
    simp only [step] at h
    split at h
    · cases h
    · rename_i row hrow
      cases h
      exact .kept (count_write_le hrow (lightens_softDelete _ _)) fun _ _ hu _ => .inl hu

structure Filled (limits : Limits) (s : State) : Prop where
  capped : Capped limits s
  count : count s.files ≤ limits.maxFilesPerWorkspace
  counted : ∀ id task, s.tasks.lookup id = some task → task.phase.isCounted = true →
    SpaceQuota.count s.files < limits.maxFilesPerWorkspace

theorem init_filled : Filled limits init where
  capped := init_capped
  count := Nat.zero_le _
  counted := fun _ _ h => by cases h

theorem step_filled (hs : Filled limits s) (hr : Room limits s e)
    (h : step lower limits s e = some t) : Filled limits t := by
  have hc := step_capped hs.capped h
  cases step_counting hs.capped h with
  | added he ht hp hcn hot =>
    rename_i id newId now uploadId task
    have hb := hs.counted id task ht hp
    refine ⟨hc, by omega, fun other u hu hco => ?_⟩
    obtain ⟨hne, hold⟩ := hot other u hu hco
    rw [he] at hr
    have ho : s.overtaken id = true :=
      anyRow_eq_true_iff.mpr ⟨other, u, hold, by simp [hne, hco]⟩
    have hl := hr (by rw [ht]; exact hp) ho
    omega
  | kept hcn hco =>
    have hb := hs.count
    refine ⟨hc, by omega, fun other u hu hp => ?_⟩
    rcases hco other u hu hp with hold | hl
    · have hold := hs.counted other u hold hp
      omega
    · exact hl

/-- In every run the active files of a space fit its ceiling, and where no insertion overtakes
the count of another registration at the last place, those of the workspace fit theirs. -/
theorem ceilings_hold {events : List Event}
    (hrun : run (step lower limits) init events = some s) :
    (∀ space, bytesInSpace s.files space ≤ limits.maxSpaceBytes) ∧
      (Guarded (step lower limits) (Room limits) init events →
        count s.files ≤ limits.maxFilesPerWorkspace) := by
  constructor
  · exact (run_invariant_of_step (fun _ _ _ hs hst => step_capped hs hst) hrun
      init_capped).bytes
  · intro hg
    exact (run_invariant (fun _ _ _ hs hr hst => step_filled hs hr hst) hg hrun
      init_filled).count

end Invariant

private def oneFile : Limits :=
  { allowedMime := [ofString "image/png"], maxUploadBytes := 100, maxSinglePutBytes := 100,
    maxSpaceBytes := 100, maxFilesPerWorkspace := 1, multipartPartBytes := minPartBytes,
    hpart := le_refl _ }

private def generated (id : ℕ) : Event :=
  .generate id (some 7) (ofString "generated.png") (ofString "image/png") 10 (ofString "0a")

/-- Two images are generated at once: both count no file, and both are inserted. -/
theorem two_images_in_one_place :
    ∃ s, run (step id oneFile) init
        [generated 1, generated 2, .next 1 0 0 0, .next 2 0 0 0, .next 1 1 100 0,
          .next 2 2 100 0] = some s ∧
      oneFile.maxFilesPerWorkspace < count s.files := by
  obtain ⟨s, hrun, ht⟩ := exists_run_of_any
    (p := fun s : State => oneFile.maxFilesPerWorkspace < count s.files)
    (show (run (step id oneFile) init [generated 1, generated 2, .next 1 0 0 0, .next 2 0 0 0,
      .next 1 1 100 0, .next 2 2 100 0]).any _ = true by decide +kernel)
  exact ⟨s, hrun, of_decide_eq_true ht⟩

private def uploaded : Request :=
  { user := some 7, spaceId := none, name := ofString "a.png", contentType := ofString "image/png",
    sizeBytes := 60, mode := .single, tags := ⟨none, none, none⟩ }

/-- A user's registration, and the next one refused. -/
theorem one_upload_in_one_place :
    ∃ s, run (step id oneFile) init
        [.setSpaces [5], .register 1 5 uploaded, .register 2 5 uploaded, .next 1 0 0 0,
          .next 1 0 0 0, .next 1 0 0 0, .next 1 1 100 0, .next 2 0 0 0, .next 2 0 0 0] = some s ∧
      s.tasks.keys = [] ∧ (∀ space, bytesInSpace s.files space ≤ oneFile.maxSpaceBytes) ∧
      count s.files ≤ oneFile.maxFilesPerWorkspace := by
  obtain ⟨s, hrun, ht⟩ := exists_run_of_any (p := fun s : State => s.tasks.keys = [])
    (show (run (step id oneFile) init [.setSpaces [5], .register 1 5 uploaded,
      .register 2 5 uploaded, .next 1 0 0 0, .next 1 0 0 0, .next 1 0 0 0, .next 1 1 100 0,
      .next 2 0 0 0, .next 2 0 0 0]).any _ = true by decide +kernel)
  obtain ⟨hb, hc⟩ := ceilings_hold hrun
  exact ⟨s, hrun, of_decide_eq_true ht, hb, hc (by decide +kernel)⟩

end Aizzak.SpaceQuota
