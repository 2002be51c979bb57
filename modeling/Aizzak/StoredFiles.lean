import Aizzak.PyText
import Aizzak.VersionedRows

/-!
The `File` aggregate and its rows. A file is registered `uploaded`, becomes `ready` when it is
completed and is marked deleted in the end; its name and tags may be changed while it is live,
and every save names the version it was read at. A live file is a namesake of a newer one
when space, name up to case and normal form, and tags are the same.
-/
namespace Aizzak.StoredFiles

open KeyedTables VersionedRows PyText

inductive FileStatus where
  | uploaded
  | scanning
  | ready
  | quarantined
deriving DecidableEq

def FileStatus.isScannable : FileStatus → Bool
  | .uploaded | .scanning => true
  | .ready | .quarantined => false

inductive FileError where
  | nameEmpty
  | nameTooLong
  | nameControlCharacter
  | extensionCannotChange (expected : Text)
  | mayNotAddExtension
  | cannotComplete (status : FileStatus)
  | isDeleted
deriving DecidableEq

def maxNameLen : ℕ := 255

def isSlash (c : CodePoint) : Bool := c.val == 0x2F || c.val == 0x5C

def isControl (c : CodePoint) : Bool := c.val ≤ 0x1F || c.val == 0x7F

def isDot (c : CodePoint) : Bool := c.val == 0x2E

def nameProblem (basename : Text) : Option FileError :=
  if basename = [] then some .nameEmpty
  else if maxNameLen < basename.length then some .nameTooLong
  else if basename.any isControl then some .nameControlCharacter
  else none

structure FileName where
  value : Text
  hvalue : nameProblem value = none
deriving DecidableEq

def FileName.make (value : Text) : Except FileError FileName :=
  let basename := strip (value.rtakeWhile (!isSlash ·))
  match h : nameProblem basename with
  | some problem => .error problem
  | none => .ok ⟨basename, h⟩

/-- The extension with its dot; a leading or a trailing dot begins none. -/
def FileName.extension (name : FileName) : Text :=
  let dot := name.value.length - (name.value.rtakeWhile (!isDot ·)).length - 1
  if dot = 0 ∨ dot = name.value.length - 1 then [] else name.value.drop dot

structure FileTags where
  system : Option Text
  equipment : Option Text
  department : Option Text
deriving DecidableEq

def minPartBytes : ℕ := 5242880

structure MultipartUpload where
  uploadId : ℕ
  partBytes : ℕ
  hpart : minPartBytes ≤ partBytes
deriving DecidableEq

structure File where
  spaceId : Option ℕ
  name : FileName
  sizeBytes : ℕ
  checksum : Option Text
  status : FileStatus
  uploadedBy : Option ℕ
  createdAt : ℕ
  deletedAt : Option ℕ
  multipart : Option MultipartUpload
  tags : FileTags
deriving DecidableEq

namespace File

def isLive (file : File) : Bool := file.deletedAt.isNone

def isReady (file : File) : Bool := file.status = .ready && file.isLive

def guardNotDeleted (file : File) : Except FileError Unit :=
  if file.deletedAt.isSome then .error .isDeleted else .ok ()

def complete (file : File) (checksum : Option Text) : Except FileError File := do
  file.guardNotDeleted
  if file.status.isScannable then .ok { file with status := .ready, checksum := checksum }
  else .error (.cannotComplete file.status)

/-- A name without an extension inherits the present one; no other extension is accepted. -/
def renamedTo (lower : Text → Text) (file : File) (newName : FileName) :
    Except FileError FileName :=
  let current := file.name.extension
  if lower newName.extension ≠ lower current then
    if newName.extension ≠ [] then
      .error (if current ≠ [] then .extensionCannotChange current else .mayNotAddExtension)
    else FileName.make (newName.value ++ current)
  else .ok newName

def rename (lower : Text → Text) (file : File) (newName : FileName) : Except FileError File := do
  file.guardNotDeleted
  let name ← file.renamedTo lower newName
  .ok { file with name := name }

def retag (file : File) (tags : FileTags) : Except FileError File := do
  file.guardNotDeleted
  .ok { file with tags := tags }

def softDelete (file : File) (now : ℕ) : File :=
  if file.deletedAt.isSome then file else { file with deletedAt := some now }

variable {file : File}

theorem guardNotDeleted_eq_ok {done : Unit} :
    file.guardNotDeleted = .ok done ↔ file.isLive = true := by
  unfold guardNotDeleted isLive
  cases file.deletedAt <;> simp

variable {after : File}

theorem guarded_eq_ok {moved : Except FileError File}
    (h : (do file.guardNotDeleted; moved) = .ok after) :
    file.isLive = true ∧ moved = .ok after := by
  cases hg : file.guardNotDeleted with
  | error problem =>
    rw [hg] at h
    cases h
  | ok done =>
    rw [hg] at h
    exact ⟨guardNotDeleted_eq_ok.mp hg, h⟩

theorem complete_eq_ok {checksum : Option Text} (h : file.complete checksum = .ok after) :
    file.isLive = true ∧ file.status.isScannable = true ∧
      after = { file with status := .ready, checksum := checksum } := by
  obtain ⟨hl, hm⟩ := guarded_eq_ok h
  split_ifs at hm with hs
  exact ⟨hl, hs, (Except.ok.inj hm).symm⟩

theorem rename_eq_ok {lower : Text → Text} {newName : FileName}
    (h : file.rename lower newName = .ok after) :
    file.isLive = true ∧ ∃ name, after = { file with name := name } := by
  obtain ⟨hl, hm⟩ := guarded_eq_ok h
  cases hn : file.renamedTo lower newName with
  | error problem =>
    rw [hn] at hm
    cases hm
  | ok name =>
    rw [hn] at hm
    exact ⟨hl, name, (Except.ok.inj hm).symm⟩

theorem retag_eq_ok {tags : FileTags} (h : file.retag tags = .ok after) :
    file.isLive = true ∧ after = { file with tags := tags } := by
  obtain ⟨hl, hm⟩ := guarded_eq_ok h
  exact ⟨hl, (Except.ok.inj hm).symm⟩

theorem softDelete_isLive (file : File) (now : ℕ) : (file.softDelete now).isLive = false := by
  unfold softDelete isLive
  split_ifs with hd
  · simpa using hd
  · rfl

/-- What every transition keeps: where and when the file was registered, that it is ready, and
the whole file once it is deleted. -/
structure Succeeds (old new : File) : Prop where
  space : new.spaceId = old.spaceId
  created : new.createdAt = old.createdAt
  ready : old.status = .ready → new.status = .ready
  deleted : old.isLive = false → new = old

theorem succeeds_of_live {old new : File} (hl : old.isLive = true)
    (hs : new.spaceId = old.spaceId) (hc : new.createdAt = old.createdAt)
    (hr : old.status = .ready → new.status = .ready) : Succeeds old new := by
  refine ⟨hs, hc, hr, fun hd => ?_⟩
  rw [hl] at hd
  cases hd

theorem succeeds_softDelete (file : File) (now : ℕ) : Succeeds file (file.softDelete now) := by
  unfold softDelete
  split_ifs with hd
  · exact ⟨rfl, rfl, id, fun _ => rfl⟩
  · refine succeeds_of_live ?_ rfl rfl id
    simpa [isLive] using hd

end File

def registeredByCaller (user : Option ℕ) (file : File) : Bool :=
  user.isSome && file.uploadedBy = user

abbrev Files := AList fun _ : ℕ => Versioned File

def Older (id : ℕ) (file : File) (otherId : ℕ) (other : File) : Prop :=
  file.createdAt < other.createdAt ∨ (file.createdAt = other.createdAt ∧ id < otherId)

instance (id : ℕ) (file : File) (otherId : ℕ) (other : File) :
    Decidable (Older id file otherId other) :=
  inferInstanceAs (Decidable (_ ∨ _))

section Namesakes

variable (nameKey : Text → Text)

/-- The newer file replaces the other: strictly newer, in the same space, under the same
normalised name and the same tags. -/
structure Replaces (id : ℕ) (file : File) (olderId : ℕ) (older : File) : Prop where
  before : Older olderId older id file
  space : older.spaceId = file.spaceId
  name : nameKey older.name.value = nameKey file.name.value
  tags : older.tags = file.tags

instance (id : ℕ) (file : File) (olderId : ℕ) (older : File) :
    Decidable (Replaces nameKey id file olderId older) :=
  decidable_of_iff (Older olderId older id file ∧ older.spaceId = file.spaceId ∧
      nameKey older.name.value = nameKey file.name.value ∧ older.tags = file.tags)
    ⟨fun h => ⟨h.1, h.2.1, h.2.2.1, h.2.2.2⟩, fun h => ⟨h.before, h.space, h.name, h.tags⟩⟩

structure SameLabel (old new : File) : Prop where
  space : new.spaceId = old.spaceId
  created : new.createdAt = old.createdAt
  name : nameKey new.name.value = nameKey old.name.value
  tags : new.tags = old.tags

def liveNamesakes (files : Files) (id : ℕ) (file : File) : List ℕ :=
  files.keys.filter fun key =>
    (files.lookup key).any fun row => row.value.isLive && Replaces nameKey id file key row.value

variable {nameKey} {files : Files} {id key : ℕ} {file : File}

theorem SameLabel.refl (file : File) : SameLabel nameKey file file := ⟨rfl, rfl, rfl, rfl⟩

theorem SameLabel.trans {old mid new : File} (h : SameLabel nameKey old mid)
    (h' : SameLabel nameKey mid new) : SameLabel nameKey old new :=
  ⟨h'.space.trans h.space, h'.created.trans h.created, h'.name.trans h.name, h'.tags.trans h.tags⟩

theorem Replaces.of_sameLabel {file' old old' : File} (h : Replaces nameKey id file key old)
    (hnew : SameLabel nameKey file file') (hold : SameLabel nameKey old old') :
    Replaces nameKey id file' key old' := by
  refine ⟨?_, ?_, ?_, ?_⟩
  · have hb := h.before
    unfold Older at hb ⊢
    rwa [hnew.created, hold.created]
  · rw [hold.space, h.space, hnew.space]
  · rw [hold.name, h.name, hnew.name]
  · rw [hold.tags, h.tags, hnew.tags]

/-- The namesakes are the live files it replaces. -/
theorem mem_liveNamesakes :
    key ∈ liveNamesakes nameKey files id file ↔
      ∃ row, files.lookup key = some row ∧ row.value.isLive = true ∧
        Replaces nameKey id file key row.value := by
  unfold liveNamesakes
  rw [List.mem_filter, Option.any_eq_true]
  constructor
  · rintro ⟨-, row, hrow, ht⟩
    rw [Bool.and_eq_true, decide_eq_true_eq] at ht
    exact ⟨row, hrow, ht.1, ht.2⟩
  · rintro ⟨row, hrow, hl, hr⟩
    refine ⟨AList.mem_keys.mp (mem_of_lookup hrow), row, hrow, ?_⟩
    rw [Bool.and_eq_true, decide_eq_true_eq]
    exact ⟨hl, hr⟩

end Namesakes

end Aizzak.StoredFiles
