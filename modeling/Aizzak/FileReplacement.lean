import Aizzak.EventRuns
import Aizzak.StoredFiles

/-!
Completing, renaming and re-tagging a file, each followed by a sweep of the files it replaces.
The operation commits first; the sweep then reads the file again, lists its live namesakes and
deletes them one after another, each in transactions of its own. Nothing is looked at a second
time: an erasure finds its replacement as the sweep saw it as long as neither of the two has been
deleted, renamed or re-tagged since.
-/
namespace Aizzak.FileReplacement

open EventRuns KeyedTables VersionedRows PyText StoredFiles

inductive Operation where
  | complete (checksum : Option Text)
  | rename (name : FileName)
  | retag (tags : FileTags)

inductive Deletion where
  | reading
  | marking (read : Versioned File)
  | purgingKnowledge
  | purgingElectrical

inductive Phase where
  | assembling (checksum : Option Text)
  | reading (operation : Operation)
  | saving (operation : Operation) (read : Versioned File) (file : File)
  | sweeping
  | listing (newcomer : Versioned File)
  | erasing (older : ℕ) (rest : List ℕ) (deletion : Deletion)
  | deleting (deletion : Deletion)

def Phase.isListing : Phase → Bool
  | .listing _ => true
  | _ => false

structure Task where
  user : Option ℕ
  file : ℕ
  phase : Phase

structure State where
  files : Files
  objects : AList fun _ : ℕ => ℕ
  tasks : AList fun _ : ℕ => Task

def init : State := ⟨∅, ∅, ∅⟩

inductive Event where
  | register (id : ℕ) (file : File)
  | store (id : ℕ) (sizeBytes : ℕ)
  | request (id : ℕ) (user : Option ℕ) (file : ℕ) (operation : Operation)
  | delete (id : ℕ) (user : Option ℕ) (file : ℕ)
  | next (id : ℕ) (now : ℕ)
  | listed (id : ℕ) (found : List ℕ)
  | fails (id : ℕ)
  | crash (id : ℕ)

namespace Operation

def start : Operation → Phase
  | .complete checksum => .assembling checksum
  | operation => .reading operation

def apply (lower : Text → Text) (file : File) : Operation → Except FileError File
  | .complete checksum => file.complete checksum
  | .rename name => file.rename lower name
  | .retag tags => file.retag tags

def writes (read file : File) : Operation → Bool
  | .complete _ => true
  | .rename _ => file.name.value ≠ read.name.value
  | .retag _ => file.tags ≠ read.tags

/-- A completion always sweeps, the other two only for a ready file. -/
def sweeps (file : File) : Operation → Bool
  | .complete _ => true
  | .rename _ | .retag _ => file.status = .ready

end Operation

def State.assembled (s : State) (task : Task) : Bool :=
  match s.files.lookup task.file with
  | none => true
  | some row =>
    !row.value.isLive || row.value.multipart.isNone || row.value.status ≠ .uploaded ||
      (registeredByCaller task.user row.value &&
        s.objects.lookup task.file = some row.value.sizeBytes)

def eraseNext : List ℕ → Option Phase
  | [] => none
  | older :: rest => some (.erasing older rest .reading)

namespace Task

def write (task : Task) (now : ℕ) : Option (ℕ × Versioned File × File) :=
  match task.phase with
  | .saving _ read file => some (task.file, read, file)
  | .erasing older _ (.marking read) => some (older, read, read.value.softDelete now)
  | .deleting (.marking read) => some (task.file, read, read.value.softDelete now)
  | _ => none

def afterWrite (task : Task) : Option Phase :=
  match task.phase with
  | .saving operation _ file => if operation.sweeps file then some .sweeping else none
  | .erasing older rest _ => some (.erasing older rest .purgingKnowledge)
  | .deleting _ => some (.deleting .purgingKnowledge)
  | _ => none

/-- An exception ends a request; in the deletions of a sweep it is logged. -/
def afterFailure (task : Task) : Option Phase :=
  match task.phase with
  | .erasing _ rest _ => eraseNext rest
  | _ => none

end Task

def State.read (lower : Text → Text) (s : State) (task : Task) : Option Phase :=
  match task.phase with
  | .assembling checksum =>
    if s.assembled task then some (.reading (.complete checksum)) else none
  | .reading operation =>
    match s.files.lookup task.file with
    | none => none
    | some row =>
      match operation.apply lower row.value with
      | .error _ => none
      | .ok file =>
        if operation.writes row.value file then some (.saving operation row file)
        else if operation.sweeps file then some .sweeping
        else none
  | .sweeping => (s.files.lookup task.file).map .listing
  | .erasing older rest .reading =>
    match s.files.lookup older with
    | none => task.afterFailure
    | some row => some (.erasing older rest (.marking row))
  | .erasing older rest .purgingKnowledge => some (.erasing older rest .purgingElectrical)
  | .erasing _ rest .purgingElectrical => eraseNext rest
  | .deleting .reading => (s.files.lookup task.file).map fun row => .deleting (.marking row)
  | .deleting .purgingKnowledge => some (.deleting .purgingElectrical)
  | _ => none

def State.withPhase (s : State) (id : ℕ) (task : Task) : Option Phase → State
  | none => { s with tasks := s.tasks.erase id }
  | some phase => { s with tasks := s.tasks.insert id { task with phase := phase } }

section Machine

variable (nameKey lower : Text → Text)

def step (s : State) : Event → Option State
  | .register id file =>
    if id ∈ s.files ∨ file.status ≠ .uploaded ∨ file.isLive = false then none
    else some { s with files := s.files.insert id ⟨file, 1⟩ }
  | .store id sizeBytes =>
    if id ∈ s.files then some { s with objects := s.objects.insert id sizeBytes } else none
  | .request id user file operation =>
    if id ∈ s.tasks then none
    else some { s with tasks := s.tasks.insert id ⟨user, file, operation.start⟩ }
  | .delete id user file =>
    if id ∈ s.tasks then none
    else some { s with tasks := s.tasks.insert id ⟨user, file, .deleting .reading⟩ }
  | .next id now =>
    match s.tasks.lookup id with
    | none => none
    | some task =>
      if task.phase.isListing then none
      else match task.write now with
        | some (key, read, file) =>
          match save s.files key read file with
          | none => some (s.withPhase id task task.afterFailure)
          | some files => some ({ s with files := files }.withPhase id task task.afterWrite)
        | none => some (s.withPhase id task (s.read lower task))
  | .listed id found =>
    match s.tasks.lookup id with
    | none => none
    | some task =>
      match task.phase with
      | .listing newcomer =>
        if found.Perm (liveNamesakes nameKey s.files task.file newcomer.value) then
          some (s.withPhase id task (eraseNext found))
        else none
      | _ => none
  | .fails id =>
    match s.tasks.lookup id with
    | none => none
    | some task => some (s.withPhase id task task.afterFailure)
  | .crash id => if id ∈ s.tasks then some { s with tasks := s.tasks.erase id } else none

end Machine

section Inversion

variable {nameKey lower : Text → Text} {s t : State} {e : Event} {task : Task}

def Phase.isPlain : Phase → Bool
  | .assembling _ | .reading _ | .saving _ _ _ | .deleting _ => true
  | .sweeping | .listing _ | .erasing _ _ _ => false

def Event.isFailure : Event → Bool
  | .fails _ | .crash _ => true
  | _ => false

def Past (s : State) (older : ℕ) : Deletion → Prop
  | .reading => s.files.lookup older = none
  | .marking read => ∃ now, save s.files older read (read.value.softDelete now) = none
  | .purgingKnowledge => False
  | .purgingElectrical => True

inductive Turn (nameKey lower : Text → Text) (s : State) (e : Event) (task : Task) :
    Option Phase → Prop where
  | crashed (h : e.isFailure = true) : Turn nameKey lower s e task none
  | refused (h : task.phase.isPlain = true) : Turn nameKey lower s e task none
  | completing {checksum : Option Text} (h : task.phase = .assembling checksum) :
      Turn nameKey lower s e task (some (.reading (.complete checksum)))
  | saving {operation : Operation} {row : Versioned File} {file : File}
      (h : task.phase = .reading operation) (hrow : s.files.lookup task.file = some row)
      (hfile : operation.apply lower row.value = .ok file) :
      Turn nameKey lower s e task (some (.saving operation row file))
  | unchanged {operation : Operation} {row : Versioned File} {file : File}
      (h : task.phase = .reading operation) (hrow : s.files.lookup task.file = some row)
      (hfile : operation.apply lower row.value = .ok file)
      (hsame : operation.writes row.value file = false)
      (hsweeps : operation.sweeps file = true) :
      Turn nameKey lower s e task (some .sweeping)
  | lost (h : task.phase = .sweeping) (hrow : s.files.lookup task.file = none) :
      Turn nameKey lower s e task none
  | listing {row : Versioned File} (h : task.phase = .sweeping)
      (hrow : s.files.lookup task.file = some row) :
      Turn nameKey lower s e task (some (.listing row))
  | listed {newcomer : Versioned File} {found : List ℕ} (h : task.phase = .listing newcomer)
      (hfound : found.Perm (liveNamesakes nameKey s.files task.file newcomer.value)) :
      Turn nameKey lower s e task (eraseNext found)
  | marking {older : ℕ} {rest : List ℕ} {row : Versioned File}
      (h : task.phase = .erasing older rest .reading) (hrow : s.files.lookup older = some row) :
      Turn nameKey lower s e task (some (.erasing older rest (.marking row)))
  | purging {older : ℕ} {rest : List ℕ} (h : task.phase = .erasing older rest .purgingKnowledge) :
      Turn nameKey lower s e task (some (.erasing older rest .purgingElectrical))
  | following {older : ℕ} {rest : List ℕ} {deletion : Deletion}
      (h : task.phase = .erasing older rest deletion)
      (hpast : e.isFailure = true ∨ Past s older deletion) :
      Turn nameKey lower s e task (eraseNext rest)
  | deleting {row : Versioned File} (h : task.phase = .deleting .reading)
      (hrow : s.files.lookup task.file = some row) :
      Turn nameKey lower s e task (some (.deleting (.marking row)))
  | deleted (h : task.phase = .deleting .purgingKnowledge) :
      Turn nameKey lower s e task (some (.deleting .purgingElectrical))

/-- A failure ends a request, or one deletion of its sweep. -/
theorem turn_afterFailure
    (hpa : ∀ older rest deletion, task.phase = .erasing older rest deletion →
      e.isFailure = true ∨ Past s older deletion)
    (hsw : task.phase.isPlain = false → e.isFailure = true ∨
      ∃ older rest deletion, task.phase = .erasing older rest deletion) :
    Turn nameKey lower s e task task.afterFailure := by
  cases hp : task.phase with
  | erasing older rest deletion =>
    simp only [Task.afterFailure, hp]
    exact .following hp (hpa older rest deletion hp)
  | assembling | reading | saving | deleting =>
    simp only [Task.afterFailure, hp]
    exact .refused (by simp [hp, Phase.isPlain])
  | sweeping | listing =>
    simp only [Task.afterFailure, hp]
    rcases hsw (by simp [hp, Phase.isPlain]) with hf | ⟨_, _, _, he⟩
    · exact .crashed hf
    · rw [hp] at he
      cases he

theorem turn_read (hl : task.phase.isListing = false) {now : ℕ}
    (hwr : task.write now = none) : Turn nameKey lower s e task (s.read lower task) := by
  unfold State.read
  split
  · rename_i checksum hp
    split_ifs
    · exact .completing hp
    · exact .refused (by simp [hp, Phase.isPlain])
  · rename_i operation hp
    have hre : Turn nameKey lower s e task none :=
      .refused (by simp [hp, Phase.isPlain])
    split
    · exact hre
    · rename_i row hrow
      split
      · exact hre
      · rename_i file hf
        split_ifs with hw hsp
        · exact .saving hp hrow hf
        · exact .unchanged hp hrow hf (by simpa using hw) hsp
        · exact hre
  · rename_i hp
    cases hrow : s.files.lookup task.file with
    | none => exact .lost hp hrow
    | some row => exact .listing hp hrow
  · rename_i older rest hp
    split
    · rename_i hrow
      simp only [Task.afterFailure, hp]
      exact .following hp (.inr hrow)
    · rename_i row hrow
      exact .marking hp hrow
  · rename_i older rest hp
    exact .purging hp
  · rename_i older rest hp
    exact .following hp (.inr trivial)
  · rename_i hp
    cases hrow : s.files.lookup task.file with
    | none => exact .refused (by simp [hp, Phase.isPlain])
    | some row => exact .deleting hp hrow
  · rename_i hp
    exact .deleted hp
  · rename_i ha hr hsw _ _ _ _ _
    cases hp : task.phase with
    | assembling checksum => exact absurd hp (ha checksum)
    | reading operation => exact absurd hp (hr operation)
    | sweeping => exact absurd hp hsw
    | listing newcomer => simp [hp, Phase.isListing] at hl
    | saving operation read file => simp [Task.write, hp] at hwr
    | deleting deletion => exact .refused (by simp [hp, Phase.isPlain])
    | erasing older rest deletion =>
      cases deletion <;> simp_all [Task.write]

inductive Stepped (nameKey lower : Text → Text) (s : State) (e : Event) : State → Prop where
  | registered {id : ℕ} {file : File} (he : e = .register id file) (hid : id ∉ s.files)
      (hstatus : file.status = .uploaded) :
      Stepped nameKey lower s e { s with files := s.files.insert id ⟨file, 1⟩ }
  | stored {id sizeBytes : ℕ} :
      Stepped nameKey lower s e { s with objects := s.objects.insert id sizeBytes }
  | requested {id : ℕ} {user : Option ℕ} {file : ℕ} {operation : Operation}
      (he : e = .request id user file operation) (hid : id ∉ s.tasks) :
      Stepped nameKey lower s e
        { s with tasks := s.tasks.insert id ⟨user, file, operation.start⟩ }
  | dismissed {id : ℕ} {user : Option ℕ} {file : ℕ} (he : e = .delete id user file)
      (hid : id ∉ s.tasks) :
      Stepped nameKey lower s e
        { s with tasks := s.tasks.insert id ⟨user, file, .deleting .reading⟩ }
  | turned {id : ℕ} {task : Task} {phase : Option Phase} (htask : s.tasks.lookup id = some task)
      (hturn : Turn nameKey lower s e task phase) :
      Stepped nameKey lower s e (s.withPhase id task phase)
  | wrote {id now key : ℕ} {task : Task} {read : Versioned File} {file : File} {files : Files}
      (he : e = .next id now) (htask : s.tasks.lookup id = some task)
      (hwrite : task.write now = some (key, read, file))
      (hsave : save s.files key read file = some files) :
      Stepped nameKey lower s e ({ s with files := files }.withPhase id task task.afterWrite)

theorem write_eq_some_of_erasing {now older key : ℕ} {rest : List ℕ} {deletion : Deletion}
    {read : Versioned File} {file : File} (hp : task.phase = .erasing older rest deletion)
    (h : task.write now = some (key, read, file)) :
    deletion = .marking read ∧ key = older ∧ file = read.value.softDelete now := by
  unfold Task.write at h
  rw [hp] at h
  cases deletion with
  | marking found =>
    obtain ⟨rfl, rfl, rfl⟩ : older = key ∧ found = read ∧ found.value.softDelete now = file := by
      simpa using h
    exact ⟨rfl, rfl, rfl⟩
  | reading | purgingKnowledge | purgingElectrical => cases h

/-- Every step is one of these effects. -/
theorem step_cases (h : step nameKey lower s e = some t) : Stepped nameKey lower s e t := by
  cases e with
  | register id file =>
    simp only [step] at h
    split_ifs at h with hnew
    rw [not_or, not_or, not_not] at hnew
    cases h
    exact .registered rfl hnew.1 hnew.2.1
  | store id sizeBytes =>
    simp only [step] at h
    split_ifs at h
    cases h
    exact .stored
  | request id user file operation =>
    simp only [step] at h
    split_ifs at h with hid
    cases h
    exact .requested rfl hid
  | delete id user file =>
    simp only [step] at h
    split_ifs at h with hid
    cases h
    exact .dismissed rfl hid
  | next id now =>
    simp only [step] at h
    split at h
    · cases h
    rename_i task ht
    split_ifs at h with hl
    split at h
    · rename_i key read file hw
      split at h
      · rename_i hsa
        cases h
        refine .turned ht (turn_afterFailure ?_ ?_)
        · intro older rest deletion hp
          obtain ⟨rfl, rfl, rfl⟩ := write_eq_some_of_erasing hp hw
          exact .inr ⟨now, hsa⟩
        · intro hpl
          cases hp : task.phase <;> simp_all [Phase.isPlain, Phase.isListing, Task.write]
      · rename_i files hsa
        cases h
        exact .wrote rfl ht hw hsa
    · rename_i hw
      cases h
      exact .turned ht (turn_read (by simpa using hl) hw)
  | listed id found =>
    simp only [step] at h
    split at h
    · cases h
    rename_i task ht
    split at h
    · rename_i newcomer hp
      split_ifs at h with hf
      cases h
      exact .turned ht (.listed hp hf)
    · cases h
  | fails id =>
    simp only [step] at h
    split at h
    · cases h
    rename_i task ht
    cases h
    exact .turned ht (turn_afterFailure (fun _ _ _ _ => .inl rfl) fun _ => .inl rfl)
  | crash id =>
    simp only [step] at h
    split_ifs at h with hid
    cases h
    obtain ⟨task, ht⟩ := Option.isSome_iff_exists.mp (AList.lookup_isSome.mpr hid)
    exact .turned ht (.crashed rfl)

@[simp]
theorem withPhase_files (id : ℕ) (task : Task) (phase : Option Phase) :
    (s.withPhase id task phase).files = s.files := by
  cases phase <;> rfl

@[simp]
theorem withPhase_objects (id : ℕ) (task : Task) (phase : Option Phase) :
    (s.withPhase id task phase).objects = s.objects := by
  cases phase <;> rfl

theorem lookup_withPhase_self (id : ℕ) (task : Task) (phase : Phase) :
    (s.withPhase id task (some phase)).tasks.lookup id = some { task with phase := phase } :=
  AList.lookup_insert _

theorem lookup_withPhase_ne {id other : ℕ} (h : other ≠ id) (task : Task)
    (phase : Option Phase) :
    (s.withPhase id task phase).tasks.lookup other = s.tasks.lookup other := by
  cases phase with
  | none => exact AList.lookup_erase_ne h
  | some phase => exact AList.lookup_insert_ne h

/-- What holds of the request in its new phase and of every other one holds of them all. -/
theorem forall_tasks_withPhase {P : Task → Prop} {id : ℕ} {phase : Option Phase}
    (hnew : ∀ p, phase = some p → P { task with phase := p })
    (hold : ∀ other u, s.tasks.lookup other = some u → P u) :
    ∀ other u, (s.withPhase id task phase).tasks.lookup other = some u → P u := by
  cases phase with
  | none =>
    intro other u hu
    exact hold other u (lookup_erase_iff.mp hu).2
  | some p => exact forall_insert (P := fun _ u => P u) (hnew p rfl) hold

end Inversion

section Reads

variable {nameKey lower : Text → Text} {s t : State} {e : Event} {task : Task}

theorem apply_eq_ok {operation : Operation} {file after : File}
    (h : operation.apply lower file = .ok after) :
    file.isLive = true ∧ after.isLive = true ∧ File.Succeeds file after ∧
      (operation.sweeps after = true → after.status = .ready) := by
  cases operation with
  | complete checksum =>
    obtain ⟨hl, -, rfl⟩ := File.complete_eq_ok h
    exact ⟨hl, hl, File.succeeds_of_live hl rfl rfl fun _ => rfl, fun _ => rfl⟩
  | rename newName =>
    obtain ⟨hl, name, rfl⟩ := File.rename_eq_ok h
    exact ⟨hl, hl, File.succeeds_of_live hl rfl rfl id, of_decide_eq_true⟩
  | retag tags =>
    obtain ⟨hl, rfl⟩ := File.retag_eq_ok h
    exact ⟨hl, hl, File.succeeds_of_live hl rfl rfl id, of_decide_eq_true⟩

def Phase.Sound (lower : Text → Text) (files : Files) (file : ℕ) : Phase → Prop
  | .saving operation read after =>
    Held File.Succeeds files file read ∧ operation.apply lower read.value = .ok after
  | .erasing older _ (.marking read) => Held File.Succeeds files older read
  | .deleting (.marking read) => Held File.Succeeds files file read
  | _ => True

def Reads (lower : Text → Text) (s : State) : Prop :=
  ∀ id task, s.tasks.lookup id = some task → task.phase.Sound lower s.files task.file

variable {files : Files} {file : ℕ} {phase : Phase}

/-- What a request has read outlives the changes of others. -/
theorem Phase.Sound.grows {after : Files} (h : phase.Sound lower files file)
    (hg : Grows File.Succeeds files after) :
    phase.Sound lower after file := by
  cases phase with
  | saving operation read new => exact ⟨h.1.grows hg, h.2⟩
  | erasing older rest deletion =>
    cases deletion with
    | marking read => exact Held.grows h hg
    | reading | purgingKnowledge | purgingElectrical => trivial
  | deleting deletion =>
    cases deletion with
    | marking read => exact Held.grows h hg
    | reading | purgingKnowledge | purgingElectrical => trivial
  | assembling | reading | sweeping | listing => trivial

theorem sound_eraseNext {rest : List ℕ} (h : eraseNext rest = some phase) :
    phase.Sound lower files file := by
  cases rest with
  | nil => cases h
  | cons older rest =>
    cases h
    trivial

theorem sound_start (operation : Operation) :
    operation.start.Sound lower files file := by
  cases operation <;> trivial

theorem Turn.sound {next : Option Phase} (h : Turn nameKey lower s e task next)
    (hn : next = some phase) : phase.Sound lower s.files task.file := by
  cases h with
  | crashed | refused | lost => cases hn
  | saving _ hrow hf =>
    cases hn
    exact ⟨held_of_lookup hrow, hf⟩
  | marking _ hrow | deleting _ hrow =>
    cases hn
    exact held_of_lookup hrow
  | listed | following => exact sound_eraseNext hn
  | completing | unchanged | listing | purging | deleted =>
    cases hn
    trivial

/-- A write that goes through replaces the row that was read by one of its successors. -/
theorem write_saved {now key : ℕ} {read : Versioned File} {file : File}
    (hso : task.phase.Sound lower s.files task.file)
    (hw : task.write now = some (key, read, file))
    (hsa : save s.files key read file = some files) :
    s.files.lookup key = some read ∧ files = s.files.insert key ⟨file, read.version + 1⟩ ∧
      File.Succeeds read.value file := by
  have hh : Held File.Succeeds s.files key read ∧ File.Succeeds read.value file := by
    unfold Task.write at hw
    split at hw
    · rename_i hp
      obtain ⟨rfl, rfl, rfl⟩ := by simpa using hw
      rw [hp] at hso
      exact ⟨hso.1, (apply_eq_ok hso.2).2.2.1⟩
    · rename_i hp
      obtain ⟨rfl, rfl, rfl⟩ := by simpa using hw
      rw [hp] at hso
      exact ⟨hso, File.succeeds_softDelete _ _⟩
    · rename_i hp
      obtain ⟨rfl, rfl, rfl⟩ := by simpa using hw
      rw [hp] at hso
      exact ⟨hso, File.succeeds_softDelete _ _⟩
    · cases hw
  obtain ⟨hr, rfl⟩ := hh.1.save_eq_some hsa
  exact ⟨hr, rfl, hh.2⟩

theorem afterWrite_eq_some (h : task.afterWrite = some phase) :
    (∃ operation read file, task.phase = .saving operation read file ∧
      operation.sweeps file = true ∧ phase = .sweeping) ∨
    (∃ older rest deletion, task.phase = .erasing older rest deletion ∧
      phase = .erasing older rest .purgingKnowledge) ∨
    (∃ deletion, task.phase = .deleting deletion ∧ phase = .deleting .purgingKnowledge) := by
  unfold Task.afterWrite at h
  split at h
  · rename_i operation read file hp
    split_ifs at h with hsw
    exact .inl ⟨operation, read, file, hp, hsw, (Option.some.inj h).symm⟩
  · rename_i older rest deletion hp
    exact .inr (.inl ⟨older, rest, deletion, hp, (Option.some.inj h).symm⟩)
  · rename_i deletion hp
    exact .inr (.inr ⟨deletion, hp, (Option.some.inj h).symm⟩)
  · cases h

theorem sound_afterWrite (h : task.afterWrite = some phase) :
    phase.Sound lower files task.file := by
  obtain ⟨_, _, _, -, -, rfl⟩ | ⟨_, _, _, -, rfl⟩ | ⟨_, -, rfl⟩ := afterWrite_eq_some h <;> trivial

theorem step_grows (hr : Reads lower s) (h : Stepped nameKey lower s e t) :
    Grows File.Succeeds s.files t.files := by
  cases h with
  | registered _ hid _ => exact .added hid
  | stored | requested | dismissed => exact .refl _
  | turned _ _ =>
    rw [withPhase_files]
    exact .refl _
  | wrote _ ht hw hsa =>
    obtain ⟨hre, rfl, hm⟩ := write_saved (hr _ _ ht) hw hsa
    rw [withPhase_files]
    exact .saved hre hm

/-- Reads stay sound through every step. -/
theorem step_reads (hr : Reads lower s) (h : Stepped nameKey lower s e t) :
    Reads lower t := by
  have hg := step_grows hr h
  have hold : ∀ id task, s.tasks.lookup id = some task →
      task.phase.Sound lower t.files task.file :=
    fun id task ht => (hr id task ht).grows hg
  cases h with
  | registered | stored => exact hold
  | requested =>
    exact forall_insert (P := fun _ (u : Task) => u.phase.Sound lower _ u.file)
      (sound_start _) hold
  | dismissed =>
    exact forall_insert (P := fun _ (u : Task) => u.phase.Sound lower _ u.file) trivial hold
  | turned ht htu =>
    refine forall_tasks_withPhase (P := fun u => u.phase.Sound lower _ u.file) ?_ hold
    intro phase hp
    rw [withPhase_files]
    exact htu.sound hp
  | wrote _ ht hw hsa =>
    refine forall_tasks_withPhase (P := fun u => u.phase.Sound lower _ u.file) ?_ hold
    intro phase hp
    exact (sound_afterWrite hp : phase.Sound lower _ _)

end Reads

namespace Phase

def pending : Phase → List ℕ
  | .erasing older rest .reading | .erasing older rest (.marking _) => older :: rest
  | .erasing _ rest _ => rest
  | _ => []

def isSweeping : Phase → Bool
  | .sweeping | .listing _ => true
  | phase => !phase.pending.isEmpty

def hasJudged : Phase → Bool
  | .listing _ => true
  | phase => !phase.pending.isEmpty

end Phase

def State.isReplacing (s : State) (file : ℕ) : Bool :=
  anyRow s.tasks fun _ task => task.file = file && task.phase.isSweeping

def State.isJudged (s : State) (file : ℕ) : Bool :=
  anyRow s.tasks fun _ task =>
    (task.file = file && task.phase.hasJudged) || task.phase.pending.contains file

def State.writes (s : State) : Event → Option (ℕ × Versioned File × File)
  | .next id now => (s.tasks.lookup id).bind (·.write now)
  | _ => none

/-- A write that goes through makes no file ready without its object, deletes no file that a
sweep runs for, and renames or re-tags none that a sweep has judged by its name and tags. -/
def Undisturbed (nameKey : Text → Text) (s : State) (e : Event) : Prop :=
  ∀ write ∈ s.writes e,
    (save s.files write.1 write.2.1 write.2.2).isSome = true →
      (write.2.2.status = .ready → write.1 ∈ s.objects) ∧
      (write.2.2.isLive = false → s.isReplacing write.1 = false) ∧
      (nameKey write.2.2.name.value ≠ nameKey write.2.1.value.name.value ∨
        write.2.2.tags ≠ write.2.1.value.tags → s.isJudged write.1 = false)

instance (nameKey : Text → Text) (s : State) (e : Event) : Decidable (Undisturbed nameKey s e) :=
  Option.decidableForallMem _

section Standing

variable {nameKey lower : Text → Text} {s t : State} {e : Event} {task : Task} {files : Files}

/-- As long as a sweep may still erase a file, the one it runs for is live and ready and
replaces every live file on its list. -/
def Stands (nameKey : Text → Text) (files : Files) (task : Task) : Prop :=
  task.phase.isSweeping = true → ∃ new, files.lookup task.file = some new ∧
    new.value.isReady = true ∧
    (∀ newcomer, task.phase = .listing newcomer → SameLabel nameKey newcomer.value new.value) ∧
    ∀ key ∈ task.phase.pending, ∃ row, files.lookup key = some row ∧
      (row.value.isLive = true → Replaces nameKey task.file new.value key row.value)

variable {id : ℕ}

theorem isReplacing_of_lookup (ht : s.tasks.lookup id = some task)
    (hsw : task.phase.isSweeping = true) : s.isReplacing task.file = true :=
  anyRow_eq_true_iff.mpr ⟨id, task, ht, by simp [hsw]⟩

theorem isJudged_of_lookup (ht : s.tasks.lookup id = some task)
    (hj : task.phase.hasJudged = true) : s.isJudged task.file = true :=
  anyRow_eq_true_iff.mpr ⟨id, task, ht, by simp [hj]⟩

variable {key : ℕ}

theorem isJudged_of_pending (ht : s.tasks.lookup id = some task)
    (hkey : key ∈ task.phase.pending) : s.isJudged key = true :=
  anyRow_eq_true_iff.mpr ⟨id, task, ht, by simp [hkey]⟩

variable {phase : Phase}

theorem hasJudged_of_mem_pending (h : key ∈ phase.pending) :
    phase.hasJudged = true := by
  cases phase with
  | erasing older rest deletion =>
    simp only [Phase.hasJudged, Bool.not_eq_true', List.isEmpty_eq_false_iff]
    exact List.ne_nil_of_mem h
  | assembling | reading | saving | sweeping | listing | deleting => cases h

theorem isSweeping_of_mem_pending (h : key ∈ phase.pending) :
    phase.isSweeping = true := by
  cases phase with
  | erasing older rest deletion =>
    simp only [Phase.isSweeping, Bool.not_eq_true', List.isEmpty_eq_false_iff]
    exact List.ne_nil_of_mem h
  | assembling | reading | saving | sweeping | listing | deleting => cases h

variable {read row : Versioned File} {file : File}

theorem row_after_write {other : ℕ} (hrd : s.files.lookup key = some read)
    (hm : File.Succeeds read.value file)
    (hd : file.isLive = false → s.isReplacing key = false)
    (hl : nameKey file.name.value ≠ nameKey read.value.name.value ∨
      file.tags ≠ read.value.tags → s.isJudged key = false)
    (hrow : s.files.lookup other = some row) :
    ∃ after, (s.files.insert key ⟨file, read.version + 1⟩).lookup other = some after ∧
      (after.value.isLive = true → row.value.isLive = true) ∧
      (s.isJudged other = true → SameLabel nameKey row.value after.value) ∧
      (s.isReplacing other = true → row.value.isReady = true → after.value.isReady = true) := by
  by_cases ho : other = key
  · subst ho
    obtain rfl : read = row := Option.mem_unique hrd hrow
    refine ⟨_, AList.lookup_insert _, ?_, ?_, ?_⟩
    · intro hli
      by_contra hde
      rw [Bool.not_eq_true] at hde
      rw [hm.deleted hde, hde] at hli
      cases hli
    · intro hj
      have hsa : nameKey file.name.value = nameKey read.value.name.value ∧
          file.tags = read.value.tags := by
        by_contra hc
        rw [not_and_or] at hc
        rw [hl hc] at hj
        cases hj
      exact ⟨hm.space, hm.created, hsa.1, hsa.2⟩
    · intro hr hre
      rw [File.isReady, Bool.and_eq_true, decide_eq_true_eq] at hre ⊢
      refine ⟨hm.ready hre.1, ?_⟩
      by_contra hde
      rw [hd (by simpa using hde)] at hr
      cases hr
  · exact ⟨row, (AList.lookup_insert_ne ho).trans hrow, id, fun _ => .refl _, fun _ => id⟩

theorem Stands.write (h : Stands nameKey s.files task) (ht : s.tasks.lookup id = some task)
    (hrd : s.files.lookup key = some read) (hm : File.Succeeds read.value file)
    (hd : file.isLive = false → s.isReplacing key = false)
    (hla : nameKey file.name.value ≠ nameKey read.value.name.value ∨
      file.tags ≠ read.value.tags → s.isJudged key = false) :
    Stands nameKey (s.files.insert key ⟨file, read.version + 1⟩) task := by
  intro hsw
  obtain ⟨new, hnew, hre, hli, hp⟩ := h hsw
  obtain ⟨after, ha, -, hsa, hst⟩ := row_after_write hrd hm hd hla hnew
  refine ⟨after, ha, hst (isReplacing_of_lookup ht hsw) hre, ?_, ?_⟩
  · intro newcomer hph
    refine (hli newcomer hph).trans (hsa (isJudged_of_lookup ht ?_))
    rw [hph]
    rfl
  · intro other ho
    obtain ⟨row, hrow, hr⟩ := hp other ho
    obtain ⟨found, hfo, hlv, hl, -⟩ :=
      row_after_write hrd hm hd hla hrow
    refine ⟨found, hfo, fun hf => ?_⟩
    exact (hr (hlv hf)).of_sameLabel
      (hsa (isJudged_of_lookup ht (hasJudged_of_mem_pending ho)))
      (hl (isJudged_of_pending ht ho))

theorem Stands.added (h : Stands nameKey files task) (hid : id ∉ files) :
    Stands nameKey (files.insert id row) task := by
  have hk : ∀ key found, files.lookup key = some found →
      (files.insert id row).lookup key = some found := by
    intro key found hf
    have hne : key ≠ id := by
      rintro rfl
      exact hid (mem_of_lookup hf)
    exact (AList.lookup_insert_ne hne).trans hf
  intro hsw
  obtain ⟨new, hnew, hre, hl, hp⟩ := h hsw
  refine ⟨new, hk _ _ hnew, hre, hl, fun key hkey => ?_⟩
  obtain ⟨found, hf, hr⟩ := hp key hkey
  exact ⟨found, hk _ _ hf, hr⟩

theorem Stands.sub {older : ℕ} {rest : List ℕ} {deletion : Deletion}
    (h : Stands nameKey files task)
    (hsub : ∀ key ∈ (Phase.erasing older rest deletion).pending, key ∈ task.phase.pending) :
    Stands nameKey files { task with phase := .erasing older rest deletion } := by
  intro hsw
  have hne : (Phase.erasing older rest deletion).pending ≠ [] := by
    simpa [Phase.isSweeping] using hsw
  obtain ⟨key, hkey⟩ := List.exists_mem_of_ne_nil _ hne
  obtain ⟨new, hnew, hr, -, hp⟩ := h (isSweeping_of_mem_pending (hsub key hkey))
  refine ⟨new, hnew, hr, fun newcomer hph => ?_, fun other ho => ?_⟩
  · cases hph
  · exact hp other (hsub other ho)

theorem isPlain_start (operation : Operation) : operation.start.isPlain = true := by
  cases operation <;> rfl

theorem stands_of_plain (h : task.phase.isPlain = true) : Stands nameKey files task := by
  intro hsw
  cases hp : task.phase <;>
    simp_all [Phase.isPlain, Phase.isSweeping, Phase.pending]

theorem stands_sweeping (hrow : files.lookup task.file = some row)
    (hr : row.value.isReady = true) :
    Stands nameKey files { task with phase := .sweeping } := by
  intro _
  refine ⟨row, hrow, hr, fun newcomer hp => ?_, fun key hkey => ?_⟩
  · cases hp
  · cases hkey

theorem isReady_of_unchanged {operation : Operation} {read : File}
    (hf : operation.apply lower read = .ok file) (hsa : operation.writes read file = false)
    (hsw : operation.sweeps file = true) : read.isReady = true := by
  have hl := (apply_eq_ok hf).1
  cases operation with
  | complete checksum => cases hsa
  | rename newName =>
    obtain ⟨-, name, rfl⟩ := File.rename_eq_ok hf
    simpa [File.isReady, hl, Operation.sweeps] using hsw
  | retag tags =>
    obtain ⟨-, rfl⟩ := File.retag_eq_ok hf
    simpa [File.isReady, hl, Operation.sweeps] using hsw

/-- A sweep in hand stays justified. -/
theorem Stands.turn {next : Option Phase} (h : Stands nameKey s.files task)
    (ht : Turn nameKey lower s e task next) (hn : next = some phase) :
    Stands nameKey s.files { task with phase := phase } := by
  cases ht with
  | crashed | refused | lost => cases hn
  | completing | saving | deleting | deleted =>
    cases hn
    exact stands_of_plain rfl
  | unchanged _ hrow hfi hsa hsw =>
    cases hn
    exact stands_sweeping hrow (isReady_of_unchanged hfi hsa hsw)
  | listing hp hrow =>
    cases hn
    intro _
    obtain ⟨new, hnew, hre, -, -⟩ := h (by rw [hp]; rfl)
    obtain rfl := Option.mem_unique hnew hrow
    refine ⟨new, hnew, hre, fun newcomer hl => ?_, fun key hkey => ?_⟩
    · cases hl
      exact .refl _
    · cases hkey
  | listed hp hf =>
    rename_i newcomer found
    cases found with
    | nil => cases hn
    | cons older rest =>
      cases hn
      intro _
      obtain ⟨new, hnew, hre, hli, -⟩ := h (by rw [hp]; rfl)
      refine ⟨new, hnew, hre, fun newcomer hl => ?_, fun key hkey => ?_⟩
      · cases hl
      · obtain ⟨row, hrow, -, hr⟩ := mem_liveNamesakes.mp (hf.subset hkey)
        exact ⟨row, hrow, fun _ => hr.of_sameLabel (hli _ hp) (.refl _)⟩
  | marking hp _ =>
    cases hn
    refine h.sub ?_
    rw [hp]
    exact fun _ hkey => hkey
  | purging hp =>
    cases hn
    refine h.sub ?_
    rw [hp]
    exact fun _ hkey => hkey
  | following hp _ =>
    rename_i older rest deletion _
    cases rest with
    | nil => cases hn
    | cons next rest =>
      cases hn
      refine h.sub ?_
      rw [hp]
      intro key hkey
      cases deletion with
      | reading | marking => exact List.mem_cons_of_mem _ hkey
      | purgingKnowledge | purgingElectrical => exact hkey

theorem Stands.afterWrite {now : ℕ} (hso : task.phase.Sound lower s.files task.file)
    (h : Stands nameKey (s.files.insert key ⟨file, read.version + 1⟩) task)
    (hw : task.write now = some (key, read, file)) (hp : task.afterWrite = some phase) :
    Stands nameKey (s.files.insert key ⟨file, read.version + 1⟩) { task with phase := phase } := by
  obtain ⟨operation, found, after, hsa, hsw, rfl⟩ | ⟨older, rest, deletion, he, rfl⟩ |
    ⟨deletion, -, rfl⟩ := afterWrite_eq_some hp
  · rw [Task.write, hsa] at hw
    obtain ⟨rfl, rfl, rfl⟩ := by simpa using hw
    rw [hsa] at hso
    obtain ⟨-, hl, -, hr⟩ := apply_eq_ok hso.2
    refine stands_sweeping (AList.lookup_insert _) ?_
    simp [File.isReady, hl, hr hsw]
  · refine h.sub ?_
    obtain ⟨rfl, -, -⟩ := write_eq_some_of_erasing he hw
    rw [he]
    exact fun other ho => List.mem_cons_of_mem _ ho
  · exact stands_of_plain rfl

/-- The reads are sound, every ready file has its object, and every sweep stands. -/
structure Proven (nameKey lower : Text → Text) (s : State) : Prop where
  reads : Reads lower s
  stored : ∀ id row, s.files.lookup id = some row → row.value.status = .ready → id ∈ s.objects
  stands : ∀ id task, s.tasks.lookup id = some task → Stands nameKey s.files task

theorem init_proven : Proven nameKey lower init := by
  refine ⟨?_, ?_, ?_⟩ <;> intro id _ h <;> cases h

section

variable (hs : Proven nameKey lower s) (hok : Undisturbed nameKey s e)
include hs hok

/-- A ready file has its object. -/
theorem step_stored (h : Stepped nameKey lower s e t) :
    ∀ id row, t.files.lookup id = some row → row.value.status = .ready → id ∈ t.objects := by
  cases h with
  | registered _ _ hst =>
    refine forall_insert (fun hr => ?_) hs.stored
    rw [hst] at hr
    cases hr
  | stored =>
    intro id row hrow hr
    exact (AList.mem_insert _).mpr (.inr (hs.stored id row hrow hr))
  | requested | dismissed => exact hs.stored
  | turned _ _ =>
    rw [withPhase_files, withPhase_objects]
    exact hs.stored
  | wrote he ht hw hsa =>
    obtain ⟨hr, -, -⟩ := hok _ (by rw [he, State.writes, ht]; exact hw)
      (by rw [hsa]; rfl)
    obtain ⟨-, rfl, -⟩ := write_saved (hs.reads _ _ ht) hw hsa
    rw [withPhase_files, withPhase_objects]
    exact forall_insert hr hs.stored

/-- Every sweep goes on standing for the file it runs for. -/
theorem step_stands (h : Stepped nameKey lower s e t) :
    ∀ id task, t.tasks.lookup id = some task → Stands nameKey t.files task := by
  cases h with
  | registered _ hid _ =>
    intro id task ht
    exact (hs.stands id task ht).added hid
  | stored => exact hs.stands
  | requested =>
    exact forall_insert (stands_of_plain (isPlain_start _)) hs.stands
  | dismissed => exact forall_insert (stands_of_plain rfl) hs.stands
  | turned ht htu =>
    rw [withPhase_files]
    exact forall_tasks_withPhase (fun phase hp => (hs.stands _ _ ht).turn htu hp)
      hs.stands
  | wrote he ht hw hsa =>
    obtain ⟨-, hd, hl⟩ := hok _ (by rw [he, State.writes, ht]; exact hw)
      (by rw [hsa]; rfl)
    obtain ⟨hr, rfl, hm⟩ := write_saved (hs.reads _ _ ht) hw hsa
    have hold : ∀ other u, s.tasks.lookup other = some u →
        Stands nameKey (s.files.insert _ ⟨_, _⟩) u := fun other u hu =>
      (hs.stands other u hu).write hu hr hm hd hl
    rw [withPhase_files]
    refine forall_tasks_withPhase (fun phase hp => ?_) hold
    exact (hold _ _ ht).afterWrite (hs.reads _ _ ht) hw hp

theorem step_proven (h : step nameKey lower s e = some t) : Proven nameKey lower t :=
  have hst := step_cases h
  ⟨step_reads hs.reads hst, step_stored hs hok hst, step_stands hs hok hst⟩

end

theorem run_proven {events : List Event}
    (hg : Guarded (step nameKey lower) (Undisturbed nameKey) init events)
    (hrun : run (step nameKey lower) init events = some s) : Proven nameKey lower s :=
  run_invariant (fun _ _ _ hs hok hst => step_proven hs hok hst) hg hrun init_proven

end Standing

def isLiveIn (files : Files) (id : ℕ) : Bool := (files.lookup id).any (·.value.isLive)

def erasure (nameKey lower : Text → Text) (s : State) (id now : ℕ) : Option (ℕ × ℕ) :=
  match s.tasks.lookup id, step nameKey lower s (.next id now) with
  | some ⟨_, file, .erasing older _ _⟩, some t =>
    if isLiveIn s.files older && !isLiveIn t.files older then some (file, older) else none
  | _, _ => none

/-- The newcomer is live, ready and in storage, and it replaces the older file. -/
structure ReplacedBy (nameKey : Text → Text) (s : State) (newcomer older : ℕ)
    (new old : Versioned File) : Prop where
  newRow : s.files.lookup newcomer = some new
  oldRow : s.files.lookup older = some old
  live : new.value.isLive = true
  ready : new.value.status = .ready
  stored : newcomer ∈ s.objects
  replaces : Replaces nameKey newcomer new.value older old.value

section Erasures

variable {nameKey lower : Text → Text} {s : State} {events : List Event}
  {id now newcomer older : ℕ}

theorem erasure_eq_some (hs : Reads lower s)
    (h : erasure nameKey lower s id now = some (newcomer, older)) :
    ∃ task rest read, s.tasks.lookup id = some task ∧ task.file = newcomer ∧
      task.phase = .erasing older rest (.marking read) ∧ s.files.lookup older = some read ∧
      read.value.isLive = true := by
  unfold erasure at h
  split at h
  · rename_i user file found rest deletion t ht hst
    split_ifs at h with hl
    obtain ⟨rfl, rfl⟩ := Prod.mk.inj (Option.some.inj h)
    rw [Bool.and_eq_true, Bool.not_eq_true'] at hl
    have hf : t.files ≠ s.files := by
      intro heq
      rw [heq, hl.1] at hl
      cases hl.2
    cases step_cases hst with
    | registered he | requested he | dismissed he => cases he
    | stored => exact absurd rfl hf
    | turned _ _ => exact absurd (withPhase_files _ _ _) hf
    | wrote he ho hw hsa =>
      cases he
      obtain rfl := Option.mem_unique ht ho
      obtain ⟨hr, -, -⟩ := write_saved (hs _ _ ht) hw hsa
      obtain ⟨rfl, rfl, -⟩ := write_eq_some_of_erasing rfl hw
      refine ⟨_, rest, _, ht, rfl, rfl, hr, ?_⟩
      simpa [isLiveIn, hr] using hl.1
  · cases h

/-- In an undisturbed run a sweep erases a file only for one that is live, ready and in
storage, strictly newer, and shares space, normalised name and tags with it. -/
theorem erased_files_are_replaced
    (hguarded : Guarded (step nameKey lower) (Undisturbed nameKey) init events)
    (hrun : run (step nameKey lower) init events = some s)
    (herasure : erasure nameKey lower s id now = some (newcomer, older)) :
    ∃ new old, ReplacedBy nameKey s newcomer older new old := by
  have hs := run_proven hguarded hrun
  obtain ⟨task, rest, read, ht, rfl, hph, hrea, hl⟩ := erasure_eq_some hs.reads herasure
  have hp : older ∈ task.phase.pending := by
    rw [hph]
    exact List.mem_cons_self
  obtain ⟨new, hnew, hrd, -, hr⟩ :=
    hs.stands id task ht (isSweeping_of_mem_pending hp)
  obtain ⟨row, hrow, hre⟩ := hr older hp
  obtain rfl : read = row := Option.mem_unique hrea hrow
  rw [File.isReady, Bool.and_eq_true, decide_eq_true_eq] at hrd
  exact ⟨new, read, hnew, hrea, hrd.2, hrd.1, hs.stored _ _ hnew hrd.1, hre hl⟩

end Erasures

def reportName : FileName := ⟨ofString "report.pdf", by decide +kernel⟩

def report (createdAt : ℕ) : File :=
  { spaceId := some 1, name := reportName, sizeBytes := 10, checksum := none, status := .uploaded,
    uploadedBy := some 7, createdAt := createdAt, deletedAt := none, multipart := none,
    tags := ⟨none, none, none⟩ }

def secondCompleted : List Event :=
  [.register 1 (report 100), .store 1 10, .request 1 (some 7) 1 (.complete none), .next 1 0,
    .next 1 0, .next 1 0, .next 1 0, .listed 1 [], .register 2 (report 200), .store 2 10,
    .request 2 (some 7) 2 (.complete none), .next 2 0, .next 2 0, .next 2 0]

def sweepReachesFirst : List Event := [.next 2 0, .listed 2 [1], .next 2 0]

theorem second_upload_erases_the_first :
    ∃ s, run (step id id) init (secondCompleted ++ sweepReachesFirst) = some s ∧
      erasure id id s 2 300 = some (2, 1) ∧ ∃ new old, ReplacedBy id s 2 1 new old := by
  obtain ⟨s, hrun, her⟩ := exists_run_of_any
    (p := fun s : State => erasure id id s 2 300 = some (2, 1))
    (show (run (step id id) init (secondCompleted ++ sweepReachesFirst)).any _ = true by
      decide +kernel)
  have hg : Guarded (step id id) (Undisturbed id) init
      (secondCompleted ++ sweepReachesFirst) := by decide +kernel
  have he := of_decide_eq_true her
  exact ⟨s, hrun, he, erased_files_are_replaced hg hrun he⟩

/-- The newer upload is deleted after its completion has committed; its sweep reads the deleted
row and erases the older file all the same. -/
theorem deleted_newcomer_erases_the_first :
    ∃ s, run (step id id) init (secondCompleted ++ [.delete 3 (some 7) 2, .next 3 250,
        .next 3 250] ++ sweepReachesFirst) = some s ∧
      erasure id id s 2 300 = some (2, 1) ∧ ¬ ∃ new old, ReplacedBy id s 2 1 new old := by
  obtain ⟨s, hrun, ht⟩ := exists_run_of_any
    (p := fun s : State => erasure id id s 2 300 = some (2, 1) && !isLiveIn s.files 2)
    (show (run (step id id) init (secondCompleted ++ [.delete 3 (some 7) 2, .next 3 250,
        .next 3 250] ++ sweepReachesFirst)).any _ = true by decide +kernel)
  rw [Bool.and_eq_true, decide_eq_true_eq, Bool.not_eq_true'] at ht
  refine ⟨s, hrun, ht.1, ?_⟩
  rintro ⟨new, old, hr⟩
  have hl := ht.2
  rw [isLiveIn, hr.newRow, Option.any_some, hr.live] at hl
  cases hl

end Aizzak.FileReplacement
