import Aizzak.DocumentRegistry
import Aizzak.SpaceQuota
import Aizzak.TranscriptRuns

/-!
Deleting a space beside everyone who writes into it. The deletion marks the space, then empties
one module after another, each in its own transaction. A registration of a file holds the row of
the space from its check to its commit, so the mark waits for it; a message needs the row of its
thread. A thread is opened, and a document registered, without holding anything of the space:
the row may land where the deletion has already been.
-/
namespace Aizzak.SpaceDeletion

open EventRuns KeyedTables VersionedRows PyText

/-- What a deletion empties next. The drop of the threads follows that of their messages in one
transaction. -/
inductive Stage where
  | knowledge
  | files
  | messages
  | threads (dropped : List ℕ)

def Stage.rank : Stage → ℕ
  | .knowledge => 1
  | .files => 2
  | .messages => 3
  | .threads _ => 4

inductive Task where
  | starting (request : Transcripts.StartRequest)
  | opening (request : Transcripts.StartRequest)
  | marking (space : ℕ)
  | saving (space : ℕ) (read : Versioned Bool)
  | emptying (space : ℕ) (next : Stage)

/-- The spaces and whether they are active, the modules with their own requests, the deletions
and the starts of threads in flight, and the spaces whose deletion has returned. -/
structure State where
  spaces : AList fun _ : ℕ => Versioned Bool
  uploads : SpaceQuota.State
  registry : DocumentRegistry.State
  threads : Transcripts.State
  tasks : AList fun _ : ℕ => Task
  deleted : List ℕ

def init : State := ⟨∅, SpaceQuota.init, ⟨∅, ∅, none⟩, Transcripts.init, ∅, []⟩

inductive Event where
  | createSpace (space : ℕ)
  | upload (e : SpaceQuota.Event)
  | complete (file : ℕ) (checksum : Option Text)
  | index (call file : ℕ)
  | register (e : DocumentRegistry.Event)
  | thread (e : Transcripts.Event)
  | start (id : ℕ) (request : Transcripts.StartRequest)
  | delete (id space : ℕ)
  | next (id newId now : ℕ)
  | fails (id : ℕ)

def spaceText (space : ℕ) : String := toString space

def holdsRow : SpaceQuota.Phase → Bool
  | .registering | .counted _ => true
  | _ => false

def Task.rank (space : ℕ) : Task → ℕ
  | .emptying other next => if other = space then next.rank else 0
  | _ => 0

namespace State

/-- Some deletion of the space has come that far or has returned. -/
def past (s : State) (space rank : ℕ) : Bool :=
  s.deleted.contains space || anyRow s.tasks fun _ task => rank ≤ task.rank space

def active (s : State) : List ℕ :=
  (s.spaces.entries.filter fun entry => entry.2.value).map (·.1)

def files (s : State) : SpaceQuota.State := { s.uploads with spaces := s.active }

def readable (s : State) (file : ℕ) : Option (Option String) :=
  ((s.uploads.files.lookup file).filter (·.value.isReady)).map (·.value.spaceId.map spaceText)

def rowLocked (s : State) (space : ℕ) : Bool :=
  anyRow s.uploads.tasks fun _ task =>
    holdsRow task.phase && task.request.spaceId = some space

def threadOf (s : State) (space conversation : ℕ) : Bool :=
  (s.threads.conversations.lookup conversation).any (·.value.spaceId = some space)

def finish (s : State) (id : ℕ) : State := { s with tasks := s.tasks.erase id }

def proceed (s : State) (id : ℕ) (task : Task) : State :=
  { s with tasks := s.tasks.insert id task }

def messagesIn (s : State) (space : ℕ) : List ℕ :=
  s.threads.messages.keys.filter fun key =>
    (s.threads.messages.lookup key).any fun message => s.threadOf space message.conversationId

/-- The purges of the deletion, module by module. The last one has dropped messages in its open
transaction; a message of these threads it has not seen keeps them. -/
def purge (s : State) (id space : ℕ) : Stage → State
  | .knowledge =>
    { s with
      registry :=
        { s.registry with
          docs := eraseAll s.registry.docs
            (DocumentRegistry.idsInSpace s.registry.docs (spaceText space)) } }.proceed id
              (.emptying space .files)
  | .files =>
    { s with
      uploads :=
        { s.uploads with
          files := eraseWhere s.uploads.files fun _ row =>
            row.value.spaceId = some space } }.proceed id (.emptying space .messages)
  | .messages => s.proceed id (.emptying space (.threads (s.messagesIn space)))
  | .threads dropped =>
    if anyRow s.threads.messages fun key message =>
        key ∉ dropped && s.threadOf space message.conversationId then s.finish id
    else
      { s with
        threads :=
          { s.threads with
            messages := eraseAll s.threads.messages dropped
            conversations := eraseWhere s.threads.conversations fun _ row =>
              row.value.spaceId = some space }
        deleted := space :: s.deleted }.finish id

section Machine

variable (lower : Text → Text) (limits : SpaceQuota.Limits)

def advance (s : State) (id newId now : ℕ) : Task → Option State
  | .starting request =>
    if request.spaceId.any (· ∉ s.active) then some (s.finish id)
    else some (s.proceed id (.opening request))
  | .opening request =>
    (Transcripts.step lower s.threads (.start newId request now)).map fun threads =>
      { s with threads := threads }.finish id
  | .marking space =>
    match s.spaces.lookup space with
    | none => some (s.finish id)
    | some read => some (s.proceed id (.saving space read))
  | .saving space read =>
    if s.rowLocked space then none
    else
      match save s.spaces space read false with
      | none => some (s.finish id)
      | some spaces =>
        some ({ s with spaces := spaces }.proceed id (.emptying space .knowledge))
  | .emptying space stage => some (s.purge id space stage)

end Machine

end State

section Machine

variable (lower : Text → Text) (limits : SpaceQuota.Limits)

/-- One step: one transaction of a deletion, a start, or a request to one of the modules. -/
def step (s : State) : Event → Option State
  | .createSpace space =>
    if space ∈ s.spaces then none
    else some { s with spaces := s.spaces.insert space ⟨true, 1⟩ }
  | .upload e =>
    (SpaceQuota.step lower limits s.files e).map fun uploads => { s with uploads := uploads }
  | .complete file checksum =>
    match s.uploads.files.lookup file with
    | none => none
    | some row =>
      match row.value.complete checksum with
      | .error _ => none
      | .ok after =>
        some { s with
          uploads :=
            { s.uploads with
              files := s.uploads.files.insert file ⟨after, row.version + 1⟩ } }
  | .index call file =>
    (DocumentRegistry.step s.registry
      (.indexRead call (toString file) (s.readable file))).map fun registry =>
        { s with registry := registry }
  | .register e =>
    match e with
    | .indexCompare _ | .indexCommit _ _ | .abort _ | .setStatus _ _ _ _ =>
      (DocumentRegistry.step s.registry e).map fun registry => { s with registry := registry }
    | _ => none
  | .thread e =>
    match e with
    | .start _ _ _ => none
    | _ => (Transcripts.step lower s.threads e).map fun threads => { s with threads := threads }
  | .start id request =>
    if id ∈ s.tasks then none else some (s.proceed id (.starting request))
  | .delete id space =>
    if id ∈ s.tasks then none else some (s.proceed id (.marking space))
  | .next id newId now =>
    match s.tasks.lookup id with
    | none => none
    | some task => s.advance lower id newId now task
  | .fails id => if id ∈ s.tasks then some (s.finish id) else none

end Machine

def Task.opens (space : ℕ) : Task → Bool
  | .opening request => request.spaceId = some space
  | _ => false

def registersIn (space : ℕ) : DocumentRegistry.Call → Bool
  | .registering _ spaceId => spaceId = some (spaceText space)
  | _ => false

def State.betweenPurges (s : State) (space : ℕ) : Bool :=
  anyRow s.tasks fun _ task => task.rank space = Stage.files.rank

/-- A request that has passed its check is in flight when its module is purged, or passes it
between the purge of the corpus and that of the files. -/
def State.crosses (s : State) : Event → Bool
  | .next id _ _ =>
    match s.tasks.lookup id with
    | some (.emptying space .knowledge) => anyRow s.registry.calls fun _ => registersIn space
    | some (.emptying space (.threads _)) => anyRow s.tasks fun _ => Task.opens space
    | _ => false
  | .index _ file => (s.uploads.files.lookup file).any fun row =>
      row.value.isReady && row.value.spaceId.any s.betweenPurges
  | _ => false

/-- No deletion overtakes a request between its check and its insert. -/
def Timely (s : State) (e : Event) : Prop := s.crosses e = false

instance (s : State) (e : Event) : Decidable (Timely s e) :=
  inferInstanceAs (Decidable (_ = false))

end Aizzak.SpaceDeletion
