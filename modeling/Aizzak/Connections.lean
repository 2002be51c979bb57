import Aizzak.EventRuns
import Aizzak.PyText
import Aizzak.VersionedRows

/-!
One third-party OAuth connection: the aggregate, and the requests that work on its row. A handshake
begins with a row and a state and ends with the callback that consumes the state; a use of the
connection renews its tokens when they are about to expire; a revocation drops them. A save names
the version it was read at. The renewal of the tokens does not.
-/
namespace Aizzak.Connections

open EventRuns KeyedTables PyText VersionedRows

structure Tokens where
  access : Text
  refresh : Option Text
deriving DecidableEq

/-- The secrets provider: a reference opens to the tokens it was made from. -/
structure Transit (Ref : Type) where
  encrypt : ℕ → Tokens → Ref
  decrypt : Ref → Tokens
  decrypt_encrypt : ∀ nonce tokens, decrypt (encrypt nonce tokens) = tokens

inductive ConnectionStatus where
  | pending
  | connected
  | revoked
  | error
deriving DecidableEq

structure Connection (Ref : Type) where
  status : ConnectionStatus
  scopes : List Text
  tokenRef : Option Ref
  expiresAt : Option ℤ
  lastError : Option Text
deriving DecidableEq

namespace Connection

variable {Ref : Type}

def begin (conn : Connection Ref) (scopes : List Text) : Option (Connection Ref) :=
  if conn.status = .connected then none
  else some { conn with status := .pending, scopes := scopes, lastError := none }

def connect (conn : Connection Ref) (tokenRef : Ref) (expiresAt : ℤ) (scopes : List Text) :
    Option (Connection Ref) :=
  if conn.status = .revoked then none
  else some ⟨.connected, scopes, some tokenRef, some expiresAt, none⟩

def markError (conn : Connection Ref) (reason : Text) : Connection Ref :=
  { conn with status := .error, lastError := some reason }

def revoke (conn : Connection Ref) : Connection Ref :=
  if conn.status = .revoked then conn
  else { conn with status := .revoked, tokenRef := none, expiresAt := none }

def needsRefresh (conn : Connection Ref) (now skew : ℤ) : Bool :=
  match conn.expiresAt with
  | none => true
  | some expiresAt => expiresAt ≤ now + skew

theorem begin_status {conn after : Connection Ref} {scopes : List Text}
    (h : conn.begin scopes = some after) : after.status = .pending := by
  unfold Connection.begin at h
  split_ifs at h
  cases h
  rfl

theorem connect_status {conn after : Connection Ref} {tokenRef : Ref} {expiresAt : ℤ}
    {scopes : List Text} (h : conn.connect tokenRef expiresAt scopes = some after) :
    conn.status ≠ .revoked ∧ after.status = .connected := by
  unfold Connection.connect at h
  split_ifs at h with hr
  cases h
  exact ⟨hr, rfl⟩

theorem revoke_status (conn : Connection Ref) : conn.revoke.status = .revoked := by
  unfold Connection.revoke
  split_ifs with hr
  · exact hr
  · rfl

end Connection

structure Grant where
  accessToken : Text
  refreshToken : Option Text
  expiresIn : ℤ
  scopes : List Text
deriving DecidableEq

/-- What a step finds outside the database: the clock, whether the connector limit is reached,
the draw of a state, the nonce of an encryption, and the answer of the provider if it gives
one. -/
structure Input where
  now : ℤ
  full : Bool
  state : ℕ
  nonce : ℕ
  grant : Option Grant

/-- How far a request has come. A handshake remembers how many revocations had been committed
when it began. -/
inductive Task (Ref : Type) where
  | finding (begun : ℕ) (scopes : List Text)
  | counting (begun : ℕ) (scopes : List Text)
  | adding (begun : ℕ) (scopes : List Text)
  | restarting (begun : ℕ) (read : Versioned (Connection Ref)) (after : Connection Ref)
  | minting (begun : ℕ)
  | received (state : ℕ)
  | consuming (state begun : ℕ)
  | loading (begun : ℕ)
  | exchanging (begun : ℕ) (read : Versioned (Connection Ref))
  | connecting (begun : ℕ) (read : Versioned (Connection Ref)) (after : Connection Ref)
  | failing (read : Versioned (Connection Ref)) (after : Connection Ref)
  | gating
  | refreshing (now : ℤ) (read : Versioned (Connection Ref)) (refreshToken : Text)
  | renewing (tokenRef : Ref) (expiresAt : ℤ)
  | faulting (read : Versioned (Connection Ref)) (after : Connection Ref)
  | withdrawing
  | revoking (read : Versioned (Connection Ref)) (after : Connection Ref)
deriving DecidableEq

structure State (Ref : Type) where
  row : Option (Versioned (Connection Ref))
  states : AList fun _ : ℕ => ℕ
  revocations : ℕ
  tasks : AList fun _ : ℕ => Task Ref

inductive Event where
  | begin (id : ℕ) (scopes : List Text)
  | callback (id state : ℕ)
  | use (id : ℕ)
  | revoke (id : ℕ)
  | next (id : ℕ) (input : Input)
  | expire (state : ℕ)
  | crash (id : ℕ)

def saveRow {V : Type} (row : Option (Versioned V)) (read : Versioned V) (after : V) :
    Option (Versioned V) :=
  match row with
  | none => none
  | some row => if row.version = read.version then some ⟨after, row.version + 1⟩ else none

namespace State

variable {Ref : Type}

def init : State Ref := ⟨none, ∅, 0, ∅⟩

def finish (s : State Ref) (id : ℕ) : State Ref := { s with tasks := s.tasks.erase id }

def proceed (s : State Ref) (id : ℕ) (task : Task Ref) : State Ref :=
  { s with tasks := s.tasks.insert id task }

def commit (s : State Ref) (id : ℕ) (read : Versioned (Connection Ref))
    (after : Connection Ref) : State Ref :=
  match saveRow s.row read after with
  | none => s.finish id
  | some row => { s.finish id with row := some row }

def start (s : State Ref) (id : ℕ) (task : Task Ref) : Option (State Ref) :=
  if id ∈ s.tasks then none else some (s.proceed id task)

end State

section Machine

variable {Ref : Type} (transit : Transit Ref) (skew : ℤ)

def gate (conn : Versioned (Connection Ref)) (now : ℤ) : Option (Task Ref) :=
  match conn.value.tokenRef with
  | none => none
  | some tokenRef =>
    if conn.value.needsRefresh now skew = false then none
    else
      match (transit.decrypt tokenRef).refresh with
      | none | some [] =>
        some (.faulting conn (conn.value.markError
          (ofString "access token expired and no refresh_token is stored")))
      | some (c :: token) => some (.refreshing now conn (c :: token))

def effectiveRefresh (renewed : Option Text) (refreshToken : Text) : Text :=
  match renewed with
  | none | some [] => refreshToken
  | some (c :: token) => c :: token

def advance (s : State Ref) (id : ℕ) (input : Input) : Task Ref → Option (State Ref)
  | .finding begun scopes =>
    match s.row with
    | none => some (s.proceed id (.counting begun scopes))
    | some row =>
      match row.value.begin scopes with
      | some after => some (s.proceed id (.restarting begun row after))
      | none => some (s.proceed id (.minting begun))
  | .counting begun scopes =>
    if input.full then some (s.finish id) else some (s.proceed id (.adding begun scopes))
  | .adding begun scopes =>
    match s.row with
    | some _ => some (s.finish id)
    | none =>
      some
        { s.proceed id (.minting begun) with
          row := some ⟨⟨.pending, scopes, none, none, none⟩, 1⟩ }
  | .restarting begun read after =>
    match saveRow s.row read after with
    | none => some (s.finish id)
    | some row => some { s.proceed id (.minting begun) with row := some row }
  | .minting begun =>
    if input.state ∈ s.states then none
    else some { s.finish id with states := s.states.insert input.state begun }
  | .received state =>
    match s.states.lookup state with
    | none => some (s.finish id)
    | some begun => some (s.proceed id (.consuming state begun))
  | .consuming state begun =>
    some { s.proceed id (.loading begun) with states := s.states.erase state }
  | .loading begun =>
    match s.row with
    | none => some (s.finish id)
    | some row => some (s.proceed id (.exchanging begun row))
  | .exchanging begun read =>
    match input.grant with
    | none =>
      some (s.proceed id
        (.failing read (read.value.markError (ofString "oauth code exchange failed"))))
    | some grant =>
      let tokenRef := transit.encrypt input.nonce ⟨grant.accessToken, grant.refreshToken⟩
      match read.value.connect tokenRef (input.now + grant.expiresIn) grant.scopes with
      | none => some (s.finish id)
      | some after => some (s.proceed id (.connecting begun read after))
  | .connecting _ read after => some (s.commit id read after)
  | .failing read after => some (s.commit id read after)
  | .gating =>
    match s.row with
    | none => some (s.finish id)
    | some row =>
      match gate transit skew row input.now with
      | none => some (s.finish id)
      | some task => some (s.proceed id task)
  | .refreshing now read refreshToken =>
    match input.grant with
    | none =>
      some (s.proceed id
        (.faulting read (read.value.markError (ofString "oauth token refresh failed"))))
    | some grant =>
      let effective := effectiveRefresh grant.refreshToken refreshToken
      some (s.proceed id
        (.renewing (transit.encrypt input.nonce ⟨grant.accessToken, some effective⟩)
          (now + grant.expiresIn)))
  | .renewing tokenRef expiresAt =>
    match s.row with
    | none => some (s.finish id)
    | some row =>
      let value := { row.value with tokenRef := some tokenRef, expiresAt := some expiresAt }
      some { s.finish id with row := some ⟨value, row.version⟩ }
  | .faulting read after => some (s.commit id read after)
  | .withdrawing =>
    match s.row with
    | none => some (s.finish id)
    | some row =>
      if row.value.status = .revoked then some (s.finish id)
      else some (s.proceed id (.revoking row row.value.revoke))
  | .revoking read after =>
    match saveRow s.row read after with
    | none => some (s.finish id)
    | some row =>
      some { s.finish id with row := some row, revocations := s.revocations + 1 }

def step (s : State Ref) : Event → Option (State Ref)
  | .begin id scopes => s.start id (.finding s.revocations scopes)
  | .callback id state => s.start id (.received state)
  | .use id => s.start id .gating
  | .revoke id => s.start id .withdrawing
  | .next id input =>
    match s.tasks.lookup id with
    | none => none
    | some task => advance transit skew s id input task
  | .expire state => some { s with states := s.states.erase state }
  | .crash id => if id ∈ s.tasks then some (s.finish id) else none

end Machine

section Saves

variable {V : Type} {row read last : Versioned V} {stored : Option (Versioned V)} {after : V}

theorem saveRow_eq_some (h : saveRow stored read after = some last) :
    ∃ row, stored = some row ∧ row.version = read.version ∧ last = ⟨after, row.version + 1⟩ := by
  unfold saveRow at h
  split at h
  · cases h
  · rename_i row
    split_ifs at h with hv
    cases h
    exact ⟨row, rfl, hv, rfl⟩

end Saves

/-- What a request may plan without touching the row. -/
inductive Plans {Ref : Type} (transit : Transit Ref) (skew : ℤ) (s : State Ref)
    (input : Input) : Task Ref → Task Ref → Prop where
  | counts {begun : ℕ} {scopes : List Text} :
      Plans transit skew s input (.finding begun scopes) (.counting begun scopes)
  | restarts {begun : ℕ} {scopes : List Text} {row : Versioned (Connection Ref)}
      {after : Connection Ref} (hrow : s.row = some row)
      (hbegin : row.value.begin scopes = some after) :
      Plans transit skew s input (.finding begun scopes) (.restarting begun row after)
  | mints {begun : ℕ} {scopes : List Text} :
      Plans transit skew s input (.finding begun scopes) (.minting begun)
  | adds {begun : ℕ} {scopes : List Text} :
      Plans transit skew s input (.counting begun scopes) (.adding begun scopes)
  | consumes {state begun : ℕ} (hstate : s.states.lookup state = some begun) :
      Plans transit skew s input (.received state) (.consuming state begun)
  | exchanges {begun : ℕ} {row : Versioned (Connection Ref)} (hrow : s.row = some row) :
      Plans transit skew s input (.loading begun) (.exchanging begun row)
  | fails {begun : ℕ} {read : Versioned (Connection Ref)} {reason : Text}
      (hgrant : input.grant = none) :
      Plans transit skew s input (.exchanging begun read)
        (.failing read (read.value.markError reason))
  | connects {begun : ℕ} {read : Versioned (Connection Ref)} {tokenRef : Ref} {expiresAt : ℤ}
      {scopes : List Text} {grant : Grant} {after : Connection Ref}
      (hgrant : input.grant = some grant)
      (hconnect : read.value.connect tokenRef expiresAt scopes = some after) :
      Plans transit skew s input (.exchanging begun read) (.connecting begun read after)
  | gates {row : Versioned (Connection Ref)} {now : ℤ} {task : Task Ref} (hrow : s.row = some row)
      (hgate : gate transit skew row now = some task) : Plans transit skew s input .gating task
  | faults {now : ℤ} {read : Versioned (Connection Ref)} {token reason : Text} :
      Plans transit skew s input (.refreshing now read token)
        (.faulting read (read.value.markError reason))
  | renews {now expiresAt : ℤ} {read : Versioned (Connection Ref)} {token : Text} {nonce : ℕ}
      {grant : Grant} :
      Plans transit skew s input (.refreshing now read token)
        (.renewing
          (transit.encrypt nonce
            ⟨grant.accessToken, some (effectiveRefresh grant.refreshToken token)⟩) expiresAt)
  | revokes {row : Versioned (Connection Ref)} (hrow : s.row = some row) :
      Plans transit skew s input .withdrawing (.revoking row row.value.revoke)

inductive Saves {Ref : Type} :
    Task Ref → Versioned (Connection Ref) → Connection Ref → Option (Task Ref) → ℕ → Prop where
  | restarted {begun : ℕ} {read : Versioned (Connection Ref)} {after : Connection Ref} :
      Saves (.restarting begun read after) read after (some (.minting begun)) 0
  | connected {begun : ℕ} {read : Versioned (Connection Ref)} {after : Connection Ref} :
      Saves (.connecting begun read after) read after none 0
  | failed {read : Versioned (Connection Ref)} {after : Connection Ref} :
      Saves (.failing read after) read after none 0
  | faulted {read : Versioned (Connection Ref)} {after : Connection Ref} :
      Saves (.faulting read after) read after none 0
  | revoked {read : Versioned (Connection Ref)} {after : Connection Ref} :
      Saves (.revoking read after) read after none 1

def rest {Ref : Type} (s : State Ref) (id : ℕ) : Option (Task Ref) → AList fun _ : ℕ => Task Ref
  | none => s.tasks.erase id
  | some task => s.tasks.insert id task

inductive Turn {Ref : Type} (transit : Transit Ref) (skew : ℤ) (s : State Ref) :
    Event → State Ref → Prop where
  | started {e : Event} {id : ℕ} {task : Task Ref} (hnew : id ∉ s.tasks)
      (htask : (∃ scopes, task = .finding s.revocations scopes) ∨
        (∃ state, task = .received state) ∨ task = .gating ∨ task = .withdrawing) :
      Turn transit skew s e (s.proceed id task)
  | planned {id : ℕ} {input : Input} {task next : Task Ref} (htask : s.tasks.lookup id = some task)
      (h : Plans transit skew s input task next) :
      Turn transit skew s (.next id input) (s.proceed id next)
  | finished {e : Event} {id : ℕ} : Turn transit skew s e (s.finish id)
  | added {id : ℕ} {input : Input} {begun : ℕ} {scopes : List Text}
      (htask : s.tasks.lookup id = some (.adding begun scopes)) (hrow : s.row = none) :
      Turn transit skew s (.next id input)
        { s.proceed id (.minting begun) with
          row := some ⟨⟨.pending, scopes, none, none, none⟩, 1⟩ }
  | minted {id : ℕ} {input : Input} {state begun : ℕ}
      (htask : s.tasks.lookup id = some (.minting begun)) (hnew : state ∉ s.states) :
      Turn transit skew s (.next id input)
        { s.finish id with states := s.states.insert state begun }
  | consumed {id : ℕ} {input : Input} {state begun : ℕ}
      (htask : s.tasks.lookup id = some (.consuming state begun)) :
      Turn transit skew s (.next id input)
        { s.proceed id (.loading begun) with states := s.states.erase state }
  | saved {id more : ℕ} {input : Input} {task : Task Ref} {next : Option (Task Ref)}
      {row read : Versioned (Connection Ref)} {after : Connection Ref}
      (htask : s.tasks.lookup id = some task) (h : Saves task read after next more)
      (hrow : s.row = some row) (hversion : row.version = read.version) :
      Turn transit skew s (.next id input)
        { s with
          row := some ⟨after, row.version + 1⟩
          revocations := s.revocations + more
          tasks := rest s id next }
  | renewed {id : ℕ} {input : Input} {tokenRef : Ref} {expiresAt : ℤ}
      {row : Versioned (Connection Ref)}
      (htask : s.tasks.lookup id = some (.renewing tokenRef expiresAt)) (hrow : s.row = some row) :
      Turn transit skew s (.next id input)
        { s.finish id with
          row := some ⟨{ row.value with tokenRef := some tokenRef, expiresAt := some expiresAt },
            row.version⟩ }
  | expired {state : ℕ} :
      Turn transit skew s (.expire state) { s with states := s.states.erase state }

section Steps

variable {Ref : Type} {transit : Transit Ref} {skew : ℤ} {s t : State Ref} {e : Event} {id : ℕ}
  {input : Input} {task : Task Ref}

theorem turn_start (ht : (∃ scopes, task = .finding s.revocations scopes) ∨
    (∃ state, task = .received state) ∨ task = .gating ∨ task = .withdrawing)
    (h : s.start id task = some t) : Turn transit skew s e t := by
  unfold State.start at h
  split_ifs at h with hnew
  cases h
  exact .started hnew ht

theorem turn_commit {read : Versioned (Connection Ref)} {after : Connection Ref}
    (ht : s.tasks.lookup id = some task) (hs : Saves task read after none 0) :
    Turn transit skew s (.next id input) (s.commit id read after) := by
  unfold State.commit
  split
  · exact .finished
  · rename_i last hsa
    obtain ⟨row, hrow, hv, rfl⟩ := saveRow_eq_some hsa
    exact .saved ht hs hrow hv

theorem turn_advance (ht : s.tasks.lookup id = some task)
    (h : advance transit skew s id input task = some t) :
    Turn transit skew s (.next id input) t := by
  cases task with
  | finding begun scopes =>
    simp only [advance] at h
    split at h
    · cases h
      exact .planned ht .counts
    · rename_i row hrow
      split at h
      · rename_i after hb
        cases h
        exact .planned ht (.restarts hrow hb)
      · cases h
        exact .planned ht .mints
  | counting begun scopes =>
    simp only [advance] at h
    split_ifs at h
    · cases h
      exact .finished
    · cases h
      exact .planned ht .adds
  | adding begun scopes =>
    simp only [advance] at h
    split at h
    · cases h
      exact .finished
    · rename_i hrow
      cases h
      exact .added ht hrow
  | restarting begun read after =>
    simp only [advance] at h
    split at h
    · cases h
      exact .finished
    · rename_i last hsa
      obtain ⟨row, hrow, hv, rfl⟩ := saveRow_eq_some hsa
      cases h
      exact .saved ht .restarted hrow hv
  | minting begun =>
    simp only [advance] at h
    split_ifs at h with hnew
    cases h
    exact .minted ht hnew
  | received state =>
    simp only [advance] at h
    split at h
    · cases h
      exact .finished
    · rename_i begun hs
      cases h
      exact .planned ht (.consumes hs)
  | consuming state begun =>
    cases h
    exact .consumed ht
  | loading begun =>
    simp only [advance] at h
    split at h
    · cases h
      exact .finished
    · rename_i row hrow
      cases h
      exact .planned ht (.exchanges hrow)
  | exchanging begun read =>
    simp only [advance] at h
    split at h
    · rename_i hg
      cases h
      exact .planned ht (.fails hg)
    · rename_i grant hg
      split at h
      · cases h
        exact .finished
      · rename_i after hc
        cases h
        exact .planned ht (.connects hg hc)
  | connecting begun read after =>
    cases h
    exact turn_commit ht .connected
  | failing read after =>
    cases h
    exact turn_commit ht .failed
  | gating =>
    simp only [advance] at h
    split at h
    · cases h
      exact .finished
    · rename_i row hrow
      split at h
      · cases h
        exact .finished
      · rename_i task hga
        cases h
        exact .planned ht (.gates hrow hga)
  | refreshing now read refreshToken =>
    simp only [advance] at h
    split at h
    · cases h
      exact .planned ht .faults
    · cases h
      exact .planned ht .renews
  | renewing tokenRef expiresAt =>
    simp only [advance] at h
    split at h
    · cases h
      exact .finished
    · rename_i row hrow
      cases h
      exact .renewed ht hrow
  | faulting read after =>
    cases h
    exact turn_commit ht .faulted
  | withdrawing =>
    simp only [advance] at h
    split at h
    · cases h
      exact .finished
    · rename_i row hrow
      split_ifs at h
      · cases h
        exact .finished
      · cases h
        exact .planned ht (.revokes hrow)
  | revoking read after =>
    simp only [advance] at h
    split at h
    · cases h
      exact .finished
    · rename_i last hsa
      obtain ⟨row, hrow, hv, rfl⟩ := saveRow_eq_some hsa
      cases h
      exact .saved ht .revoked hrow hv

theorem step_turn (h : step transit skew s e = some t) : Turn transit skew s e t := by
  cases e with
  | begin id scopes => exact turn_start (.inl ⟨scopes, rfl⟩) h
  | callback id state => exact turn_start (.inr (.inl ⟨state, rfl⟩)) h
  | use id => exact turn_start (.inr (.inr (.inl rfl))) h
  | revoke id => exact turn_start (.inr (.inr (.inr rfl))) h
  | next id input =>
    simp only [step] at h
    split at h
    · cases h
    · rename_i task ht
      exact turn_advance ht h
  | expire state =>
    cases h
    exact .expired
  | crash id =>
    simp only [step] at h
    split_ifs at h
    cases h
    exact .finished

end Steps

end Aizzak.Connections
