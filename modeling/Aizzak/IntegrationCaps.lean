import Aizzak.Connections

/-!
The two caps of a workspace's integrations. The connector cap is checked when a handshake creates
a row, and a row counts once its callback is saved; the server cap is checked by a read before the
insert or the revival. How the counts move is read off each step, and both caps hold while no
other connection or activation comes between a check and the write it was made for.
-/
namespace Aizzak.IntegrationCaps

open EventRuns KeyedTables PyText VersionedRows
open Connections (Tokens Transit ConnectionStatus Connection Input saveRow saveRow_eq_some)

inductive McpStatus where
  | active
  | disabled
  | error
deriving DecidableEq

structure McpServer (Ref : Type) where
  endpointUrl : Text
  transport : Text
  authRef : Option Ref
  status : McpStatus
deriving DecidableEq

namespace McpServer

variable {Ref : Type}

def disable (server : McpServer Ref) : McpServer Ref :=
  if server.status = .disabled then server else { server with status := .disabled }

def reactivate (server : McpServer Ref) (endpointUrl transport : Text) (authRef : Option Ref) :
    Option (McpServer Ref) :=
  if server.status = .active then none else some ⟨endpointUrl, transport, authRef, .active⟩

theorem disable_status (server : McpServer Ref) : server.disable.status = .disabled := by
  unfold disable
  split_ifs with hd
  · exact hd
  · rfl

theorem reactivate_status {server after : McpServer Ref} {endpointUrl transport : Text}
    {authRef : Option Ref} (h : server.reactivate endpointUrl transport authRef = some after) :
    server.status ≠ .active ∧ after.status = .active := by
  unfold reactivate at h
  split_ifs at h with ha
  cases h
  exact ⟨ha, rfl⟩

end McpServer

structure Registration (Ref : Type) where
  name : Text
  endpointUrl : Text
  transport : Text
  authRef : Option Ref

/-- How far a request on the servers has come. A registration remembers how many servers had
become active when it counted. -/
inductive Task (Ref : Type) where
  | finding (registration : Registration Ref)
  | counting (registration : Registration Ref) (existing : Option (Versioned (McpServer Ref)))
  | adding (registration : Registration Ref) (counted : ℕ)
  | reviving (name : Text) (read : Versioned (McpServer Ref)) (after : McpServer Ref)
    (counted : ℕ)
  | getting (name : Text)
  | disabling (name : Text) (read : Versioned (McpServer Ref)) (after : McpServer Ref)

structure Limits where
  maxConnectors : ℕ
  maxMcpServers : ℕ

/-- A workspace: its connections by connector, the connectors for which the cap was checked with no
other one connected since, its servers by name, and how many times a server has become active. -/
structure State (Ref : Type) where
  connections : AList fun _ : Text => Connections.State Ref
  fresh : List Text
  servers : AList fun _ : Text => Versioned (McpServer Ref)
  activations : ℕ
  tasks : AList fun _ : ℕ => Task Ref

inductive Event (Ref : Type) where
  | connection (key : Text) (event : Connections.Event)
  | register (id : ℕ) (registration : Registration Ref)
  | disable (id : ℕ) (name : Text)
  | next (id : ℕ)
  | crash (id : ℕ)

variable {Ref : Type}

def isConnected (conn : Connections.State Ref) : Bool :=
  conn.row.any fun row => row.value.status = .connected

def isActive (row : Versioned (McpServer Ref)) : Bool := row.value.status = .active

def connected (s : State Ref) : ℕ := total (fun conn => (isConnected conn).toNat) s.connections

def active (s : State Ref) : ℕ := total (fun row => (isActive row).toNat) s.servers

namespace State

def init : State Ref := ⟨∅, [], ∅, 0, ∅⟩

def connection (s : State Ref) (key : Text) : Connections.State Ref :=
  (s.connections.lookup key).getD .init

def finish (s : State Ref) (id : ℕ) : State Ref := { s with tasks := s.tasks.erase id }

def proceed (s : State Ref) (id : ℕ) (task : Task Ref) : State Ref :=
  { s with tasks := s.tasks.insert id task }

def start (s : State Ref) (id : ℕ) (task : Task Ref) : Option (State Ref) :=
  if id ∈ s.tasks then none else some (s.proceed id task)

end State

def advance (limits : Limits) (s : State Ref) (id : ℕ) : Task Ref → State Ref
  | .finding registration =>
    match s.servers.lookup registration.name with
    | none => s.proceed id (.counting registration none)
    | some row =>
      if row.value.status = .active then s.finish id
      else s.proceed id (.counting registration (some row))
  | .counting registration existing =>
    if limits.maxMcpServers ≤ active s then s.finish id
    else
      match existing with
      | none => s.proceed id (.adding registration s.activations)
      | some read =>
        match read.value.reactivate registration.endpointUrl registration.transport
            registration.authRef with
        | none => s.finish id
        | some after => s.proceed id (.reviving registration.name read after s.activations)
  | .adding registration _ =>
    if registration.name ∈ s.servers then s.finish id
    else
      let server : McpServer Ref :=
        ⟨registration.endpointUrl, registration.transport, registration.authRef, .active⟩
      { s.finish id with
        servers := s.servers.insert registration.name ⟨server, 1⟩
        activations := s.activations + 1 }
  | .reviving name read after _ =>
    match save s.servers name read after with
    | none => s.finish id
    | some servers =>
      { s.finish id with servers := servers, activations := s.activations + 1 }
  | .getting name =>
    match s.servers.lookup name with
    | none => s.finish id
    | some row =>
      if row.value.status = .disabled then s.finish id
      else s.proceed id (.disabling name row row.value.disable)
  | .disabling name read after =>
    match save s.servers name read after with
    | none => s.finish id
    | some servers => { s.finish id with servers := servers }

def counts (limits : Limits) (s : State Ref) : Connections.Event → Bool
  | .next _ input => input.full = decide (limits.maxConnectors ≤ connected s)
  | .begin _ _ | .callback _ _ | .use _ | .revoke _ | .expire _ | .crash _ => true

def connects (conn : Connections.State Ref) : Connections.Event → Bool
  | .next id _ =>
    match conn.row, conn.tasks.lookup id with
    | some row, some (.connecting _ read _) =>
      row.version = read.version && row.value.status ≠ .connected
    | _, _ => false
  | .begin _ _ | .callback _ _ | .use _ | .revoke _ | .expire _ | .crash _ => false

def admits (conn after : Connections.State Ref) : Connections.Event → Bool
  | .next id _ =>
    match conn.tasks.lookup id, after.tasks.lookup id with
    | some (.counting _ _), some (.adding _ _) => true
    | _, _ => false
  | .begin _ _ | .callback _ _ | .use _ | .revoke _ | .expire _ | .crash _ => false

/-- A connection outdates the checks of the other connectors. -/
def State.freshAfter (s : State Ref) (key : Text) (event : Connections.Event)
    (after : Connections.State Ref) : List Text :=
  if connects (s.connection key) event then s.fresh.filter (· = key)
  else if admits (s.connection key) after event then key :: s.fresh
  else s.fresh

def step (transit : Transit Ref) (skew : ℤ) (limits : Limits) (s : State Ref) :
    Event Ref → Option (State Ref)
  | .connection key event =>
    if counts limits s event then
      match Connections.step transit skew (s.connection key) event with
      | none => none
      | some conn =>
        some
          { s with
            connections := s.connections.insert key conn
            fresh := s.freshAfter key event conn }
    else none
  | .register id registration => s.start id (.finding registration)
  | .disable id name => s.start id (.getting name)
  | .next id =>
    match s.tasks.lookup id with
    | none => none
    | some task => some (advance limits s id task)
  | .crash id => if id ∈ s.tasks then some (s.finish id) else none

def activates (s : State Ref) : Task Ref → Bool
  | .adding registration _ => registration.name ∉ s.servers
  | .reviving name read after _ => (save s.servers name read after).isSome
  | .finding _ | .counting _ _ | .getting _ | .disabling _ _ _ => false

def Task.undisturbed (activations : ℕ) : Task Ref → Bool
  | .adding _ counted | .reviving _ _ _ counted => counted = activations
  | .finding _ | .counting _ _ | .getting _ | .disabling _ _ _ => true

/-- No other connector has been connected since the cap was checked for the one that a callback
connects, and no other server has become active since the registration counted that writes. -/
def undisturbed (s : State Ref) : Event Ref → Bool
  | .connection key event => !connects (s.connection key) event || key ∈ s.fresh
  | .next id => (s.tasks.lookup id).all (Task.undisturbed s.activations)
  | .register _ _ | .disable _ _ | .crash _ => true

def Undisturbed (s : State Ref) (e : Event Ref) : Prop := undisturbed s e = true

instance (s : State Ref) (e : Event Ref) : Decidable (Undisturbed s e) :=
  inferInstanceAs (Decidable (_ = true))

structure Within (limits : Limits) (s : State Ref) : Prop where
  connectors : connected s ≤ limits.maxConnectors
  servers : active s ≤ limits.maxMcpServers

section Connecting

variable {transit : Transit Ref} {skew : ℤ} {conn after : Connections.State Ref}
  {e : Connections.Event}

def Outcome : Connections.Task Ref → Prop
  | .connecting _ _ after => after.status = .connected
  | .restarting _ _ after | .failing _ after | .faulting _ after | .revoking _ after =>
    after.status ≠ .connected
  | .finding _ _ | .counting _ _ | .adding _ _ | .minting _ | .received _ | .consuming _ _
  | .loading _ | .exchanging _ _ | .gating | .refreshing _ _ _ | .renewing _ _ | .withdrawing =>
    True

def Outcomes (conn : Connections.State Ref) : Prop :=
  ∀ id task, conn.tasks.lookup id = some task → Outcome task

theorem outcomes_init : Outcomes (Connections.State.init : Connections.State Ref) := by
  intro id task ht
  simp [Connections.State.init] at ht

theorem outcome_of_plans {input : Input} {task next : Connections.Task Ref}
    (h : Connections.Plans transit skew conn input task next) : Outcome next := by
  cases h with
  | restarts hrow hb => simp [Outcome, Connection.begin_status hb]
  | fails hg => simp [Outcome, Connection.markError]
  | connects hg hc => exact (Connection.connect_status hc).2
  | gates hrow hga =>
    unfold Connections.gate at hga
    split at hga
    · cases hga
    · split_ifs at hga
      split at hga
      · cases hga
        simp [Outcome, Connection.markError]
      · cases hga
        simp [Outcome, Connection.markError]
      · cases hga
        trivial
  | faults => simp [Outcome, Connection.markError]
  | revokes hrow => simp [Outcome, Connection.revoke_status]
  | _ => trivial

theorem turn_outcomes (h : Connections.Turn transit skew conn e after) (hs : Outcomes conn) :
    Outcomes after := by
  have he : ∀ id, Outcomes (conn.finish id) :=
    fun id i task ht => hs i task (lookup_erase_iff.mp ht).2
  cases h with
  | started hnew ht =>
    refine forall_insert ?_ hs
    rcases ht with ⟨scopes, rfl⟩ | ⟨state, rfl⟩ | rfl | rfl <;> trivial
  | planned ht h => exact forall_insert (outcome_of_plans h) hs
  | finished => exact he _
  | added ht hrow => exact forall_insert trivial hs
  | minted ht hnew => exact he _
  | consumed ht => exact forall_insert trivial hs
  | saved ht h hrow hv =>
    cases h with
    | restarted => exact forall_insert trivial hs
    | connected => exact he _
    | failed => exact he _
    | faulted => exact he _
    | revoked => exact he _
  | renewed ht hrow => exact he _
  | expired => exact hs

theorem isConnected_of_connects (hs : Outcomes conn) (hj : connects conn e = true)
    (h : Connections.step transit skew conn e = some after) :
    isConnected conn = false ∧ isConnected after = true := by
  cases e with
  | next id input =>
    simp only [connects] at hj
    split at hj
    · rename_i row begun read saved hrow ht
      obtain ⟨hv, hnot⟩ : row.version = read.version ∧ row.value.status ≠ .connected := by
        simpa using hj
      have hsa : saved.status = .connected := hs id _ ht
      simp only [Connections.step, ht, Connections.advance, Connections.State.commit, saveRow,
        hrow, hv, if_true, Option.some.injEq] at h
      subst h
      exact ⟨by simp [isConnected, hrow, hnot], by simp [isConnected, hsa]⟩
    · cases hj
  | _ => cases hj

/-- Nothing else connects a row. -/
theorem isConnected_of_not_connects (hs : Outcomes conn) (hj : connects conn e = false)
    (h : Connections.Turn transit skew conn e after) (ha : isConnected after = true) :
    isConnected conn = true := by
  cases h with
  | saved ht h hrow hv =>
    rename_i id more input task next row read value
    have hvalue : value.status = .connected := by simpa [isConnected] using ha
    have ho := hs id task ht
    cases h with
    | connected =>
      simpa [connects, isConnected, hrow, ht, hv] using hj
    | restarted => exact absurd hvalue ho
    | failed => exact absurd hvalue ho
    | faulted => exact absurd hvalue ho
    | revoked => exact absurd hvalue ho
  | renewed ht hrow => simpa [isConnected, hrow] using ha
  | added ht hrow => simp [isConnected] at ha
  | started => exact ha
  | planned => exact ha
  | finished => exact ha
  | minted => exact ha
  | consumed => exact ha
  | expired => exact ha

end Connecting

inductive Moves (limits : Limits) (s : State Ref) (id : ℕ) : Task Ref → State Ref → Prop where
  | finished {task : Task Ref} (hidle : activates s task = false) :
      Moves limits s id task (s.finish id)
  | found {registration : Registration Ref} {existing : Option (Versioned (McpServer Ref))}
      (hread : ∀ read, existing = some read → s.servers.lookup registration.name = some read) :
      Moves limits s id (.finding registration)
        (s.proceed id (.counting registration existing))
  | admits {registration : Registration Ref} (hroom : active s < limits.maxMcpServers) :
      Moves limits s id (.counting registration none)
        (s.proceed id (.adding registration s.activations))
  | readmits {registration : Registration Ref} {read : Versioned (McpServer Ref)}
      {after : McpServer Ref} (hroom : active s < limits.maxMcpServers)
      (hafter : read.value.reactivate registration.endpointUrl registration.transport
        registration.authRef = some after) :
      Moves limits s id (.counting registration (some read))
        (s.proceed id (.reviving registration.name read after s.activations))
  | added {registration : Registration Ref} {counted : ℕ} {server : McpServer Ref}
      (hnew : registration.name ∉ s.servers) (hactive : server.status = .active) :
      Moves limits s id (.adding registration counted)
        { s.finish id with
          servers := s.servers.insert registration.name ⟨server, 1⟩
          activations := s.activations + 1 }
  | revived {name : Text} {read : Versioned (McpServer Ref)} {after : McpServer Ref}
      {counted : ℕ} {servers : AList fun _ : Text => Versioned (McpServer Ref)}
      (hsave : save s.servers name read after = some servers) :
      Moves limits s id (.reviving name read after counted)
        { s.finish id with servers := servers, activations := s.activations + 1 }
  | got {name : Text} {read : Versioned (McpServer Ref)}
      (hread : s.servers.lookup name = some read) :
      Moves limits s id (.getting name) (s.proceed id (.disabling name read read.value.disable))
  | disabled {name : Text} {read : Versioned (McpServer Ref)} {after : McpServer Ref}
      {servers : AList fun _ : Text => Versioned (McpServer Ref)}
      (hsave : save s.servers name read after = some servers) :
      Moves limits s id (.disabling name read after) { s.finish id with servers := servers }

def Ready (limits : Limits) (s : State Ref) : Task Ref → Prop
  | .counting registration existing =>
    ∀ read, existing = some read → Held (fun _ _ => True) s.servers registration.name read
  | .adding _ counted => active s + counted < limits.maxMcpServers + s.activations
  | .reviving name read after counted =>
    Held (fun _ _ => True) s.servers name read ∧ read.value.status ≠ .active ∧
      after.status = .active ∧ active s + counted < limits.maxMcpServers + s.activations
  | .disabling name read after =>
    Held (fun _ _ => True) s.servers name read ∧ after.status ≠ .active
  | .finding _ | .getting _ => True

structure Sound (limits : Limits) (s : State Ref) : Prop where
  connections : ∀ key, Outcomes (s.connection key)
  fresh : ∀ key ∈ s.fresh,
    connected s < limits.maxConnectors + (isConnected (s.connection key)).toNat
  tasks : ∀ id task, s.tasks.lookup id = some task → Ready limits s task

section Servers

variable {limits : Limits} {s t : State Ref} {id : ℕ} {task : Task Ref}

theorem advance_moves : Moves limits s id task (advance limits s id task) := by
  cases task with
  | finding registration =>
    simp only [advance]
    split
    · exact .found fun read hr => by cases hr
    · rename_i row hrow
      split_ifs
      · exact .finished rfl
      · refine .found fun read hr => ?_
        cases hr
        exact hrow
  | counting registration existing =>
    simp only [advance]
    split_ifs with hf
    · exact .finished rfl
    · have hro : active s < limits.maxMcpServers := by omega
      split
      · exact .admits hro
      · split
        · exact .finished rfl
        · rename_i after ha
          exact .readmits hro ha
  | adding registration counted =>
    simp only [advance]
    split_ifs with hn
    · exact .finished (by simp [activates, hn])
    · exact .added hn rfl
  | reviving name read after counted =>
    simp only [advance]
    split
    · rename_i hs
      exact .finished (by simp [activates, hs])
    · rename_i servers hs
      exact .revived hs
  | getting name =>
    simp only [advance]
    split
    · exact .finished rfl
    · rename_i row hrow
      split_ifs
      · exact .finished rfl
      · exact .got hrow
  | disabling name read after =>
    simp only [advance]
    split
    · exact .finished rfl
    · rename_i servers hs
      exact .disabled hs

theorem toNat_isActive {row : Versioned (McpServer Ref)} (h : row.value.status = .active) :
    (isActive row).toNat = 1 := by
  simp [isActive, h]

theorem toNat_isActive_of_ne {row : Versioned (McpServer Ref)} (h : row.value.status ≠ .active) :
    (isActive row).toNat = 0 := by
  simp [isActive, h]

/-- A registration's write adds one to the count, and no other step adds to it. -/
theorem moves_active (h : Moves limits s id task t) (hr : Ready limits s task) :
    (activates s task = true ∧ active t = active s + 1 ∧ t.activations = s.activations + 1) ∨
      (activates s task = false ∧ active t ≤ active s ∧ t.activations = s.activations) := by
  cases h with
  | finished hi => exact .inr ⟨hi, le_rfl, rfl⟩
  | found hre => exact .inr ⟨rfl, le_rfl, rfl⟩
  | admits hro => exact .inr ⟨rfl, le_rfl, rfl⟩
  | readmits hro ha => exact .inr ⟨rfl, le_rfl, rfl⟩
  | got hre => exact .inr ⟨rfl, le_rfl, rfl⟩
  | added hnew hac =>
    rename_i registration counted server
    refine .inl ⟨by simp [activates, hnew], ?_, rfl⟩
    have hc : total (fun row => (isActive row).toNat)
        (s.servers.insert registration.name ⟨server, 1⟩) =
        (isActive ⟨server, 1⟩).toNat + active s := total_insert_of_notMem hnew
    rw [toNat_isActive hac] at hc
    rw [active, hc]
    omega
  | revived hs =>
    rename_i name read after counted servers
    obtain ⟨hh, hold, ha, -⟩ := hr
    refine .inl ⟨by simp [activates, hs], ?_, rfl⟩
    obtain ⟨hre, rfl⟩ := hh.save_eq_some hs
    have hc : total (fun row => (isActive row).toNat)
        (s.servers.insert name ⟨after, read.version + 1⟩) + (isActive read).toNat =
        (isActive ⟨after, read.version + 1⟩).toNat + active s := total_insert_of_lookup hre
    rw [toNat_isActive_of_ne hold, toNat_isActive ha] at hc
    exact hc.trans (Nat.add_comm 1 _)
  | disabled hs =>
    rename_i name read after servers
    obtain ⟨hh, ha⟩ := hr
    refine .inr ⟨rfl, ?_, rfl⟩
    obtain ⟨hre, rfl⟩ := hh.save_eq_some hs
    have hc : total (fun row => (isActive row).toNat)
        (s.servers.insert name ⟨after, read.version + 1⟩) + (isActive read).toNat =
        (isActive ⟨after, read.version + 1⟩).toNat + active s := total_insert_of_lookup hre
    have hi : (isActive ⟨after, read.version + 1⟩).toNat = 0 := toNat_isActive_of_ne ha
    rw [hi, Nat.zero_add] at hc
    exact Nat.le.intro hc

/-- A registration that no other activation has overtaken still has the room it found. -/
theorem room_of_undisturbed (hr : Ready limits s task) (ha : activates s task = true)
    (hu : task.undisturbed s.activations = true) : active s < limits.maxMcpServers := by
  cases task with
  | adding registration counted =>
    obtain rfl := of_decide_eq_true hu
    exact Nat.add_lt_add_iff_right.mp hr
  | reviving name read after counted =>
    obtain rfl := of_decide_eq_true hu
    exact Nat.add_lt_add_iff_right.mp hr.2.2.2
  | _ => cases ha

/-- No row of the servers goes away. -/
theorem moves_grows (h : Moves limits s id task t) (hr : Ready limits s task) :
    Grows (fun _ _ => True) s.servers t.servers := by
  cases h with
  | finished hi => exact .refl _
  | found hre => exact .refl _
  | admits hro => exact .refl _
  | readmits hro haf => exact .refl _
  | got hre => exact .refl _
  | added hnew ha => exact .added hnew
  | revived hs =>
    obtain ⟨hre, rfl⟩ := hr.1.save_eq_some hs
    exact .saved hre trivial
  | disabled hs =>
    obtain ⟨hre, rfl⟩ := hr.1.save_eq_some hs
    exact .saved hre trivial

theorem Ready.grows (hr : Ready limits s task)
    (hg : Grows (fun _ _ => True) s.servers t.servers)
    (hc : active t + s.activations ≤ active s + t.activations) : Ready limits t task := by
  cases task with
  | counting registration existing => exact fun read hre => (hr read hre).grows hg
  | adding registration counted =>
    have hro : active s + counted < limits.maxMcpServers + s.activations := hr
    exact show active t + counted < limits.maxMcpServers + t.activations by omega
  | reviving name read after counted =>
    obtain ⟨hh, hold, ha, hro⟩ := hr
    exact ⟨hh.grows hg, hold, ha, by omega⟩
  | disabling name read after => exact ⟨hr.1.grows hg, hr.2⟩
  | finding registration => trivial
  | getting name => trivial

theorem moves_tasks (h : Moves limits s id task t) (hr : Ready limits s task)
    (hs : ∀ i task, s.tasks.lookup i = some task → Ready limits s task) :
    ∀ i task, t.tasks.lookup i = some task → Ready limits t task := by
  have hc : active t + s.activations ≤ active s + t.activations := by
    rcases moves_active h hr with ⟨-, ha, hm⟩ | ⟨-, ha, hsm⟩ <;> omega
  have hg := moves_grows h hr
  have hold : ∀ i task, s.tasks.lookup i = some task → Ready limits t task :=
    fun i task ht => (hs i task ht).grows hg hc
  have he : ∀ i task, (s.tasks.erase id).lookup i = some task → Ready limits t task :=
    fun i task ht => hold i task (lookup_erase_iff.mp ht).2
  cases h with
  | finished hi => exact he
  | found hre =>
    exact forall_insert (fun read h => held_of_lookup (hre read h)) hold
  | admits hro =>
    refine forall_insert ?_ hold
    exact show active s + s.activations < limits.maxMcpServers + s.activations by omega
  | readmits hro haf =>
    refine forall_insert ?_ hold
    obtain ⟨hnot, ha⟩ := McpServer.reactivate_status haf
    refine ⟨hr _ rfl, hnot, ha, ?_⟩
    exact show active s + s.activations < limits.maxMcpServers + s.activations by omega
  | got hre =>
    refine forall_insert ⟨held_of_lookup hre, ?_⟩ hold
    rw [McpServer.disable_status]
    exact fun h => by cases h
  | added hnew ha => exact he
  | revived hsa => exact he
  | disabled hsa => exact he

end Servers

section Workspace

variable {transit : Transit Ref} {skew : ℤ} {limits : Limits} {s t : State Ref} {e : Event Ref}

theorem lookup_connection (key : Text) :
    (s.connections.lookup key).elim 0 (fun conn => (isConnected conn).toNat) =
      (isConnected (s.connection key)).toNat := by
  rw [State.connection]
  cases s.connections.lookup key <;> rfl

variable {key : Text} {conn : Connections.State Ref}

theorem connected_insert (h : t.connections = s.connections.insert key conn) :
    connected t + (isConnected (s.connection key)).toNat =
      (isConnected conn).toNat + connected s := by
  rw [connected, h, ← lookup_connection]
  exact total_insert

theorem sound_init : Sound limits (State.init : State Ref) where
  connections key := outcomes_init
  fresh key hkey := by cases hkey
  tasks id task htask := by simp [State.init] at htask

inductive Turn (transit : Transit Ref) (skew : ℤ) (limits : Limits) (s : State Ref) :
    Event Ref → State Ref → Prop where
  | connection {key : Text} {event : Connections.Event} {conn : Connections.State Ref}
      (hcounts : counts limits s event = true)
      (h : Connections.step transit skew (s.connection key) event = some conn) :
      Turn transit skew limits s (.connection key event)
        { s with
          connections := s.connections.insert key conn
          fresh := s.freshAfter key event conn }
  | registers {id : ℕ} {registration : Registration Ref} :
      Turn transit skew limits s (.register id registration)
        (s.proceed id (.finding registration))
  | disables {id : ℕ} {name : Text} :
      Turn transit skew limits s (.disable id name) (s.proceed id (.getting name))
  | served {id : ℕ} {task : Task Ref} {t : State Ref} (htask : s.tasks.lookup id = some task)
      (h : Moves limits s id task t) : Turn transit skew limits s (.next id) t
  | crashed {id : ℕ} : Turn transit skew limits s (.crash id) (s.finish id)

theorem step_turn (h : step transit skew limits s e = some t) :
    Turn transit skew limits s e t := by
  cases e with
  | connection key event =>
    simp only [step] at h
    split_ifs at h with hco
    split at h
    · cases h
    · rename_i conn hc
      cases h
      exact .connection hco hc
  | register id registration =>
    simp only [step, State.start] at h
    split_ifs at h
    cases h
    exact .registers
  | disable id name =>
    simp only [step, State.start] at h
    split_ifs at h
    cases h
    exact .disables
  | next id =>
    simp only [step] at h
    split at h
    · cases h
    · rename_i task ht
      cases h
      exact .served ht advance_moves
  | crash id =>
    simp only [step] at h
    split_ifs at h
    cases h
    exact .crashed

theorem moves_connections {id : ℕ} {task : Task Ref} (h : Moves limits s id task t) :
    t.connections = s.connections ∧ t.fresh = s.fresh := by
  cases h <;> exact ⟨rfl, rfl⟩

theorem connected_of_step {event : Connections.Event} (ho : Outcomes (s.connection key))
    (ht : t.connections = s.connections.insert key conn)
    (h : Connections.step transit skew (s.connection key) event = some conn) :
    (connects (s.connection key) event = true ∧ connected t = connected s + 1) ∨
      (connects (s.connection key) event = false ∧ connected t ≤ connected s) := by
  have hc := connected_insert ht
  cases hj : connects (s.connection key) event with
  | true =>
    obtain ⟨hb, ha⟩ := isConnected_of_connects ho hj h
    rw [hb, ha, Bool.toNat_false, Bool.toNat_true] at hc
    exact .inl ⟨rfl, by omega⟩
  | false =>
    refine .inr ⟨rfl, ?_⟩
    have hk := isConnected_of_not_connects ho hj (Connections.step_turn h)
    cases ha : isConnected conn with
    | true =>
      rw [hk ha, ha] at hc
      omega
    | false =>
      rw [ha, Bool.toNat_false] at hc
      omega

/-- A handshake that gets past its check has found room. -/
theorem room_of_admits {event : Connections.Event} (hco : counts limits s event = true)
    (ha : admits (s.connection key) conn event = true)
    (h : Connections.step transit skew (s.connection key) event = some conn) :
    connected s < limits.maxConnectors := by
  cases event with
  | next id input =>
    simp only [admits] at ha
    split at ha
    · rename_i ht hta
      cases hf : input.full with
      | false => simpa [counts, hf] using hco
      | true =>
        simp only [Connections.step, ht, Connections.advance, hf, if_true,
          Option.some.injEq] at h
        subst h
        simp [Connections.State.finish] at hta
    · cases ha
  | _ => cases ha

/-- The check of a connector and every step since leave room for it. -/
theorem fresh_room {event : Connections.Event} {other : Text} (hs : Sound limits s)
    (hco : counts limits s event = true) (ht : t.connections = s.connections.insert key conn)
    (h : Connections.step transit skew (s.connection key) event = some conn)
    (hf : other ∈ s.freshAfter key event conn) :
    connected t < limits.maxConnectors + (isConnected (t.connection other)).toNat := by
  have hc := connected_insert ht
  have hown : connected s < limits.maxConnectors + (isConnected (s.connection key)).toNat →
      other = key →
        connected t < limits.maxConnectors + (isConnected (t.connection other)).toNat := by
    rintro hr rfl
    rw [State.connection, ht, AList.lookup_insert, Option.getD_some]
    omega
  have hold : connects (s.connection key) event = false → other ∈ s.fresh →
      connected t < limits.maxConnectors + (isConnected (t.connection other)).toNat := by
    intro hn hmem
    by_cases hk : other = key
    · subst hk
      exact hown (hs.fresh other hmem) rfl
    · rcases connected_of_step (hs.connections key) ht h with ⟨hj, -⟩ | ⟨-, hle⟩
      · rw [hn] at hj
        cases hj
      · rw [State.connection, ht, AList.lookup_insert_ne hk]
        exact hle.trans_lt (hs.fresh other hmem)
  unfold State.freshAfter at hf
  split_ifs at hf with hj ha
  · obtain ⟨hmem, hk⟩ := List.mem_filter.mp hf
    obtain rfl := of_decide_eq_true hk
    exact hown (hs.fresh other hmem) rfl
  · rcases List.mem_cons.mp hf with rfl | hmem
    · exact hown (Nat.lt_add_right _ (room_of_admits hco ha h)) rfl
    · exact hold (by simpa using hj) hmem
  · exact hold (by simpa using hj) hf

theorem turn_sound (h : Turn transit skew limits s e t) (hs : Sound limits s) :
    Sound limits t := by
  have hsa : ∀ {u : State Ref} {i : ℕ} {task : Task Ref}, u.servers = s.servers →
      u.activations = s.activations → s.tasks.lookup i = some task → Ready limits u task := by
    intro u i task hse ha ht
    refine (hs.tasks i task ht).grows ?_ ?_
    · rw [hse]
      exact .refl _
    · rw [active, active, hse, ha]
  cases h with
  | connection hco h =>
    rename_i key event conn
    refine ⟨fun other => ?_, fun other hf => fresh_room hs hco rfl h hf,
      fun i task ht => hsa rfl rfl ht⟩
    by_cases hk : other = key
    · subst hk
      rw [State.connection, AList.lookup_insert, Option.getD_some]
      exact turn_outcomes (Connections.step_turn h) (hs.connections other)
    · rw [State.connection, AList.lookup_insert_ne hk]
      exact hs.connections other
  | registers =>
    exact ⟨hs.connections, hs.fresh, forall_insert trivial fun i task h => hsa rfl rfl h⟩
  | disables =>
    exact ⟨hs.connections, hs.fresh, forall_insert trivial fun i task h => hsa rfl rfl h⟩
  | served ht h =>
    obtain ⟨hc, hf⟩ := moves_connections h
    refine ⟨fun key => ?_, fun key hkey => ?_, moves_tasks h (hs.tasks _ _ ht) hs.tasks⟩
    · rw [State.connection, hc]
      exact hs.connections key
    · rw [hf] at hkey
      rw [connected, State.connection, hc]
      exact hs.fresh key hkey
  | crashed =>
    exact ⟨hs.connections, hs.fresh, fun i task h => hsa rfl rfl (lookup_erase_iff.mp h).2⟩

theorem turn_within (h : Turn transit skew limits s e t) (hs : Sound limits s)
    (hu : Undisturbed s e) (hw : Within limits s) : Within limits t := by
  cases h with
  | connection hco h =>
    rename_i key event conn
    refine ⟨?_, hw.servers⟩
    rcases connected_of_step (t := { s with
        connections := s.connections.insert key conn
        fresh := s.freshAfter key event conn }) (hs.connections key) rfl h with ⟨hj, hc⟩ | ⟨-, hc⟩
    · have hmem : key ∈ s.fresh := by simpa [Undisturbed, undisturbed, hj] using hu
      have hr := hs.fresh key hmem
      rw [(isConnected_of_connects (hs.connections key) hj h).1] at hr
      exact hc.trans_le hr
    · exact hc.trans hw.connectors
  | registers => exact ⟨hw.connectors, hw.servers⟩
  | disables => exact ⟨hw.connectors, hw.servers⟩
  | served ht h =>
    rename_i id task
    refine ⟨?_, ?_⟩
    · rw [connected, (moves_connections h).1]
      exact hw.connectors
    · rcases moves_active h (hs.tasks _ _ ht) with ⟨hj, hc, -⟩ | ⟨-, hc, -⟩
      · have hut : task.undisturbed s.activations = true := by
          simpa [Undisturbed, undisturbed, ht] using hu
        have hr := room_of_undisturbed (hs.tasks _ _ ht) hj hut
        omega
      · exact hc.trans hw.servers
  | crashed => exact ⟨hw.connectors, hw.servers⟩

/-- Both caps hold in every state of a run in which no other connector has been connected since
the check of one that a callback connects, and no other server has become active since a
registration counted that writes. -/
theorem caps_hold_undisturbed {es : List (Event Ref)}
    (hg : Guarded (step transit skew limits) Undisturbed .init es) :
    ∀ u, Visits (step transit skew limits) .init es u → Within limits u := by
  rintro u ⟨before, after, rfl, hu⟩
  have hk : ∀ v e w, Sound limits v ∧ Within limits v → Undisturbed v e →
      step transit skew limits v e = some w → Sound limits w ∧ Within limits w := by
    rintro v e w ⟨hv, hw⟩ hf hs
    have ht := step_turn hs
    exact ⟨turn_sound ht hv, turn_within ht hv hf hw⟩
  have hi : Within limits (State.init : State Ref) := ⟨Nat.zero_le _, Nat.zero_le _⟩
  exact (run_invariant hk hg.of_append hu ⟨sound_init, hi⟩).2

end Workspace

private def clear : Transit Tokens := ⟨fun _ tokens => tokens, fun ref => ref, fun _ _ => rfl⟩

private def one : Limits := ⟨1, 1⟩

private def answered (full : Bool) (state : ℕ) (access : Option Text) : Input :=
  ⟨0, full, state, 0, access.map fun access => ⟨access, none, 3600, []⟩⟩

private def handshake (key : Text) (state : ℕ) : List (Event Tokens) :=
  .connection key (.begin 1 []) ::
    List.replicate 4 (.connection key (.next 1 (answered false state none)))

private def callback (key : Text) (full : Bool) (state : ℕ) : List (Event Tokens) :=
  .connection key (.callback 2 state) ::
    List.replicate 5 (.connection key (.next 2 (answered full 0 (some [65]))))

private def revocation (key : Text) : List (Event Tokens) :=
  .connection key (.revoke 3) :: List.replicate 2 (.connection key (.next 3 (answered true 0 none)))

private def registration (id : ℕ) (name : Text) : List (Event Tokens) :=
  .register id ⟨name, [104], [104], none⟩ :: List.replicate 3 (.next id)

private def inTurn : List (Event Tokens) :=
  handshake [97] 5 ++ callback [97] false 5 ++ revocation [97] ++ handshake [98] 6 ++
    callback [98] false 6 ++ registration 1 [120] ++ [.disable 2 [120], .next 2, .next 2] ++
    registration 3 [121]

/-- With room for one of each, a connector and a server make way for others. -/
theorem caps_hold_in_turn :
    ∃ s, run (step clear 60 one) .init inTurn = some s ∧ connected s = 1 ∧ active s = 1 ∧
      ∀ u, Visits (step clear 60 one) .init inTurn u → Within one u := by
  obtain ⟨s, hrun, ht⟩ := exists_run_of_any
    (p := fun s : State Tokens => connected s = 1 ∧ active s = 1)
    (show (run (step clear 60 one) .init inTurn).any _ = true by decide +kernel)
  obtain ⟨hc, ha⟩ := of_decide_eq_true ht
  have hg : Guarded (step clear 60 one) Undisturbed .init inTurn := by decide +kernel
  exact ⟨s, hrun, hc, ha, caps_hold_undisturbed hg⟩

private def handshakesAtOnce : List (Event Tokens) :=
  handshake [97] 5 ++ handshake [98] 6 ++ callback [97] false 5 ++ callback [98] true 6

private def registrationsAtOnce : List (Event Tokens) :=
  [.register 1 ⟨[120], [104], [104], none⟩, .register 2 ⟨[121], [104], [104], none⟩, .next 1,
    .next 2, .next 1, .next 2, .next 1, .next 2]

/-- Two handshakes begun with room for one connector both complete, and two registrations that
count at once both insert. -/
theorem caps_are_exceeded :
    (∃ s, run (step clear 60 one) .init handshakesAtOnce = some s ∧
      one.maxConnectors < connected s) ∧
    ∃ s, run (step clear 60 one) .init registrationsAtOnce = some s ∧
      one.maxMcpServers < active s := by
  obtain ⟨s, hrun, ht⟩ := exists_run_of_any
    (p := fun s : State Tokens => one.maxConnectors < connected s)
    (show (run (step clear 60 one) .init handshakesAtOnce).any _ = true by decide +kernel)
  refine ⟨⟨s, hrun, of_decide_eq_true ht⟩, ?_⟩
  obtain ⟨s, hrun, ht⟩ := exists_run_of_any
    (p := fun s : State Tokens => one.maxMcpServers < active s)
    (show (run (step clear 60 one) .init registrationsAtOnce).any _ = true by decide +kernel)
  exact ⟨s, hrun, of_decide_eq_true ht⟩

end Aizzak.IntegrationCaps
