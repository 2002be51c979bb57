import Aizzak.AccountChanges
import Aizzak.Logins

/-!
The routes that withdraw authority, among the logins they race with. A route commits its change
first; then it writes the denylist, closes the sockets of the user that its own process serves,
and drops the cached principal. Sockets are admitted under the principal of a login.
-/
namespace Aizzak.AccountRoutes

open EventRuns KeyedTables PyText Accounts AccountChanges Logins

inductive Action where
  | revoke
  | clear
  | disconnect
  | close (session : ℕ)
  | forget
deriving DecidableEq

inductive Progress where
  | doing (todo : List Action)
  | raised
deriving DecidableEq

structure Route where
  user : ℕ
  uid : Text
  process : ℕ
  changed : Bool
  progress : Progress

inductive SessionStatus where
  | live
  | closed
  | closeFailed
  | unregistered
deriving DecidableEq

structure Session where
  process : ℕ
  workspaceId : ℕ
  userId : ℕ
  status : SessionStatus
deriving DecidableEq

structure State where
  logins : Logins.State
  routes : AList fun _ : ℕ => Route
  sessions : AList fun _ : ℕ => Session

inductive Event where
  | login (event : Logins.Event)
  | change (route process assignment : ℕ) (change : Change)
  | proceed (route : ℕ) (closes : Bool)
  | register (session call process : ℕ)
  | unregister (session : ℕ)

def planned (change : Change) (changed : Bool) : List Action :=
  match change with
  | .setStatus _ .disabled => [.revoke, .disconnect, .forget]
  | .setStatus _ .active => if changed then [.clear, .forget] else [.forget]
  | .delete _ => [.revoke, .disconnect, .forget]
  | .setRole _ _ _ => if changed then [.disconnect, .forget] else []

def Route.pending (route : Route) (action : Action) : Bool :=
  match route.progress with
  | .doing todo => action ∈ todo
  | .raised => false

def Route.returned (route : Route) : Bool := route.progress = .doing []

def Route.doing (route : Route) (todo : List Action) : Route :=
  { route with progress := .doing todo }

namespace State

def served (s : State) (process user : ℕ) : List ℕ :=
  (s.sessions.entries.filter fun entry =>
    entry.2.process = process && entry.2.userId = user && entry.2.status ≠ .unregistered).map (·.1)

def setRoute (s : State) (id : ℕ) (route : Route) : State :=
  { s with routes := s.routes.insert id route }

def setStatus (s : State) (id : ℕ) (session : Session) (status : SessionStatus) : State :=
  { s with sessions := s.sessions.insert id { session with status := status } }

end State

def SessionStatus.close (closes : Bool) : SessionStatus → SessionStatus
  | .live | .closeFailed => if closes then .closed else .closeFailed
  | .closed => .closed
  | .unregistered => .unregistered

def act (s : State) (id : ℕ) (route : Route) (closes : Bool) (todo : List Action) :
    Action → State
  | .revoke =>
    match keyFor route.uid with
    | none => s.setRoute id { route with progress := .raised }
    | some key =>
      { s.setRoute id (route.doing todo) with
        logins := { s.logins with revoked := key :: s.logins.revoked } }
  | .clear =>
    match keyFor route.uid with
    | none => s.setRoute id { route with progress := .raised }
    | some key =>
      { s.setRoute id (route.doing todo) with
        logins := { s.logins with revoked := s.logins.revoked.filter (· ≠ key) } }
  | .disconnect =>
    s.setRoute id
      (route.doing ((s.served route.process route.user).map .close ++ todo))
  | .close session =>
    match s.sessions.lookup session with
    | none => s.setRoute id (route.doing todo)
    | some found =>
      (s.setRoute id (route.doing todo)).setStatus session found (found.status.close closes)
  | .forget =>
    match keyFor route.uid with
    | none => s.setRoute id { route with progress := .raised }
    | some key =>
      { s.setRoute id (route.doing todo) with
        logins := { s.logins with cache := s.logins.cache.erase key } }

section Machine

variable (lower : Text → Text) (caching : Bool)

def step (s : State) : Event → Option State
  | .login event =>
    (Logins.step lower caching s.logins event).map fun logins => { s with logins := logins }
  | .change id process assignment change =>
    if id ∈ s.routes then none
    else
      match s.logins.users.lookup change.user,
        change.commit s.logins.users s.logins.assignments assignment with
      | some row, some committed =>
        let logins := { s.logins with
          users := committed.users
          assignments := committed.assignments }
        let route : Route := ⟨change.user, row.firebaseUid, process, committed.changed,
          .doing (planned change committed.changed)⟩
        some { s.setRoute id route with logins := logins }
      | _, _ => none
  | .proceed id closes =>
    match s.routes.lookup id with
    | none => none
    | some route =>
      match route.progress with
      | .doing (action :: todo) => some (act s id route closes todo action)
      | .doing [] | .raised => none
  | .register id call process =>
    if id ∈ s.sessions then none
    else
      match s.logins.calls.lookup call with
      | some ⟨_, .answered principal⟩ =>
        some
          { s with
            sessions := s.sessions.insert id
              ⟨process, principal.workspaceId, principal.userId, .live⟩ }
      | _ => none
  | .unregister id =>
    match s.sessions.lookup id with
    | none => none
    | some session => some (s.setStatus id session .unregistered)

end Machine

end Aizzak.AccountRoutes
