import Aizzak.AccountChanges
import Aizzak.EventRuns
import Aizzak.RowLocks

/-!
The transactions that change accounts and roles, statement by statement. The platform surface
locks the users row of the target, the assignments it decides on one after another, and commits
what it has decided; the tenant surface reads, counts and removes in transactions of their own.
A statement reads what is committed, and waits for a row that another transaction has locked.
-/
namespace Aizzak.AccountTransactions

open EventRuns KeyedTables Accounts AccountChanges RowLocks

inductive Request where
  | setStatus (actor target : ℕ) (status : AccountStatus)
  | delete (actor target : ℕ)
  | setRole (actor target : ℕ) (role : RoleName) (enabled : Bool)
  | revokeRole (workspace user : ℕ) (role : RoleName)
deriving DecidableEq

def Request.target : Request → ℕ
  | .setStatus _ target _ | .delete _ target | .setRole _ target _ _ => target
  | .revokeRole _ user _ => user

/-- How far a transaction has come. A list of rows to lock is what its statement has found. -/
inductive Phase where
  | starting
  | updating
  | selectingAdmins
  | lockingAdmins (waiting : List ℕ) (locked : List (ℕ × ℕ))
  | deleting (locked : List (ℕ × ℕ))
  | findingRole (workspace : ℕ)
  | granting (workspace : ℕ)
  | selectingOwners (workspace existing : ℕ)
  | lockingOwners (workspace existing : ℕ) (waiting locked : List ℕ)
  | revoking (workspace existing : ℕ) (locked : List ℕ)
  | counting (existing : ℕ)
  | removing (existing : ℕ)
deriving DecidableEq

structure Tx where
  request : Request
  phase : Phase
deriving DecidableEq

def Tx.users (tx : Tx) : List ℕ :=
  match tx.phase with
  | .starting | .counting _ | .removing _ => []
  | .updating | .selectingAdmins | .lockingAdmins _ _ | .deleting _ | .findingRole _
  | .granting _ | .selectingOwners _ _ | .lockingOwners _ _ _ _ | .revoking _ _ _ =>
    [tx.request.target]

def Tx.assignments (tx : Tx) : List ℕ :=
  match tx.phase with
  | .lockingAdmins _ locked | .deleting locked => locked.map Prod.fst
  | .selectingOwners _ existing => [existing]
  | .lockingOwners _ existing _ locked | .revoking _ existing locked => existing :: locked
  | .starting | .updating | .selectingAdmins | .findingRole _ | .granting _ | .counting _
  | .removing _ => []

structure State where
  users : Users
  assignments : Assignments
  txs : AList fun _ : ℕ => Tx

inductive Event where
  | start (id : ℕ) (request : Request)
  | next (id assignment : ℕ)
  | abort (id : ℕ)

def adminKeys (assignments : Assignments) : List ℕ :=
  (assignments.entries.filter fun entry => entry.2.role = .platformAdmin).map (·.1)

namespace State

def finish (s : State) (id : ℕ) : State := { s with txs := s.txs.erase id }

def proceed (s : State) (id : ℕ) (tx : Tx) (phase : Phase) : State :=
  { s with txs := s.txs.insert id { tx with phase := phase } }

def userHeld (s : State) (id user : ℕ) : Bool := heldByOther Tx.users s.txs id user

def assignmentHeld (s : State) (id key : ℕ) : Bool := heldByOther Tx.assignments s.txs id key

def anyHeld (s : State) (id user : ℕ) : Bool :=
  anyRow s.assignments fun key assigned => assigned.userId = user && s.assignmentHeld id key

end State

def writeStatus (users : Users) (user : ℕ) (status : UserStatus) : Users :=
  match users.lookup user with
  | none => users
  | some row => users.insert user { row with status := status }

def removeAssignment (assignments : Assignments) (workspace existing : ℕ) : Assignments :=
  eraseWhere assignments fun key assigned => key = existing && assigned.workspaceId = workspace

def begin (s : State) (id : ℕ) (tx : Tx) : Option State :=
  match tx.request with
  | .revokeRole workspace user role =>
    match findAssignment s.assignments ⟨workspace, user, role⟩ with
    | none => some (s.finish id)
    | some existing =>
      if role = .owner then some (s.proceed id tx (.counting existing))
      else some (s.proceed id tx (.removing existing))
  | .setStatus _ target status =>
    if s.userHeld id target then none
    else
      match s.users.lookup target with
      | none => some (s.finish id)
      | some row =>
        if row.status = status.value then some (s.finish id)
        else some (s.proceed id tx .updating)
  | .delete _ target =>
    if s.userHeld id target then none
    else
      match s.users.lookup target with
      | none => some (s.finish id)
      | some row =>
        if row.status = .deleted then some (s.finish id)
        else some (s.proceed id tx .selectingAdmins)
  | .setRole _ target _ _ =>
    if s.userHeld id target then none
    else
      match s.users.lookup target with
      | none => some (s.finish id)
      | some row => some (s.proceed id tx (.findingRole row.workspaceId))

def advance (s : State) (id : ℕ) (tx : Tx) (assignment : ℕ) : Option State :=
  match tx.phase, tx.request with
  | .starting, _ => begin s id tx
  | .updating, .setStatus _ target status =>
    match s.users.lookup target with
    | none => none
    | some row =>
      if statusAllowed s.users row status then
        some { s.finish id with users := writeStatus s.users target status.value }
      else some (s.finish id)
  | .selectingAdmins, .delete _ _ =>
    some (s.proceed id tx (.lockingAdmins (adminKeys s.assignments) []))
  | .lockingAdmins [] locked, .delete _ target =>
    let admins := locked.map Prod.snd
    if target ∈ admins ∧ countActive s.users (admins.filter (· ≠ target)) = 0 then
      some (s.finish id)
    else some (s.proceed id tx (.deleting locked))
  | .lockingAdmins (key :: waiting) locked, .delete _ _ =>
    if s.assignmentHeld id key then none
    else
      match s.assignments.lookup key with
      | none => some (s.proceed id tx (.lockingAdmins waiting locked))
      | some assigned =>
        if assigned.role = .platformAdmin then
          some (s.proceed id tx (.lockingAdmins waiting ((key, assigned.userId) :: locked)))
        else some (s.proceed id tx (.lockingAdmins waiting locked))
  | .deleting _, .delete _ target =>
    if s.anyHeld id target then none
    else
      some
        { s.finish id with
          users := writeStatus s.users target .deleted
          assignments := eraseWhere s.assignments fun _ assigned => assigned.userId = target }
  | .findingRole workspace, .setRole _ target role enabled =>
    match findAssignment s.assignments ⟨workspace, target, role⟩ with
    | none =>
      if enabled then some (s.proceed id tx (.granting workspace)) else some (s.finish id)
    | some existing =>
      if s.assignmentHeld id existing then none
      else if enabled then some (s.finish id)
      else if role = .owner then some (s.proceed id tx (.selectingOwners workspace existing))
      else some (s.proceed id tx (.revoking workspace existing []))
  | .granting workspace, .setRole _ target role _ =>
    if assignment ∈ s.assignments then some (s.finish id)
    else if (findAssignment s.assignments ⟨workspace, target, role⟩).isSome then
      some (s.finish id)
    else
      some
        { s.finish id with
          assignments := s.assignments.insert assignment ⟨workspace, target, role⟩ }
  | .selectingOwners workspace existing, .setRole _ _ _ _ =>
    some (s.proceed id tx
      (.lockingOwners workspace existing (holdersOf s.assignments workspace .owner) []))
  | .lockingOwners workspace existing [] locked, .setRole _ _ _ _ =>
    if locked.length ≤ 1 then some (s.finish id)
    else some (s.proceed id tx (.revoking workspace existing locked))
  | .lockingOwners workspace existing (key :: waiting) locked, .setRole _ _ _ _ =>
    if s.assignmentHeld id key then none
    else
      match s.assignments.lookup key with
      | none => some (s.proceed id tx (.lockingOwners workspace existing waiting locked))
      | some assigned =>
        if assigned.workspaceId = workspace ∧ assigned.role = .owner then
          some (s.proceed id tx (.lockingOwners workspace existing waiting (key :: locked)))
        else some (s.proceed id tx (.lockingOwners workspace existing waiting locked))
  | .revoking _ existing _, .setRole _ _ _ _ =>
    some { s.finish id with assignments := s.assignments.erase existing }
  | .counting existing, .revokeRole workspace _ _ =>
    if (holdersOf s.assignments workspace .owner).length ≤ 1 then some (s.finish id)
    else some (s.proceed id tx (.removing existing))
  | .removing existing, .revokeRole workspace _ _ =>
    if s.assignmentHeld id existing then none
    else
      some
        { s.finish id with
          assignments := removeAssignment s.assignments workspace existing }
  | _, _ => none

def step (s : State) : Event → Option State
  | .start id request =>
    if id ∈ s.txs then none
    else some { s with txs := s.txs.insert id ⟨request, .starting⟩ }
  | .next id assignment =>
    match s.txs.lookup id with
    | none => none
    | some tx => advance s id tx assignment
  | .abort id => if id ∈ s.txs then some (s.finish id) else none

inductive Moves (s : State) (id : ℕ) (tx : Tx) : Phase → Prop where
  | updates {actor target : ℕ} {status : AccountStatus}
      (hrequest : tx.request = .setStatus actor target status) (hphase : tx.phase = .starting)
      (hfree : s.userHeld id target = false) : Moves s id tx .updating
  | selectsAdmins {actor target : ℕ} (hrequest : tx.request = .delete actor target)
      (hphase : tx.phase = .starting) (hfree : s.userHeld id target = false) :
      Moves s id tx .selectingAdmins
  | snapshots (hphase : tx.phase = .selectingAdmins) :
      Moves s id tx (.lockingAdmins (adminKeys s.assignments) [])
  | locksAdmin {key : ℕ} {waiting : List ℕ} {locked : List (ℕ × ℕ)} {assigned : Assignment}
      (hphase : tx.phase = .lockingAdmins (key :: waiting) locked)
      (hfree : s.assignmentHeld id key = false) (hrow : s.assignments.lookup key = some assigned)
      (hrole : assigned.role = .platformAdmin) :
      Moves s id tx (.lockingAdmins waiting ((key, assigned.userId) :: locked))
  | skipsAdmin {key : ℕ} {waiting : List ℕ} {locked : List (ℕ × ℕ)}
      (hphase : tx.phase = .lockingAdmins (key :: waiting) locked)
      (hgone : ∀ assigned, s.assignments.lookup key = some assigned →
        assigned.role ≠ .platformAdmin) : Moves s id tx (.lockingAdmins waiting locked)
  | counts {actor target : ℕ} {locked : List (ℕ × ℕ)}
      (hrequest : tx.request = .delete actor target) (hphase : tx.phase = .lockingAdmins [] locked)
      (hsurvivors : target ∈ locked.map Prod.snd →
        0 < countActive s.users ((locked.map Prod.snd).filter (· ≠ target))) :
      Moves s id tx (.deleting locked)
  | finds {actor target workspace : ℕ} {role : RoleName} {enabled : Bool}
      (hrequest : tx.request = .setRole actor target role enabled)
      (hphase : tx.phase = .starting) (hfree : s.userHeld id target = false) :
      Moves s id tx (.findingRole workspace)
  | grants {workspace : ℕ} (hphase : tx.phase = .findingRole workspace) :
      Moves s id tx (.granting workspace)
  | selectsOwners {actor target workspace existing : ℕ} {role : RoleName} {enabled : Bool}
      (hrequest : tx.request = .setRole actor target role enabled)
      (hphase : tx.phase = .findingRole workspace)
      (hrow : s.assignments.lookup existing = some ⟨workspace, target, role⟩)
      (hfree : s.assignmentHeld id existing = false) (hrole : role = .owner) :
      Moves s id tx (.selectingOwners workspace existing)
  | revokes {actor target workspace existing : ℕ} {role : RoleName} {enabled : Bool}
      (hrequest : tx.request = .setRole actor target role enabled)
      (hphase : tx.phase = .findingRole workspace)
      (hrow : s.assignments.lookup existing = some ⟨workspace, target, role⟩)
      (hfree : s.assignmentHeld id existing = false) (hrole : role ≠ .owner) :
      Moves s id tx (.revoking workspace existing [])
  | snapshotsOwners {workspace existing : ℕ}
      (hphase : tx.phase = .selectingOwners workspace existing) :
      Moves s id tx
        (.lockingOwners workspace existing (holdersOf s.assignments workspace .owner) [])
  | locksOwner {workspace existing key : ℕ} {waiting locked : List ℕ} {assigned : Assignment}
      (hphase : tx.phase = .lockingOwners workspace existing (key :: waiting) locked)
      (hfree : s.assignmentHeld id key = false) (hrow : s.assignments.lookup key = some assigned)
      (howner : assigned.workspaceId = workspace ∧ assigned.role = .owner) :
      Moves s id tx (.lockingOwners workspace existing waiting (key :: locked))
  | skipsOwner {workspace existing key : ℕ} {waiting locked : List ℕ}
      (hphase : tx.phase = .lockingOwners workspace existing (key :: waiting) locked) :
      Moves s id tx (.lockingOwners workspace existing waiting locked)
  | countsOwners {workspace existing : ℕ} {locked : List ℕ}
      (hphase : tx.phase = .lockingOwners workspace existing [] locked)
      (hlocked : 1 < locked.length) : Moves s id tx (.revoking workspace existing locked)
  | counting {existing : ℕ} : Moves s id tx (.counting existing)
  | removing {workspace user existing : ℕ} {role : RoleName}
      (hrequest : tx.request = .revokeRole workspace user role)
      (hspared : 1 < (holdersOf s.assignments workspace .owner).length ∨
        role ≠ .owner ∧ s.assignments.lookup existing = some ⟨workspace, user, role⟩) :
      Moves s id tx (.removing existing)

inductive Turn (s : State) : Event → State → Prop where
  | started {id : ℕ} {request : Request} (hnew : id ∉ s.txs) :
      Turn s (.start id request) { s with txs := s.txs.insert id ⟨request, .starting⟩ }
  | moved {id assignment : ℕ} {tx : Tx} {phase : Phase} (htx : s.txs.lookup id = some tx)
      (h : Moves s id tx phase) : Turn s (.next id assignment) (s.proceed id tx phase)
  | finished {e : Event} {id : ℕ} : Turn s e (s.finish id)
  | statusSet {id assignment actor target : ℕ} {status : AccountStatus} {tx : Tx} {row : User}
      (htx : s.txs.lookup id = some tx) (hrequest : tx.request = .setStatus actor target status)
      (hphase : tx.phase = .updating) (hrow : s.users.lookup target = some row) :
      Turn s (.next id assignment)
        { s.finish id with users := writeStatus s.users target status.value }
  | deleted {id assignment actor target : ℕ} {tx : Tx} {locked : List (ℕ × ℕ)}
      (htx : s.txs.lookup id = some tx) (hrequest : tx.request = .delete actor target)
      (hphase : tx.phase = .deleting locked) (hfree : s.anyHeld id target = false) :
      Turn s (.next id assignment)
        { s.finish id with
          users := writeStatus s.users target .deleted
          assignments := eraseWhere s.assignments fun _ assigned => assigned.userId = target }
  | granted {id assignment actor target workspace : ℕ} {role : RoleName} {enabled : Bool}
      {tx : Tx} (htx : s.txs.lookup id = some tx)
      (hrequest : tx.request = .setRole actor target role enabled)
      (hphase : tx.phase = .granting workspace) (hnew : assignment ∉ s.assignments)
      (hunassigned : findAssignment s.assignments ⟨workspace, target, role⟩ = none) :
      Turn s (.next id assignment)
        { s.finish id with
          assignments := s.assignments.insert assignment ⟨workspace, target, role⟩ }
  | revoked {id assignment actor target workspace existing : ℕ} {role : RoleName}
      {enabled : Bool} {tx : Tx} {locked : List ℕ} (htx : s.txs.lookup id = some tx)
      (hrequest : tx.request = .setRole actor target role enabled)
      (hphase : tx.phase = .revoking workspace existing locked) :
      Turn s (.next id assignment)
        { s.finish id with assignments := s.assignments.erase existing }
  | removed {id assignment workspace user existing : ℕ} {role : RoleName} {tx : Tx}
      (htx : s.txs.lookup id = some tx) (hrequest : tx.request = .revokeRole workspace user role)
      (hphase : tx.phase = .removing existing) (hfree : s.assignmentHeld id existing = false) :
      Turn s (.next id assignment)
        { s.finish id with assignments := removeAssignment s.assignments workspace existing }

section Steps

variable {s t : State} {e : Event} {id assignment : ℕ} {tx : Tx}

theorem turn_begin (htx : s.txs.lookup id = some tx) (hp : tx.phase = .starting)
    (h : begin s id tx = some t) : Turn s (.next id assignment) t := by
  unfold begin at h
  split at h
  · rename_i workspace user role hr
    split at h
    · cases h
      exact .finished
    · rename_i existing hf
      split_ifs at h with ho
      · cases h
        exact .moved htx .counting
      · cases h
        exact .moved htx (.removing hr (.inr ⟨ho, findAssignment_eq_some hf⟩))
  · rename_i hr
    split_ifs at h with hh
    rw [Bool.not_eq_true] at hh
    split at h
    · cases h
      exact .finished
    · split_ifs at h
      · cases h
        exact .finished
      · cases h
        exact .moved htx (.updates hr hp hh)
  · rename_i hr
    split_ifs at h with hh
    rw [Bool.not_eq_true] at hh
    split at h
    · cases h
      exact .finished
    · split_ifs at h
      · cases h
        exact .finished
      · cases h
        exact .moved htx (.selectsAdmins hr hp hh)
  · rename_i hr
    split_ifs at h with hh
    rw [Bool.not_eq_true] at hh
    split at h
    · cases h
      exact .finished
    · cases h
      exact .moved htx (.finds hr hp hh)

/-- Every statement of a transaction is one of the turns. -/
theorem turn_advance (htx : s.txs.lookup id = some tx)
    (h : advance s id tx assignment = some t) : Turn s (.next id assignment) t := by
  unfold advance at h
  split at h
  · rename_i hp
    exact turn_begin htx hp h
  · rename_i hp hr
    split at h
    · cases h
    · rename_i row hrow
      split_ifs at h
      · cases h
        exact .statusSet htx hr hp hrow
      · cases h
        exact .finished
  · rename_i hp hr
    cases h
    exact .moved htx (.snapshots hp)
  · rename_i hp hr
    simp only at h
    split_ifs at h with hl
    · cases h
      exact .finished
    · cases h
      refine .moved htx (.counts hr hp fun hmem => Nat.pos_of_ne_zero fun hz => ?_)
      exact hl ⟨hmem, hz⟩
  · rename_i hp hr
    split_ifs at h with hh
    rw [Bool.not_eq_true] at hh
    split at h
    · rename_i hg
      cases h
      exact .moved htx (.skipsAdmin hp fun assigned hrow => by simp [hg] at hrow)
    · rename_i assigned hrow
      split_ifs at h with hro
      · cases h
        exact .moved htx (.locksAdmin hp hh hrow hro)
      · cases h
        refine .moved htx (.skipsAdmin hp fun found hf => ?_)
        obtain rfl := Option.mem_unique hrow hf
        exact hro
  · rename_i hp hr
    split_ifs at h with hh
    cases h
    exact .deleted htx hr hp (by simpa using hh)
  · rename_i hp hr
    split at h
    · split_ifs at h
      · cases h
        exact .moved htx (.grants hp)
      · cases h
        exact .finished
    · rename_i existing hf
      have hrow := findAssignment_eq_some hf
      split_ifs at h with hh he hro
      · cases h
        exact .finished
      · cases h
        exact .moved htx (.selectsOwners hr hp hrow (by simpa using hh) hro)
      · cases h
        exact .moved htx (.revokes hr hp hrow (by simpa using hh) hro)
  · rename_i hp hr
    split_ifs at h with hkey ha
    · cases h
      exact .finished
    · cases h
      exact .finished
    · cases h
      exact .granted htx hr hp hkey (by simpa using ha)
  · rename_i hp hr
    cases h
    exact .moved htx (.snapshotsOwners hp)
  · rename_i hp hr
    split_ifs at h with hl
    · cases h
      exact .finished
    · cases h
      exact .moved htx (.countsOwners hp (by omega))
  · rename_i hp hr
    split_ifs at h with hh
    rw [Bool.not_eq_true] at hh
    split at h
    · cases h
      exact .moved htx (.skipsOwner hp)
    · rename_i assigned hrow
      split_ifs at h with ho
      · cases h
        exact .moved htx (.locksOwner hp hh hrow ho)
      · cases h
        exact .moved htx (.skipsOwner hp)
  · rename_i hp hr
    cases h
    exact .revoked htx hr hp
  · rename_i hp hr
    split_ifs at h with hl
    · cases h
      exact .finished
    · cases h
      exact .moved htx (.removing hr (.inl (by omega)))
  · rename_i hp hr
    split_ifs at h with hh
    cases h
    exact .removed htx hr hp (by simpa using hh)
  · cases h

theorem step_turn (h : step s e = some t) : Turn s e t := by
  cases e with
  | start id request =>
    simp only [step] at h
    split_ifs at h with hnew
    cases h
    exact .started hnew
  | next id assignment =>
    simp only [step] at h
    split at h
    · cases h
    · rename_i tx htx
      exact turn_advance htx h
  | abort id =>
    simp only [step] at h
    split_ifs at h
    cases h
    exact .finished

end Steps

end Aizzak.AccountTransactions
