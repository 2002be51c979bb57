import Aizzak.Accounts
import Aizzak.EventRuns

/-!
Authentication of a verified identity. A call asks the denylist and the cache of principals, and
resolves what it does not find there: the users row, which a first login adds together with its
workspace, the owner role of the user it has added, the roles, and the cached answer. Each of
these is a step of its own.
-/
namespace Aizzak.Logins

open EventRuns KeyedTables PyText Accounts

structure Identity where
  firebaseUid : Text
  email : Option Text
deriving DecidableEq

structure Principal where
  workspaceId : ℕ
  userId : ℕ
  roles : List RoleName
  firebaseUid : Text
deriving DecidableEq

structure CachedPrincipal where
  workspaceId : ℕ
  userId : ℕ
  roles : List RoleName
  active : Bool
deriving DecidableEq

structure ProvisionedUser where
  workspaceId : ℕ
  userId : ℕ
  active : Bool
  created : Bool
deriving DecidableEq

def keyFor (subject : Text) : Option Text :=
  if strip subject = [] then none else some (strip subject)

def emailMatches (text : Text) : Bool :=
  let domain := (text.dropWhile (· ≠ 0x40)).tail
  text.all (fun c => !isSpace c) && text.takeWhile (· ≠ 0x40) ≠ [] && domain.all (· ≠ 0x40) &&
    domain.tail.dropLast.any (· = 0x2E)

inductive Phase where
  | checking
  | looking
  | finding
  | addingWorkspace (workspace user : ℕ)
  | addingUser (workspace user : ℕ)
  | rereading
  | seeding (provisioned : ProvisionedUser)
  | granting (provisioned : ProvisionedUser)
  | listing (provisioned : ProvisionedUser)
  | storing (provisioned : ProvisionedUser) (roles : List RoleName)
  | answered (principal : Principal)
  | ended
deriving DecidableEq

structure Call where
  identity : Identity
  phase : Phase
deriving DecidableEq

abbrev Cache := AList fun _ : Text => CachedPrincipal

structure State where
  users : Users
  workspaces : List ℕ
  assignments : Assignments
  cache : Cache
  revoked : List Text
  calls : AList fun _ : ℕ => Call

inductive Event where
  | start (id : ℕ) (identity : Identity)
  | next (id workspace user assignment : ℕ)
  | crash (id : ℕ)
  | expire (key : Text)
  | lapse (key : Text)

def provisionedOf (id : ℕ) (user : User) (created : Bool) : ProvisionedUser :=
  ⟨user.workspaceId, id, user.status = .active, created⟩

def ProvisionedUser.principal (provisioned : ProvisionedUser) (roles : List RoleName)
    (uid : Text) : Principal :=
  ⟨provisioned.workspaceId, provisioned.userId, roles, uid⟩

def CachedPrincipal.principal (cached : CachedPrincipal) (uid : Text) : Principal :=
  ⟨cached.workspaceId, cached.userId, cached.roles, uid⟩

def ProvisionedUser.owner (provisioned : ProvisionedUser) : Assignment :=
  ⟨provisioned.workspaceId, provisioned.userId, .owner⟩

def ProvisionedUser.admitted (provisioned : ProvisionedUser) : Phase :=
  if provisioned.active = false then .ended
  else if provisioned.created then .seeding provisioned
  else .listing provisioned

def CachedPrincipal.admitted (cached : CachedPrincipal) (uid : Text) : Phase :=
  if cached.active = false then .ended else .answered (cached.principal uid)

namespace State

def proceed (s : State) (id : ℕ) (call : Call) (phase : Phase) : State :=
  { s with calls := s.calls.insert id { call with phase := phase } }

def userConflicts (s : State) (workspace user : ℕ) (uid : Text) : Bool :=
  user ∈ s.users || (byFirebaseUid s.users uid).isSome ||
    anyRow s.users fun _ row => row.workspaceId = workspace && row.status = .active

end State

section Machine

variable (lower : Text → Text) (caching : Bool)

def advance (s : State) (id : ℕ) (call : Call) (workspace user assignment : ℕ) :
    Option State :=
  let uid := call.identity.firebaseUid
  match call.phase with
  | .checking =>
    match keyFor uid with
    | none => some (s.proceed id call .ended)
    | some key =>
      if key ∈ s.revoked then some (s.proceed id call .ended)
      else if strip (call.identity.email.getD []) = [] then some (s.proceed id call .ended)
      else some (s.proceed id call (if caching then .looking else .finding))
  | .looking =>
    match keyFor uid with
    | none => some (s.proceed id call .ended)
    | some key =>
      match s.cache.lookup key with
      | none => some (s.proceed id call .finding)
      | some cached => some (s.proceed id call (cached.admitted uid))
  | .finding =>
    match byFirebaseUid s.users uid with
    | some (found, row) => some (s.proceed id call (provisionedOf found row false).admitted)
    | none =>
      if emailMatches (lower (strip (call.identity.email.getD []))) then
        some (s.proceed id call (.addingWorkspace workspace user))
      else some (s.proceed id call .ended)
  | .addingWorkspace workspace user =>
    if workspace ∈ s.workspaces then some (s.proceed id call .ended)
    else
      some
        { s.proceed id call (.addingUser workspace user) with
          workspaces := workspace :: s.workspaces }
  | .addingUser workspace user =>
    if s.userConflicts workspace user uid then some (s.proceed id call .rereading)
    else
      let row : User := ⟨workspace, uid, .active⟩
      some
        { s.proceed id call (provisionedOf user row true).admitted with
          users := s.users.insert user row }
  | .rereading =>
    match byFirebaseUid s.users uid with
    | some (found, row) => some (s.proceed id call (provisionedOf found row false).admitted)
    | none => some (s.proceed id call .ended)
  | .seeding provisioned =>
    match findAssignment s.assignments provisioned.owner with
    | some _ => some (s.proceed id call (.listing provisioned))
    | none => some (s.proceed id call (.granting provisioned))
  | .granting provisioned =>
    if assignment ∈ s.assignments then some (s.proceed id call .ended)
    else if (findAssignment s.assignments provisioned.owner).isSome then
      some (s.proceed id call .ended)
    else
      some
        { s.proceed id call (.listing provisioned) with
          assignments := s.assignments.insert assignment provisioned.owner }
  | .listing provisioned =>
    let roles := rolesOf s.assignments provisioned.workspaceId provisioned.userId
    if caching then some (s.proceed id call (.storing provisioned roles))
    else some (s.proceed id call (.answered (provisioned.principal roles uid)))
  | .storing provisioned roles =>
    match keyFor uid with
    | none => some (s.proceed id call .ended)
    | some key =>
      some
        { s.proceed id call (.answered (provisioned.principal roles uid)) with
          cache := s.cache.insert key
            ⟨provisioned.workspaceId, provisioned.userId, roles, provisioned.active⟩ }
  | .answered _ => none
  | .ended => none

def step (s : State) : Event → Option State
  | .start id identity =>
    if id ∈ s.calls then none
    else some { s with calls := s.calls.insert id ⟨identity, .checking⟩ }
  | .next id workspace user assignment =>
    match s.calls.lookup id with
    | none => none
    | some call => advance lower caching s id call workspace user assignment
  | .crash id =>
    match s.calls.lookup id with
    | none => none
    | some call =>
      match call.phase with
      | .answered _ | .ended => none
      | _ => some (s.proceed id call .ended)
  | .expire key => some { s with cache := s.cache.erase key }
  | .lapse key => some { s with revoked := s.revoked.filter (· ≠ key) }

end Machine

inductive Proceeds (s : State) (call : Call) : Phase → Prop where
  | ends : Proceeds s call .ended
  | looks : Proceeds s call .looking
  | finds : Proceeds s call .finding
  | hits {key : Text} {cached : CachedPrincipal}
      (hkey : keyFor call.identity.firebaseUid = some key)
      (hcached : s.cache.lookup key = some cached) (hactive : cached.active = true) :
      Proceeds s call (.answered (cached.principal call.identity.firebaseUid))
  | found {id : ℕ} {row : User}
      (hrow : byFirebaseUid s.users call.identity.firebaseUid = some (id, row))
      (hactive : row.status = .active) : Proceeds s call (.listing (provisionedOf id row false))
  | provisions {workspace user : ℕ} : Proceeds s call (.addingWorkspace workspace user)
  | rereads : Proceeds s call .rereading
  | grants {provisioned : ProvisionedUser} (hphase : call.phase = .seeding provisioned) :
      Proceeds s call (.granting provisioned)
  | seeded {provisioned : ProvisionedUser} (hphase : call.phase = .seeding provisioned)
      (howner : (findAssignment s.assignments provisioned.owner).isSome = true) :
      Proceeds s call (.listing provisioned)
  | lists {provisioned : ProvisionedUser} (hphase : call.phase = .listing provisioned) :
      Proceeds s call
        (.storing provisioned
          (rolesOf s.assignments provisioned.workspaceId provisioned.userId))
  | answers {provisioned : ProvisionedUser} (hphase : call.phase = .listing provisioned) :
      Proceeds s call
        (.answered
          (provisioned.principal
            (rolesOf s.assignments provisioned.workspaceId provisioned.userId)
            call.identity.firebaseUid))

inductive Turn (s : State) : Event → State → Prop where
  | started {id : ℕ} {identity : Identity} (hnew : id ∉ s.calls) :
      Turn s (.start id identity) { s with calls := s.calls.insert id ⟨identity, .checking⟩ }
  | proceeded {id workspace user assignment : ℕ} {call : Call} {phase : Phase}
      (hcall : s.calls.lookup id = some call) (h : Proceeds s call phase) :
      Turn s (.next id workspace user assignment) (s.proceed id call phase)
  | opened {id workspace user assignment added account : ℕ} {call : Call}
      (hcall : s.calls.lookup id = some call) :
      Turn s (.next id workspace user assignment)
        { s.proceed id call (.addingUser added account) with
          workspaces := added :: s.workspaces }
  | created {id workspace user assignment added account : ℕ} {call : Call}
      (hcall : s.calls.lookup id = some call) (hphase : call.phase = .addingUser added account)
      (hfree : s.userConflicts added account call.identity.firebaseUid = false) :
      Turn s (.next id workspace user assignment)
        { s.proceed id call (.seeding ⟨added, account, true, true⟩) with
          users := s.users.insert account ⟨added, call.identity.firebaseUid, .active⟩ }
  | granted {id workspace user assignment : ℕ} {call : Call} {provisioned : ProvisionedUser}
      (hcall : s.calls.lookup id = some call) (hphase : call.phase = .granting provisioned)
      (hfree : assignment ∉ s.assignments) :
      Turn s (.next id workspace user assignment)
        { s.proceed id call (.listing provisioned) with
          assignments := s.assignments.insert assignment provisioned.owner }
  | stored {id workspace user assignment : ℕ} {call : Call} {provisioned : ProvisionedUser}
      {roles : List RoleName} {key : Text} (hcall : s.calls.lookup id = some call)
      (hphase : call.phase = .storing provisioned roles)
      (hkey : keyFor call.identity.firebaseUid = some key) :
      Turn s (.next id workspace user assignment)
        { s.proceed id call
            (.answered (provisioned.principal roles call.identity.firebaseUid)) with
          cache := s.cache.insert key
            ⟨provisioned.workspaceId, provisioned.userId, roles, provisioned.active⟩ }
  | crashed {id : ℕ} {call : Call} (hcall : s.calls.lookup id = some call)
      (hopen : ∀ principal, call.phase ≠ .answered principal) :
      Turn s (.crash id) (s.proceed id call .ended)
  | expired {key : Text} : Turn s (.expire key) { s with cache := s.cache.erase key }
  | lapsed {key : Text} :
      Turn s (.lapse key) { s with revoked := s.revoked.filter (· ≠ key) }

section Steps

variable {lower : Text → Text} {caching : Bool} {s t : State} {e : Event}
  {id workspace user assignment : ℕ} {call : Call}

theorem proceeds_of_found {found : ℕ} {row : User}
    (h : byFirebaseUid s.users call.identity.firebaseUid = some (found, row)) :
    Proceeds s call (provisionedOf found row false).admitted := by
  rw [ProvisionedUser.admitted]
  split_ifs with ha hc
  · exact .ends
  · cases hc
  · refine .found h ?_
    simpa [provisionedOf] using ha

theorem proceeds_of_hit {key : Text} {cached : CachedPrincipal}
    (hkey : keyFor call.identity.firebaseUid = some key)
    (h : s.cache.lookup key = some cached) :
    Proceeds s call (cached.admitted call.identity.firebaseUid) := by
  rw [CachedPrincipal.admitted]
  split_ifs with ha
  · exact .ends
  · exact .hits hkey h (by simpa using ha)

theorem turn_advance (hcl : s.calls.lookup id = some call)
    (h : advance lower caching s id call workspace user assignment = some t) :
    Turn s (.next id workspace user assignment) t := by
  unfold advance at h
  simp only at h
  split at h
  · split at h
    · cases h
      exact .proceeded hcl .ends
    · split_ifs at h with hr he
      · cases h
        exact .proceeded hcl .ends
      · cases h
        exact .proceeded hcl .ends
      · cases h
        exact .proceeded hcl .looks
      · cases h
        exact .proceeded hcl .finds
  · split at h
    · cases h
      exact .proceeded hcl .ends
    · rename_i key hkey
      split at h
      · cases h
        exact .proceeded hcl .finds
      · rename_i cached hca
        cases h
        exact .proceeded hcl (proceeds_of_hit hkey hca)
  · split at h
    · rename_i found row hrow
      cases h
      exact .proceeded hcl (proceeds_of_found hrow)
    · split_ifs at h
      · cases h
        exact .proceeded hcl .provisions
      · cases h
        exact .proceeded hcl .ends
  · split_ifs at h
    · cases h
      exact .proceeded hcl .ends
    · cases h
      exact .opened hcl
  · rename_i added account hp
    split_ifs at h with hc
    · cases h
      exact .proceeded hcl .rereads
    · cases h
      exact .created hcl hp (by simpa using hc)
  · split at h
    · rename_i found row hrow
      cases h
      exact .proceeded hcl (proceeds_of_found hrow)
    · cases h
      exact .proceeded hcl .ends
  · rename_i provisioned hp
    split at h
    · rename_i found hf
      cases h
      exact .proceeded hcl (.seeded hp (by rw [hf]; rfl))
    · cases h
      exact .proceeded hcl (.grants hp)
  · rename_i provisioned hp
    split_ifs at h with hkey ho
    · cases h
      exact .proceeded hcl .ends
    · cases h
      exact .proceeded hcl .ends
    · cases h
      exact .granted hcl hp hkey
  · rename_i provisioned hp
    split_ifs at h
    · cases h
      exact .proceeded hcl (.lists hp)
    · cases h
      exact .proceeded hcl (.answers hp)
  · rename_i provisioned roles hp
    split at h
    · cases h
      exact .proceeded hcl .ends
    · rename_i key hkey
      cases h
      exact .stored hcl hp hkey
  · cases h
  · cases h

theorem step_turn (h : step lower caching s e = some t) : Turn s e t := by
  cases e with
  | start id identity =>
    simp only [step] at h
    split_ifs at h with hnew
    cases h
    exact .started hnew
  | next id workspace user assignment =>
    simp only [step] at h
    split at h
    · cases h
    · rename_i call hc
      exact turn_advance hc h
  | crash id =>
    simp only [step] at h
    split at h
    · cases h
    · rename_i call hc
      split at h
      · cases h
      · cases h
      · rename_i ho he
        cases h
        exact .crashed hc ho
  | expire key =>
    cases h
    exact .expired
  | lapse key =>
    cases h
    exact .lapsed

theorem userConflicts_eq_false {uid : Text} (h : s.userConflicts workspace user uid = false) :
    user ∉ s.users ∧ byFirebaseUid s.users uid = none := by
  rw [State.userConflicts, Bool.or_eq_false_iff, Bool.or_eq_false_iff] at h
  exact ⟨of_decide_eq_false h.1.1, by simpa using h.1.2⟩

end Steps

end Aizzak.Logins
