import Aizzak.Accounts

/-!
What an administrator changes about an account, each change as the one transaction it is: the
status, the deletion, and a role. A change may find that there is nothing to do, and a refused
one leaves no trace.
-/
namespace Aizzak.AccountChanges

open KeyedTables PyText Accounts

inductive AccountStatus where
  | active
  | disabled
deriving DecidableEq

def AccountStatus.value : AccountStatus → UserStatus
  | .active => .active
  | .disabled => .disabled

inductive Change where
  | setStatus (user : ℕ) (status : AccountStatus)
  | delete (user : ℕ)
  | setRole (user : ℕ) (role : RoleName) (enabled : Bool)

def Change.user : Change → ℕ
  | .setStatus user _ | .delete user | .setRole user _ _ => user

def platformAdmins (assignments : Assignments) : List ℕ :=
  (assignments.entries.filter fun entry => entry.2.role = .platformAdmin).map (·.2.userId)

def countActive (users : Users) (ids : List ℕ) : ℕ :=
  (users.entries.filter fun entry => entry.1 ∈ ids && entry.2.status = .active).length

/-- The status a row may take: `users_deleted_at_check` and `uq_users_owner`. -/
def statusAllowed (users : Users) (row : User) (status : AccountStatus) : Bool :=
  row.status ≠ .deleted &&
    (status = .disabled ||
      !anyRow users fun _ other => other.workspaceId = row.workspaceId && other.status = .active)

structure Committed where
  users : Users
  assignments : Assignments
  changed : Bool

def setStatus (users : Users) (assignments : Assignments) (user : ℕ) (status : AccountStatus) :
    Option Committed :=
  match users.lookup user with
  | none => none
  | some row =>
    if row.status = status.value then some ⟨users, assignments, false⟩
    else if statusAllowed users row status then
      some ⟨users.insert user { row with status := status.value }, assignments, true⟩
    else none

def deleteAccount (users : Users) (assignments : Assignments) (user : ℕ) : Option Committed :=
  match users.lookup user with
  | none => none
  | some row =>
    let admins := platformAdmins assignments
    if row.status = .deleted then some ⟨users, assignments, false⟩
    else if user ∈ admins ∧ countActive users (admins.filter (· ≠ user)) = 0 then none
    else
      some ⟨users.insert user { row with status := .deleted },
        eraseWhere assignments fun _ assigned => assigned.userId = user, true⟩

def setRole (users : Users) (assignments : Assignments) (assignment user : ℕ) (role : RoleName)
    (enabled : Bool) : Option Committed :=
  match users.lookup user with
  | none => none
  | some row =>
    match findAssignment assignments ⟨row.workspaceId, user, role⟩ with
    | none =>
      if enabled = false then some ⟨users, assignments, false⟩
      else if assignment ∈ assignments then none
      else
        some ⟨users, assignments.insert assignment ⟨row.workspaceId, user, role⟩, true⟩
    | some existing =>
      if enabled then some ⟨users, assignments, false⟩
      else if role = .owner ∧ (holdersOf assignments row.workspaceId .owner).length ≤ 1 then none
      else some ⟨users, assignments.erase existing, true⟩

def Change.commit (change : Change) (users : Users) (assignments : Assignments)
    (assignment : ℕ) : Option Committed :=
  match change with
  | .setStatus user status => AccountChanges.setStatus users assignments user status
  | .delete user => deleteAccount users assignments user
  | .setRole user role enabled =>
    AccountChanges.setRole users assignments assignment user role enabled

section Facts

variable {users : Users} {assignments : Assignments} {user : ℕ}

theorem mem_platformAdmins :
    user ∈ platformAdmins assignments ↔
      ∃ key workspace, assignments.lookup key = some ⟨workspace, user, .platformAdmin⟩ := by
  rw [platformAdmins, List.mem_map]
  constructor
  · rintro ⟨⟨key, ⟨workspace, holder, role⟩⟩, he, rfl⟩
    obtain ⟨hmem, hr⟩ := List.mem_filter.mp he
    obtain rfl : role = .platformAdmin := of_decide_eq_true hr
    exact ⟨key, workspace, AList.mem_lookup_iff.mpr hmem⟩
  · rintro ⟨key, workspace, hrow⟩
    exact ⟨⟨key, ⟨workspace, user, .platformAdmin⟩⟩,
      List.mem_filter.mpr ⟨AList.mem_lookup_iff.mp hrow, decide_eq_true rfl⟩, rfl⟩

theorem exists_of_countActive_pos {ids : List ℕ} (h : 0 < countActive users ids) :
    ∃ id ∈ ids, ∃ row, users.lookup id = some row ∧ row.status = .active := by
  obtain ⟨⟨id, row⟩, he⟩ := List.exists_mem_of_length_pos h
  obtain ⟨hmem, ht⟩ := List.mem_filter.mp he
  rw [Bool.and_eq_true, decide_eq_true_eq, decide_eq_true_eq] at ht
  exact ⟨id, ht.1, row, AList.mem_lookup_iff.mpr hmem, ht.2⟩

end Facts

end Aizzak.AccountChanges
