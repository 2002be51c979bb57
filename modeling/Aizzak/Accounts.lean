import Aizzak.KeyedTables
import Aizzak.PyText

/-!
The users of the platform and the roles assigned to them: the two tables that logins read and
write and that administrators change.
-/
namespace Aizzak.Accounts

open KeyedTables PyText

inductive RoleName where
  | owner
  | admin
  | member
  | viewer
  | platformAdmin
deriving DecidableEq

inductive UserStatus where
  | active
  | disabled
  | deleted
deriving DecidableEq

structure User where
  workspaceId : ℕ
  firebaseUid : Text
  status : UserStatus
deriving DecidableEq

structure Assignment where
  workspaceId : ℕ
  userId : ℕ
  role : RoleName
deriving DecidableEq

abbrev Users := AList fun _ : ℕ => User

abbrev Assignments := AList fun _ : ℕ => Assignment

def byFirebaseUid (users : Users) (uid : Text) : Option (ℕ × User) :=
  (users.entries.find? fun entry => entry.2.firebaseUid = uid).map fun entry => (entry.1, entry.2)

def findAssignment (assignments : Assignments) (wanted : Assignment) : Option ℕ :=
  (assignments.entries.find? fun entry => entry.2 = wanted).map (·.1)

def rolesOf (assignments : Assignments) (workspace user : ℕ) : List RoleName :=
  (assignments.entries.filter fun entry =>
    entry.2.workspaceId = workspace && entry.2.userId = user).map (·.2.role)

def holdersOf (assignments : Assignments) (workspace : ℕ) (role : RoleName) : List ℕ :=
  (assignments.entries.filter fun entry =>
    entry.2.workspaceId = workspace && entry.2.role = role).map (·.1)

section Tables

variable {users : Users} {assignments : Assignments} {wanted : Assignment} {uid : Text}
  {key id : ℕ} {user : User} {role : RoleName} {workspace : ℕ}

theorem byFirebaseUid_eq_some (h : byFirebaseUid users uid = some (id, user)) :
    users.lookup id = some user ∧ user.firebaseUid = uid := by
  obtain ⟨entry, he, heq⟩ := Option.map_eq_some_iff.mp h
  obtain ⟨rfl, rfl⟩ := Prod.mk.inj heq
  have huid := List.find?_some he
  exact ⟨AList.mem_lookup_iff.mpr (List.mem_of_find?_eq_some he), of_decide_eq_true huid⟩

theorem byFirebaseUid_eq_none (h : byFirebaseUid users uid = none)
    (hrow : users.lookup id = some user) : user.firebaseUid ≠ uid := by
  have hall := List.find?_eq_none.mp (Option.map_eq_none_iff.mp h)
  have he := hall ⟨id, user⟩ (AList.mem_lookup_iff.mp hrow)
  simpa using he

theorem findAssignment_eq_some (h : findAssignment assignments wanted = some key) :
    assignments.lookup key = some wanted := by
  obtain ⟨entry, he, rfl⟩ := Option.map_eq_some_iff.mp h
  have hvalue := List.find?_some he
  rw [← of_decide_eq_true hvalue]
  exact AList.mem_lookup_iff.mpr (List.mem_of_find?_eq_some he)

theorem findAssignment_eq_none :
    findAssignment assignments wanted = none ↔ ∀ key, assignments.lookup key ≠ some wanted := by
  rw [findAssignment, Option.map_eq_none_iff, List.find?_eq_none]
  constructor
  · intro h key hkey
    exact h ⟨key, wanted⟩ (AList.mem_lookup_iff.mp hkey) (decide_eq_true rfl)
  · rintro h ⟨key, value⟩ he hvalue
    rw [decide_eq_true_eq] at hvalue
    simp only at hvalue
    rw [hvalue] at he
    exact h key (AList.mem_lookup_iff.mpr he)

theorem findAssignment_isSome (h : assignments.lookup key = some wanted) :
    (findAssignment assignments wanted).isSome = true := by
  cases hf : findAssignment assignments wanted with
  | some found => rfl
  | none => exact absurd h (findAssignment_eq_none.mp hf key)

theorem mem_rolesOf {userId : ℕ} :
    role ∈ rolesOf assignments workspace userId ↔
      ∃ key, assignments.lookup key = some ⟨workspace, userId, role⟩ := by
  rw [rolesOf, List.mem_map]
  constructor
  · rintro ⟨⟨key, ⟨w, u, r⟩⟩, he, rfl⟩
    obtain ⟨hmem, ht⟩ := List.mem_filter.mp he
    simp only [Bool.and_eq_true, decide_eq_true_eq] at ht
    obtain ⟨rfl, rfl⟩ := ht
    exact ⟨key, AList.mem_lookup_iff.mpr hmem⟩
  · rintro ⟨key, hkey⟩
    exact ⟨⟨key, ⟨workspace, userId, role⟩⟩,
      List.mem_filter.mpr ⟨AList.mem_lookup_iff.mp hkey, by simp⟩, rfl⟩

theorem mem_holdersOf :
    key ∈ holdersOf assignments workspace role ↔
      ∃ userId, assignments.lookup key = some ⟨workspace, userId, role⟩ := by
  rw [holdersOf, List.mem_map]
  constructor
  · rintro ⟨⟨found, ⟨w, u, r⟩⟩, he, rfl⟩
    obtain ⟨hmem, ht⟩ := List.mem_filter.mp he
    simp only [Bool.and_eq_true, decide_eq_true_eq] at ht
    obtain ⟨rfl, rfl⟩ := ht
    exact ⟨u, AList.mem_lookup_iff.mpr hmem⟩
  · rintro ⟨userId, hkey⟩
    exact ⟨⟨key, ⟨workspace, userId, role⟩⟩,
      List.mem_filter.mpr ⟨AList.mem_lookup_iff.mp hkey, by simp⟩, rfl⟩

theorem nodup_holdersOf : (holdersOf assignments workspace role).Nodup := by
  have hk : (assignments.entries.map (·.1)).Nodup := assignments.nodupKeys
  exact hk.sublist ((List.filter_sublist).map _)

end Tables

end Aizzak.Accounts
