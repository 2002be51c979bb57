import Aizzak.AccountLocks

/-!
The last administrator of the platform. A deletion locks the administrators before it counts
those that stay, so its count still holds when it commits. Disabling an account and revoking
`platform_admin` count nobody: the platform keeps an administrator as long as each of them leaves
one behind that no deletion is about to retire.
-/
namespace Aizzak.LastAdministrator

open EventRuns KeyedTables Accounts AccountChanges RowLocks AccountTransactions AccountLocks

def ActiveAdmin (s : State) (user : ℕ) : Prop :=
  (∃ row, s.users.lookup user = some row ∧ row.status = .active) ∧
    ∃ key workspace, s.assignments.lookup key = some ⟨workspace, user, .platformAdmin⟩

def hasAdmin (s : State) (test : ℕ → Bool) : Bool :=
  anyRow s.users fun user row =>
    row.status = .active && user ∈ platformAdmins s.assignments && test user

/-- The transaction has counted the administrators that stay without this account. -/
def retires (tx : Tx) (user : ℕ) : Bool :=
  match tx.phase with
  | .deleting _ => tx.request.target = user
  | .starting | .updating | .selectingAdmins | .lockingAdmins _ _ | .findingRole _ | .granting _
  | .selectingOwners _ _ | .lockingOwners _ _ _ _ | .revoking _ _ _ | .counting _
  | .removing _ => false

/-- Another administrator is left, whom no deletion is about to retire. -/
def leaves (s : State) (target : ℕ) : Bool :=
  hasAdmin s fun user => user ≠ target && !anyRow s.txs fun _ tx => retires tx user

/-- A disabling and a revocation of `platform_admin` leave another administrator. -/
def spared (s : State) : Event → Bool
  | .next id _ =>
    match s.txs.lookup id with
    | some ⟨.setStatus _ target .disabled, .updating⟩ => leaves s target
    | some ⟨.setRole _ target .platformAdmin _, .revoking _ _ _⟩ => leaves s target
    | _ => true
  | .start _ _ | .abort _ => true

def Spared (s : State) (e : Event) : Prop := spared s e = true

instance (s : State) (e : Event) : Decidable (Spared s e) :=
  inferInstanceAs (Decidable (_ = true))

def Administrative : Event → Prop
  | .start _ (.revokeRole _ _ _) => False
  | .start _ (.setStatus _ _ _) | .start _ (.delete _ _) | .start _ (.setRole _ _ _ _)
  | .next _ _ | .abort _ => True

def issued (s : State) : Event → Bool
  | .start _ (.setStatus actor target _) | .start _ (.delete actor target)
  | .start _ (.setRole actor target _ _) => hasAdmin s (· = actor) && actor ≠ target
  | .start _ (.revokeRole _ _ _) => false
  | .next _ _ | .abort _ => true

def Issued (s : State) (e : Event) : Prop := issued s e = true

instance (s : State) (e : Event) : Decidable (Issued s e) :=
  inferInstanceAs (Decidable (_ = true))

def Staying (s : State) (user : ℕ) : Prop :=
  ActiveAdmin s user ∧ ∀ id tx, s.txs.lookup id = some tx → retires tx user = false

section Steps

variable {s t : State} {e : Event} {id user target : ℕ} {tx : Tx} {phase : Phase}

theorem hasAdmin_eq_true {test : ℕ → Bool} :
    hasAdmin s test = true ↔ ∃ user, ActiveAdmin s user ∧ test user = true := by
  rw [hasAdmin, anyRow_eq_true_iff]
  constructor
  · rintro ⟨user, row, hrow, ht⟩
    rw [Bool.and_eq_true, Bool.and_eq_true, decide_eq_true_eq, decide_eq_true_eq] at ht
    exact ⟨user, ⟨⟨row, hrow, ht.1.1⟩, mem_platformAdmins.mp ht.1.2⟩, ht.2⟩
  · rintro ⟨user, ⟨⟨row, hrow, hac⟩, ha⟩, ht⟩
    refine ⟨user, row, hrow, ?_⟩
    rw [Bool.and_eq_true, Bool.and_eq_true, decide_eq_true_eq, decide_eq_true_eq]
    exact ⟨⟨hac, mem_platformAdmins.mpr ha⟩, ht⟩

theorem staying_of_leaves (h : leaves s target = true) :
    ∃ user, user ≠ target ∧ Staying s user := by
  obtain ⟨user, ha, ht⟩ := hasAdmin_eq_true.mp h
  rw [Bool.and_eq_true, decide_eq_true_eq, Bool.not_eq_true'] at ht
  refine ⟨user, ht.1, ha, fun id tx htx => ?_⟩
  by_contra hr
  rw [Bool.not_eq_false] at hr
  rw [anyRow_eq_true_iff.mpr ⟨id, tx, htx, hr⟩] at ht
  cases ht.2

variable {row : User}

/-- An administrator stays one when another account's status is written. -/
theorem writeStatus_other {users : Users} {status : UserStatus} (hne : user ≠ target)
    (h : users.lookup user = some row) :
    (writeStatus users target status).lookup user = some row := by
  unfold writeStatus
  split
  · exact h
  · exact (AList.lookup_insert_ne hne).trans h

theorem writeStatus_active {users : Users} (target : ℕ) (h : users.lookup user = some row)
    (ha : row.status = .active) :
    ∃ next, (writeStatus users target .active).lookup user = some next ∧
      next.status = .active := by
  by_cases hne : user = target
  · subst hne
    rw [writeStatus, h]
    exact ⟨_, AList.lookup_insert _, rfl⟩
  · exact ⟨row, writeStatus_other hne h, ha⟩

theorem retires_erase (h : ∀ id tx, s.txs.lookup id = some tx → retires tx user = false) :
    ∀ other u, (s.txs.erase id).lookup other = some u → retires u user = false :=
  fun other u hu => h other u (lookup_erase_iff.mp hu).2

variable {locked : List (ℕ × ℕ)}

/-- The administrators a deletion has locked: one it has counted is not about to be retired. -/
theorem staying_counted {key : ℕ} (hs : Sound s) (htx : s.txs.lookup id = some tx)
    (hp : tx.phase = .lockingAdmins [] locked) (hl : (key, user) ∈ locked)
    (hrow : s.users.lookup user = some row) (hac : row.status = .active) : Staying s user := by
  have hre := hs.ready id tx htx
  rw [Ready, hp] at hre
  obtain ⟨workspace, ha⟩ := hre.1 _ hl
  refine ⟨⟨⟨row, hrow, hac⟩, key, workspace, ha⟩, fun other u hu => ?_⟩
  by_contra hr
  rw [Bool.not_eq_false, retires] at hr
  split at hr
  · rename_i theirs hd
    have ht : u.request.target = user := of_decide_eq_true hr
    have hc := hs.ready other u hu
    rw [Ready, hd, ht] at hc
    have hkey : key ∈ u.assignments := by
      rw [Tx.assignments, hd]
      exact hc.2 key workspace ha
    have hm : key ∈ tx.assignments := by
      rw [Tx.assignments, hp]
      exact List.mem_map_of_mem hl
    obtain rfl := hs.apart.assignments other id u tx key hu htx hkey hm
    obtain rfl := Option.mem_unique hu htx
    rw [hp] at hd
    cases hd
  all_goals cases hr

/-- A deletion whose target is not among the locked administrators retires none. -/
theorem not_admin_of_unlocked (hr : Ready s.assignments tx)
    (hph : tx.phase = .lockingAdmins [] locked)
    (hu : tx.request.target ∉ locked.map Prod.snd) :
    ¬ActiveAdmin s tx.request.target := by
  rintro ⟨-, key, workspace, ha⟩
  rw [Ready, hph] at hr
  obtain ⟨pair, hp, rfl⟩ := List.mem_map.mp (hr.2 key workspace ha)
  obtain ⟨owned, hrow⟩ := hr.1 pair hp
  have hs := Option.mem_unique ha hrow
  have hus : tx.request.target = pair.2 := congrArg Assignment.userId hs
  exact hu (hus ▸ List.mem_map_of_mem hp)

variable {actor : ℕ}

theorem counts_staying (hs : Sound s) (hst : ∃ user, Staying s user)
    (htx : s.txs.lookup id = some tx) (hr : tx.request = .delete actor target)
    (hph : tx.phase = .lockingAdmins [] locked) (hsu : target ∈ locked.map Prod.snd →
      0 < countActive s.users ((locked.map Prod.snd).filter (· ≠ target))) :
    ∃ user, user ≠ target ∧ Staying s user := by
  by_cases hmem : target ∈ locked.map Prod.snd
  · obtain ⟨user, hu, row, hrow, ha⟩ := exists_of_countActive_pos (hsu hmem)
    obtain ⟨hl, hne⟩ := List.mem_filter.mp hu
    obtain ⟨⟨key, holder⟩, hp, rfl⟩ := List.mem_map.mp hl
    exact ⟨holder, of_decide_eq_true hne, staying_counted hs htx hph hp hrow ha⟩
  · obtain ⟨user, hu⟩ := hst
    refine ⟨user, ?_, hu⟩
    rintro rfl
    have ht : tx.request.target = user := by rw [hr, Request.target]
    rw [← ht] at hmem hu
    exact not_admin_of_unlocked (hs.ready id tx htx) hph hmem hu.1

theorem moves_staying (hs : Sound s) (hst : ∃ user, Staying s user)
    (htx : s.txs.lookup id = some tx) (h : Moves s id tx phase) :
    ∃ user, Staying (s.proceed id tx phase) user := by
  have hq : (∀ user, retires { tx with phase := phase } user = false) →
      ∃ user, Staying (s.proceed id tx phase) user := by
    intro hn
    obtain ⟨user, ha, ho⟩ := hst
    exact ⟨user, ha, forall_insert (hn user) ho⟩
  cases h with
  | counts hr hp hsu =>
    obtain ⟨user, hne, ha, ho⟩ :=
      counts_staying hs hst htx hr hp hsu
    refine ⟨user, ha, forall_insert ?_ ho⟩
    rw [retires, hr]
    exact decide_eq_false (Ne.symm hne)
  | _ => exact hq fun _ => rfl

theorem statusSet_staying {assignment : ℕ} {status : AccountStatus}
    (he : Spared s (.next id assignment)) (hs : ∃ user, Staying s user)
    (htx : s.txs.lookup id = some tx) (hr : tx.request = .setStatus actor target status)
    (hp : tx.phase = .updating) :
    ∃ user, Staying { s.finish id with users := writeStatus s.users target status.value } user := by
  obtain ⟨request, phase⟩ := tx
  obtain rfl : request = .setStatus actor target status := hr
  obtain rfl : phase = .updating := hp
  cases status with
  | active =>
    obtain ⟨user, ⟨⟨row, hrow, hac⟩, ha⟩, ho⟩ := hs
    obtain ⟨next, hn, hst⟩ := writeStatus_active target hrow hac
    exact ⟨user, ⟨⟨next, hn, hst⟩, ha⟩, retires_erase ho⟩
  | disabled =>
    simp only [Spared, spared, htx] at he
    obtain ⟨user, hne, ⟨⟨row, hrow, hac⟩, ha⟩, ho⟩ := staying_of_leaves he
    exact ⟨user, ⟨⟨row, writeStatus_other hne hrow, hac⟩, ha⟩, retires_erase ho⟩

theorem deleted_staying (hs : ∃ user, Staying s user) (htx : s.txs.lookup id = some tx)
    (hre : tx.request = .delete actor target) (hp : tx.phase = .deleting locked) :
    ∃ user, Staying
      { s.finish id with
        users := writeStatus s.users target .deleted
        assignments := eraseWhere s.assignments fun _ assigned => assigned.userId = target }
      user := by
  obtain ⟨user, ⟨⟨row, hrow, hac⟩, key, workspace, ha⟩, ho⟩ := hs
  have hne : user ≠ target := by
    rintro rfl
    have hr := ho id tx htx
    rw [retires, hp, hre] at hr
    exact of_decide_eq_false hr rfl
  refine ⟨user, ⟨⟨row, writeStatus_other hne hrow, hac⟩, key, workspace, ?_⟩,
    retires_erase ho⟩
  exact lookup_eraseWhere_eq_some_iff.mpr ⟨ha, decide_eq_false hne⟩

theorem revoked_staying {assignment workspace existing : ℕ} {role : RoleName} {enabled : Bool}
    {locked : List ℕ} (hs : Sound s) (he : Spared s (.next id assignment))
    (hst : ∃ user, Staying s user) (htx : s.txs.lookup id = some tx)
    (hre : tx.request = .setRole actor target role enabled)
    (hp : tx.phase = .revoking workspace existing locked) :
    ∃ user, Staying { s.finish id with assignments := s.assignments.erase existing } user := by
  have hr := hs.ready id tx htx
  rw [Ready, hp] at hr
  obtain ⟨assigned, hw, hexisting⟩ := hr.1
  obtain rfl := Option.some.inj ((wanted_setRole hre workspace).symm.trans hw)
  have hsp : ∃ user, (user ≠ target ∨ role ≠ .platformAdmin) ∧ Staying s user := by
    by_cases hro : role = .platformAdmin
    · subst hro
      obtain ⟨request, phase⟩ := tx
      obtain rfl : request = .setRole actor target .platformAdmin enabled := hre
      obtain rfl : phase = .revoking workspace existing locked := hp
      simp only [Spared, spared, htx] at he
      obtain ⟨user, hne, hsy⟩ := staying_of_leaves he
      exact ⟨user, .inl hne, hsy⟩
    · obtain ⟨user, hsy⟩ := hst
      exact ⟨user, .inr hro, hsy⟩
  obtain ⟨user, hot, ⟨hac, key, owned, ha⟩, ho⟩ := hsp
  refine ⟨user, ⟨hac, key, owned, ?_⟩, retires_erase ho⟩
  refine lookup_erase_iff.mpr ⟨?_, ha⟩
  rintro rfl
  have hsa := Option.mem_unique ha hexisting
  rcases hot with hne | hro
  · exact hne (congrArg Assignment.userId hsa)
  · exact hro (congrArg Assignment.role hsa).symm

def Platform (s : State) : Prop :=
  ∀ id tx workspace user role, s.txs.lookup id = some tx →
    tx.request ≠ .revokeRole workspace user role

theorem turn_platform (hp : Platform s) (he : Administrative e) (h : Turn s e t) :
    Platform t := by
  have her : ∀ id other u workspace user role, (s.txs.erase id).lookup other = some u →
      u.request ≠ .revokeRole workspace user role :=
    fun id other u workspace user role hu =>
      hp other u workspace user role (lookup_erase_iff.mp hu).2
  have hi : ∀ id tx, (∀ workspace user role, tx.request ≠ .revokeRole workspace user role) →
      ∀ other u workspace user role, (s.txs.insert id tx).lookup other = some u →
        u.request ≠ .revokeRole workspace user role := by
    intro id tx hnew other u workspace user role hu
    rcases lookup_insert_iff.mp hu with ⟨-, rfl⟩ | ⟨-, hold⟩
    · exact hnew workspace user role
    · exact hp other u workspace user role hold
  cases h with
  | started hnew =>
    refine hi _ _ fun workspace user role => ?_
    rintro rfl
    exact he
  | moved htx hm =>
    have ho := fun workspace user role => hp _ _ workspace user role htx
    exact hi _ _ ho
  | finished => exact her _
  | statusSet htx hr hph hrow => exact her _
  | deleted htx hr hph hf => exact her _
  | granted htx hr hph hnew hun => exact her _
  | revoked htx hr hph => exact her _
  | removed htx hr hph hf => exact her _

theorem turn_staying (hs : Sound s) (hp : Platform s) (he : Spared s e)
    (hst : ∃ user, Staying s user) (h : Turn s e t) : ∃ user, Staying t user := by
  cases h with
  | started hnew =>
    obtain ⟨user, had, ho⟩ := hst
    exact ⟨user, had, forall_insert rfl ho⟩
  | moved htx hm => exact moves_staying hs hst htx hm
  | finished =>
    obtain ⟨user, had, ho⟩ := hst
    exact ⟨user, had, retires_erase ho⟩
  | statusSet htx hr hph hrow => exact statusSet_staying he hst htx hr hph
  | deleted htx hr hph hf => exact deleted_staying hst htx hr hph
  | granted htx hr hph hnew hu =>
    obtain ⟨user, ⟨hac, key, workspace, ha⟩, ho⟩ := hst
    exact ⟨user, ⟨hac, key, workspace, lookup_insert_of_lookup hnew ha⟩,
      retires_erase ho⟩
  | revoked htx hr hph => exact revoked_staying hs he hst htx hr hph
  | removed htx hr hph hf => exact absurd hr (hp _ _ _ _ _ htx)

/-- In every run of status changes, deletions and role changes of the platform surface in which
each disabling and each revocation of `platform_admin` leaves, when it commits, another
administrator whom no deletion is about to retire, some account is active and holds
`platform_admin`, if one did at the start. -/
theorem platform_keeps_administrator {events : List Event} (hidle : s.txs = ∅)
    (hadmin : ∃ user, ActiveAdmin s user) (hplatform : ∀ e ∈ events, Administrative e)
    (hspared : Guarded step Spared s events) (hrun : run step s events = some t) :
    ∃ user, ActiveAdmin t user := by
  have hn : ∀ id tx, s.txs.lookup id ≠ some tx := by
    intro id tx htx
    rw [hidle] at htx
    cases htx
  have hk : ∀ u e v, Sound u ∧ Platform u ∧ (∃ user, Staying u user) →
      Administrative e ∧ Spared u e → step u e = some v →
      Sound v ∧ Platform v ∧ ∃ user, Staying v user := by
    intro u e v hu he hst
    obtain ⟨hso, ho, hs⟩ := hu
    have ht := step_turn hst
    exact ⟨turn_sound hso ht, turn_platform ho he.1 ht,
      turn_staying hso ho he.2 hs ht⟩
  obtain ⟨user, hus⟩ := hadmin
  obtain ⟨-, -, last, hl⟩ := run_invariant hk (hspared.and_of_forall hplatform) hrun
    ⟨sound_of_empty hidle, fun id tx _ _ _ htx => absurd htx (hn id tx), user, hus,
      fun id tx htx => absurd htx (hn id tx)⟩
  exact ⟨last, hl.1⟩

end Steps

private def admins : State where
  users := ((∅ : Users).insert 1 ⟨10, [0x61], .active⟩).insert 2 ⟨20, [0x62], .active⟩
  assignments := ((∅ : Assignments).insert 5 ⟨10, 1, .platformAdmin⟩).insert 6
    ⟨20, 2, .platformAdmin⟩
  txs := ∅

private def crossed : List Event :=
  [.start 1 (.delete 1 2), .start 2 (.delete 2 1), .next 1 0, .next 1 0, .next 2 0, .next 2 0,
    .next 1 0, .next 1 0, .next 1 0, .next 1 0, .next 2 0]

/-- Two administrators delete each other: one of them stays. -/
theorem crossed_deletions_keep_administrator :
    ∃ s, run step admins crossed = some s ∧ ∃ user, ActiveAdmin s user := by
  obtain ⟨s, hrun, -⟩ := exists_run_of_any (p := fun _ : State => true)
    (show (run step admins crossed).any _ = true by decide +kernel)
  have ha : ∃ user, ActiveAdmin admins user :=
    ⟨1, ⟨_, rfl, rfl⟩, 5, 10, rfl⟩
  have hp : ∀ e ∈ crossed, Administrative e := by
    intro e he
    simp only [crossed, List.mem_cons, List.not_mem_nil, or_false] at he
    rcases he with rfl | rfl | rfl | rfl | rfl | rfl | rfl | rfl | rfl | rfl | rfl <;> trivial
  exact ⟨s, hrun, platform_keeps_administrator rfl ha hp (by decide +kernel) hrun⟩

private def clash : List Event :=
  [.start 1 (.setStatus 1 2 .disabled), .start 2 (.setStatus 2 1 .disabled), .next 1 0,
    .next 2 0, .next 1 0, .next 2 0]

/-- Two administrators disable each other at the same moment: none is left. -/
theorem clashing_disables_leave_none :
    ∃ s, run step admins clash = some s ∧
      Guarded step Issued admins clash ∧ ¬∃ user, ActiveAdmin s user := by
  obtain ⟨s, hrun, ht⟩ := exists_run_of_any
    (p := fun s : State => !hasAdmin s fun _ => true)
    (show (run step admins clash).any _ = true by decide +kernel)
  refine ⟨s, hrun, by decide +kernel, ?_⟩
  rintro ⟨user, hu⟩
  have hs : hasAdmin s (fun _ => true) = true := hasAdmin_eq_true.mpr ⟨user, hu, rfl⟩
  rw [hs] at ht
  cases ht

end Aizzak.LastAdministrator
