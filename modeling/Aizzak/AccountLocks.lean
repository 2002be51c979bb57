import Aizzak.AccountTransactions

/-!
What the row locks of the account transactions guarantee. No row is locked twice; the
assignments a transaction has locked stay as it found them until it ends; and while it holds the
users row of its target, nobody else assigns a role to that user.
-/
namespace Aizzak.AccountLocks

open EventRuns KeyedTables Accounts AccountChanges RowLocks AccountTransactions List

section Locks

variable {s t : State} {e : Event} {id : ℕ} {tx : Tx} {phase : Phase}

theorem moves_users (h : Moves s id tx phase) :
    ∀ user ∈ ({ tx with phase := phase } : Tx).users,
      user ∈ tx.users ∨ s.userHeld id user = false := by
  cases h with
  | updates hr hp hf =>
    intro user hu
    obtain rfl := mem_singleton.mp hu
    rw [hr]
    exact .inr hf
  | selectsAdmins hr hp hf =>
    intro user hu
    obtain rfl := mem_singleton.mp hu
    rw [hr]
    exact .inr hf
  | finds hr hp hf =>
    intro user hu
    obtain rfl := mem_singleton.mp hu
    rw [hr]
    exact .inr hf
  | counting => exact fun user hu => by cases hu
  | removing => exact fun user hu => by cases hu
  | snapshots hp => exact fun user hu => .inl (by rw [Tx.users, hp]; exact hu)
  | locksAdmin hp hf hrow hro =>
    exact fun user hu => .inl (by rw [Tx.users, hp]; exact hu)
  | skipsAdmin hp hg => exact fun user hu => .inl (by rw [Tx.users, hp]; exact hu)
  | counts hr hp hs =>
    exact fun user hu => .inl (by rw [Tx.users, hp]; exact hu)
  | grants hp => exact fun user hu => .inl (by rw [Tx.users, hp]; exact hu)
  | selectsOwners hr hp hrow hf hro =>
    exact fun user hu => .inl (by rw [Tx.users, hp]; exact hu)
  | revokes hr hp hrow hf hro =>
    exact fun user hu => .inl (by rw [Tx.users, hp]; exact hu)
  | snapshotsOwners hp => exact fun user hu => .inl (by rw [Tx.users, hp]; exact hu)
  | locksOwner hp hf hrow ho =>
    exact fun user hu => .inl (by rw [Tx.users, hp]; exact hu)
  | skipsOwner hp => exact fun user hu => .inl (by rw [Tx.users, hp]; exact hu)
  | countsOwners hp hl =>
    exact fun user hu => .inl (by rw [Tx.users, hp]; exact hu)

theorem moves_assignments (h : Moves s id tx phase) :
    ∀ key ∈ ({ tx with phase := phase } : Tx).assignments,
      key ∈ tx.assignments ∨ s.assignmentHeld id key = false := by
  cases h with
  | updates hr hp hf => exact fun key hkey => by cases hkey
  | selectsAdmins hr hp hf => exact fun key hkey => by cases hkey
  | finds hr hp hf => exact fun key hkey => by cases hkey
  | counting => exact fun key hkey => by cases hkey
  | removing => exact fun key hkey => by cases hkey
  | grants hp => exact fun key hkey => by cases hkey
  | snapshots hp => exact fun key hkey => by cases hkey
  | locksAdmin hp hf hrow hro =>
    intro key hkey
    rcases mem_cons.mp hkey with rfl | hold
    · exact .inr hf
    · exact .inl (by rw [Tx.assignments, hp]; exact hold)
  | skipsAdmin hp hg =>
    exact fun key hkey => .inl (by rw [Tx.assignments, hp]; exact hkey)
  | counts hr hp hs =>
    exact fun key hkey => .inl (by rw [Tx.assignments, hp]; exact hkey)
  | selectsOwners hr hp hrow hf hro =>
    intro key hkey
    obtain rfl := mem_singleton.mp hkey
    exact .inr hf
  | revokes hr hp hrow hf hro =>
    intro key hkey
    obtain rfl := mem_singleton.mp hkey
    exact .inr hf
  | snapshotsOwners hp =>
    exact fun key hkey => .inl (by rw [Tx.assignments, hp]; exact hkey)
  | locksOwner hp hf hrow ho =>
    intro key hkey
    rcases mem_cons.mp hkey with rfl | hre
    · exact .inl (by rw [Tx.assignments, hp]; exact mem_cons_self)
    · rcases mem_cons.mp hre with rfl | hold
      · exact .inr hf
      · exact .inl (by rw [Tx.assignments, hp]; exact mem_cons_of_mem _ hold)
  | skipsOwner hp =>
    exact fun key hkey => .inl (by rw [Tx.assignments, hp]; exact hkey)
  | countsOwners hp hl =>
    exact fun key hkey => .inl (by rw [Tx.assignments, hp]; exact hkey)

/-- No users row and no assignment is locked by two transactions. -/
structure Apart (s : State) : Prop where
  users : Exclusive Tx.users s.txs
  assignments : Exclusive Tx.assignments s.txs

theorem Apart.finish (ha : Apart s) (id : ℕ) : Apart (s.finish id) :=
  ⟨ha.users.erase, ha.assignments.erase⟩

theorem turn_apart (ha : Apart s) (h : Turn s e t) : Apart t := by
  cases h with
  | started hnew =>
    exact ⟨ha.users.insert (fun _ hkey => by cases hkey),
      ha.assignments.insert (fun _ hkey => by cases hkey)⟩
  | moved htx hm =>
    refine ⟨ha.users.insert fun user hu => ?_, ha.assignments.insert fun key hkey => ?_⟩
    · rcases moves_users hm user hu with hold | hf
      · exact .inl ⟨_, htx, hold⟩
      · exact .inr hf
    · rcases moves_assignments hm key hkey with hold | hf
      · exact .inl ⟨_, htx, hold⟩
      · exact .inr hf
  | finished => exact ha.finish _
  | statusSet htx hr hp hrow => exact ⟨(ha.finish _).users, (ha.finish _).assignments⟩
  | deleted htx hr hp hf => exact ⟨(ha.finish _).users, (ha.finish _).assignments⟩
  | granted htx hr hp hnew hun =>
    exact ⟨(ha.finish _).users, (ha.finish _).assignments⟩
  | revoked htx hr hp => exact ⟨(ha.finish _).users, (ha.finish _).assignments⟩
  | removed htx hr hp hf => exact ⟨(ha.finish _).users, (ha.finish _).assignments⟩

end Locks

def wanted (request : Request) (workspace : ℕ) : Option Assignment :=
  match request with
  | .setRole _ target role _ => some ⟨workspace, target, role⟩
  | .setStatus _ _ _ | .delete _ _ | .revokeRole _ _ _ => none

theorem wanted_setRole {request : Request} {actor target : ℕ} {role : RoleName} {enabled : Bool}
    (h : request = .setRole actor target role enabled) (workspace : ℕ) :
    wanted request workspace = some ⟨workspace, target, role⟩ := by
  rw [h]
  rfl

def Found (assignments : Assignments) (tx : Tx) (workspace existing : ℕ) : Prop :=
  ∃ assigned, wanted tx.request workspace = some assigned ∧
    assignments.lookup existing = some assigned

def Admins (assignments : Assignments) (locked : List (ℕ × ℕ)) : Prop :=
  ∀ pair ∈ locked, ∃ workspace,
    assignments.lookup pair.1 = some ⟨workspace, pair.2, .platformAdmin⟩

def Covers (assignments : Assignments) (user : ℕ) (keys : List ℕ) : Prop :=
  ∀ key workspace, assignments.lookup key = some ⟨workspace, user, .platformAdmin⟩ → key ∈ keys

def Owners (assignments : Assignments) (workspace : ℕ) (keys : List ℕ) : Prop :=
  ∀ key ∈ keys, ∃ user, assignments.lookup key = some ⟨workspace, user, .owner⟩

def Ready (assignments : Assignments) (tx : Tx) : Prop :=
  match tx.phase with
  | .lockingAdmins waiting locked => Admins assignments locked ∧
      Covers assignments tx.request.target (waiting ++ locked.map Prod.fst)
  | .deleting locked => Admins assignments locked ∧
      Covers assignments tx.request.target (locked.map Prod.fst)
  | .selectingOwners workspace existing => Found assignments tx workspace existing
  | .lockingOwners workspace existing waiting locked =>
    Found assignments tx workspace existing ∧ Owners assignments workspace locked ∧
      (waiting ++ locked).Nodup
  | .revoking workspace existing locked =>
    Found assignments tx workspace existing ∧ Owners assignments workspace locked ∧
      locked.Nodup ∧ (wanted tx.request workspace = some ⟨workspace, tx.request.target, .owner⟩ →
        1 < locked.length)
  | .starting | .updating | .selectingAdmins | .findingRole _ | .granting _ | .counting _
  | .removing _ => True

section Ready

variable {s t : State} {e : Event} {id : ℕ} {tx : Tx} {phase : Phase}
  {before after : Assignments}

theorem mem_adminKeys {assignments : Assignments} {key : ℕ} :
    key ∈ adminKeys assignments ↔
      ∃ assigned, assignments.lookup key = some assigned ∧ assigned.role = .platformAdmin := by
  rw [adminKeys, mem_map]
  constructor
  · rintro ⟨⟨found, assigned⟩, he, rfl⟩
    obtain ⟨hmem, hr⟩ := mem_filter.mp he
    exact ⟨assigned, AList.mem_lookup_iff.mpr hmem, of_decide_eq_true hr⟩
  · rintro ⟨assigned, hrow, hr⟩
    exact ⟨⟨key, assigned⟩,
      mem_filter.mpr ⟨AList.mem_lookup_iff.mp hrow, decide_eq_true hr⟩, rfl⟩

def Kept (before after : Assignments) (keys : List ℕ) : Prop :=
  ∀ key ∈ keys, ∀ assigned, before.lookup key = some assigned →
    after.lookup key = some assigned

theorem Kept.mono {keys more : List ℕ} (h : Kept before after more) (hsub : keys ⊆ more) :
    Kept before after keys := fun key hkey => h key (hsub hkey)

theorem Admins.frame {locked : List (ℕ × ℕ)} (h : Admins before locked)
    (hk : Kept before after (locked.map Prod.fst)) : Admins after locked := by
  intro pair hp
  obtain ⟨workspace, hrow⟩ := h pair hp
  exact ⟨workspace, hk pair.1 (mem_map_of_mem hp) _ hrow⟩

theorem Owners.frame {workspace : ℕ} {keys : List ℕ} (h : Owners before workspace keys)
    (hk : Kept before after keys) : Owners after workspace keys := by
  intro key hkey
  obtain ⟨user, hrow⟩ := h key hkey
  exact ⟨user, hk key hkey _ hrow⟩

theorem Found.frame {workspace existing : ℕ} (h : Found before tx workspace existing)
    (hk : Kept before after [existing]) : Found after tx workspace existing := by
  obtain ⟨assigned, hw, hrow⟩ := h
  exact ⟨assigned, hw, hk existing mem_cons_self _ hrow⟩

/-- What a step of another transaction leaves of what this one knows. -/
theorem Ready.frame (hr : Ready before tx) (hk : Kept before after tx.assignments)
    (hn : tx.users = [tx.request.target] → ∀ key assigned,
      after.lookup key = some assigned → assigned.userId = tx.request.target →
      before.lookup key = some assigned) : Ready after tx := by
  have hc : ∀ keys, tx.users = [tx.request.target] →
      Covers before tx.request.target keys → Covers after tx.request.target keys :=
    fun keys hu h key workspace hrow => h key workspace (hn hu key _ hrow rfl)
  unfold Ready at hr ⊢
  split at hr
  · rename_i waiting locked hp
    rw [Tx.assignments, hp] at hk
    exact ⟨hr.1.frame hk, hc _ (by rw [Tx.users, hp]) hr.2⟩
  · rename_i locked hp
    rw [Tx.assignments, hp] at hk
    exact ⟨hr.1.frame hk, hc _ (by rw [Tx.users, hp]) hr.2⟩
  · rename_i workspace existing hp
    rw [Tx.assignments, hp] at hk
    exact Found.frame hr hk
  · rename_i workspace existing waiting locked hp
    rw [Tx.assignments, hp] at hk
    exact ⟨hr.1.frame (hk.mono (by simp)), hr.2.1.frame (hk.mono (by simp)), hr.2.2⟩
  · rename_i workspace existing locked hp
    rw [Tx.assignments, hp] at hk
    exact ⟨hr.1.frame (hk.mono (by simp)), hr.2.1.frame (hk.mono (by simp)), hr.2.2⟩
  all_goals trivial

/-- A statement that writes nothing leaves true what the transaction knows. -/
theorem moves_ready (hr : Ready s.assignments tx) (h : Moves s id tx phase) :
    Ready s.assignments { tx with phase := phase } := by
  cases h with
  | updates hre hph hfr => trivial
  | selectsAdmins hre hph hfr => trivial
  | snapshots hph =>
    refine ⟨fun pair hp => (by cases hp), fun key workspace hrow => ?_⟩
    exact mem_append_left _ (mem_adminKeys.mpr ⟨_, hrow, rfl⟩)
  | locksAdmin hph hfr hrow hro =>
    rename_i key waiting locked assigned
    obtain ⟨workspace, user, role⟩ := assigned
    obtain rfl : role = .platformAdmin := hro
    rw [Ready, hph] at hr
    refine ⟨fun pair hp => ?_, fun other owned hot => ?_⟩
    · rcases mem_cons.mp hp with rfl | hold
      · exact ⟨workspace, hrow⟩
      · exact hr.1 pair hold
    · have hmem := hr.2 other owned hot
      simp only [cons_append, map_cons, mem_cons, mem_append] at hmem ⊢
      tauto
  | skipsAdmin hph hg =>
    rename_i key waiting locked
    rw [Ready, hph] at hr
    refine ⟨hr.1, fun other owned hot => ?_⟩
    have hmem := hr.2 other owned hot
    rcases mem_cons.mp hmem with rfl | hrs
    · exact absurd rfl (hg _ hot)
    · exact hrs
  | counts hre hph hs =>
    rw [Ready, hph] at hr
    exact hr
  | finds hre hph hfr => trivial
  | grants hph => trivial
  | selectsOwners hre hph hrow hfr hro =>
    exact ⟨_, wanted_setRole hre _, hrow⟩
  | revokes hre hph hrow hfr hro =>
    refine ⟨⟨_, wanted_setRole hre _, hrow⟩, fun key hkey => (by cases hkey),
      nodup_nil, fun how => ?_⟩
    have hsa := (wanted_setRole hre _).symm.trans how
    exact absurd (congrArg Assignment.role (Option.some.inj hsa)) hro
  | snapshotsOwners hph =>
    rw [Ready, hph] at hr
    refine ⟨hr, fun key hkey => (by cases hkey), ?_⟩
    rw [append_nil]
    exact nodup_holdersOf
  | locksOwner hph hfr hrow how =>
    rename_i workspace existing key waiting locked assigned
    obtain ⟨w, user, role⟩ := assigned
    obtain ⟨rfl, rfl⟩ : w = workspace ∧ role = .owner := how
    rw [Ready, hph] at hr
    obtain ⟨hf, ho, hn⟩ := hr
    refine ⟨hf, fun other hot => ?_, ?_⟩
    · rcases mem_cons.mp hot with rfl | hold
      · exact ⟨user, hrow⟩
      · exact ho other hold
    · exact (perm_middle.nodup_iff).mpr hn
  | skipsOwner hph =>
    rw [Ready, hph] at hr
    exact ⟨hr.1, hr.2.1, (nodup_cons.mp hr.2.2).2⟩
  | countsOwners hph hl =>
    rw [Ready, hph] at hr
    exact ⟨hr.1, hr.2.1, hr.2.2, fun _ => hl⟩
  | counting => trivial
  | removing => trivial

/-- The locks are kept apart, and every open transaction knows what it has locked. -/
structure Sound (s : State) : Prop where
  apart : Apart s
  ready : ∀ id tx, s.txs.lookup id = some tx → Ready s.assignments tx

/-- A transaction commits a table of assignments that leaves the others what they know. -/
theorem ready_commit (hs : Sound s)
    (h : ∀ other u, other ≠ id → s.txs.lookup other = some u →
      Kept s.assignments after u.assignments ∧
        (u.users = [u.request.target] → ∀ key assigned, after.lookup key = some assigned →
          assigned.userId = u.request.target → s.assignments.lookup key = some assigned)) :
    ∀ other u, (s.txs.erase id).lookup other = some u → Ready after u := by
  intro other u hu
  obtain ⟨hne, hold⟩ := lookup_erase_iff.mp hu
  obtain ⟨hk, hn⟩ := h other u hne hold
  exact (hs.ready other u hold).frame hk hn

/-- Rows that nobody else has locked can be erased. -/
theorem kept_erase {existing : ℕ} {keys : List ℕ} (h : existing ∉ keys) :
    Kept s.assignments (s.assignments.erase existing) keys := by
  intro key hkey assigned hrow
  have hne : key ≠ existing := by
    rintro rfl
    exact h hkey
  exact (AList.lookup_erase_ne hne).trans hrow

/-- Locks stay apart and knowledge stays true through every turn. -/
theorem turn_sound (hs : Sound s) (h : Turn s e t) : Sound t := by
  refine ⟨turn_apart hs.apart h, ?_⟩
  cases h with
  | started hnew => exact forall_insert trivial hs.ready
  | moved htx hmo =>
    have hr := moves_ready (hs.ready _ _ htx) hmo
    exact forall_insert hr hs.ready
  | finished => exact fun other u hu => hs.ready other u (lookup_erase_iff.mp hu).2
  | statusSet htx hre hp hrow =>
    exact fun other u hu => hs.ready other u (lookup_erase_iff.mp hu).2
  | deleted htx hre hp hf =>
    rename_i id assignment actor target tx locked
    refine ready_commit hs fun other u hne hu => ⟨fun key hkey assigned hrow => ?_,
      fun _ key assigned hrow _ => (lookup_eraseWhere_eq_some_iff.mp hrow).1⟩
    refine lookup_eraseWhere_eq_some_iff.mpr ⟨hrow, decide_eq_false fun hur => ?_⟩
    have hh : s.anyHeld id target = true := by
      refine anyRow_eq_true_iff.mpr ⟨key, assigned, hrow, ?_⟩
      rw [Bool.and_eq_true, decide_eq_true_eq]
      exact ⟨hur, heldByOther_of_mem hu hne hkey⟩
    rw [hf] at hh
    cases hh
  | granted htx hre hp hnew hun =>
    rename_i id assignment actor target workspace role enabled tx
    refine ready_commit hs fun other u hne hu => ⟨fun key _ assigned hrow =>
      lookup_insert_of_lookup hnew hrow, fun hus key assigned hrow hur => ?_⟩
    rcases lookup_insert_iff.mp hrow with ⟨-, rfl⟩ | ⟨-, hold⟩
    · have hm : target ∈ tx.users := by
        rw [Tx.users, hp, hre]
        exact mem_cons_self
      have ht : target ∈ u.users := by
        rw [hus, ← hur]
        exact mem_cons_self
      exact absurd (hs.apart.users other id u tx target hu htx ht hm) hne
    · exact hold
  | revoked htx hre hp =>
    rename_i id assignment actor target workspace existing role enabled tx locked
    refine ready_commit hs fun other u hne hu => ⟨kept_erase fun hkey => ?_,
      fun _ key assigned hrow _ => (lookup_erase_iff.mp hrow).2⟩
    have hm : existing ∈ tx.assignments := by
      rw [Tx.assignments, hp]
      exact mem_cons_self
    exact hne (hs.apart.assignments other id u tx existing hu htx hkey hm)
  | removed htx hre hp hf =>
    refine ready_commit hs fun other u hne hu => ⟨fun key hkey assigned hrow => ?_,
      fun _ key assigned hrow _ => (lookup_eraseWhere_eq_some_iff.mp hrow).1⟩
    refine lookup_eraseWhere_eq_some_iff.mpr ⟨hrow, ?_⟩
    rw [decide_eq_false (ne_of_mem_of_not_mem hkey (notMem_of_free hf hu hne)), Bool.false_and]

theorem sound_of_empty (h : s.txs = ∅) : Sound s := by
  have hn : ∀ id tx, s.txs.lookup id ≠ some tx := by
    intro id tx htx
    rw [h] at htx
    cases htx
  refine ⟨⟨?_, ?_⟩, fun id tx htx => absurd htx (hn id tx)⟩
  · rw [h]
    exact exclusive_empty
  · rw [h]
    exact exclusive_empty

end Ready

end Aizzak.AccountLocks
