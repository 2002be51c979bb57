import Aizzak.AccountLocks

/-!
The owners of a workspace. The platform surface removes an owner with all of them locked, and
counts at least two of those. The tenant surface counts in one transaction and removes in
another, so the workspace keeps an owner as long as no other removal comes between the two.
-/
namespace Aizzak.LastOwner

open EventRuns KeyedTables Accounts AccountChanges RowLocks AccountTransactions AccountLocks

def HasOwner (s : State) (workspace : ℕ) : Prop :=
  ∃ key user, s.assignments.lookup key = some ⟨workspace, user, .owner⟩

def Unique (assignments : Assignments) : Prop :=
  ∀ i j assigned, assignments.lookup i = some assigned → assignments.lookup j = some assigned →
    i = j

def yetToRemove (workspace : ℕ) (tx : Tx) : Option ℕ :=
  match tx.request, tx.phase with
  | .revokeRole other _ _, .removing existing => if other = workspace then some existing else none
  | _, _ => none

def removes (tx : Tx) : Option ℕ :=
  match tx.phase with
  | .removing existing | .revoking _ existing _ => some existing
  | _ => none

/-- An owner of the workspace is removed after a request of the tenant surface has counted and
before it removes another one. -/
def overtakes (workspace : ℕ) (s : State) : Event → Bool
  | .next id _ => (s.txs.lookup id).any fun tx => (removes tx).any fun existing =>
      existing ∈ holdersOf s.assignments workspace .owner &&
        anyRow s.txs fun _ other => (yetToRemove workspace other).any fun key =>
          key ≠ existing && key ∈ holdersOf s.assignments workspace .owner
  | .start _ _ | .abort _ => false

/-- No removal comes between the count of another one and its own removal. -/
def CountsHold (workspace : ℕ) (s : State) (e : Event) : Prop := overtakes workspace s e = false

instance (workspace : ℕ) (s : State) (e : Event) : Decidable (CountsHold workspace s e) :=
  inferInstanceAs (Decidable (_ = false))

/-- What the tenant surface is about to remove is not the only owner of the workspace. -/
def Counted (workspace : ℕ) (s : State) : Prop :=
  ∀ id tx existing, s.txs.lookup id = some tx → yetToRemove workspace tx = some existing →
    ∃ key user, key ≠ existing ∧ s.assignments.lookup key = some ⟨workspace, user, .owner⟩

def Undeleting : Event → Prop
  | .start _ (.delete _ _) => False
  | .start _ (.setStatus _ _ _) | .start _ (.revokeRole _ _ _) | .start _ (.setRole _ _ _ _)
  | .next _ _ | .abort _ => True

def Standing (s : State) : Prop :=
  ∀ id tx actor target, s.txs.lookup id = some tx → tx.request ≠ .delete actor target

section Steps

variable {s t : State} {e : Event} {id target workspace existing : ℕ} {tx : Tx}

/-- Of two owners one stays when an assignment is removed. -/
theorem exists_other_of_length {keys : List ℕ} (hn : keys.Nodup) (hl : 1 < keys.length)
    (existing : ℕ) : ∃ key ∈ keys, key ≠ existing := by
  match keys with
  | [] => cases hl
  | [key] => simp at hl
  | first :: second :: rest =>
    by_cases hf : first = existing
    · refine ⟨second, by simp, ?_⟩
      rintro rfl
      simp [hf] at hn
    · exact ⟨first, by simp, hf⟩

theorem hasOwner_erase {key user : ℕ}
    (hrow : s.assignments.lookup key = some ⟨workspace, user, .owner⟩)
    (hne : key ≠ existing) :
    HasOwner { s.finish id with assignments := s.assignments.erase existing } workspace :=
  ⟨key, user, (AList.lookup_erase_ne hne).trans hrow⟩

theorem revoked_hasOwner {actor owned : ℕ} {role : RoleName} {enabled : Bool} {locked : List ℕ}
    (hs : Sound s) (how : HasOwner s workspace) (htx : s.txs.lookup id = some tx)
    (hre : tx.request = .setRole actor target role enabled)
    (hp : tx.phase = .revoking owned existing locked) :
    HasOwner { s.finish id with assignments := s.assignments.erase existing } workspace := by
  have hr := hs.ready id tx htx
  rw [Ready, hp] at hr
  obtain ⟨⟨assigned, hw, hexisting⟩, ho, hn, hc⟩ := hr
  obtain rfl := Option.some.inj ((wanted_setRole hre owned).symm.trans hw)
  by_cases hl : owned = workspace ∧ role = .owner
  · obtain ⟨rfl, rfl⟩ := hl
    have ht : tx.request.target = target := by rw [hre, Request.target]
    rw [ht] at hc
    obtain ⟨key, hkey, hne⟩ := exists_other_of_length hn (hc hw) existing
    obtain ⟨user, hrow⟩ := ho key hkey
    exact hasOwner_erase hrow hne
  · obtain ⟨key, user, hrow⟩ := how
    refine hasOwner_erase hrow ?_
    rintro rfl
    have hsa := Option.mem_unique hexisting hrow
    exact hl ⟨congrArg Assignment.workspaceId hsa, congrArg Assignment.role hsa⟩

theorem yetToRemove_revokeRole {owned user : ℕ} {role : RoleName}
    (hr : tx.request = .revokeRole owned user role) (hp : tx.phase = .removing existing) :
    yetToRemove workspace tx = if owned = workspace then some existing else none := by
  rw [yetToRemove, hr, hp]

theorem phase_of_yetToRemove (h : yetToRemove workspace tx = some existing) :
    tx.phase = .removing existing := by
  unfold yetToRemove at h
  split at h
  · rename_i hp
    split_ifs at h
    cases h
    exact hp
  · cases h

theorem removed_hasOwner {owned user : ℕ} {role : RoleName} (hc : Counted workspace s)
    (how : HasOwner s workspace) (htx : s.txs.lookup id = some tx)
    (hr : tx.request = .revokeRole owned user role) (hp : tx.phase = .removing existing) :
    HasOwner { s.finish id with
      assignments := removeAssignment s.assignments owned existing } workspace := by
  by_cases ho : owned = workspace
  · obtain ⟨key, holder, hne, hrow⟩ :=
      hc id tx existing htx ((yetToRemove_revokeRole hr hp).trans (if_pos ho))
    exact ⟨key, holder, lookup_eraseWhere_eq_some_iff.mpr ⟨hrow, by simp [hne]⟩⟩
  · obtain ⟨key, holder, hrow⟩ := how
    exact ⟨key, holder, lookup_eraseWhere_eq_some_iff.mpr ⟨hrow, by simp [Ne.symm ho]⟩⟩

/-- Of the owners one stays, in every statement of both surfaces. -/
theorem turn_hasOwner (hs : Sound s) (hst : Standing s) (hc : Counted workspace s)
    (ho : HasOwner s workspace) (h : Turn s e t) : HasOwner t workspace := by
  cases h with
  | started hnew => exact ho
  | moved htx hm => exact ho
  | finished => exact ho
  | statusSet htx hr hp hrow => exact ho
  | deleted htx hr hp hf => exact absurd hr (hst _ _ _ _ htx)
  | granted htx hr hp hnew hu =>
    obtain ⟨key, user, hrow⟩ := ho
    exact ⟨key, user, lookup_insert_of_lookup hnew hrow⟩
  | revoked htx hr hp => exact revoked_hasOwner hs ho htx hr hp
  | removed htx hr hp hf => exact removed_hasOwner hc ho htx hr hp

/-- A removal that no other one has counted on leaves the counts as they were. -/
theorem counted_removed {assignment removed : ℕ} {after : Assignments} (hc : Counted workspace s)
    (he : CountsHold workspace s (.next id assignment)) (htx : s.txs.lookup id = some tx)
    (hre : removes tx = some removed)
    (hafter : ∀ key row, s.assignments.lookup key = some row → key ≠ removed →
      after.lookup key = some row)
    (hbefore : ∀ key row, after.lookup key = some row → s.assignments.lookup key = some row)
    (ho : HasOwner { s.finish id with assignments := after } workspace) :
    Counted workspace { s.finish id with assignments := after } := by
  intro other u existing hu hex
  have hold := (lookup_erase_iff.mp hu).2
  obtain ⟨key, user, hne, hrow⟩ := hc other u existing hold hex
  by_cases hk : key = removed
  · subst hk
    -- the owner it counted on goes, so what it is to remove is no owner any more
    obtain ⟨left, holder, hl⟩ := ho
    refine ⟨left, holder, ?_, hl⟩
    rintro rfl
    have hoe : overtakes workspace s (.next id assignment) = true := by
      simp only [overtakes, htx, Option.any_some, hre, Bool.and_eq_true, decide_eq_true_eq]
      refine ⟨mem_holdersOf.mpr ⟨user, hrow⟩, anyRow_eq_true_iff.mpr ⟨other, u, hold, ?_⟩⟩
      simp only [hex, Option.any_some, Bool.and_eq_true, decide_eq_true_eq]
      exact ⟨hne.symm, mem_holdersOf.mpr ⟨holder, hbefore left _ hl⟩⟩
    rw [CountsHold, hoe] at he
    cases he
  · exact ⟨key, user, hne, hafter key _ hrow hk⟩

theorem counted_moved {phase : Phase} (hc : Counted workspace s) (ho : HasOwner s workspace)
    (hm : Moves s id tx phase) : Counted workspace (s.proceed id tx phase) := by
  refine fun other u existing hu hex => ?_
  rcases lookup_insert_iff.mp hu with ⟨rfl, rfl⟩ | ⟨-, hold⟩
  · cases hm with
    | removing hr hsp =>
      simp only [yetToRemove, hr] at hex
      split_ifs at hex with hw
      cases hex
      subst hw
      rcases hsp with hl | ⟨hro, hrow⟩
      · obtain ⟨key, hkey, hne⟩ := exists_other_of_length nodup_holdersOf hl _
        obtain ⟨user, hk⟩ := mem_holdersOf.mp hkey
        exact ⟨key, user, hne, hk⟩
      · obtain ⟨key, user, hk⟩ := ho
        refine ⟨key, user, ?_, hk⟩
        rintro rfl
        exact hro (congrArg Assignment.role (Option.mem_unique hrow hk))
    | _ => cases phase_of_yetToRemove hex
  · exact hc other u existing hold hex

theorem turn_counted (hst : Standing s) (hc : Counted workspace s) (ho : HasOwner s workspace)
    (he : CountsHold workspace s e) (hot : HasOwner t workspace) (h : Turn s e t) :
    Counted workspace t := by
  have her : ∀ id, Counted workspace (s.finish id) := fun id other u existing hu hex =>
    hc other u existing (lookup_erase_iff.mp hu).2 hex
  cases h with
  | started hnew =>
    refine fun other u existing hu hex => ?_
    rcases lookup_insert_iff.mp hu with ⟨-, rfl⟩ | ⟨-, hold⟩
    · cases phase_of_yetToRemove hex
    · exact hc other u existing hold hex
  | moved htx hm => exact counted_moved hc ho hm
  | finished => exact her _
  | statusSet htx hr hp hrow => exact her _
  | deleted htx hr hp hf => exact absurd hr (hst _ _ _ _ htx)
  | granted htx hr hp hnew hun =>
    refine fun other u existing hu hex => ?_
    obtain ⟨key, user, hne, hrow⟩ := her _ other u existing hu hex
    exact ⟨key, user, hne, lookup_insert_of_lookup hnew hrow⟩
  | revoked htx hr hp =>
    refine counted_removed hc he htx (by rw [removes, hp]) ?_ ?_ hot
    · exact fun key row hrow hne => (AList.lookup_erase_ne hne).trans hrow
    · exact fun key row hrow => (lookup_erase_iff.mp hrow).2
  | removed htx hr hp hf =>
    refine counted_removed hc he htx (by rw [removes, hp]) ?_ ?_ hot
    · exact fun key row hrow hne => lookup_eraseWhere_eq_some_iff.mpr ⟨hrow, by simp [hne]⟩
    · exact fun key row hrow => (lookup_eraseWhere_eq_some_iff.mp hrow).1

theorem turn_unique (hu : Unique s.assignments) (h : Turn s e t) : Unique t.assignments := by
  cases h with
  | started hnew => exact hu
  | moved htx hm => exact hu
  | finished => exact hu
  | statusSet htx hr hp hrow => exact hu
  | deleted htx hr hp hf =>
    exact fun i j assigned hi hj => hu i j assigned (lookup_eraseWhere_eq_some_iff.mp hi).1
      (lookup_eraseWhere_eq_some_iff.mp hj).1
  | granted htx hr hp hnew hun =>
    have hn := findAssignment_eq_none.mp hun
    intro i j assigned hi hj
    rcases lookup_insert_iff.mp hi with ⟨rfl, rfl⟩ | ⟨-, hold⟩
    · rcases lookup_insert_iff.mp hj with ⟨rfl, -⟩ | ⟨-, hold⟩
      · rfl
      · exact absurd hold (hn j)
    · rcases lookup_insert_iff.mp hj with ⟨rfl, rfl⟩ | ⟨-, hold'⟩
      · exact absurd hold (hn i)
      · exact hu i j assigned hold hold'
  | revoked htx hr hp =>
    exact fun i j assigned hi hj => hu i j assigned (lookup_erase_iff.mp hi).2
      (lookup_erase_iff.mp hj).2
  | removed htx hr hp hf =>
    exact fun i j assigned hi hj => hu i j assigned (lookup_eraseWhere_eq_some_iff.mp hi).1
      (lookup_eraseWhere_eq_some_iff.mp hj).1

theorem turn_standing (hs : Standing s) (he : Undeleting e) (h : Turn s e t) :
    Standing t := by
  have her : ∀ id other u actor target, (s.txs.erase id).lookup other = some u →
      u.request ≠ .delete actor target := fun id other u actor target hu =>
    hs other u actor target (lookup_erase_iff.mp hu).2
  have hi : ∀ id tx, (∀ actor target, tx.request ≠ .delete actor target) →
      ∀ other u actor target, (s.txs.insert id tx).lookup other = some u →
        u.request ≠ .delete actor target := by
    intro id tx hnew other u actor target hu
    rcases lookup_insert_iff.mp hu with ⟨-, rfl⟩ | ⟨-, hold⟩
    · exact hnew actor target
    · exact hs other u actor target hold
  cases h with
  | started hnew =>
    refine hi _ _ fun actor target => ?_
    rintro rfl
    exact he
  | moved htx hm =>
    have ho := fun actor target => hs _ _ actor target htx
    exact hi _ _ ho
  | finished => exact her _
  | statusSet htx hr hp hrow => exact her _
  | deleted htx hr hp hf => exact her _
  | granted htx hr hp hnew hun => exact her _
  | revoked htx hr hp => exact her _
  | removed htx hr hp hf => exact her _

theorem run_hasOwner {events : List Event} (hs : Sound s) (hst : Standing s)
    (hc : Counted workspace s) (how : HasOwner s workspace) (hk : ∀ e ∈ events, Undeleting e)
    (hg : Guarded step (CountsHold workspace) s events)
    (hrun : run step s events = some t) : HasOwner t workspace := by
  have hke : ∀ u e v, Sound u ∧ Standing u ∧ Counted workspace u ∧ HasOwner u workspace →
      Undeleting e ∧ CountsHold workspace u e → step u e = some v →
      Sound v ∧ Standing v ∧ Counted workspace v ∧ HasOwner v workspace := by
    intro u e v hu he hsp
    obtain ⟨hso, hop, hco, ho⟩ := hu
    have ht := step_turn hsp
    have hov := turn_hasOwner hso hop hco ho ht
    exact ⟨turn_sound hso ht, turn_standing hop he.1 ht,
      turn_counted hop hco ho he.2 hov ht, hov⟩
  exact (run_invariant hke (hg.and_of_forall hk) hrun ⟨hs, hst, hc, how⟩).2.2.2

/-- In every run of role changes of both surfaces on a workspace that starts with an owner, each
role is assigned to a user at most once; and where no owner is removed between the count and the
removal of another one on the tenant surface, the workspace has an owner in every state. -/
theorem workspace_keeps_owner {events : List Event} (hidle : s.txs = ∅)
    (hunique : Unique s.assignments) (howner : HasOwner s workspace)
    (hkeep : ∀ e ∈ events, Undeleting e) (hrun : run step s events = some t) :
    Unique t.assignments ∧
      (Guarded step (CountsHold workspace) s events →
        ∀ v, Visits step s events v → HasOwner v workspace) := by
  have hn : ∀ id tx, s.txs.lookup id ≠ some tx := by
    intro id tx htx
    rw [hidle] at htx
    cases htx
  have hk : ∀ u e v, Unique u.assignments → step u e = some v → Unique v.assignments :=
    fun u e v hu hs => turn_unique hu (step_turn hs)
  refine ⟨run_invariant_of_step hk hrun hunique, fun hg => ?_⟩
  rintro v ⟨before, after, rfl, hb⟩
  exact run_hasOwner (sound_of_empty hidle) (fun id tx _ _ htx => absurd htx (hn id tx))
    (fun id tx _ htx => absurd htx (hn id tx)) howner
    (fun e he => hkeep e (List.mem_append_left _ he)) hg.of_append hb

end Steps

private def owned (keys : List ℕ) : State where
  users := keys.foldl (fun users key => users.insert key ⟨10, [], .active⟩) ∅
  assignments := keys.foldl (fun rows key => rows.insert key ⟨10, key, .owner⟩) ∅
  txs := ∅

private def overlapping : List Event :=
  [.start 1 (.revokeRole 10 1 .owner), .start 2 (.setRole 9 2 .owner false), .next 1 0,
    .next 2 0, .next 1 0, .next 2 0, .next 2 0, .next 2 0, .next 2 0, .next 1 0, .next 2 0,
    .next 2 0, .next 2 0]

/-- Two of three owners are removed on both surfaces at once: the third one stays. -/
theorem overlapping_removals_keep_owner :
    ∃ s, run step (owned [1, 2, 3]) overlapping = some s ∧
      holdersOf s.assignments 10 .owner = [3] ∧ HasOwner s 10 ∧ Unique s.assignments := by
  obtain ⟨s, hrun, ht⟩ := exists_run_of_any
    (p := fun s : State => holdersOf s.assignments 10 .owner = [3])
    (show (run step (owned [1, 2, 3]) overlapping).any _ = true by decide +kernel)
  have hus : ∀ key assigned, (owned [1, 2, 3]).assignments.lookup key = some assigned →
      assigned.userId = key :=
    forall_insert rfl (forall_insert rfl (forall_insert rfl
      fun _ _ h => by cases h))
  have hu : Unique (owned [1, 2, 3]).assignments :=
    fun i j assigned hi hj => (hus i assigned hi).symm.trans (hus j assigned hj)
  have hk : ∀ e ∈ overlapping, Undeleting e := by
    intro e he
    simp only [overlapping, List.mem_cons, List.not_mem_nil, or_false] at he
    rcases he with rfl | rfl | rfl | rfl | rfl | rfl | rfl | rfl | rfl | rfl | rfl | rfl | rfl <;>
      trivial
  obtain ⟨hl, ho⟩ :=
    workspace_keeps_owner rfl hu (show HasOwner _ 10 from ⟨1, 1, rfl⟩) hk hrun
  have hg : Guarded step (CountsHold 10) (owned [1, 2, 3]) overlapping := by
    decide +kernel
  exact ⟨s, hrun, of_decide_eq_true ht,
    ho hg s ⟨overlapping, [], by simp, hrun⟩, hl⟩

private def twice : List Event :=
  [.start 1 (.revokeRole 10 1 .owner), .start 2 (.revokeRole 10 2 .owner), .next 1 0, .next 2 0,
    .next 1 0, .next 2 0, .next 1 0, .next 2 0]

/-- Two owners are revoked on the tenant surface: both counts find two, and none is left. -/
theorem counted_removals_leave_no_owner :
    ∃ s, run step (owned [1, 2]) twice = some s ∧ HasOwner (owned [1, 2]) 10 ∧
      holdersOf s.assignments 10 .owner = [] := by
  obtain ⟨s, hrun, ht⟩ := exists_run_of_any
    (p := fun s : State => holdersOf s.assignments 10 .owner = [])
    (show (run step (owned [1, 2]) twice).any _ = true by decide +kernel)
  exact ⟨s, hrun, ⟨1, 1, rfl⟩, of_decide_eq_true ht⟩

end Aizzak.LastOwner
