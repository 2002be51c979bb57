import Aizzak.Logins

/-!
The first logins of one identity. The unique key of the users table lets one of them add the
users row, and all of them answer with the ids of that row. The owner role comes in a step of
its own, so the answers hold it as long as no other login lists the roles before that step.
-/
namespace Aizzak.FirstLogins

open EventRuns KeyedTables PyText Accounts Logins

/-- The identity has not been seen, and nothing is in flight. -/
structure FirstTime (uid : Text) (s : State) : Prop where
  calls : s.calls = ∅
  absent : byFirebaseUid s.users uid = none
  uncached : ∀ key, keyFor uid = some key → key ∉ s.cache

/-- No other identity shares the cache key of this one. -/
def Spaced (uid : Text) : Event → Prop
  | .start _ identity =>
    keyFor identity.firebaseUid = keyFor uid → identity.firebaseUid = uid
  | .next _ _ _ _ | .crash _ | .expire _ | .lapse _ => True

def seeded (uid : Text) (s : State) : Event → Bool
  | .next id _ _ _ =>
    match s.calls.lookup id with
    | none => true
    | some call =>
      match call.phase with
      | .listing provisioned =>
        call.identity.firebaseUid ≠ uid || provisioned.created ||
          (findAssignment s.assignments provisioned.owner).isSome
      | _ => true
  | .start _ _ | .crash _ | .expire _ | .lapse _ => true

def Seeded (uid : Text) (s : State) (e : Event) : Prop := seeded uid s e = true

instance (uid : Text) (s : State) (e : Event) : Decidable (Seeded uid s e) :=
  inferInstanceAs (Decidable (_ = true))

def Row (users : Users) (uid : Text) (workspace user : ℕ) : Prop :=
  ∃ row, users.lookup user = some row ∧ row.firebaseUid = uid ∧ row.workspaceId = workspace

def subject : Phase → Option (ℕ × ℕ)
  | .seeding provisioned | .granting provisioned | .listing provisioned
  | .storing provisioned _ => some (provisioned.workspaceId, provisioned.userId)
  | .answered principal => some (principal.workspaceId, principal.userId)
  | .checking | .looking | .finding | .addingWorkspace _ _ | .addingUser _ _ | .rereading
  | .ended => none

def Resolved (users : Users) (uid : Text) (phase : Phase) : Prop :=
  ∀ ids, subject phase = some ids → Row users uid ids.1 ids.2

def Owning (assignments : Assignments) : Phase → Prop
  | .listing provisioned => provisioned.created = true →
      (findAssignment assignments provisioned.owner).isSome = true
  | .storing _ roles => .owner ∈ roles
  | .answered principal => .owner ∈ principal.roles
  | .checking | .looking | .finding | .addingWorkspace _ _ | .addingUser _ _ | .rereading
  | .seeding _ | .granting _ | .ended => True

structure Seats (uid : Text) (s : State) : Prop where
  unique : ∀ i j u v, s.users.lookup i = some u → s.users.lookup j = some v →
    u.firebaseUid = uid → v.firebaseUid = uid → i = j
  spaced : ∀ id call, s.calls.lookup id = some call →
    keyFor call.identity.firebaseUid = keyFor uid → call.identity.firebaseUid = uid
  calls : ∀ id call, s.calls.lookup id = some call → call.identity.firebaseUid = uid →
    Resolved s.users uid call.phase
  cache : ∀ key cached, keyFor uid = some key → s.cache.lookup key = some cached →
    Row s.users uid cached.workspaceId cached.userId

structure Owns (uid : Text) (s : State) : Prop where
  calls : ∀ id call, s.calls.lookup id = some call → call.identity.firebaseUid = uid →
    Owning s.assignments call.phase
  cache : ∀ key cached, keyFor uid = some key → s.cache.lookup key = some cached →
    .owner ∈ cached.roles

section Seats

variable {uid : Text} {s t : State} {e : Event} {id : ℕ} {call : Call} {phase : Phase}
  {users : Users}

theorem row_provisionedOf {found : ℕ} {row : User} (created : Bool)
    (h : byFirebaseUid users uid = some (found, row)) :
    Row users uid (provisionedOf found row created).workspaceId
      (provisionedOf found row created).userId := by
  obtain ⟨hrow, huid⟩ := byFirebaseUid_eq_some h
  exact ⟨row, hrow, huid, rfl⟩

theorem proceeds_resolved (hs : Seats uid s) (hcall : s.calls.lookup id = some call)
    (huid : call.identity.firebaseUid = uid) (h : Proceeds s call phase) :
    Resolved s.users uid phase := by
  have hnow := hs.calls id call hcall huid
  intro ids hids
  cases h with
  | ends => cases hids
  | looks => cases hids
  | finds => cases hids
  | hits hkey hc ha =>
    cases hids
    rw [huid] at hkey
    exact hs.cache _ _ hkey hc
  | found hrow ha =>
    cases hids
    rw [huid] at hrow
    exact row_provisionedOf false hrow
  | provisions => cases hids
  | rereads => cases hids
  | grants hp =>
    refine hnow ids ?_
    rw [hp]
    exact hids
  | seeded hp how =>
    refine hnow ids ?_
    rw [hp]
    exact hids
  | lists hp =>
    refine hnow ids ?_
    rw [hp]
    exact hids
  | answers hp =>
    refine hnow ids ?_
    rw [hp]
    exact hids

theorem Seats.proceed (hs : Seats uid s) (phase : Phase)
    (hcall : s.calls.lookup id = some call)
    (h : call.identity.firebaseUid = uid → Resolved s.users uid phase) :
    Seats uid (s.proceed id call phase) where
  unique := hs.unique
  spaced := forall_insert (hs.spaced id call hcall) hs.spaced
  calls := forall_insert h hs.calls
  cache := hs.cache

theorem Row.insert {workspace user account : ℕ} {row : User} (h : Row users uid workspace user)
    (hnew : account ∉ users) : Row (users.insert account row) uid workspace user := by
  obtain ⟨old, hold, huid, hw⟩ := h
  exact ⟨old, lookup_insert_of_lookup hnew hold, huid, hw⟩

/-- All calls of an identity keep resolving it alike. -/
theorem turn_seats (hs : Seats uid s) (he : Spaced uid e) (h : Turn s e t) : Seats uid t := by
  cases h with
  | started hnew =>
    exact ⟨hs.unique, forall_insert he hs.spaced,
      forall_insert (fun _ _ hids => by cases hids) hs.calls, hs.cache⟩
  | proceeded hcall hpr =>
    exact hs.proceed _ hcall fun huid => proceeds_resolved hs hcall huid hpr
  | opened hcall =>
    rename_i id workspace user assignment added account call
    have hk := hs.proceed (.addingUser added account) hcall fun _ _ hids => by
      cases hids
    exact ⟨hk.unique, hk.spaced, hk.calls, hk.cache⟩
  | created hcall hp hfr =>
    rename_i id workspace user assignment added account call
    obtain ⟨hnew, ha⟩ := userConflicts_eq_false hfr
    have hot : ∀ i u, s.users.lookup i = some u → u.firebaseUid ≠ call.identity.firebaseUid :=
      fun i u hrow => byFirebaseUid_eq_none ha hrow
    refine ⟨fun i j u v hi hj hu hv => ?_, ?_, ?_, ?_⟩
    · rcases lookup_insert_iff.mp hi with ⟨rfl, rfl⟩ | ⟨-, hold⟩
      · rcases lookup_insert_iff.mp hj with ⟨rfl, -⟩ | ⟨-, hold⟩
        · rfl
        · exact absurd (hv.trans hu.symm) (hot j v hold)
      · rcases lookup_insert_iff.mp hj with ⟨rfl, rfl⟩ | ⟨-, hold'⟩
        · exact absurd (hu.trans hv.symm) (hot i u hold)
        · exact hs.unique i j u v hold hold' hu hv
    · exact forall_insert (hs.spaced id call hcall) hs.spaced
    · refine forall_insert (fun huid ids hids => ?_) fun other found hf huid ids hids =>
        (hs.calls other found hf huid ids hids).insert hnew
      cases hids
      exact ⟨_, AList.lookup_insert _, huid, rfl⟩
    · exact fun key cached hkey hc => (hs.cache key cached hkey hc).insert hnew
  | granted hcall hp hfr =>
    rename_i id workspace user assignment call provisioned
    have hk := hs.proceed (.listing provisioned) hcall fun huid ids hids => by
      refine hs.calls id call hcall huid ids ?_
      rw [hp]
      exact hids
    exact ⟨hk.unique, hk.spaced, hk.calls, hk.cache⟩
  | stored hcall hp hkey =>
    rename_i id workspace user assignment call provisioned roles key
    have hrow : call.identity.firebaseUid = uid →
        Row s.users uid provisioned.workspaceId provisioned.userId := by
      intro huid
      refine hs.calls id call hcall huid (provisioned.workspaceId, provisioned.userId) ?_
      rw [hp]
      rfl
    have hk := hs.proceed (.answered (provisioned.principal roles call.identity.firebaseUid))
      hcall fun huid ids hids => by
        cases hids
        exact hrow huid
    refine ⟨hk.unique, hk.spaced, hk.calls, fun other cached hot hc => ?_⟩
    rcases lookup_insert_iff.mp hc with ⟨rfl, rfl⟩ | ⟨-, hold⟩
    · exact hrow (hs.spaced id call hcall (hkey.trans hot.symm))
    · exact hs.cache other cached hot hold
  | crashed hcall hop => exact hs.proceed _ hcall fun _ _ hids => by cases hids
  | expired =>
    exact ⟨hs.unique, hs.spaced, hs.calls, fun key cached hkey hc =>
      hs.cache key cached hkey (lookup_erase_iff.mp hc).2⟩
  | lapsed => exact ⟨hs.unique, hs.spaced, hs.calls, hs.cache⟩

end Seats

section Owns

variable {uid : Text} {s t : State} {e : Event} {id : ℕ} {call : Call} {phase : Phase}

theorem Owns.proceed (ho : Owns uid s) (phase : Phase)
    (h : call.identity.firebaseUid = uid → Owning s.assignments phase) :
    Owns uid (s.proceed id call phase) where
  calls := forall_insert h ho.calls
  cache := ho.cache

variable {assignments : Assignments}

theorem owner_listed {provisioned : ProvisionedUser}
    (h : (findAssignment assignments provisioned.owner).isSome = true) :
    .owner ∈ rolesOf assignments provisioned.workspaceId provisioned.userId := by
  obtain ⟨key, hkey⟩ := Option.isSome_iff_exists.mp h
  exact mem_rolesOf.mpr ⟨key, findAssignment_eq_some hkey⟩

section

variable {workspace user assignment : ℕ} (ho : Owns uid s)
    (he : Seeded uid s (.next id workspace user assignment)) (hcall : s.calls.lookup id = some call)
    (huid : call.identity.firebaseUid = uid)
include ho he hcall huid

theorem seeded_listing {provisioned : ProvisionedUser} (hp : call.phase = .listing provisioned)
    : (findAssignment s.assignments provisioned.owner).isSome = true := by
  have hnow := ho.calls id call hcall huid
  rw [hp] at hnow
  simp only [Seeded, seeded, hcall, hp, huid, Bool.or_eq_true] at he
  rcases he with (hot | hc) | how
  · simp at hot
  · exact hnow hc
  · exact how

theorem proceeds_owning (h : Proceeds s call phase) : Owning s.assignments phase := by
  cases h with
  | ends => trivial
  | looks => trivial
  | finds => trivial
  | hits hkey hca ha =>
    rw [huid] at hkey
    exact ho.cache _ _ hkey hca
  | found hrow ha => exact fun hc => by cases hc
  | provisions => trivial
  | rereads => trivial
  | grants hp => trivial
  | seeded hp how => exact fun _ => how
  | lists hp => exact owner_listed (seeded_listing ho he hcall huid hp)
  | answers hp => exact owner_listed (seeded_listing ho he hcall huid hp)

end

theorem findAssignment_insert {wanted added : Assignment} {key : ℕ} (hnew : key ∉ assignments)
    (h : (findAssignment assignments wanted).isSome = true) :
    (findAssignment (assignments.insert key added) wanted).isSome = true := by
  obtain ⟨found, hf⟩ := Option.isSome_iff_exists.mp h
  exact findAssignment_isSome (lookup_insert_of_lookup hnew (findAssignment_eq_some hf))

theorem Owning.insert {added : Assignment} {key : ℕ} (hnew : key ∉ assignments)
    (h : Owning assignments phase) :
    Owning (assignments.insert key added) phase := by
  cases phase with
  | listing provisioned => exact fun hc => findAssignment_insert hnew (h hc)
  | storing provisioned roles => exact h
  | answered principal => exact h
  | _ => trivial

/-- While the owner role is seeded, the logins of the identity keep it. -/
theorem turn_owns (hs : Seats uid s) (ho : Owns uid s) (he : Seeded uid s e) (h : Turn s e t) :
    Owns uid t := by
  cases h with
  | started hnew => exact ⟨forall_insert (fun _ => trivial) ho.calls, ho.cache⟩
  | proceeded hcall hpr =>
    exact ho.proceed _ fun huid => proceeds_owning ho he hcall huid hpr
  | opened hcall =>
    exact ⟨forall_insert (fun _ => trivial) ho.calls, ho.cache⟩
  | created hcall hp hfr =>
    exact ⟨forall_insert (fun _ => trivial) ho.calls, ho.cache⟩
  | granted hcall hp hfr =>
    rename_i id workspace user assignment call provisioned
    refine ⟨forall_insert (fun _ _ => ?_) fun other found hf huid =>
      (ho.calls other found hf huid).insert hfr, ho.cache⟩
    exact findAssignment_isSome (AList.lookup_insert _)
  | stored hcall hp hkey =>
    rename_i id workspace user assignment call provisioned roles key
    have how : call.identity.firebaseUid = uid → .owner ∈ roles := by
      intro huid
      have hnow := ho.calls id call hcall huid
      rwa [hp] at hnow
    refine ⟨forall_insert how ho.calls, fun other cached hot hc => ?_⟩
    rcases lookup_insert_iff.mp hc with ⟨rfl, rfl⟩ | ⟨-, hold⟩
    · exact how (hs.spaced id call hcall (hkey.trans hot.symm))
    · exact ho.cache other cached hot hold
  | crashed hcall hop => exact ho.proceed _ fun _ => trivial
  | expired =>
    exact ⟨ho.calls, fun key cached hkey hc =>
      ho.cache key cached hkey (lookup_erase_iff.mp hc).2⟩
  | lapsed => exact ⟨ho.calls, ho.cache⟩

end Owns

section Runs

variable {lower : Text → Text} {caching : Bool} {uid : Text} {s t : State} {events : List Event}

theorem FirstTime.seats (h : FirstTime uid s) : Seats uid s where
  unique := fun i j u v hi _ hu _ => absurd hu (byFirebaseUid_eq_none h.absent hi)
  spaced := by
    intro id call hcall
    rw [h.calls] at hcall
    cases hcall
  calls := by
    intro id call hcall
    rw [h.calls] at hcall
    cases hcall
  cache := fun key _ hkey hc => absurd (mem_of_lookup hc) (h.uncached key hkey)

theorem FirstTime.owns (h : FirstTime uid s) : Owns uid s where
  calls := by
    intro id call hcall
    rw [h.calls] at hcall
    cases hcall
  cache := fun key _ hkey hc => absurd (mem_of_lookup hc) (h.uncached key hkey)

theorem run_seats (hf : FirstTime uid s) (hs : ∀ e ∈ events, Spaced uid e)
    (hrun : run (step lower caching) s events = some t) : Seats uid t := by
  have hg : Guarded (step lower caching) (fun _ e => Spaced uid e) s events :=
    guarded_of_forall fun e he _ => hs e he
  have hk : ∀ u e v, Seats uid u → Spaced uid e → step lower caching u e = some v →
      Seats uid v := fun u e v hu he hst => turn_seats hu he (step_turn hst)
  exact run_invariant hk hg hrun hf.seats

theorem run_owns (hf : FirstTime uid s) (hs : ∀ e ∈ events, Spaced uid e)
    (hse : Guarded (step lower caching) (Seeded uid) s events)
    (hrun : run (step lower caching) s events = some t) : Owns uid t := by
  have hg := hse.and_of_forall hs
  have hk : ∀ u e v, Seats uid u ∧ Owns uid u → Spaced uid e ∧ Seeded uid u e →
      step lower caching u e = some v → Seats uid v ∧ Owns uid v := by
    intro u e v hu he hst
    have ht := step_turn hst
    exact ⟨turn_seats hu.1 he.1 ht, turn_owns hu.1 hu.2 he.2 ht⟩
  exact (run_invariant hk hg hrun ⟨hf.seats, hf.owns⟩).2

def Answered (s : State) (uid : Text) (principal : Principal) : Prop :=
  ∃ id call, s.calls.lookup id = some call ∧ call.identity.firebaseUid = uid ∧
    call.phase = .answered principal

/-- In every run of first logins of an identity, whatever crashes, no two users rows carry it,
and all answers name the user and the workspace of its row. They also hold the owner role if
no login lists the roles of a user added by another one before the owner role is stored. -/
theorem first_logins_share_owner (hfirst : FirstTime uid s)
    (hspaced : ∀ e ∈ events, Spaced uid e)
    (hrun : run (step lower caching) s events = some t) :
    (∀ i j u v, t.users.lookup i = some u → t.users.lookup j = some v →
        u.firebaseUid = uid → v.firebaseUid = uid → i = j) ∧
      (∀ principal, Answered t uid principal →
        Row t.users uid principal.workspaceId principal.userId) ∧
      (∀ p q, Answered t uid p → Answered t uid q →
        p.userId = q.userId ∧ p.workspaceId = q.workspaceId) ∧
      (Guarded (step lower caching) (Seeded uid) s events →
        ∀ principal, Answered t uid principal → .owner ∈ principal.roles) := by
  have hs := run_seats hfirst hspaced hrun
  have hrow : ∀ principal, Answered t uid principal →
      Row t.users uid principal.workspaceId principal.userId := by
    rintro principal ⟨id, call, hcall, huid, hph⟩
    have hr := hs.calls id call hcall huid
    rw [hph] at hr
    exact hr (principal.workspaceId, principal.userId) rfl
  refine ⟨hs.unique, hrow, fun p q hp hq => ?_, fun hse => ?_⟩
  · obtain ⟨u, hu, huid, hw⟩ := hrow p hp
    obtain ⟨v, hv, hvid, hw'⟩ := hrow q hq
    have hsa := hs.unique _ _ u v hu hv huid hvid
    rw [hsa, hv] at hu
    cases hu
    exact ⟨hsa, hw.symm.trans hw'⟩
  · rintro principal ⟨id, call, hcall, huid, hph⟩
    have ho := run_owns hfirst hspaced hse hrun
    have how := ho.calls id call hcall huid
    rwa [hph] at how

end Runs

private def sam : Identity := ⟨ofString "sam", some (ofString "sam@example.org")⟩

private def empty : State := ⟨∅, [], ∅, ∅, [], ∅⟩

private theorem firstTime_empty : FirstTime sam.firebaseUid empty :=
  ⟨rfl, rfl, fun _ _ h => by cases h⟩

private def nexts (id n : ℕ) : List Event :=
  List.replicate n (.next id (10 * id) (10 * id + 1) (10 * id + 2))

private def seat (id : ℕ) (roles : List RoleName) : Call :=
  ⟨sam, .answered ⟨10, id, roles, sam.firebaseUid⟩⟩

private def contested : List Event :=
  [.start 1 sam, .start 2 sam] ++ nexts 1 4 ++ nexts 2 4 ++ nexts 1 3 ++ nexts 2 2 ++
    nexts 1 2 ++ nexts 2 2

private theorem spaced_contested : ∀ e ∈ contested, Spaced sam.firebaseUid e := by
  intro e he
  cases e with
  | start id identity =>
    have hsam : id = 1 ∧ identity = sam ∨ id = 2 ∧ identity = sam := by
      simpa [contested, nexts] using he
    rcases hsam with ⟨-, rfl⟩ | ⟨-, rfl⟩
    · exact fun _ => rfl
    · exact fun _ => rfl
  | _ => trivial

/-- Two first logins overlap: the second loses the users row and finds the owner role. -/
theorem contested_logins_share_owner :
    ∃ s, run (step id true) empty contested = some s ∧
      ∃ p q, Answered s sam.firebaseUid p ∧ Answered s sam.firebaseUid q ∧
        p.userId = q.userId ∧ .owner ∈ p.roles ∧ .owner ∈ q.roles := by
  obtain ⟨s, hrun, ht⟩ := exists_run_of_any
    (p := fun s : State => s.calls.lookup 1 = some (seat 11 [.owner]) &&
      s.calls.lookup 2 = some (seat 11 [.owner]))
    (show (run (step id true) empty contested).any _ = true by decide +kernel)
  rw [Bool.and_eq_true, decide_eq_true_eq, decide_eq_true_eq] at ht
  have hf : Answered s sam.firebaseUid ⟨10, 11, [.owner], sam.firebaseUid⟩ :=
    ⟨1, _, ht.1, rfl, rfl⟩
  have hs : Answered s sam.firebaseUid ⟨10, 11, [.owner], sam.firebaseUid⟩ :=
    ⟨2, _, ht.2, rfl, rfl⟩
  obtain ⟨-, -, hsa, how⟩ :=
    first_logins_share_owner firstTime_empty spaced_contested hrun
  have hse : Guarded (step id true) (Seeded sam.firebaseUid) empty contested := by
    decide +kernel
  exact ⟨s, hrun, _, _, hf, hs, (hsa _ _ hf hs).1,
    how hse _ hf, how hse _ hs⟩

private def interrupted : List Event :=
  [.start 1 sam] ++ nexts 1 5 ++ [.crash 1, .start 2 sam] ++ nexts 2 5 ++ [.start 3 sam] ++
    nexts 3 2

/-- The process dies between the users row and the owner role: the logins that follow find the
user without a role, and the cache keeps that answer. -/
theorem interrupted_login_has_no_owner :
    ∃ s, run (step id true) empty interrupted = some s ∧
      Answered s sam.firebaseUid ⟨10, 11, [], sam.firebaseUid⟩ ∧
      s.calls.lookup 3 = some (seat 11 []) := by
  obtain ⟨s, hrun, ht⟩ := exists_run_of_any
    (p := fun s : State => s.calls.lookup 2 = some (seat 11 []) &&
      s.calls.lookup 3 = some (seat 11 []))
    (show (run (step id true) empty interrupted).any _ = true by decide +kernel)
  rw [Bool.and_eq_true, decide_eq_true_eq, decide_eq_true_eq] at ht
  exact ⟨s, hrun, ⟨2, _, ht.1, rfl, rfl⟩, ht.2⟩

end Aizzak.FirstLogins
