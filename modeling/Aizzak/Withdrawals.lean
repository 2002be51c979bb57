import Aizzak.AccountRoutes

/-!
Withdrawn authority. A route that has returned has dropped the cached principal and closed the
sockets its process was serving when it turned to them. Logins that start afterwards answer with
what the tables have held since the change, as long as no login that was in flight at the change
stores its answer after the route dropped the entry.
-/
namespace Aizzak.Withdrawals

open EventRuns KeyedTables PyText Accounts AccountChanges AccountRoutes Option
open Logins (keyFor Identity Principal Phase Call Proceeds)

inductive Turn (s : State) : Event → State → Prop where
  | login {e : Logins.Event} {logins : Logins.State} (h : Logins.Turn s.logins e logins) :
      Turn s (.login e) { s with logins := logins }
  | changed {id process assignment : ℕ} {change : Change} {row : User} {committed : Committed}
      (hnew : id ∉ s.routes) :
      Turn s (.change id process assignment change)
        { s.setRoute id ⟨change.user, row.firebaseUid, process, committed.changed,
            .doing (planned change committed.changed)⟩ with
          logins := { s.logins with
            users := committed.users
            assignments := committed.assignments } }
  | acted {id : ℕ} {closes : Bool} {route : Route} {action : Action} {todo : List Action}
      (hroute : s.routes.lookup id = some route)
      (hprogress : route.progress = .doing (action :: todo)) :
      Turn s (.proceed id closes) (act s id route closes todo action)
  | registered {id call process : ℕ} {principal : Principal} (hnew : id ∉ s.sessions) :
      Turn s (.register id call process)
        { s with
          sessions := s.sessions.insert id
            ⟨process, principal.workspaceId, principal.userId, .live⟩ }
  | unregistered {id : ℕ} {session : Session} (hsession : s.sessions.lookup id = some session) :
      Turn s (.unregister id) (s.setStatus id session .unregistered)

section Steps

variable {lower : Text → Text} {caching : Bool} {s t : State} {e : Event}

theorem step_turn (h : step lower caching s e = some t) : Turn s e t := by
  cases e with
  | login e =>
    obtain ⟨logins, hl, rfl⟩ := map_eq_some_iff.mp h
    exact .login (Logins.step_turn hl)
  | change id process assignment change =>
    simp only [step] at h
    split_ifs at h with hnew
    split at h
    · cases h
      exact .changed hnew
    · cases h
  | proceed id closes =>
    simp only [step] at h
    split at h
    · cases h
    · rename_i route hroute
      split at h
      · rename_i action todo hp
        cases h
        exact .acted hroute hp
      · cases h
      · cases h
  | register id call process =>
    simp only [step] at h
    split_ifs at h with hnew
    split at h
    · cases h
      exact .registered hnew
    · cases h
  | unregister id =>
    simp only [step] at h
    split at h
    · cases h
    · rename_i session hs
      cases h
      exact .unregistered hs

end Steps

def ActiveIn (seen : State → Prop) (user : ℕ) : Prop :=
  ∃ v row, seen v ∧ v.logins.users.lookup user = some row ∧ row.status = .active

def RolesIn (seen : State → Prop) (workspace user : ℕ) (roles : List RoleName) : Prop :=
  ∃ v, seen v ∧ roles = rolesOf v.logins.assignments workspace user

/-- The principal carries no older activity and no older roles than these states. -/
def Current (seen : State → Prop) (principal : Principal) : Prop :=
  ActiveIn seen principal.userId ∧
    RolesIn seen principal.workspaceId principal.userId principal.roles

def Reads (seen : State → Prop) : Phase → Prop
  | .seeding provisioned | .granting provisioned | .listing provisioned =>
    ActiveIn seen provisioned.userId
  | .storing provisioned roles =>
    ActiveIn seen provisioned.userId ∧
      RolesIn seen provisioned.workspaceId provisioned.userId roles
  | .checking | .looking | .finding | .addingWorkspace _ _ | .addingUser _ _ | .rereading
  | .answered _ | .ended => True

/-- The calls that were in flight at the change store their answers before the route drops the
entry. -/
def prompt (calls : List ℕ) (id : ℕ) (uid : Text) (s : State) : Event → Bool
  | .login (.next call _ _ _) =>
    match s.logins.calls.lookup call with
    | some ⟨identity, .storing _ _⟩ =>
      call ∉ calls || keyFor identity.firebaseUid ≠ keyFor uid ||
        (s.routes.lookup id).any (·.pending .forget)
    | _ => true
  | _ => true

def Prompt (calls : List ℕ) (id : ℕ) (uid : Text) (s : State) (e : Event) : Prop :=
  prompt calls id uid s e = true

instance (calls : List ℕ) (id : ℕ) (uid : Text) (s : State) (e : Event) :
    Decidable (Prompt calls id uid s e) := inferInstanceAs (Decidable (_ = true))

/-- The calls since the change, and the cached principal once the route has dropped the entry. -/
structure Fresh (seen : State → Prop) (calls : List ℕ) (id : ℕ) (uid : Text) (s : State) :
    Prop where
  calls : ∀ call found, s.logins.calls.lookup call = some found → call ∉ calls →
    Reads seen found.phase
  cache : ∀ route todo key cached, s.routes.lookup id = some route →
    route.progress = .doing todo → .forget ∉ todo → keyFor uid = some key →
    s.logins.cache.lookup key = some cached →
    ActiveIn seen cached.userId ∧ RolesIn seen cached.workspaceId cached.userId cached.roles
  route : ∃ route, s.routes.lookup id = some route ∧ route.uid = uid

section Fresh

variable {seen : State → Prop} {calls : List ℕ} {id : ℕ} {uid : Text} {s t : State} {e : Event}
  {logins : Logins.State} {event : Logins.Event} {call : ℕ} {found : Call} {phase : Phase}

theorem proceeds_reads (hseen : seen s) (hnow : Reads seen found.phase)
    (h : Proceeds s.logins found phase) : Reads seen phase := by
  cases h with
  | ends => trivial
  | looks => trivial
  | finds => trivial
  | hits hkey hc hac => trivial
  | found hrow hac => exact ⟨s, _, hseen, (byFirebaseUid_eq_some hrow).1, hac⟩
  | provisions => trivial
  | rereads => trivial
  | grants hp => rwa [hp] at hnow
  | seeded hp ho => rwa [hp] at hnow
  | lists hp =>
    rw [hp] at hnow
    exact ⟨hnow, s, hseen, rfl⟩
  | answers hp => trivial

theorem login_reads (hseen : seen s) (hn : seen { s with logins := logins })
    (hcalls : ∀ call found, s.logins.calls.lookup call = some found → call ∉ calls →
      Reads seen found.phase)
    (h : Logins.Turn s.logins event logins) :
    ∀ call found, logins.calls.lookup call = some found → call ∉ calls →
      Reads seen found.phase := by
  cases h with
  | started hnew => exact forall_insert (fun _ => trivial) hcalls
  | proceeded hc hpr =>
    exact forall_insert
      (fun hl => proceeds_reads hseen (hcalls _ _ hc hl) hpr) hcalls
  | opened hc => exact forall_insert (fun _ => trivial) hcalls
  | created hc hp hfr =>
    exact forall_insert (fun _ => ⟨_, _, hn, AList.lookup_insert _, rfl⟩) hcalls
  | granted hc hp hfr =>
    refine forall_insert (fun hl => ?_) hcalls
    have hnow := hcalls _ _ hc hl
    rwa [hp] at hnow
  | stored hc hp hkey => exact forall_insert (fun _ => trivial) hcalls
  | crashed hc ho => exact forall_insert (fun _ => trivial) hcalls
  | expired => exact hcalls
  | lapsed => exact hcalls

theorem late_of_prompt {call workspace user assignment : ℕ} {found : Call}
    {provisioned : Logins.ProvisionedUser} {roles : List RoleName} {route : Route}
    {todo : List Action}
    (hpr : Prompt calls id uid s (.login (.next call workspace user assignment)))
    (hc : s.logins.calls.lookup call = some found)
    (hph : found.phase = .storing provisioned roles)
    (hkey : keyFor found.identity.firebaseUid = keyFor uid)
    (hroute : s.routes.lookup id = some route) (hpg : route.progress = .doing todo)
    (hd : .forget ∉ todo) : call ∉ calls := by
  obtain ⟨identity, phase⟩ := found
  obtain rfl : phase = .storing provisioned roles := hph
  have hp : route.pending .forget = false := by
    rw [Route.pending, hpg]
    exact decide_eq_false hd
  simpa [Prompt, prompt, hc, hkey, hroute, hp] using hpr

theorem login_cache {route : Route} {todo : List Action} {key : Text}
    (hf : Fresh seen calls id uid s) (hp : Prompt calls id uid s (.login event))
    (hroute : s.routes.lookup id = some route) (hpr : route.progress = .doing todo)
    (hd : .forget ∉ todo) (hkey : keyFor uid = some key)
    (h : Logins.Turn s.logins event logins) :
    ∀ cached, logins.cache.lookup key = some cached →
      ActiveIn seen cached.userId ∧
        RolesIn seen cached.workspaceId cached.userId cached.roles := by
  have hc := hf.cache route todo key
  cases h with
  | started hnew => exact fun cached => hc cached hroute hpr hd hkey
  | proceeded hcl hpc => exact fun cached => hc cached hroute hpr hd hkey
  | opened hcl => exact fun cached => hc cached hroute hpr hd hkey
  | created hcl hph hfr =>
    exact fun cached => hc cached hroute hpr hd hkey
  | granted hcl hph hfr =>
    exact fun cached => hc cached hroute hpr hd hkey
  | stored hcl hph hs =>
    intro cached hca
    rcases lookup_insert_iff.mp hca with ⟨rfl, rfl⟩ | ⟨-, hold⟩
    · have hl := late_of_prompt hp hcl hph (hs.trans hkey.symm) hroute
        hpr hd
      have hnow := hf.calls _ _ hcl hl
      rwa [hph] at hnow
    · exact hc cached hroute hpr hd hkey hold
  | crashed hcl ho => exact fun cached => hc cached hroute hpr hd hkey
  | expired =>
    exact fun cached hca =>
      hc cached hroute hpr hd hkey (lookup_erase_iff.mp hca).2
  | lapsed => exact fun cached => hc cached hroute hpr hd hkey

end Fresh

section Acts

variable {s : State} {id : ℕ} {route : Route} {closes : Bool} {todo : List Action}
  {action : Action}

theorem act_calls : (act s id route closes todo action).logins.calls = s.logins.calls := by
  unfold act
  split
  · split <;> rfl
  · split <;> rfl
  · rfl
  · split <;> rfl
  · split <;> rfl

theorem act_routes (s : State) (id : ℕ) (route : Route) (closes : Bool) (todo : List Action)
    (action : Action) :
    ∃ next, (act s id route closes todo action).routes = s.routes.insert id next ∧
      next.uid = route.uid ∧ next.user = route.user ∧ next.process = route.process ∧
      (next.progress = .raised ∨
        ∃ sessions : List ℕ, next.progress = .doing (sessions.map .close ++ todo)) := by
  unfold act
  split
  · split
    · exact ⟨_, rfl, rfl, rfl, rfl, .inl rfl⟩
    · exact ⟨_, rfl, rfl, rfl, rfl, .inr ⟨[], rfl⟩⟩
  · split
    · exact ⟨_, rfl, rfl, rfl, rfl, .inl rfl⟩
    · exact ⟨_, rfl, rfl, rfl, rfl, .inr ⟨[], rfl⟩⟩
  · exact ⟨_, rfl, rfl, rfl, rfl, .inr ⟨_, rfl⟩⟩
  · split
    · exact ⟨_, rfl, rfl, rfl, rfl, .inr ⟨[], rfl⟩⟩
    · exact ⟨_, rfl, rfl, rfl, rfl, .inr ⟨[], rfl⟩⟩
  · split
    · exact ⟨_, rfl, rfl, rfl, rfl, .inl rfl⟩
    · exact ⟨_, rfl, rfl, rfl, rfl, .inr ⟨[], rfl⟩⟩

theorem act_cache {key : Text} {cached : Logins.CachedPrincipal}
    (h : (act s id route closes todo action).logins.cache.lookup key = some cached) :
    s.logins.cache.lookup key = some cached := by
  unfold act at h
  split at h
  · split at h
    · exact h
    · exact h
  · split at h
    · exact h
    · exact h
  · exact h
  · split at h
    · exact h
    · exact h
  · split at h
    · exact h
    · exact (lookup_erase_iff.mp h).2

/-- The action that drops the entry. -/
theorem act_forget {key : Text} {cached : Logins.CachedPrincipal}
    (hkey : keyFor route.uid = some key) :
    (act s id route closes todo .forget).logins.cache.lookup key ≠ some cached := by
  intro h
  rw [act, hkey] at h
  exact (lookup_erase_iff.mp h).1 rfl

end Acts

section Runs

variable {seen : State → Prop} {calls : List ℕ} {id : ℕ} {uid : Text} {s t : State} {e : Event}

theorem forget_mem_closings {sessions : List ℕ} {todo : List Action} :
    .forget ∈ sessions.map Action.close ++ todo ↔ .forget ∈ todo := by
  simp

/-- Calls since the change carry the new authority. -/
theorem turn_fresh (hseen : seen s) (hn : seen t) (hf : Fresh seen calls id uid s)
    (hp : Prompt calls id uid s e) (h : Turn s e t) : Fresh seen calls id uid t := by
  obtain ⟨mine, hm, huid⟩ := hf.route
  cases h with
  | login hl =>
    exact ⟨login_reads hseen hn hf.calls hl,
      fun route todo key cached hroute hpr hd hkey =>
        login_cache hf hp hroute hpr hd hkey hl cached,
      mine, hm, huid⟩
  | changed hnew =>
    refine ⟨hf.calls, fun route todo key cached hroute => ?_, mine,
      lookup_insert_of_lookup hnew hm, huid⟩
    rcases lookup_insert_iff.mp hroute with ⟨rfl, -⟩ | ⟨-, hold⟩
    · exact absurd (mem_of_lookup hm) hnew
    · exact hf.cache route todo key cached hold
  | acted hroute hpr =>
    rename_i other closes route action todo
    obtain ⟨next, hr, hsa, -, -, hdn⟩ := act_routes s other route closes todo action
    refine ⟨?_, fun found rest key cached hfn hre hd hkey hc => ?_, ?_⟩
    · rw [act_calls]
      exact hf.calls
    · rw [hr] at hfn
      rcases lookup_insert_iff.mp hfn with ⟨rfl, rfl⟩ | ⟨-, hold⟩
      · obtain rfl := mem_unique hm hroute
        rcases hdn with hra | ⟨sessions, hdo⟩
        · rw [hra] at hre
          cases hre
        · rw [hdo] at hre
          obtain rfl := Progress.doing.inj hre
          rw [forget_mem_closings] at hd
          by_cases hfo : action = .forget
          · subst hfo
            rw [huid.symm] at hkey
            exact absurd hc (act_forget hkey)
          · refine hf.cache mine _ key cached hroute hpr ?_ hkey (act_cache hc)
            rw [List.mem_cons, not_or]
            exact ⟨Ne.symm hfo, hd⟩
      · exact hf.cache found rest key cached hold hre hd hkey (act_cache hc)
    · rw [hr]
      rcases same_or_ne hroute hm with ⟨rfl, rfl⟩ | ho
      · exact ⟨next, AList.lookup_insert _, hsa.trans huid⟩
      · exact ⟨mine, (AList.lookup_insert_ne ho).trans hm, huid⟩
  | registered hnew => exact ⟨hf.calls, hf.cache, mine, hm, huid⟩
  | unregistered hs => exact ⟨hf.calls, hf.cache, mine, hm, huid⟩

theorem turn_keeps_calls {call : ℕ} (hc : call ∈ s.logins.calls) (h : Turn s e t) :
    call ∈ t.logins.calls := by
  have hi : ∀ other value, call ∈ s.logins.calls.insert other value :=
    fun other _ => (AList.mem_insert _).mpr (.inr hc)
  cases h with
  | login hl =>
    cases hl with
    | started hnew => exact hi _ _
    | proceeded hfo hpr => exact hi _ _
    | opened hfo => exact hi _ _
    | created hfo hp hfr => exact hi _ _
    | granted hfo hp hfr => exact hi _ _
    | stored hfo hp hkey => exact hi _ _
    | crashed hfo ho => exact hi _ _
    | expired => exact hc
    | lapsed => exact hc
  | changed hnew => exact hc
  | acted hroute hpg =>
    rw [act_calls]
    exact hc
  | registered hnew => exact hc
  | unregistered hs => exact hc

theorem turn_returned {route : Route} (hroute : s.routes.lookup id = some route)
    (hreturned : route.progress = .doing []) (h : Turn s e t) :
    t.routes.lookup id = some route := by
  cases h with
  | login hl => exact hroute
  | changed hnew => exact lookup_insert_of_lookup hnew hroute
  | acted ho hp =>
    rename_i other closes found action todo
    obtain ⟨next, hr, -⟩ := act_routes s other found closes todo action
    rw [hr]
    rcases same_or_ne ho hroute with ⟨rfl, rfl⟩ | hsa
    · rw [hreturned] at hp
      cases hp
    · exact (AList.lookup_insert_ne hsa).trans hroute
  | registered hnew => exact hroute
  | unregistered hs => exact hroute

def Answers (seen : State → Prop) (early : AList fun _ : ℕ => Call) (uid : Text) (s : State) :
    Prop :=
  ∀ call found principal, s.logins.calls.lookup call = some found → call ∉ early →
    found.identity.firebaseUid = uid → found.phase = .answered principal → Current seen principal

section

variable {early : AList fun _ : ℕ => Call} {route : Route} (hseen : seen s)
    (hf : Fresh seen calls id uid s) (hroute : s.routes.lookup id = some route)
    (hreturned : route.progress = .doing []) (hcalls : ∀ call, call ∉ early → call ∉ calls)
    (ha : Answers seen early uid s)
include hseen hf hroute hreturned hcalls ha

theorem login_answers {logins : Logins.State} {event : Logins.Event}
    (h : Logins.Turn s.logins event logins) :
    Answers seen early uid { s with logins := logins } := by
  have had : ∀ call found, (∀ principal, call ∉ early →
      found.identity.firebaseUid = uid → found.phase = .answered principal →
        Current seen principal) →
      ∀ other value principal, (s.logins.calls.insert call found).lookup other = some value →
        other ∉ early → value.identity.firebaseUid = uid → value.phase = .answered principal →
          Current seen principal := by
    intro call found hnew other value principal hvalue
    rcases lookup_insert_iff.mp hvalue with ⟨rfl, rfl⟩ | ⟨-, hold⟩
    · exact hnew principal
    · exact ha other value principal hold
  cases h with
  | started hnew => exact had _ _ fun _ _ _ hp => by cases hp
  | proceeded hca hpr =>
    refine had _ _ fun principal he huid hp => ?_
    obtain rfl : _ = Phase.answered principal := hp
    cases hpr with
    | hits hkey hc hac =>
      rw [show _ = uid from huid] at hkey
      exact hf.cache route [] _ _ hroute hreturned (List.not_mem_nil) hkey hc
    | answers hl =>
      have hnow := hf.calls _ _ hca (hcalls _ he)
      rw [hl] at hnow
      exact ⟨hnow, s, hseen, rfl⟩
  | opened hca => exact had _ _ fun _ _ _ hp => by cases hp
  | created hca hp hfr => exact had _ _ fun _ _ _ hp => by cases hp
  | granted hca hp hfr => exact had _ _ fun _ _ _ hp => by cases hp
  | stored hca hs hkey =>
    refine had _ _ fun principal he huid hp => ?_
    obtain rfl := Phase.answered.inj hp
    have hnow := hf.calls _ _ hca (hcalls _ he)
    rw [hs] at hnow
    exact hnow
  | crashed hca ho => exact had _ _ fun _ _ _ hp => by cases hp
  | expired => exact ha
  | lapsed => exact ha

theorem turn_answers (h : Turn s e t) : Answers seen early uid t := by
  cases h with
  | login hl => exact login_answers hseen hf hroute hreturned hcalls ha hl
  | changed hnew => exact ha
  | acted hroute hp =>
    intro call found principal hfo
    rw [act_calls] at hfo
    exact ha call found principal hfo
  | registered hnew => exact ha
  | unregistered hs => exact ha

end

end Runs

section Closings

variable {id socket : ℕ} {s t : State} {e : Event}

/-- The route closes the socket before it returns, unless the socket is no longer live. -/
def Closing (id socket : ℕ) (s : State) : Prop :=
  ∃ route session, s.routes.lookup id = some route ∧ s.sessions.lookup socket = some session ∧
    session.process = route.process ∧ session.userId = route.user ∧
    (session.status = .live → route.progress = .raised ∨ route.pending .disconnect = true ∨
      route.pending (.close socket) = true)

theorem close_ne_live (closes : Bool) (status : SessionStatus) : status.close closes ≠ .live := by
  cases status <;> cases closes <;> decide

theorem act_sessions (id : ℕ) (route : Route) (closes : Bool) (todo : List Action)
    (action : Action) {session : Session} (h : s.sessions.lookup socket = some session) :
    ∃ next, (act s id route closes todo action).sessions.lookup socket = some next ∧
      next.process = session.process ∧ next.userId = session.userId ∧
      (next.status = .live → session.status = .live ∧ action ≠ .close socket) := by
  have hs : ∀ u : State, u.sessions = s.sessions → action ≠ .close socket →
      ∃ next, u.sessions.lookup socket = some next ∧ next.process = session.process ∧
        next.userId = session.userId ∧
        (next.status = .live → session.status = .live ∧ action ≠ .close socket) := by
    intro u hu hne
    exact ⟨session, by rw [hu, h], rfl, rfl, fun hl => ⟨hl, hne⟩⟩
  cases action with
  | revoke =>
    simp only [act]
    split
    · exact hs _ rfl (by simp)
    · exact hs _ rfl (by simp)
  | clear =>
    simp only [act]
    split
    · exact hs _ rfl (by simp)
    · exact hs _ rfl (by simp)
  | disconnect => exact hs _ rfl (by simp)
  | close other =>
    simp only [act]
    by_cases ho : socket = other
    · subst ho
      rw [h]
      exact ⟨_, AList.lookup_insert _, rfl, rfl,
        fun hl => absurd hl (close_ne_live closes session.status)⟩
    · split
      · exact hs _ rfl (by simpa using Ne.symm ho)
      · exact ⟨session, (AList.lookup_insert_ne ho).trans h, rfl, rfl,
          fun hl => ⟨hl, by simpa using Ne.symm ho⟩⟩
  | forget =>
    simp only [act]
    split
    · exact hs _ rfl (by simp)
    · exact hs _ rfl (by simp)

theorem mem_served {process user : ℕ} {session : Session}
    (h : s.sessions.lookup socket = some session) (hp : session.process = process)
    (hu : session.userId = user) (hl : session.status = .live) :
    socket ∈ s.served process user := by
  rw [State.served, List.mem_map]
  refine ⟨⟨socket, session⟩, List.mem_filter.mpr ⟨AList.mem_lookup_iff.mp h, ?_⟩, rfl⟩
  simp [hp, hu, hl]

/-- What a route had to do about the socket it still has to do after another action. -/
theorem pending_after {route next : Route} {action wanted : Action} {todo : List Action}
    {sessions : List ℕ} (hpr : route.progress = .doing (action :: todo))
    (hp : route.pending wanted = true) (hne : action ≠ wanted)
    (hd : next.progress = .doing (sessions.map .close ++ todo)) :
    next.pending wanted = true := by
  rw [Route.pending, hpr] at hp
  rw [Route.pending, hd]
  have hmem : wanted ∈ action :: todo := of_decide_eq_true hp
  rcases List.mem_cons.mp hmem with rfl | hmem
  · exact absurd rfl hne
  · exact decide_eq_true (List.mem_append_right _ hmem)

/-- The socket the route must close stays on its way to be closed. -/
theorem turn_closing (hc : Closing id socket s) (h : Turn s e t) : Closing id socket t := by
  obtain ⟨route, session, hroute, hs, hp, hu, hli⟩ := hc
  cases h with
  | login hl => exact ⟨route, session, hroute, hs, hp, hu, hli⟩
  | changed hnew =>
    exact ⟨route, session, lookup_insert_of_lookup hnew hroute, hs, hp, hu, hli⟩
  | acted hat hpr =>
    rename_i other closes acting action todo
    obtain ⟨last, hla, hsa, hh, hk⟩ :=
      act_sessions other acting closes todo action hs
    obtain ⟨next, hro, -, hnx, hn, hdn⟩ :=
      act_routes s other acting closes todo action
    by_cases ho : id = other
    · subst ho
      obtain rfl := mem_unique hroute hat
      refine ⟨next, last, by rw [hro, AList.lookup_insert], hla,
        hsa.trans (hp.trans hn.symm),
        hh.trans (hu.trans hnx.symm), fun hop => ?_⟩
      obtain ⟨hop, hne⟩ := hk hop
      rcases hdn with hr | ⟨sessions, hdo⟩
      · exact .inl hr
      · rcases hli hop with hr | hd | hcl
        · rw [hpr] at hr
          cases hr
        · by_cases hac : action = .disconnect
          · subst hac
            right
            right
            have hnt : some next = some (route.doing
                ((s.served route.process route.user).map .close ++ todo)) := by
              rw [← AList.lookup_insert (a := id) s.routes, ← hro]
              exact AList.lookup_insert _
            rw [some.inj hnt]
            refine decide_eq_true (List.mem_append_left _ (List.mem_map.mpr ⟨socket, ?_, rfl⟩))
            exact mem_served hs hp hu hop
          · exact .inr (.inl (pending_after hpr hd hac hdo))
        · exact .inr (.inr (pending_after hpr hcl hne hdo))
    · refine ⟨route, last, by rw [hro, AList.lookup_insert_ne ho, hroute], hla,
        hsa.trans hp, hh.trans hu, fun hop => hli (hk hop).1⟩
  | registered hnew =>
    exact ⟨route, session, hroute, lookup_insert_of_lookup hnew hs, hp, hu, hli⟩
  | unregistered ho =>
    rename_i other found
    rcases same_or_ne ho hs with ⟨rfl, rfl⟩ | hsa
    · exact ⟨route, _, hroute, AList.lookup_insert _, hp, hu, fun hop => by cases hop⟩
    · exact ⟨route, session, hroute, (AList.lookup_insert_ne hsa).trans hs, hp,
        hu, hli⟩

end Closings

section Returned

variable {lower : Text → Text} {caching : Bool} {s before after t : State}
  {id process assignment : ℕ} {change : Change} {mine last : Route} {events more : List Event}

def withdraws : Change → Bool
  | .setStatus _ .active => false
  | .setStatus _ .disabled | .delete _ | .setRole _ _ _ => true

theorem change_route
    (hc : step lower caching s (.change id process assignment change) = some before)
    (hm : before.routes.lookup id = some mine) :
    mine.user = change.user ∧ mine.process = process ∧
      mine.progress = .doing (planned change mine.changed) := by
  simp only [step] at hc
  split_ifs at hc
  split at hc
  · cases hc
    obtain rfl := some.inj ((AList.lookup_insert _).symm.trans hm)
    exact ⟨rfl, rfl, rfl⟩
  · cases hc

theorem planned_forget (change : Change) : .forget ∈ planned change true := by
  cases change with
  | setStatus user status => cases status <;> simp [planned]
  | delete user => simp [planned]
  | setRole user role enabled => simp [planned]

theorem planned_disconnect (h : withdraws change = true) :
    .disconnect ∈ planned change true := by
  cases change with
  | setStatus user status =>
    cases status with
    | active => cases h
    | disabled => simp [planned]
  | delete user => simp [planned]
  | setRole user role enabled => simp [planned]

theorem run_fresh {seen : State → Prop} {calls : List ℕ} {uid : Text}
    (hseen : ∀ v, Visits (step lower caching) before events v → seen v)
    (hg : Guarded (step lower caching) (Prompt calls id uid) before events)
    (hrun : run (step lower caching) before events = some after)
    (hf : Fresh seen calls id uid before) : Fresh seen calls id uid after := by
  refine run_invariant_of_visits ?_ hg hrun hf
  intro v e u hv hu hfr hp hs
  exact turn_fresh (hseen v hv) (hseen u hu) hfr hp (step_turn hs)

theorem run_answers {seen : State → Prop} {calls : List ℕ} {uid : Text}
    {early : AList fun _ : ℕ => Call}
    (hseen : ∀ v, Visits (step lower caching) after more v → seen v)
    (hg : Guarded (step lower caching) (Prompt calls id uid) after more)
    (hrun : run (step lower caching) after more = some t) (hf : Fresh seen calls id uid after)
    (hl : after.routes.lookup id = some last) (hreturned : last.progress = .doing [])
    (hcalls : ∀ call, call ∉ early → call ∉ calls) (ha : Answers seen early uid after) :
    Answers seen early uid t := by
  have hk : ∀ v e u, Visits (step lower caching) after more v →
      Visits (step lower caching) after more u →
      Fresh seen calls id uid v ∧ v.routes.lookup id = some last ∧ Answers seen early uid v →
      Prompt calls id uid v e → step lower caching v e = some u →
      Fresh seen calls id uid u ∧ u.routes.lookup id = some last ∧
        Answers seen early uid u := by
    intro v e u hv hu hinv hp hs
    obtain ⟨hfr, hroute, han⟩ := hinv
    have ht := step_turn hs
    exact ⟨turn_fresh (hseen v hv) (hseen u hu) hfr hp ht,
      turn_returned hroute hreturned ht,
      turn_answers (hseen v hv) hfr hroute hreturned hcalls han ht⟩
  exact (run_invariant_of_visits hk hg hrun ⟨hf, hl, ha⟩).2.2

/-- After the route of a change has returned, a login that starts answers with activity and with
roles that the tables have held since the change, in every run in which the logins that were in
flight at the change store their answers before the route drops the cached principal. A route
that withdraws authority turns to the sockets of the user after the change; of those its process
serves then none is live when it has returned, nor later: each has been closed or has been
unregistered, or its close has failed. -/
theorem withdrawn_authority_is_gone
    (hcommit : step lower caching s (.change id process assignment change) = some before)
    (hmine : before.routes.lookup id = some mine) (hchanged : mine.changed = true)
    (hrun : run (step lower caching) before events = some after)
    (hlast : after.routes.lookup id = some last) (hreturned : last.returned = true)
    (hmore : run (step lower caching) after more = some t) :
    (Guarded (step lower caching) (Prompt before.logins.calls.keys id mine.uid) before
        (events ++ more) →
      ∀ call found principal, t.logins.calls.lookup call = some found →
        call ∉ after.logins.calls → found.identity.firebaseUid = mine.uid →
        found.phase = .answered principal →
        Current (Visits (step lower caching) before (events ++ more)) principal) ∧
      mine.user = change.user ∧ mine.process = process ∧
      (withdraws change = true → mine.pending .disconnect = true) ∧
      ∀ v route socket session, Visits (step lower caching) before events v →
        v.routes.lookup id = some route → route.pending .disconnect = true →
        v.sessions.lookup socket = some session → session.process = route.process →
        session.userId = route.user →
        ∀ final, t.sessions.lookup socket = some final → final.status ≠ .live := by
  obtain ⟨hus, hp, hpr⟩ := change_route hcommit hmine
  rw [hchanged] at hpr
  have hdn : last.progress = .doing [] := of_decide_eq_true hreturned
  refine ⟨fun hg => ?_, hus, hp, fun hw => ?_, ?_⟩
  · have hseen : ∀ v, Visits (step lower caching) before events v →
        Visits (step lower caching) before (events ++ more) v := fun v hv => hv.of_append more
    have hsr : Fresh (Visits (step lower caching) before (events ++ more))
        before.logins.calls.keys id mine.uid before := by
      refine ⟨fun call found hfo hl => ?_, fun route todo key cached hroute hdo hdr =>
        ?_, mine, hmine, rfl⟩
      · exact absurd (AList.mem_keys.mpr (mem_of_lookup hfo)) hl
      · obtain rfl := mem_unique hmine hroute
        rw [hpr] at hdo
        obtain rfl := Progress.doing.inj hdo
        exact absurd (planned_forget change) hdr
    have hfs := run_fresh hseen hg.of_append hrun hsr
    have hk : ∀ call, call ∈ before.logins.calls → call ∈ after.logins.calls := by
      intro call hca
      have hke : ∀ v e u, call ∈ v.logins.calls → step lower caching v e = some u →
          call ∈ u.logins.calls := fun v e u hv hst => turn_keeps_calls hv (step_turn hst)
      exact run_invariant_of_step hke hrun hca
    have hn : Answers (Visits (step lower caching) before (events ++ more))
        after.logins.calls mine.uid after :=
      fun call found principal hfo he => absurd (mem_of_lookup hfo) he
    exact run_answers (fun v hv => hv.append hrun) (hg.after hrun) hmore hfs hlast hdn
      (fun call he hca => he (hk call (AList.mem_keys.mp hca))) hn
  · rw [Route.pending, hpr]
    exact decide_eq_true (planned_disconnect hw)
  · intro v route socket session hv hroute hpe hse hs hh final hfi
    obtain ⟨front, back, rfl, hfr⟩ := hv
    have hc : Closing id socket v :=
      ⟨route, session, hroute, hse, hs, hh, fun _ => .inr (.inl hpe)⟩
    have hb : run (step lower caching) v back = some after := by
      rw [← run_append hfr]
      exact hrun
    have hke : ∀ u e w, Closing id socket u → step lower caching u e = some w →
        Closing id socket w := fun u e w hu hst => turn_closing hu (step_turn hst)
    have hro : ∀ u e w, u.routes.lookup id = some last → step lower caching u e = some w →
        w.routes.lookup id = some last :=
      fun u e w hu hst => turn_returned hu hdn (step_turn hst)
    obtain ⟨found, closed, hfo, hcl, -, -, hli⟩ :=
      run_invariant_of_step hke hmore (run_invariant_of_step hke hb hc)
    obtain rfl := some.inj
      ((run_invariant_of_step hro hmore hlast).symm.trans hfo)
    obtain rfl := mem_unique hcl hfi
    intro ho
    rcases hli ho with hr | hd | hcs
    · rw [hdn] at hr
      cases hr
    · simp [Route.pending, hdn] at hd
    · simp [Route.pending, hdn] at hcs

end Returned

private def ann : Identity := ⟨ofString "ann", some (ofString "ann@example.org")⟩

private def seated : State where
  logins :=
    { users := (∅ : Users).insert 11 ⟨10, ann.firebaseUid, .active⟩
      workspaces := [10]
      assignments := ((∅ : Assignments).insert 12 ⟨10, 11, .owner⟩).insert 13 ⟨10, 11, .admin⟩
      cache := ∅
      revoked := []
      calls := ∅ }
  routes := ∅
  sessions := (∅ : AList fun _ : ℕ => Session).insert 21 ⟨1, 10, 11, .live⟩

private def login (call : ℕ) : List Event :=
  .login (.start call ann) :: List.replicate 5 (.login (.next call 0 0 0))

private def demotion : Event := .change 5 1 0 (.setRole 11 .admin false)

private def handling : List Event := List.replicate 3 (.proceed 5 true)

/-- A role is taken away: the socket is closed, and the next login answers without the role. -/
theorem demotion_takes_role_away :
    ∃ before after t, step id true seated demotion = some before ∧
      run (step id true) before handling = some after ∧
      run (step id true) after (login 1) = some t ∧
      (∃ found principal, t.logins.calls.lookup 1 = some found ∧
        found.phase = .answered principal ∧ principal.roles = [.owner] ∧
        Current (Visits (step id true) before (handling ++ login 1)) principal) ∧
      ∃ final, t.sessions.lookup 21 = some final ∧ final.status ≠ .live := by
  obtain ⟨before, hc, ht⟩ := (any_eq_true _ _).mp
    (show (step id true seated demotion).any (fun before =>
      (before.routes.lookup 5).any (fun mine =>
        mine.changed && mine.uid = ann.firebaseUid && mine.pending .disconnect &&
          mine.process = 1 && mine.user = 11) &&
      before.sessions.lookup 21 = some ⟨1, 10, 11, .live⟩ &&
      decide (Guarded (step id true) (Prompt before.logins.calls.keys 5 ann.firebaseUid) before
        (handling ++ login 1)) &&
      (run (step id true) before handling).any fun after =>
        (after.routes.lookup 5).any (fun last => last.returned) &&
        1 ∉ after.logins.calls &&
        (run (step id true) after (login 1)).any fun t =>
          t.logins.calls.lookup 1 =
            some ⟨ann, .answered ⟨10, 11, [.owner], ann.firebaseUid⟩⟩ &&
          (t.sessions.lookup 21).isSome) = true by decide +kernel)
  simp only [Bool.and_eq_true, decide_eq_true_eq] at ht
  obtain ⟨⟨⟨hm, hso⟩, hg⟩, ht⟩ := ht
  obtain ⟨mine, hm, hfa⟩ := (any_eq_true _ _).mp hm
  simp only [Bool.and_eq_true, decide_eq_true_eq] at hfa
  obtain ⟨⟨⟨⟨hch, huid⟩, hp⟩, hpr⟩, hu⟩ := hfa
  obtain ⟨after, hrun, ht⟩ := (any_eq_true _ _).mp ht
  simp only [Bool.and_eq_true, decide_eq_true_eq] at ht
  obtain ⟨⟨hl, hnew⟩, ht⟩ := ht
  obtain ⟨last, hl, hreturned⟩ := (any_eq_true _ _).mp hl
  obtain ⟨t, hmo, ht⟩ := (any_eq_true _ _).mp ht
  simp only [Bool.and_eq_true, decide_eq_true_eq] at ht
  obtain ⟨hca, hcl⟩ := ht
  obtain ⟨final, hfi⟩ := isSome_iff_exists.mp hcl
  obtain ⟨han, -, -, -, hs⟩ :=
    withdrawn_authority_is_gone hc hm hch hrun hl hreturned hmo
  rw [huid] at han
  refine ⟨before, after, t, hc, hrun, hmo, ⟨_, _, hca, rfl, rfl, ?_⟩, final, hfi, ?_⟩
  · exact han hg 1 _ _ hca hnew rfl rfl
  · exact hs before mine 21 _ ⟨[], handling, rfl, rfl⟩ hm hp hso
      hpr.symm hu.symm final hfi

private def disabling : List Event :=
  login 1 ++ [.register 22 1 2, .change 5 1 0 (.setStatus 11 .disabled), .proceed 5 true] ++
    handling

/-- The account is disabled by a route of the first process: when it has returned, the socket
that the second process serves is still live. -/
theorem socket_of_another_process_stays :
    ∃ s, run (step id true) seated disabling = some s ∧
      (s.routes.lookup 5).any (fun route => route.returned && route.changed) = true ∧
      s.sessions.lookup 22 = some ⟨2, 10, 11, .live⟩ := by
  obtain ⟨s, hrun, ht⟩ := exists_run_of_any
    (p := fun s : State =>
      (s.routes.lookup 5).any (fun route => route.returned && route.changed) &&
      s.sessions.lookup 22 = some ⟨2, 10, 11, .live⟩)
    (show (run (step id true) seated disabling).any _ = true by decide +kernel)
  rw [Bool.and_eq_true, decide_eq_true_eq] at ht
  exact ⟨s, hrun, ht⟩

end Aizzak.Withdrawals
