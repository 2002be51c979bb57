import Aizzak.Connections

/-!
The lifecycle of a connection. Saves are checked against the version they were read at, so what
a request has read of the status is current when it saves. What escapes the check: a renewal
written over a revoked row, a callback older than the last revocation that has loaded the row
reopened by a later handshake, and a failed exchange of a connected row.
-/
namespace Aizzak.ConnectionLifecycle

open EventRuns KeyedTables PyText VersionedRows Connections

variable {Ref : Type}

def status (s : State Ref) : Option ConnectionStatus := s.row.map (·.value.status)

def version (s : State Ref) : Option ℕ := s.row.map (·.version)

/-- No renewal is written over a revoked row. While the row is as it was loaded, an exchange of
a handshake older than the last revocation succeeds only if the row was revoked, and an exchange
fails only if the row was not connected. -/
def orderly (s : State Ref) : Event → Bool
  | .next id input =>
    match s.tasks.lookup id, input.grant with
    | some (.renewing _ _), _ => status s ≠ some .revoked
    | some (.exchanging begun read), some _ =>
      version s ≠ some read.version || begun = s.revocations || read.value.status = .revoked
    | some (.exchanging _ read), none =>
      version s ≠ some read.version || read.value.status ≠ .connected
    | _, _ => true
  | .begin _ _ | .callback _ _ | .use _ | .revoke _ | .expire _ | .crash _ => true

def Orderly (s : State Ref) (e : Event) : Prop := orderly s e = true

instance (s : State Ref) (e : Event) : Decidable (Orderly s e) :=
  inferInstanceAs (Decidable (_ = true))

def Clean (conn : Connection Ref) : Prop := conn.status = .revoked → conn.tokenRef = none

/-- The stored row has not fallen behind the one that was read, and has its status while it has
its version. -/
def Held (row : Option (Versioned (Connection Ref))) (read : Versioned (Connection Ref)) : Prop :=
  ∃ stored, row = some stored ∧ read.version ≤ stored.version ∧
    (stored.version = read.version → stored.value.status = read.value.status)

def Recent (s : State Ref) (begun : ℕ) (read : Versioned (Connection Ref)) : Prop :=
  version s = some read.version → begun = s.revocations

def Unconnected (s : State Ref) (read : Versioned (Connection Ref)) : Prop :=
  version s = some read.version → read.value.status ≠ .connected

def Ready (s : State Ref) : Connections.Task Ref → Prop
  | .exchanging _ read | .refreshing _ read _ => Held s.row read
  | .connecting begun read after =>
    Held s.row read ∧ Recent s begun read ∧ after.status = .connected
  | .restarting _ read after => Held s.row read ∧ after.status = .pending
  | .failing read after => Held s.row read ∧ Unconnected s read ∧ after.status = .error
  | .faulting read after => Held s.row read ∧ after.status = .error
  | .revoking read after => Held s.row read ∧ Clean after ∧ after.status = .revoked
  | .finding _ _ | .counting _ _ | .adding _ _ | .minting _ | .received _ | .consuming _ _
  | .loading _ | .gating | .renewing _ _ | .withdrawing => True

structure Sound (s : State Ref) : Prop where
  clean : ∀ row, s.row = some row → Clean row.value
  tasks : ∀ id task, s.tasks.lookup id = some task → Ready s task

section Aggregate

variable {conn after : Connection Ref}

theorem revoke_clean (h : Clean conn) : Clean conn.revoke := by
  unfold Connection.revoke
  split_ifs with hr
  · exact h
  · exact fun _ => rfl

theorem clean_of_status (h : after.status ≠ .revoked) : Clean after :=
  fun hr => absurd hr h

end Aggregate

section Frames

variable {s t : State Ref} {task : Connections.Task Ref} {row read : Versioned (Connection Ref)}

theorem held_of_row (h : s.row = some row) : Held s.row row :=
  ⟨row, h, le_rfl, fun _ => rfl⟩

/-- What a step leaves of what the requests rest on. -/
theorem Ready.frame (hr : Ready s task) (hh : ∀ read, Held s.row read → Held t.row read)
    (hc : ∀ read, Held s.row read → version t = some read.version →
      version s = some read.version ∧ t.revocations = s.revocations) : Ready t task := by
  cases task with
  | connecting begun read after =>
    obtain ⟨hrd, hrc, ha⟩ := hr
    refine ⟨hh _ hrd, fun hv => ?_, ha⟩
    obtain ⟨hs, hre⟩ := hc read hrd hv
    exact (hrc hs).trans hre.symm
  | failing read after =>
    obtain ⟨hrd, hu, ha⟩ := hr
    exact ⟨hh _ hrd, fun hv => hu (hc read hrd hv).1, ha⟩
  | exchanging begun read => exact hh _ hr
  | refreshing now read token => exact hh _ hr
  | restarting begun read after => exact ⟨hh _ hr.1, hr.2⟩
  | faulting read after => exact ⟨hh _ hr.1, hr.2⟩
  | revoking read after => exact ⟨hh _ hr.1, hr.2⟩
  | _ => trivial

theorem Ready.same (hr : Ready s task) (hrow : t.row = s.row)
    (hre : t.revocations = s.revocations) : Ready t task := by
  refine hr.frame (fun read hh => by rwa [hrow]) fun read _ hv => ⟨?_, hre⟩
  rwa [version, hrow] at hv

/-- A save makes every row that was read before it stale. -/
theorem Ready.saved (hr : Ready s task) {after : Connection Ref} (hrow : s.row = some row)
    (hs : t.row = some ⟨after, row.version + 1⟩) : Ready t task := by
  have hb : ∀ read, Held s.row read → read.version < row.version + 1 := by
    rintro read ⟨stored, hst, hle, -⟩
    obtain rfl := Option.mem_unique hrow hst
    exact Nat.lt_succ_of_le hle
  have hv : version t = some (row.version + 1) := by rw [version, hs, Option.map_some]
  refine hr.frame (fun read hh => ?_) fun read hh hsa => ?_
  · have hlt := hb read hh
    exact ⟨_, hs, hlt.le, fun hsa => absurd hsa hlt.ne'⟩
  · have hlt := hb read hh
    rw [hv, Option.some.injEq] at hsa
    omega

theorem Ready.renewed (hr : Ready s task) {value : Connection Ref} (hrow : s.row = some row)
    (hre : t.row = some ⟨value, row.version⟩) (hs : value.status = row.value.status)
    (hrv : t.revocations = s.revocations) : Ready t task := by
  refine hr.frame ?_ fun read _ hv => ⟨?_, hrv⟩
  · rintro read ⟨stored, hst, hle, hsa⟩
    obtain rfl := Option.mem_unique hrow hst
    exact ⟨_, hre, hle, fun hv => hs.trans (hsa hv)⟩
  · rw [version, hre, Option.map_some] at hv
    rw [version, hrow, Option.map_some]
    exact hv

end Frames

section Machine

variable {transit : Transit Ref} {skew : ℤ} {s t : State Ref} {e : Event}

theorem sound_init : Sound (State.init : State Ref) where
  clean row hrow := by cases hrow
  tasks id task htask := by simp [State.init] at htask

variable {id : ℕ} {input : Input} {task : Connections.Task Ref}

/-- A request that plans its next step reads the row it will save over. -/
theorem ready_of_plans {next : Connections.Task Ref} (hs : Sound s)
    (hok : Orderly s (.next id input)) (ht : s.tasks.lookup id = some task)
    (h : Plans transit skew s input task next) : Ready s next := by
  have hr := hs.tasks id task ht
  cases h with
  | restarts hrow hb => exact ⟨held_of_row hrow, Connection.begin_status hb⟩
  | exchanges hrow => exact held_of_row hrow
  | fails hg =>
    rename_i begun read reason
    refine ⟨hr, fun hv => ?_, rfl⟩
    simpa [Orderly, orderly, ht, hg, hv] using hok
  | connects hg hco =>
    rename_i begun read tokenRef expiresAt scopes grant after
    obtain ⟨ho, hc⟩ := Connection.connect_status hco
    refine ⟨hr, fun hv => ?_, hc⟩
    simpa [Orderly, orderly, ht, hg, hv, ho] using hok
  | gates hrow hga =>
    rename_i row now
    unfold gate at hga
    split at hga
    · cases hga
    · split_ifs at hga
      split at hga
      · cases hga
        exact ⟨held_of_row hrow, rfl⟩
      · cases hga
        exact ⟨held_of_row hrow, rfl⟩
      · cases hga
        exact held_of_row hrow
  | faults => exact ⟨hr, rfl⟩
  | revokes hrow =>
    exact ⟨held_of_row hrow, revoke_clean (hs.clean _ hrow), Connection.revoke_status _⟩
  | _ => trivial

variable {read : Versioned (Connection Ref)} {after : Connection Ref}

theorem clean_of_saves {next : Option (Connections.Task Ref)} {more : ℕ}
    (h : Saves task read after next more) (hr : Ready s task) : Clean after := by
  cases h with
  | restarted => exact clean_of_status (by simp [hr.2])
  | connected => exact clean_of_status (by simp [hr.2.2])
  | failed => exact clean_of_status (by simp [hr.2])
  | faulted => exact clean_of_status (by simp [hr.2])
  | revoked => exact hr.2.1

/-- What a request may turn to needs nothing of the row. -/
theorem ready_of_saves {next : Connections.Task Ref} {more : ℕ}
    (h : Saves task read after (some next) more) :
    Ready s next := by
  cases h
  trivial

/-- The requests in flight are the old ones and the one that has done a step. -/
theorem forall_rest {P : Connections.Task Ref → Prop} {next : Option (Connections.Task Ref)}
    (hn : ∀ task, next = some task → P task)
    (hold : ∀ i task, s.tasks.lookup i = some task → P task) :
    ∀ i task, (rest s id next).lookup i = some task → P task := by
  cases next with
  | none =>
    intro i task h
    exact hold i task (lookup_erase_iff.mp h).2
  | some next => exact forall_insert (hn next rfl) hold

theorem turn_sound (h : Turn transit skew s e t) (hok : Orderly s e) (hs : Sound s) :
    Sound t := by
  have hsm : ∀ i task, s.tasks.lookup i = some task → ∀ u : State Ref, u.row = s.row →
      u.revocations = s.revocations → Ready u task :=
    fun i task ht u hrow hr => (hs.tasks i task ht).same hrow hr
  cases h with
  | started hnew ht =>
    refine ⟨hs.clean, forall_insert ?_ fun i task h => hsm i task h _ rfl rfl⟩
    rcases ht with ⟨scopes, rfl⟩ | ⟨state, rfl⟩ | rfl | rfl <;> trivial
  | planned ht h =>
    have hrd := ready_of_plans hs hok ht h
    exact ⟨hs.clean,
      forall_insert (hrd.same rfl rfl) fun i task h => hsm i task h _ rfl rfl⟩
  | finished =>
    exact ⟨hs.clean, fun i task h => hsm i task (lookup_erase_iff.mp h).2 _ rfl rfl⟩
  | added ht hrow =>
    refine ⟨?_, forall_insert trivial fun i task h => ?_⟩
    · rintro row ha
      cases ha
      exact clean_of_status (by simp)
    · have hrd := hs.tasks i task h
      have hn : ∀ read, ¬ Held s.row read := by
        rintro read ⟨stored, hst, -⟩
        rw [hrow] at hst
        cases hst
      exact hrd.frame (fun read hh => absurd hh (hn read))
        fun read hh => absurd hh (hn read)
  | minted ht hnew =>
    exact ⟨hs.clean, fun i task h => hsm i task (lookup_erase_iff.mp h).2 _ rfl rfl⟩
  | consumed ht =>
    exact ⟨hs.clean, forall_insert trivial fun i task h => hsm i task h _ rfl rfl⟩
  | saved ht h hrow hv =>
    have hrd := hs.tasks _ _ ht
    refine ⟨?_, forall_rest (fun next hne => ?_) fun i task ht => ?_⟩
    · rintro row hsa
      cases hsa
      exact clean_of_saves h hrd
    · subst hne
      exact ready_of_saves h
    · exact (hs.tasks i task ht).saved hrow rfl
  | renewed ht hrow =>
    rename_i id input tokenRef expiresAt row
    have ho : row.value.status ≠ .revoked := by
      simpa [Orderly, orderly, ht, status, hrow] using hok
    refine ⟨?_, fun i task h => ?_⟩
    · rintro row' hre
      cases hre
      exact clean_of_status ho
    · exact (hs.tasks i task (lookup_erase_iff.mp h).2).renewed hrow rfl rfl rfl
  | expired => exact ⟨hs.clean, fun i task h => hsm i task h _ rfl rfl⟩

theorem run_sound {es : List Event} (hg : Guarded (step transit skew) Orderly .init es)
    (h : run (step transit skew) .init es = some s) : Sound s := by
  have hk : ∀ u f v, Sound u → Orderly u f → step transit skew u f = some v → Sound v :=
    fun u f v hu hok hv => turn_sound (step_turn hv) hok hu
  exact run_invariant hk hg h sound_init

theorem commit_row_of_stale (h : version s ≠ some read.version) :
    (s.commit id read after).row = s.row := by
  unfold State.commit
  split
  · rfl
  · rename_i last hs
    obtain ⟨row, hrow, hv, -⟩ := saveRow_eq_some hs
    refine absurd ?_ h
    rw [version, hrow, Option.map_some, hv]

/-- Only the callback of a handshake begun since the last revocation makes a row connected. -/
theorem turn_connected (h : Turn transit skew s e t) (hs : Sound s)
    (hb : status s ≠ some .connected) (ha : status t = some .connected) :
    ∃ id input read after, e = .next id input ∧
      s.tasks.lookup id = some (.connecting s.revocations read after) := by
  have hsa : ∀ u : State Ref, u.row = s.row → status u = some .connected → False := by
    intro u hrow hu
    exact hb (by rwa [status, hrow] at hu)
  cases h with
  | saved ht h hrow hv =>
    rename_i id more input task next row read after
    have hst : after.status = .connected := by simpa [status] using ha
    have hre := hs.tasks id task ht
    cases h with
    | connected =>
      have hr := hre.2.1 (by rw [version, hrow, Option.map_some, hv])
      exact ⟨id, input, read, after, rfl, hr ▸ ht⟩
    | restarted => simp [hre.2] at hst
    | failed => simp [hre.2.2] at hst
    | faulted => simp [hre.2] at hst
    | revoked => simp [hre.2.2] at hst
  | renewed ht hrow =>
    refine absurd ?_ hb
    simpa [status, hrow] using ha
  | added ht hrow => simp [status] at ha
  | started => exact (hsa _ rfl ha).elim
  | planned => exact (hsa _ rfl ha).elim
  | finished => exact (hsa _ rfl ha).elim
  | minted => exact (hsa _ rfl ha).elim
  | consumed => exact (hsa _ rfl ha).elim
  | expired => exact (hsa _ rfl ha).elim

theorem recent_of_connecting {begun : ℕ} (hs : Sound s)
    (ht : s.tasks.lookup id = some (.connecting begun read after))
    (h : step transit skew s (.next id input) = some t) (hc : t.row ≠ s.row) :
    begun = s.revocations := by
  simp only [step, ht, advance, Option.some.injEq] at h
  subst h
  by_contra hold
  have hst : version s ≠ some read.version :=
    fun hv => hold ((hs.tasks _ _ ht).2.1 hv)
  exact hc (commit_row_of_stale hst)

theorem connected_of_failing (hs : Sound s)
    (ht : s.tasks.lookup id = some (.failing read after))
    (h : step transit skew s (.next id input) = some t) (hb : status s = some .connected) :
    status t = some .connected := by
  simp only [step, ht, advance, Option.some.injEq] at h
  subst h
  obtain ⟨⟨stored, hrow, -, hsa⟩, hu, -⟩ := hs.tasks _ _ ht
  have hst : version s ≠ some read.version := by
    intro hv
    have hr : stored.version = read.version := by simpa [version, hrow] using hv
    have hsr : stored.value.status = .connected := by simpa [status, hrow] using hb
    exact hu hv ((hsa hr).symm.trans hsr)
  rwa [status, commit_row_of_stale hst]

/-- In an orderly run a revoked row holds no token material, what connects the row is a
handshake begun since the last revocation, and a failed exchange leaves a connected row
connected. -/
theorem revocation_and_consent_hold {es : List Event}
    (hg : Guarded (step transit skew) Orderly .init es)
    (hrun : run (step transit skew) .init es = some s) :
    (∀ row, s.row = some row → row.value.status = .revoked → row.value.tokenRef = none) ∧
      ∀ e t, step transit skew s e = some t →
        (status s ≠ some .connected → status t = some .connected →
          ∃ id input read after, e = .next id input ∧
            s.tasks.lookup id = some (.connecting s.revocations read after)) ∧
        (∀ id input begun read after, e = .next id input →
          s.tasks.lookup id = some (.connecting begun read after) → t.row ≠ s.row →
          begun = s.revocations) ∧
        (∀ id input read after, e = .next id input →
          s.tasks.lookup id = some (.failing read after) → status s = some .connected →
          status t = some .connected) := by
  have hs := run_sound hg hrun
  refine ⟨hs.clean, fun e t ht => ⟨fun hb ha => ?_, ?_, ?_⟩⟩
  · exact turn_connected (step_turn ht) hs hb ha
  · rintro id input begun read after rfl hta hc
    exact recent_of_connecting hs hta ht hc
  · rintro id input read after rfl hta hb
    exact connected_of_failing hs hta ht hb

end Machine

private def plain : Transit Tokens := ⟨fun _ tokens => tokens, fun ref => ref, fun _ _ => rfl⟩

private def quiet : Input := ⟨0, false, 0, 0, none⟩

private def drawing (state : ℕ) : Input := ⟨0, false, state, 0, none⟩

private def granting (now : ℤ) (access : String) : Input :=
  ⟨now, false, 0, 0, some ⟨ofString access, some (ofString "refresh"), 3600, []⟩⟩

private def handshake (id steps state : ℕ) : List Event :=
  .begin id [] :: List.replicate steps (.next id quiet) ++ [.next id (drawing state)]

private def callback (id state : ℕ) : List Event :=
  .callback id state :: List.replicate 3 (.next id quiet)

private def consent : List Event :=
  handshake 1 3 5 ++ callback 2 5 ++ [.next 2 (granting 0 "access"), .next 2 quiet]

private def revocation (id : ℕ) : List Event := [.revoke id, .next id quiet, .next id quiet]

private def reconsented : List Event :=
  consent ++ [.use 3, .next 3 (granting 9000 ""), .next 3 (granting 9000 "renewed"),
    .next 3 quiet] ++ revocation 4 ++ handshake 5 2 6 ++ callback 6 6 ++
    [.next 6 (granting 9000 "again"), .next 6 quiet]

/-- A connection is renewed, revoked and connected again by a later handshake. -/
theorem reconsented_connection_holds :
    ∃ s, run (step plain 60) .init reconsented = some s ∧ status s = some .connected ∧
      s.revocations = 1 ∧
      ∀ row, s.row = some row → row.value.status = .revoked → row.value.tokenRef = none := by
  obtain ⟨s, hrun, ht⟩ := exists_run_of_any
    (p := fun s : State Tokens => status s = some .connected ∧ s.revocations = 1)
    (show (run (step plain 60) .init reconsented).any _ = true by decide +kernel)
  obtain ⟨hc, hr⟩ := of_decide_eq_true ht
  have hg : Guarded (step plain 60) Orderly .init reconsented := by decide +kernel
  exact ⟨s, hrun, hc, hr, (revocation_and_consent_hold hg hrun).1⟩

private def lateRenewal : List Event :=
  consent ++ [.use 3, .next 3 (granting 9000 ""), .next 3 (granting 9000 "renewed")] ++
    revocation 4 ++ [.next 3 quiet]

private def oldState : List Event :=
  handshake 1 3 5 ++ revocation 2 ++ handshake 3 2 6 ++ callback 4 5 ++
    [.next 4 (granting 0 "access")]

private def failedReconsent : List Event :=
  consent ++ handshake 3 1 7 ++ callback 4 7 ++ [.next 4 quiet]

private def firstConnecting : Option (Connections.Task Tokens) → Bool
  | some (.connecting 0 _ _) => true
  | _ => false

/-- A renewal fills a revoked row again, a state minted before a revocation connects the row a
later handshake has reopened, and a failed re-consent takes a connected row to error. -/
theorem revoked_row_holds_tokens_again :
    (∃ s, run (step plain 60) .init lateRenewal = some s ∧ status s = some .revoked ∧
      s.row.any (·.value.tokenRef.isSome) = true) ∧
    (∃ s, run (step plain 60) .init oldState = some s ∧ s.revocations = 1 ∧
      (∃ read after, s.tasks.lookup 4 = some (.connecting 0 read after)) ∧
      status s = some .pending ∧
      (step plain 60 s (.next 4 quiet)).any (status · = some .connected) = true) ∧
    ∃ s, run (step plain 60) .init failedReconsent = some s ∧ status s = some .connected ∧
      (step plain 60 s (.next 4 quiet)).any (status · = some .error) = true := by
  obtain ⟨s, hrun, ht⟩ := exists_run_of_any
    (p := fun s : State Tokens =>
      status s = some .revoked ∧ s.row.any (·.value.tokenRef.isSome) = true)
    (show (run (step plain 60) .init lateRenewal).any _ = true by decide +kernel)
  refine ⟨⟨s, hrun, of_decide_eq_true ht⟩, ?_, ?_⟩
  · obtain ⟨s, hrun, ht⟩ := exists_run_of_any
      (p := fun s : State Tokens => s.revocations = 1 ∧
        firstConnecting (s.tasks.lookup 4) = true ∧
        status s = some .pending ∧
        (step plain 60 s (.next 4 quiet)).any (status · = some .connected) = true)
      (show (run (step plain 60) .init oldState).any _ = true by decide +kernel)
    obtain ⟨hr, hta, hre⟩ := of_decide_eq_true ht
    refine ⟨s, hrun, hr, ?_, hre⟩
    unfold firstConnecting at hta
    split at hta
    · rename_i read after hl
      exact ⟨read, after, hl⟩
    · cases hta
  · obtain ⟨s, hrun, ht⟩ := exists_run_of_any
      (p := fun s : State Tokens => status s = some .connected ∧
        (step plain 60 s (.next 4 quiet)).any (status · = some .error) = true)
      (show (run (step plain 60) .init failedReconsent).any _ = true by decide +kernel)
    exact ⟨s, hrun, of_decide_eq_true ht⟩

end Aizzak.ConnectionLifecycle
