import Aizzak.Connections

/-!
Uses of one connected connection at once, against a provider that rotates refresh tokens: the
token it issued last is accepted, and a new one takes its place. A renewal is written without a
version and without a version bump, so a call that was refused saves the row it had loaded over
it.
-/
namespace Aizzak.TokenRenewals

open EventRuns KeyedTables PyText VersionedRows Option
open Connections (Tokens Transit ConnectionStatus Connection Grant Input Event gate advance saveRow
  saveRow_eq_some effectiveRefresh)

structure State (Ref : Type) where
  requests : Connections.State Ref
  issued : List Text

/-- The provider accepts the token it issued last, and issues a new one. -/
def answer (issued : List Text) (token : Text) : Option Grant → Option (List Text)
  | none => if issued.head? = some token then none else some issued
  | some grant =>
    match grant.refreshToken with
    | none | some [] => none
    | some (c :: new) =>
      if issued.head? = some token ∧ c :: new ∉ issued then some ((c :: new) :: issued) else none

variable {Ref : Type}

def step (transit : Transit Ref) (skew : ℤ) (s : State Ref) : Event → Option (State Ref)
  | .use id =>
    match Connections.step transit skew s.requests (.use id) with
    | none => none
    | some requests => some ⟨requests, s.issued⟩
  | .next id input =>
    match s.requests.tasks.lookup id with
    | none => none
    | some (.refreshing now read token) =>
      match answer s.issued token input.grant with
      | none => none
      | some issued =>
        match advance transit skew s.requests id input (.refreshing now read token) with
        | none => none
        | some requests => some ⟨requests, issued⟩
    | some task =>
      match advance transit skew s.requests id input task with
      | none => none
      | some requests => some ⟨requests, s.issued⟩
  | .begin _ _ | .callback _ _ | .revoke _ | .expire _ | .crash _ => none

def status (s : State Ref) : Option ConnectionStatus := s.requests.row.map (·.value.status)

def refreshOf (transit : Transit Ref) (row : Versioned (Connection Ref)) : Option Text :=
  row.value.tokenRef.bind fun tokenRef => (transit.decrypt tokenRef).refresh

def stored (transit : Transit Ref) (s : State Ref) : Option Text :=
  s.requests.row.bind (refreshOf transit)

def presents (s : State Ref) : Event → Bool
  | .next id _ =>
    match s.requests.tasks.lookup id with
    | some (.refreshing _ _ token) => s.issued.head? = some token
    | _ => true
  | .begin _ _ | .callback _ _ | .use _ | .revoke _ | .expire _ | .crash _ => true

def Presents (s : State Ref) (e : Event) : Prop := presents s e = true

instance (s : State Ref) (e : Event) : Decidable (Presents s e) :=
  inferInstanceAs (Decidable (_ = true))

/-- A connected connection that holds the last token issued, and no use of it yet. -/
structure Fresh (transit : Transit Ref) (s : State Ref) : Prop where
  status : status s = some .connected
  stored : stored transit s = s.issued.head?
  issued : s.issued ≠ []
  tokens : [] ∉ s.issued
  tasks : s.requests.tasks = ∅

def IsUse : Connections.Task Ref → Prop
  | .gating | .refreshing _ _ _ | .renewing _ _ | .faulting _ _ => True
  | _ => False

def Uses (s : State Ref) : Prop := ∀ id task, s.requests.tasks.lookup id = some task → IsUse task

inductive Turn (transit : Transit Ref) (skew : ℤ) (s : State Ref) : Event → State Ref → Prop where
  | started {id : ℕ} (hnew : id ∉ s.requests.tasks) :
      Turn transit skew s (.use id) ⟨s.requests.proceed id .gating, s.issued⟩
  | gated {id : ℕ} {input : Input} {row : Versioned (Connection Ref)}
      {task : Connections.Task Ref} (htask : s.requests.tasks.lookup id = some .gating)
      (hrow : s.requests.row = some row) (hgate : gate transit skew row input.now = some task) :
      Turn transit skew s (.next id input) ⟨s.requests.proceed id task, s.issued⟩
  | passed {id : ℕ} {input : Input} (htask : s.requests.tasks.lookup id = some .gating) :
      Turn transit skew s (.next id input) ⟨s.requests.finish id, s.issued⟩
  | refused {id : ℕ} {input : Input} {now : ℤ} {read : Versioned (Connection Ref)}
      {token reason : Text}
      (htask : s.requests.tasks.lookup id = some (.refreshing now read token))
      (hlast : s.issued.head? ≠ some token) :
      Turn transit skew s (.next id input)
        ⟨s.requests.proceed id (.faulting read (read.value.markError reason)), s.issued⟩
  | accepted {id nonce : ℕ} {input : Input} {now expiresAt : ℤ}
      {read : Versioned (Connection Ref)} {token access new : Text}
      (htask : s.requests.tasks.lookup id = some (.refreshing now read token))
      (hlast : s.issued.head? = some token) (hnew : new ∉ s.issued) (hnil : new ≠ []) :
      Turn transit skew s (.next id input)
        ⟨s.requests.proceed id
          (.renewing (transit.encrypt nonce ⟨access, some new⟩) expiresAt), new :: s.issued⟩
  | renewed {id : ℕ} {input : Input} {tokenRef : Ref} {expiresAt : ℤ}
      {row : Versioned (Connection Ref)}
      (htask : s.requests.tasks.lookup id = some (.renewing tokenRef expiresAt))
      (hrow : s.requests.row = some row) :
      Turn transit skew s (.next id input)
        ⟨{ s.requests.finish id with
          row := some ⟨{ row.value with tokenRef := some tokenRef, expiresAt := some expiresAt },
            row.version⟩ }, s.issued⟩
  | lost {id : ℕ} {input : Input} {tokenRef : Ref} {expiresAt : ℤ}
      (htask : s.requests.tasks.lookup id = some (.renewing tokenRef expiresAt))
      (hrow : s.requests.row = none) :
      Turn transit skew s (.next id input) ⟨s.requests.finish id, s.issued⟩
  | faulted {id : ℕ} {input : Input} {read : Versioned (Connection Ref)}
      {after : Connection Ref}
      (htask : s.requests.tasks.lookup id = some (.faulting read after)) :
      Turn transit skew s (.next id input) ⟨s.requests.commit id read after, s.issued⟩

section Steps

variable {transit : Transit Ref} {skew : ℤ} {s t : State Ref} {e : Event}

theorem answer_eq_some {issued after : List Text} {token : Text} {grant : Option Grant}
    (h : answer issued token grant = some after) :
    (grant = none ∧ issued.head? ≠ some token ∧ after = issued) ∨
      ∃ access new expiresIn scopes, grant = some ⟨access, some new, expiresIn, scopes⟩ ∧
        issued.head? = some token ∧ new ∉ issued ∧ new ≠ [] ∧ after = new :: issued := by
  unfold answer at h
  split at h
  · split_ifs at h with hl
    exact .inl ⟨rfl, hl, (some.inj h).symm⟩
  · rename_i grant
    split at h
    · cases h
    · cases h
    · rename_i c new hnew
      split_ifs at h with hl
      obtain ⟨access, refresh, expiresIn, scopes⟩ := grant
      obtain rfl : refresh = some (c :: new) := hnew
      refine .inr ⟨access, c :: new, expiresIn, scopes, rfl, hl.1, hl.2, ?_, ?_⟩
      · simp
      · exact (some.inj h).symm

theorem effectiveRefresh_of_ne_nil {new token : Text} (h : new ≠ []) :
    effectiveRefresh (some new) token = new := by
  cases new with
  | nil => exact absurd rfl h
  | cons c new => rfl

theorem step_turn (hs : Uses s) (h : step transit skew s e = some t) :
    Turn transit skew s e t := by
  cases e with
  | use id =>
    simp only [step, Connections.step, Connections.State.start] at h
    split_ifs at h with hnew
    cases h
    exact .started hnew
  | next id input =>
    simp only [step] at h
    split at h
    · cases h
    · rename_i now read token ht
      split at h
      · cases h
      · rename_i issued ha
        rcases answer_eq_some ha with ⟨hg, hl, rfl⟩ |
          ⟨access, new, expiresIn, scopes, hg, hl, hnew, hnil, rfl⟩
        · simp only [advance, hg, some.injEq] at h
          subst h
          exact .refused ht hl
        · simp only [advance, hg, effectiveRefresh_of_ne_nil hnil, some.injEq] at h
          subst h
          exact .accepted ht hl hnew hnil
    · rename_i task hnot ht
      have huse := hs id task ht
      cases task with
      | gating =>
        simp only [advance] at h
        split at h
        · cases h
        · rename_i requests hr
          cases h
          split at hr
          · cases hr
            exact .passed ht
          · rename_i row hrow
            split at hr
            · cases hr
              exact .passed ht
            · rename_i task hga
              cases hr
              exact .gated ht hrow hga
      | refreshing now read token => exact absurd rfl (hnot now read token)
      | renewing tokenRef expiresAt =>
        simp only [advance] at h
        split at h
        · cases h
        · rename_i requests hr
          cases h
          split at hr
          · rename_i hrow
            cases hr
            exact .lost ht hrow
          · rename_i row hrow
            cases hr
            exact .renewed ht hrow
      | faulting read after =>
        cases h
        exact .faulted ht
      | _ => exact huse.elim
  | _ => cases h

theorem gate_cases {row : Versioned (Connection Ref)} {now : ℤ} {task : Connections.Task Ref}
    (h : gate transit skew row now = some task) :
    (∃ token, task = .refreshing now row token ∧ refreshOf transit row = some token) ∨
      (∃ reason, task = .faulting row (row.value.markError reason)) ∧
        ∀ token, refreshOf transit row = some token → token = [] := by
  unfold gate at h
  split at h
  · cases h
  · rename_i tokenRef ht
    have hr : refreshOf transit row = (transit.decrypt tokenRef).refresh := by
      rw [refreshOf, ht, bind_some]
    split_ifs at h
    split at h
    · rename_i hn
      refine .inr ⟨⟨_, (some.inj h).symm⟩, fun token ht => ?_⟩
      rw [hr, hn] at ht
      cases ht
    · rename_i he
      refine .inr ⟨⟨_, (some.inj h).symm⟩, fun token ht => ?_⟩
      rw [hr, he] at ht
      exact (some.inj ht).symm
    · rename_i c token hs
      exact .inl ⟨_, (some.inj h).symm, hr.trans hs⟩

end Steps

section Latest

/-- No refused call, and every token about to be presented is one of the provider's. -/
def Allowed (issued : List Text) : Connections.Task Ref → Prop
  | .gating | .renewing _ _ => True
  | .refreshing _ _ token => token ∈ issued
  | _ => False

def NotRenewing (task : Connections.Task Ref) : Prop :=
  ∀ tokenRef expiresAt, task ≠ .renewing tokenRef expiresAt

structure Outdated (issued : List Text) (task : Connections.Task Ref) : Prop where
  renewing : NotRenewing task
  token : ∀ now read token, task = .refreshing now read token → issued.head? ≠ some token

structure Settled (transit : Transit Ref) (s : State Ref) : Prop where
  stored : stored transit s = s.issued.head?
  tasks : ∀ id task, s.requests.tasks.lookup id = some task → NotRenewing task

structure Pending (transit : Transit Ref) (s : State Ref) (id : ℕ) : Prop where
  stored : stored transit s ≠ s.issued.head?
  renewing : ∃ tokenRef expiresAt,
    s.requests.tasks.lookup id = some (.renewing tokenRef expiresAt) ∧
      (transit.decrypt tokenRef).refresh = s.issued.head?
  others : ∀ i task, i ≠ id → s.requests.tasks.lookup i = some task → Outdated s.issued task

structure Single (transit : Transit Ref) (s : State Ref) : Prop where
  connected : status s = some .connected
  stored : ∃ token ∈ s.issued, stored transit s = some token
  tokens : [] ∉ s.issued
  tasks : ∀ id task, s.requests.tasks.lookup id = some task → Allowed s.issued task
  latest : Settled transit s ∨ ∃ id, Pending transit s id

variable {transit : Transit Ref} {skew : ℤ} {s t : State Ref} {e : Event}

theorem Single.uses (hs : Single transit s) : Uses s := by
  intro id task ht
  have ha := hs.tasks id task ht
  cases task with
  | gating => trivial
  | refreshing now read token => trivial
  | renewing tokenRef expiresAt => trivial
  | _ => exact ha.elim

theorem Fresh.single (hs : Fresh transit s) : Single transit s where
  connected := hs.status
  stored := by
    obtain ⟨token, rest, hi⟩ := List.exists_cons_of_ne_nil hs.issued
    refine ⟨token, by simp [hi], ?_⟩
    rw [hs.stored, hi, List.head?_cons]
  tokens := hs.tokens
  tasks id task htask := by simp [hs.tasks] at htask
  latest := .inl ⟨hs.stored, fun id task htask => by simp [hs.tasks] at htask⟩

variable {task : Connections.Task Ref}

theorem Allowed.mono {issued : List Text} {new : Text} (h : Allowed issued task) :
    Allowed (new :: issued) task := by
  cases task with
  | refreshing now read token => exact List.mem_cons_of_mem _ h
  | gating => trivial
  | renewing tokenRef expiresAt => trivial
  | _ => exact h

variable {id : ℕ}

/-- A call that goes on without touching the row or the provider. -/
theorem Single.proceed (hs : Single transit s)
    (hc : ∀ old, s.requests.tasks.lookup id = some old → NotRenewing old)
    (ha : Allowed s.issued task) (hnot : NotRenewing task)
    (ht : ∀ now read token, task = .refreshing now read token →
      TokenRenewals.stored transit s = some token) :
    Single transit ⟨s.requests.proceed id task, s.issued⟩ where
  connected := hs.connected
  stored := hs.stored
  tokens := hs.tokens
  tasks := forall_insert ha hs.tasks
  latest := by
    rcases hs.latest with hse | ⟨holder, hp⟩
    · exact .inl ⟨hse.stored, forall_insert hnot hse.tasks⟩
    · obtain ⟨tokenRef, expiresAt, hh, hl⟩ := hp.renewing
      have hne : holder ≠ id := by
        rintro rfl
        exact hc _ hh tokenRef expiresAt rfl
      refine .inr ⟨holder, hp.stored, ⟨tokenRef, expiresAt, ?_, hl⟩, ?_⟩
      · exact (AList.lookup_insert_ne hne).trans hh
      · intro i other hi ho
        rcases lookup_insert_iff.mp ho with ⟨rfl, rfl⟩ | ⟨-, ho⟩
        · refine ⟨hnot, fun now read token hta hhe => ?_⟩
          exact hp.stored ((ht now read token hta).trans hhe.symm)
        · exact hp.others i other hi ho

theorem Single.finish (hs : Single transit s)
    (hc : ∀ old, s.requests.tasks.lookup id = some old → NotRenewing old) :
    Single transit ⟨s.requests.finish id, s.issued⟩ where
  connected := hs.connected
  stored := hs.stored
  tokens := hs.tokens
  tasks i task htask := hs.tasks i task (lookup_erase_iff.mp htask).2
  latest := by
    rcases hs.latest with hse | ⟨holder, hp⟩
    · refine .inl ⟨hse.stored, fun i task htask => ?_⟩
      exact hse.tasks i task (lookup_erase_iff.mp htask).2
    · obtain ⟨tokenRef, expiresAt, hh, hl⟩ := hp.renewing
      have hne : holder ≠ id := by
        rintro rfl
        exact hc _ hh tokenRef expiresAt rfl
      refine .inr ⟨holder, hp.stored, ⟨tokenRef, expiresAt, ?_, hl⟩, ?_⟩
      · exact lookup_erase_iff.mpr ⟨hne, hh⟩
      · exact fun i task hi htask =>
          hp.others i task hi (lookup_erase_iff.mp htask).2

theorem notRenewing_of_lookup {old : Connections.Task Ref}
    (ht : s.requests.tasks.lookup id = some task) (hnot : NotRenewing task)
    (hold : s.requests.tasks.lookup id = some old) : NotRenewing old := by
  obtain rfl := mem_unique ht hold
  exact hnot

theorem Single.accepted (hs : Single transit s) {nonce : ℕ} {now expiresAt : ℤ}
    {read : Versioned (Connection Ref)} {token access new : Text}
    (ht : s.requests.tasks.lookup id = some (.refreshing now read token))
    (hla : s.issued.head? = some token) (hnew : new ∉ s.issued) (hnil : new ≠ []) :
    Single transit
      ⟨s.requests.proceed id
        (.renewing (transit.encrypt nonce ⟨access, some new⟩) expiresAt), new :: s.issued⟩ := by
  have hse : Settled transit s := by
    rcases hs.latest with hse | ⟨holder, hp⟩
    · exact hse
    · obtain ⟨tokenRef, expiresAt, hh, -⟩ := hp.renewing
      have hne : id ≠ holder := by
        rintro rfl
        rw [ht] at hh
        cases hh
      exact absurd hla ((hp.others id _ hne ht).token now read token rfl)
  obtain ⟨kept, hk, hst⟩ := hs.stored
  refine ⟨hs.connected, ⟨kept, List.mem_cons_of_mem _ hk, hst⟩, ?_, ?_, .inr ⟨id, ?_⟩⟩
  · rw [List.mem_cons, not_or]
    exact ⟨hnil.symm, hs.tokens⟩
  · exact forall_insert trivial fun i task h => (hs.tasks i task h).mono
  · refine ⟨fun hhe => ?_, ⟨_, expiresAt, AList.lookup_insert _, ?_⟩, ?_⟩
    · have heq : kept = new := mem_unique hst hhe
      exact hnew (heq ▸ hk)
    · rw [transit.decrypt_encrypt, List.head?_cons]
    · intro i task hi hl
      rcases lookup_insert_iff.mp hl with ⟨rfl, -⟩ | ⟨-, hl⟩
      · exact absurd rfl hi
      · refine ⟨hse.tasks i task hl, ?_⟩
        rintro now read presented rfl hhe
        rw [List.head?_cons, some.injEq] at hhe
        exact hnew (hhe ▸ hs.tasks i _ hl)

/-- The call that has the last token stores it. -/
theorem Single.renewed (hs : Single transit s) {tokenRef : Ref} {expiresAt : ℤ}
    {row : Versioned (Connection Ref)}
    (ht : s.requests.tasks.lookup id = some (.renewing tokenRef expiresAt))
    (hrow : s.requests.row = some row) :
    Single transit
      ⟨{ s.requests.finish id with
        row := some ⟨{ row.value with tokenRef := some tokenRef, expiresAt := some expiresAt },
          row.version⟩ }, s.issued⟩ := by
  rcases hs.latest with hse | ⟨holder, hp⟩
  · exact absurd rfl (hse.tasks id _ ht tokenRef expiresAt)
  have hh : id = holder := by
    by_contra hne
    exact (hp.others id _ hne ht).renewing tokenRef expiresAt rfl
  subst hh
  obtain ⟨lastRef, lastExpires, hl, hhe⟩ := hp.renewing
  obtain ⟨rfl, rfl⟩ : tokenRef = lastRef ∧ expiresAt = lastExpires := by
    simpa using ht.symm.trans hl
  have hi : s.issued ≠ [] := by
    obtain ⟨kept, hk, -⟩ := hs.stored
    exact List.ne_nil_of_mem hk
  obtain ⟨token, rest, hco⟩ := List.exists_cons_of_ne_nil hi
  refine ⟨?_, ⟨token, by simp [hco], ?_⟩, hs.tokens, fun i task h => ?_, .inl ⟨hhe, ?_⟩⟩
  · have hc := hs.connected
    rw [status, hrow] at hc
    exact hc
  · refine Eq.trans hhe ?_
    rw [hco, List.head?_cons]
  · exact hs.tasks i task (lookup_erase_iff.mp h).2
  · intro i task h
    obtain ⟨hne, h⟩ := lookup_erase_iff.mp h
    exact (hp.others i task hne h).renewing

theorem turn_single (h : Turn transit skew s e t) (hok : Presents s e)
    (hs : Single transit s) : Single transit t := by
  cases h with
  | started hnew =>
    refine hs.proceed (fun old hold => ?_) trivial ?_ ?_
    · exact absurd (mem_of_lookup hold) hnew
    · rintro _ _ ⟨⟩
    · rintro _ _ _ ⟨⟩
  | gated hta hrow hg =>
    rename_i row task
    obtain ⟨kept, hk, hst⟩ := hs.stored
    have hr : refreshOf transit row = some kept := by
      rw [stored, hrow, bind_some] at hst
      exact hst
    rcases gate_cases hg with ⟨token, rfl, ht⟩ | ⟨-, he⟩
    · obtain rfl := mem_unique hr ht
      refine hs.proceed (fun old hold => ?_) hk ?_ ?_
      · refine notRenewing_of_lookup hta ?_ hold
        rintro _ _ ⟨⟩
      · rintro _ _ ⟨⟩
      · rintro _ _ _ ⟨⟩
        exact hst
    · exact absurd (he kept hr ▸ hk) hs.tokens
  | passed hta =>
    refine hs.finish fun old hold => ?_
    refine notRenewing_of_lookup hta ?_ hold
    rintro _ _ ⟨⟩
  | refused hta hl =>
    refine absurd ?_ hl
    simpa [Presents, presents, hta] using hok
  | accepted hta hl hnew hnil => exact hs.accepted hta hl hnew hnil
  | renewed hta hrow => exact hs.renewed hta hrow
  | lost hta hrow =>
    have hc := hs.connected
    rw [status, hrow] at hc
    cases hc
  | faulted hta => exact (hs.tasks _ _ hta).elim

theorem run_single {es : List Event} (hg : Guarded (step transit skew) Presents s es)
    (hrun : run (step transit skew) s es = some t) (hs : Single transit s) :
    Single transit t := by
  have hk : ∀ u f v, Single transit u → Presents u f → step transit skew u f = some v →
      Single transit v :=
    fun u f v hu hok hv => turn_single (step_turn hu.uses hv) hok hu
  exact run_invariant hk hg hrun hs

end Latest

section Refused

def Faulty (row : Versioned (Connection Ref)) : Connections.Task Ref → Prop
  | .gating | .renewing _ _ => True
  | .refreshing _ read _ => read.version = row.version
  | .faulting read after => read.version = row.version ∧ after.status = .error
  | _ => False

structure Unsaved (s : State Ref) : Prop where
  uses : Uses s
  faults : ∀ id read after, s.requests.tasks.lookup id = some (.faulting read after) →
    after.status = .error
  row : ∃ row, s.requests.row = some row ∧ (row.value.status = .error ∨
    ∀ id task, s.requests.tasks.lookup id = some task → Faulty row task)

def Doomed (s : State Ref) : Prop :=
  status s = some .error ∨
    ∃ id read after, s.requests.tasks.lookup id = some (.faulting read after)

variable {transit : Transit Ref} {skew : ℤ} {s t : State Ref} {e : Event}

theorem Fresh.unsaved (hs : Fresh transit s) : Unsaved s where
  uses id task htask := by simp [hs.tasks] at htask
  faults id read after htask := by simp [hs.tasks] at htask
  row := by
    obtain ⟨row, hrow, -⟩ := map_eq_some_iff.mp hs.status
    exact ⟨row, hrow, .inr fun id task htask => by simp [hs.tasks] at htask⟩

variable {task : Connections.Task Ref}

theorem isUse_of_gate {row : Versioned (Connection Ref)} {now : ℤ}
    (h : gate transit skew row now = some task) :
    IsUse task ∧ Faulty row task ∧
      ∀ read after, task = .faulting read after → after.status = .error := by
  rcases gate_cases h with ⟨token, rfl, -⟩ | ⟨⟨reason, rfl⟩, -⟩
  · refine ⟨trivial, rfl, ?_⟩
    rintro _ _ ⟨⟩
  · refine ⟨trivial, ⟨rfl, rfl⟩, ?_⟩
    rintro _ _ ⟨⟩
    rfl

/-- A call that goes on without touching the row. -/
theorem Unsaved.proceed (hs : Unsaved s) {id : ℕ} {issued : List Text} (huse : IsUse task)
    (hfa : ∀ read after, task = .faulting read after → after.status = .error)
    (hf : ∀ row, s.requests.row = some row → row.value.status ≠ .error → Faulty row task) :
    Unsaved ⟨s.requests.proceed id task, issued⟩ where
  uses := forall_insert huse hs.uses
  faults i read after ht := by
    rcases lookup_insert_iff.mp ht with ⟨-, rfl⟩ | ⟨-, ht⟩
    · exact hfa read after rfl
    · exact hs.faults i read after ht
  row := by
    obtain ⟨row, hrow, hst⟩ := hs.row
    refine ⟨row, hrow, ?_⟩
    by_cases he : row.value.status = .error
    · exact .inl he
    · exact .inr (forall_insert (hf row hrow he) (hst.resolve_left he))

/-- A call that is done and has left version and status of the row. -/
theorem Unsaved.finish (hs : Unsaved s) {id : ℕ} {issued : List Text} :
    Unsaved ⟨s.requests.finish id, issued⟩ where
  uses i task htask := hs.uses i task (lookup_erase_iff.mp htask).2
  faults i read after htask := hs.faults i read after (lookup_erase_iff.mp htask).2
  row := by
    obtain ⟨row, hrow, hst⟩ := hs.row
    refine ⟨row, hrow, hst.imp_right fun hf i task htask => ?_⟩
    exact hf i task (lookup_erase_iff.mp htask).2

theorem faulty_of_version {row last : Versioned (Connection Ref)} (h : Faulty row task)
    (hv : last.version = row.version) : Faulty last task := by
  cases task with
  | gating => trivial
  | renewing tokenRef expiresAt => trivial
  | refreshing now read token => exact Eq.trans h hv.symm
  | faulting read after => exact ⟨h.1.trans hv.symm, h.2⟩
  | _ => exact h.elim

theorem turn_unsaved (h : Turn transit skew s e t) (hs : Unsaved s) : Unsaved t := by
  cases h with
  | started hnew =>
    refine hs.proceed trivial ?_ fun _ _ _ => trivial
    rintro _ _ ⟨⟩
  | gated ht hrow hg =>
    obtain ⟨huse, hf, hfa⟩ := isUse_of_gate hg
    refine hs.proceed huse hfa fun row hsr _ => ?_
    obtain rfl := mem_unique hrow hsr
    exact hf
  | passed ht => exact hs.finish
  | refused ht hl =>
    refine hs.proceed trivial ?_ fun row hrow he => ?_
    · rintro _ _ ⟨⟩
      rfl
    · obtain ⟨stored, hsr, hst⟩ := hs.row
      obtain rfl := mem_unique hrow hsr
      exact ⟨hst.resolve_left he _ _ ht, rfl⟩
  | accepted ht hl hnew hnil =>
    refine hs.proceed trivial ?_ fun _ _ _ => trivial
    rintro _ _ ⟨⟩
  | renewed ht hrow =>
    rename_i id input tokenRef expiresAt row
    have hd : Unsaved ⟨s.requests.finish id, s.issued⟩ := hs.finish
    refine ⟨hd.uses, hd.faults, _, rfl, ?_⟩
    obtain ⟨stored, hsr, hst⟩ := hd.row
    obtain rfl := mem_unique hrow hsr
    exact hst.imp_right fun hf i task h => faulty_of_version (hf i task h) rfl
  | lost ht hrow => exact hs.finish
  | faulted ht =>
    rename_i id input read after
    have he := hs.faults _ _ _ ht
    unfold Connections.State.commit
    split
    · exact hs.finish
    · rename_i last hsa
      obtain ⟨row, hrow, hv, rfl⟩ := saveRow_eq_some hsa
      have hd : Unsaved ⟨s.requests.finish id, s.issued⟩ := hs.finish
      exact ⟨hd.uses, hd.faults, _, rfl, .inl he⟩

/-- Only its own save ends a call that was refused. -/
theorem turn_doomed (h : Turn transit skew s e t) (hs : Unsaved s) (hd : Doomed s) :
    Doomed t := by
  have hc : ∀ {id : ℕ} {task : Connections.Task Ref} {i : ℕ}
      {read : Versioned (Connection Ref)} {after : Connection Ref},
      s.requests.tasks.lookup id = some task → (∀ read after, task ≠ .faulting read after) →
      s.requests.tasks.lookup i = some (.faulting read after) → i ≠ id := by
    rintro id task i read after ht hnot hi rfl
    exact hnot read after (mem_unique ht hi)
  cases h with
  | started hnew =>
    refine hd.imp_right ?_
    rintro ⟨i, read, after, hi⟩
    exact ⟨i, read, after, lookup_insert_of_lookup hnew hi⟩
  | gated ht hrow hg =>
    refine hd.imp_right ?_
    rintro ⟨i, read, after, hi⟩
    have hne := hc ht (by rintro _ _ ⟨⟩) hi
    exact ⟨i, read, after, (AList.lookup_insert_ne hne).trans hi⟩
  | passed ht =>
    refine hd.imp_right ?_
    rintro ⟨i, read, after, hi⟩
    have hne := hc ht (by rintro _ _ ⟨⟩) hi
    exact ⟨i, read, after, lookup_erase_iff.mpr ⟨hne, hi⟩⟩
  | refused ht hl => exact .inr ⟨_, _, _, AList.lookup_insert _⟩
  | accepted ht hl hnew hnil =>
    refine hd.imp_right ?_
    rintro ⟨i, read, after, hi⟩
    have hne := hc ht (by rintro _ _ ⟨⟩) hi
    exact ⟨i, read, after, (AList.lookup_insert_ne hne).trans hi⟩
  | renewed ht hrow =>
    refine hd.imp (fun he => ?_) ?_
    · rwa [status, hrow] at he
    · rintro ⟨i, read, after, hi⟩
      have hne := hc ht (by rintro _ _ ⟨⟩) hi
      exact ⟨i, read, after, lookup_erase_iff.mpr ⟨hne, hi⟩⟩
  | lost ht hrow =>
    obtain ⟨row, hsr, -⟩ := hs.row
    rw [hrow] at hsr
    cases hsr
  | faulted ht =>
    rename_i id input read after
    have ha := hs.faults _ _ _ ht
    obtain ⟨row, hrow, hst⟩ := hs.row
    unfold Connections.State.commit
    refine .inl ?_
    split
    · rename_i hsa
      rcases hst with he | hf
      · rw [status, Connections.State.finish, hrow, map_some, he]
      · have hv := (hf _ _ ht).1
        simp [saveRow, hrow, hv] at hsa
    · rename_i last hsa
      obtain ⟨old, -, -, rfl⟩ := saveRow_eq_some hsa
      exact congrArg some ha

/-- A call that presents another token than the last one is refused. -/
theorem doomed_of_step (h : Turn transit skew s e t) (hnot : ¬ Presents s e) : Doomed t := by
  cases h with
  | refused ht hl => exact .inr ⟨_, _, _, AList.lookup_insert _⟩
  | started hnew => exact absurd rfl hnot
  | accepted ht hl hnew hnil =>
    refine absurd ?_ hnot
    simp [Presents, presents, ht, hl]
  | gated ht => exact absurd (by simp [Presents, presents, ht]) hnot
  | passed ht => exact absurd (by simp [Presents, presents, ht]) hnot
  | renewed ht => exact absurd (by simp [Presents, presents, ht]) hnot
  | lost ht => exact absurd (by simp [Presents, presents, ht]) hnot
  | faulted ht => exact absurd (by simp [Presents, presents, ht]) hnot

theorem run_unsaved {es : List Event} (hrun : run (step transit skew) s es = some t)
    (hs : Unsaved s) : Unsaved t :=
  run_invariant_of_step (fun _ _ _ hu hv => turn_unsaved (step_turn hu.uses hv) hu) hrun hs

theorem run_doomed {es : List Event} (hrun : run (step transit skew) s es = some t)
    (hs : Unsaved s) (hd : Doomed s) : Doomed t := by
  have hk : ∀ u f v, Unsaved u ∧ Doomed u → step transit skew u f = some v →
      Unsaved v ∧ Doomed v := by
    rintro u f v ⟨hu, hdo⟩ hv
    have ht := step_turn hu.uses hv
    exact ⟨turn_unsaved ht hu, turn_doomed ht hu hdo⟩
  exact (run_invariant_of_step hk hrun ⟨hs, hd⟩).2

end Refused

section Calls

variable {transit : Transit Ref} {skew : ℤ} {s t : State Ref} {es : List Event}

/-- When all calls are done, the connection is connected with the last token issued exactly if
each call that presented a token presented the last one. -/
theorem renewals_keep_last_token (hs : Fresh transit s)
    (hrun : run (step transit skew) s es = some t) (hdone : t.requests.tasks = ∅) :
    (status t = some .connected ∧ stored transit t = t.issued.head?) ↔
      Guarded (step transit skew) Presents s es := by
  constructor
  · rintro ⟨hc, -⟩
    refine guarded_of_visits hrun fun u e v hu hv hst => ?_
    by_contra hnot
    obtain ⟨_, _, -, hu⟩ := hu
    obtain ⟨before, after, rfl, hv⟩ := hv
    rw [run_append hv] at hrun
    have hd := doomed_of_step (step_turn (run_unsaved hu hs.unsaved).uses hst) hnot
    rcases run_doomed hrun (run_unsaved hv hs.unsaved) hd with he | ⟨i, read, after, hi⟩
    · rw [hc] at he
      cases he
    · simp [hdone] at hi
  · intro hg
    have hsi := run_single hg hrun hs.single
    refine ⟨hsi.connected, ?_⟩
    rcases hsi.latest with hse | ⟨holder, hp⟩
    · exact hse.stored
    · obtain ⟨tokenRef, expiresAt, hh, -⟩ := hp.renewing
      simp [hdone] at hh

end Calls

private def clear : Transit Tokens := ⟨fun _ tokens => tokens, fun ref => ref, fun _ _ => rfl⟩

private def expired : State Tokens where
  requests :=
    { Connections.State.init with
      row := some ⟨⟨.connected, [], some ⟨ofString "access", some (ofString "first")⟩, some 0,
        none⟩, 2⟩ }
  issued := [ofString "first"]

private theorem fresh_expired : Fresh clear expired :=
  ⟨rfl, rfl, by decide, by decide, rfl⟩

private def asking (id : ℕ) : Event := .next id ⟨100, false, 0, 0, none⟩

private def renewing (id : ℕ) (token : String) : Event :=
  .next id ⟨100, false, 0, 0, some ⟨ofString "access", some (ofString token), 0, []⟩⟩

private def inTurn : List Event :=
  [.use 1, asking 1, .use 2, renewing 1 "second", asking 1, asking 2, renewing 2 "third", asking 2]

/-- Two calls overlap, and the second one loads the row once the first one has stored its
renewal. -/
theorem renewals_in_turn_keep_last_token :
    ∃ s, run (step clear 60) expired inTurn = some s ∧ s.issued.length = 3 ∧
      status s = some .connected ∧ stored clear s = s.issued.head? := by
  obtain ⟨s, hrun, ht⟩ := exists_run_of_any
    (p := fun s : State Tokens => s.requests.tasks.keys = [] ∧ s.issued.length = 3)
    (show (run (step clear 60) expired inTurn).any _ = true by decide +kernel)
  obtain ⟨hk, hl⟩ := of_decide_eq_true ht
  have hd : s.requests.tasks = ∅ := by
    refine AList.ext ?_
    rw [AList.keys] at hk
    simpa [List.keys] using hk
  have hg : Guarded (step clear 60) Presents expired inTurn := by decide +kernel
  exact ⟨s, hrun, hl, (renewals_keep_last_token fresh_expired hrun hd).mpr hg⟩

private def atOnce : List Event :=
  [.use 1, .use 2, asking 1, asking 2, renewing 1 "second", asking 2, asking 1, asking 2]

/-- Two calls load the same row: the one that is refused saves the old token over the new one,
and the connection is in error. -/
theorem overlapping_renewals_lose_last_token :
    Fresh clear expired ∧ ∃ s, run (step clear 60) expired atOnce = some s ∧
      s.requests.tasks.keys = [] ∧ s.issued.head? = some (ofString "second") ∧
      stored clear s = some (ofString "first") ∧ status s = some .error := by
  obtain ⟨s, hrun, ht⟩ := exists_run_of_any
    (p := fun s : State Tokens => s.requests.tasks.keys = [] ∧
      s.issued.head? = some (ofString "second") ∧ stored clear s = some (ofString "first") ∧
      status s = some .error)
    (show (run (step clear 60) expired atOnce).any _ = true by decide +kernel)
  exact ⟨fresh_expired, s, hrun, of_decide_eq_true ht⟩

end Aizzak.TokenRenewals
