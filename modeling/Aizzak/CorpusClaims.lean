import Aizzak.EventRuns
import Aizzak.KeyedTables
import Aizzak.PyText

/-!
The collections of one workspace under several embedding regimes at once. The unrevisioned
collection is claimed by an alias, after a listing of the collections and a listing of the
aliases; every other regime gets a collection of its own. A regime is its revision, and a name is
the unrevisioned one or that of a revision. What the unrevisioned collection held before is of the
regime that claims it first.
-/
namespace Aizzak.CorpusClaims

open EventRuns KeyedTables PyText

variable {Rev : Type} [DecidableEq Rev]

/-- A physical collection, with the regime that wrote each point; none for what was there
before the revisions. -/
structure Collection (Rev : Type) where
  size : ℕ
  points : AList fun _ : Text => Option Rev

inductive Kind where
  | collection
  | aliased
deriving DecidableEq

/-- How far a process has come: a provisioning of the corpus of a regime, the writes after it,
an adoption, or a drop of a revision. -/
inductive Task (Rev : Type) where
  | probing (revision : Rev)
  | checking (revision : Rev)
  | listing (revision : Rev)
  | listingAliases (revision : Rev)
  | creating (revision : Rev) (claims : Bool)
  | making (revision : Rev) (claims : Bool)
  | claiming (revision : Rev)
  | writing (revision : Rev)
  | adopting (revision : Rev)
  | adoptingAliases (revision : Rev) (owned : Bool)
  | sizing (revision : Rev)
  | naming (revision : Rev)
  | dropping (revision : Rev)
  | droppingAliases (revision : Rev) (kind : Option Kind)
  | deleting (revision : Rev) (kind : Kind)
deriving DecidableEq

/-- The store of one workspace. `owner` is the regime that first claimed the unrevisioned
collection. -/
structure State (Rev : Type) [DecidableEq Rev] where
  collections : AList fun _ : Option Rev => Collection Rev
  aliases : AList fun _ : Option Rev => Option Rev
  owner : Option Rev
  tasks : AList fun _ : ℕ => Task Rev

inductive Event (Rev : Type) where
  | ensure (id : ℕ) (revision : Rev)
  | build (id : ℕ) (revision : Rev)
  | adopt (id : ℕ) (revision : Rev)
  | drop (id : ℕ) (revision : Rev)
  | next (id : ℕ)
  | upsert (id : ℕ) (points : List Text)
  | crash (id : ℕ)

namespace State

def physical (s : State Rev) (name : Option Rev) : Option (Option Rev) :=
  if name ∈ s.collections then some name else s.aliases.lookup name

def collectionExists (s : State Rev) (name : Option Rev) : Bool := (s.physical name).isSome

def info (s : State Rev) (name : Option Rev) : Option (Collection Rev) :=
  (s.physical name).bind fun collection => s.collections.lookup collection

def holdsRevision (names : List (Option Rev)) : Bool := names.any (·.isSome)

def finish (s : State Rev) (id : ℕ) : State Rev := { s with tasks := s.tasks.erase id }

def proceed (s : State Rev) (id : ℕ) (task : Task Rev) : State Rev :=
  { s with tasks := s.tasks.insert id task }

def start (s : State Rev) (id : ℕ) (task : Task Rev) : Option (State Rev) :=
  if id ∈ s.tasks then none else some (s.proceed id task)

def createAlias (s : State Rev) (revision : Rev) : State Rev :=
  if s.collectionExists (some revision) || none ∉ s.collections then s
  else
    { s with
      aliases := s.aliases.insert (some revision) none
      owner := some (s.owner.getD revision) }

def createCollection (s : State Rev) (name : Option Rev) (size : ℕ) : State Rev :=
  if s.collectionExists name then s
  else { s with collections := s.collections.insert name ⟨size, ∅⟩ }

def deleteCollection (s : State Rev) (name : Option Rev) : State Rev :=
  { s with
    collections := s.collections.erase name
    aliases := eraseWhere s.aliases fun _ target => target = name }

def dropRevision (s : State Rev) (revision : Rev) : Kind → State Rev
  | .aliased => { s with aliases := s.aliases.erase (some revision) }
  | .collection => s.deleteCollection (some revision)

end State

def written (revision : Rev) (ids : List Text) (points : AList fun _ : Text => Option Rev) :
    AList fun _ : Text => Option Rev :=
  ids.foldl (fun points id => points.insert id (some revision)) points

section Machine

variable (size : Rev → ℕ)

/-- What the provisioning goes on with: the unrevisioned collection is claimed, any other is
written to. -/
def provisioned (revision : Rev) (claims : Bool) : Task Rev :=
  if claims then .claiming revision else .writing revision

def target (revision : Rev) (claims : Bool) : Option Rev := if claims then none else some revision

def advance (s : State Rev) (id : ℕ) : Task Rev → State Rev
  | .probing revision =>
    if s.collectionExists (some revision) then s.proceed id (.creating revision false)
    else s.proceed id (.checking revision)
  | .checking revision =>
    if s.collectionExists none then s.proceed id (.listing revision)
    else s.proceed id (.creating revision false)
  | .listing revision =>
    if State.holdsRevision s.collections.keys then s.proceed id (.creating revision false)
    else s.proceed id (.listingAliases revision)
  | .listingAliases revision =>
    s.proceed id (.creating revision (!State.holdsRevision s.aliases.keys))
  | .creating revision claims =>
    match s.info (target revision claims) with
    | none => s.proceed id (.making revision claims)
    | some collection =>
      if collection.size = size revision then s.proceed id (provisioned revision claims)
      else s.finish id
  | .making revision claims =>
    (s.createCollection (target revision claims) (size revision)).proceed id
      (provisioned revision claims)
  | .claiming revision => (s.createAlias revision).proceed id (.writing revision)
  | .writing _ => s.finish id
  | .adopting revision =>
    if none ∈ s.collections then
      s.proceed id (.adoptingAliases revision (State.holdsRevision s.collections.keys))
    else s.finish id
  | .adoptingAliases revision owned =>
    if owned || State.holdsRevision s.aliases.keys then s.finish id
    else s.proceed id (.sizing revision)
  | .sizing revision =>
    match s.info none with
    | none => s.finish id
    | some collection =>
      if collection.size = size revision then s.proceed id (.naming revision) else s.finish id
  | .naming revision => (s.createAlias revision).finish id
  | .dropping revision =>
    s.proceed id (.droppingAliases revision
      (if some revision ∈ s.collections then some .collection else none))
  | .droppingAliases revision kind =>
    if some revision ∈ s.aliases then s.proceed id (.deleting revision .aliased)
    else
      match kind with
      | none => s.finish id
      | some kind => s.proceed id (.deleting revision kind)
  | .deleting revision kind => (s.dropRevision revision kind).finish id

def upsert (s : State Rev) (id : ℕ) (revision : Rev) (ids : List Text) : State Rev :=
  match s.physical (some revision) with
  | none => s.finish id
  | some name =>
    match s.collections.lookup name with
    | none => s.finish id
    | some collection =>
      if collection.size = size revision then
        { s with
          collections :=
            s.collections.insert name ⟨collection.size, written revision ids collection.points⟩ }
      else s.finish id

def step (s : State Rev) : Event Rev → Option (State Rev)
  | .ensure id revision => s.start id (.probing revision)
  | .build id revision => s.start id (.creating revision false)
  | .adopt id revision => s.start id (.adopting revision)
  | .drop id revision => s.start id (.dropping revision)
  | .next id => (s.tasks.lookup id).map (advance size s id)
  | .upsert id ids =>
    match s.tasks.lookup id with
    | some (.writing revision) => some (upsert size s id revision ids)
    | _ => none
  | .crash id => if id ∈ s.tasks then some (s.finish id) else none

end Machine

def regimeOf (s : State Rev) : Option Rev → Option Rev
  | none => s.owner
  | some revision => some revision

def Coherent (s : State Rev) : Prop :=
  ∀ name collection, s.collections.lookup name = some collection →
    ∀ id id' written written' revision revision',
      collection.points.lookup id = some written → collection.points.lookup id' = some written' →
      regimeOf s written = some revision → regimeOf s written' = some revision' →
      revision = revision'

def State.revised (s : State Rev) : Bool :=
  State.holdsRevision s.collections.keys || State.holdsRevision s.aliases.keys

/-- The process has listed the collections and seen no revision, and has yet to list the aliases. -/
def Task.lists : Task Rev → Bool
  | .listingAliases _ | .adoptingAliases _ false => true
  | _ => false

/-- The regime for which a process has listed both and has yet to create the alias. -/
def Task.claims : Task Rev → Option Rev
  | .creating revision true | .making revision true | .claiming revision | .sizing revision
  | .naming revision => some revision
  | _ => none

/-- An alias is created under a process that has listed for another regime, an alias is dropped
between the two listings of a process, or the last revision is dropped after a claim. -/
def overlaps (s : State Rev) : Event Rev → Bool
  | .next id =>
    match s.tasks.lookup id with
    | some (.claiming revision) | some (.naming revision) =>
      !s.collectionExists (some revision) &&
        anyRow s.tasks fun _ task => task.claims.any (· ≠ revision)
    | some (.deleting revision kind) =>
      (kind = .aliased && anyRow s.tasks fun _ => Task.lists) ||
        (s.owner.isSome && !(s.dropRevision revision kind).revised)
    | _ => false
  | .ensure _ _ | .build _ _ | .adopt _ _ | .drop _ _ | .upsert _ _ | .crash _ => false

/-- No claim is overlapped by another claim or a drop, and no drop takes the last revision. -/
def Apart (s : State Rev) (e : Event Rev) : Prop := overlaps s e = false

instance (s : State Rev) (e : Event Rev) : Decidable (Apart s e) :=
  inferInstanceAs (Decidable (_ = false))

structure Unrevisioned (s : State Rev) : Prop where
  collections : ∀ name collection, s.collections.lookup name = some collection →
    name = none ∧ ∀ id written, collection.points.lookup id = some written → written = none
  aliases : s.aliases = ∅
  owner : s.owner = none

structure Sound (s : State Rev) : Prop where
  revised : ∀ revision collection, s.collections.lookup (some revision) = some collection →
    ∀ id written, collection.points.lookup id = some written → written = some revision
  unrevised : ∀ collection, s.collections.lookup none = some collection →
    ∀ id written, collection.points.lookup id = some written → written = none ∨ written = s.owner
  aliases : ∀ name target, s.aliases.lookup name = some target →
    target = none ∧ ∃ revision, name = some revision ∧ s.owner = some revision

section Store

variable {s : State Rev}

theorem Unrevisioned.sound (hs : Unrevisioned s) : Sound s where
  revised revision collection hlookup := by
    have hn := (hs.collections _ _ hlookup).1
    cases hn
  unrevised collection hlookup id written hwritten :=
    .inl ((hs.collections _ _ hlookup).2 id written hwritten)
  aliases name target hlookup := by simp [hs.aliases] at hlookup

theorem Sound.coherent (hs : Sound s) : Coherent s := by
  intro name collection hlookup id id' w w' revision revision' hw hw' hr hr'
  have hre : ∀ id written r, collection.points.lookup id = some written →
      regimeOf s written = some r → name = some r ∨ name = none ∧ s.owner = some r := by
    intro id written r hwr hr
    cases name with
    | some revision =>
      obtain rfl := hs.revised revision collection hlookup id written hwr
      exact .inl hr
    | none =>
      refine .inr ⟨rfl, ?_⟩
      rcases hs.unrevised collection hlookup id written hwr with rfl | rfl
      · exact hr
      · cases how : s.owner with
        | none => simp [regimeOf, how] at hr
        | some owner => simpa [regimeOf, how] using hr
  rcases hre id w revision hw hr with hna | ⟨hna, how⟩
  · rcases hre id' w' revision' hw' hr' with hn | ⟨hn, -⟩
    · exact Option.mem_unique hna hn
    · rw [hna] at hn
      cases hn
  · rcases hre id' w' revision' hw' hr' with hn | ⟨-, ho⟩
    · rw [hna] at hn
      cases hn
    · exact Option.mem_unique how ho

theorem Sound.createCollection (hs : Sound s) (name : Option Rev) (size : ℕ) :
    Sound (s.createCollection name size) := by
  unfold State.createCollection
  split_ifs
  · exact hs
  · refine ⟨fun revision collection hlookup => ?_, fun collection hlookup => ?_, hs.aliases⟩
    · rcases lookup_insert_iff.mp hlookup with ⟨-, rfl⟩ | ⟨-, hlookup⟩
      · intro id written hwr
        simp at hwr
      · exact hs.revised revision collection hlookup
    · rcases lookup_insert_iff.mp hlookup with ⟨-, rfl⟩ | ⟨-, hlookup⟩
      · intro id written hwr
        simp at hwr
      · exact hs.unrevised collection hlookup

theorem Sound.createAlias (hs : Sound s) {revision : Rev}
    (hf : ∀ owner, s.owner = some owner → owner = revision) : Sound (s.createAlias revision) := by
  unfold State.createAlias
  split_ifs
  · exact hs
  have ho : some (s.owner.getD revision) = some revision := by
    cases hown : s.owner with
    | none => rfl
    | some owner => rw [Option.getD_some, hf owner hown]
  refine ⟨hs.revised, fun collection hlookup id written hwr => ?_, ?_⟩
  · rcases hs.unrevised collection hlookup id written hwr with rfl | rfl
    · exact .inl rfl
    · cases hown : s.owner with
      | none => exact .inl rfl
      | some owner => exact .inr rfl
  · refine forall_insert ⟨rfl, revision, rfl, ho⟩ fun name target hlookup => ?_
    obtain ⟨ht, other, hn, hot⟩ := hs.aliases name target hlookup
    obtain rfl := hf other hot
    exact ⟨ht, other, hn, ho⟩

theorem Sound.dropRevision (hs : Sound s) (revision : Rev) (kind : Kind) :
    Sound (s.dropRevision revision kind) := by
  cases kind with
  | aliased =>
    exact ⟨hs.revised, hs.unrevised,
      fun _ _ hlookup => hs.aliases _ _ (lookup_erase_iff.mp hlookup).2⟩
  | collection =>
    exact ⟨fun other found hlookup => hs.revised other found (lookup_erase_iff.mp hlookup).2,
      fun found hlookup => hs.unrevised found (lookup_erase_iff.mp hlookup).2,
      fun name target hlookup =>
        hs.aliases name target (lookup_eraseWhere_eq_some_iff.mp hlookup).1⟩

omit [DecidableEq Rev] in
theorem written_of_lookup {revision : Rev} {ids : List Text}
    {points : AList fun _ : Text => Option Rev} {id : Text} {w : Option Rev}
    (h : (written revision ids points).lookup id = some w) :
    w = some revision ∨ points.lookup id = some w := by
  induction ids generalizing points with
  | nil => exact .inr h
  | cons first ids ih =>
    rcases ih h with hw | hlookup
    · exact .inl hw
    · rcases lookup_insert_iff.mp hlookup with ⟨-, hw⟩ | ⟨-, hlookup⟩
      · exact .inl hw.symm
      · exact .inr hlookup

theorem Sound.physical (hs : Sound s) {revision : Rev} {name : Option Rev}
    (h : s.physical (some revision) = some name) :
    name = some revision ∨ name = none ∧ s.owner = some revision := by
  unfold State.physical at h
  split_ifs at h
  · exact .inl (Option.some.inj h).symm
  · obtain ⟨hn, other, ho, how⟩ := hs.aliases _ _ h
    cases ho
    exact .inr ⟨hn, how⟩

theorem Sound.upsert (hs : Sound s) (size : Rev → ℕ) (id : ℕ) (revision : Rev)
    (ids : List Text) : Sound (upsert size s id revision ids) := by
  have hk : Sound (s.finish id) := ⟨hs.revised, hs.unrevised, hs.aliases⟩
  unfold CorpusClaims.upsert
  split
  · exact hk
  · rename_i name hp
    split
    · exact hk
    · rename_i collection hcollection
      split_ifs
      · refine ⟨fun other found hlookup i w hw => ?_, fun found hlookup i w hw => ?_, hs.aliases⟩
        · rcases lookup_insert_iff.mp hlookup with ⟨hn, rfl⟩ | ⟨-, hlookup⟩
          · subst hn
            obtain rfl : other = revision := by
              rcases hs.physical hp with hn | ⟨hn, -⟩
              · exact Option.some.inj hn
              · cases hn
            exact (written_of_lookup hw).elim (fun h => h)
              (hs.revised other collection hcollection i w)
          · exact hs.revised other found hlookup i w hw
        · rcases lookup_insert_iff.mp hlookup with ⟨hn, rfl⟩ | ⟨-, hlookup⟩
          · subst hn
            have ho : s.owner = some revision := by
              rcases hs.physical hp with hn | ⟨-, ho⟩
              · cases hn
              · exact ho
            rcases written_of_lookup hw with rfl | hold
            · exact .inr ho.symm
            · exact hs.unrevised collection hcollection i w hold
          · exact hs.unrevised found hlookup i w hw
      · exact hk

end Store

section Machine

variable {size : Rev → ℕ} {s t : State Rev} {e : Event Rev}

theorem Sound.proceed (hs : Sound s) (id : ℕ) (task : Task Rev) : Sound (s.proceed id task) :=
  ⟨hs.revised, hs.unrevised, hs.aliases⟩

theorem Sound.finish (hs : Sound s) (id : ℕ) : Sound (s.finish id) :=
  ⟨hs.revised, hs.unrevised, hs.aliases⟩

omit [DecidableEq Rev] in
theorem holdsRevision_keys {α : Type} {table : AList fun _ : Option Rev => α} :
    State.holdsRevision table.keys = true ↔ ∃ revision, some revision ∈ table.keys := by
  rw [State.holdsRevision, List.any_eq_true]
  constructor
  · rintro ⟨name, hname, hs⟩
    obtain ⟨revision, rfl⟩ := Option.isSome_iff_exists.mp hs
    exact ⟨revision, hname⟩
  · rintro ⟨revision, hmem⟩
    exact ⟨some revision, hmem, rfl⟩

omit [DecidableEq Rev] in
theorem holdsRevision_mono {names more : List (Option Rev)}
    (h : State.holdsRevision names = true) (hsub : names ⊆ more) :
    State.holdsRevision more = true := by
  rw [State.holdsRevision, List.any_eq_true] at h ⊢
  obtain ⟨name, hname, hs⟩ := h
  exact ⟨name, hsub hname, hs⟩

structure Claimed (s : State Rev) : Prop where
  standing : s.owner.isSome = true → s.revised = true
  listing : ∀ id task, s.tasks.lookup id = some task → task.lists = true →
    s.owner.isSome = true → State.holdsRevision s.aliases.keys = true
  claiming : ∀ id task revision, s.tasks.lookup id = some task → task.claims = some revision →
    ∀ owner, s.owner = some owner → owner = revision

theorem Unrevisioned.claimed (hs : Unrevisioned s) : Claimed s := by
  refine ⟨fun h => ?_, fun _ _ _ _ h => ?_, fun _ _ _ _ _ owner h => ?_⟩
  all_goals
    rw [hs.owner] at h
    cases h

/-- A step that leaves the claim and the aliases and takes no collection. -/
theorem Claimed.kept (hs : Claimed s) (ho : t.owner = s.owner)
    (hal : t.aliases = s.aliases) (hc : s.collections.keys ⊆ t.collections.keys)
    (ht : ∀ id task, t.tasks.lookup id = some task → s.tasks.lookup id = some task ∨
      (task.lists = true → s.owner.isSome = true → State.holdsRevision s.aliases.keys = true) ∧
        ∀ revision, task.claims = some revision →
          ∀ owner, s.owner = some owner → owner = revision) : Claimed t where
  standing := by
    intro h
    rw [ho] at h
    have hr := hs.standing h
    rw [State.revised, Bool.or_eq_true] at hr ⊢
    rw [hal]
    exact hr.imp_left fun hr => holdsRevision_mono hr hc
  listing := by
    intro id task hta hl h
    rw [ho] at h
    rw [hal]
    rcases ht id task hta with hold | ⟨hnew, -⟩
    · exact hs.listing id task hold hl h
    · exact hnew hl h
  claiming := by
    intro id task revision hta hc owner how
    rw [ho] at how
    rcases ht id task hta with hold | ⟨-, hnew⟩
    · exact hs.claiming id task revision hold hc owner how
    · exact hnew revision hc owner how

theorem Claimed.finish (hs : Claimed s) (id : ℕ) : Claimed (s.finish id) :=
  hs.kept rfl rfl (List.Subset.refl _) fun _ _ hta => .inl (lookup_erase_iff.mp hta).2

theorem Claimed.proceed (hs : Claimed s) (id : ℕ) {task : Task Rev}
    (hl : task.lists = true → s.owner.isSome = true →
      State.holdsRevision s.aliases.keys = true)
    (hc : ∀ revision, task.claims = some revision →
      ∀ owner, s.owner = some owner → owner = revision) : Claimed (s.proceed id task) :=
  hs.kept rfl rfl (List.Subset.refl _) (forall_insert (.inr ⟨hl, hc⟩) fun _ _ => .inl)

/-- A process that neither waits for a listing nor is about to claim. -/
theorem Claimed.proceed_idle (hs : Claimed s) (id : ℕ) {task : Task Rev}
    (hl : task.lists = false) (hc : task.claims = none) : Claimed (s.proceed id task) := by
  refine hs.proceed id (fun h => ?_) fun revision h => ?_
  · rw [hl] at h
    cases h
  · rw [hc] at h
    cases h

/-- A process that goes on with what it has listed. -/
theorem Claimed.proceed_claims (hs : Claimed s) {id : ℕ} {task next : Task Rev}
    (ht : s.tasks.lookup id = some task) (hl : next.lists = false)
    (hc : next.claims = none ∨ next.claims = task.claims) : Claimed (s.proceed id next) := by
  refine hs.proceed id (fun h => ?_) fun revision h => ?_
  · rw [hl] at h
    cases h
  · rcases hc with hn | hsa
    · rw [hn] at h
      cases h
    · exact hs.claiming id task revision ht (hsa.symm.trans h)

/-- With no revision among the collections, a claimed one is among the aliases. -/
theorem Claimed.aliased (hs : Claimed s)
    (hn : State.holdsRevision s.collections.keys = false) (ho : s.owner.isSome = true) :
    State.holdsRevision s.aliases.keys = true := by
  have hr := hs.standing ho
  rwa [State.revised, hn, Bool.false_or] at hr

/-- Neither listing shows a revision, so nobody has claimed. -/
theorem Claimed.unclaimed (hs : Claimed s) {id : ℕ} {task : Task Rev}
    (ht : s.tasks.lookup id = some task) (hl : task.lists = true)
    (hn : State.holdsRevision s.aliases.keys = false) : s.owner = none := by
  by_contra ho
  have hr := hs.listing id task ht hl (Option.isSome_iff_ne_none.mpr ho)
  rw [hn] at hr
  cases hr

theorem createCollection_kept (hs : Claimed s) (name : Option Rev) (width : ℕ) :
    Claimed (s.createCollection name width) := by
  unfold State.createCollection
  split_ifs
  · exact hs
  · refine hs.kept rfl rfl (fun other ho => ?_) fun _ _ => .inl
    exact AList.mem_keys.mp ((AList.mem_insert _).mpr (.inr (AList.mem_keys.mpr ho)))

/-- The alias of a claim that no other regime's listing is open to. -/
theorem Claimed.createAlias (hs : Claimed s) {id : ℕ} {task : Task Rev} {revision : Rev}
    (ht : s.tasks.lookup id = some task) (hc : task.claims = some revision)
    (hok : (!s.collectionExists (some revision) &&
      anyRow s.tasks fun _ task => task.claims.any (· ≠ revision)) = false) :
    Claimed (s.createAlias revision) := by
  unfold State.createAlias
  split_ifs with hta
  · exact hs
  rw [Bool.or_eq_true, not_or] at hta
  have hmem : State.holdsRevision (s.aliases.insert (some revision) none).keys = true :=
    holdsRevision_keys.mpr ⟨revision, AList.mem_keys.mp ((AList.mem_insert _).mpr (.inl rfl))⟩
  have ho : s.owner.getD revision = revision := by
    cases hown : s.owner with
    | none => rfl
    | some owner => exact hs.claiming id task revision ht hc owner hown
  refine ⟨fun _ => ?_, fun _ _ _ _ _ => hmem, fun other u r hu hr owner how => ?_⟩
  · rw [State.revised, hmem, Bool.or_true]
  · cases how
    rw [ho]
    by_contra hne
    have hany : (anyRow s.tasks fun _ task => task.claims.any (· ≠ revision)) = true :=
      anyRow_eq_true_iff.mpr ⟨other, u, hu, by simp [hr, Ne.symm hne]⟩
    rw [hany, Bool.and_true] at hok
    exact hta.1 (by simpa using hok)

theorem Claimed.dropRevision (hc : Claimed s) (hs : Sound s) {revision : Rev} {kind : Kind}
    (hok : ((kind = .aliased && anyRow s.tasks fun _ => Task.lists) ||
      (s.owner.isSome && !(s.dropRevision revision kind).revised)) = false) :
    Claimed (s.dropRevision revision kind) := by
  rw [Bool.or_eq_false_iff] at hok
  have hst : s.owner.isSome = true → (s.dropRevision revision kind).revised = true := by
    intro ho
    simpa [ho] using hok.2
  cases kind with
  | aliased =>
    refine ⟨hst, fun id task ht hl _ => ?_, hc.claiming⟩
    have hany : (anyRow s.tasks fun _ => Task.lists) = true :=
      anyRow_eq_true_iff.mpr ⟨id, task, ht, hl⟩
    rw [hany] at hok
    cases hok.1
  | collection =>
    refine ⟨hst, fun id task ht hl ho => ?_, hc.claiming⟩
    -- no alias stands over the collection of a revision
    obtain ⟨name, hname⟩ := holdsRevision_keys.mp (hc.listing id task ht hl ho)
    obtain ⟨target, hlookup⟩ := Option.isSome_iff_exists.mp
      (AList.lookup_isSome.mpr (AList.mem_keys.mpr hname))
    refine holdsRevision_keys.mpr ⟨name, AList.mem_keys.mp (mem_of_lookup
      (lookup_eraseWhere_eq_some_iff.mpr ⟨hlookup, ?_⟩))⟩
    simp [(hs.aliases _ _ hlookup).1]

theorem advance_claimed (hc : Claimed s) (hs : Sound s) {id : ℕ} {task : Task Rev}
    (ht : s.tasks.lookup id = some task) (hok : Apart s (.next id)) :
    Claimed (advance size s id task) := by
  simp only [Apart, overlaps, ht] at hok
  cases task with
  | probing revision =>
    simp only [advance]
    split_ifs <;> exact hc.proceed_idle id rfl rfl
  | checking revision =>
    simp only [advance]
    split_ifs <;> exact hc.proceed_idle id rfl rfl
  | listing revision =>
    simp only [advance]
    split_ifs with hr
    · exact hc.proceed_idle id rfl rfl
    · exact hc.proceed id (fun _ => hc.aliased (by simpa using hr)) fun _ h => by cases h
  | listingAliases revision =>
    simp only [advance]
    cases hr : State.holdsRevision s.aliases.keys with
    | true => exact hc.proceed_idle id rfl rfl
    | false =>
      refine hc.proceed id (fun h => by cases h) fun other _ owner how => ?_
      rw [hc.unclaimed ht rfl hr] at how
      cases how
  | creating revision claims =>
    simp only [advance]
    split
    · exact hc.proceed_claims ht rfl (.inr (by cases claims <;> rfl))
    · split_ifs
      · cases claims with
        | true => exact hc.proceed_claims ht rfl (.inr rfl)
        | false => exact hc.proceed_claims ht rfl (.inl rfl)
      · exact hc.finish id
  | making revision claims =>
    have hta : (s.createCollection (target revision claims) (size revision)).tasks.lookup id =
        some (.making revision claims) := by
      unfold State.createCollection
      split_ifs <;> exact ht
    have hk := createCollection_kept hc (target revision claims) (size revision)
    cases claims with
    | true => exact hk.proceed_claims hta rfl (.inr rfl)
    | false => exact hk.proceed_claims hta rfl (.inl rfl)
  | claiming revision => exact (hc.createAlias ht rfl hok).proceed_idle id rfl rfl
  | writing revision => exact hc.finish id
  | adopting revision =>
    simp only [advance]
    split_ifs
    · cases hr : State.holdsRevision s.collections.keys with
      | true => exact hc.proceed_idle id rfl rfl
      | false => exact hc.proceed id (fun _ => hc.aliased hr) fun _ h => by cases h
    · exact hc.finish id
  | adoptingAliases revision owned =>
    simp only [advance]
    split_ifs with hr
    · exact hc.finish id
    · rw [Bool.or_eq_true, not_or, Bool.not_eq_true, Bool.not_eq_true] at hr
      refine hc.proceed id (fun h => by cases h) fun other _ owner how => ?_
      rw [hc.unclaimed ht (by rw [hr.1]; rfl) hr.2] at how
      cases how
  | sizing revision =>
    simp only [advance]
    split
    · exact hc.finish id
    · split_ifs
      · exact hc.proceed_claims ht rfl (.inr rfl)
      · exact hc.finish id
  | naming revision => exact (hc.createAlias ht rfl hok).finish id
  | dropping revision => exact hc.proceed_idle id rfl rfl
  | droppingAliases revision kind =>
    simp only [advance]
    split_ifs
    · exact hc.proceed_idle id rfl rfl
    · split
      · exact hc.finish id
      · exact hc.proceed_idle id rfl rfl
  | deleting revision kind => exact (hc.dropRevision hs hok).finish id

theorem advance_sound (hs : Sound s) (hc : Claimed s) {id : ℕ} {task : Task Rev}
    (ht : s.tasks.lookup id = some task) : Sound (advance size s id task) := by
  cases task with
  | probing revision =>
    simp only [advance]
    split_ifs
    · exact hs.proceed id _
    · exact hs.proceed id _
  | checking revision =>
    simp only [advance]
    split_ifs
    · exact hs.proceed id _
    · exact hs.proceed id _
  | listing revision =>
    simp only [advance]
    split_ifs
    · exact hs.proceed id _
    · exact hs.proceed id _
  | listingAliases revision => exact hs.proceed id _
  | creating revision claims =>
    simp only [advance]
    split
    · exact hs.proceed id _
    · split_ifs
      · exact hs.proceed id _
      · exact hs.finish id
  | making revision claims => exact (hs.createCollection _ _).proceed id _
  | claiming revision =>
    exact (hs.createAlias (hc.claiming id _ revision ht rfl)).proceed id _
  | writing revision => exact hs.finish id
  | adopting revision =>
    simp only [advance]
    split_ifs
    · exact hs.proceed id _
    · exact hs.finish id
  | adoptingAliases revision owned =>
    simp only [advance]
    split_ifs
    · exact hs.finish id
    · exact hs.proceed id _
  | sizing revision =>
    simp only [advance]
    split
    · exact hs.finish id
    · split_ifs
      · exact hs.proceed id _
      · exact hs.finish id
  | naming revision => exact (hs.createAlias (hc.claiming id _ revision ht rfl)).finish id
  | dropping revision => exact hs.proceed id _
  | droppingAliases revision kind =>
    simp only [advance]
    split_ifs
    · exact hs.proceed id _
    · split
      · exact hs.finish id
      · exact hs.proceed id _
  | deleting revision kind => exact (hs.dropRevision revision kind).finish id

theorem upsert_claimed (hc : Claimed s) (id : ℕ) (revision : Rev) (ids : List Text) :
    Claimed (upsert size s id revision ids) := by
  unfold CorpusClaims.upsert
  split
  · exact hc.finish id
  · split
    · exact hc.finish id
    · split_ifs
      · refine hc.kept rfl rfl (fun other ho => ?_) fun _ _ => .inl
        exact AList.mem_keys.mp ((AList.mem_insert _).mpr (.inr (AList.mem_keys.mpr ho)))
      · exact hc.finish id

theorem step_sound (hs : Sound s ∧ Claimed s) (hok : Apart s e) (h : step size s e = some t) :
    Sound t ∧ Claimed t := by
  obtain ⟨hs, hc⟩ := hs
  have hst : ∀ {id : ℕ} {task : Task Rev}, task.lists = false → task.claims = none →
      s.start id task = some t → Sound t ∧ Claimed t := by
    intro id task hl hcl h
    unfold State.start at h
    split_ifs at h
    cases h
    exact ⟨hs.proceed id task, hc.proceed_idle id hl hcl⟩
  cases e with
  | ensure id revision => exact hst rfl rfl h
  | build id revision => exact hst rfl rfl h
  | adopt id revision => exact hst rfl rfl h
  | drop id revision => exact hst rfl rfl h
  | next id =>
    obtain ⟨task, ht, rfl⟩ := Option.map_eq_some_iff.mp h
    exact ⟨advance_sound hs hc ht, advance_claimed hc hs ht hok⟩
  | upsert id ids =>
    simp only [step] at h
    split at h
    · cases h
      exact ⟨hs.upsert size id _ ids, upsert_claimed hc id _ ids⟩
    · cases h
  | crash id =>
    simp only [step] at h
    split_ifs at h
    cases h
    exact ⟨hs.finish id, hc.finish id⟩

/-- While no claim is overlapped by another one or by a drop, and no drop takes the last revision,
no collection ever holds points of two regimes. -/
theorem one_regime_per_collection {es : List (Event Rev)} (hs : Unrevisioned s)
    (hg : Guarded (step size) Apart s es) (hrun : run (step size) s es = some t) :
    Coherent t := by
  have hk : ∀ u f v, Sound u ∧ Claimed u → Apart u f → step size u f = some v →
      Sound v ∧ Claimed v := fun _ _ _ hu hok hv => step_sound hu hok hv
  exact (run_invariant hk hg hrun ⟨hs.sound, hs.claimed⟩).1.coherent

end Machine

private def width : ℕ → ℕ := fun _ => 384

private def legacy : State ℕ :=
  ⟨(∅ : AList fun _ : Option ℕ => Collection ℕ).insert none
    ⟨384, (∅ : AList fun _ : Text => Option ℕ).insert [97] none⟩, ∅, none, ∅⟩

private theorem unrevisioned_legacy : Unrevisioned legacy where
  collections := by
    refine forall_insert ⟨rfl, forall_insert rfl fun id w h => ?_⟩
      fun name collection h => ?_
    · simp at h
    · simp at h
  aliases := rfl
  owner := rfl

private def steps (id count : ℕ) : List (Event ℕ) := List.replicate count (.next id)

private def swapped : List (Event ℕ) :=
  .adopt 1 1 :: steps 1 4 ++ .ensure 2 1 :: steps 2 2 ++ [.upsert 2 [[98]], .next 2] ++
    .build 3 2 :: steps 3 2 ++ [.upsert 3 [[97], [98]], .next 3] ++ .drop 4 1 :: steps 4 3 ++
    .ensure 5 1 :: steps 5 5 ++ [.upsert 5 [[99]]]

private def pointOf (s : State ℕ) (name : Option ℕ) (id : Text) : Option (Option ℕ) :=
  (s.collections.lookup name).bind (·.points.lookup id)

/-- A swap of the model, with an adoption before and a drop after it. -/
theorem swapped_corpora_are_coherent :
    ∃ s, run (step width) legacy swapped = some s ∧ pointOf s none [98] = some (some 1) ∧
      pointOf s (some 2) [98] = some (some 2) ∧ pointOf s (some 1) [99] = some (some 1) ∧
      Coherent s := by
  obtain ⟨s, hrun, ht⟩ := exists_run_of_any
    (p := fun s : State ℕ => pointOf s none [98] = some (some 1) ∧
      pointOf s (some 2) [98] = some (some 2) ∧ pointOf s (some 1) [99] = some (some 1))
    (show (run (step width) legacy swapped).any _ = true by decide +kernel)
  obtain ⟨hold, hnew, hown⟩ := of_decide_eq_true ht
  have hg : Guarded (step width) Apart legacy swapped := by decide +kernel
  exact ⟨s, hrun, hold, hnew, hown, one_regime_per_collection unrevisioned_legacy hg hrun⟩

private def claimedAtOnce : List (Event ℕ) :=
  .ensure 1 1 :: .ensure 2 2 :: steps 1 4 ++ steps 2 4 ++ steps 1 2 ++ steps 2 2 ++
    [.upsert 1 [[98]], .upsert 2 [[99]]]

private def claimedAfterDrop : List (Event ℕ) :=
  .ensure 1 1 :: steps 1 6 ++ [.upsert 1 [[98]]] ++ .drop 2 1 :: steps 2 3 ++
    .ensure 3 2 :: steps 3 6 ++ [.upsert 3 [[99]]]

/-- Two regimes of one width claim the corpus at once, and a regime claims it after the alias of
another was dropped. -/
theorem two_regimes_share_a_collection :
    (∃ s, run (step width) legacy claimedAtOnce = some s ∧ ¬ Coherent s) ∧
    ∃ s, run (step width) legacy claimedAfterDrop = some s ∧ ¬ Coherent s := by
  have hm : ∀ s : State ℕ, pointOf s none [98] = some (some 1) ∧
      pointOf s none [99] = some (some 2) → ¬ Coherent s := by
    rintro s ⟨hf, hs⟩ hc
    obtain ⟨collection, hcollection, hf⟩ := Option.bind_eq_some_iff.mp hf
    obtain ⟨other, ho, hs⟩ := Option.bind_eq_some_iff.mp hs
    obtain rfl := Option.mem_unique hcollection ho
    have heq := hc none collection hcollection [98] [99] _ _ 1 2 hf hs rfl rfl
    cases heq
  obtain ⟨s, hrun, ht⟩ := exists_run_of_any
    (p := fun s : State ℕ => pointOf s none [98] = some (some 1) ∧
      pointOf s none [99] = some (some 2))
    (show (run (step width) legacy claimedAtOnce).any _ = true by decide +kernel)
  refine ⟨⟨s, hrun, hm s (of_decide_eq_true ht)⟩, ?_⟩
  obtain ⟨s, hrun, ht⟩ := exists_run_of_any
    (p := fun s : State ℕ => pointOf s none [98] = some (some 1) ∧
      pointOf s none [99] = some (some 2))
    (show (run (step width) legacy claimedAfterDrop).any _ = true by decide +kernel)
  exact ⟨s, hrun, hm s (of_decide_eq_true ht)⟩

end Aizzak.CorpusClaims
