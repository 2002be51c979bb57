import Aizzak.CorpusRebuild

/-!
Deletions from every collection of a workspace while one of its corpora is rebuilt. A deletion
lists the collections once and then deletes from each in turn; a build holds a page of points from
its scroll to its upsert. A collection that has a deleted id is one that a deletion in progress
has yet to visit, as long as no build puts a point back behind it.
-/
namespace Aizzak.CorpusDeletions

open EventRuns KeyedTables PyText
open CorpusRebuild (Record VectorPoint rebuildPoints mem_upsert)

variable {Dense Sparse : Type}

inductive Task (Dense Sparse : Type) where
  | provisioning (source target : Text) (resume : Bool)
  | scrolling (source target : Text) (resume : Bool)
  | retrieving (source target : Text) (page : List (Record Dense Sparse)) (more : Bool)
  | embedding (source target : Text) (resume : Bool) (pending : List (Record Dense Sparse))
    (more : Bool)
  | upserting (source target : Text) (resume : Bool) (points : List (VectorPoint Dense Sparse))
    (more : Bool)
  | listing (ids : List Text)
  | deleting (ids todo : List Text)

structure State (Dense Sparse : Type) where
  collections : AList fun _ : Text => AList fun _ : Text => Record Dense Sparse
  aliases : AList fun _ : Text => Text
  deleted : List Text
  tasks : AList fun _ : ℕ => Task Dense Sparse

inductive Event where
  | build (id : ℕ) (source target : Text) (resume : Bool)
  | deleteEverywhere (id : ℕ) (ids : List Text)
  | next (id : ℕ)
  | scroll (id : ℕ) (ids : List Text) (more : Bool)

namespace State

def physical (s : State Dense Sparse) (name : Text) : Option Text :=
  if name ∈ s.collections then some name else s.aliases.lookup name

def pointsOf (s : State Dense Sparse) (name : Text) :
    Option (AList fun _ : Text => Record Dense Sparse) :=
  (s.physical name).bind fun collection => s.collections.lookup collection

def finish (s : State Dense Sparse) (id : ℕ) : State Dense Sparse :=
  { s with tasks := s.tasks.erase id }

def proceed (s : State Dense Sparse) (id : ℕ) (task : Task Dense Sparse) : State Dense Sparse :=
  { s with tasks := s.tasks.insert id task }

def put (s : State Dense Sparse) (name : Text)
    (points : AList fun _ : Text => Record Dense Sparse) : State Dense Sparse :=
  { s with collections := s.collections.insert name points }

def loop (s : State Dense Sparse) (id : ℕ) (source target : Text) (resume more : Bool) :
    State Dense Sparse :=
  if more then s.proceed id (.scrolling source target resume) else s.finish id

end State

section Machine

variable (embed : List Text → List Dense)

def advance (s : State Dense Sparse) (id : ℕ) : Task Dense Sparse → Option (State Dense Sparse)
  | .provisioning source target resume =>
    let provisioned := if (s.physical target).isSome then s else s.put target ∅
    some (provisioned.proceed id (.scrolling source target resume))
  | .scrolling _ _ _ => none
  | .retrieving source target page more =>
    match s.pointsOf target with
    | none => some (s.finish id)
    | some held =>
      let pending := page.filter fun point => point.id ∉ held
      if pending.isEmpty then some (s.loop id source target true more)
      else some (s.proceed id (.embedding source target true pending more))
  | .embedding source target resume pending more =>
    let points := rebuildPoints embed pending
    if points.isEmpty then some (s.loop id source target resume more)
    else some (s.proceed id (.upserting source target resume points more))
  | .upserting source target resume points more =>
    match s.physical target with
    | none => some (s.finish id)
    | some name =>
      match s.collections.lookup name with
      | none => some (s.finish id)
      | some held =>
        some ((s.put name (CorpusRebuild.upsert held points)).loop id source target resume more)
  | .listing ids => some (s.proceed id (.deleting ids s.collections.keys))
  | .deleting _ [] => some (s.finish id)
  | .deleting ids (name :: todo) =>
    match s.collections.lookup name with
    | none => some (s.proceed id (.deleting ids todo))
    | some held => some ((s.put name (eraseAll held ids)).proceed id (.deleting ids todo))

def step (s : State Dense Sparse) : Event → Option (State Dense Sparse)
  | .build id source target resume =>
    if id ∈ s.tasks then none else some (s.proceed id (.provisioning source target resume))
  | .deleteEverywhere id ids =>
    if id ∈ s.tasks then none
    else if ids.isEmpty then some s
    else some { s.proceed id (.listing ids) with deleted := s.deleted ++ ids }
  | .next id =>
    match s.tasks.lookup id with
    | none => none
    | some task => advance embed s id task
  | .scroll id ids more =>
    match s.tasks.lookup id with
    | some (.scrolling source target resume) =>
      match s.pointsOf source with
      | none => some (s.finish id)
      | some held =>
        let page := ids.filterMap held.lookup
        if page.isEmpty then some (s.finish id)
        else if resume then some (s.proceed id (.retrieving source target page more))
        else some (s.proceed id (.embedding source target resume page more))
    | _ => none

end Machine

def willDelete (name id : Text) : Task Dense Sparse → Bool
  | .listing ids => id ∈ ids
  | .deleting ids todo => id ∈ ids && name ∈ todo
  | .provisioning _ _ _ | .scrolling _ _ _ | .retrieving _ _ _ _ | .embedding _ _ _ _ _
  | .upserting _ _ _ _ _ => false

/-- What a build upserts was not given to a deletion, or one has yet to visit the target. -/
def spares (s : State Dense Sparse) : Event → Bool
  | .next id =>
    match s.tasks.lookup id with
    | some (.upserting _ target _ points _) =>
      points.all fun point => point.id ∉ s.deleted ||
        (s.physical target).any fun name =>
          anyRow s.tasks fun _ task => willDelete name point.id task
    | _ => true
  | .build _ _ _ _ | .deleteEverywhere _ _ | .scroll _ _ _ => true

def Spares (s : State Dense Sparse) (e : Event) : Prop := spares s e = true

instance (s : State Dense Sparse) (e : Event) : Decidable (Spares s e) :=
  inferInstanceAs (Decidable (_ = true))

def Pending (s : State Dense Sparse) (name id : Text) : Prop :=
  ∃ i task, s.tasks.lookup i = some task ∧ willDelete name id task = true

/-- A deleted id is only where a deletion in progress will come. -/
def Covered (s : State Dense Sparse) : Prop :=
  ∀ name points id, s.collections.lookup name = some points → id ∈ points → id ∈ s.deleted →
    Pending s name id

section Pending

variable {s t : State Dense Sparse} {id : ℕ} {task : Task Dense Sparse} {name x : Text}

theorem Pending.kept (h : Pending s name x) (ht : s.tasks.lookup id = some task)
    (hi : willDelete name x task = false)
    (hot : ∀ i other, i ≠ id → s.tasks.lookup i = some other →
      t.tasks.lookup i = some other) : Pending t name x := by
  obtain ⟨i, other, ho, hw⟩ := h
  have hne : i ≠ id := by
    rintro rfl
    obtain rfl := Option.mem_unique ht ho
    rw [hi] at hw
    cases hw
  exact ⟨i, other, hot i other hne ho, hw⟩

variable {i : ℕ} {other : Task Dense Sparse}

theorem lookup_proceed (hne : i ≠ id) (h : s.tasks.lookup i = some other) :
    (s.proceed id task).tasks.lookup i = some other :=
  (AList.lookup_insert_ne hne).trans h

theorem lookup_finish (hne : i ≠ id) (h : s.tasks.lookup i = some other) :
    (s.finish id).tasks.lookup i = some other :=
  (AList.lookup_erase_ne hne).trans h

variable {source target : Text} {resume more : Bool}

theorem lookup_loop (hne : i ≠ id) (h : s.tasks.lookup i = some other) :
    (s.loop id source target resume more).tasks.lookup i = some other := by
  unfold State.loop
  split_ifs
  · exact lookup_proceed hne h
  · exact lookup_finish hne h

theorem collections_loop :
    (s.loop id source target resume more).collections = s.collections := by
  unfold State.loop
  split_ifs <;> rfl

theorem deleted_loop :
    (s.loop id source target resume more).deleted = s.deleted := by
  unfold State.loop
  split_ifs <;> rfl

/-- A request that deletes nothing goes on without a write. -/
theorem Covered.kept (hs : Covered s) (ht : s.tasks.lookup id = some task)
    (hi : ∀ name x, willDelete name x task = false)
    (hc : t.collections = s.collections) (hd : t.deleted = s.deleted)
    (ho : ∀ i other, i ≠ id → s.tasks.lookup i = some other →
      t.tasks.lookup i = some other) : Covered t := by
  intro name points x hl hx hmem
  rw [hc] at hl
  rw [hd] at hmem
  exact (hs name points x hl hx hmem).kept ht (hi name x) ho

theorem Covered.put (hs : Covered s) {points : AList fun _ : Text => Record Dense Sparse}
    (hp : ∀ x ∈ points, x ∈ s.deleted → Pending s name x) : Covered (s.put name points) := by
  intro other held x hl hx hmem
  rcases lookup_insert_iff.mp hl with ⟨rfl, rfl⟩ | ⟨-, hl⟩
  · exact hp x hx hmem
  · exact hs other held x hl hx hmem

end Pending

section Machine

variable {embed : List Text → List Dense} {s t : State Dense Sparse} {e : Event} {id : ℕ}
  {task : Task Dense Sparse}

/-- The next name of a deletion: its ids go from there, and the rest is still to come. -/
theorem Covered.deleted {ids todo : List Text} {name : Text} (hs : Covered s)
    (hts : s.tasks.lookup id = some (.deleting ids (name :: todo)))
    {u : State Dense Sparse} (hd : u.deleted = s.deleted) (hta : u.tasks = s.tasks)
    (ho : ∀ other points, other ≠ name → u.collections.lookup other = some points →
      s.collections.lookup other = some points)
    (hn : ∀ points x, u.collections.lookup name = some points → x ∈ points →
      x ∉ ids ∧ ∃ held, s.collections.lookup name = some held ∧ x ∈ held) :
    Covered (u.proceed id (.deleting ids todo)) := by
  intro other points x hl hx hmem
  have hmem : x ∈ s.deleted := hd ▸ hmem
  have hk : Pending s other x → (x ∈ ids → other ≠ name) →
      Pending (u.proceed id (.deleting ids todo)) other x := by
    rintro ⟨i, task, ht, hw⟩ hne
    rcases same_or_ne hts ht with ⟨rfl, rfl⟩ | hi
    · obtain ⟨hids, hto⟩ : x ∈ ids ∧ other ∈ name :: todo := by
        simpa [willDelete] using hw
      refine ⟨i, _, AList.lookup_insert _, ?_⟩
      simpa [willDelete, hids, hne hids] using hto
    · exact ⟨i, task, (AList.lookup_insert_ne hi).trans (hta ▸ ht), hw⟩
  by_cases heq : other = name
  · subst heq
    obtain ⟨hnot, held, hh, hxh⟩ := hn points x hl hx
    exact hk (hs other held x hh hxh hmem) fun hids => absurd hids hnot
  · exact hk (hs other points x (ho other points heq hl) hx hmem) fun _ => heq

/-- A build that upserts nothing a deletion was given keeps the ids covered. -/
theorem advance_covered (hs : Covered s) (hok : Spares s (.next id))
    (hta : s.tasks.lookup id = some task) (h : advance embed s id task = some t) :
    Covered t := by
  cases task with
  | provisioning source target resume =>
    cases h
    split_ifs
    · exact hs.kept hta (fun _ _ => rfl) rfl rfl fun _ _ hne h => lookup_proceed hne h
    · have hput : Covered (s.put target ∅) := hs.put fun x hx => by simp at hx
      exact hput.kept hta (fun _ _ => rfl) rfl rfl fun _ _ hne h => lookup_proceed hne h
  | scrolling source target resume => cases h
  | retrieving source target page more =>
    simp only [advance] at h
    split at h
    · cases h
      exact hs.kept hta (fun _ _ => rfl) rfl rfl fun _ _ hne h => lookup_finish hne h
    · split_ifs at h
      · cases h
        exact hs.kept hta (fun _ _ => rfl) collections_loop deleted_loop
          fun _ _ hne h => lookup_loop hne h
      · cases h
        exact hs.kept hta (fun _ _ => rfl) rfl rfl fun _ _ hne h => lookup_proceed hne h
  | embedding source target resume pending more =>
    simp only [advance] at h
    split_ifs at h
    · cases h
      exact hs.kept hta (fun _ _ => rfl) collections_loop deleted_loop
        fun _ _ hne h => lookup_loop hne h
    · cases h
      exact hs.kept hta (fun _ _ => rfl) rfl rfl fun _ _ hne h => lookup_proceed hne h
  | upserting source target resume points more =>
    simp only [advance] at h
    split at h
    · cases h
      exact hs.kept hta (fun _ _ => rfl) rfl rfl fun _ _ hne h => lookup_finish hne h
    · rename_i name hn
      split at h
      · cases h
        exact hs.kept hta (fun _ _ => rfl) rfl rfl fun _ _ hne h => lookup_finish hne h
      · rename_i held hh
        cases h
        have hput : Covered (s.put name (CorpusRebuild.upsert held points)) := by
          refine hs.put fun x hx hmem => ?_
          rcases mem_upsert.mp hx with hx | hx
          · exact hs name held x hh hx hmem
          · obtain ⟨point, hp, rfl⟩ := List.mem_map.mp hx
            have hsp : ∀ point ∈ points, point.id ∉ s.deleted ∨
                anyRow s.tasks (fun _ task => willDelete name point.id task) = true := by
              simpa [Spares, spares, hta, hn] using hok
            exact anyRow_eq_true_iff.mp ((hsp point hp).resolve_left (not_not.mpr hmem))
        exact hput.kept hta (fun _ _ => rfl) collections_loop deleted_loop
          fun _ _ hne h => lookup_loop hne h
  | listing ids =>
    cases h
    intro name points x hl hx hmem
    obtain ⟨i, task, ht, hw⟩ := hs name points x hl hx hmem
    rcases same_or_ne hta ht with ⟨rfl, rfl⟩ | hi
    · refine ⟨i, _, AList.lookup_insert _, ?_⟩
      have hkey : name ∈ s.collections.keys := AList.mem_keys.mp (mem_of_lookup hl)
      have hids : x ∈ ids := by simpa [willDelete] using hw
      simp [willDelete, hids, hkey]
    · exact ⟨i, task, lookup_proceed hi ht, hw⟩
  | deleting ids todo =>
    cases todo with
    | nil =>
      cases h
      exact hs.kept hta (fun _ _ => by simp [willDelete]) rfl rfl
        fun _ _ hne h => lookup_finish hne h
    | cons name todo =>
      simp only [advance] at h
      split at h
      · rename_i hno
        cases h
        refine hs.deleted hta rfl rfl (fun _ _ _ h => h) fun points x hl _ => ?_
        rw [hno] at hl
        cases hl
      · rename_i held hh
        cases h
        refine hs.deleted hta rfl rfl (fun other points hne hl => ?_)
          fun points x hl hx => ?_
        · rwa [State.put, AList.lookup_insert_ne hne] at hl
        · obtain rfl : eraseAll held ids = points := by
            simpa [State.put] using hl
          obtain ⟨record, hr⟩ := Option.isSome_iff_exists.mp (AList.lookup_isSome.mpr hx)
          obtain ⟨hnot, hold⟩ := lookup_eraseAll_eq_some_iff.mp hr
          exact ⟨hnot, held, hh, mem_of_lookup hold⟩

theorem step_covered (hs : Covered s) (hok : Spares s e) (h : step embed s e = some t) :
    Covered t := by
  have hf : ∀ {id : ℕ} {task : Task Dense Sparse} {u : State Dense Sparse}, id ∉ s.tasks →
      u.collections = s.collections → u.deleted = s.deleted → u.tasks = s.tasks.insert id task →
      Covered u := by
    intro id task u hnew hc hd ht name points x hl hx hmem
    rw [hc] at hl
    rw [hd] at hmem
    obtain ⟨i, other, ho, hw⟩ := hs name points x hl hx hmem
    exact ⟨i, other, ht ▸ lookup_insert_of_lookup hnew ho, hw⟩
  cases e with
  | build id source target resume =>
    simp only [step] at h
    split_ifs at h with hnew
    cases h
    exact hf hnew rfl rfl rfl
  | deleteEverywhere id ids =>
    simp only [step] at h
    split_ifs at h with hnew
    · cases h
      exact hs
    · cases h
      intro name points x hl hx hmem
      rcases List.mem_append.mp hmem with hmem | hmem
      · obtain ⟨i, other, ho, hw⟩ := hs name points x hl hx hmem
        exact ⟨i, other, lookup_insert_of_lookup hnew ho, hw⟩
      · exact ⟨id, _, AList.lookup_insert _, by simp [willDelete, hmem]⟩
  | next id =>
    simp only [step] at h
    split at h
    · cases h
    · rename_i task hta
      exact advance_covered hs hok hta h
  | scroll id ids more =>
    simp only [step] at h
    split at h
    · rename_i source target resume hta
      split at h
      · cases h
        exact hs.kept hta (fun _ _ => rfl) rfl rfl fun _ _ hne h => lookup_finish hne h
      · split_ifs at h
        · cases h
          exact hs.kept hta (fun _ _ => rfl) rfl rfl fun _ _ hne h => lookup_finish hne h
        · cases h
          exact hs.kept hta (fun _ _ => rfl) rfl rfl fun _ _ hne h => lookup_proceed hne h
        · cases h
          exact hs.kept hta (fun _ _ => rfl) rfl rfl fun _ _ hne h => lookup_proceed hne h
    · cases h

/-- Once the builds and the deletions have all returned, no collection has a deleted id, if no
build has put one back where no deletion was still to come. -/
theorem deleted_ids_are_gone {es : List Event} (hinit : s.deleted = [])
    (hg : Guarded (step embed) Spares s es) (hrun : run (step embed) s es = some t)
    (hdone : t.tasks = ∅) {name id : Text} {points : AList fun _ : Text => Record Dense Sparse}
    (hlookup : t.collections.lookup name = some points) (hid : id ∈ t.deleted) :
    id ∉ points := by
  intro hmem
  have hs : Covered s := by
    intro name points x _ _ hx
    rw [hinit] at hx
    cases hx
  have hk : ∀ (u : State Dense Sparse) e v, Covered u → Spares u e →
      step embed u e = some v → Covered v :=
    fun _ _ _ hu hok hv => step_covered hu hok hv
  obtain ⟨i, task, ht, -⟩ :=
    run_invariant hk hg hrun hs name points id hlookup hmem hid
  simp [hdone] at ht

end Machine

private def texted (id : Text) : Record ℕ ℕ :=
  ⟨id, .plain 0, some [(ofString "text", .str [97])]⟩

private def two : AList fun _ : Text => Record ℕ ℕ :=
  (∅ : AList fun _ : Text => Record ℕ ℕ).insert [1] (texted [1]) |>.insert [2] (texted [2])

private def corpora : State ℕ ℕ :=
  ⟨(∅ : AList fun _ : Text => AList fun _ : Text => Record ℕ ℕ).insert [115] two, ∅, [], ∅⟩

private def lengths (texts : List Text) : List ℕ := texts.map (·.length)

/-- The target is created, the deletion lists the collections, the build brings the page over,
and the deletion visits both. -/
private def deletedDuring : List Event :=
  [.build 1 [115] [116] true, .next 1, .scroll 1 [[1], [2]] false, .deleteEverywhere 2 [[1]],
    .next 2, .next 1, .next 1, .next 1, .next 2, .next 2, .next 2]

theorem deletion_reaches_target :
    ∃ s, run (step lengths) corpora deletedDuring = some s ∧ s.deleted = [[1]] ∧
      s.collections.keys = [[115], [116]] ∧
      ∀ name points, s.collections.lookup name = some points → [1] ∉ points := by
  obtain ⟨s, hrun, hte⟩ := exists_run_of_any
    (p := fun s : State ℕ ℕ => s.deleted = [[1]] ∧ s.collections.keys = [[115], [116]] ∧
      s.tasks.keys = [])
    (show (run (step lengths) corpora deletedDuring).any _ = true by decide +kernel)
  obtain ⟨hd, hk, ht⟩ := of_decide_eq_true hte
  have hdo : s.tasks = ∅ := by
    refine AList.ext ?_
    rw [AList.keys] at ht
    simpa [List.keys] using ht
  have hg : Guarded (step lengths) Spares corpora deletedDuring := by decide +kernel
  refine ⟨s, hrun, hd, hk, fun name points hl => ?_⟩
  exact deleted_ids_are_gone rfl hg hrun hdo hl (by rw [hd]; simp)

private def deletedBetween : List Event :=
  [.build 1 [115] [116] true, .next 1, .scroll 1 [[1], [2]] false, .next 1,
    .deleteEverywhere 2 [[1]], .next 2, .next 2, .next 2, .next 2, .next 1, .next 1]

private def deletedBefore : List Event :=
  [.build 1 [115] [116] true, .deleteEverywhere 2 [[1]], .next 2, .next 1,
    .scroll 1 [[1], [2]] false, .next 1, .next 1, .next 1, .next 2, .next 2]

theorem deleted_point_is_brought_back :
    (∃ s, run (step lengths) corpora deletedBetween = some s ∧ s.tasks.keys = [] ∧
      [1] ∈ s.deleted ∧ (s.pointsOf [116]).any (decide <| [1] ∈ ·) = true) ∧
    ∃ s, run (step lengths) corpora deletedBefore = some s ∧ s.tasks.keys = [] ∧
      [1] ∈ s.deleted ∧ (s.pointsOf [116]).any (decide <| [1] ∈ ·) = true := by
  obtain ⟨s, hrun, ht⟩ := exists_run_of_any
    (p := fun s : State ℕ ℕ => s.tasks.keys = [] ∧ [1] ∈ s.deleted ∧
      (s.pointsOf [116]).any (decide <| [1] ∈ ·) = true)
    (show (run (step lengths) corpora deletedBetween).any _ = true by decide +kernel)
  refine ⟨⟨s, hrun, of_decide_eq_true ht⟩, ?_⟩
  obtain ⟨s, hrun, ht⟩ := exists_run_of_any
    (p := fun s : State ℕ ℕ => s.tasks.keys = [] ∧ [1] ∈ s.deleted ∧
      (s.pointsOf [116]).any (decide <| [1] ∈ ·) = true)
    (show (run (step lengths) corpora deletedBefore).any _ = true by decide +kernel)
  exact ⟨s, hrun, of_decide_eq_true ht⟩

end Aizzak.CorpusDeletions
