import Aizzak.VectorCollections

/-!
The purge of a deleted workspace: its vector collections, its objects, its rows schema by schema,
and last the row that says it is purged. A run may be cut off between any two of these and a later
run starts over; every one of them only removes. The list names two collections: what was kept in
another one, for a regime that found the workspace without the unrevisioned collection or with
somebody else's, is not on it.
-/
namespace Aizzak.WorkspacePurge

open EventRuns KeyedTables VectorCollections List

structure SchemaSpec where
  schema : String
  tables : List String
deriving DecidableEq

def schemaOrder : List SchemaSpec :=
  [⟨"knowledge", ["knowledge.summaries", "knowledge.chunks", "knowledge.parent_chunks",
      "knowledge.reindex_job_items", "knowledge.documents", "knowledge.reindex_jobs",
      "knowledge.summary_jobs"]⟩,
    ⟨"conversations", ["conversations.messages", "conversations.conversation_files",
      "conversations.conversations"]⟩,
    ⟨"media", ["media.media_jobs"]⟩,
    ⟨"memory", ["memory.memory_items"]⟩,
    ⟨"electrical", ["electrical.drawings_page_stages", "electrical.drawings_pages",
      "electrical.drawings_characterizations", "electrical.drawings_jobs",
      "electrical.drawings_profile_versions", "electrical.drawings_documents",
      "electrical.drawings_projects"]⟩,
    ⟨"files", ["files.files"]⟩,
    ⟨"integrations", ["integrations.mcp_servers", "integrations.connections"]⟩,
    ⟨"credentials", ["credentials.credentials"]⟩,
    ⟨"usage", ["usage.usage_records", "usage.usage_rollups", "usage.limits",
      "usage.reservations"]⟩,
    ⟨"access", ["access.role_assignments"]⟩,
    ⟨"workspace", ["workspace.user_presence"]⟩,
    ⟨"spaces", ["spaces.spaces"]⟩]

structure Row where
  table : String
  id : String
  workspace : Option WorkspaceId
deriving DecidableEq

inductive UserStatus where
  | active
  | disabled
  | deleted
deriving DecidableEq

structure User where
  id : String
  workspace : WorkspaceId
  status : UserStatus
  deletedAt : Option ℕ
deriving DecidableEq

inductive WorkspaceStatus where
  | active
  | suspended
  | archived
deriving DecidableEq

structure Workspace where
  status : WorkspaceStatus
  purgedAt : Option ℕ

structure StoreResult where
  store : String
  affected : ℕ

structure AuditRow where
  action : String
  actorUserId : String
  targetUserId : String
  workspace : WorkspaceId
  stores : List StoreResult
  createdAt : ℕ

structure PurgeCandidate where
  workspace : WorkspaceId
  targetUserId : String
  actorUserId : String
  deletedAt : ℕ

inductive Sweep where
  | drop (collection : String)
  | removeObjects
  | deleteRows (spec : SchemaSpec)
deriving DecidableEq

def sweeps (ws : WorkspaceId) : List Sweep :=
  [.drop (knowledgeCollection ws), .drop (memoryCollection ws), .removeObjects] ++
    schemaOrder.map .deleteRows

structure PurgeRun where
  candidate : PurgeCandidate
  dryRun : Bool
  todo : List Sweep
  results : List StoreResult

/-- The stores and the tables, the candidates still to do, the run under way and the
workspaces runs were started for. -/
structure State where
  store : Store
  objects : List String
  rows : List Row
  users : List User
  workspaces : AList fun _ : WorkspaceId => Workspace
  audit : List AuditRow
  queue : List PurgeCandidate
  dryRun : Bool
  run : Option PurgeRun
  chosen : List WorkspaceId

def State.init : State := ⟨Store.init, [], [], [], ∅, [], [], false, none, []⟩

def objectRoot (ws : WorkspaceId) : String := ws.val ++ "/"

def isHex (c : Char) : Bool := isLowerHex c.toLower

/-- `delete_prefix` takes nothing but `<uuid>/`. -/
def isWorkspaceRoot (root : String) : Bool :=
  matchesPattern isHex (uuidPattern ++ ['/']) root.toList

inductive History where
  | vectors (write : Write)
  | putObject (ws : WorkspaceId) (fileId : String)
  | removeObject (key : String)
  | insertRow (row : Row)
  | deleteRow (row : Row)
  | saveUser (user : User)
  | createWorkspace (ws : WorkspaceId)
  | recordAudit (row : AuditRow)

def historyStep (s : State) : History → Option State
  | .vectors write =>
    (VectorCollections.step s.store write).map fun store => { s with store := store }
  | .putObject ws fileId => some { s with objects := (objectRoot ws ++ fileId) :: s.objects }
  | .removeObject key => some { s with objects := s.objects.filter (· ≠ key) }
  | .insertRow row => some { s with rows := row :: s.rows }
  | .deleteRow row => some { s with rows := s.rows.filter (· ≠ row) }
  | .saveUser user => some { s with users := user :: s.users.filter (·.id ≠ user.id) }
  | .createWorkspace ws =>
    if ws ∈ s.workspaces then none
    else some { s with workspaces := s.workspaces.insert ws ⟨.active, none⟩ }
  | .recordAudit row => some { s with audit := row :: s.audit }

def deletedLater (a b : User) : Bool :=
  match a.deletedAt, b.deletedAt with
  | none, _ => true
  | some _, none => false
  | some x, some y => y ≤ x

def lastDeleted (users : List User) (ws : WorkspaceId) : Option User :=
  ((users.filter fun user => user.workspace = ws ∧ user.status = .deleted).mergeSort
    deletedLater).head?

def deletionActor (audit : List AuditRow) (userId : String) : Option String :=
  (((audit.filter fun row => row.action = "account.deleted" ∧ row.targetUserId = userId).mergeSort
    fun a b => b.createdAt ≤ a.createdAt).head?).map (·.actorUserId)

def isEligible (s : State) (cutoff : ℕ) (ws : WorkspaceId) (deletedAt : ℕ) : Bool :=
  deletedAt < cutoff ∧ (∀ user ∈ s.users, user.workspace = ws → user.status = .deleted) ∧
    (s.workspaces.lookup ws).any fun row => row.purgedAt = none

def eligible (s : State) (cutoff : ℕ) (ws : WorkspaceId) : Option (User × ℕ) :=
  (lastDeleted s.users ws).bind fun user =>
    user.deletedAt.bind fun deletedAt =>
      if isEligible s cutoff ws deletedAt then some (user, deletedAt) else none

def findCandidates (s : State) (now retention : ℕ) (limit : Option ℕ)
    (only : Option WorkspaceId) : List PurgeCandidate :=
  let workspaces := (s.users.map (·.workspace)).eraseDups.filter fun ws => only.all (· = ws)
  let found := (workspaces.filterMap (eligible s (now - retention))).mergeSort
    fun a b => a.2 ≤ b.2
  let candidates := found.filterMap fun (user, deletedAt) =>
    (deletionActor s.audit user.id).map fun actor => ⟨user.workspace, user.id, actor, deletedAt⟩
  match limit with
  | none => candidates
  | some limit => candidates.take (max 1 limit)

namespace State

def keysUnder (s : State) (root : String) : List String := s.objects.filter (beginsWith root)

def rowsOf (s : State) (table : String) (ws : WorkspaceId) : List Row :=
  s.rows.filter fun row => row.table = table ∧ row.workspace = some ws

def sweep (s : State) (ws : WorkspaceId) : Sweep → State
  | .drop collection => { s with store := (s.store.dropCollection collection).2 }
  | .removeObjects =>
    if isWorkspaceRoot (objectRoot ws) then
      { s with objects := s.objects.filter fun key => !beginsWith (objectRoot ws) key }
    else s
  | .deleteRows spec =>
    { s with rows := s.rows.filter fun row =>
        ¬ (row.table ∈ spec.tables ∧ row.workspace = some ws) }

def counts (s : State) (ws : WorkspaceId) : Sweep → List StoreResult
  | .drop collection =>
    [⟨"qdrant:" ++ collection, if s.store.collectionExists collection then 1 else 0⟩]
  | .removeObjects => [⟨"minio:" ++ objectRoot ws, (s.keysUnder (objectRoot ws)).length⟩]
  | .deleteRows spec => spec.tables.map fun table => ⟨table, (s.rowsOf table ws).length⟩

def finalize (s : State) (run : PurgeRun) (now : ℕ) : State :=
  let ws := run.candidate.workspace
  { s with
    workspaces := match s.workspaces.lookup ws with
      | none => s.workspaces
      | some _ => s.workspaces.insert ws ⟨.archived, some now⟩
    audit := ⟨"workspace.purged", run.candidate.actorUserId, run.candidate.targetUserId, ws,
      run.results, now⟩ :: s.audit
    run := none }

end State

inductive Event where
  | scan (now retention : ℕ) (limit : Option ℕ) (only : Option WorkspaceId) (dryRun : Bool)
  | start
  | advance (now : ℕ)
  | removePartially (keys : List String)
  | cutOff

/-- A scan, the start of a run, one item of it or its end. A failing item ends the process;
what it had removed by then stays removed. -/
def step (s : State) : Event → Option State
  | .scan now retention limit only dryRun =>
    if s.run.isSome then none
    else some { s with queue := findCandidates s now retention limit only, dryRun := dryRun }
  | .start =>
    match s.run, s.queue with
    | none, candidate :: rest =>
      some { s with
        queue := rest
        run := some ⟨candidate, s.dryRun, sweeps candidate.workspace, []⟩
        chosen := candidate.workspace :: s.chosen }
    | _, _ => none
  | .advance now =>
    s.run.map fun run =>
      match run.todo with
      | [] => if run.dryRun then { s with run := none } else s.finalize run now
      | item :: rest =>
        let ws := run.candidate.workspace
        let next := { run with todo := rest, results := run.results ++ s.counts ws item }
        if run.dryRun then { s with run := some next }
        else { s.sweep ws item with run := some next }
  | .removePartially keys =>
    match s.run with
    | some run =>
      match run.todo, run.dryRun with
      | .removeObjects :: _, false =>
        let root := objectRoot run.candidate.workspace
        some { s with
          objects := s.objects.filter fun key => !(beginsWith root key && key ∈ keys)
          run := none
          queue := [] }
      | _, _ => none
    | none => none
  | .cutOff => some { s with run := none, queue := [] }

def Cleared (s : State) (ws : WorkspaceId) : Sweep → Prop
  | .drop collection => collection ∉ s.store.collections
  | .removeObjects => ∀ key ∈ s.objects, beginsWith (objectRoot ws) key = false
  | .deleteRows spec => ∀ row ∈ s.rows, row.workspace = some ws → row.table ∉ spec.tables

structure Reduced (s t : State) : Prop where
  collections : ∀ name content, t.store.collections.lookup name = some content →
    s.store.collections.lookup name = some content
  objects : ∀ key ∈ t.objects, key ∈ s.objects
  rows : ∀ row ∈ t.rows, row ∈ s.rows

theorem Reduced.refl (s : State) : Reduced s s :=
  ⟨fun _ _ h => h, fun _ h => h, fun _ h => h⟩

variable {s t : State}

theorem Reduced.trans {u : State} (h : Reduced s t) (h' : Reduced t u) : Reduced s u :=
  ⟨fun n c hl => h.collections n c (h'.collections n c hl),
    fun key hkey => h.objects key (h'.objects key hkey),
    fun row hrow => h.rows row (h'.rows row hrow)⟩

variable {ws : WorkspaceId} {item : Sweep}

theorem Cleared.reduced (hs : Cleared s ws item) (h : Reduced s t) : Cleared t ws item := by
  cases item with
  | drop collection =>
    intro hmem
    obtain ⟨content, hcontent⟩ := Option.isSome_iff_exists.mp (AList.lookup_isSome.mpr hmem)
    exact hs (mem_of_lookup (h.collections collection content hcontent))
  | removeObjects => exact fun key hkey => hs key (h.objects key hkey)
  | deleteRows spec => exact fun row hrow => hs row (h.rows row hrow)

/-- What is kept for a workspace, in the collections, the objects and the rows. -/
structure Kept (ws : WorkspaceId) (s t : State) : Prop where
  collections : ∀ name content, s.store.collections.lookup name = some content →
    ws ∈ content.heldFor → t.store.collections.lookup name = some content
  objects : ∀ key ∈ s.objects, beginsWith (objectRoot ws) key = true → key ∈ t.objects
  rows : ∀ row ∈ s.rows, row.workspace = some ws → row ∈ t.rows

theorem Kept.refl (ws : WorkspaceId) (s : State) : Kept ws s s :=
  ⟨fun _ _ h _ => h, fun _ h _ => h, fun _ h _ => h⟩

theorem Kept.trans {u : State} (h : Kept ws s t) (h' : Kept ws t u) :
    Kept ws s u :=
  ⟨fun n c hl hws => h'.collections n c (h.collections n c hl hws) hws,
    fun key hkey hr => h'.objects key (h.objects key hkey hr) hr,
    fun row hrow hws => h'.rows row (h.rows row hrow hws) hws⟩

theorem isWorkspaceRoot_objectRoot (ws : WorkspaceId) : isWorkspaceRoot (objectRoot ws) = true := by
  have hl : ∀ c, isLowerHex c = true → isHex c = true := by
    intro c hc
    simp only [isLowerHex, decide_eq_true_eq] at hc
    have hall : "0123456789abcdef".toList.all isHex = true := by decide
    exact all_eq_true.mp hall c hc
  have hu := ws.property
  simp only [isUuid, matchesPattern, Bool.and_eq_true, beq_iff_eq, all_eq_true] at hu
  obtain ⟨hle, hp⟩ := hu
  simp only [isWorkspaceRoot, matchesPattern, objectRoot, String.toList_append, Bool.and_eq_true,
    beq_iff_eq, all_eq_true, length_append, hle]
  refine ⟨rfl, ?_⟩
  rw [zip_append hle]
  intro pair hpa
  rcases mem_append.mp hpa with hpa | hpa
  · have hold := hp pair hpa
    split_ifs at hold ⊢ with hd
    · exact hl pair.1 hold
    · exact hold
  · obtain rfl : pair = ('/', '/') := by simpa using hpa
    rfl

theorem root_unique {a b : WorkspaceId} {key : String}
    (ha : beginsWith (objectRoot a) key = true) (hb : beginsWith (objectRoot b) key = true) :
    a = b := by
  simp only [beginsWith, isPrefixOf_iff_prefix, objectRoot, String.toList_append] at ha hb
  obtain ⟨s, hs⟩ := ha
  obtain ⟨t, ht⟩ := hb
  rw [← ht, append_assoc, append_assoc] at hs
  exact workspace_eq_of_append hs

theorem dropCollection_collections (store : Store) (name : String) :
    (store.dropCollection name).2.collections = store.collections.erase name := by
  unfold Store.dropCollection
  split_ifs with hexists
  · rfl
  · have hm : name ∉ store.collections := by
      intro hmem
      simp [Store.collectionExists, Store.physical, hmem] at hexists
    exact (AList.ext (by simp [AList.erase, kerase_of_notMem_keys hm])).symm

theorem sweep_reduced (s : State) (ws : WorkspaceId) (item : Sweep) :
    Reduced s (s.sweep ws item) := by
  cases item with
  | drop collection =>
    refine ⟨?_, fun _ h => h, fun _ h => h⟩
    intro n content hl
    simp only [State.sweep, dropCollection_collections] at hl
    exact (lookup_erase_iff.mp hl).2
  | removeObjects =>
    simp only [State.sweep, isWorkspaceRoot_objectRoot, if_true]
    exact ⟨fun _ _ h => h, fun key hkey => mem_of_mem_filter hkey, fun _ h => h⟩
  | deleteRows spec =>
    exact ⟨fun _ _ h => h, fun _ h => h, fun row hrow => mem_of_mem_filter hrow⟩

theorem sweep_cleared (s : State) (ws : WorkspaceId) (item : Sweep) :
    Cleared (s.sweep ws item) ws item := by
  cases item with
  | drop collection =>
    simp only [Cleared, State.sweep, dropCollection_collections]
    simp
  | removeObjects =>
    simp only [Cleared, State.sweep, isWorkspaceRoot_objectRoot, if_true]
    intro key hkey
    simpa using (mem_filter.mp hkey).2
  | deleteRows spec =>
    intro row hrow hws ht
    have hk := (mem_filter.mp hrow).2
    simp [ht, hws] at hk

/-- A sweep touches nothing of another workspace. -/
theorem sweep_kept {other : WorkspaceId}
    (hs : ∀ name content, s.store.collections.lookup name = some content →
      ∀ owner ∈ content.heldFor, Belongs owner name) (hitem : item ∈ sweeps ws)
    (ho : other ≠ ws) : Kept other s (s.sweep ws item) := by
  cases item with
  | drop collection =>
    refine ⟨?_, fun _ h _ => h, fun _ h _ => h⟩
    intro n content hl hh
    simp only [State.sweep, dropCollection_collections]
    refine lookup_erase_iff.mpr ⟨?_, hl⟩
    rintro rfl
    have hb : Belongs ws n := by
      simp only [sweeps, cons_append, nil_append, mem_cons, Sweep.drop.injEq,
        reduceCtorEq, mem_map, and_false, exists_false, or_false] at hitem
      exact hitem.imp id .inl
    exact ho ((hs n content hl other hh).unique hb)
  | removeObjects =>
    simp only [State.sweep, isWorkspaceRoot_objectRoot, if_true]
    refine ⟨fun _ _ h _ => h, ?_, fun _ h _ => h⟩
    intro key hkey hr
    refine mem_filter.mpr ⟨hkey, ?_⟩
    by_contra hu
    simp only [Bool.not_eq_true', Bool.not_eq_false] at hu
    exact ho (root_unique hr hu)
  | deleteRows spec =>
    refine ⟨fun _ _ h _ => h, fun _ h _ => h, ?_⟩
    intro row hrow hws
    refine mem_filter.mpr ⟨hrow, ?_⟩
    simp [hws, ho]

theorem sweep_frame (s : State) (ws : WorkspaceId) (item : Sweep) :
    (s.sweep ws item).users = s.users ∧ (s.sweep ws item).workspaces = s.workspaces ∧
      (s.sweep ws item).queue = s.queue ∧ (s.sweep ws item).chosen = s.chosen := by
  cases item with
  | drop collection => exact ⟨rfl, rfl, rfl, rfl⟩
  | removeObjects =>
    simp only [State.sweep]
    split_ifs <;> exact ⟨rfl, rfl, rfl, rfl⟩
  | deleteRows spec => exact ⟨rfl, rfl, rfl, rfl⟩

theorem findCandidates_users {now retention : ℕ} {limit : Option ℕ} {only : Option WorkspaceId}
    {candidate : PurgeCandidate} (h : candidate ∈ findCandidates s now retention limit only) :
    ∀ user ∈ s.users, user.workspace = candidate.workspace → user.status = .deleted := by
  have hf : candidate ∈ findCandidates s now retention none only := by
    cases limit with
    | none => exact h
    | some limit => exact mem_of_mem_take h
  obtain ⟨⟨user, deletedAt⟩, hs, ha⟩ := mem_filterMap.mp hf
  obtain ⟨actor, -, rfl⟩ := Option.map_eq_some_iff.mp ha
  obtain ⟨ws, -, he⟩ := mem_filterMap.mp (mem_mergeSort.mp hs)
  obtain ⟨last, hl, hb⟩ := Option.bind_eq_some_iff.mp he
  obtain ⟨at', -, hif⟩ := Option.bind_eq_some_iff.mp hb
  split_ifs at hif with hmay
  obtain ⟨rfl, rfl⟩ := Prod.mk.inj (Option.some.inj hif)
  have hws : last.workspace = ws := by
    have hmem := mem_mergeSort.mp (mem_of_mem_head? hl)
    exact (of_decide_eq_true (mem_filter.mp hmem).2).1
  exact hws ▸ (of_decide_eq_true hmay).2.1

structure Purging (origin s : State) : Prop where
  reduced : Reduced origin s
  users : s.users = origin.users
  todo : ∀ run, s.run = some run → ∀ item ∈ run.todo, item ∈ sweeps run.candidate.workspace
  cleared : ∀ run, s.run = some run → run.dryRun = false →
    ∀ item ∈ sweeps run.candidate.workspace,
      item ∈ run.todo ∨ Cleared s run.candidate.workspace item
  purged : ∀ ws row, s.workspaces.lookup ws = some row → row.purgedAt ≠ none →
    ∀ item ∈ sweeps ws, Cleared s ws item
  running : ∀ run, s.run = some run → run.candidate.workspace ∈ s.chosen
  queued : ∀ candidate ∈ s.queue, ∀ user ∈ origin.users,
    user.workspace = candidate.workspace → user.status = .deleted
  chosen : ∀ ws ∈ s.chosen, ∀ user ∈ origin.users, user.workspace = ws → user.status = .deleted
  kept : ∀ ws, ws ∉ s.chosen → Kept ws origin s

variable {origin : State}

/-- A step that only removes, and that of nothing but the chosen workspaces, keeps what was
cleared, however the run ends with it. -/
theorem Purging.abort (hs : Purging origin s) (hr : Reduced s t)
    (hk : ∀ ws, ws ∉ s.chosen → Kept ws s t) (hrun : t.run = none) (hq : t.queue = [])
    (hu : t.users = s.users) (hw : t.workspaces = s.workspaces)
    (hc : t.chosen = s.chosen) : Purging origin t where
  reduced := hs.reduced.trans hr
  users := hu.trans hs.users
  todo := by simp [hrun]
  cleared := by simp [hrun]
  purged := by
    intro ws row hrow hp item hitem
    exact (hs.purged ws row (hw ▸ hrow) hp item hitem).reduced hr
  running := by simp [hrun]
  queued := by simp [hq]
  chosen := hc ▸ hs.chosen
  kept := by
    intro ws hws
    rw [hc] at hws
    exact (hs.kept ws hws).trans (hk ws hws)

theorem Purging.belongs (hs : Purging origin s) (h : Named origin.store) :
    ∀ name content, s.store.collections.lookup name = some content →
      ∀ owner ∈ content.heldFor, Belongs owner name :=
  fun name content hl => h.held name content (hs.reduced.collections name content hl)

/-- Doing an item of the list keeps the purge on course. -/
theorem Purging.sweep (hs : Purging origin s) (ho : Named origin.store) {run : PurgeRun}
    (hrun : s.run = some run) {rest : List Sweep} (ht : run.todo = item :: rest)
    (results : List StoreResult) :
    Purging origin { s.sweep run.candidate.workspace item with
      run := some { run with todo := rest, results := results } } := by
  have hitem : item ∈ sweeps run.candidate.workspace :=
    hs.todo run hrun item (ht ▸ mem_cons_self ..)
  have hr := sweep_reduced s run.candidate.workspace item
  obtain ⟨hu, hwo, hq, hc⟩ := sweep_frame s run.candidate.workspace item
  have hsa : ∀ ws swept, Cleared s ws swept →
      Cleared (s.sweep run.candidate.workspace item) ws swept :=
    fun ws swept hsw => hsw.reduced hr
  refine ⟨⟨?_, ?_, ?_⟩, hu.trans hs.users, ?_, ?_, ?_, ?_, ?_, ?_, ?_⟩
  · exact (hs.reduced.trans hr).collections
  · exact (hs.reduced.trans hr).objects
  · exact (hs.reduced.trans hr).rows
  · intro other hot swept hsw
    cases hot
    exact hs.todo run hrun swept (ht ▸ mem_cons_of_mem _ hsw)
  · intro other hot hdry swept hsw
    cases hot
    rcases hs.cleared run hrun hdry swept hsw with hw | hd
    · rw [ht] at hw
      rcases mem_cons.mp hw with rfl | hw
      · exact .inr (sweep_cleared s run.candidate.workspace swept)
      · exact .inl hw
    · exact .inr (hsa _ swept hd)
  · intro ws row hrow hp swept hsw
    exact hsa ws swept (hs.purged ws row (hwo ▸ hrow) hp swept hsw)
  · intro other hot
    cases hot
    exact hc.symm ▸ hs.running run hrun
  · exact hq.symm ▸ hs.queued
  · exact hc.symm ▸ hs.chosen
  · intro ws hws
    have hnew : ws ∉ s.chosen := by rwa [← hc]
    have hne : ws ≠ run.candidate.workspace := by
      rintro rfl
      exact hnew (hs.running run hrun)
    have hk := (hs.kept ws hnew).trans (sweep_kept (hs.belongs ho) hitem hne)
    exact ⟨hk.collections, hk.objects, hk.rows⟩

theorem Purging.finalize (hs : Purging origin s) {run : PurgeRun} (hrun : s.run = some run)
    (hdry : run.dryRun = false) (ht : run.todo = []) (now : ℕ) :
    Purging origin (s.finalize run now) := by
  have hall : ∀ item ∈ sweeps run.candidate.workspace, Cleared s run.candidate.workspace item := by
    intro item hitem
    rcases hs.cleared run hrun hdry item hitem with hw | hd
    · simp [ht] at hw
    · exact hd
  refine ⟨⟨hs.reduced.collections, hs.reduced.objects, hs.reduced.rows⟩, hs.users, nofun, nofun,
    ?_, nofun, hs.queued, hs.chosen, ?_⟩
  · intro ws row hrow hp item hitem
    have hc : Cleared s ws item := by
      simp only [State.finalize] at hrow
      split at hrow
      next => exact hs.purged ws row hrow hp item hitem
      next =>
        rcases lookup_insert_iff.mp hrow with ⟨rfl, -⟩ | ⟨-, hold⟩
        · exact hall item hitem
        · exact hs.purged ws row hold hp item hitem
    exact hc.reduced ⟨fun _ _ h => h, fun _ h => h, fun _ h => h⟩
  · intro ws hws
    have hk := hs.kept ws hws
    exact ⟨hk.collections, hk.objects, hk.rows⟩

/-- A change of nothing but the bookkeeping of the runs. -/
theorem Purging.frame (hs : Purging origin s) {queue : List PurgeCandidate} {dryRun : Bool}
    {run : Option PurgeRun} {chosen : List WorkspaceId}
    (ht : ∀ r, run = some r → ∀ item ∈ r.todo, item ∈ sweeps r.candidate.workspace)
    (hc : ∀ r, run = some r → r.dryRun = false → ∀ item ∈ sweeps r.candidate.workspace,
      item ∈ r.todo ∨ Cleared s r.candidate.workspace item)
    (hru : ∀ r, run = some r → r.candidate.workspace ∈ chosen)
    (hq : ∀ candidate ∈ queue, ∀ user ∈ origin.users,
      user.workspace = candidate.workspace → user.status = .deleted)
    (hch : ∀ ws ∈ chosen, ∀ user ∈ origin.users, user.workspace = ws → user.status = .deleted)
    (hm : ∀ ws ∈ s.chosen, ws ∈ chosen) :
    Purging origin { s with queue := queue, dryRun := dryRun, run := run, chosen := chosen } := by
  have hsa : Reduced s
      { s with queue := queue, dryRun := dryRun, run := run, chosen := chosen } :=
    ⟨fun _ _ h => h, fun _ h => h, fun _ h => h⟩
  refine ⟨hs.reduced.trans hsa, hs.users, ht, ?_, ?_, hru, hq, hch, ?_⟩
  · intro r hr hdry item hitem
    exact (hc r hr hdry item hitem).imp_right fun hd => hd.reduced hsa
  · intro ws row hrow hp item hitem
    exact (hs.purged ws row hrow hp item hitem).reduced hsa
  · intro ws hws
    have hk := hs.kept ws fun hmem => hws (hm ws hmem)
    exact ⟨hk.collections, hk.objects, hk.rows⟩

/-- A purge takes from its own workspace alone. -/
theorem step_purging (ho : Named origin.store) (s : State) (e : Event) (t : State)
    (hs : Purging origin s) (ht : step s e = some t) : Purging origin t := by
  cases e with
  | scan now retention limit only dryRun =>
    simp only [step] at ht
    split_ifs at ht with hru
    have hn : s.run = none := by simpa using hru
    refine Option.some.inj ht ▸ hs.frame ?_ ?_ ?_ ?_ hs.chosen fun _ h => h
    · simp [hn]
    · simp [hn]
    · simp [hn]
    · intro candidate hc
      exact hs.users ▸ findCandidates_users hc
  | start =>
    simp only [step] at ht
    split at ht
    next candidate rest hrun hq =>
      have hc := hs.queued candidate (hq ▸ mem_cons_self ..)
      refine Option.some.inj ht ▸ hs.frame ?_ ?_ ?_ ?_ ?_ fun _ h => mem_cons_of_mem _ h
      · intro r hr item hitem
        cases hr
        exact hitem
      · intro r hr _ item hitem
        cases hr
        exact .inl hitem
      · intro r hr
        cases hr
        exact mem_cons_self ..
      · intro other hot
        exact hs.queued other (hq ▸ mem_cons_of_mem _ hot)
      · intro ws hws
        rcases mem_cons.mp hws with rfl | hws
        · exact hc
        · exact hs.chosen ws hws
    next => cases ht
  | advance now =>
    obtain ⟨run, hrun, rfl⟩ := Option.map_eq_some_iff.mp ht
    split
    next hto =>
      split_ifs with hdry
      · exact hs.frame nofun nofun nofun hs.queued hs.chosen fun _ h => h
      · exact hs.finalize hrun (by simpa using hdry) hto now
    next item rest hto =>
      split_ifs with hdry
      · refine hs.frame ?_ ?_ ?_ hs.queued hs.chosen fun _ h => h
        · intro r hr swept hsw
          cases hr
          exact hs.todo run hrun swept (hto ▸ mem_cons_of_mem _ hsw)
        · intro r hr hrl
          cases hr
          simp [hdry] at hrl
        · intro r hr
          cases hr
          exact hs.running run hrun
      · exact hs.sweep ho hrun hto _
  | removePartially keys =>
    simp only [step] at ht
    split at ht
    next run hrun =>
      split at ht
      next rest hto hdry =>
        cases ht
        refine hs.abort ?_ ?_ rfl rfl rfl rfl rfl
        · exact ⟨fun _ _ h => h, fun key hkey => mem_of_mem_filter hkey, fun _ h => h⟩
        · intro ws hws
          refine ⟨fun _ _ h _ => h, ?_, fun _ h _ => h⟩
          intro key hkey hro
          refine mem_filter.mpr ⟨hkey, ?_⟩
          by_contra hre
          simp only [Bool.not_eq_true', Bool.not_eq_false, Bool.and_eq_true] at hre
          exact hws (root_unique hro hre.1 ▸ hs.running run hrun)
      next => cases ht
    next => cases ht
  | cutOff =>
    cases ht
    exact hs.abort ⟨fun _ _ h => h, fun _ h => h, fun _ h => h⟩
      (fun ws _ => ⟨fun _ _ h _ => h, fun _ h _ => h, fun _ h _ => h⟩) rfl rfl rfl rfl rfl

/-- The document vectors of the workspace are written to its unrevisioned collection. -/
def ReachesListed (ws : WorkspaceId) (s : State) : History → Prop
  | .vectors write => ReachesUnrevisioned ws s.store write
  | _ => True

instance (ws : WorkspaceId) (s : State) : ∀ e, Decidable (ReachesListed ws s e)
  | .vectors write => inferInstanceAs (Decidable (ReachesUnrevisioned ws s.store write))
  | .putObject _ _ | .removeObject _ | .insertRow _ | .deleteRow _ | .saveUser _
  | .createWorkspace _ | .recordAudit _ => .isTrue trivial

structure Written (ws : WorkspaceId) (s : State) : Prop where
  named : Named s.store
  unrevisioned : Unrevisioned ws s.store
  unpurged : ∀ owner row, s.workspaces.lookup owner = some row → row.purgedAt = none
  idle : s.run = none ∧ s.queue = [] ∧ s.chosen = []

theorem historyStep_written (ws : WorkspaceId) (s : State) (e : History) (t : State)
    (hs : Written ws s) (hok : ReachesListed ws s e) (ht : historyStep s e = some t) :
    Written ws t := by
  cases e with
  | vectors write =>
    obtain ⟨store, hst, rfl⟩ := Option.map_eq_some_iff.mp ht
    exact ⟨step_named s.store write store hs.named hst,
      step_unrevisioned ws s.store write store hs.named hs.unrevisioned hok hst,
      hs.unpurged, hs.idle⟩
  | putObject owner fileId | removeObject key | insertRow row | deleteRow row | saveUser user
  | recordAudit row =>
    cases ht
    exact ⟨hs.named, hs.unrevisioned, hs.unpurged, hs.idle⟩
  | createWorkspace owner =>
    simp only [historyStep] at ht
    split_ifs at ht
    cases ht
    exact ⟨hs.named, hs.unrevisioned, forall_insert rfl hs.unpurged, hs.idle⟩

theorem Written.purging (hs : Written ws s) : Purging s s := by
  obtain ⟨hrun, hq, hc⟩ := hs.idle
  refine ⟨.refl s, rfl, by simp [hrun], by simp [hrun], ?_, by simp [hrun], by simp [hq],
    by simp [hc], fun owner _ => .refl owner s⟩
  intro owner row hrow hp
  exact absurd (hs.unpurged owner row hrow) hp

/-- Nothing of the workspace is left in any store or swept table. -/
structure Empty (ws : WorkspaceId) (s : State) : Prop where
  collections : ∀ name content, s.store.collections.lookup name = some content →
    ws ∉ content.heldFor
  objects : ∀ key ∈ s.objects, beginsWith (objectRoot ws) key = false
  rows : ∀ spec ∈ schemaOrder, ∀ row ∈ s.rows, row.workspace = some ws → row.table ∉ spec.tables

theorem Purging.empty (ho : Written ws origin) (hs : Purging origin s)
    (hc : ∀ item ∈ sweeps ws, Cleared s ws item) : Empty ws s := by
  refine ⟨?_, hc .removeObjects (by simp [sweeps]), ?_⟩
  · intro name content hl hh
    have hmem : name ∈ s.store.collections := mem_of_lookup hl
    have hold := hs.reduced.collections name content hl
    rcases ho.unrevisioned name content hold hh with rfl | rfl
    · exact hc (.drop (knowledgeCollection ws)) (by simp [sweeps]) hmem
    · exact hc (.drop (memoryCollection ws)) (by simp [sweeps]) hmem
  · intro spec hsp
    exact hc (.deleteRows spec) (by simp [sweeps, hsp])

/-- Whatever writers left behind for a workspace, as long as its document vectors went to the
unrevisioned collection, and however often the purges of workspaces are cut off and repeated:
once `purged_at` is stored nothing of the workspace is left; what belongs to a workspace that
was never chosen is as it was; and none is chosen that has a user who is not deleted. -/
theorem unrevisioned_workspace_is_purged_whole (ws : WorkspaceId) (history : List History)
    (purges : List Event) (s t : State)
    (hok : Guarded historyStep (ReachesListed ws) State.init history)
    (hs : run historyStep State.init history = some s) (ht : run step s purges = some t) :
    (∀ row, t.workspaces.lookup ws = some row → row.purgedAt ≠ none → Empty ws t) ∧
    (∀ other, other ∉ t.chosen → Kept other s t) ∧
    ∀ chosen ∈ t.chosen, ∀ user ∈ s.users, user.workspace = chosen → user.status = .deleted := by
  have hi : Written ws State.init := by
    refine ⟨Named.init, ?_, ?_, rfl, rfl, rfl⟩
    · intro name content hl
      simp [State.init, Store.init] at hl
    · simp [State.init]
  have hw := run_invariant (historyStep_written ws) hok hs hi
  have hp := run_invariant_of_step (step_purging hw.named) ht hw.purging
  refine ⟨?_, hp.kept, hp.chosen⟩
  intro row hrow hpu
  exact hp.empty hw (hp.purged ws row hrow hpu)

private def first : WorkspaceId := ⟨"00000000-0000-0000-0000-000000000001", by decide +kernel⟩

private def revA : Revision := ⟨"aaaaaaaaaaaa", by decide +kernel⟩

private def deletedAccount (ws : WorkspaceId) (user : String) : List History :=
  [.createWorkspace ws, .saveUser ⟨user, ws, .active, none⟩, .saveUser ⟨user, ws, .deleted, some 5⟩,
    .recordAudit ⟨"account.deleted", "admin", user, ws, [], 5⟩]

private def wholePurge : List Event :=
  .scan 100 30 none none false :: .start :: List.replicate 16 (.advance 100)

private def adopted : List History :=
  [.vectors (.index first none 3 ["p1"]), .vectors (.adopt first revA 3),
    .vectors (.index first (some revA) 3 ["p2"]), .vectors (.remember first 3 "m1"),
    .putObject first "f1", .insertRow ⟨"files.files", "f1", some first⟩] ++
  deletedAccount first "u1"

private def cutOffOnce : List Event :=
  [.scan 100 30 none none false, .start, .advance 100, .cutOff] ++ wholePurge

theorem adopted_workspace_is_purged :
    Guarded historyStep (ReachesListed first) State.init adopted ∧
    ∃ s t, run historyStep State.init adopted = some s ∧ run step s cutOffOnce = some t ∧
      (∃ row, t.workspaces.lookup first = some row ∧ row.purgedAt = some 100) ∧ Empty first t := by
  have hok : Guarded historyStep (ReachesListed first) State.init adopted := by decide +kernel
  obtain ⟨s, hs, hte⟩ := exists_run_of_any
    (p := fun s : State => (run step s cutOffOnce).any fun t =>
      (t.workspaces.lookup first).any (·.purgedAt = some 100))
    (show (run historyStep State.init adopted).any _ = true by decide +kernel)
  simp only [Option.any_eq_true, decide_eq_true_eq] at hte
  obtain ⟨t, ht, row, hrow, hp⟩ := hte
  have he := (unrevisioned_workspace_is_purged_whole first adopted cutOffOnce s t hok hs ht).1
    row hrow (by simp [hp])
  exact ⟨hok, s, t, hs, ht, ⟨row, hrow, hp⟩, he⟩

private def born : List History :=
  .vectors (.index first (some revA) 3 ["p1"]) :: deletedAccount first "u1"

theorem born_revisioned_workspace_keeps_vectors :
    ∃ s t, run historyStep State.init born = some s ∧ run step s wholePurge = some t ∧
      (∃ row, t.workspaces.lookup first = some row ∧ row.purgedAt = some 100) ∧
      ∃ content, t.store.collections.lookup (knowledgeCollectionRevision first revA) =
        some content ∧ first ∈ content.heldFor := by
  obtain ⟨s, hs, hte⟩ := exists_run_of_any
    (p := fun s : State => (run step s wholePurge).any fun t =>
      (t.workspaces.lookup first).any (·.purgedAt = some 100) &&
      (t.store.collections.lookup (knowledgeCollectionRevision first revA)).any
        fun content => first ∈ content.heldFor)
    (show (run historyStep State.init born).any _ = true by decide +kernel)
  simp only [Option.any_eq_true, Bool.and_eq_true, decide_eq_true_eq] at hte
  obtain ⟨t, ht, hp, hk⟩ := hte
  exact ⟨s, t, hs, ht, hp, hk⟩

end Aizzak.WorkspacePurge
