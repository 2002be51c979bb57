import Aizzak.EventRuns
import Aizzak.KeyedTables

/-!
The collections of the vector store and their names. A workspace has a memory collection and,
for its documents, an unrevisioned collection from before the embedding revisions, an alias
over it for the regime that claimed it, or one collection for each regime that found none of
these. Which of them a write lands in is decided by what exists when it is made. A workspace
id is 36 characters long, so a name tells its workspace.
-/
namespace Aizzak.VectorCollections

open EventRuns KeyedTables Option

def isLowerHex (c : Char) : Bool := c ∈ "0123456789abcdef".toList

def uuidPattern : List Char := "hhhhhhhh-hhhh-hhhh-hhhh-hhhhhhhhhhhh".toList

def matchesPattern (digit : Char → Bool) (pattern text : List Char) : Bool :=
  text.length == pattern.length &&
    (text.zip pattern).all fun pair => if pair.2 = 'h' then digit pair.1 else pair.1 == pair.2

def isUuid (text : String) : Bool := matchesPattern isLowerHex uuidPattern text.toList

abbrev WorkspaceId := { id : String // isUuid id = true }

theorem length_workspaceId (ws : WorkspaceId) : ws.val.toList.length = 36 := by
  have hu := ws.property
  simp only [isUuid, matchesPattern, Bool.and_eq_true, beq_iff_eq] at hu
  exact hu.1

def revisionHexLen : ℕ := 12

def isRevision (text : String) : Bool :=
  text.toList.length == revisionHexLen && text.toList.all isLowerHex

abbrev Revision := { text : String // isRevision text = true }

def knowledgeCollection (ws : WorkspaceId) : String := "kn-" ++ ws.val

def memoryCollection (ws : WorkspaceId) : String := "mem-" ++ ws.val

def revised (name : String) (revision : Revision) : String := name ++ "-" ++ revision.val

def knowledgeCollectionRevision (ws : WorkspaceId) (revision : Revision) : String :=
  revised (knowledgeCollection ws) revision

def beginsWith (start text : String) : Bool := start.toList.isPrefixOf text.toList

/-- The names the writers give to what they keep for a workspace. -/
def Belongs (ws : WorkspaceId) (name : String) : Prop :=
  name = knowledgeCollection ws ∨ name = memoryCollection ws ∨
    ∃ revision, name = knowledgeCollectionRevision ws revision

variable {a b : WorkspaceId}

/-- Two texts that begin with ids of workspaces agree on the id. -/
theorem workspace_eq_of_append {s t : List Char} (h : a.val.toList ++ s = b.val.toList ++ t) :
    a = b := by
  have hl : a.val.toList.length = b.val.toList.length := by
    rw [length_workspaceId, length_workspaceId]
  exact Subtype.ext (String.toList_inj.mp (List.append_inj_left h hl))

theorem toList_knowledgeCollection (ws : WorkspaceId) :
    (knowledgeCollection ws).toList = 'k' :: 'n' :: '-' :: ws.val.toList := by
  simp [knowledgeCollection, String.toList_append]

theorem toList_memoryCollection (ws : WorkspaceId) :
    (memoryCollection ws).toList = 'm' :: 'e' :: 'm' :: '-' :: ws.val.toList := by
  simp [memoryCollection, String.toList_append]

theorem toList_knowledgeCollectionRevision (ws : WorkspaceId) (revision : Revision) :
    (knowledgeCollectionRevision ws revision).toList =
      'k' :: 'n' :: '-' :: (ws.val.toList ++ '-' :: revision.val.toList) := by
  simp [knowledgeCollectionRevision, revised, toList_knowledgeCollection, String.toList_append]

theorem knowledgeCollection_inj (h : knowledgeCollection a = knowledgeCollection b) : a = b := by
  have hl := congrArg String.toList h
  simp only [toList_knowledgeCollection, List.cons.injEq, true_and] at hl
  exact Subtype.ext (String.toList_inj.mp hl)

theorem memoryCollection_inj (h : memoryCollection a = memoryCollection b) : a = b := by
  have hl := congrArg String.toList h
  simp only [toList_memoryCollection, List.cons.injEq, true_and] at hl
  exact Subtype.ext (String.toList_inj.mp hl)

theorem knowledgeCollection_ne_memoryCollection (a b : WorkspaceId) :
    knowledgeCollection a ≠ memoryCollection b := by
  intro h
  have hl := congrArg String.toList h
  simp [toList_knowledgeCollection, toList_memoryCollection] at hl

theorem revision_ne_memoryCollection (a b : WorkspaceId) (revision : Revision) :
    knowledgeCollectionRevision a revision ≠ memoryCollection b := by
  intro h
  have hl := congrArg String.toList h
  simp [toList_knowledgeCollectionRevision, toList_memoryCollection] at hl

/-- A revisioned name is longer than any unrevisioned one. -/
theorem revision_ne_knowledgeCollection (a b : WorkspaceId) (revision : Revision) :
    knowledgeCollectionRevision a revision ≠ knowledgeCollection b := by
  intro h
  have hl := congrArg (List.length ∘ String.toList) h
  simp only [Function.comp, toList_knowledgeCollectionRevision, toList_knowledgeCollection,
    List.length_cons, List.length_append, length_workspaceId] at hl
  omega

theorem revision_workspace {r r' : Revision}
    (h : knowledgeCollectionRevision a r = knowledgeCollectionRevision b r') : a = b := by
  have hl := congrArg String.toList h
  simp only [toList_knowledgeCollectionRevision, List.cons.injEq, true_and] at hl
  exact workspace_eq_of_append hl

variable {name : String}

/-- A name belongs to one workspace. -/
theorem Belongs.unique (ha : Belongs a name) (hb : Belongs b name) : a = b := by
  rcases ha with rfl | rfl | ⟨r, rfl⟩
  · rcases hb with hb | hb | ⟨r', hb⟩
    · exact knowledgeCollection_inj hb
    · exact absurd hb (knowledgeCollection_ne_memoryCollection a b)
    · exact absurd hb.symm (revision_ne_knowledgeCollection b a r')
  · rcases hb with hb | hb | ⟨r', hb⟩
    · exact absurd hb.symm (knowledgeCollection_ne_memoryCollection b a)
    · exact memoryCollection_inj hb
    · exact absurd hb.symm (revision_ne_memoryCollection b a r')
  · rcases hb with hb | hb | ⟨r', hb⟩
    · exact absurd hb (revision_ne_knowledgeCollection a b r)
    · exact absurd hb (revision_ne_memoryCollection a b r)
    · exact revision_workspace hb

structure Point where
  id : String
  workspace : WorkspaceId
deriving DecidableEq

/-- A physical collection; `heldFor` are the workspaces whose vectors were ever written to it. -/
structure Collection where
  size : ℕ
  points : List Point
  heldFor : List WorkspaceId

structure Store where
  collections : AList fun _ : String => Collection
  aliases : AList fun _ : String => String

inductive Corpus where
  | live
  | shadow
  | claim
deriving DecidableEq

namespace Store

def init : Store := ⟨∅, ∅⟩

def physical (store : Store) (name : String) : Option String :=
  if name ∈ store.collections then some name else store.aliases.lookup name

def collectionExists (store : Store) (name : String) : Bool := (store.physical name).isSome

def hasOtherRevision (store : Store) (name : String) : Bool :=
  store.collections.keys.any (beginsWith (name ++ "-")) ||
    store.aliases.keys.any (beginsWith (name ++ "-"))

/-- Which corpus a regime owns for a name. -/
def resolve (store : Store) (name : String) : Option Revision → String × Corpus
  | none => (name, .live)
  | some revision =>
    if store.collectionExists (revised name revision) then (revised name revision, .live)
    else if !store.collectionExists name then (revised name revision, .live)
    else if store.hasOtherRevision name then (revised name revision, .shadow)
    else (name, .claim)

def corpus (store : Store) (name : String) (revision : Option Revision) : String :=
  let target := (store.resolve name revision).1
  (store.physical target).getD target

def put (store : Store) (name : String) (content : Collection) : Store :=
  { store with collections := store.collections.insert name content }

/-- Provision the collection of that name if it is absent; refuse it if its width differs. -/
def create (store : Store) (name : String) (dim : ℕ) : Option Store :=
  match store.physical name with
  | none => some (store.put name ⟨dim, [], []⟩)
  | some collection =>
    if (store.collections.lookup collection).all (·.size = dim) then some store else none

def createAlias (store : Store) (aliasName collection : String) : Store :=
  if store.collectionExists aliasName then store
  else { store with aliases := store.aliases.insert aliasName collection }

def ensure (store : Store) (name : String) (dim : ℕ) (revision : Option Revision) :
    Option (Store × String) :=
  let (target, corpus) := store.resolve name revision
  (store.create target dim).map fun created =>
    match corpus, revision with
    | .claim, some revision =>
      (created.createAlias (revised name revision) name, revised name revision)
    | _, _ => (created, target)

def upsert (store : Store) (name : String) (points : List Point) : Option Store :=
  (store.physical name).bind fun collection =>
    (store.collections.lookup collection).map fun content =>
      store.put collection { content with
        points := content.points.filter (fun point => point.id ∉ points.map (·.id)) ++ points
        heldFor := content.heldFor ++ points.map (·.workspace) }

def deletePoints (store : Store) (name : String) (ids : List String) : Store :=
  match store.collections.lookup name with
  | none => store
  | some content =>
    store.put name { content with points := content.points.filter fun point => point.id ∉ ids }

def deleteEverywhere (store : Store) (name : String) (ids : List String) : Store :=
  (store.collections.keys.filter fun key => key = name || beginsWith (name ++ "-") key).foldl
    (fun store key => store.deletePoints key ids) store

def deleteCollection (store : Store) (name : String) : Store where
  collections := store.collections.erase name
  aliases := eraseAll store.aliases
    (store.aliases.keys.filter fun key => store.aliases.lookup key = some name)

def dropCollection (store : Store) (name : String) : Bool × Store :=
  if store.collectionExists name then (true, store.deleteCollection name) else (false, store)

def hasRevision (store : Store) (ws : WorkspaceId) : Bool :=
  (store.collections.keys ++ store.aliases.keys).any fun name =>
    beginsWith (knowledgeCollection ws ++ "-") name &&
      isRevision (String.ofList (name.toList.drop ((knowledgeCollection ws).toList.length + 1)))

end Store

inductive Write where
  | index (ws : WorkspaceId) (revision : Option Revision) (dim : ℕ) (ids : List String)
  | remember (ws : WorkspaceId) (dim : ℕ) (id : String)
  | delete (ws : WorkspaceId) (ids : List String)
  | adopt (ws : WorkspaceId) (revision : Revision) (dim : ℕ)
  | build (ws : WorkspaceId) (source target : Revision) (dim : ℕ)
  | dropRevision (ws : WorkspaceId) (revision : Revision)

def Store.write (store : Store) (ws : WorkspaceId) (name : String) (revision : Option Revision)
    (dim : ℕ) (ids : List String) : Option Store :=
  (store.ensure name dim revision).bind fun (ensured, target) =>
    ensured.upsert target (ids.map (⟨·, ws⟩))

def step (store : Store) : Write → Option Store
  | .index ws revision dim ids => store.write ws (knowledgeCollection ws) revision dim ids
  | .remember ws dim id => store.write ws (memoryCollection ws) none dim [id]
  | .delete ws ids => some (store.deleteEverywhere (knowledgeCollection ws) ids)
  | .adopt ws revision dim =>
    (store.collections.lookup (knowledgeCollection ws)).map fun content =>
      if store.hasRevision ws || content.size ≠ dim then store
      else store.createAlias (knowledgeCollectionRevision ws revision) (knowledgeCollection ws)
  | .build ws source target dim =>
    ((store.physical (knowledgeCollectionRevision ws source)).bind
      fun collection => store.collections.lookup collection).bind fun content =>
        ((store.ensure (knowledgeCollectionRevision ws target) dim none)).bind
          fun (ensured, name) => ensured.upsert name content.points
  | .dropRevision ws revision =>
    let name := knowledgeCollectionRevision ws revision
    if name ∈ store.collections then some (store.deleteCollection name)
    else some { store with aliases := store.aliases.erase name }

namespace Store

variable {store : Store} {name n : String} {content : Collection}

theorem lookup_put {content' : Collection} :
    (store.put name content).collections.lookup n = some content' ↔
      (n = name ∧ content = content') ∨ (n ≠ name ∧ store.collections.lookup n = some content') :=
  lookup_insert_iff

theorem physical_put (store : Store) (name : String) (content : Collection) :
    (store.put name content).physical name = some name := by
  simp [physical, put]

variable {dim : ℕ}

/-- What `create` leaves under the name, and that it holds nothing new. -/
theorem create_spec {created : Store} (h : store.create name dim = some created) :
    created.physical name = some ((store.physical name).getD name) ∧
    created.aliases = store.aliases ∧
    ∀ n content, created.collections.lookup n = some content →
      store.collections.lookup n = some content ∨ content = ⟨dim, [], []⟩ := by
  unfold create at h
  split at h
  next hn =>
    cases h
    refine ⟨by rw [physical_put, hn]; rfl, rfl, ?_⟩
    intro n content hlookup
    rcases lookup_put.mp hlookup with ⟨-, rfl⟩ | ⟨-, hold⟩
    · exact .inr rfl
    · exact .inl hold
  next collection hs =>
    split_ifs at h
    cases h
    exact ⟨by rw [hs]; rfl, rfl, fun n content hlookup => .inl hlookup⟩

theorem createAlias_collections (store : Store) (aliasName collection : String) :
    (store.createAlias aliasName collection).collections = store.collections := by
  unfold createAlias
  split_ifs <;> rfl

variable {ensured : Store} {target : String} {revision : Option Revision}

/-- The name that `ensure` answers with stands for the corpus, and nothing new is held. -/
theorem ensure_spec (hname : revision.isSome = true → name ∉ store.aliases)
    (h : store.ensure name dim revision = some (ensured, target)) :
    ensured.physical target = some (store.corpus name revision) ∧
    ∀ n content, ensured.collections.lookup n = some content →
      store.collections.lookup n = some content ∨ content = ⟨dim, [], []⟩ := by
  obtain ⟨created, hc, he⟩ := map_eq_some_iff.mp h
  obtain ⟨hp, ha, hh⟩ := create_spec hc
  have hpl : (created, (store.resolve name revision).1) = (ensured, target) →
      ensured.physical target = some (store.corpus name revision) ∧
      ∀ n content, ensured.collections.lookup n = some content →
        store.collections.lookup n = some content ∨ content = ⟨dim, [], []⟩ := by
    rintro heq
    obtain ⟨rfl, rfl⟩ := Prod.mk.inj heq
    exact ⟨hp, hh⟩
  cases revision with
  | none => exact hpl he
  | some revision =>
    simp only [resolve] at hc he hpl
    split_ifs at hc he hpl with hr hu ho
    · exact hpl he
    · exact hpl he
    · exact hpl he
    · obtain ⟨rfl, rfl⟩ := Prod.mk.inj he
      have hexists : name ∈ store.collections := by
        by_contra hm
        have hlookup : store.aliases.lookup name = none := AList.lookup_eq_none.mpr (hname rfl)
        simp [collectionExists, physical, hm, hlookup] at hu
      have hco : store.corpus name (some revision) = name := by
        simp [corpus, resolve, hr, hu, ho, physical, hexists]
      have hcreatedName : created = store := by
        unfold create at hc
        simp only [physical, hexists, if_true] at hc
        split_ifs at hc
        exact (some.inj hc).symm
      subst hcreatedName
      refine ⟨?_, fun n content hlookup => .inl ?_⟩
      · have hf : revised name revision ∉ created.collections := by
          intro hmem
          simp [collectionExists, physical, hmem] at hr
        rw [hco, createAlias, if_neg hr]
        simp [physical, hf]
      · rwa [createAlias_collections] at hlookup

variable {after : Store} {points : List Point}

theorem upsert_spec (h : store.upsert name points = some after) :
    ∃ collection content, store.physical name = some collection ∧
      store.collections.lookup collection = some content ∧
      after = store.put collection { content with
        points := content.points.filter (fun point => point.id ∉ points.map (·.id)) ++ points
        heldFor := content.heldFor ++ points.map (·.workspace) } := by
  obtain ⟨collection, hp, hmap⟩ := bind_eq_some_iff.mp h
  obtain ⟨content, hcontent, rfl⟩ := map_eq_some_iff.mp hmap
  exact ⟨collection, content, hp, hcontent, rfl⟩

section

variable (hname : revision.isSome = true → name ∉ store.aliases)
    (hensure : store.ensure name dim revision = some (ensured, target))
    (hupsert : ensured.upsert target points = some after)
    (hlookup : after.collections.lookup n = some content)
include hname hensure hupsert hlookup

/-- What is held after a write was held before, or it is what was written, where the corpus
was resolved to. -/
theorem held_of_write {ws : WorkspaceId} (hws : ws ∈ content.heldFor) :
    (∃ old, store.collections.lookup n = some old ∧ ws ∈ old.heldFor) ∨
      (n = store.corpus name revision ∧ ws ∈ points.map (·.workspace)) := by
  obtain ⟨hp, hh⟩ := ensure_spec hname hensure
  have hold : ∀ m old, ensured.collections.lookup m = some old → ws ∈ old.heldFor →
      ∃ old, store.collections.lookup m = some old ∧ ws ∈ old.heldFor := by
    intro m old hm hmem
    rcases hh m old hm with hm | he
    · exact ⟨old, hm, hmem⟩
    · subst he
      simp at hmem
  obtain ⟨collection, old, ht, hcollection, rfl⟩ := upsert_spec hupsert
  obtain rfl := mem_unique ht hp
  rcases lookup_put.mp hlookup with ⟨rfl, rfl⟩ | ⟨-, hlookup⟩
  · rcases List.mem_append.mp hws with hmem | hmem
    · exact .inl (hold _ old hcollection hmem)
    · exact .inr ⟨rfl, hmem⟩
  · exact .inl (hold n content hlookup hws)

/-- What is written stays among the workspaces its collection is held for. -/
theorem points_of_write
    (hp : ∀ m old, store.collections.lookup m = some old →
      ∀ point ∈ old.points, point.workspace ∈ old.heldFor) :
    ∀ point ∈ content.points, point.workspace ∈ content.heldFor := by
  have hold : ∀ m old, ensured.collections.lookup m = some old →
      ∀ point ∈ old.points, point.workspace ∈ old.heldFor := by
    intro m old hm
    rcases (ensure_spec hname hensure).2 m old hm with hm | rfl
    · exact hp m old hm
    · simp
  obtain ⟨collection, old, -, hcollection, rfl⟩ := upsert_spec hupsert
  rcases lookup_put.mp hlookup with ⟨rfl, rfl⟩ | ⟨-, hlookup⟩
  · intro point hpo
    rcases List.mem_append.mp hpo with hpo | hpo
    · exact List.mem_append_left _ (hold _ old hcollection point (List.mem_of_mem_filter hpo))
    · exact List.mem_append_right _ (List.mem_map_of_mem hpo)
  · exact hold n content hlookup

end

end Store

/-- What the names say is so: a collection holds vectors of its own workspace, and an alias is
a revision over the unrevisioned collection. -/
structure Named (store : Store) : Prop where
  held : ∀ name content, store.collections.lookup name = some content →
    ∀ ws ∈ content.heldFor, Belongs ws name
  points : ∀ name content, store.collections.lookup name = some content →
    ∀ point ∈ content.points, point.workspace ∈ content.heldFor
  aliases : ∀ name target, store.aliases.lookup name = some target →
    ∃ ws revision, name = knowledgeCollectionRevision ws revision ∧
      target = knowledgeCollection ws

theorem Named.init : Named Store.init := by
  constructor <;> simp [Store.init]

variable {store : Store} {ws : WorkspaceId}

theorem Named.physical (hs : Named store) {c : String} (hname : Belongs ws name)
    (h : store.physical name = some c) : Belongs ws c := by
  unfold Store.physical at h
  split_ifs at h
  · exact some.inj h ▸ hname
  · obtain ⟨owner, revision, rfl, rfl⟩ := hs.aliases name c h
    obtain rfl := hname.unique (.inr (.inr ⟨revision, rfl⟩))
    exact .inl rfl

theorem Named.notMem_aliases (hs : Named store) (ws : WorkspaceId) :
    knowledgeCollection ws ∉ store.aliases := by
  intro hmem
  obtain ⟨target, ht⟩ := isSome_iff_exists.mp (AList.lookup_isSome.mpr hmem)
  obtain ⟨owner, revision, heq, -⟩ := hs.aliases _ _ ht
  exact revision_ne_knowledgeCollection owner ws revision heq.symm

theorem resolve_belongs (revision : Option Revision) :
    Belongs ws (store.resolve (knowledgeCollection ws) revision).1 := by
  cases revision with
  | none => exact .inl rfl
  | some revision =>
    have hr : Belongs ws (revised (knowledgeCollection ws) revision) :=
      .inr (.inr ⟨revision, rfl⟩)
    simp only [Store.resolve]
    split_ifs
    · exact hr
    · exact hr
    · exact hr
    · exact .inl rfl

variable {revision : Option Revision}

theorem Named.corpus_belongs (hs : Named store)
    (ht : Belongs ws (store.resolve name revision).1) :
    Belongs ws (store.corpus name revision) := by
  simp only [Store.corpus]
  cases hp : store.physical (store.resolve name revision).1 with
  | none => exact ht
  | some c => exact hs.physical ht hp

theorem Named.corpus_memoryCollection (hs : Named store) (ws : WorkspaceId) :
    store.corpus (memoryCollection ws) none = memoryCollection ws := by
  have hn : store.aliases.lookup (memoryCollection ws) = none := by
    rw [eq_none_iff_forall_ne_some]
    intro target ht
    obtain ⟨owner, revision, heq, -⟩ := hs.aliases _ _ ht
    exact revision_ne_memoryCollection owner ws revision heq.symm
  simp only [Store.corpus, Store.resolve, Store.physical, hn]
  split_ifs <;> rfl

variable {ensured after : Store} {target : String} {dim : ℕ}

theorem Named.write (hs : Named store) {points : List Point}
    (hname : revision.isSome = true → name ∉ store.aliases)
    (ht : Belongs ws (store.resolve name revision).1)
    (hp : ∀ point ∈ points, point.workspace = ws)
    (hensure : store.ensure name dim revision = some (ensured, target)) (he : Named ensured)
    (hupsert : ensured.upsert target points = some after) :
    Named after := by
  refine ⟨?_, ?_, ?_⟩
  · intro n content hlookup owner ho
    rcases Store.held_of_write hname hensure hupsert hlookup ho with
      ⟨old, hold, hmem⟩ | ⟨rfl, hmem⟩
    · exact hs.held n old hold owner hmem
    · obtain ⟨point, hpo, rfl⟩ := List.mem_map.mp hmem
      rw [hp point hpo]
      exact hs.corpus_belongs ht
  · intro n content hlookup
    exact Store.points_of_write hname hensure hupsert hlookup hs.points
  · obtain ⟨collection, content, -, -, rfl⟩ := Store.upsert_spec hupsert
    exact he.aliases

theorem Named.create {created : Store} (hs : Named store)
    (h : store.create name dim = some created) : Named created := by
  obtain ⟨-, ha, hh⟩ := Store.create_spec h
  refine ⟨?_, ?_, ha ▸ hs.aliases⟩
  · intro n content hlookup
    rcases hh n content hlookup with hold | rfl
    · exact hs.held n content hold
    · simp
  · intro n content hlookup
    rcases hh n content hlookup with hold | rfl
    · exact hs.points n content hold
    · simp

theorem Named.createAlias (hs : Named store) (ws : WorkspaceId) (revision : Revision) :
    Named (store.createAlias (knowledgeCollectionRevision ws revision)
      (knowledgeCollection ws)) := by
  unfold Store.createAlias
  split_ifs
  · exact hs
  · exact ⟨hs.held, hs.points, forall_insert ⟨ws, revision, rfl, rfl⟩ hs.aliases⟩

theorem Named.ensure (hs : Named store)
    (h : store.ensure (knowledgeCollection ws) dim revision = some (ensured, target)) :
    Named ensured := by
  obtain ⟨created, hc, he⟩ := map_eq_some_iff.mp h
  have hn := hs.create hc
  split at he
  · obtain ⟨rfl, -⟩ := Prod.mk.inj he
    exact hn.createAlias ws _
  · obtain ⟨rfl, -⟩ := Prod.mk.inj he
    exact hn

theorem Named.ensure_none (hs : Named store)
    (h : store.ensure name dim none = some (ensured, target)) : Named ensured := by
  obtain ⟨created, hc, he⟩ := map_eq_some_iff.mp h
  obtain ⟨rfl, -⟩ := Prod.mk.inj he
  exact hs.create hc

/-- Collections may be gone or have lost points, aliases may be gone. -/
structure Shrunk (store after : Store) : Prop where
  collections : ∀ n content, after.collections.lookup n = some content →
    ∃ old, store.collections.lookup n = some old ∧ content.heldFor = old.heldFor ∧
      ∀ point ∈ content.points, point ∈ old.points
  aliases : ∀ n c, after.aliases.lookup n = some c → store.aliases.lookup n = some c

theorem Shrunk.refl (store : Store) : Shrunk store store :=
  ⟨fun _ content hlookup => ⟨content, hlookup, rfl, fun _ h => h⟩, fun _ _ h => h⟩

theorem Shrunk.trans {middle : Store} (h : Shrunk store middle) (h' : Shrunk middle after) :
    Shrunk store after := by
  refine ⟨?_, fun n c hlookup => h.aliases n c (h'.aliases n c hlookup)⟩
  intro n content hlookup
  obtain ⟨mid, hmid, hhe, hpo⟩ := h'.collections n content hlookup
  obtain ⟨old, hold, hh, hp⟩ := h.collections n mid hmid
  exact ⟨old, hold, hhe.trans hh, fun point hpn => hp point (hpo point hpn)⟩

theorem Shrunk.deletePoints (store : Store) (name : String) (ids : List String) :
    Shrunk store (store.deletePoints name ids) := by
  unfold Store.deletePoints
  split
  next => exact .refl store
  next content hcontent =>
    refine ⟨?_, fun _ _ h => h⟩
    intro n after hlookup
    rcases Store.lookup_put.mp hlookup with ⟨rfl, rfl⟩ | ⟨-, hold⟩
    · exact ⟨content, hcontent, rfl, fun point hp => List.mem_of_mem_filter hp⟩
    · exact ⟨after, hold, rfl, fun _ h => h⟩

theorem Shrunk.deleteEverywhere (store : Store) (name : String) (ids : List String) :
    Shrunk store (store.deleteEverywhere name ids) := by
  unfold Store.deleteEverywhere
  generalize store.collections.keys.filter _ = keys
  induction keys generalizing store with
  | nil => exact .refl store
  | cons key keys ih => exact (Shrunk.deletePoints store key ids).trans (ih _)

theorem Shrunk.deleteCollection (store : Store) (name : String) :
    Shrunk store (store.deleteCollection name) := by
  constructor
  · intro n content hlookup
    exact ⟨content, (lookup_erase_iff.mp hlookup).2, rfl, fun _ h => h⟩
  · intro n c hlookup
    exact (lookup_eraseAll_eq_some_iff.mp hlookup).2

theorem Shrunk.eraseAlias (store : Store) (name : String) :
    Shrunk store { store with aliases := store.aliases.erase name } :=
  ⟨(Shrunk.refl store).collections, fun _ _ hlookup => (lookup_erase_iff.mp hlookup).2⟩

theorem Named.shrink (hs : Named store) (h : Shrunk store after) :
    Named after := by
  refine ⟨?_, ?_, fun n c hlookup => hs.aliases n c (h.aliases n c hlookup)⟩
  · intro n content hlookup
    obtain ⟨old, hold, hh, -⟩ := h.collections n content hlookup
    exact hh ▸ hs.held n old hold
  · intro n content hlookup point hpo
    obtain ⟨old, hold, hh, hp⟩ := h.collections n content hlookup
    exact hh ▸ hs.points n old hold point (hp point hpo)

theorem Named.source_points (hs : Named store) {source : Revision} {content : Collection}
    (h : (store.physical (knowledgeCollectionRevision ws source)).bind
      (fun collection => store.collections.lookup collection) = some content) :
    ∀ point ∈ content.points, point.workspace = ws := by
  obtain ⟨collection, hp, hcontent⟩ := bind_eq_some_iff.mp h
  intro point hpo
  have hh := hs.points collection content hcontent point hpo
  have hb : Belongs ws collection := hs.physical (.inr (.inr ⟨source, rfl⟩)) hp
  exact (hs.held collection content hcontent _ hh).unique hb

/-- Whatever is written, the names stay true. -/
theorem step_named (store : Store) (e : Write) (after : Store) (hs : Named store)
    (h : step store e = some after) : Named after := by
  cases e with
  | index ws revision dim ids =>
    obtain ⟨⟨ensured, target⟩, hensure, hupsert⟩ := bind_eq_some_iff.mp h
    exact hs.write (fun _ => hs.notMem_aliases ws) (resolve_belongs revision) (by simp) hensure
      (hs.ensure hensure) hupsert
  | remember ws dim id =>
    obtain ⟨⟨ensured, target⟩, hensure, hupsert⟩ := bind_eq_some_iff.mp h
    exact hs.write (by simp) (.inr (.inl rfl)) (by simp) hensure (hs.ensure_none hensure) hupsert
  | delete ws ids =>
    exact some.inj h ▸ hs.shrink (.deleteEverywhere store _ ids)
  | adopt ws revision dim =>
    obtain ⟨content, -, rfl⟩ := map_eq_some_iff.mp h
    split_ifs
    · exact hs
    · exact hs.createAlias ws revision
  | build ws source target dim =>
    obtain ⟨content, hcontent, hb⟩ := bind_eq_some_iff.mp h
    obtain ⟨⟨ensured, name⟩, hensure, hupsert⟩ := bind_eq_some_iff.mp hb
    exact hs.write (by simp) (.inr (.inr ⟨target, rfl⟩)) (hs.source_points hcontent) hensure
      (hs.ensure_none hensure) hupsert
  | dropRevision ws revision =>
    simp only [step] at h
    split_ifs at h
    · exact some.inj h ▸ hs.shrink (.deleteCollection store _)
    · exact some.inj h ▸ hs.shrink (.eraseAlias store _)

/-- The vectors of the workspace were only ever held by its two unrevisioned collections. -/
def Unrevisioned (ws : WorkspaceId) (store : Store) : Prop :=
  ∀ name content, store.collections.lookup name = some content → ws ∈ content.heldFor →
    name = knowledgeCollection ws ∨ name = memoryCollection ws

/-- What is written for the documents of the workspace reaches the unrevisioned collection. -/
def ReachesUnrevisioned (ws : WorkspaceId) (store : Store) : Write → Prop
  | .index owner revision _ ids => owner = ws → ids ≠ [] →
      store.corpus (knowledgeCollection owner) revision = knowledgeCollection owner
  | .build owner _ target _ => owner = ws →
      store.corpus (knowledgeCollectionRevision owner target) none = knowledgeCollection owner
  | _ => True

instance (ws : WorkspaceId) (store : Store) : ∀ e, Decidable (ReachesUnrevisioned ws store e)
  | .index owner revision _ ids => inferInstanceAs (Decidable (owner = ws → ids ≠ [] →
      store.corpus (knowledgeCollection owner) revision = knowledgeCollection owner))
  | .build owner _ target _ => inferInstanceAs (Decidable (owner = ws →
      store.corpus (knowledgeCollectionRevision owner target) none = knowledgeCollection owner))
  | .remember _ _ _ | .delete _ _ | .adopt _ _ _ | .dropRevision _ _ => .isTrue trivial

theorem Unrevisioned.write (hs : Unrevisioned ws store) {points : List Point}
    (hname : revision.isSome = true → name ∉ store.aliases)
    (hr : ws ∈ points.map (·.workspace) → store.corpus name revision =
      knowledgeCollection ws ∨ store.corpus name revision = memoryCollection ws)
    (hensure : store.ensure name dim revision = some (ensured, target))
    (hupsert : ensured.upsert target points = some after) : Unrevisioned ws after := by
  intro n content hlookup hws
  rcases Store.held_of_write hname hensure hupsert hlookup hws with ⟨old, hold, hmem⟩ | ⟨rfl, hmem⟩
  · exact hs n old hold hmem
  · exact hr hmem

theorem Unrevisioned.shrink (hs : Unrevisioned ws store) (h : Shrunk store after) :
    Unrevisioned ws after := by
  intro n content hlookup hws
  obtain ⟨old, hold, hh, -⟩ := h.collections n content hlookup
  exact hs n old hold (hh ▸ hws)

/-- What is written for the documents stays unrevisioned. -/
theorem step_unrevisioned (ws : WorkspaceId) (store : Store) (e : Write) (after : Store)
    (hn : Named store) (hs : Unrevisioned ws store) (hok : ReachesUnrevisioned ws store e)
    (h : step store e = some after) : Unrevisioned ws after := by
  cases e with
  | index owner revision dim ids =>
    obtain ⟨⟨ensured, target⟩, hensure, hupsert⟩ := bind_eq_some_iff.mp h
    refine hs.write (fun _ => hn.notMem_aliases owner) ?_ hensure hupsert
    intro hmem
    simp only [List.map_map, List.mem_map, Function.comp] at hmem
    obtain ⟨id, hid, rfl⟩ := hmem
    exact .inl (hok rfl (List.ne_nil_of_mem hid))
  | remember owner dim id =>
    obtain ⟨⟨ensured, target⟩, hensure, hupsert⟩ := bind_eq_some_iff.mp h
    refine hs.write (by simp) ?_ hensure hupsert
    intro hmem
    obtain rfl : ws = owner := by simpa using hmem
    exact .inr (hn.corpus_memoryCollection ws)
  | delete owner ids =>
    exact some.inj h ▸ hs.shrink (.deleteEverywhere store _ ids)
  | adopt owner revision dim =>
    obtain ⟨content, -, rfl⟩ := map_eq_some_iff.mp h
    split_ifs
    · exact hs
    · intro n content hlookup
      rw [Store.createAlias_collections] at hlookup
      exact hs n content hlookup
  | build owner source target dim =>
    obtain ⟨content, hcontent, hb⟩ := bind_eq_some_iff.mp h
    obtain ⟨⟨ensured, name⟩, hensure, hupsert⟩ := bind_eq_some_iff.mp hb
    refine hs.write (by simp) ?_ hensure hupsert
    intro hmem
    obtain ⟨point, hp, rfl⟩ := List.mem_map.mp hmem
    have ho := hn.source_points hcontent point hp
    exact .inl (by rw [hok ho.symm, ho])
  | dropRevision owner revision =>
    simp only [step] at h
    split_ifs at h
    · exact some.inj h ▸ hs.shrink (.deleteCollection store _)
    · exact some.inj h ▸ hs.shrink (.eraseAlias store _)

end Aizzak.VectorCollections
