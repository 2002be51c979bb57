import Aizzak.IntegrationCaps

/-!
The tools of a workspace by name. A tool is listed under the key of its connector or the name of
its server, a dot, and its own name; a call splits the name at the first dot and looks among the
connections before the servers. Keys and names are slugs, and a slug has no dot.
-/
namespace Aizzak.ToolRouting

open EventRuns KeyedTables PyText VersionedRows List
open IntegrationCaps (McpServer State Limits Moves Turn isConnected isActive)

def dot : CodePoint := 0x2E

def maxSlugLen : ℕ := 64

def isSlugHead (c : CodePoint) : Bool :=
  (0x61 ≤ c.val && c.val ≤ 0x7A) || (0x30 ≤ c.val && c.val ≤ 0x39)

def slugMatches (text : Text) : Bool :=
  match if text.getLast? = some 0x0A then text.dropLast else text with
  | [] => false
  | c :: rest => isSlugHead c && rest.all fun c => isSlugHead c || c = 0x2D || c = 0x5F

def slug (lower : Text → Text) (raw : Text) : Option Text :=
  let normalized := lower (strip raw)
  if normalized = [] ∨ maxSlugLen < normalized.length ∨ slugMatches normalized = false then none
  else some normalized

structure Spec (P : Type) where
  name : Text
  description : Text
  parameters : P

inductive Source where
  | connector (key : Text)
  | mcp (name : Text)
deriving DecidableEq

def Source.slug : Source → Text
  | .connector key => key
  | .mcp name => name

structure DiscoveredTool (P : Type) where
  name : Text
  description : Text
  parameters : P
  source : Source

def discovered {P : Type} (source : Source) (spec : Spec P) : DiscoveredTool P :=
  ⟨source.slug ++ dot :: spec.name, spec.description, spec.parameters, source⟩

section Catalog

variable {P Ref : Type} (toolset : Text → List (Spec P))
  (discover : Text → McpServer Ref → Option (List (Spec P))) (s : State Ref)

def found : List (Source × Spec P) :=
  ((s.connections.entries.filter fun e => isConnected e.2).flatMap fun e =>
    (toolset e.1).map (Source.connector e.1, ·)) ++
  (s.servers.entries.filter fun e => isActive e.2).flatMap fun e =>
    ((discover e.1 e.2.value).getD []).map (Source.mcp e.1, ·)

def listTools (maxDiscoveredTools : ℕ) : List (DiscoveredTool P) :=
  ((found toolset discover s).map fun p => discovered p.1 p.2).take maxDiscoveredTools

end Catalog

def partition (name : Text) : Option (Text × Text) :=
  match name.span (· ≠ dot) with
  | (before, _ :: tool) => some (before, tool)
  | (_, []) => none

inductive Refusal where
  | malformed
  | unknown
  | notConnected
  | notActive
  | gate
deriving DecidableEq

def pass (gate : Source → Option Refusal) (source : Source) (tool : Text) :
    Except Refusal (Source × Text) :=
  match gate source with
  | some refusal => .error refusal
  | none => .ok (source, tool)

def invokeTool {Ref : Type} (gate : Source → Option Refusal) (s : State Ref) (name : Text) :
    Except Refusal (Source × Text) :=
  match partition name with
  | none => .error .malformed
  | some (before, tool) =>
    if before = [] ∨ tool = [] then .error .malformed
    else
      match (s.connection before).row with
      | some row =>
        if row.value.status = .connected then pass gate (.connector before) tool
        else .error .notConnected
      | none =>
        match s.servers.lookup before with
        | none => .error .unknown
        | some row => if isActive row then pass gate (.mcp before) tool else .error .notActive

section Requests

variable {Ref : Type} (lower : Text → Text) (catalogue : List Text)

def accept : IntegrationCaps.Event Ref → Option (IntegrationCaps.Event Ref)
  | .connection raw event =>
    if raw ∈ catalogue then (slug lower raw).map (.connection · event) else none
  | .register id registration =>
    (slug lower registration.name).bind fun name =>
      if name ∈ catalogue then none else some (.register id { registration with name })
  | e => some e

def step (transit : Connections.Transit Ref) (skew : ℤ) (limits : Limits) (s : State Ref)
    (e : IntegrationCaps.Event Ref) : Option (State Ref) :=
  (accept lower catalogue e).bind (IntegrationCaps.step transit skew limits s)

/-- No server is registered under the normal form of a key of the catalogue. -/
def Unshadowed (_ : State Ref) : IntegrationCaps.Event Ref → Prop
  | .register _ registration => ∀ raw ∈ catalogue, (slug lower raw).isSome →
    slug lower raw ≠ slug lower registration.name
  | _ => True

instance (s : State Ref) : ∀ e, Decidable (Unshadowed lower catalogue s e)
  | .register _ _ => inferInstanceAs (Decidable (∀ raw ∈ catalogue, _ → _ ≠ _))
  | .connection _ _ | .disable _ _ | .next _ | .crash _ => isTrue trivial

def Free (name : Text) : Prop :=
  (∃ raw, slug lower raw = some name) ∧ ∀ raw ∈ catalogue, slug lower raw ≠ some name

def Admitted : IntegrationCaps.Event Ref → Prop
  | .connection key _ => ∃ raw ∈ catalogue, slug lower raw = some key
  | .register _ registration => Free lower catalogue registration.name
  | _ => True

def FreeTask : IntegrationCaps.Task Ref → Prop
  | .finding registration | .counting registration _ | .adding registration _ =>
    Free lower catalogue registration.name
  | _ => True

structure Named (s : State Ref) : Prop where
  connections : ∀ key ∈ s.connections, ∃ raw ∈ catalogue, slug lower raw = some key
  servers : ∀ name ∈ s.servers, Free lower catalogue name
  tasks : ∀ id task, s.tasks.lookup id = some task → FreeTask lower catalogue task

end Requests

/-- What a call may reach: a connected connector or an active server. -/
def Live {Ref : Type} (s : State Ref) : Source → Prop
  | .connector key => isConnected (s.connection key) = true
  | .mcp name => ∃ row, s.servers.lookup name = some row ∧ isActive row = true

variable {P Ref : Type} {lower : Text → Text} {catalogue : List Text} {s t : State Ref}
  {gate : Source → Option Refusal}

theorem slug_eq_some {raw name : Text} (h : slug lower raw = some name) :
    name ≠ [] ∧ slugMatches name = true := by
  simp only [slug] at h
  split_ifs at h with hno
  cases h
  rw [not_or, not_or, Bool.not_eq_false] at hno
  exact ⟨hno.1, hno.2.2⟩

theorem dot_notMem_of_slug {raw name : Text} (h : slug lower raw = some name) : dot ∉ name := by
  have hm := (slug_eq_some h).2
  intro hdot
  have hmem : dot ∈ if name.getLast? = some 0x0A then name.dropLast else name := by
    split_ifs with hl
    · obtain ⟨init, rfl⟩ := getLast?_eq_some_iff.mp hl
      rw [dropLast_concat]
      rcases mem_append.mp hdot with hin | hend
      · exact hin
      · exact absurd (mem_singleton.mp hend) (by decide)
    · exact hdot
  rw [slugMatches] at hm
  split at hm
  · cases hm
  · rename_i c rest heq
    rw [heq] at hmem
    rw [Bool.and_eq_true, all_eq_true] at hm
    rcases mem_cons.mp hmem with rfl | hr
    · exact absurd hm.1 (by decide)
    · exact absurd (hm.2 _ hr) (by decide)

theorem partition_append {before tool : Text} (h : dot ∉ before) :
    partition (before ++ dot :: tool) = some (before, tool) := by
  have hall : ∀ c ∈ before, decide (c ≠ dot) = true := by
    intro c hc
    rw [decide_eq_true_eq]
    rintro rfl
    exact h hc
  rw [partition, span_eq_takeWhile_dropWhile, takeWhile_append_of_pos hall,
    dropWhile_append_of_pos hall]
  simp

theorem mem_of_save {V : Type} {rows after : AList fun _ : Text => Versioned V} {key name : Text}
    {read : Versioned V} {value : V} (h : save rows key read value = some after)
    (hn : name ∈ after) : name ∈ rows := by
  unfold save at h
  split at h
  · rename_i row hrow
    split_ifs at h
    cases h
    rcases (AList.mem_insert _).mp hn with rfl | hold
    · exact mem_of_lookup hrow
    · exact hold
  · cases h

section Naming

variable {limits : Limits} {transit : Connections.Transit Ref} {skew : ℤ} {id : ℕ}
  {e : IntegrationCaps.Event Ref}

theorem moves_named {task : IntegrationCaps.Task Ref} (h : Moves limits s id task t)
    (ht : FreeTask lower catalogue task) (hs : Named lower catalogue s) :
    Named lower catalogue t := by
  have hr : ∀ i other, (s.tasks.erase id).lookup i = some other →
      FreeTask lower catalogue other :=
    fun i other hi => hs.tasks i other (lookup_erase_iff.mp hi).2
  cases h with
  | finished => exact ⟨hs.connections, hs.servers, hr⟩
  | found | admits => exact ⟨hs.connections, hs.servers, forall_insert ht hs.tasks⟩
  | readmits | got => exact ⟨hs.connections, hs.servers, forall_insert trivial hs.tasks⟩
  | added =>
    refine ⟨hs.connections, fun name hn => ?_, hr⟩
    rcases (AList.mem_insert _).mp hn with rfl | hold
    · exact ht
    · exact hs.servers name hold
  | revived hsa | disabled hsa =>
    exact ⟨hs.connections, fun name hn => hs.servers name (mem_of_save hsa hn), hr⟩

theorem admitted_of_accept {admitted : IntegrationCaps.Event Ref}
    (h : accept lower catalogue e = some admitted) (hok : Unshadowed lower catalogue s e) :
    Admitted lower catalogue admitted := by
  cases e with
  | connection raw event =>
    simp only [accept] at h
    split_ifs at h with hraw
    obtain ⟨key, hs, rfl⟩ := Option.map_eq_some_iff.mp h
    exact ⟨raw, hraw, hs⟩
  | register id registration =>
    obtain ⟨name, hs, hn⟩ := Option.bind_eq_some_iff.mp h
    split_ifs at hn
    cases hn
    exact ⟨⟨_, hs⟩, fun raw hraw hsa =>
      hok raw hraw (by rw [hsa]; rfl) (hsa.trans hs.symm)⟩
  | disable | next | crash =>
    cases h
    trivial

/-- Keys come from the catalogue, and names stay out of its way. -/
theorem step_named (h : step lower catalogue transit skew limits s e = some t)
    (hok : Unshadowed lower catalogue s e) (hs : Named lower catalogue s) :
    Named lower catalogue t := by
  obtain ⟨admitted, had, hst⟩ := Option.bind_eq_some_iff.mp h
  have ha := admitted_of_accept had hok
  cases IntegrationCaps.step_turn hst with
  | connection =>
    refine ⟨fun key hkey => ?_, hs.servers, hs.tasks⟩
    rcases (AList.mem_insert _).mp hkey with rfl | hold
    · exact ha
    · exact hs.connections key hold
  | registers => exact ⟨hs.connections, hs.servers, forall_insert ha hs.tasks⟩
  | disables => exact ⟨hs.connections, hs.servers, forall_insert trivial hs.tasks⟩
  | served ht hm => exact moves_named hm (hs.tasks _ _ ht) hs
  | crashed =>
    exact ⟨hs.connections, hs.servers, fun i task h => hs.tasks i task (lookup_erase_iff.mp h).2⟩

theorem named_init : Named lower catalogue (State.init : State Ref) where
  connections key h := absurd h (AList.notMem_empty key)
  servers name h := absurd h (AList.notMem_empty name)
  tasks id task h := by simp [State.init] at h

end Naming

theorem row_of_connected {key : Text} (h : isConnected (s.connection key) = true) :
    key ∈ s.connections ∧
      ∃ row, (s.connection key).row = some row ∧ row.value.status = .connected := by
  obtain ⟨row, hrow, hs⟩ := (Option.any_eq_true ..).mp h
  refine ⟨?_, row, hrow, of_decide_eq_true hs⟩
  by_contra hno
  rw [State.connection, AList.lookup_eq_none.mpr hno] at hrow
  cases hrow

theorem slug_of_live (hs : Named lower catalogue s) {source : Source} (h : Live s source) :
    ∃ raw, slug lower raw = some source.slug := by
  cases source with
  | connector key =>
    obtain ⟨raw, -, hsl⟩ := hs.connections key (row_of_connected h).1
    exact ⟨raw, hsl⟩
  | mcp name =>
    obtain ⟨row, hrow, -⟩ := h
    exact (hs.servers name (mem_of_lookup hrow)).1

theorem row_of_free (hs : Named lower catalogue s) {name : Text} (h : Free lower catalogue name) :
    (s.connection name).row = none := by
  have hno : name ∉ s.connections := by
    intro hmem
    obtain ⟨raw, hraw, hsl⟩ := hs.connections name hmem
    exact h.2 raw hraw hsl
  rw [State.connection, AList.lookup_eq_none.mpr hno]
  rfl

/-- A live source is what its own names lead to, unless nothing stands behind the dot. -/
theorem invokeTool_of_live (hs : Named lower catalogue s) {source : Source} (h : Live s source)
    (tool : Text) : invokeTool gate s (source.slug ++ dot :: tool) =
      if tool = [] then .error .malformed else pass gate source tool := by
  obtain ⟨raw, hsl⟩ := slug_of_live hs h
  simp only [invokeTool, partition_append (dot_notMem_of_slug hsl), (slug_eq_some hsl).1,
    false_or]
  split_ifs with ht
  · rfl
  · cases source with
    | connector key =>
      obtain ⟨-, row, hrow, hst⟩ := row_of_connected h
      simp only [Source.slug, hrow, hst, if_true]
    | mcp name =>
      obtain ⟨row, hrow, ha⟩ := h
      have hn := row_of_free hs (hs.servers name (mem_of_lookup hrow))
      simp only [Source.slug, hn, hrow, ha, if_true]

theorem live_of_pass {source : Source} {tool : Text} {call : Source × Text}
    (h : pass gate source tool = .ok call) (hl : Live s source) : Live s call.1 := by
  unfold pass at h
  split at h
  · cases h
  · cases h
    exact hl

/-- A call that reaches something reaches what is live. -/
theorem live_of_invokeTool {name : Text} {call : Source × Text}
    (h : invokeTool gate s name = .ok call) : Live s call.1 := by
  unfold invokeTool at h
  split at h
  · cases h
  · split_ifs at h
    split at h
    · rename_i row hrow
      split_ifs at h with hs
      exact live_of_pass h ((Option.any_eq_true ..).mpr ⟨row, hrow, decide_eq_true hs⟩)
    · split at h
      · cases h
      · rename_i row hrow
        split_ifs at h with ha
        exact live_of_pass h ⟨row, hrow, ha⟩

theorem live_of_mem_found {toolset : Text → List (Spec P)}
    {discover : Text → McpServer Ref → Option (List (Spec P))} {source : Source} {spec : Spec P}
    (h : (source, spec) ∈ found toolset discover s) : Live s source := by
  rcases mem_append.mp h with h | h
  · obtain ⟨entry, he, hs⟩ := mem_flatMap.mp h
    obtain ⟨other, -, heq⟩ := mem_map.mp hs
    cases heq
    obtain ⟨hmem, hl⟩ := mem_filter.mp he
    have hlo : s.connections.lookup entry.1 = some entry.2 := AList.mem_lookup_iff.mpr hmem
    rw [Live, State.connection, hlo]
    exact hl
  · obtain ⟨entry, he, hs⟩ := mem_flatMap.mp h
    obtain ⟨other, -, heq⟩ := mem_map.mp hs
    cases heq
    obtain ⟨hmem, hl⟩ := mem_filter.mp he
    exact ⟨entry.2, AList.mem_lookup_iff.mpr hmem, hl⟩

/-- Two live sources of one slug are one. -/
theorem source_eq_of_slug (hs : Named lower catalogue s) {a b : Source} (ha : Live s a)
    (hb : Live s b) (h : a.slug = b.slug) : a = b := by
  have hap : ∀ key name, Live s (.connector key) → Live s (.mcp name) → key ≠ name := by
    rintro key _ hkey ⟨row, hrow, -⟩ rfl
    obtain ⟨raw, hraw, hsl⟩ := hs.connections key (row_of_connected hkey).1
    exact (hs.servers key (mem_of_lookup hrow)).2 raw hraw hsl
  cases a with
  | connector key =>
    cases b with
    | connector other => exact congrArg Source.connector h
    | mcp name => exact absurd h (hap key name ha hb)
  | mcp name =>
    cases b with
    | connector key => exact absurd h.symm (hap key name hb ha)
    | mcp other => exact congrArg Source.mcp h

theorem source_eq_of_name (hs : Named lower catalogue s) {a b : Source} (ha : Live s a)
    (hb : Live s b) {x y : Text} (h : a.slug ++ dot :: x = b.slug ++ dot :: y) : a = b := by
  obtain ⟨_, hsg⟩ := slug_of_live hs ha
  obtain ⟨_, hsl⟩ := slug_of_live hs hb
  have hsp : partition (a.slug ++ dot :: x) = _ := partition_append (dot_notMem_of_slug hsg)
  rw [h, partition_append (dot_notMem_of_slug hsl)] at hsp
  exact source_eq_of_slug hs ha hb (Prod.mk.inj (Option.some.inj hsp)).1.symm

/-- In a run that registers no server under the normal form of a catalogue key, a listed tool leads
back to its source and its own name exactly when that name is not empty; tools of different sources
have different names, and no call reaches a source that is not live. -/
theorem tools_route_back {transit : Connections.Transit Ref} {skew : ℤ} {limits : Limits}
    {events : List (IntegrationCaps.Event Ref)}
    (hg : Guarded (step lower catalogue transit skew limits) (Unshadowed lower catalogue)
      State.init events)
    (hrun : run (step lower catalogue transit skew limits) State.init events = some s)
    (toolset : Text → List (Spec P))
    (discover : Text → McpServer Ref → Option (List (Spec P))) (maxDiscoveredTools : ℕ) :
    (∀ tool ∈ listTools toolset discover s maxDiscoveredTools, ∃ own,
      tool.name = tool.source.slug ++ dot :: own ∧
      ((∀ gate, invokeTool gate s tool.name = pass gate tool.source own) ↔ own ≠ []) ∧
      ∀ other ∈ listTools toolset discover s maxDiscoveredTools,
        other.source ≠ tool.source → other.name ≠ tool.name) ∧
    ∀ gate name call, invokeTool gate s name = .ok call → Live s call.1 := by
  have hs : Named lower catalogue s :=
    run_invariant (fun _ _ _ hi hok ht => step_named ht hok hi) hg hrun named_init
  have hl : ∀ tool ∈ listTools toolset discover s maxDiscoveredTools,
      ∃ own, tool.name = tool.source.slug ++ dot :: own ∧ Live s tool.source := by
    intro tool hto
    obtain ⟨⟨source, spec⟩, hf, rfl⟩ := mem_map.mp (mem_of_mem_take hto)
    exact ⟨spec.name, rfl, live_of_mem_found hf⟩
  refine ⟨fun tool hto => ?_, fun gate name call h => live_of_invokeTool h⟩
  obtain ⟨own, hn, hli⟩ := hl tool hto
  refine ⟨own, hn, ⟨fun h hown => ?_, fun hown gate => ?_⟩, fun other hot hne heq => ?_⟩
  · have ho := h fun _ => none
    rw [hn, invokeTool_of_live hs hli, if_pos hown] at ho
    cases ho
  · rw [hn, invokeTool_of_live hs hli, if_neg hown]
  · obtain ⟨_, hna, hlv⟩ := hl other hot
    rw [hn, hna] at heq
    exact hne (source_eq_of_name hs hlv hli heq)

private def plain : Connections.Transit Connections.Tokens :=
  ⟨fun _ tokens => tokens, id, fun _ _ => rfl⟩

private def oneStep : State Connections.Tokens → IntegrationCaps.Event Connections.Tokens →
    Option (State Connections.Tokens) :=
  step id [ofString "github"] plain 60 ⟨1, 1⟩

private def wiki : List (IntegrationCaps.Event Connections.Tokens) :=
  .register 1 ⟨ofString " wiki", [], [], none⟩ :: replicate 3 (.next 1)

private def wikiTools (name : Text) (s : State Connections.Tokens) : List (DiscoveredTool Unit) :=
  listTools (fun _ => []) (fun _ _ => some [⟨name, [], ()⟩]) s 10

theorem tools_route_back_wiki :
    ∃ s, run oneStep State.init wiki = some s ∧
      (wikiTools (ofString "find.page") s).map DiscoveredTool.name =
        [ofString "wiki.find.page"] ∧
      ∀ gate name call, invokeTool gate s name = .ok call → Live s call.1 := by
  obtain ⟨s, hrun, ht⟩ := exists_run_of_any
    (p := fun s => (wikiTools (ofString "find.page") s).map DiscoveredTool.name =
      [ofString "wiki.find.page"])
    (show (run oneStep State.init wiki).any _ = true by decide +kernel)
  have hg : Guarded oneStep (Unshadowed id [ofString "github"]) State.init wiki := by
    decide +kernel
  exact ⟨s, hrun, of_decide_eq_true ht, (tools_route_back hg hrun (fun _ => [])
    (fun _ _ => some [⟨ofString "find.page", [], ()⟩]) 10).2⟩

/-- A server may list a tool without a name, and a call of that tool is malformed. -/
theorem nameless_tool_is_listed :
    ∃ s, run oneStep State.init wiki = some s ∧ ∃ tool ∈ wikiTools [] s,
      invokeTool (fun _ => none) s tool.name = .error .malformed := by
  obtain ⟨s, hrun, ht⟩ := exists_run_of_any (p := fun s => decide (∃ tool ∈ wikiTools [] s,
      invokeTool (fun _ => none) s tool.name = .error .malformed))
    (show (run oneStep State.init wiki).any _ = true by decide +kernel)
  exact ⟨s, hrun, of_decide_eq_true ht⟩

end Aizzak.ToolRouting
