import Aizzak.EventRuns
import Aizzak.KeyedTables
import Aizzak.StreamDispatch

/-!
The rebuild of a corpus under another embedding model. A run scrolls the source page by page, asks
the target which of the points it has, embeds the texts of the others and upserts them under their
ids. A run may be cut off at any step, in the middle of an upsert too, and a later one goes on from
what has landed.
-/
namespace Aizzak.CorpusRebuild

open EventRuns KeyedTables PyText List
open StreamDispatch (Json)

inductive Vectors (Dense Sparse : Type) where
  | plain (dense : Dense)
  | named (dense : Option Dense) (sparse : Option Sparse)

structure Record (Dense Sparse : Type) where
  id : Text
  vector : Vectors Dense Sparse
  payload : Option (List (Text × Json))

structure VectorPoint (Dense Sparse : Type) where
  id : Text
  vector : Dense
  payload : List (Text × Json)
  sparse : Option Sparse

variable {Dense Sparse : Type}

def textOf (point : Record Dense Sparse) : Option Text :=
  match (point.payload.getD []).lookup (ofString "text") with
  | some (.str text) => some text
  | _ => none

def sparseOf (point : Record Dense Sparse) : Option Sparse :=
  match point.vector with
  | .plain _ => none
  | .named _ sparse => sparse

def toPoint (point : VectorPoint Dense Sparse) : Record Dense Sparse :=
  match point.sparse with
  | none => ⟨point.id, .plain point.vector, some point.payload⟩
  | some sparse => ⟨point.id, .named (some point.vector) (some sparse), some point.payload⟩

def rebuildPoints (embed : List Text → List Dense) (page : List (Record Dense Sparse)) :
    List (VectorPoint Dense Sparse) :=
  let rebuildable := page.filter fun point => (textOf point).isSome
  let texts := rebuildable.filterMap textOf
  (rebuildable.zip (embed texts)).map fun (point, vector) =>
    ⟨point.id, vector, point.payload.getD [], sparseOf point⟩

def upsert (target : AList fun _ : Text => Record Dense Sparse)
    (points : List (VectorPoint Dense Sparse)) : AList fun _ : Text => Record Dense Sparse :=
  points.foldl (fun target point => target.insert point.id (toPoint point)) target

def rebuilt (vectorOf : Text → Dense) (point : Record Dense Sparse) :
    Option (Record Dense Sparse) :=
  (textOf point).map fun text =>
    match sparseOf point with
    | none => ⟨point.id, .plain (vectorOf text), point.payload⟩
    | some sparse => ⟨point.id, .named (some (vectorOf text)) (some sparse), point.payload⟩

structure Corpus (Dense Sparse : Type) where
  points : List (Record Dense Sparse)
  nodup : (points.map (·.id)).Nodup

inductive Phase (Dense Sparse : Type) where
  | provisioning
  | scrolling (offset : ℕ)
  | retrieving (page : List (Record Dense Sparse)) (next : Option ℕ)
  | embedding (pending : List (Record Dense Sparse)) (next : Option ℕ)
  | upserting (points : List (VectorPoint Dense Sparse)) (next : Option ℕ)

structure Build (Dense Sparse : Type) where
  batch : ℕ
  resume : Bool
  copied : ℕ
  skipped : ℕ
  phase : Phase Dense Sparse

structure BuildResult where
  copied : ℕ
  skipped : ℕ
deriving DecidableEq

structure State (Dense Sparse : Type) where
  target : Option (AList fun _ : Text => Record Dense Sparse)
  build : Option (Build Dense Sparse)
  result : Option BuildResult

inductive Event where
  | start (batch : ℕ) (resume : Bool)
  | next
  | cut (landed : List Text)

namespace State

def init : State Dense Sparse := ⟨none, none, none⟩

def points (s : State Dense Sparse) : AList fun _ : Text => Record Dense Sparse :=
  s.target.getD ∅

def loop (s : State Dense Sparse) (build : Build Dense Sparse) (next : Option ℕ) :
    State Dense Sparse :=
  match next with
  | none => { s with build := none, result := some ⟨build.copied, build.skipped⟩ }
  | some offset => { s with build := some { build with phase := .scrolling offset } }

end State

section Machine

variable (embed : List Text → List Dense) (source : Corpus Dense Sparse)

def scroll (offset batch : ℕ) : List (Record Dense Sparse) × Option ℕ :=
  ((source.points.drop offset).take batch,
    if offset + batch < source.points.length then some (offset + batch) else none)

def advance (s : State Dense Sparse) (build : Build Dense Sparse) : State Dense Sparse :=
  match build.phase with
  | .provisioning =>
    { s with target := some s.points, build := some { build with phase := .scrolling 0 } }
  | .scrolling offset =>
    let (page, next) := scroll source offset build.batch
    if page.isEmpty then s.loop build none
    else if build.resume then { s with build := some { build with phase := .retrieving page next } }
    else { s with build := some { build with phase := .embedding page next } }
  | .retrieving page next =>
    let pending := page.filter fun point => point.id ∉ s.points
    let build := { build with skipped := build.skipped + (page.length - pending.length) }
    if pending.isEmpty then s.loop build next
    else { s with build := some { build with phase := .embedding pending next } }
  | .embedding pending next =>
    let points := rebuildPoints embed pending
    if points.isEmpty then s.loop build next
    else { s with build := some { build with phase := .upserting points next } }
  | .upserting points next =>
    let build := { build with copied := build.copied + points.length }
    { s with target := some (upsert s.points points) }.loop build next

def step (s : State Dense Sparse) : Event → Option (State Dense Sparse)
  | .start batch resume =>
    match s.build with
    | some _ => none
    | none =>
      if batch = 0 then none
      else some { s with build := some ⟨batch, resume, 0, 0, .provisioning⟩, result := none }
  | .next => s.build.map (advance embed source s)
  | .cut landed =>
    match s.build with
    | none => none
    | some build =>
      match build.phase with
      | .upserting points _ =>
        some { s with
          target := some (upsert s.points (points.filter (·.id ∈ landed)))
          build := none }
      | _ => some { s with build := none }

end Machine

section Points

variable {embed : List Text → List Dense} {vectorOf : Text → Dense}

theorem rebuildPoints_eq (he : ∀ texts, embed texts = texts.map vectorOf)
    (page : List (Record Dense Sparse)) :
    rebuildPoints embed page = page.filterMap fun point => (textOf point).map fun text =>
      ⟨point.id, vectorOf text, point.payload.getD [], sparseOf point⟩ := by
  rw [rebuildPoints, he]
  induction page with
  | nil => rfl
  | cons point page ih =>
    cases htext : textOf point with
    | none => simpa [filter_cons, htext] using ih
    | some text => simpa [filter_cons, htext] using ih

variable {point : Record Dense Sparse}

theorem payload_of_textOf {text : Text} (h : textOf point = some text) :
    some (point.payload.getD []) = point.payload := by
  cases hp : point.payload with
  | none => simp [textOf, hp] at h
  | some payload => rfl

theorem toPoint_rebuilt {text : Text} (h : textOf point = some text) :
    rebuilt vectorOf point = some (toPoint ⟨point.id, vectorOf text, point.payload.getD [],
      sparseOf point⟩) := by
  have hp := payload_of_textOf h
  cases hsp : sparseOf point <;> simp [rebuilt, toPoint, h, hsp, hp]

theorem mem_rebuildPoints (he : ∀ texts, embed texts = texts.map vectorOf)
    {page : List (Record Dense Sparse)} {vectorPoint : VectorPoint Dense Sparse}
    (h : vectorPoint ∈ rebuildPoints embed page) :
    ∃ point ∈ page, vectorPoint.id = point.id ∧
      rebuilt vectorOf point = some (toPoint vectorPoint) := by
  rw [rebuildPoints_eq he] at h
  obtain ⟨point, hp, hmap⟩ := mem_filterMap.mp h
  obtain ⟨text, htext, rfl⟩ := Option.map_eq_some_iff.mp hmap
  exact ⟨point, hp, rfl, toPoint_rebuilt htext⟩

theorem id_mem_rebuildPoints (he : ∀ texts, embed texts = texts.map vectorOf)
    {page : List (Record Dense Sparse)} (hp : point ∈ page) (htext : (textOf point).isSome) :
    point.id ∈ (rebuildPoints embed page).map (·.id) := by
  obtain ⟨text, htext⟩ := Option.isSome_iff_exists.mp htext
  rw [rebuildPoints_eq he]
  refine mem_map.mpr
    ⟨⟨point.id, vectorOf text, point.payload.getD [], sparseOf point⟩, ?_, rfl⟩
  refine mem_filterMap.mpr ⟨point, hp, ?_⟩
  rw [htext]
  rfl

variable {target : AList fun _ : Text => Record Dense Sparse}
  {points : List (VectorPoint Dense Sparse)} {id : Text} {record : Record Dense Sparse}

theorem lookup_upsert (h : (upsert target points).lookup id = some record) :
    (∃ point ∈ points, point.id = id ∧ toPoint point = record) ∨
      target.lookup id = some record := by
  induction points generalizing target with
  | nil => exact .inr h
  | cons first points ih =>
    rcases ih h with ⟨point, hp, hid⟩ | hl
    · exact .inl ⟨point, mem_cons_of_mem _ hp, hid⟩
    · rcases lookup_insert_iff.mp hl with ⟨rfl, rfl⟩ | ⟨-, hl⟩
      · exact .inl ⟨first, mem_cons_self, rfl, rfl⟩
      · exact .inr hl

theorem mem_upsert : id ∈ upsert target points ↔ id ∈ target ∨ id ∈ points.map (·.id) := by
  induction points generalizing target with
  | nil => simp [upsert]
  | cons first points ih =>
    have hf : upsert target (first :: points) =
        upsert (target.insert first.id (toPoint first)) points := rfl
    rw [hf, ih, AList.mem_insert, map_cons, mem_cons]
    tauto

end Points

def passed (source : Corpus Dense Sparse) : Option ℕ → List (Record Dense Sparse)
  | none => source.points
  | some offset => source.points.take offset

/-- Every point passed that has a text is in the target, or still to be treated. -/
def Covers (source : Corpus Dense Sparse) (s : State Dense Sparse) (next : Option ℕ)
    (todo : Text → Prop) : Prop :=
  ∀ point ∈ passed source next, (textOf point).isSome → point.id ∈ s.points ∨ todo point.id

def Ready (vectorOf : Text → Dense) (source : Corpus Dense Sparse) (s : State Dense Sparse) :
    Phase Dense Sparse → Prop
  | .provisioning => True
  | .scrolling offset => Covers source s (some offset) fun _ => False
  | .retrieving page next | .embedding page next =>
    (∀ point ∈ page, point ∈ source.points) ∧ Covers source s next fun id => id ∈ page.map (·.id)
  | .upserting points next =>
    (∀ vectorPoint ∈ points, ∃ point ∈ source.points, vectorPoint.id = point.id ∧
      rebuilt vectorOf point = some (toPoint vectorPoint)) ∧
    Covers source s next fun id => id ∈ points.map (·.id)

/-- The target holds nothing but what points of the source become. -/
structure Sound (vectorOf : Text → Dense) (source : Corpus Dense Sparse)
    (s : State Dense Sparse) : Prop where
  points : ∀ id record, s.points.lookup id = some record →
    ∃ point ∈ source.points, point.id = id ∧ rebuilt vectorOf point = some record
  build : ∀ build, s.build = some build →
    s.result = none ∧ 0 < build.batch ∧ Ready vectorOf source s build.phase
  result : s.result.isSome → Covers source s none fun _ => False

section Runs

variable {embed : List Text → List Dense} {vectorOf : Text → Dense}
  {source : Corpus Dense Sparse} {s t : State Dense Sparse} {build : Build Dense Sparse}

theorem Covers.mono {next : Option ℕ} {todo rest : Text → Prop} (h : Covers source s next todo)
    (hg : ∀ id, id ∈ s.points → id ∈ t.points)
    (ht : ∀ id, todo id → id ∈ t.points ∨ rest id) : Covers source t next rest := by
  intro point hp htext
  rcases h point hp htext with hmem | hmem
  · exact .inl (hg _ hmem)
  · exact ht _ hmem

/-- A page that is done: the loop goes on or the run returns. -/
theorem Sound.loop {next : Option ℕ} (hp : ∀ id record, s.points.lookup id = some record →
      ∃ point ∈ source.points, point.id = id ∧ rebuilt vectorOf point = some record)
    (hr : s.result = none) (hb : 0 < build.batch)
    (hc : Covers source s next fun _ => False) :
    Sound vectorOf source (s.loop build next) := by
  cases next with
  | none =>
    refine ⟨hp, ?_, fun _ => hc⟩
    rintro _ ⟨⟩
  | some offset =>
    refine ⟨hp, ?_, fun hso => ?_⟩
    · rintro build' hbu
      cases hbu
      exact ⟨hr, hb, hc⟩
    · rw [show (s.loop build (some offset)).result = s.result from rfl, hr] at hso
      cases hso

theorem Ready.same {phase : Phase Dense Sparse} (h : Ready vectorOf source s phase)
    (hp : t.points = s.points) : Ready vectorOf source t phase := by
  cases phase with
  | provisioning => trivial
  | _ => simpa only [Ready, Covers, hp] using h

/-- A run that goes on without a write. -/
theorem Sound.phase (hs : Sound vectorOf source s) (hb : s.build = some build)
    {after : Build Dense Sparse} (hba : after.batch = build.batch)
    (hr : Ready vectorOf source s after.phase) :
    Sound vectorOf source { s with build := some after } where
  points := hs.points
  build build' h := by
    cases h
    obtain ⟨hre, hpos, -⟩ := hs.build build hb
    exact ⟨hre, hba ▸ hpos, hr.same rfl⟩
  result h := hs.result h

theorem forall_lookup_upsert {points : List (VectorPoint Dense Sparse)}
    (hs : Sound vectorOf source s)
    (hp : ∀ vectorPoint ∈ points, ∃ point ∈ source.points, vectorPoint.id = point.id ∧
      rebuilt vectorOf point = some (toPoint vectorPoint)) :
    ∀ id record, (upsert s.points points).lookup id = some record →
      ∃ point ∈ source.points, point.id = id ∧ rebuilt vectorOf point = some record := by
  intro id record hl
  rcases lookup_upsert hl with ⟨vectorPoint, hmem, rfl, rfl⟩ | hold
  · obtain ⟨point, hpo, hid, hr⟩ := hp vectorPoint hmem
    exact ⟨point, hpo, hid.symm, hr⟩
  · exact hs.points id record hold

theorem passed_scroll (source : Corpus Dense Sparse) (offset batch : ℕ) :
    passed source (scroll source offset batch).2 =
      source.points.take offset ++ (scroll source offset batch).1 := by
  have ht : source.points.take (offset + batch) =
      source.points.take offset ++ (source.points.drop offset).take batch := take_add
  by_cases hm : offset + batch < source.points.length
  · simpa [scroll, hm, passed] using ht
  · have hall : source.points.take (offset + batch) = source.points :=
      take_of_length_le (by omega)
    simp [scroll, hm, passed, ← ht, hall]

/-- No call of a build puts anything strange into the target. -/
theorem advance_sound (hem : ∀ texts, embed texts = texts.map vectorOf)
    (hs : Sound vectorOf source s) (hbu : s.build = some build) :
    Sound vectorOf source (advance embed source s build) := by
  obtain ⟨hrs, hba, hre⟩ := hs.build build hbu
  unfold advance
  split
  · refine ⟨hs.points, ?_, fun h => hs.result h⟩
    rintro build' hb
    cases hb
    exact ⟨hrs, hba, fun point hpn => by simp [passed] at hpn⟩
  · rename_i offset hph
    rw [hph] at hre
    have hp := passed_scroll source offset build.batch
    have hpa : ∀ point ∈ (scroll source offset build.batch).1, point ∈ source.points :=
      fun point hpn => mem_of_mem_drop (mem_of_mem_take hpn)
    have hnil : (scroll source offset build.batch).1 = [] →
        source.points.take offset = source.points := by
      intro hnil
      have hd := (take_eq_nil_iff.mp hnil).resolve_left hba.ne'
      exact take_of_length_le (drop_eq_nil_iff.mp hd)
    rcases hsc : scroll source offset build.batch with ⟨page, next⟩
    rw [hsc] at hp hpa hnil
    have hc : Covers source s next fun id => id ∈ page.map (·.id) := by
      intro point hpn htext
      rw [hp, mem_append] at hpn
      rcases hpn with hpn | hpn
      · exact (hre point hpn htext).imp_right False.elim
      · exact .inr (mem_map_of_mem hpn)
    simp only
    split_ifs with he
    · refine Sound.loop hs.points hrs hba ?_
      rw [Ready, Covers, passed, hnil (isEmpty_iff.mp he)] at hre
      exact hre
    · refine hs.phase hbu rfl ?_
      exact ⟨hpa, hc⟩
    · refine hs.phase hbu rfl ?_
      exact ⟨hpa, hc⟩
  · rename_i page next hph
    rw [hph] at hre
    obtain ⟨hpa, hc⟩ := hre
    have hpe : Covers source s next
        fun id => id ∈ (page.filter fun point => point.id ∉ s.points).map (·.id) := by
      refine hc.mono (fun _ h => h) fun id hid => ?_
      obtain ⟨point, hpn, rfl⟩ := mem_map.mp hid
      by_cases hmem : point.id ∈ s.points
      · exact .inl hmem
      · exact .inr (mem_map_of_mem (mem_filter.mpr ⟨hpn, by simp [hmem]⟩))
    simp only
    split_ifs with he
    · refine Sound.loop hs.points hrs hba ?_
      refine hpe.mono (fun _ h => h) fun id hid => ?_
      rw [isEmpty_iff.mp he] at hid
      cases hid
    · refine hs.phase hbu rfl ?_
      exact ⟨fun point hpn => hpa point (mem_of_mem_filter hpn), hpe⟩
  · rename_i pending next hph
    rw [hph] at hre
    obtain ⟨hpa, hc⟩ := hre
    have hpo : Covers source s next
        fun id => id ∈ (rebuildPoints embed pending).map (·.id) := by
      intro point hpn htext
      refine (hc point hpn htext).imp_right fun hid => ?_
      obtain ⟨same, hsa, hid⟩ := mem_map.mp hid
      have hp : point ∈ source.points := by
        cases next with
        | none => exact hpn
        | some offset => exact mem_of_mem_take hpn
      obtain rfl := inj_on_of_nodup_map source.nodup (hpa same hsa) hp hid
      exact id_mem_rebuildPoints hem hsa htext
    simp only
    split_ifs with he
    · refine Sound.loop hs.points hrs hba ?_
      refine hpo.mono (fun _ h => h) fun id hid => ?_
      rw [isEmpty_iff.mp he] at hid
      cases hid
    · refine hs.phase hbu rfl ?_
      refine ⟨fun vectorPoint hmem => ?_, hpo⟩
      obtain ⟨point, hpn, hr⟩ := mem_rebuildPoints hem hmem
      exact ⟨point, hpa point hpn, hr⟩
  · rename_i points next hph
    rw [hph] at hre
    obtain ⟨hpo, hc⟩ := hre
    refine Sound.loop (forall_lookup_upsert hs hpo) hrs hba ?_
    refine hc.mono (fun id hid => mem_upsert.mpr (.inl hid)) fun id hid => ?_
    exact .inl (mem_upsert.mpr (.inr hid))

/-- The target holds rebuilt points only, whoever acts. -/
theorem step_sound (he : ∀ texts, embed texts = texts.map vectorOf) {e : Event}
    (hs : Sound vectorOf source s) (h : step embed source s e = some t) :
    Sound vectorOf source t := by
  have hcut : ∀ points, (∀ id record, points.lookup id = some record →
      ∃ point ∈ source.points, point.id = id ∧ rebuilt vectorOf point = some record) →
      s.build.isSome → Sound vectorOf source { s with target := some points, build := none } := by
    intro points hp hb
    obtain ⟨build, hb⟩ := Option.isSome_iff_exists.mp hb
    refine ⟨hp, ?_, fun hso => ?_⟩
    · rintro _ ⟨⟩
    · rw [(hs.build build hb).1] at hso
      cases hso
  cases e with
  | start batch resume =>
    simp only [step] at h
    split at h
    · cases h
    · split_ifs at h with hz
      cases h
      refine ⟨hs.points, ?_, ?_⟩
      · rintro build hb
        cases hb
        exact ⟨rfl, Nat.pos_of_ne_zero hz, trivial⟩
      · rintro ⟨⟩
  | next =>
    obtain ⟨build, hb, rfl⟩ := Option.map_eq_some_iff.mp h
    exact advance_sound he hs hb
  | cut landed =>
    simp only [step] at h
    split at h
    · cases h
    · rename_i build hb
      obtain ⟨hre, -, hr⟩ := hs.build build hb
      split at h
      · rename_i points next hph
        rw [hph] at hr
        cases h
        refine hcut _ (forall_lookup_upsert hs fun vectorPoint hmem => ?_) (by simp [hb])
        exact hr.1 vectorPoint (mem_of_mem_filter hmem)
      · cases h
        refine ⟨hs.points, ?_, fun hso => ?_⟩
        · rintro _ ⟨⟩
        · rw [show ({ s with build := none } : State Dense Sparse).result = s.result from rfl,
            hre] at hso
          cases hso

theorem sound_init : Sound vectorOf source (State.init : State Dense Sparse) where
  points id record h := by simp [State.init, State.points] at h
  build build h := by cases h
  result h := by cases h

theorem run_sound (he : ∀ texts, embed texts = texts.map vectorOf) {es : List Event}
    (hrun : run (step embed source) .init es = some s) : Sound vectorOf source s :=
  run_invariant_of_step (fun _ _ _ hu hv => step_sound he hu hv) hrun sound_init

end Runs

def Spare (source : Corpus Dense Sparse) : Phase Dense Sparse → Prop
  | .provisioning | .scrolling _ => True
  | .retrieving page _ => ∀ point ∈ page, point ∈ source.points
  | .embedding pending _ => ∀ point ∈ pending, textOf point = none
  | .upserting _ _ => False

/-- Nothing is copied, and the target stays as it was. -/
structure Idle (source : Corpus Dense Sparse) (whole : AList fun _ : Text => Record Dense Sparse)
    (s : State Dense Sparse) : Prop where
  points : s.points = whole
  build : ∀ build, s.build = some build →
    build.resume = true ∧ build.copied = 0 ∧ Spare source build.phase
  result : ∀ result, s.result = some result → result.copied = 0

def Resumes : Event → Prop
  | .start _ resume => resume = true
  | .next | .cut _ => True

section Idle

variable {embed : List Text → List Dense} {vectorOf : Text → Dense}
  {source : Corpus Dense Sparse} {whole : AList fun _ : Text => Record Dense Sparse}
  {s t : State Dense Sparse} {build : Build Dense Sparse}

theorem rebuildPoints_eq_nil {page : List (Record Dense Sparse)}
    (h : ∀ point ∈ page, textOf point = none) : rebuildPoints embed page = [] := by
  have hn : page.filter (fun point => (textOf point).isSome) = [] := by
    rw [filter_eq_nil_iff]
    intro point hp
    simp [h point hp]
  simp [rebuildPoints, hn]

theorem Idle.phase (hs : Idle source whole s) {after : Build Dense Sparse}
    (hr : after.resume = true) (hc : after.copied = 0)
    (hsp : Spare source after.phase) :
    Idle source whole { s with build := some after } where
  points := hs.points
  build build' h := by
    cases h
    exact ⟨hr, hc, hsp⟩
  result := hs.result

theorem Idle.loop (hs : Idle source whole s) (hr : build.resume = true)
    (hc : build.copied = 0) (next : Option ℕ) : Idle source whole (s.loop build next) := by
  cases next with
  | none =>
    refine ⟨hs.points, ?_, fun result h => ?_⟩
    · rintro _ ⟨⟩
    · cases h
      exact hc
  | some offset => exact hs.phase hr hc trivial

section

variable (hwhole : ∀ point ∈ source.points, (textOf point).isSome → point.id ∈ whole)
    (hs : Idle source whole s)
include hwhole hs

/-- A build with nothing to copy stays so. -/
theorem advance_idle (hb : s.build = some build) :
    Idle source whole (advance embed source s build) := by
  obtain ⟨hr, hc, hsp⟩ := hs.build build hb
  unfold advance
  split
  · refine ⟨hs.points, fun build' h => ?_, hs.result⟩
    cases h
    exact ⟨hr, hc, trivial⟩
  · rename_i offset hph
    have hpa : ∀ point ∈ (scroll source offset build.batch).1, point ∈ source.points :=
      fun point hpo => mem_of_mem_drop (mem_of_mem_take hpo)
    rcases hsc : scroll source offset build.batch with ⟨page, next⟩
    rw [hsc] at hpa
    simp only
    split_ifs
    · exact hs.loop hr hc none
    · exact hs.phase hr hc hpa
  · rename_i page next hph
    rw [hph] at hsp
    have hp : ∀ point ∈ page.filter (fun point => point.id ∉ s.points),
        textOf point = none := by
      intro point hpo
      obtain ⟨hmem, hnot⟩ := mem_filter.mp hpo
      cases htext : textOf point with
      | none => rfl
      | some text =>
        have hin := hwhole point (hsp point hmem) (by rw [htext]; rfl)
        rw [← hs.points] at hin
        simp [hin] at hnot
    simp only
    split_ifs
    · refine hs.loop ?_ ?_ next
      · exact hr
      · exact hc
    · exact hs.phase hr hc hp
  · rename_i pending next hph
    rw [hph] at hsp
    have hn : rebuildPoints embed pending = [] := rebuildPoints_eq_nil hsp
    simp only [hn, isEmpty_nil, if_true]
    exact hs.loop hr hc next
  · rename_i points next hph
    rw [hph] at hsp
    exact hsp.elim

theorem step_idle {e : Event} (hok : Resumes e) (h : step embed source s e = some t) :
    Idle source whole t := by
  cases e with
  | start batch resume =>
    simp only [step] at h
    split at h
    · cases h
    · split_ifs at h
      cases h
      refine ⟨hs.points, fun build hb => ?_, ?_⟩
      · cases hb
        exact ⟨hok, rfl, trivial⟩
      · rintro _ ⟨⟩
  | next =>
    obtain ⟨build, hb, rfl⟩ := Option.map_eq_some_iff.mp h
    exact advance_idle hwhole hs hb
  | cut landed =>
    simp only [step] at h
    split at h
    · cases h
    · rename_i build hb
      obtain ⟨-, -, hsp⟩ := hs.build build hb
      split at h
      · rename_i points next hp
        rw [hp] at hsp
        exact hsp.elim
      · cases h
        refine ⟨hs.points, ?_, hs.result⟩
        rintro _ ⟨⟩

end

/-- Once a run has returned, the target is what the points of the source with a text become,
however many runs were cut off before it; and to build again copies nothing. -/
theorem resumed_rebuild_is_whole (hembed : ∀ texts, embed texts = texts.map vectorOf)
    {es : List Event} (hrun : run (step embed source) .init es = some s)
    (hreturned : s.result.isSome) :
    (∀ id record, s.points.lookup id = some record ↔
      ∃ point ∈ source.points, point.id = id ∧ rebuilt vectorOf point = some record) ∧
    ∀ batch fs t, (∀ e ∈ fs, Resumes e) →
      run (step embed source) s (.start batch true :: fs) = some t →
      t.points = s.points ∧ ∀ result, t.result = some result → result.copied = 0 := by
  have hs := run_sound hembed hrun
  have hc := hs.result hreturned
  have hwhole : ∀ point ∈ source.points, (textOf point).isSome → point.id ∈ s.points :=
    fun point hp htext => (hc point hp htext).resolve_right False.elim
  constructor
  · intro id record
    refine ⟨hs.points id record, ?_⟩
    rintro ⟨point, hp, rfl, hr⟩
    obtain ⟨text, htext, -⟩ := Option.map_eq_some_iff.mp hr
    have hmem := hwhole point hp (by rw [htext]; rfl)
    obtain ⟨stored, hst⟩ := Option.isSome_iff_exists.mp (AList.lookup_isSome.mpr hmem)
    obtain ⟨same, hsa, hid, hb⟩ := hs.points _ _ hst
    obtain rfl := inj_on_of_nodup_map source.nodup hsa hp hid
    rw [hst, ← hb, hr]
  · intro batch fs t hfs ha
    obtain ⟨u, hu, hre⟩ := run_cons_eq_some ha
    have hi : Idle source s.points u := by
      simp only [step] at hu
      split at hu
      · cases hu
      · split_ifs at hu
        cases hu
        refine ⟨rfl, fun build hbu => ?_, ?_⟩
        · cases hbu
          exact ⟨rfl, rfl, trivial⟩
        · rintro _ ⟨⟩
    have hg : Guarded (step embed source) (fun _ e => Resumes e) u fs :=
      guarded_of_forall fun e he _ => hfs e he
    have hk : ∀ v e w, Idle source s.points v → Resumes e → step embed source v e = some w →
        Idle source s.points w := fun _ _ _ hv hok hw => step_idle hwhole hv hok hw
    have hl := run_invariant hk hg hre hi
    exact ⟨hl.points, hl.result⟩

end Idle

private def sample : Corpus ℕ ℕ where
  points :=
    [⟨[1], .named (some 0) (some 7), some [(ofString "text", .str [97])]⟩,
      ⟨[2], .plain 0, some [(ofString "text", .str [97, 98])]⟩,
      ⟨[3], .plain 0, some [(ofString "page", .int 4)]⟩, ⟨[4], .plain 0, none⟩,
      ⟨[5], .named (some 0) none, some [(ofString "text", .str [])]⟩]
  nodup := by decide

/-- Of the first run's page one point lands, a second run is cut off before it embeds, a third
one returns. -/
private def threeRuns : List Event :=
  .start 2 true :: List.replicate 4 .next ++ [.cut [[1]], .start 2 true, .next, .next, .next,
    .cut []] ++ .start 3 true :: List.replicate 9 .next

private def lengths (texts : List Text) : List ℕ := texts.map (·.length)

theorem third_run_is_whole :
    ∃ s, run (step lengths sample) .init threeRuns = some s ∧ s.result = some ⟨2, 1⟩ ∧
      (∀ id record, s.points.lookup id = some record ↔
        ∃ point ∈ sample.points, point.id = id ∧ rebuilt List.length point = some record) ∧
      ∀ batch fs t, (∀ e ∈ fs, Resumes e) →
        run (step lengths sample) s (.start batch true :: fs) = some t →
        t.points = s.points ∧ ∀ result, t.result = some result → result.copied = 0 := by
  obtain ⟨s, hrun, ht⟩ := exists_run_of_any
    (p := fun s : State ℕ ℕ => s.result = some ⟨2, 1⟩)
    (show (run (step lengths sample) .init threeRuns).any _ = true by decide +kernel)
  have hr := of_decide_eq_true ht
  refine ⟨s, hrun, hr, ?_⟩
  exact resumed_rebuild_is_whole (fun _ => rfl) hrun (by rw [hr]; rfl)

end Aizzak.CorpusRebuild
