import Aizzak.EventRuns
import Aizzak.ProfileSoundness

/-!
Runs over the stored profile versions of the projects and their documents. A body is read when
it comes in, an inspection proposes what its evidence makes of the profile in force when it was
taken, and a person confirms the proposal as it is or edited. Versions are only ever appended.
-/
namespace Aizzak.ProfileVersions

open EventRuns PyText Normalization IdentifierParsers RuleNarrowing VoltageLabels DrawingProfiles
  Option ProfileDetection ProfileSoundness

inductive ProfileSource where
  | default
  | user
  | detected
  | confirmed
  deriving DecidableEq

inductive ProfileState where
  | none
  | proposed
  | accepted
  | confirmed
  deriving DecidableEq

inductive Owner (Id : Type) where
  | project (id : Id)
  | document (id : Id)
  deriving DecidableEq

structure ProfileVersion (Id : Type) where
  owner : Owner Id
  source : ProfileSource
  profile : DrawingProfile

/-- An open job. A running one has read the profile in force when it was taken. -/
inductive JobState where
  | queued
  | running (base : DrawingProfile)
  | awaiting

structure Document (Id : Type) where
  project : Id
  state : ProfileState
  job : Option JobState

structure Drawings (Id : Type) where
  projects : List Id
  documents : Id → Option (Document Id)
  versions : List (ProfileVersion Id)

/-- A project is created with a body or with the default; a document's profile is confirmed as
it was proposed or as a body edits it. A job closes when it fails or is cancelled. -/
inductive Event (Id : Type) where
  | createProject (project : Id) (body : Option Json)
  | replaceProject (project : Id) (body : Json)
  | register (document project : Id)
  | replaceDocument (document : Id) (body : Json)
  | request (document : Id)
  | take (document : Id)
  | conclude (document : Id) (evidence : Evidence) (accepted : Bool)
  | confirm (document : Id) (body : Option Json)
  | close (document : Id)

variable {Id : Type} [DecidableEq Id]

namespace Drawings

variable (s : Drawings Id)

def latest (owner : Owner Id) : Option (ProfileVersion Id) :=
  s.versions.find? (·.owner = owner)

def append (owner : Owner Id) (source : ProfileSource) (profile : DrawingProfile) : Drawings Id :=
  { s with versions := ⟨owner, source, profile⟩ :: s.versions }

def save (id : Id) (document : Document Id) : Drawings Id :=
  { s with documents := Function.update s.documents id (some document) }

/-- A document's own latest version when it was accepted or confirmed, else its project's. -/
def effectiveProfile (id : Id) (document : Document Id) : DrawingProfile :=
  let projects := (s.latest (.project document.project)).elim {} (·.profile)
  if document.state = .accepted ∨ document.state = .confirmed then
    (s.latest (.document id)).elim projects (·.profile)
  else projects

end Drawings

section Step

variable (u : Unicode)

def parsed (body : Json) : Option DrawingProfile := (parseProfile u packaged body).toOption

def proposal (s : Drawings Id) (document : Id) : Option DrawingProfile :=
  ((s.latest (.document document)).filter (·.source = .detected)).map (·.profile)

/-- The end of an inspection. A person's decision stands; otherwise the proposal is stored, and
it is accepted or waits for a person. -/
def concluded (s : Drawings Id) (id : Id) (document : Document Id) (base : DrawingProfile)
    (evidence : Evidence) (accepted : Bool) : Drawings Id :=
  if document.state = .confirmed then s.save id { document with job := none }
  else
    (s.append (.document id) .detected (detectProfile u base evidence).profile).save id
      { document with
        state := if accepted then .accepted else .proposed
        job := if accepted then none else some .awaiting }

/-- `none` when the event is refused: an unknown id, a body that is no profile, a job that is not
in the state the event needs. -/
def step (s : Drawings Id) : Event Id → Option (Drawings Id)
  | .createProject project body =>
    if project ∈ s.projects then none
    else
      (body.elim (some {}) (parsed u)).map fun profile =>
        { s.append (.project project) (if body.isSome then .user else .default) profile with
          projects := project :: s.projects }
  | .replaceProject project body =>
    if project ∈ s.projects then (parsed u body).map (s.append (.project project) .user)
    else none
  | .register id project =>
    if project ∈ s.projects ∧ s.documents id = none then
      some (s.save id ⟨project, .none, some .queued⟩)
    else none
  | .replaceDocument id body =>
    (s.documents id).bind fun document =>
      match document.job with
      | some .awaiting => none
      | _ =>
        (parsed u body).map fun profile =>
          (s.append (.document id) .user profile).save id { document with state := .confirmed }
  | .request id =>
    (s.documents id).bind fun document =>
      match document.job with
      | none => some (s.save id { document with job := some .queued })
      | some _ => none
  | .take id =>
    (s.documents id).bind fun document =>
      match document.job with
      | some .queued | some (.running _) =>
        some (s.save id
          { document with job := some (.running (s.effectiveProfile id document)) })
      | _ => none
  | .conclude id evidence accepted =>
    (s.documents id).bind fun document =>
      match document.job with
      | some (.running base) => some (concluded u s id document base evidence accepted)
      | _ => none
  | .confirm id body =>
    (s.documents id).bind fun document =>
      match document.job with
      | some .awaiting =>
        (body.elim (proposal s id) (parsed u)).map fun profile =>
          (s.append (.document id) .confirmed profile).save id
            { document with
              state := .confirmed
              job := some .queued }
      | _ => none
  | .close id =>
    (s.documents id).map fun document => s.save id { document with job := none }

/-- A conclusion that stores its proposal was foreseen by the base. -/
def Foresees (s : Drawings Id) : Event Id → Prop
  | .conclude id evidence _ => ∀ document base, s.documents id = some document →
      document.job = some (.running base) → document.state ≠ .confirmed →
      Foreseen base evidence
  | _ => True

def empty : Drawings Id := ⟨[], fun _ => none, []⟩

end Step

section Soundness

variable {u : Unicode} {s t : Drawings Id} {e : Event Id} {es : List (Event Id)}

structure Sounds (u : Unicode) (s : Drawings Id) : Prop where
  versions : ∀ v ∈ s.versions, Sound u v.profile
  bases : ∀ id document base, s.documents id = some document →
    document.job = some (.running base) → Sound u base

omit [DecidableEq Id] in
theorem sounds_empty : Sounds u (empty : Drawings Id) where
  versions := fun _ h => absurd h List.not_mem_nil
  bases := fun _ _ _ h => absurd h.symm (some_ne_none _)

variable {p : DrawingProfile}

theorem sound_of_parsed {body : Json} (h : parsed u body = some p) :
    Sound u p := by
  rw [parsed] at h
  exact sound_of_parseProfile (toOption_eq_some h)

theorem Sounds.latest (h : Sounds u s) {owner : Owner Id} {v : ProfileVersion Id}
    (hv : s.latest owner = some v) : Sound u v.profile :=
  h.versions v (List.mem_of_find?_eq_some hv)

theorem Sounds.latest_elim (h : Sounds u s) (owner : Owner Id) (hp : Sound u p) :
    Sound u ((s.latest owner).elim p (·.profile)) := by
  cases hl : s.latest owner with
  | none => exact hp
  | some v => exact h.latest hl

theorem Sounds.effectiveProfile (h : Sounds u s) (id : Id) (document : Document Id) :
    Sound u (s.effectiveProfile id document) := by
  have hpr := h.latest_elim (.project document.project) sound_default
  unfold Drawings.effectiveProfile
  split_ifs
  · exact h.latest_elim _ hpr
  · exact hpr

variable {id : Id}

theorem Sounds.proposal (h : Sounds u s) (hp : proposal s id = some p) : Sound u p := by
  obtain ⟨v, hv, rfl⟩ := map_eq_some_iff.mp hp
  exact h.latest (eq_some_of_filter_eq_some hv)

omit [DecidableEq Id] in
theorem Sounds.append (h : Sounds u s) {owner : Owner Id} {source : ProfileSource}
    (hp : Sound u p) :
    Sounds u (s.append owner source p) where
  versions := List.forall_mem_cons.mpr ⟨hp, h.versions⟩
  bases := h.bases

variable {document : Document Id}

theorem Sounds.save (h : Sounds u s)
    (hjob : ∀ base, document.job = some (.running base) → Sound u base) :
    Sounds u (s.save id document) where
  versions := h.versions
  bases := by
    intro other saved base hs hb
    by_cases hid : other = id
    · subst hid
      simp only [Drawings.save, Function.update_self, some.injEq] at hs
      exact hjob base (hs ▸ hb)
    · simp only [Drawings.save, Function.update_of_ne hid] at hs
      exact h.bases other saved base hs hb

theorem Sounds.save_idle (h : Sounds u s) (hjob : ∀ base, document.job ≠ some (.running base)) :
    Sounds u (s.save id document) :=
  h.save fun base hb => absurd hb (hjob base)

theorem sounds_concluded (h : Sounds u s) {base : DrawingProfile} {evidence : Evidence}
    {accepted : Bool}
    (hpr : document.state ≠ .confirmed → Sound u (detectProfile u base evidence).profile) :
    Sounds u (concluded u s id document base evidence accepted) := by
  unfold concluded
  by_cases hc : document.state = .confirmed
  · rw [if_pos hc]
    exact h.save_idle (by simp)
  · rw [if_neg hc]
    exact (h.append (hpr hc)).save_idle (by cases accepted <;> simp)

/-- While conclusions are foreseen, stored profiles are sound. -/
theorem sounds_step (h : Sounds u s) (hok : Foresees s e) (ht : step u s e = some t) :
    Sounds u t := by
  cases e with
  | createProject project body =>
    rw [step] at ht
    by_cases hk : project ∈ s.projects
    · rw [if_pos hk] at ht
      cases ht
    rw [if_neg hk] at ht
    obtain ⟨profile, hpr, rfl⟩ := map_eq_some_iff.mp ht
    have hso : Sound u profile := by
      cases body with
      | none =>
        cases hpr
        exact sound_default
      | some body => exact sound_of_parsed hpr
    exact ⟨(h.append hso).versions, h.bases⟩
  | replaceProject project body =>
    simp only [step] at ht
    split_ifs at ht
    obtain ⟨profile, hpr, rfl⟩ := map_eq_some_iff.mp ht
    exact h.append (sound_of_parsed hpr)
  | register id project =>
    simp only [step] at ht
    split_ifs at ht
    cases ht
    exact h.save_idle (by simp)
  | replaceDocument id body =>
    obtain ⟨document, hd, ht⟩ := bind_eq_some_iff.mp ht
    split at ht
    · cases ht
    · obtain ⟨profile, hpr, rfl⟩ := map_eq_some_iff.mp ht
      exact (h.append (sound_of_parsed hpr)).save
        fun base => h.bases id document base hd
  | request id =>
    obtain ⟨document, hd, ht⟩ := bind_eq_some_iff.mp ht
    split at ht
    · cases ht
      exact h.save_idle (by simp)
    · cases ht
  | take id =>
    obtain ⟨document, hd, ht⟩ := bind_eq_some_iff.mp ht
    have hta : Sounds u (s.save id
        { document with job := some (.running (s.effectiveProfile id document)) }) := by
      refine h.save fun base hb => ?_
      rw [← JobState.running.inj (some.inj hb)]
      exact h.effectiveProfile id document
    split at ht
    · cases ht
      exact hta
    · cases ht
      exact hta
    · cases ht
  | conclude id evidence accepted =>
    obtain ⟨document, hd, ht⟩ := bind_eq_some_iff.mp ht
    split at ht
    · rename_i base hjob
      cases ht
      refine sounds_concluded h fun hs => ?_
      exact (h.bases id document base hd hjob).detect
        (hok document base hd hjob hs)
    · cases ht
  | confirm id body =>
    obtain ⟨document, hd, ht⟩ := bind_eq_some_iff.mp ht
    split at ht
    · obtain ⟨profile, hpr, rfl⟩ := map_eq_some_iff.mp ht
      have hso : Sound u profile := by
        cases body with
        | none => exact h.proposal hpr
        | some body => exact sound_of_parsed hpr
      exact (h.append hso).save_idle (by simp)
    · cases ht
  | close id =>
    obtain ⟨document, hd, rfl⟩ := map_eq_some_iff.mp ht
    exact h.save_idle (by simp)

/-- Versions are only added. -/
theorem versions_step (ht : step u s e = some t) : s.versions <:+ t.versions := by
  cases e with
  | createProject project body =>
    rw [step] at ht
    by_cases hk : project ∈ s.projects
    · rw [if_pos hk] at ht
      cases ht
    rw [if_neg hk] at ht
    obtain ⟨profile, -, rfl⟩ := map_eq_some_iff.mp ht
    exact List.suffix_cons _ _
  | replaceProject project body =>
    simp only [step] at ht
    split_ifs at ht
    obtain ⟨profile, -, rfl⟩ := map_eq_some_iff.mp ht
    exact List.suffix_cons _ _
  | register id project =>
    simp only [step] at ht
    split_ifs at ht
    cases ht
    exact List.suffix_refl _
  | replaceDocument id body =>
    obtain ⟨document, -, ht⟩ := bind_eq_some_iff.mp ht
    split at ht
    · cases ht
    · obtain ⟨profile, -, rfl⟩ := map_eq_some_iff.mp ht
      exact List.suffix_cons _ _
  | request id =>
    obtain ⟨document, -, ht⟩ := bind_eq_some_iff.mp ht
    split at ht
    · cases ht
      exact List.suffix_refl _
    · cases ht
  | take id =>
    obtain ⟨document, -, ht⟩ := bind_eq_some_iff.mp ht
    split at ht
    · cases ht
      exact List.suffix_refl _
    · cases ht
      exact List.suffix_refl _
    · cases ht
  | conclude id evidence accepted =>
    obtain ⟨document, -, ht⟩ := bind_eq_some_iff.mp ht
    split at ht
    · cases ht
      unfold concluded
      by_cases hc : document.state = .confirmed
      · rw [if_pos hc]
        exact List.suffix_refl _
      · rw [if_neg hc]
        exact List.suffix_cons _ _
    · cases ht
  | confirm id body =>
    obtain ⟨document, -, ht⟩ := bind_eq_some_iff.mp ht
    split at ht
    · obtain ⟨profile, -, rfl⟩ := map_eq_some_iff.mp ht
      exact List.suffix_cons _ _
    · cases ht
  | close id =>
    obtain ⟨document, -, rfl⟩ := map_eq_some_iff.mp ht
    exact List.suffix_refl _

theorem versions_run (hrun : run (step u) s es = some t) : s.versions <:+ t.versions := by
  induction es generalizing s with
  | nil =>
    cases hrun
    exact List.suffix_refl _
  | cons e es ih =>
    obtain ⟨v, hv, hr⟩ := run_cons_eq_some hrun
    exact (versions_step hv).trans (ih hr)

/-- A proposal is stored, and can be used when every later version can. -/
theorem foresees_of_usable (h : Sounds u s) (ht : step u s e = some t)
    (hu : ∀ v ∈ t.versions, Usable u v.profile) : Foresees s e := by
  cases e with
  | conclude id evidence accepted =>
    intro document base hd hjob hs
    have hc : step u s (.conclude id evidence accepted) =
        some (concluded u s id document base evidence accepted) := by
      simp only [step, hd, hjob, bind_some]
    obtain rfl := mem_unique ht hc
    rw [concluded, if_neg hs] at hu
    exact (h.bases id document base hd hjob).usable_detect_iff.mp
      (hu _ List.mem_cons_self)
  | createProject | replaceProject | register | replaceDocument | request | take | confirm
  | close => trivial

/-- What detection stores over a run can all be used exactly when every proposal that was stored
was foreseen by its base. -/
theorem usable_iff_guarded (hs : Sounds u s) (hrun : run (step u) s es = some t) :
    (∀ v ∈ t.versions, Usable u v.profile) ↔ Guarded (step u) Foresees s es := by
  induction es generalizing s with
  | nil =>
    cases hrun
    exact iff_of_true (fun v hv => (hs.versions v hv).usable) trivial
  | cons e es ih =>
    obtain ⟨v, hv, hr⟩ := run_cons_eq_some hrun
    have hg : Guarded (step u) Foresees s (e :: es) ↔
        Foresees s e ∧ Guarded (step u) Foresees v es := by
      rw [Guarded, hv]
    rw [hg]
    constructor
    · intro hu
      have hok := foresees_of_usable hs hv fun w hw => hu w ((versions_run hr).mem hw)
      exact ⟨hok, (ih (sounds_step hs hok hv) hr).mp hu⟩
    · rintro ⟨hok, hes⟩
      exact (ih (sounds_step hs hok hv) hr).mpr hes

end Soundness

section Runs

/-- The stored profiles of a run from the start can all be used exactly when no conclusion of it
stored a proposal whose families a voltage label of its base spells an address of. -/
theorem stored_usable_iff_foreseen {u : Unicode} {es : List (Event Id)} {s : Drawings Id}
    (hrun : run (step u) empty es = some s) :
    (∀ v ∈ s.versions, Usable u v.profile) ↔ Guarded (step u) Foresees empty es :=
  usable_iff_guarded sounds_empty hrun

instance decidableUsable (u : Unicode) (p : DrawingProfile) : Decidable (Usable u p) :=
  match h : narrowed u packaged p.ruleSelection with
  | .ok rules => isTrue ⟨rules, h⟩
  | .error e => isFalse (by
    rintro ⟨rules, hrules⟩
    rw [h] at hrules
    cases hrules)

def germanBody : Json :=
  .obj [field "schema" (.int 1), field "plc_families" (.list [.str (ofString "s7_de")]),
    field "voltage_labels" (.list [.str (ofString "IW64")])]

def englishEvidence : Evidence :=
  ⟨⟨none, none⟩, [.en], tally asciiUnicode packaged [ofString "I0.0"], []⟩

def inspection (evidence : Evidence) : List (Event ℕ) :=
  [.createProject 1 (some germanBody), .register 2 1, .take 2, .conclude 2 evidence false]

theorem inspection_usable_iff_foreseen : ∃ s : Drawings ℕ,
    run (step asciiUnicode) empty (inspection englishEvidence) = some s ∧
      ((∀ v ∈ s.versions, Usable asciiUnicode v.profile) ↔
        Guarded (step asciiUnicode) Foresees empty (inspection englishEvidence)) := by
  have hs : (run (step asciiUnicode) empty (inspection englishEvidence)).any
      (fun _ => true) = true := by decide +kernel
  obtain ⟨s, hrun, -⟩ := exists_run_of_any hs
  exact ⟨s, hrun, stored_usable_iff_foreseen hrun⟩

theorem proposal_hides_an_address :
    ¬ ∀ (u : Unicode) (es : List (Event ℕ)) (s : Drawings ℕ),
      run (step u) empty es = some s → ∀ v ∈ s.versions, Usable u v.profile := by
  intro h
  have ht : (run (step asciiUnicode) empty (inspection englishEvidence)).any (fun s =>
      s.versions.any fun v => ¬ Usable asciiUnicode v.profile) = true := by decide +kernel
  obtain ⟨s, hrun, hs⟩ := exists_run_of_any ht
  obtain ⟨v, hv, hl⟩ := List.any_eq_true.mp hs
  exact of_decide_eq_true hl (h _ _ s hrun v hv)

end Runs

end Aizzak.ProfileVersions
