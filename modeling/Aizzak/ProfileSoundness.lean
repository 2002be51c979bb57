import Aizzak.FirstOccurrences
import Aizzak.ProfileDetection
import Aizzak.VoltageLabels

/-!
What is known of a profile that was accepted. It selects rules that the package has, its labels
are canonical, and under its own families and formats none of them is read as another kind
whatever the convention. This is enough to use it, and it is what detection can lose: the
labels stay while the families become those of the evidence.
-/
namespace Aizzak.ProfileSoundness

open BacktrackingPatterns Pattern PyText Normalization IdentifierParsers RuleNarrowing List
  VoltageLabels DrawingProfiles
  ProfileDetection

section Selection

variable {u : Unicode} {p : DrawingProfile} {conventions : Finset Convention}
  {labels : List Text} {rules : IdentifierRules}

theorem pick_eq_ok {β : Type} {available : List (Text × β)} {names : List Text} {what : String}
    (h : ∀ name ∈ names, name ∈ available.map Prod.fst) :
    pick available names what = .ok (available.filter (·.1 ∈ names)) := by
  have hn : names.find? (· ∉ available.map Prod.fst) = none := by
    refine List.find?_eq_none.mpr fun name hna => ?_
    rw [decide_eq_true_eq, not_not]
    exact h name hna
  rw [pick, hn]

theorem mem_of_pick {β : Type} {available picked : List (Text × β)} {names : List Text}
    {what : String} (h : pick available names what = .ok picked) :
    ∀ name ∈ names, name ∈ available.map Prod.fst := by
  intro name hn
  rw [pick] at h
  split at h
  · cases h
  · rename_i hno
    have hk := List.find?_eq_none.mp hno name hn
    rwa [decide_eq_true_eq, not_not] at hk

section Fields

variable {profile : RuleSelection} {aspects : List Text} {patterns : List (Text × Pat)}

theorem chosenAspects_eq_ok (h : ∀ aspect ∈ profile.extraAspects, aspect ∈ rules.extraAspects) :
    chosenAspects rules profile =
      .ok (if profile.extraAspects = [] then rules.extraAspects
        else rules.extraAspects.filter (· ∈ profile.extraAspects)) := by
  unfold chosenAspects
  split_ifs with hn
  · rfl
  · rw [pick_eq_ok (by simpa using h), filter_map, Except.map, map_map]
    exact congrArg Except.ok (map_id _)

theorem chosenPatterns_eq_ok (h : ∀ name ∈ profile.wireNumberPatterns,
    name ∈ rules.wireNumberPatterns.map Prod.fst) :
    chosenPatterns rules profile =
      .ok (if profile.wireNumberPatterns = [] then rules.wireNumberPatterns
        else rules.wireNumberPatterns.filter (·.1 ∈ profile.wireNumberPatterns)) := by
  unfold chosenPatterns
  split_ifs with hn
  · rfl
  · exact pick_eq_ok h

theorem mem_of_chosenAspects (h : chosenAspects rules profile = .ok aspects) :
    ∀ aspect ∈ profile.extraAspects, aspect ∈ rules.extraAspects := by
  intro aspect ha
  rw [chosenAspects, if_neg (ne_nil_of_mem ha)] at h
  cases hp : pick (rules.extraAspects.map (·, ())) profile.extraAspects "extra aspect" with
  | error e =>
    rw [hp] at h
    cases h
  | ok picked => simpa using mem_of_pick hp aspect ha

theorem mem_of_chosenPatterns (h : chosenPatterns rules profile = .ok patterns) :
    ∀ name ∈ profile.wireNumberPatterns, name ∈ rules.wireNumberPatterns.map Prod.fst := by
  intro name hn
  rw [chosenPatterns, if_neg (ne_nil_of_mem hn)] at h
  exact mem_of_pick h name hn

end Fields

def scope (p : DrawingProfile) (conventions : Finset Convention) : IdentifierRules :=
  { packaged with
    conventions := conventions
    plcFamilies := chosenFamilies packaged p.ruleSelection
    extraAspects :=
      if p.extraAspects = [] then packaged.extraAspects
      else packaged.extraAspects.filter (· ∈ p.extraAspects)
    wireNumberPatterns :=
      if p.wireNumberPatterns = [] then wireNumbers
      else wireNumbers.filter (·.1 ∈ p.wireNumberPatterns)
    crossReferenceFormats :=
      match p.crossReferenceFormat.rule with
      | none => crossReferences
      | some name => crossReferences.filter (·.1 ∈ [name]) }

structure Selectable (p : DrawingProfile) : Prop where
  aspects : ∀ aspect ∈ p.extraAspects, aspect ∈ packaged.extraAspects
  patterns : ∀ name ∈ p.wireNumberPatterns, name ∈ wireNumbers.map Prod.fst

theorem fromPackage_scope : FromPackage (scope p conventions) where
  aspects := by
    intro sign hs
    rcases mem_append.mp hs with hown | hextra
    · exact mem_append_left _ hown
    · refine mem_append_right _ ?_
      simp only [scope] at hextra
      split_ifs at hextra
      · exact hextra
      · exact mem_of_mem_filter hextra
  formats := by
    intro format hf
    simp only [scope] at hf
    split at hf
    · exact hf
    · exact mem_of_mem_filter hf
  wires := by
    intro pattern hp
    simp only [scope] at hp
    split_ifs at hp
    · exact hp
    · exact mem_of_mem_filter hp
  roles := rfl

theorem mem_rule {format : CrossReferenceFormat} {name : Text} (h : format.rule = some name) :
    name ∈ crossReferences.map Prod.fst := by
  cases format with
  | auto => cases h
  | slashPageDotColumn | pageDotColumn | prefixedSlash | pageSlashColumn =>
    cases h
    decide +kernel

def choice (p : DrawingProfile) (conventions : Finset Convention) (labels : List Text) :
    RuleSelection :=
  { p.ruleSelection with
    conventions := conventions
    extraVoltageLabels := labels }

theorem selected_of_selectable (h : Selectable p) :
    selected packaged (choice p conventions labels) =
      .ok (scope p (chosenConventions packaged (choice p conventions labels))) := by
  have hf : chosenFormats packaged (choice p conventions labels) =
      .ok (scope p conventions).crossReferenceFormats := by
    simp only [chosenFormats, scope, choice, DrawingProfile.ruleSelection]
    cases hr : p.crossReferenceFormat.rule with
    | none => rfl
    | some name =>
      refine pick_eq_ok fun other ho => ?_
      rw [mem_singleton.mp ho]
      exact mem_rule hr
  rw [selected, chosenAspects_eq_ok h.aspects, chosenPatterns_eq_ok h.patterns, hf]
  rfl

theorem selectable_of_selected (h : selected packaged (choice p conventions labels) = .ok rules) :
    Selectable p := by
  rw [selected] at h
  cases ha : chosenAspects packaged (choice p conventions labels) with
  | error e =>
    rw [ha] at h
    cases h
  | ok aspects =>
    cases hw : chosenPatterns packaged (choice p conventions labels) with
    | error e =>
      rw [ha, hw] at h
      cases h
    | ok wires => exact ⟨mem_of_chosenAspects ha, mem_of_chosenPatterns hw⟩

end Selection

section Labels

variable {u : Unicode} {p : DrawingProfile} {conventions : Finset Convention}
  {labels : List Text} {rules : IdentifierRules} {raw label : Text}

theorem fullMatch_voltageLabel {text : Text} : (voltageLabel.fullMatch text).isSome ↔
    text ≠ [] ∧ ∀ c ∈ text, isLabelSymbol c = true := by
  rw [voltageLabel, fullMatch_isSome_iff, mem_language_oneOrMore_one]

theorem isLabel_of_checked (h : checkedLabel u rules raw = .ok label) :
    label = canonicalForm u raw ∧ IsLabel label ∧ otherKind u rules label = none := by
  rw [checkedLabel] at h
  split_ifs at h
  simp only at h
  split_ifs at h with hsh
  obtain ⟨-, hsr, hm, ht⟩ :
      canonicalForm u raw ≠ [] ∧ ¬ maxVoltageLabelChars < (canonicalForm u raw).length ∧
        (voltageLabel.fullMatch (canonicalForm u raw)).isSome ∧
        (canonicalForm u raw).any u.isAlnum = true := by
    simpa only [not_or, Bool.not_eq_true, Option.isNone_eq_false_iff, Bool.not_eq_false, ne_eq]
      using hsh
  obtain ⟨-, hs⟩ := fullMatch_voltageLabel.mp hm
  split at h
  · cases h
  · rename_i ho
    cases h
    refine ⟨rfl, ⟨Nat.le_of_not_lt hsr, hs, ?_⟩, ho⟩
    obtain ⟨c, hc, ha⟩ := any_eq_true.mp ht
    have hp := (isPlain_of_isLabelSymbol (hs c hc)).2
    rw [u.isAlnum_ascii c (by omega)] at ha
    exact any_eq_true.mpr ⟨c, hc, ha⟩

/-- A label is accepted exactly when nothing else would read it. -/
theorem checkedLabel_isOk_iff (h : IsLabel label) :
    (∃ taken, checkedLabel u rules label = .ok taken) ↔ otherKind u rules label = none := by
  constructor
  · rintro ⟨taken, ht⟩
    obtain ⟨rfl, -, ho⟩ := isLabel_of_checked ht
    rwa [canonicalForm_of_isPlain h.isPlain] at ho
  · intro ho
    have hraw : ¬ maxRawVoltageLabelChars < label.length := by
      have := h.short
      simp only [maxRawVoltageLabelChars, maxVoltageLabelChars] at *
      omega
    have hn : label ≠ [] := by
      rintro rfl
      exact absurd h.telling Bool.false_ne_true
    have hm := fullMatch_voltageLabel.mpr ⟨hn, h.symbols⟩
    have hs : ¬ (label = [] ∨ maxVoltageLabelChars < label.length ∨
        (voltageLabel.fullMatch label).isNone ∨ label.any u.isAlnum = false) := by
      simp only [not_or, Bool.not_eq_true, Option.isNone_eq_false_iff, Bool.not_eq_false]
      exact ⟨hn, Nat.not_lt.mpr h.short, hm, h.any_isAlnum⟩
    refine ⟨label, ?_⟩
    rw [checkedLabel, if_neg hraw, textIssues_of_isPlain h.isPlain,
      canonicalForm_of_isPlain h.isPlain]
    simp only [ne_eq, not_true_eq_false, if_false]
    rw [if_neg hs, ho]

theorem mapM_isOk_iff {ε α β : Type} {f : α → Except ε β} {l : List α} :
    (∃ ys, l.mapM f = .ok ys) ↔ ∀ a ∈ l, ∃ b, f a = .ok b := by
  induction l with
  | nil => exact ⟨fun _ => by simp, fun _ => ⟨[], rfl⟩⟩
  | cons a l ih =>
    rw [forall_mem_cons, ← ih, mapM_cons]
    cases ha : f a with
    | error e => simp [bind, Except.bind]
    | ok b =>
      cases hl : l.mapM f with
      | error e => simp [bind, Except.bind]
      | ok ys => simp [bind, Except.bind, pure, Except.pure]

theorem checkedVoltageLabels_isOk_iff :
    (∃ taken, checkedVoltageLabels u rules labels = .ok taken) ↔
      labels.length ≤ maxExtraVoltageLabels ∧
        ∀ raw ∈ labels, ∃ label, checkedLabel u rules raw = .ok label := by
  rw [checkedVoltageLabels, ← mapM_isOk_iff]
  split_ifs with hm
  · simp [Nat.not_le.mpr hm]
  · cases hl : labels.mapM (checkedLabel u rules) with
    | error e => simp [Except.map]
    | ok taken => simp [Except.map, Nat.le_of_not_lt hm]

/-- A selection that names what the package has is refused for its labels alone. -/
theorem narrowed_isOk_iff (h : Selectable p) :
    (∃ rules, narrowed u packaged (choice p conventions labels) = .ok rules) ↔
      labels.length ≤ maxExtraVoltageLabels ∧ ∀ raw ∈ labels, ∃ label, checkedLabel u
        (scope p (chosenConventions packaged (choice p conventions labels))) raw = .ok label := by
  rw [← checkedVoltageLabels_isOk_iff, narrowed, selected_of_selectable h]
  change (∃ rules, (checkedVoltageLabels u (scope p (chosenConventions packaged
    (choice p conventions labels))) labels).bind _ = .ok rules) ↔ _
  cases hc : checkedVoltageLabels u (scope p (chosenConventions packaged
    (choice p conventions labels))) labels with
  | error e => simp [Except.bind]
  | ok taken => simp [Except.bind]

theorem selectable_of_narrowed
    (h : narrowed u packaged (choice p conventions labels) = .ok rules) : Selectable p := by
  cases hs : selected packaged (choice p conventions labels) with
  | error e =>
    rw [narrowed, hs] at h
    cases h
  | ok chosen => exact selectable_of_selected hs

end Labels

section Soundness

variable {u : Unicode} {p base : DrawingProfile} {evidence : Evidence}

/-- The narrowing of the packaged rules by the profile raises no error. -/
def Usable (u : Unicode) (p : DrawingProfile) : Prop :=
  ∃ rules, narrowed u packaged p.ruleSelection = .ok rules

structure Sound (u : Unicode) (p : DrawingProfile) : Prop extends Selectable p where
  few : p.voltageLabels.length ≤ maxExtraVoltageLabels
  labels : ∀ label ∈ p.voltageLabels, IsLabel label
  passes : ∀ label ∈ p.voltageLabels, otherKind u (scope p packaged.conventions) label = none

theorem usable_iff (h : Selectable p) (hfew : p.voltageLabels.length ≤ maxExtraVoltageLabels)
    (hl : ∀ label ∈ p.voltageLabels, IsLabel label) :
    Usable u p ↔ ∀ label ∈ p.voltageLabels,
      otherKind u (scope p {p.identifierConvention}) label = none := by
  have hown : chosenConventions packaged
      (choice p {p.identifierConvention} p.voltageLabels) = {p.identifierConvention} := by
    simp only [chosenConventions, choice, Finset.singleton_ne_empty, if_false]
    exact Finset.univ_inter _
  have hn : (∃ rules, narrowed u packaged
      (choice p {p.identifierConvention} p.voltageLabels) = .ok rules) ↔ _ := narrowed_isOk_iff h
  rw [hown] at hn
  refine hn.trans ((and_iff_right hfew).trans ?_)
  exact forall₂_congr fun label hla => checkedLabel_isOk_iff (hl label hla)

/-- What the narrowing accepts is sound. -/
theorem sound_of_narrowed {q : DrawingProfile} {rules : IdentifierRules}
    (h : narrowed u packaged (choice q ∅ q.voltageLabels) = .ok rules) :
    Sound u { q with voltageLabels := sortedSet (q.voltageLabels.map (canonicalForm u)) } := by
  have hs := selectable_of_narrowed h
  obtain ⟨hfew, hc⟩ := (narrowed_isOk_iff hs).mp ⟨rules, h⟩
  have hmem : ∀ label ∈ sortedSet (q.voltageLabels.map (canonicalForm u)),
      IsLabel label ∧ otherKind u (scope q packaged.conventions) label = none := by
    intro label hl
    rw [sortedSet, mem_insertionSort, mem_eraseDups, mem_map] at hl
    obtain ⟨raw, hraw, rfl⟩ := hl
    obtain ⟨label, hl⟩ := hc raw hraw
    obtain ⟨rfl, hsh, ho⟩ := isLabel_of_checked hl
    exact ⟨hsh, ho⟩
  refine ⟨⟨hs.aspects, hs.patterns⟩, ?_, fun label hl =>
    (hmem label hl).1, fun label hl => (hmem label hl).2⟩
  calc (sortedSet (q.voltageLabels.map (canonicalForm u))).length
      = (q.voltageLabels.map (canonicalForm u)).eraseDups.length := length_insertionSort _ _
    _ ≤ (q.voltageLabels.map (canonicalForm u)).length := FirstOccurrences.length_eraseDups_le _
    _ = q.voltageLabels.length := length_map _
    _ ≤ maxExtraVoltageLabels := hfew

/-- Every accepted body is sound. -/
theorem sound_of_parseProfile {body : Json} (h : parseProfile u packaged body = .ok p) :
    Sound u p := by
  unfold parseProfile at h
  cases hb : fromBody u body (packaged.wireNumberPatterns.map Prod.fst) with
  | error e =>
    rw [hb] at h
    cases h
  | ok q =>
    rw [hb] at h
    simp only [bind, Except.bind] at h
    split at h
    · cases h
    · split at h
      · rename_i hall _
        cases h
        exact sound_of_narrowed hall
      · cases h

theorem sound_default : Sound u {} where
  aspects := fun _ h => absurd h not_mem_nil
  patterns := fun _ h => absurd h not_mem_nil
  few := Nat.zero_le _
  labels := fun _ h => absurd h not_mem_nil
  passes := fun _ h => absurd h not_mem_nil

/-- No label of the base spells an address of a family that the evidence shows. -/
def Foreseen (base : DrawingProfile) (evidence : Evidence) : Prop :=
  ∀ label ∈ base.voltageLabels, ∀ family, 0 < evidence.tally.plcFamilies family →
    ¬ SpellsAddress family label

/-- The labels of a sound profile under the rules that another one selects beside them. -/
theorem Sound.otherKind_scope (h : Sound u p) (q : DrawingProfile)
    (ha : q.extraAspects = p.extraAspects)
    (hp : q.wireNumberPatterns = p.wireNumberPatterns) {label : Text}
    (hl : label ∈ p.voltageLabels) (conventions : Finset Convention) :
    otherKind u (scope q conventions) label = none ↔
      ∀ family ∈ chosenFamilies packaged q.ruleSelection, ¬ SpellsAddress family label := by
  have hr : scope q conventions = rescoped (scope p packaged.conventions) conventions
      (chosenFamilies packaged q.ruleSelection) (scope q conventions).crossReferenceFormats := by
    simp only [scope, rescoped, ha, hp]
  rw [hr]
  exact otherKind_rescoped (h.labels label hl) fromPackage_scope
    (@fromPackage_scope q conventions).formats (Finset.subset_univ _) (h.passes label hl)

/-- A sound profile passes under any convention, with its own families and formats. -/
theorem Sound.usable (h : Sound u p) : Usable u p := by
  refine (usable_iff h.toSelectable h.few h.labels).mpr fun label hl => ?_
  rw [h.otherKind_scope p rfl rfl hl]
  exact (h.otherKind_scope p rfl rfl hl packaged.conventions).mp (h.passes label hl)

theorem mem_chosenFamilies_iff {family : PlcFamily} :
    family ∈ chosenFamilies packaged p.ruleSelection ↔
      p.plcFamilies = ∅ ∨ family ∈ p.plcFamilies := by
  unfold chosenFamilies
  split_ifs with hn
  · exact iff_of_true (Finset.mem_univ family) (.inl hn)
  · rw [Finset.mem_inter]
    exact ⟨fun h => .inr h.2, fun h => ⟨Finset.mem_univ family, h.resolve_left hn⟩⟩

theorem mem_seenFamilies {tally : ConventionTally} {family : PlcFamily} :
    family ∈ seenFamilies tally ↔ 0 < tally.plcFamilies family := by
  simp only [seenFamilies, Finset.mem_filter, Finset.mem_univ, true_and]

/-- A label stays safe under detection exactly when it spells no address that was seen. -/
theorem Sound.otherKind_detect (h : Sound u base) {label : Text}
    (hl : label ∈ base.voltageLabels) (conventions : Finset Convention) :
    otherKind u (scope (detectProfile u base evidence).profile conventions) label = none ↔
      ∀ family, 0 < evidence.tally.plcFamilies family → ¬ SpellsAddress family label := by
  have hs : otherKind u (scope (detectProfile u base evidence).profile conventions) label =
      none ↔ _ :=
    h.otherKind_scope (detectProfile u base evidence).profile rfl rfl hl conventions
  have hown := (h.otherKind_scope base rfl rfl hl packaged.conventions).mp
    (h.passes label hl)
  have hf : (detectProfile u base evidence).profile.plcFamilies =
      if seenFamilies evidence.tally = ∅ then base.plcFamilies
      else seenFamilies evidence.tally := rfl
  rw [hs]
  simp only [mem_chosenFamilies_iff, hf] at hown ⊢
  by_cases hse : seenFamilies evidence.tally = ∅
  · rw [if_pos hse]
    refine iff_of_true hown fun family hpos => ?_
    rw [← mem_seenFamilies, hse] at hpos
    exact absurd hpos (Finset.notMem_empty family)
  · rw [if_neg hse]
    refine forall_congr' fun family => ?_
    rw [or_iff_right hse, mem_seenFamilies]

theorem Sound.detect (h : Sound u base) (hf : Foreseen base evidence) :
    Sound u (detectProfile u base evidence).profile where
  aspects := h.aspects
  patterns := h.patterns
  few := h.few
  labels := h.labels
  passes := fun label hl => (h.otherKind_detect hl _).mpr (hf label hl)

theorem Sound.usable_detect_iff (h : Sound u base) :
    Usable u (detectProfile u base evidence).profile ↔ Foreseen base evidence := by
  refine ⟨fun hu label hl => ?_, fun hf => (h.detect hf).usable⟩
  have hs : Selectable (detectProfile u base evidence).profile :=
    ⟨h.aspects, h.patterns⟩
  exact (h.otherKind_detect hl _).mp
    ((usable_iff hs h.few h.labels).mp hu label hl)

end Soundness

end Aizzak.ProfileSoundness
