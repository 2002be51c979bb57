import Aizzak.IdentityStability
import Aizzak.ProfileSoundness

/-!
The voltage labels that a profile adds. They are asked for in one recogniser, so they change the
reading of the texts that are read as one of them and of no other text. What those were read as
before, the check of the labels has seen.
-/
namespace Aizzak.AddedLabels

open BacktrackingPatterns PyText Normalization IdentifierParsers ParserResults RuleNarrowing
  VoltageLabels ProfileSoundness IdentityStability
open DrawingProfiles (bind_eq_ok_iff toOption_eq_some)

section Labelled

variable {u : Unicode} {rules : IdentifierRules} {labels labels' : List Text} {text : Text}
  {hint : Option IdentifierKind} {forms : NormalizedForms} {found : ParsedIdentifier}

def labelled (rules : IdentifierRules) (labels : List Text) : IdentifierRules :=
  { rules with voltageLabels := labels }

theorem recogniser_labelled {entry : IdentifierKind ×
    (IdentifierRules → Text → NormalizedForms → Option ParsedIdentifier)} (he : entry ∈ order)
    (h : text ∈ labels ↔ text ∈ labels') :
    entry.2 (labelled rules labels) text forms = entry.2 (labelled rules labels') text forms := by
  have hv : parseVoltage (labelled rules labels) text forms =
      parseVoltage (labelled rules labels') text forms := if_congr h rfl rfl
  simp only [order, List.mem_cons, List.not_mem_nil, or_false] at he
  rcases he with rfl | rfl | rfl | rfl | rfl | rfl | rfl | rfl | rfl
  case inr.inr.inl => exact hv
  all_goals rfl

theorem search_labelled (h : forms.canonical ∈ labels ↔ forms.canonical ∈ labels')
    {entries : List (IdentifierKind ×
      (IdentifierRules → Text → NormalizedForms → Option ParsedIdentifier))}
    (he : ∀ entry ∈ entries, entry ∈ order) :
    search (labelled rules labels) hint forms entries =
      search (labelled rules labels') hint forms entries := by
  unfold search
  induction entries with
  | nil => rfl
  | cons entry entries ih =>
    obtain ⟨hen, hr⟩ := List.forall_mem_cons.mp he
    obtain ⟨kind, recogniser⟩ := entry
    have hs : recogniser (labelled rules labels) forms.canonical forms =
        recogniser (labelled rules labels') forms.canonical forms := recogniser_labelled hen h
    rw [List.findSome?_cons, List.findSome?_cons, ih hr]
    dsimp only
    rw [hs]

def skeleton (u : Unicode) (canonical : Text) : Text :=
  (u.nfd canonical).filter fun c =>
    u.category c ≠ .nonspacingMark ∧ u.category c ≠ .enclosingMark

def readForm (u : Unicode) (text : Text) : Text :=
  if IsAscii (canonicalForm u text) then canonicalForm u text
  else canonicalForm u (skeleton u (canonicalForm u text))

/-- Labels that agree on the form that is read make no difference. -/
theorem parse_labelled (h : readForm u text ∈ labels ↔ readForm u text ∈ labels') :
    parse u (labelled rules labels) text hint = parse u (labelled rules labels') text hint := by
  have hf : ∀ {forms}, forms.canonical = readForm u text →
      first u (labelled rules labels) forms hint text =
        first u (labelled rules labels') forms hint text := by
    intro forms hfo
    have hse : search (labelled rules labels) hint forms order =
        search (labelled rules labels') hint forms order := by
      refine search_labelled ?_ fun _ => id
      rwa [hfo]
    rw [first_eq, first_eq, hse]
  have hc : (normalize u text).canonical = canonicalForm u text := rfl
  unfold parse
  split_ifs
  · rfl
  dsimp only
  by_cases ha : IsAscii (canonicalForm u text)
  · rw [hc, if_neg (not_not.mpr ha), if_neg (not_not.mpr ha),
      hf (if_pos ha).symm]
  · have hs : (normalize u (skeleton u (canonicalForm u text))).canonical =
        readForm u text := (if_neg ha).symm
    have hm : parseNonAscii u (labelled rules labels) text (normalize u text) hint =
        parseNonAscii u (labelled rules labels') text (normalize u text) hint := by
      unfold parseNonAscii
      dsimp only
      rw [hc]
      exact if_congr Iff.rfl rfl (congrArg _ (hf hs))
    rw [hc, if_pos ha, if_pos ha, hm]

theorem flagText_textIssues (u : Unicode) (text : Text) (found : ParsedIdentifier) :
    (flagText found (textIssues u text)).aspects = found.aspects ∧
      (issueHidden ∉ textIssues u text →
        (flagText found (textIssues u text)).valid = found.valid) := by
  unfold flagText
  split_ifs with hn
  · exact ⟨rfl, fun _ => rfl⟩
  · refine ⟨rfl, fun hs => ?_⟩
    have hall : (textIssues u text).all (· ∈ nonInvalidatingIssues) = true := by
      rw [List.all_eq_true]
      intro issue hi
      have hk : issue = issueHidden ∨ issue = issueBidi := by
        rw [textIssues, List.mem_append] at hi
        split_ifs at hi <;> simp_all
      rcases hk with rfl | rfl
      · exact absurd hi hs
      · decide
    change (found.valid && _) = found.valid
    rw [hall, Bool.and_true]

theorem search_of_parse (h : parse u rules text hint = some found) :
    ∃ forms inner, forms.canonical = readForm u text ∧
      search rules hint forms order = some inner ∧ found.kind = inner.kind ∧
        found.aspects = inner.aspects ∧ (IsAscii (canonicalForm u text) →
          issueHidden ∉ textIssues u text → found.valid = inner.valid) := by
  unfold parse at h
  split_ifs at h
  dsimp only at h
  split_ifs at h with hl hac
  · obtain ⟨inner, hi, rfl⟩ := Option.map_eq_some_iff.mp h
    obtain ⟨ha, hv⟩ := flagText_textIssues u text inner
    exact ⟨normalize u text, inner, (if_pos hac).symm, hi, (flagText_spec inner _).1,
      ha, fun _ => hv⟩
  · unfold parseNonAscii at h
    dsimp only at h
    split_ifs at h
    obtain ⟨flagged, hf, rfl⟩ := Option.map_eq_some_iff.mp h
    obtain ⟨inner, hi, rfl⟩ := Option.map_eq_some_iff.mp hf
    obtain ⟨ha, -⟩ := flagText_textIssues u text inner
    exact ⟨_, inner, (if_neg hac).symm, hi, (flagText_spec inner _).1, ha,
      fun h => absurd h hac⟩

end Labelled

section Narrowed

variable {u : Unicode} {rules chosen added : IdentifierRules} {profile : RuleSelection}
  {labels taken : List Text} {text label : Text} {found : ParsedIdentifier}

theorem checked_of_mapM (h : labels.mapM (checkedLabel u rules) = .ok taken) :
    taken = labels.map (canonicalForm u) ∧
      ∀ raw ∈ labels, checkedLabel u rules raw = .ok (canonicalForm u raw) := by
  induction labels generalizing taken with
  | nil =>
    cases h
    exact ⟨rfl, nofun⟩
  | cons raw labels ih =>
    rw [List.mapM_cons] at h
    obtain ⟨label, hl, h⟩ := bind_eq_ok_iff.mp h
    obtain ⟨later, hla, h⟩ := bind_eq_ok_iff.mp h
    cases h
    obtain ⟨rfl, hc⟩ := ih hla
    obtain ⟨rfl, -, -⟩ := isLabel_of_checked hl
    exact ⟨rfl, List.forall_mem_cons.mpr ⟨hl, hc⟩⟩

theorem checked_of_taken (h : checkedVoltageLabels u rules labels = .ok taken) :
    (∀ label, label ∈ taken ↔ label ∈ labels.map (canonicalForm u)) ∧
      ∀ label ∈ labels.map (canonicalForm u),
        IsLabel label ∧ otherKind u rules label = none := by
  rw [checkedVoltageLabels] at h
  split_ifs at h
  cases hl : labels.mapM (checkedLabel u rules) with
  | error e =>
    rw [hl] at h
    cases h
  | ok all =>
    rw [hl] at h
    cases h
    obtain ⟨rfl, hc⟩ := checked_of_mapM hl
    refine ⟨fun label => List.mem_eraseDups, fun label hla => ?_⟩
    obtain ⟨raw, hraw, rfl⟩ := List.mem_map.mp hla
    exact (isLabel_of_checked (hc raw hraw)).2

theorem voltageLabels_of_selected (h : selected rules profile = .ok chosen) :
    chosen.voltageLabels = rules.voltageLabels := by
  obtain ⟨aspects, -, h⟩ := bind_eq_ok_iff.mp h
  obtain ⟨wire, -, h⟩ := bind_eq_ok_iff.mp h
  obtain ⟨xref, -, h⟩ := bind_eq_ok_iff.mp h
  cases h
  rfl

theorem search_of_label (hl : IsLabel label) (ho : otherKind u rules label = none)
    {forms : NormalizedForms} {inner : ParsedIdentifier} (hf : forms.canonical = label)
    (h : search rules none forms order = some inner) :
    inner.kind = .voltage ∨
      inner.kind = .referenceDesignation ∧ inner.valid = true ∧ isRail inner.aspects = true := by
  have hc : (normalize u label).canonical = forms.canonical := by
    rw [hf]
    exact canonicalForm_of_isPlain hl.isPlain
  obtain ⟨inner', hi, hs⟩ := search_again hc (fun _ => id) h
  have hp : parse u rules label none = some inner' := by
    rw [parse_of_isLabel hl, ← hi, search, hc, hf]
    rfl
  rw [otherKind, hp, Option.bind_some] at ho
  split_ifs at ho with hv hr
  · exact .inl (by rw [hs] at hv; exact hv)
  · exact .inr (by rw [hs] at hr; exact hr)

/-- Voltage labels that a profile adds change the reading of those texts alone that are read as
one of them. Without the labels such a text is no identifier, a voltage or a rail, and the rail is
valid unless the text hides a character or is not ASCII. -/
theorem added_labels_frame (h : narrowed u rules profile = .ok added) :
    ∃ plain, narrowed u rules { profile with extraVoltageLabels := [] } = .ok plain ∧ ∀ text,
      (readForm u text ∉ profile.extraVoltageLabels.map (canonicalForm u) →
        parse u added text none = parse u plain text none) ∧
      (readForm u text ∈ profile.extraVoltageLabels.map (canonicalForm u) →
        ∀ found, parse u plain text none = some found → found.kind = .voltage ∨
          found.kind = .referenceDesignation ∧ isRail found.aspects = true ∧
            (IsAscii (canonicalForm u text) → issueHidden ∉ textIssues u text →
              found.valid = true)) := by
  obtain ⟨chosen, hc, h⟩ := bind_eq_ok_iff.mp h
  obtain ⟨taken, ht, h⟩ := bind_eq_ok_iff.mp h
  cases h
  obtain ⟨hmem, hch⟩ := checked_of_taken ht
  have hl := voltageLabels_of_selected hc
  refine ⟨labelled chosen (rules.voltageLabels ++ []).eraseDups, ?_, fun text => ⟨fun hnot => ?_,
    fun hla found hfo => ?_⟩⟩
  · rw [narrowed]
    exact bind_eq_ok_iff.mpr ⟨chosen, hc, rfl⟩
  · change parse u (labelled chosen (rules.voltageLabels ++ taken).eraseDups) text none = _
    refine parse_labelled ?_
    rw [List.mem_eraseDups, List.mem_eraseDups, List.mem_append, List.append_nil, hmem,
      or_iff_left hnot]
  · obtain ⟨forms, inner, hf, hi, hki, ha, hv⟩ := search_of_parse hfo
    have hsa : search chosen none forms order = some inner := by
      rw [← hi]
      have hk : forms.canonical ∈ chosen.voltageLabels ↔
          forms.canonical ∈ (rules.voltageLabels ++ []).eraseDups := by
        rw [List.mem_eraseDups, List.append_nil, hl]
      exact search_labelled hk fun _ => id
    obtain ⟨hs, ho⟩ := hch _ hla
    rw [hki, ha]
    refine (search_of_label hs ho hf hsa).imp_right ?_
    rintro ⟨hd, hinnerValid, hr⟩
    exact ⟨hd, hr, fun hac hse => (hv hac hse).trans hinnerValid⟩

private def addsRail : RuleSelection := ⟨∅, ∅, [], [], none, [ofString "-48V"]⟩

private def railTest (test : IdentifierRules → IdentifierRules → Bool) : Bool :=
  (narrowed acuteUnicode packaged addsRail).toOption.any fun added =>
    (narrowed acuteUnicode packaged { addsRail with extraVoltageLabels := [] }).toOption.any
      fun plain => test added plain

private theorem exists_of_railTest (test : IdentifierRules → IdentifierRules → Bool)
    (h : railTest test = true) :
    ∃ added plain, narrowed acuteUnicode packaged addsRail = .ok added ∧
      narrowed acuteUnicode packaged { addsRail with extraVoltageLabels := [] } = .ok plain ∧
        test added plain = true := by
  obtain ⟨added, hadded, h⟩ := (Option.any_eq_true _ _).mp h
  obtain ⟨plain, hplain, h⟩ := (Option.any_eq_true _ _).mp h
  exact ⟨added, plain, toOption_eq_some hadded, toOption_eq_some hplain, h⟩

/-- A device is read as it was before the rail. -/
theorem device_is_read_beside_rail :
    ∃ added plain, narrowed acuteUnicode packaged addsRail = .ok added ∧
      narrowed acuteUnicode packaged { addsRail with extraVoltageLabels := [] } = .ok plain ∧
        parse acuteUnicode added (ofString "-K5") none =
          parse acuteUnicode plain (ofString "-K5") none := by
  obtain ⟨added, -, ha, -, -⟩ :=
    exists_of_railTest (fun _ _ => true) (by decide +kernel)
  obtain ⟨plain, hp, hr⟩ := added_labels_frame ha
  exact ⟨added, plain, ha, hp, (hr _).1 (by decide +kernel)⟩

/-- A mark behind the rail keeps its canonical form apart from the label, which hides the
designation all the same. The rail with a hidden character is a designation, but no valid one. -/
theorem marked_rail_is_hidden :
    ∃ added plain, narrowed acuteUnicode packaged addsRail = .ok added ∧
      narrowed acuteUnicode packaged { addsRail with extraVoltageLabels := [] } = .ok plain ∧
        (canonicalForm acuteUnicode (ofString "-48V" ++ [acute]) ∉
            addsRail.extraVoltageLabels.map (canonicalForm acuteUnicode) ∧
          parse acuteUnicode added (ofString "-48V" ++ [acute]) none ≠
            parse acuteUnicode plain (ofString "-48V" ++ [acute]) none) ∧
        (canonicalForm acuteUnicode (ofString "-48V" ++ [joiner]) ∈
            addsRail.extraVoltageLabels.map (canonicalForm acuteUnicode) ∧
          ∃ found, parse acuteUnicode plain (ofString "-48V" ++ [joiner]) none = some found ∧
            found.kind = .referenceDesignation ∧ found.valid = false) := by
  obtain ⟨added, plain, ha, hp, ht⟩ := exists_of_railTest (fun added plain =>
    decide (parse acuteUnicode added (ofString "-48V" ++ [acute]) none ≠
      parse acuteUnicode plain (ofString "-48V" ++ [acute]) none) &&
    (parse acuteUnicode plain (ofString "-48V" ++ [joiner]) none).any fun found =>
      found.kind = .referenceDesignation ∧ found.valid = false) (by decide +kernel)
  obtain ⟨hd, hh⟩ := (Bool.and_eq_true _ _).mp ht
  obtain ⟨found, hf, hs⟩ := (Option.any_eq_true _ _).mp hh
  exact ⟨added, plain, ha, hp, ⟨by decide +kernel, of_decide_eq_true hd⟩,
    by decide +kernel, found, hf, of_decide_eq_true hs⟩

end Narrowed

end Aizzak.AddedLabels
