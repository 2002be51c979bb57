import Aizzak.FirstOccurrences
import Aizzak.ProfileDetection

/-!
A profile that was accepted, or detected over an accepted one, is read back from its own body
as it is. Every field of it is a fixed point of its reader: the lists are sorted without
repeats, the texts are stripped, the numbers are in their ranges.
-/
namespace Aizzak.ProfileCodec

open PyText Normalization IdentifierParsers RuleNarrowing DrawingProfiles ProfileDetection List

section Reading

variable {u : Unicode} {fields : Fields} {known : List Text} {p : DrawingProfile}

structure ReadAs (u : Unicode) (fields : Fields) (known : List Text) (p : DrawingProfile) :
    Prop where
  symbolStandard :
    enum fields "symbol_standard" symbolStandards .iec60617 = .ok p.symbolStandard
  vendorLibrary : vendorLibrary u fields p.symbolStandard = .ok p.vendorLibrary
  identifierConvention :
    enum fields "identifier_convention" conventionNames .iec81346 = .ok p.identifierConvention
  crossReferenceFormat :
    enum fields "cross_reference_format" formatNames .auto = .ok p.crossReferenceFormat
  junctionConvention :
    enum fields "junction_convention" junctionNames .auto = .ok p.junctionConvention
  plcVendor : plcVendor fields = .ok p.plcVendor
  plcFamilies : enumSet fields "plc_families" familyNames 1 Finset.univ = .ok p.plcFamilies
  languages : languages fields {.en, .zh} = .ok p.languages
  wireNumberPatterns : names fields "wire_number_patterns" known = .ok p.wireNumberPatterns
  extraAspects : aspects fields = .ok p.extraAspects
  voltageLabels : voltageLabels fields = .ok p.voltageLabels
  autoAcceptConfidence : numberOr fields "auto_accept_confidence" "auto_accept_confidence"
    (floatRange (1 / 2) 1 "0.5 and 1.0") (.of (9 / 10)) = .ok p.autoAcceptConfidence
  classification : thresholds (get fields "classification") {} = .ok p.classification

/-- A body is accepted exactly when each field reads as the profile has it. -/
theorem fromBody_eq_ok_iff : fromBody u (.obj fields) known = .ok p ↔
    (fields.any fun field => field.1 ∉ topKeys.map ofString) = false ∧
      isSchema (get fields "schema") = true ∧ ReadAs u fields known p := by
  unfold fromBody
  dsimp only
  split_ifs with hk hs
  · exact iff_of_false nofun fun h => Bool.false_ne_true (h.1.symm.trans hk)
  · exact iff_of_false nofun fun h => Bool.false_ne_true (hs.symm.trans h.2.1)
  · simp only [bind_eq_ok_iff]
    rw [Bool.not_eq_true] at hk
    rw [Bool.not_eq_false] at hs
    constructor
    · rintro ⟨symbol, h1, vendor, h2, convention, h3, xref, h4, junction, h5, plc, h6, families, h7,
        languages, h8, patterns, h9, aspects, h10, labels, h11, accept, h12, t, h13, h⟩
      cases h
      exact ⟨hk, hs, h1, h2, h3, h4, h5, h6, h7, h8, h9, h10, h11, h12, h13⟩
    · rintro ⟨-, -, h⟩
      exact ⟨_, h.symbolStandard, _, h.vendorLibrary, _, h.identifierConvention, _,
        h.crossReferenceFormat, _, h.junctionConvention, _, h.plcVendor, _, h.plcFamilies, _,
        h.languages, _, h.wireNumberPatterns, _, h.extraAspects, _, h.voltageLabels, _,
        h.autoAcceptConfidence, _, h.classification, rfl⟩

structure ThresholdsReadAs (fields : Fields) (t : ClassificationThresholds) : Prop where
  minTextChars :
    threshold fields "min_text_chars" (intRange 0 10000 "0 and 10000") 20 = .ok t.minTextChars
  garbledRatio : threshold fields "garbled_ratio" (floatRange 0 1 "0.0 and 1.0") (.of (1 / 5)) =
    .ok t.garbledRatio
  rasterAreaRatio : threshold fields "raster_area_ratio" (floatRange 0 1 "0.0 and 1.0")
    (.of (3 / 5)) = .ok t.rasterAreaRatio
  outlinedCurvesMin : threshold fields "outlined_curves_min"
    (intRange 1 1000000 "1 and 1000000") 400 = .ok t.outlinedCurvesMin
  ambiguityMargin : threshold fields "ambiguity_margin" (floatRange 0 (1 / 2) "0.0 and 0.5")
    (.of (1 / 10)) = .ok t.ambiguityMargin
  cjkShare : threshold fields "cjk_share" (floatRange 0 1 "0.0 and 1.0") (.of (3 / 10)) =
    .ok t.cjkShare
  scriptMixShare : threshold fields "script_mix_share" (floatRange 0 1 "0.0 and 1.0")
    (.of (3 / 20)) = .ok t.scriptMixShare

/-- Thresholds are accepted exactly when each field reads as one. -/
theorem thresholds_eq_ok_iff {t : ClassificationThresholds} :
    thresholds (some (.obj fields)) {} = .ok t ↔
      (fields.any fun field => field.1 ∉ thresholdNames.map ofString) = false ∧
        ThresholdsReadAs fields t := by
  unfold thresholds
  dsimp only
  split_ifs with hk
  · exact iff_of_false nofun fun h => Bool.false_ne_true (h.1.symm.trans hk)
  · simp only [bind_eq_ok_iff]
    rw [Bool.not_eq_true] at hk
    constructor
    · rintro ⟨chars, h1, garbled, h2, raster, h3, curves, h4, margin, h5, cjk, h6, mix, h7, h⟩
      cases h
      exact ⟨hk, h1, h2, h3, h4, h5, h6, h7⟩
    · rintro ⟨-, h⟩
      exact ⟨_, h.minTextChars, _, h.garbledRatio, _, h.rasterAreaRatio, _, h.outlinedCurvesMin, _,
        h.ambiguityMargin, _, h.cjkShare, _, h.scriptMixShare, rfl⟩

end Reading

section Lookups

theorem ofString_injective : Function.Injective ofString := by
  intro s t h
  refine String.ext (map_injective_iff.mpr (fun c d hcd => ?_) h)
  exact Char.ext (UInt32.toNat_inj.mp (Fin.mk.inj hcd))

@[simp] theorem get_field (key other : String) (value : Json) (fields : Fields) :
    get (field key value :: fields) other =
      if key = other then some value else get fields other := by
  rw [DrawingProfiles.get, DrawingProfiles.get, field, List.lookup_cons]
  by_cases h : key = other
  · subst h
    rw [if_pos rfl, beq_self_eq_true]
  · have hne : (ofString other == ofString key) = false :=
      beq_eq_false_iff_ne.mpr fun heq => h (ofString_injective heq).symm
    rw [hne, if_neg h]

def thresholdFields (t : ClassificationThresholds) : Fields :=
  [field "min_text_chars" (.int t.minTextChars),
    field "garbled_ratio" (.float t.garbledRatio),
    field "raster_area_ratio" (.float t.rasterAreaRatio),
    field "outlined_curves_min" (.int t.outlinedCurvesMin),
    field "ambiguity_margin" (.float t.ambiguityMargin),
    field "cjk_share" (.float t.cjkShare),
    field "script_mix_share" (.float t.scriptMixShare)]

def bodyFields (p : DrawingProfile) : Fields :=
  [field "schema" (.int 1),
    field "symbol_standard" (nameOf symbolStandards p.symbolStandard),
    field "vendor_library" (p.vendorLibrary.elim .null .str),
    field "identifier_convention" (nameOf conventionNames p.identifierConvention),
    field "extra_aspects" (.list (p.extraAspects.map .str)),
    field "cross_reference_format" (nameOf formatNames p.crossReferenceFormat),
    field "junction_convention" (nameOf junctionNames p.junctionConvention),
    field "plc_vendor" (.str p.plcVendor),
    field "plc_families" (sortedNames familyNames p.plcFamilies),
    field "languages" (sortedNames languageNames p.languages),
    field "wire_number_patterns" (.list (p.wireNumberPatterns.map .str)),
    field "voltage_labels" (.list (p.voltageLabels.map .str)),
    field "auto_accept_confidence" (.float p.autoAcceptConfidence),
    field "classification" (.obj (thresholdFields p.classification))]

theorem toBody_eq (p : DrawingProfile) : p.toBody = .obj (bodyFields p) := rfl

end Lookups

section Fixed

theorem mapM_zipIdx_ok {α β γ ε : Type} {f : α × ℕ → Except ε β} {write : γ → α} {read : γ → β}
    {l : List γ} {n : ℕ} (h : ∀ c ∈ l, ∀ i, f (write c, i) = .ok (read c)) :
    ((l.map write).zipIdx n).mapM f = .ok (l.map read) := by
  induction l generalizing n with
  | nil => rfl
  | cons c l ih =>
    obtain ⟨hc, hl⟩ := forall_mem_cons.mp h
    rw [map_cons, zipIdx_cons, mapM_cons, hc, ih hl]
    rfl

theorem strings_map_str (texts : List Text) (key : String) :
    strings (texts.map .str) key = .ok texts :=
  (mapM_zipIdx_ok fun _ _ _ => rfl).trans (congrArg Except.ok (map_id texts))

theorem pairwise_sortedSet (texts : List Text) : (sortedSet texts).Pairwise (· ≤ ·) :=
  pairwise_insertionSort _ _

theorem nodup_sortedSet (texts : List Text) : (sortedSet texts).Nodup :=
  (perm_insertionSort _ _).nodup_iff.mpr (FirstOccurrences.nodup_eraseDups texts)

theorem mem_sortedSet {texts : List Text} {text : Text} :
    text ∈ sortedSet texts ↔ text ∈ texts := by
  rw [sortedSet, mem_insertionSort, mem_eraseDups]

theorem length_sortedSet_le (texts : List Text) : (sortedSet texts).length ≤ texts.length := by
  rw [sortedSet, length_insertionSort]
  exact FirstOccurrences.length_eraseDups_le texts

/-- Sorting twice changes nothing. -/
theorem sortedSet_sortedSet (texts : List Text) :
    sortedSet (sortedSet texts) = sortedSet texts := by
  refine List.Perm.eq_of_pairwise (fun _ _ _ _ => antisymm) (pairwise_sortedSet _)
    (pairwise_sortedSet texts) ?_
  refine (perm_ext_iff_of_nodup (nodup_sortedSet _) (nodup_sortedSet texts)).mpr fun text => ?_
  exact mem_sortedSet

end Fixed

section Enumerations

variable {β : Type} {members : List (String × β)} {value : β} {text : Text} {path : String}

theorem toEnum_eq_ok_iff (hn : (members.map Prod.fst).Nodup) :
    toEnum (.str text) path members = .ok value ↔
      ∃ name, (name, value) ∈ members ∧ ofString name = text := by
  unfold toEnum
  dsimp only
  cases hf : members.find? fun member => ofString member.1 = text with
  | none =>
    refine iff_of_false nofun ?_
    rintro ⟨name, hmem, htext⟩
    exact List.find?_eq_none.mp hf _ hmem (decide_eq_true htext)
  | some member =>
    have hm := mem_of_find?_eq_some hf
    have htext : ofString member.1 = text := by simpa using List.find?_some hf
    constructor
    · intro h
      cases h
      exact ⟨member.1, hm, htext⟩
    · rintro ⟨name, hmem, hna⟩
      have hs : member.1 = name := ofString_injective (htext.trans hna.symm)
      have he : member = (name, value) := inj_on_of_nodup_map hn hm hmem hs
      rw [he]

variable [DecidableEq β]

theorem nameOf_of_mem (hvalue : value ∈ members.map Prod.snd) :
    ∃ name, (name, value) ∈ members ∧ nameOf members value = .str (ofString name) := by
  obtain ⟨entry, he, heq⟩ := mem_map.mp hvalue
  cases hf : members.find? (·.2 = value) with
  | none => exact absurd (decide_eq_true heq) (List.find?_eq_none.mp hf _ he)
  | some member =>
    have hm : member.2 = value := by simpa using List.find?_some hf
    refine ⟨member.1, ?_, by rw [nameOf, hf]; rfl⟩
    rw [← hm]
    exact mem_of_find?_eq_some hf

theorem enum_nameOf {fields : Fields} {key : String} {default : β}
    (hn : (members.map Prod.fst).Nodup) (hvalue : value ∈ members.map Prod.snd)
    (hget : get fields key = some (nameOf members value)) :
    enum fields key members default = .ok value := by
  obtain ⟨name, hmem, hna⟩ := nameOf_of_mem hvalue
  rw [enum, hget, hna]
  exact (toEnum_eq_ok_iff hn).mpr ⟨name, hmem, rfl⟩

theorem mapM_zipIdx_exists {α γ ε : Type} (f : α × ℕ → Except ε γ) {l : List α} {n : ℕ}
    (h : ∀ a ∈ l, ∃ c, ∀ i, f (a, i) = .ok c) :
    ∃ cs, (l.zipIdx n).mapM f = .ok cs ∧ ∀ c, c ∈ cs ↔ ∃ a ∈ l, ∀ i, f (a, i) = .ok c := by
  induction l generalizing n with
  | nil => exact ⟨[], rfl, by simp⟩
  | cons a l ih =>
    obtain ⟨⟨c, hc⟩, hl⟩ := forall_mem_cons.mp h
    obtain ⟨cs, hcs, hmem⟩ := ih hl
    refine ⟨c :: cs, ?_, fun d => ?_⟩
    · rw [zipIdx_cons, mapM_cons, hc, hcs]
      rfl
    · have hh : (∀ i, f (a, i) = .ok d) ↔ d = c :=
        ⟨fun hd => Except.ok.inj ((hd 0).symm.trans (hc 0)), fun hd => hd ▸ hc⟩
      rw [mem_cons, hmem, exists_mem_cons_iff, hh]

/-- Names that are written are read back as their members. -/
theorem mapM_sortedNames (hn : (members.map Prod.fst).Nodup)
    (hall : ∀ value, value ∈ members.map Prod.snd) (values : Finset β) (path : ℕ → String) :
    ∃ items found, sortedNames members values = .list items ∧ (items = [] ↔ values = ∅) ∧
      items.zipIdx.mapM (fun entry => toEnum entry.1 (path entry.2) members) = .ok found ∧
      found.toFinset = values := by
  set texts := sortedSet ((members.filter (·.2 ∈ values)).map fun member => ofString member.1)
    with ht
  have hmem : ∀ text, text ∈ texts ↔ ∃ entry ∈ members, entry.2 ∈ values ∧
      ofString entry.1 = text := by
    intro text
    rw [ht, mem_sortedSet, mem_map]
    simp only [mem_filter, decide_eq_true_eq, and_assoc]
  have hr : ∀ item ∈ texts.map Json.str, ∃ value, ∀ i,
      (fun entry : Json × ℕ => toEnum entry.1 (path entry.2) members) (item, i) = .ok value := by
    intro item hitem
    obtain ⟨text, htext, rfl⟩ := mem_map.mp hitem
    obtain ⟨entry, he, -, hna⟩ := (hmem text).mp htext
    exact ⟨entry.2, fun i => (toEnum_eq_ok_iff hn).mpr ⟨entry.1, he, hna⟩⟩
  obtain ⟨found, hfo, hf⟩ := mapM_zipIdx_exists
    (fun entry : Json × ℕ => toEnum entry.1 (path entry.2) members) (n := 0) hr
  refine ⟨texts.map .str, found, rfl, ?_, hfo, Finset.ext fun value => ?_⟩
  · rw [map_eq_nil_iff, eq_nil_iff_forall_not_mem, Finset.eq_empty_iff_forall_notMem]
    constructor
    · intro hno value hvalue
      obtain ⟨entry, he, rfl⟩ := mem_map.mp (hall value)
      exact hno _ ((hmem _).mpr ⟨entry, he, hvalue, rfl⟩)
    · intro hno text htext
      obtain ⟨entry, -, hvalue, -⟩ := (hmem text).mp htext
      exact hno _ hvalue
  · rw [mem_toFinset, hf]
    constructor
    · rintro ⟨item, hitem, hr⟩
      obtain ⟨text, htext, rfl⟩ := mem_map.mp hitem
      obtain ⟨entry, he, hvalue, hna⟩ := (hmem text).mp htext
      have hown : toEnum (.str text) (path 0) members = .ok entry.2 :=
        (toEnum_eq_ok_iff hn).mpr ⟨entry.1, he, hna⟩
      obtain rfl := Except.ok.inj (hown.symm.trans (hr 0))
      exact hvalue
    · intro hvalue
      obtain ⟨entry, he, rfl⟩ := mem_map.mp (hall value)
      exact ⟨_, mem_map_of_mem ((hmem _).mpr ⟨entry, he, hvalue, rfl⟩),
        fun i => (toEnum_eq_ok_iff hn).mpr ⟨entry.1, he, rfl⟩⟩

end Enumerations

section Storable

variable {u : Unicode} {p : DrawingProfile}

def InRange (range : ℚ × ℚ) (q : ℚ) : Prop := range.1 ≤ q ∧ q ≤ range.2

structure ThresholdsInRange (t : ClassificationThresholds) : Prop where
  minTextChars : InRange (0, 10000) t.minTextChars
  garbledRatio : InRange (0, 1) t.garbledRatio.value
  rasterAreaRatio : InRange (0, 1) t.rasterAreaRatio.value
  outlinedCurvesMin : InRange (1, 1000000) t.outlinedCurvesMin
  ambiguityMargin : InRange (0, 1 / 2) t.ambiguityMargin.value
  cjkShare : InRange (0, 1) t.cjkShare.value
  scriptMixShare : InRange (0, 1) t.scriptMixShare.value

structure IsLibrary (u : Unicode) (name : Text) : Prop where
  telling : ¬ Blank name
  short : name.length ≤ maxVendorLibraryChars
  visible : (name.any fun c => u.category c ∈ forbiddenTextCategories) = false
  stripped : strip name = name

/-- Every field is one that its reader leaves as it is. -/
structure Storable (u : Unicode) (p : DrawingProfile) : Prop where
  vendor : ∀ name, p.vendorLibrary = some name → p.symbolStandard = .vendor ∧ IsLibrary u name
  fewAspects : p.extraAspects.length ≤ maxExtraAspects
  aspects : ∀ aspect ∈ p.extraAspects, aspect ≠ [] ∧ aspect.length ≤ maxAspectChars ∧
    ∀ c ∈ aspect, c ∈ aspectChars
  sortedAspects : sortedSet p.extraAspects = p.extraAspects
  fewLabels : p.voltageLabels.length ≤ maxVoltageLabels
  labels : ∀ label ∈ p.voltageLabels, ¬ Blank label ∧ label.length ≤ maxVoltageLabelChars
  sortedLabels : sortedSet p.voltageLabels = p.voltageLabels
  sortedPatterns : sortedSet p.wireNumberPatterns = p.wireNumberPatterns
  plcVendor : p.plcVendor = ofString "siemens"
  families : p.plcFamilies ≠ ∅
  languages : p.languages ≠ ∅
  accept : InRange (1 / 2, 1) p.autoAcceptConfidence.value
  thresholds : ThresholdsInRange p.classification

variable {bounds : String} {low high : ℚ}

theorem number_float {x : PyFloat} {path : String} (h : InRange (low, high) x.value) :
    number (.float x) path (floatRange low high bounds) = .ok x :=
  if_pos h

theorem number_int {n : ℤ} {path : String} (h : InRange (low, high) n) :
    number (.int n) path (intRange low high bounds) = .ok n :=
  if_pos h

variable {fields : Fields}

theorem threshold_float {name : String} {x default : PyFloat}
    (hget : get fields name = some (.float x)) (h : InRange (low, high) x.value) :
    threshold fields name (floatRange low high bounds) default = .ok x := by
  rw [threshold, numberOr, hget]
  exact number_float h

theorem threshold_int {name : String} {n default : ℤ} (hget : get fields name = some (.int n))
    (h : InRange (low, high) n) :
    threshold fields name (intRange low high bounds) default = .ok n := by
  rw [threshold, numberOr, hget]
  exact number_int h

theorem list_of_get {key : String} {items : List Json}
    (hget : get fields key = some (.list items)) :
    list fields key = .ok (some items) := by
  rw [list, hget]

theorem find?_zipIdx_eq_none {α : Type} {l : List α} {test : α × ℕ → Bool}
    (h : ∀ a ∈ l, ∀ i, test (a, i) = false) : l.zipIdx.find? test = none := by
  rw [List.find?_eq_none]
  intro entry he
  rw [h entry.1 (fst_mem_of_mem_zipIdx he) entry.2]
  exact Bool.false_ne_true

/-- The canonical body of a storable profile reads back as it. -/
theorem Storable.readAs (h : Storable u p) :
    ReadAs u (bodyFields p) p.wireNumberPatterns p where
  symbolStandard :=
    enum_nameOf (by decide) (by cases p.symbolStandard <;> decide) (by simp [bodyFields])
  vendorLibrary := by
    have hget : get (bodyFields p) "vendor_library" = some (p.vendorLibrary.elim .null .str) := by
      simp [bodyFields]
    unfold DrawingProfiles.vendorLibrary
    rw [hget]
    cases hve : p.vendorLibrary with
    | none => rfl
    | some name =>
      obtain ⟨hs, hna⟩ := h.vendor name hve
      dsimp only [Option.elim_some]
      rw [if_neg hna.telling, if_neg (Nat.not_lt.mpr hna.short), hna.visible,
        if_neg Bool.false_ne_true, if_neg (not_not.mpr hs), hna.stripped]
  identifierConvention :=
    enum_nameOf (by decide) (by cases p.identifierConvention <;> decide) (by simp [bodyFields])
  crossReferenceFormat :=
    enum_nameOf (by decide) (by cases p.crossReferenceFormat <;> decide) (by simp [bodyFields])
  junctionConvention :=
    enum_nameOf (by decide) (by cases p.junctionConvention <;> decide) (by simp [bodyFields])
  plcVendor := by
    have hget : get (bodyFields p) "plc_vendor" = some (.str p.plcVendor) := by
      simp [bodyFields]
    unfold DrawingProfiles.plcVendor
    rw [hget, h.plcVendor]
    exact if_pos rfl
  plcFamilies := by
    have hn : (familyNames.map Prod.fst).Nodup := by decide
    obtain ⟨items, found, hitems, -, hf, hv⟩ := mapM_sortedNames hn
      (fun family => by cases family <;> decide) p.plcFamilies (item "plc_families")
    have hget : get (bodyFields p) "plc_families" = some (.list items) := by
      simp [bodyFields, hitems]
    have hca : ¬ found.toFinset.card < 1 := by
      rw [hv, Nat.lt_one_iff, Finset.card_eq_zero]
      exact h.families
    rw [enumSet, list_of_get hget]
    change (items.zipIdx.mapM fun entry => toEnum entry.1 (item "plc_families" entry.2) familyNames)
      >>= _ = _
    rw [hf]
    change (if found.toFinset.card < 1 then _ else Except.ok found.toFinset) = _
    rw [if_neg hca, hv]
  languages := by
    have hn : (languageNames.map Prod.fst).Nodup := by decide
    obtain ⟨items, found, hitems, hno, hf, hv⟩ := mapM_sortedNames hn
      (fun language => by cases language <;> decide) p.languages (item "languages")
    have hget : get (bodyFields p) "languages" = some (.list items) := by
      simp [bodyFields, hitems]
    have hso : ¬ items.isEmpty = true := by
      rw [List.isEmpty_iff, hno]
      exact h.languages
    rw [DrawingProfiles.languages, list_of_get hget]
    change (items.zipIdx.mapM fun entry => toEnum entry.1 (item "languages" entry.2) languageNames)
      >>= _ = _
    rw [hf]
    change (if items.isEmpty = true then _ else Except.ok found.toFinset) = _
    rw [if_neg hso, hv]
  wireNumberPatterns := by
    have hget : get (bodyFields p) "wire_number_patterns" =
        some (.list (p.wireNumberPatterns.map .str)) := by
      simp [bodyFields]
    have hk : p.wireNumberPatterns.zipIdx.find? (·.1 ∉ p.wireNumberPatterns) = none :=
      find?_zipIdx_eq_none fun name hna _ => decide_eq_false (not_not.mpr hna)
    rw [names, list_of_get hget]
    change strings (p.wireNumberPatterns.map .str) _ >>= _ = _
    rw [strings_map_str]
    dsimp only [bind, Except.bind]
    rw [hk, h.sortedPatterns]
  extraAspects := by
    have hget : get (bodyFields p) "extra_aspects" = some (.list (p.extraAspects.map .str)) := by
      simp [bodyFields]
    rw [DrawingProfiles.aspects, list_of_get hget]
    change strings (p.extraAspects.map .str) _ >>= _ = _
    rw [strings_map_str]
    dsimp only [bind, Except.bind]
    rw [if_neg (Nat.not_lt.mpr h.fewAspects), find?_zipIdx_eq_none, h.sortedAspects]
    intro aspect ha i
    obtain ⟨hso, hsh, hc⟩ := h.aspects aspect ha
    exact decide_eq_false fun hbad => hbad.elim hso fun hbad => hbad.elim
      (Nat.not_lt.mpr hsh) (absurd hc)
  voltageLabels := by
    have hget : get (bodyFields p) "voltage_labels" = some (.list (p.voltageLabels.map .str)) := by
      simp [bodyFields]
    rw [DrawingProfiles.voltageLabels, list_of_get hget]
    change strings (p.voltageLabels.map .str) _ >>= _ = _
    rw [strings_map_str]
    dsimp only [bind, Except.bind]
    rw [if_neg (Nat.not_lt.mpr h.fewLabels), find?_zipIdx_eq_none, h.sortedLabels]
    intro label hl i
    obtain ⟨ht, hsh⟩ := h.labels label hl
    exact decide_eq_false fun hbad => hbad.elim ht (Nat.not_lt.mpr hsh)
  autoAcceptConfidence := by
    have hget : get (bodyFields p) "auto_accept_confidence" =
        some (.float p.autoAcceptConfidence) := by
      simp [bodyFields]
    rw [numberOr, hget]
    exact number_float h.accept
  classification := by
    have hget : get (bodyFields p) "classification" =
        some (.obj (thresholdFields p.classification)) := by
      simp [bodyFields]
    rw [hget]
    exact thresholds_eq_ok_iff.mpr ⟨by simp [thresholdFields, field, thresholdNames],
      threshold_int (by simp [thresholdFields]) h.thresholds.minTextChars,
      threshold_float (by simp [thresholdFields]) h.thresholds.garbledRatio,
      threshold_float (by simp [thresholdFields]) h.thresholds.rasterAreaRatio,
      threshold_int (by simp [thresholdFields]) h.thresholds.outlinedCurvesMin,
      threshold_float (by simp [thresholdFields]) h.thresholds.ambiguityMargin,
      threshold_float (by simp [thresholdFields]) h.thresholds.cjkShare,
      threshold_float (by simp [thresholdFields]) h.thresholds.scriptMixShare⟩

/-- A storable profile is read back from its body as it is, over the names it selects. -/
theorem Storable.fromBody_toBody (h : Storable u p) :
    fromBody u p.toBody p.wireNumberPatterns = .ok p := by
  rw [toBody_eq, fromBody_eq_ok_iff]
  exact ⟨by simp [bodyFields, field, topKeys], by simp [bodyFields, isSchema], h.readAs⟩

end Storable

section Stripping

variable {text : Text}

theorem strip_eq (text : Text) : strip text = (text.dropWhile isSpace).rdropWhile isSpace := rfl

theorem strip_sublist (text : Text) : (strip text).Sublist text :=
  ( rdropWhile_prefix isSpace _).sublist.trans (dropWhile_sublist _)

theorem strip_strip (text : Text) : strip (strip text) = strip text := by
  have hfr : (strip text).dropWhile isSpace = strip text := by
    cases hs : strip text with
    | nil => rfl
    | cons c rest =>
      obtain ⟨cut, hcut⟩ := rdropWhile_prefix isSpace (text.dropWhile isSpace)
      rw [← strip_eq, hs, cons_append] at hcut
      have hf := head_dropWhile_not isSpace (hcut ▸ cons_ne_nil c _)
      simp only [← hcut, head_cons] at hf
      exact dropWhile_cons_of_neg (Bool.eq_false_iff.mp hf)
  rw [strip_eq (strip text), hfr, strip_eq, rdropWhile_idempotent]

theorem blank_of_blank_strip (h : Blank (strip text)) : Blank text := by
  refine blank_of_strip_eq_nil ?_
  rw [← strip_strip, strip_eq, dropWhile_eq_nil_iff.mpr h]
  rfl

end Stripping

section Accepted

variable {u : Unicode} {fields : Fields} {known : List Text} {p : DrawingProfile} {key : String}

theorem library_of_vendorLibrary {symbol : SymbolStandard} {library : Option Text} {name : Text}
    (h : vendorLibrary u fields symbol = .ok library) (hn : library = some name) :
    symbol = .vendor ∧ IsLibrary u name := by
  subst hn
  unfold vendorLibrary invalid at h
  split at h
  · cases h
  · cases h
  · rename_i value _
    split_ifs at h with hb hl hh hs
    obtain rfl := Option.some.inj (Except.ok.inj h)
    refine ⟨not_not.mp hs, fun hst => hb (blank_of_blank_strip hst), ?_, ?_,
      strip_strip value⟩
    · exact (strip_sublist value).length_le.trans (Nat.le_of_not_lt hl)
    · rw [Bool.eq_false_iff, ne_eq, any_eq_true]
      rintro ⟨c, hc, hbad⟩
      exact hh (any_eq_true.mpr ⟨c, (strip_sublist value).subset hc, hbad⟩)
  · cases h

theorem numberOr_inRange {path bounds : String} {low high : ℚ} {default x : PyFloat}
    (h : numberOr fields key path (floatRange low high bounds) default = .ok x)
    (hd : InRange (low, high) default.value) : InRange (low, high) x.value := by
  unfold numberOr at h
  split at h
  · cases h
    exact hd
  · unfold DrawingProfiles.number floatRange invalid at h
    dsimp only at h
    split at h
    · split_ifs at h with hr
      cases h
      exact hr
    · split_ifs at h with hr
      cases h
      exact hr
    · cases h
    · cases h

theorem numberOr_int_inRange {path bounds : String} {low high : ℚ} {default n : ℤ}
    (h : numberOr fields key path (intRange low high bounds) default = .ok n)
    (hd : InRange (low, high) default) : InRange (low, high) n := by
  unfold numberOr at h
  split at h
  · cases h
    exact hd
  · unfold DrawingProfiles.number intRange invalid at h
    dsimp only at h
    split at h
    · split_ifs at h with hr
      cases h
      exact hr
    · cases h
    · cases h
    · cases h

theorem ThresholdsReadAs.inRange {t : ClassificationThresholds} (h : ThresholdsReadAs fields t) :
    ThresholdsInRange t where
  minTextChars := numberOr_int_inRange h.minTextChars (by norm_num [InRange])
  garbledRatio := numberOr_inRange h.garbledRatio (by norm_num [InRange, PyFloat.of])
  rasterAreaRatio := numberOr_inRange h.rasterAreaRatio (by norm_num [InRange, PyFloat.of])
  outlinedCurvesMin := numberOr_int_inRange h.outlinedCurvesMin (by norm_num [InRange])
  ambiguityMargin := numberOr_inRange h.ambiguityMargin (by norm_num [InRange, PyFloat.of])
  cjkShare := numberOr_inRange h.cjkShare (by norm_num [InRange, PyFloat.of])
  scriptMixShare := numberOr_inRange h.scriptMixShare (by norm_num [InRange, PyFloat.of])

theorem thresholds_inRange {raw : Option Json} {t : ClassificationThresholds}
    (h : thresholds raw {} = .ok t) : ThresholdsInRange t := by
  have hd : ThresholdsInRange {} :=
    ⟨by norm_num [InRange], by norm_num [InRange, PyFloat.of], by norm_num [InRange, PyFloat.of],
      by norm_num [InRange], by norm_num [InRange, PyFloat.of], by norm_num [InRange, PyFloat.of],
      by norm_num [InRange, PyFloat.of]⟩
  match raw, h with
  | none, h =>
    cases h
    exact hd
  | some .null, h =>
    cases h
    exact hd
  | some (.obj fields), h => exact (thresholds_eq_ok_iff.mp h).2.inRange

theorem families_ne_empty {families : Finset PlcFamily}
    (h : enumSet fields "plc_families" familyNames 1 Finset.univ = .ok families) :
    families ≠ ∅ := by
  unfold enumSet at h
  obtain ⟨items, -, h⟩ := bind_eq_ok_iff.mp h
  cases items with
  | none =>
    cases h
    decide
  | some items =>
    obtain ⟨found, -, h⟩ := bind_eq_ok_iff.mp h
    unfold invalid at h
    split_ifs at h with hfew
    cases h
    rw [Nat.lt_one_iff, Finset.card_eq_zero] at hfew
    exact hfew

theorem length_of_mapM {α β ε : Type} {f : α → Except ε β} {l : List α} {found : List β}
    (h : l.mapM f = .ok found) : found.length = l.length := by
  induction l generalizing found with
  | nil =>
    cases h
    rfl
  | cons a l ih =>
    rw [mapM_cons] at h
    obtain ⟨b, -, h⟩ := bind_eq_ok_iff.mp h
    obtain ⟨rest, hr, h⟩ := bind_eq_ok_iff.mp h
    cases h
    rw [length_cons, length_cons, ih hr]

theorem languages_ne_empty {found : Finset Language}
    (h : languages fields {.en, .zh} = .ok found) : found ≠ ∅ := by
  unfold languages at h
  obtain ⟨items, -, h⟩ := bind_eq_ok_iff.mp h
  cases items with
  | none =>
    cases h
    decide
  | some items =>
    obtain ⟨read, hr, h⟩ := bind_eq_ok_iff.mp h
    unfold invalid at h
    split_ifs at h with hn
    cases h
    intro he
    have hl := length_of_mapM hr
    rw [(toFinset_eq_empty_iff read).mp he, length_zipIdx, length_nil] at hl
    exact hn (isEmpty_iff.mpr (eq_nil_of_length_eq_zero hl.symm))

theorem forall_of_find?_zipIdx {α : Type} {l : List α} {test : α → Prop} [DecidablePred test]
    (h : l.zipIdx.find? (fun entry => test entry.1) = none) : ∀ a ∈ l, ¬ test a := by
  intro a ha ht
  rw [← zipIdx_map_fst 0 l] at ha
  obtain ⟨entry, he, rfl⟩ := mem_map.mp ha
  exact List.find?_eq_none.mp h entry he (decide_eq_true ht)

variable {texts : List Text}

theorem aspects_spec (h : aspects fields = .ok texts) :
    texts.length ≤ maxExtraAspects ∧ sortedSet texts = texts ∧ ∀ aspect ∈ texts,
      aspect ≠ [] ∧ aspect.length ≤ maxAspectChars ∧ ∀ c ∈ aspect, c ∈ aspectChars := by
  unfold aspects at h
  obtain ⟨items, -, h⟩ := bind_eq_ok_iff.mp h
  cases items with
  | none =>
    cases h
    exact ⟨Nat.zero_le _, rfl, fun _ h => absurd h not_mem_nil⟩
  | some items =>
    obtain ⟨read, -, h⟩ := bind_eq_ok_iff.mp h
    unfold invalid at h
    split_ifs at h with hm
    split at h
    · cases h
    · rename_i hf
      cases h
      have hg : ∀ aspect ∈ read, ¬ (aspect = [] ∨ maxAspectChars < aspect.length ∨
          ¬ ∀ c ∈ aspect, c ∈ aspectChars) := forall_of_find?_zipIdx hf
      refine ⟨(length_sortedSet_le read).trans (Nat.le_of_not_lt hm), sortedSet_sortedSet read,
        fun aspect ha => ?_⟩
      have ha := hg aspect (mem_sortedSet.mp ha)
      rwa [not_or, not_or, not_lt, not_not] at ha

theorem voltageLabels_spec (h : voltageLabels fields = .ok texts) :
    texts.length ≤ maxVoltageLabels ∧ sortedSet texts = texts ∧ ∀ label ∈ texts,
      ¬ Blank label ∧ label.length ≤ maxVoltageLabelChars := by
  unfold voltageLabels at h
  obtain ⟨items, -, h⟩ := bind_eq_ok_iff.mp h
  cases items with
  | none =>
    cases h
    exact ⟨Nat.zero_le _, rfl, fun _ h => absurd h not_mem_nil⟩
  | some items =>
    obtain ⟨read, -, h⟩ := bind_eq_ok_iff.mp h
    unfold invalid at h
    split_ifs at h with hm
    split at h
    · cases h
    · rename_i hf
      cases h
      have hg : ∀ label ∈ read, ¬ (Blank label ∨ maxVoltageLabelChars < label.length) :=
        forall_of_find?_zipIdx hf
      refine ⟨(length_sortedSet_le read).trans (Nat.le_of_not_lt hm), sortedSet_sortedSet read,
        fun label hl => ?_⟩
      have hl := hg label (mem_sortedSet.mp hl)
      rwa [not_or, not_lt] at hl

theorem names_spec (h : names fields key known = .ok texts) :
    sortedSet texts = texts := by
  unfold names at h
  obtain ⟨items, -, h⟩ := bind_eq_ok_iff.mp h
  cases items with
  | none =>
    cases h
    rfl
  | some items =>
    obtain ⟨read, -, h⟩ := bind_eq_ok_iff.mp h
    split at h
    · cases h
    · cases h
      exact sortedSet_sortedSet read

theorem plcVendor_spec {vendor : Text} (h : plcVendor fields = .ok vendor) :
    vendor = ofString "siemens" := by
  unfold plcVendor invalid at h
  split at h
  · exact (Except.ok.inj h).symm
  · split_ifs at h with hv
    exact (Except.ok.inj h).symm.trans hv
  · cases h

/-- An accepted body makes a storable profile. -/
theorem ReadAs.storable (h : ReadAs u fields known p) : Storable u p where
  vendor := fun _ => library_of_vendorLibrary h.vendorLibrary
  fewAspects := (aspects_spec h.extraAspects).1
  aspects := (aspects_spec h.extraAspects).2.2
  sortedAspects := (aspects_spec h.extraAspects).2.1
  fewLabels := (voltageLabels_spec h.voltageLabels).1
  labels := (voltageLabels_spec h.voltageLabels).2.2
  sortedLabels := (voltageLabels_spec h.voltageLabels).2.1
  sortedPatterns := names_spec h.wireNumberPatterns
  plcVendor := plcVendor_spec h.plcVendor
  families := families_ne_empty h.plcFamilies
  languages := languages_ne_empty h.languages
  accept := numberOr_inRange h.autoAcceptConfidence (by norm_num [InRange, PyFloat.of])
  thresholds := thresholds_inRange h.classification

theorem storable_of_fromBody {body : Json} (h : fromBody u body known = .ok p) :
    Storable u p := by
  cases body with
  | obj fields => exact (fromBody_eq_ok_iff.mp h).2.2.storable
  | _ => cases h

inductive Obtained (u : Unicode) : DrawingProfile → Prop
  | accepted {body : Json} {known : List Text} {p : DrawingProfile}
      (h : fromBody u body known = .ok p) : Obtained u p
  | detected {p base : DrawingProfile} (evidence : Evidence) (hp : Obtained u p)
      (hbase : Obtained u base) :
      Obtained u (p.withDetected (detectProfile u base evidence).profile.symbolStandard
        (detectProfile u base evidence).profile.identifierConvention
        (detectProfile u base evidence).profile.crossReferenceFormat
        (detectProfile u base evidence).profile.plcFamilies
        (detectProfile u base evidence).profile.languages)

theorem Storable.withDetected (h : Storable u p) (symbol : SymbolStandard)
    (convention : Convention) (xref : CrossReferenceFormat) {families : Finset PlcFamily}
    {languages : Finset Language} (hf : families ≠ ∅) (hl : languages ≠ ∅) :
    Storable u (p.withDetected symbol convention xref families languages) :=
  { h with
    vendor := by
      intro name hn
      by_cases hs : symbol = .vendor
      · rw [DrawingProfile.withDetected, if_pos hs] at hn
        exact ⟨hs, (h.vendor name hn).2⟩
      · rw [DrawingProfile.withDetected, if_neg hs] at hn
        cases hn
    families := hf
    languages := hl }

/-- Whatever was obtained can be stored. -/
theorem Obtained.storable (h : Obtained u p) : Storable u p := by
  induction h with
  | accepted h => exact storable_of_fromBody h
  | @detected p base evidence _ _ ihp ihbase =>
    refine ihp.withDetected _ _ _ ?_ ?_
    · change (if seenFamilies evidence.tally = ∅ then base.plcFamilies
        else seenFamilies evidence.tally) ≠ ∅
      split_ifs with hs
      · exact ihbase.families
      · exact hs
    · change (if seenLanguages evidence.pages = ∅ then base.languages
        else seenLanguages evidence.pages) ≠ ∅
      split_ifs with hs
      · exact ihbase.languages
      · exact hs

end Accepted

end Aizzak.ProfileCodec
