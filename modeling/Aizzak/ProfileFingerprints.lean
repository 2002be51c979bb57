import Aizzak.ProfileCodec

/-!
The fingerprint of a profile, the digest of its canonical JSON. Equal profiles have one
fingerprint but for one thing: a threshold of zero keeps the sign it was given with, which the
JSON shows and no comparison sees.
-/
namespace Aizzak.ProfileFingerprints

open PyText Normalization IdentifierParsers DrawingProfiles ProfileCodec List

section CanonicalJson

/-- `repr` of a float, as far as zeros go. -/
structure FloatRepr where
  repr : PyFloat → Text
  zero : ∀ x : PyFloat, x.value = 0 → repr x = ofString (if x.negativeZero then "-0.0" else "0.0")

def hexDigit (n : ℕ) : CodePoint :=
  if h : n % 16 < 10 then ⟨0x30 + n % 16, by omega⟩ else ⟨0x57 + n % 16, by omega⟩

def unitEscape (n : ℕ) : Text :=
  ofString "\\u" ++ [hexDigit (n / 0x1000), hexDigit (n / 0x100), hexDigit (n / 0x10), hexDigit n]

def escape (c : CodePoint) : Text :=
  if c.val = 0x22 then ofString "\\\""
  else if c.val = 0x5C then ofString "\\\\"
  else if c.val = 0x0A then ofString "\\n"
  else if c.val = 0x0D then ofString "\\r"
  else if c.val = 0x09 then ofString "\\t"
  else if c.val = 0x08 then ofString "\\b"
  else if c.val = 0x0C then ofString "\\f"
  else if 0x20 ≤ c.val ∧ c.val ≤ 0x7E then [c]
  else if c.val < 0x10000 then unitEscape c.val
  else
    unitEscape (0xD800 + (c.val - 0x10000) / 0x400) ++
      unitEscape (0xDC00 + (c.val - 0x10000) % 0x400)

def quoted (text : Text) : Text := ofString "\"" ++ text.flatMap escape ++ ofString "\""

def enclosed (start stop : CodePoint) (values : List Text) : Text :=
  start :: (ofString ",").intercalate values ++ [stop]

mutual

def dumps (r : FloatRepr) : Json → Text
  | .null => ofString "null"
  | .bool value => ofString (if value then "true" else "false")
  | .int n => ofString (toString n)
  | .float x => r.repr x
  | .nonFinite .nan => ofString "NaN"
  | .nonFinite .infinity => ofString "Infinity"
  | .nonFinite .negativeInfinity => ofString "-Infinity"
  | .str text => quoted text
  | .list items => enclosed 0x5B 0x5D (dumpsItems r items)
  | .obj fields =>
    enclosed 0x7B 0x7D (((dumpsFields r fields).insertionSort fun a b => a.1 ≤ b.1).map
      fun entry => quoted entry.1 ++ ofString ":" ++ entry.2)

def dumpsItems (r : FloatRepr) : List Json → List Text
  | [] => []
  | value :: items => dumps r value :: dumpsItems r items

def dumpsFields (r : FloatRepr) : List (Text × Json) → List (Text × Text)
  | [] => []
  | (key, value) :: fields => (key, dumps r value) :: dumpsFields r fields

end

variable {D : Type}

def fingerprint (r : FloatRepr) (sha256 : Text → D) (p : DrawingProfile) : D :=
  sha256 (dumps r p.toBody)

def entry (key : String) (value : Text) : Text := quoted (ofString key) ++ ofString ":" ++ value

def thresholdEntries (r : FloatRepr) (t : ClassificationThresholds) : List Text :=
  [entry "ambiguity_margin" (r.repr t.ambiguityMargin),
    entry "cjk_share" (r.repr t.cjkShare),
    entry "garbled_ratio" (r.repr t.garbledRatio),
    entry "min_text_chars" (ofString (toString t.minTextChars)),
    entry "outlined_curves_min" (ofString (toString t.outlinedCurvesMin)),
    entry "raster_area_ratio" (r.repr t.rasterAreaRatio),
    entry "script_mix_share" (r.repr t.scriptMixShare)]

theorem dumps_thresholds (r : FloatRepr) (t : ClassificationThresholds) :
    dumps r (.obj (thresholdFields t)) = enclosed 0x7B 0x7D (thresholdEntries r t) := by
  rfl

def otherEntries (r : FloatRepr) (p : DrawingProfile) : List Text :=
  [entry "cross_reference_format" (dumps r (nameOf formatNames p.crossReferenceFormat)),
    entry "extra_aspects" (dumps r (.list (p.extraAspects.map .str))),
    entry "identifier_convention" (dumps r (nameOf conventionNames p.identifierConvention)),
    entry "junction_convention" (dumps r (nameOf junctionNames p.junctionConvention)),
    entry "languages" (dumps r (sortedNames languageNames p.languages)),
    entry "plc_families" (dumps r (sortedNames familyNames p.plcFamilies)),
    entry "plc_vendor" (dumps r (.str p.plcVendor)),
    entry "schema" (dumps r (.int 1)),
    entry "symbol_standard" (dumps r (nameOf symbolStandards p.symbolStandard)),
    entry "vendor_library" (dumps r (p.vendorLibrary.elim .null .str)),
    entry "voltage_labels" (dumps r (.list (p.voltageLabels.map .str))),
    entry "wire_number_patterns" (dumps r (.list (p.wireNumberPatterns.map .str)))]

theorem dumps_toBody (r : FloatRepr) (p : DrawingProfile) :
    dumps r p.toBody = enclosed 0x7B 0x7D
      (entry "auto_accept_confidence" (r.repr p.autoAcceptConfidence) ::
        entry "classification" (dumps r (.obj (thresholdFields p.classification))) ::
          otherEntries r p) := by
  rfl

end CanonicalJson

section Zeros

/-- Two floats that compare equal differ at most in the sign of a zero. -/
def PyFloat.unsigned (x : PyFloat) : PyFloat := .of x.value

def unsignedThresholds (t : ClassificationThresholds) : ClassificationThresholds :=
  { t with
    garbledRatio := PyFloat.unsigned t.garbledRatio
    rasterAreaRatio := PyFloat.unsigned t.rasterAreaRatio
    ambiguityMargin := PyFloat.unsigned t.ambiguityMargin
    cjkShare := PyFloat.unsigned t.cjkShare
    scriptMixShare := PyFloat.unsigned t.scriptMixShare }

def Equal (p q : DrawingProfile) : Prop :=
  { p with
    autoAcceptConfidence := PyFloat.unsigned p.autoAcceptConfidence
    classification := unsignedThresholds p.classification } =
  { q with
    autoAcceptConfidence := PyFloat.unsigned q.autoAcceptConfidence
    classification := unsignedThresholds q.classification }

theorem pyFloat_ext {x y : PyFloat} (hvalue : x.value = y.value)
    (hs : x.negativeZero = y.negativeZero) : x = y := by
  cases x
  cases y
  simp_all

/-- Of two floats that compare equal, what is written shows the sign and where it ends. -/
theorem repr_append_inj {r : FloatRepr} {x y : PyFloat} {s t : Text} (hvalue : x.value = y.value)
    (h : r.repr x ++ s = r.repr y ++ t) : x = y ∧ s = t := by
  by_cases hs : x.negativeZero = y.negativeZero
  · obtain rfl := pyFloat_ext hvalue hs
    exact ⟨rfl, append_cancel_left h⟩
  · have hz : x.value = 0 := by
      cases hx : x.negativeZero with
      | true => exact x.zero hx
      | false =>
        rw [hx, eq_comm, Bool.not_eq_false] at hs
        rw [hvalue]
        exact y.zero hs
    rw [r.zero x hz, r.zero y (hvalue ▸ hz)] at h
    cases hx : x.negativeZero <;> cases hy : y.negativeZero <;> simp [hx, hy, ofString] at hs h

theorem intercalate_cons (value : Text) (values : List Text) :
    (ofString ",").intercalate (value :: values) =
      value ++ values.flatMap (ofString "," ++ ·) := by
  induction values generalizing value with
  | nil => simp [List.intercalate]
  | cons next values ih =>
    have hn : (ofString ",").intercalate (value :: next :: values) =
        value ++ ofString "," ++ (ofString ",").intercalate (next :: values) := by
      simp [List.intercalate]
    rw [hn, ih, flatMap_cons]
    simp only [append_assoc]

/-- What is written of the thresholds shows every sign. -/
theorem thresholds_inj {r : FloatRepr} {t t' : ClassificationThresholds} {rest rest' : Text}
    (he : unsignedThresholds t = unsignedThresholds t')
    (h : dumps r (.obj (thresholdFields t)) ++ rest =
      dumps r (.obj (thresholdFields t')) ++ rest') : t = t' := by
  obtain ⟨chars, garbled, raster, curves, margin, cjk, mix⟩ := t
  obtain ⟨chars', garbled', raster', curves', margin', cjk', mix'⟩ := t'
  simp only [unsignedThresholds, PyFloat.unsigned, PyFloat.of, ClassificationThresholds.mk.injEq,
    PyFloat.mk.injEq, and_true] at he
  obtain ⟨rfl, hg, hr, rfl, hm, hcjk, hmix⟩ := he
  simp only [dumps_thresholds, enclosed, thresholdEntries, intercalate_cons, entry,
    flatMap_cons, flatMap_nil, append_assoc, cons_append, List.cons.injEq,
    true_and, append_cancel_left_eq] at h
  obtain ⟨rfl, h⟩ := repr_append_inj hm h
  simp only [append_cancel_left_eq] at h
  obtain ⟨rfl, h⟩ := repr_append_inj hcjk h
  simp only [append_cancel_left_eq] at h
  obtain ⟨rfl, h⟩ := repr_append_inj hg h
  simp only [append_cancel_left_eq] at h
  obtain ⟨rfl, h⟩ := repr_append_inj hr h
  simp only [append_cancel_left_eq] at h
  obtain ⟨rfl, -⟩ := repr_append_inj hmix h
  rfl

/-- Of equal profiles, the canonical JSON tells those apart whose zeros differ in sign. -/
theorem dumps_toBody_inj {r : FloatRepr} {p q : DrawingProfile} (he : Equal p q) :
    dumps r p.toBody = dumps r q.toBody ↔ p = q := by
  refine ⟨fun h => ?_, fun h => h ▸ rfl⟩
  obtain ⟨symbol, vendor, convention, aspects, xref, junction, plc, families, languages, patterns,
    labels, accept, t⟩ := p
  obtain ⟨symbol', vendor', convention', aspects', xref', junction', plc', families', languages',
    patterns', labels', accept', t'⟩ := q
  simp only [Equal, DrawingProfile.mk.injEq, PyFloat.unsigned, PyFloat.of, PyFloat.mk.injEq,
    and_true] at he
  obtain ⟨rfl, rfl, rfl, rfl, rfl, rfl, rfl, rfl, rfl, rfl, rfl, ha, ht⟩ := he
  simp only [dumps_toBody, enclosed, intercalate_cons, entry, flatMap_cons,
    append_assoc, cons_append, List.cons.injEq, true_and,
    append_cancel_left_eq] at h
  obtain ⟨rfl, h⟩ := repr_append_inj ha h
  simp only [append_cancel_left_eq] at h
  obtain rfl := thresholds_inj ht h
  rfl

end Zeros

section Bodies

variable {u : Unicode} {known knownA knownB : List Text} {body bodyA bodyB : Json}
  {p q : DrawingProfile}

def thresholdsOf (body : Json) : Fields :=
  match body with
  | .obj fields =>
    match get fields "classification" with
    | some (.obj fields) => fields
    | _ => []
  | _ => []

def isNegativeZero (value : Option Json) : Bool :=
  match value with
  | some (.float x) => x.negativeZero
  | _ => false

def negativeZeros (body : Json) : List String :=
  thresholdNames.filter fun name => isNegativeZero (get (thresholdsOf body) name)

theorem numberOr_negativeZero {fields : Fields} {key path bounds : String} {low high : ℚ}
    {default x : PyFloat} (hd : default.negativeZero = false)
    (h : numberOr fields key path (floatRange low high bounds) default = .ok x) :
    x.negativeZero = isNegativeZero (get fields key) := by
  unfold numberOr at h
  split at h
  · rename_i hget
    cases h
    rw [hget, hd]
    rfl
  · rename_i value hget
    rw [hget]
    unfold DrawingProfiles.number floatRange invalid at h
    dsimp only at h
    split at h
    · split_ifs at h
      cases h
      rfl
    · split_ifs at h
      cases h
      rfl
    · cases h
    · cases h

theorem classification_negativeZero (h : fromBody u body known = .ok p) :
    let sign := fun name => isNegativeZero (get (thresholdsOf body) name)
    p.classification.garbledRatio.negativeZero = sign "garbled_ratio" ∧
      p.classification.rasterAreaRatio.negativeZero = sign "raster_area_ratio" ∧
      p.classification.ambiguityMargin.negativeZero = sign "ambiguity_margin" ∧
      p.classification.cjkShare.negativeZero = sign "cjk_share" ∧
      p.classification.scriptMixShare.negativeZero = sign "script_mix_share" := by
  cases body with
  | obj fields =>
    have hr := (fromBody_eq_ok_iff.mp h).2.2.classification
    unfold thresholdsOf
    dsimp only
    generalize get fields "classification" = raw at hr ⊢
    match raw, hr with
    | none, hr =>
      rw [← Except.ok.inj hr]
      exact ⟨rfl, rfl, rfl, rfl, rfl⟩
    | some .null, hr =>
      rw [← Except.ok.inj hr]
      exact ⟨rfl, rfl, rfl, rfl, rfl⟩
    | some (.obj fields), hr =>
      have hr := (thresholds_eq_ok_iff.mp hr).2
      exact ⟨numberOr_negativeZero rfl hr.garbledRatio,
        numberOr_negativeZero rfl hr.rasterAreaRatio,
        numberOr_negativeZero rfl hr.ambiguityMargin, numberOr_negativeZero rfl hr.cjkShare,
        numberOr_negativeZero rfl hr.scriptMixShare⟩
  | _ => cases h

theorem numberOr_int_negativeZero {fields : Fields} {key path bounds : String} {low high : ℚ}
    {default n : ℤ} (h : numberOr fields key path (intRange low high bounds) default = .ok n) :
    isNegativeZero (get fields key) = false := by
  unfold numberOr at h
  split at h
  · rename_i hget
    rw [hget]
    rfl
  · rename_i value hget
    rw [hget]
    unfold DrawingProfiles.number intRange invalid at h
    dsimp only at h
    split at h
    · rfl
    · cases h
    · rfl
    · cases h

theorem counts_negativeZero (h : fromBody u body known = .ok p) :
    isNegativeZero (get (thresholdsOf body) "min_text_chars") = false ∧
      isNegativeZero (get (thresholdsOf body) "outlined_curves_min") = false := by
  cases body with
  | obj fields =>
    have hr := (fromBody_eq_ok_iff.mp h).2.2.classification
    unfold thresholdsOf
    dsimp only
    generalize get fields "classification" = raw at hr ⊢
    match raw, hr with
    | none, _ => exact ⟨rfl, rfl⟩
    | some .null, _ => exact ⟨rfl, rfl⟩
    | some (.obj fields), hr =>
      have hr := (thresholds_eq_ok_iff.mp hr).2
      exact ⟨numberOr_int_negativeZero hr.minTextChars,
        numberOr_int_negativeZero hr.outlinedCurvesMin⟩
  | _ => cases h

theorem filter_eq_filter_iff {α : Type} {l : List α} {f g : α → Bool} :
    l.filter f = l.filter g ↔ ∀ a ∈ l, f a = g a := by
  refine ⟨fun h a ha => ?_, filter_congr⟩
  have hmem : a ∈ l.filter f ↔ a ∈ l.filter g := by rw [h]
  rw [mem_filter, mem_filter, and_iff_right ha, and_iff_right ha] at hmem
  exact Bool.eq_iff_iff.mpr hmem

/-- The signs that two bodies give agree exactly when those of their profiles do. -/
theorem negativeZeros_eq_iff (hp : fromBody u bodyA knownA = .ok p)
    (hq : fromBody u bodyB knownB = .ok q) : negativeZeros bodyA = negativeZeros bodyB ↔
      p.classification.garbledRatio.negativeZero = q.classification.garbledRatio.negativeZero ∧
      p.classification.rasterAreaRatio.negativeZero =
        q.classification.rasterAreaRatio.negativeZero ∧
      p.classification.ambiguityMargin.negativeZero =
        q.classification.ambiguityMargin.negativeZero ∧
      p.classification.cjkShare.negativeZero = q.classification.cjkShare.negativeZero ∧
      p.classification.scriptMixShare.negativeZero =
        q.classification.scriptMixShare.negativeZero := by
  obtain ⟨hcr, hcu⟩ := counts_negativeZero hp
  obtain ⟨hch, hc⟩ := counts_negativeZero hq
  obtain ⟨h1, h2, h3, h4, h5⟩ := classification_negativeZero hp
  obtain ⟨h1', h2', h3', h4', h5'⟩ := classification_negativeZero hq
  rw [h1, h2, h3, h4, h5, h1', h2', h3', h4', h5', negativeZeros, negativeZeros,
    filter_eq_filter_iff]
  simp only [thresholdNames, forall_mem_cons, not_mem_nil, false_imp_iff,
    implies_true, and_true, hcr, hcu, hch, hc, true_and]

theorem accept_negativeZero (h : fromBody u body known = .ok p) :
    p.autoAcceptConfidence.negativeZero = false := by
  rw [Bool.eq_false_iff]
  intro hs
  have hr := (storable_of_fromBody h).accept.1
  rw [p.autoAcceptConfidence.zero hs] at hr
  norm_num at hr

/-- Accepted bodies of equal profiles make one profile when they give the same negative zeros. -/
theorem eq_iff_negativeZeros (hp : fromBody u bodyA knownA = .ok p)
    (hq : fromBody u bodyB knownB = .ok q) (he : Equal p q) :
    p = q ↔ negativeZeros bodyA = negativeZeros bodyB := by
  rw [negativeZeros_eq_iff hp hq]
  have ha := (accept_negativeZero hp).trans (accept_negativeZero hq).symm
  constructor
  · rintro rfl
    exact ⟨rfl, rfl, rfl, rfl, rfl⟩
  · rintro ⟨hg, hr, hm, hcjk, hmix⟩
    obtain ⟨symbol, vendor, convention, aspects, xref, junction, plc, families, languages,
      patterns, labels, accept, t⟩ := p
    obtain ⟨symbol', vendor', convention', aspects', xref', junction', plc', families', languages',
      patterns', labels', accept', t'⟩ := q
    simp only [Equal, unsignedThresholds, DrawingProfile.mk.injEq, PyFloat.unsigned, PyFloat.of,
      PyFloat.mk.injEq, ClassificationThresholds.mk.injEq, and_true] at he
    obtain ⟨rfl, rfl, rfl, rfl, rfl, rfl, rfl, rfl, rfl, rfl, rfl, hvalue, hch, hgarbledValue,
      hrasterValue, hc, hmarginValue, hcjkValue, hmixValue⟩ := he
    obtain rfl := pyFloat_ext hvalue ha
    congr 1
    cases t
    cases t'
    congr 1
    · exact pyFloat_ext hgarbledValue hg
    · exact pyFloat_ext hrasterValue hr
    · exact pyFloat_ext hmarginValue hm
    · exact pyFloat_ext hcjkValue hcjk
    · exact pyFloat_ext hmixValue hmix

variable {D : Type} {r : FloatRepr} {sha256 : Text → D}

/-- What is obtained of accepted bodies is read back as it is. Equal profiles of accepted bodies
have one fingerprint exactly when the bodies give the same thresholds as a negative zero. -/
theorem stored_and_equal_iff (hp : fromBody u bodyA knownA = .ok p)
    (hq : fromBody u bodyB knownB = .ok q) (hequal : Equal p q)
    (hsha : sha256 (dumps r p.toBody) = sha256 (dumps r q.toBody) →
      dumps r p.toBody = dumps r q.toBody) :
    (∀ stored, Obtained u stored →
      (∃ again, fromBody u stored.toBody stored.wireNumberPatterns = .ok again ∧ again = stored ∧
        fingerprint r sha256 again = fingerprint r sha256 stored)) ∧
      (fingerprint r sha256 p = fingerprint r sha256 q ↔
        negativeZeros bodyA = negativeZeros bodyB) := by
  refine ⟨fun stored hs => ⟨stored, hs.storable.fromBody_toBody, rfl, rfl⟩, ?_⟩
  rw [← eq_iff_negativeZeros hp hq hequal, ← dumps_toBody_inj (r := r) hequal]
  exact ⟨hsha, congrArg sha256⟩

instance (p q : DrawingProfile) : Decidable (Equal p q) := inferInstanceAs (Decidable (_ = _))

private def defaultRepr : FloatRepr where
  repr x :=
    if x.value = 0 then ofString (if x.negativeZero then "-0.0" else "0.0")
    else (([(1 / 5, "0.2"), (3 / 5, "0.6"), (1 / 10, "0.1"), (3 / 10, "0.3"), (3 / 20, "0.15"),
      (9 / 10, "0.9")] : List (ℚ × String)).lookup x.value).elim [] ofString
  zero _ h := if_pos h

private def garbledBody (ratio : Json) : Json :=
  .obj [field "schema" (.int 1), field "classification" (.obj [field "garbled_ratio" ratio])]

private def negativeZero : PyFloat := ⟨0, true, fun _ => rfl⟩

private def bothAccepted (first second : Json)
    (test : DrawingProfile → DrawingProfile → Bool) : Bool :=
  (fromBody asciiUnicode first []).toOption.any fun p =>
    (fromBody asciiUnicode second []).toOption.any fun q => test p q

private theorem exists_of_bothAccepted {first second : Json}
    {test : DrawingProfile → DrawingProfile → Bool} (h : bothAccepted first second test = true) :
    ∃ p q, fromBody asciiUnicode first [] = .ok p ∧ fromBody asciiUnicode second [] = .ok q ∧
      test p q = true := by
  cases hp : fromBody asciiUnicode first [] with
  | error e =>
    rw [bothAccepted, hp] at h
    cases h
  | ok p =>
    cases hq : fromBody asciiUnicode second [] with
    | error e =>
      rw [bothAccepted, hp, hq] at h
      cases h
    | ok q =>
      rw [bothAccepted, hp, hq] at h
      exact ⟨p, q, rfl, rfl, h⟩

/-- An integer zero and a float zero. -/
theorem zero_ratios_have_one_fingerprint :
    ∃ p q, fromBody asciiUnicode (garbledBody (.int 0)) [] = .ok p ∧
      fromBody asciiUnicode (garbledBody (.float (.of 0))) [] = .ok q ∧ Equal p q ∧
      fingerprint defaultRepr id p = fingerprint defaultRepr id q := by
  have hb : bothAccepted (garbledBody (.int 0)) (garbledBody (.float (.of 0)))
      (fun p q => Equal p q) = true := by
    decide +kernel
  have hs : negativeZeros (garbledBody (.int 0)) =
      negativeZeros (garbledBody (.float (.of 0))) := by
    decide +kernel
  obtain ⟨p, q, hp, hq, ht⟩ := exists_of_bothAccepted hb
  have he : Equal p q := of_decide_eq_true ht
  have hsha : id (dumps defaultRepr p.toBody) = id (dumps defaultRepr q.toBody) →
      dumps defaultRepr p.toBody = dumps defaultRepr q.toBody := fun h => h
  exact ⟨p, q, hp, hq, he, (stored_and_equal_iff hp hq he hsha).2.mpr hs⟩

private def equalWithTwoPrints (p q : DrawingProfile) : Bool :=
  decide (Equal p q) && !decide (fingerprint defaultRepr id p = fingerprint defaultRepr id q)

/-- The profiles of a zero and of a negative zero are equal and have two fingerprints. -/
theorem negative_zero_has_another_fingerprint :
    ∃ p q, fromBody asciiUnicode (garbledBody (.float (.of 0))) [] = .ok p ∧
      fromBody asciiUnicode (garbledBody (.float negativeZero)) [] = .ok q ∧ Equal p q ∧
      fingerprint defaultRepr id p ≠ fingerprint defaultRepr id q := by
  have hb : bothAccepted (garbledBody (.float (.of 0))) (garbledBody (.float negativeZero))
      equalWithTwoPrints = true := by
    decide +kernel
  obtain ⟨p, q, hp, hq, ht⟩ := exists_of_bothAccepted hb
  rw [equalWithTwoPrints, Bool.and_eq_true, decide_eq_true_eq, Bool.not_eq_true',
    decide_eq_false_iff_not] at ht
  exact ⟨p, q, hp, hq, ht.1, ht.2⟩

end Bodies

end Aizzak.ProfileFingerprints
