import Aizzak.RuleNarrowing

/-!
The profile of a drawing: how a body is read strictly into one, which rules it selects by name,
how it is written back as a body, and the fingerprint of its canonical JSON.
-/
namespace Aizzak.DrawingProfiles

open BacktrackingPatterns PyText Normalization IdentifierParsers RuleNarrowing

section Profile

inductive SymbolStandard where
  | iec60617
  | gbt4728
  | nfpaJic
  | vendor
  deriving DecidableEq

inductive CrossReferenceFormat where
  | auto
  | slashPageDotColumn
  | pageDotColumn
  | prefixedSlash
  | pageSlashColumn
  deriving DecidableEq

inductive JunctionConvention where
  | auto
  | dotMarksJunction
  | noDot
  deriving DecidableEq

inductive Language where
  | en
  | zh
  deriving DecidableEq

/-- A finite float. A zero may carry a sign, which no comparison sees. -/
structure PyFloat where
  value : ℚ
  negativeZero : Bool
  zero : negativeZero = true → value = 0
  deriving DecidableEq

def PyFloat.of (q : ℚ) : PyFloat := ⟨q, false, nofun⟩

structure ClassificationThresholds where
  minTextChars : ℤ := 20
  garbledRatio : PyFloat := .of (1 / 5)
  rasterAreaRatio : PyFloat := .of (3 / 5)
  outlinedCurvesMin : ℤ := 400
  ambiguityMargin : PyFloat := .of (1 / 10)
  cjkShare : PyFloat := .of (3 / 10)
  scriptMixShare : PyFloat := .of (3 / 20)
  deriving DecidableEq

structure DrawingProfile where
  symbolStandard : SymbolStandard := .iec60617
  vendorLibrary : Option Text := none
  identifierConvention : Convention := .iec81346
  extraAspects : List Text := []
  crossReferenceFormat : CrossReferenceFormat := .auto
  junctionConvention : JunctionConvention := .auto
  plcVendor : Text := ofString "siemens"
  plcFamilies : Finset PlcFamily := Finset.univ
  languages : Finset Language := {.en, .zh}
  wireNumberPatterns : List Text := []
  voltageLabels : List Text := []
  autoAcceptConfidence : PyFloat := .of (9 / 10)
  classification : ClassificationThresholds := {}
  deriving DecidableEq

def symbolStandards : List (String × SymbolStandard) :=
  [("iec_60617", .iec60617), ("gbt_4728", .gbt4728), ("nfpa_jic", .nfpaJic), ("vendor", .vendor)]

def conventionNames : List (String × Convention) :=
  [("iec_81346", .iec81346), ("gbt_5094", .gbt5094), ("cn_letter_codes", .cnLetterCodes),
    ("nfpa_jic", .nfpaJic)]

def familyNames : List (String × PlcFamily) :=
  [("s7_en", .s7En), ("s7_de", .s7De), ("tia", .tia), ("s7_db", .s7Db), ("s7_200", .s7200)]

def formatNames : List (String × CrossReferenceFormat) :=
  [("auto", .auto), ("slash_page_dot_column", .slashPageDotColumn),
    ("page_dot_column", .pageDotColumn), ("prefixed_slash", .prefixedSlash),
    ("page_slash_column", .pageSlashColumn)]

def junctionNames : List (String × JunctionConvention) :=
  [("auto", .auto), ("dot_marks_junction", .dotMarksJunction), ("no_dot", .noDot)]

def languageNames : List (String × Language) := [("en", .en), ("zh", .zh)]

def CrossReferenceFormat.rule : CrossReferenceFormat → Option Text
  | .auto => none
  | .slashPageDotColumn => some (ofString "slash_page_dot_column")
  | .pageDotColumn => some (ofString "page_dot_column")
  | .prefixedSlash => some (ofString "prefixed_slash")
  | .pageSlashColumn => some (ofString "page_slash_column")

def DrawingProfile.ruleSelection (p : DrawingProfile) : RuleSelection where
  conventions := {p.identifierConvention}
  plcFamilies := p.plcFamilies
  extraAspects := p.extraAspects
  wireNumberPatterns := p.wireNumberPatterns
  crossReferenceFormat := p.crossReferenceFormat.rule
  extraVoltageLabels := p.voltageLabels

end Profile

section Body

inductive NonFinite where
  | nan
  | infinity
  | negativeInfinity

inductive Json where
  | null
  | bool (value : Bool)
  | int (value : ℤ)
  | float (value : PyFloat)
  | nonFinite (value : NonFinite)
  | str (value : Text)
  | list (items : List Json)
  | obj (fields : List (Text × Json))

structure InvalidProfile where
  path : Text
  message : Text

def invalid {β : Type} (path message : String) : Except InvalidProfile β :=
  .error ⟨ofString path, ofString message⟩

def commaJoin (names : List String) : String := ", ".intercalate names

def item (key : String) (i : ℕ) : String := s!"{key}[{i}]"

def topKeys : List String :=
  ["schema", "symbol_standard", "vendor_library", "identifier_convention", "extra_aspects",
    "cross_reference_format", "junction_convention", "plc_vendor", "plc_families", "languages",
    "wire_number_patterns", "voltage_labels", "auto_accept_confidence", "classification"]

abbrev Fields := List (Text × Json)

def get (body : Fields) (key : String) : Option Json := body.lookup (ofString key)

section Readers

theorem toOption_eq_some {ε α : Type} {x : Except ε α} {a : α} (h : x.toOption = some a) :
    x = .ok a := by
  cases x with
  | error e => cases h
  | ok b => exact congrArg Except.ok (Option.some.inj h)

theorem bind_eq_ok_iff {ε α β : Type} {x : Except ε α} {f : α → Except ε β} {b : β} :
    (x >>= f) = .ok b ↔ ∃ a, x = .ok a ∧ f a = .ok b := by
  cases x with
  | error e => exact ⟨nofun, fun ⟨_, h, _⟩ => nomatch h⟩
  | ok a => exact ⟨fun h => ⟨a, rfl, h⟩, fun ⟨_, ha, hf⟩ => Except.ok.inj ha ▸ hf⟩

variable {β : Type}

def toEnum (value : Json) (path : String) (members : List (String × β)) :
    Except InvalidProfile β :=
  let found : Option (String × β) := match value with
    | .str text => members.find? fun member => ofString member.1 = text
    | _ => none
  match found with
  | some member => .ok member.2
  | none => invalid path ("must be one of: " ++ commaJoin (members.map Prod.fst))

def enum (body : Fields) (key : String) (members : List (String × β)) (default : β) :
    Except InvalidProfile β :=
  match get body key with
  | none => .ok default
  | some value => toEnum value key members

def list (body : Fields) (key : String) : Except InvalidProfile (Option (List Json)) :=
  match get body key with
  | none => .ok none
  | some (.list items) => .ok (some items)
  | some _ => invalid key "must be a list"

def enumSet [DecidableEq β] (body : Fields) (key : String) (members : List (String × β))
    (minimum : ℕ) (default : Finset β) : Except InvalidProfile (Finset β) := do
  match ← list body key with
  | none => .ok default
  | some items =>
    let found ← items.zipIdx.mapM fun (value, i) => toEnum value (item key i) members
    if found.toFinset.card < minimum then invalid key s!"must list at least {minimum}"
    else .ok found.toFinset

def strings (items : List Json) (key : String) : Except InvalidProfile (List Text) :=
  items.zipIdx.mapM fun (value, i) =>
    match value with
    | .str text => .ok text
    | _ => invalid (item key i) "must be a string"

end Readers

def sortedSet (texts : List Text) : List Text := texts.eraseDups.insertionSort (· ≤ ·)

def languages (body : Fields) (default : Finset Language) :
    Except InvalidProfile (Finset Language) := do
  match ← list body "languages" with
  | none => .ok default
  | some items =>
    let found ← items.zipIdx.mapM fun (value, i) => toEnum value (item "languages" i) languageNames
    if items.isEmpty then invalid "languages" "must list at least 1"
    else .ok found.toFinset

def names (body : Fields) (key : String) (known : List Text) :
    Except InvalidProfile (List Text) := do
  match ← list body key with
  | none => .ok []
  | some items =>
    let names ← strings items key
    match names.zipIdx.find? (·.1 ∉ known) with
    | some (_, i) =>
      .error ⟨ofString (item key i), ofString "unknown pattern name; known: " ++
        (ofString ", ").intercalate (sortedSet known)⟩
    | none => .ok (sortedSet names)

def aspectChars : List CodePoint := ofString "=+-&#"

def maxExtraAspects : ℕ := 8

def maxAspectChars : ℕ := 4

def aspects (body : Fields) : Except InvalidProfile (List Text) := do
  match ← list body "extra_aspects" with
  | none => .ok []
  | some items =>
    let aspects ← strings items "extra_aspects"
    if maxExtraAspects < aspects.length then
      invalid "extra_aspects" s!"at most {maxExtraAspects}"
    else
      match aspects.zipIdx.find? fun (aspect, _) =>
        aspect = [] ∨ maxAspectChars < aspect.length ∨ ¬ ∀ c ∈ aspect, c ∈ aspectChars with
      | some (_, i) =>
        invalid (item "extra_aspects" i) s!"must be 1..{maxAspectChars} characters of = + - & #"
      | none => .ok (sortedSet aspects)

def maxVoltageLabels : ℕ := 64

def voltageLabels (body : Fields) : Except InvalidProfile (List Text) := do
  match ← list body "voltage_labels" with
  | none => .ok []
  | some items =>
    let labels ← strings items "voltage_labels"
    if maxVoltageLabels < labels.length then
      invalid "voltage_labels" s!"at most {maxVoltageLabels}"
    else
      match labels.zipIdx.find? fun (label, _) =>
        Blank label ∨ maxVoltageLabelChars < label.length with
      | some (_, i) =>
        invalid (item "voltage_labels" i) s!"must be 1..{maxVoltageLabelChars} characters"
      | none => .ok (sortedSet labels)

def maxVendorLibraryChars : ℕ := 100

def forbiddenTextCategories : List Category :=
  [.control, .format, .surrogate, .privateUse, .unassigned]

def vendorLibrary (u : Unicode) (body : Fields) (symbol : SymbolStandard) :
    Except InvalidProfile (Option Text) :=
  match get body "vendor_library" with
  | none | some .null => .ok none
  | some (.str value) =>
    if Blank value then invalid "vendor_library" "must be a non-empty string or null"
    else if maxVendorLibraryChars < value.length then
      invalid "vendor_library" s!"at most {maxVendorLibraryChars} characters"
    else if value.any fun c => u.category c ∈ forbiddenTextCategories then
      invalid "vendor_library" "must not contain control or hidden characters"
    else if symbol ≠ .vendor then
      invalid "vendor_library" "allowed only with symbol_standard 'vendor'"
    else .ok (some (strip value))
  | some _ => invalid "vendor_library" "must be a non-empty string or null"

def plcVendor (body : Fields) : Except InvalidProfile Text :=
  match get body "plc_vendor" with
  | none => .ok (ofString "siemens")
  | some (.str value) =>
    if value = ofString "siemens" then .ok value
    else invalid "plc_vendor" "must be one of: siemens"
  | some _ => invalid "plc_vendor" "must be one of: siemens"

structure NumberRange (β : Type) where
  low : ℚ
  high : ℚ
  bounds : String
  ofInt : ℤ → β
  ofFloat : Option (PyFloat → β)

def intRange (low high : ℚ) (bounds : String) : NumberRange ℤ := ⟨low, high, bounds, id, none⟩

def floatRange (low high : ℚ) (bounds : String) : NumberRange PyFloat :=
  ⟨low, high, bounds, fun n => .of n, some id⟩

def number {β : Type} (value : Json) (path : String) (range : NumberRange β) :
    Except InvalidProfile β :=
  let within (q : ℚ) (accepted : β) : Except InvalidProfile β :=
    if range.low ≤ q ∧ q ≤ range.high then .ok accepted
    else invalid path s!"must be between {range.bounds}"
  match value with
  | .int n => within n (range.ofInt n)
  | .float x =>
    match range.ofFloat with
    | none => invalid path "must be an integer"
    | some ofFloat => within x.value (ofFloat x)
  | .nonFinite _ =>
    match range.ofFloat with
    | none => invalid path "must be an integer"
    | some _ => invalid path s!"must be between {range.bounds}"
  | _ => invalid path "must be a number"

def numberOr {β : Type} (fields : Fields) (key path : String) (range : NumberRange β)
    (default : β) : Except InvalidProfile β :=
  match get fields key with
  | none => .ok default
  | some value => number value path range

def thresholdNames : List String :=
  ["min_text_chars", "garbled_ratio", "raster_area_ratio", "outlined_curves_min",
    "ambiguity_margin", "cjk_share", "script_mix_share"]

def threshold {β : Type} (fields : Fields) (name : String) (range : NumberRange β)
    (default : β) : Except InvalidProfile β :=
  numberOr fields name s!"classification.{name}" range default

def thresholds (raw : Option Json) (default : ClassificationThresholds) :
    Except InvalidProfile ClassificationThresholds := do
  match raw with
  | none | some .null => .ok default
  | some (.obj fields) =>
    if fields.any fun field => field.1 ∉ thresholdNames.map ofString then
      invalid "classification" ("unknown field; allowed: " ++ commaJoin thresholdNames)
    else
      .ok
        { minTextChars := ← threshold fields "min_text_chars" (intRange 0 10000 "0 and 10000")
            default.minTextChars
          garbledRatio := ← threshold fields "garbled_ratio" (floatRange 0 1 "0.0 and 1.0")
            default.garbledRatio
          rasterAreaRatio := ← threshold fields "raster_area_ratio" (floatRange 0 1 "0.0 and 1.0")
            default.rasterAreaRatio
          outlinedCurvesMin := ← threshold fields "outlined_curves_min"
            (intRange 1 1000000 "1 and 1000000") default.outlinedCurvesMin
          ambiguityMargin := ← threshold fields "ambiguity_margin"
            (floatRange 0 (1 / 2) "0.0 and 0.5") default.ambiguityMargin
          cjkShare := ← threshold fields "cjk_share" (floatRange 0 1 "0.0 and 1.0")
            default.cjkShare
          scriptMixShare := ← threshold fields "script_mix_share" (floatRange 0 1 "0.0 and 1.0")
            default.scriptMixShare }
  | some _ => invalid "classification" "must be an object"

def isSchema (value : Option Json) : Bool :=
  match value with
  | some (.int n) => n = 1
  | some (.float x) => x.value = 1
  | _ => false

/-- The first field that a body gets wrong names itself; an absent one takes its default. -/
def fromBody (u : Unicode) (body : Json) (knownPatterns : List Text) :
    Except InvalidProfile DrawingProfile := do
  let .obj body := body | invalid "body" "must be an object"
  if body.any fun field => field.1 ∉ topKeys.map ofString then
    invalid "body" ("unknown field; allowed: " ++ commaJoin topKeys)
  else if isSchema (get body "schema") = false then invalid "schema" "must be 1"
  else
    let base : DrawingProfile := {}
    let symbol ← enum body "symbol_standard" symbolStandards base.symbolStandard
    let vendor ← vendorLibrary u body symbol
    let convention ← enum body "identifier_convention" conventionNames base.identifierConvention
    let xref ← enum body "cross_reference_format" formatNames base.crossReferenceFormat
    let junction ← enum body "junction_convention" junctionNames base.junctionConvention
    let plcVendor ← plcVendor body
    let families ← enumSet body "plc_families" familyNames 1 base.plcFamilies
    let languages ← languages body base.languages
    let patterns ← names body "wire_number_patterns" knownPatterns
    let aspects ← aspects body
    let labels ← voltageLabels body
    let accept ← numberOr body "auto_accept_confidence" "auto_accept_confidence"
      (floatRange (1 / 2) 1 "0.5 and 1.0") base.autoAcceptConfidence
    let classification ← thresholds (get body "classification") base.classification
    .ok ⟨symbol, vendor, convention, aspects, xref, junction, plcVendor, families, languages,
      patterns, labels, accept, classification⟩

def voltageLabelText : String :=
  "each label must be 1..16 characters of A-Z 0-9 + - with a letter or a digit, " ++
    "and must not be readable as another kind of identifier (a rail such as -48V or +24V is)"

def parseProfile (u : Unicode) (packaged : IdentifierRules) (body : Json) :
    Except InvalidProfile DrawingProfile := do
  let profile ← fromBody u body (packaged.wireNumberPatterns.map Prod.fst)
  let selection := profile.ruleSelection
  match narrowed u packaged { selection with extraVoltageLabels := [] } with
  | .error _ =>
    .error ⟨ofString "extra_aspects", ofString "unknown aspect; known: " ++
      (ofString ", ").intercalate packaged.extraAspects⟩
  | .ok _ =>
    match narrowed u packaged { selection with conventions := ∅ },
      narrowed u packaged selection with
    | .ok _, .ok _ =>
      .ok { profile with voltageLabels := sortedSet (profile.voltageLabels.map (canonicalForm u)) }
    | _, _ => invalid "voltage_labels" voltageLabelText

end Body

section Writing

def nameOf {β : Type} [DecidableEq β] (members : List (String × β)) (value : β) : Json :=
  .str (((members.find? (·.2 = value)).map fun member => ofString member.1).getD [])

def sortedNames {β : Type} [DecidableEq β] (members : List (String × β)) (values : Finset β) :
    Json :=
  .list ((sortedSet ((members.filter (·.2 ∈ values)).map fun member => ofString member.1)).map
    .str)

def field (key : String) (value : Json) : Text × Json := (ofString key, value)

def DrawingProfile.toBody (p : DrawingProfile) : Json :=
  let t := p.classification
  .obj
    [field "schema" (.int 1),
      field "symbol_standard" (nameOf symbolStandards p.symbolStandard),
      field "vendor_library" (p.vendorLibrary.elim .null .str),
      field "identifier_convention" (nameOf conventionNames p.identifierConvention),
      field "extra_aspects" (.list (p.extraAspects.map .str)),
      field "cross_reference_format" (nameOf formatNames p.crossReferenceFormat),
      field "junction_convention" (nameOf junctionNames p.junctionConvention),
      field "plc_vendor" (.str p.plcVendor),
      field "plc_families" (sortedNames familyNames p.plcFamilies),
      field "languages" (sortedNames languageNames p.languages),
      field "wire_number_patterns" (.list (p.wireNumberPatterns.map .str)),
      field "voltage_labels" (.list (p.voltageLabels.map .str)),
      field "auto_accept_confidence" (.float p.autoAcceptConfidence),
      field "classification"
        (.obj
          [field "min_text_chars" (.int t.minTextChars),
            field "garbled_ratio" (.float t.garbledRatio),
            field "raster_area_ratio" (.float t.rasterAreaRatio),
            field "outlined_curves_min" (.int t.outlinedCurvesMin),
            field "ambiguity_margin" (.float t.ambiguityMargin),
            field "cjk_share" (.float t.cjkShare),
            field "script_mix_share" (.float t.scriptMixShare)])]

def DrawingProfile.withDetected (p : DrawingProfile) (symbolStandard : SymbolStandard)
    (identifierConvention : Convention) (crossReferenceFormat : CrossReferenceFormat)
    (plcFamilies : Finset PlcFamily) (languages : Finset Language) : DrawingProfile :=
  { p with
    symbolStandard := symbolStandard
    vendorLibrary := if symbolStandard = .vendor then p.vendorLibrary else none
    identifierConvention := identifierConvention
    crossReferenceFormat := crossReferenceFormat
    plcFamilies := plcFamilies
    languages := languages }

end Writing

end Aizzak.DrawingProfiles
