import Aizzak.DrawingProfiles

/-!
The rules of the identifiers as they are read from the mapping of a rules file: every table there
with its shape, every aspect of the five signs, every expression compiled.
-/
namespace Aizzak.RuleFiles

open PyText Normalization IdentifierParsers
open DrawingProfiles (Json Fields get bind_eq_ok_iff)

def aspectChars : List CodePoint := ofString "=+-&#"

inductive RuleError where
  | tableMissing (key : String)
  | textEmpty (key : String)
  | notStrings (table key : String)
  | notText (table : String) (key : Text)
  | aspectSymbols (token : Text)
  | aspectsNotUnique
  | separatorLength
  | expression (name : Text)
  | letterCode (table : String) (code : Text)

section Readers

variable (data : Fields)

def table (key : String) : Except RuleError Fields :=
  match get data key with
  | some (.obj fields) => .ok fields
  | _ => .error (.tableMissing key)

def text (key : String) : Except RuleError Text :=
  match get data key with
  | some (.str value) => if Blank value then .error (.textEmpty key) else .ok value
  | _ => .error (.textEmpty key)

def strings (key where_ : String) : Except RuleError (List Text) :=
  match get data key with
  | some (.list items) =>
    items.mapM fun
      | .str value => .ok value
      | _ => .error (.notStrings where_ key)
  | _ => .error (.notStrings where_ key)

def stringMap (where_ : String) : Except RuleError (List (Text × Text)) :=
  data.mapM fun (key, value) =>
    match value with
    | .str value => if value = [] then .error (.notText where_ key) else .ok (key, value)
    | _ => .error (.notText where_ key)

def codes (where_ : String) : Except RuleError (List (Text × Text)) := do
  let codes ← stringMap data where_
  match codes.find? fun (code, _) => code = [] ∨ code.all isAsciiUpper = false with
  | some (code, _) => .error (.letterCode where_ code)
  | none => .ok codes

def separator : Except RuleError CodePoint :=
  match get data "connection_point_separator" with
  | none => .ok 0x3A
  | some (.str [c]) => .ok c
  | some _ => .error .separatorLength

end Readers

def shown (name : Text) : String := String.ofList (name.map fun c => Char.ofNat c.val)

variable (u : Unicode) (compile : Text → Option Pat)

def compiled (rules : List (Text × Text)) : Except RuleError (List (Text × Pat)) :=
  rules.mapM fun (name, expression) =>
    match compile expression with
    | some pattern => .ok (name, pattern)
    | none => .error (.expression name)

def checkedAspects (reference : Fields) : Except RuleError (List Text × List Text) := do
  let aspects ← strings reference "aspects" "reference_designation"
  let extras ← strings reference "extra_aspects" "reference_designation"
  match (aspects ++ extras).find? fun token => token = [] ∨ token.all (· ∈ aspectChars) = false with
  | some token => .error (.aspectSymbols token)
  | none =>
    if aspects = [] ∨ (aspects ++ extras).eraseDups.length ≠ aspects.length + extras.length then
      .error .aspectsNotUnique
    else .ok (aspects, extras)

def rolesOf (points : List (Text × Text)) : List (Text × String) :=
  (points.map fun (label, role) => (u.upper label, shown role)).reverse

def fromMapping (data : Fields) : Except RuleError IdentifierRules := do
  let reference ← table data "reference_designation"
  let (aspects, extras) ← checkedAspects reference
  let connectionPointSeparator ← separator reference
  let terminals ← table data "terminals"
  let wire ← stringMap (← table data "wire_numbers") "wire_numbers"
  let xref ← stringMap (← table data "cross_references") "cross_references"
  let wirePatterns ← compiled compile wire
  let xrefPatterns ← compiled compile xref
  let _ ← text data "version"
  let cnLetterCodes ← codes (← table data "cn_letter_codes") "cn_letter_codes"
  let nfpaCodes ← codes (← table data "nfpa_codes") "nfpa_codes"
  let terminalPrefixes ← strings terminals "prefixes" "terminals"
  let points ← stringMap (← table data "connection_points") "connection_points"
  let labels ← strings (← table data "voltages") "labels" "voltages"
  .ok
    { aspects := aspects
      extraAspects := extras
      cnLetterCodes := cnLetterCodes.map fun (code, device) => (code, shown device)
      nfpaCodes := nfpaCodes.map fun (code, device) => (code, shown device)
      terminalPrefixes := terminalPrefixes
      wireNumberPatterns := wirePatterns
      crossReferenceFormats := xrefPatterns
      connectionPointRoles := rolesOf u points
      voltageLabels := labels.map (canonicalForm u)
      conventions := Finset.univ
      plcFamilies := Finset.univ
      connectionPointSeparator := connectionPointSeparator }

def IsSign (sign : Text) : Prop := sign ≠ [] ∧ ∀ c ∈ sign, c ∈ aspectChars

structure Accepted (rules : IdentifierRules) : Prop where
  signs : ∀ sign ∈ rules.allAspects, IsSign sign
  some : rules.aspects ≠ []
  conventions : rules.conventions = Finset.univ
  plcFamilies : rules.plcFamilies = Finset.univ

variable {u compile} {data : Fields} {rules : IdentifierRules}

/-- Accepted aspects are signs, one at least. -/
theorem checkedAspects_spec {reference : Fields} {aspects extras : List Text}
    (h : checkedAspects reference = .ok (aspects, extras)) :
    (∀ sign ∈ aspects ++ extras, IsSign sign) ∧ aspects ≠ [] := by
  obtain ⟨aspects', -, h⟩ := bind_eq_ok_iff.mp h
  obtain ⟨extras', -, h⟩ := bind_eq_ok_iff.mp h
  split at h
  · cases h
  · rename_i hf
    split_ifs at h with hu
    obtain ⟨rfl, rfl⟩ := Prod.mk.inj (Except.ok.inj h)
    refine ⟨fun sign hs => ?_, fun hnil => hu (.inl hnil)⟩
    have hg := List.find?_eq_none.mp hf sign hs
    rw [decide_eq_true_eq, not_or, Bool.not_eq_false, List.all_eq_true] at hg
    exact ⟨hg.1, fun c hc => of_decide_eq_true (hg.2 c hc)⟩

theorem accepted_of_fromMapping (h : fromMapping u compile data = .ok rules) :
    Accepted rules := by
  obtain ⟨reference, -, h⟩ := bind_eq_ok_iff.mp h
  obtain ⟨⟨aspects, extras⟩, ha, h⟩ := bind_eq_ok_iff.mp h
  obtain ⟨separator, -, h⟩ := bind_eq_ok_iff.mp h
  obtain ⟨terminals, -, h⟩ := bind_eq_ok_iff.mp h
  simp only [bind_eq_ok_iff] at h
  obtain ⟨_, -, wire, -, _, -, xref, -, wirePatterns, -, xrefPatterns, -, _, -, _, -, _, -, _, -, _,
    -, prefixes, -, _, -, points, -, _, -, labels, -, h⟩ := h
  cases h
  obtain ⟨hs, hso⟩ := checkedAspects_spec ha
  exact ⟨hs, hso, rfl, rfl⟩

end Aizzak.RuleFiles
