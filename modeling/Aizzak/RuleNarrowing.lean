import Aizzak.IdentifierParsers

/-!
The packaged rules of the identifiers, and what a document's profile selects of them by name.
A voltage label that a profile adds must not be read as another kind of identifier under the
rules it is added to. A label that no rules of every convention read so is read so under other
conventions, families and formats exactly when it spells a PLC address of a family they enable.
-/
namespace Aizzak.RuleNarrowing

open BacktrackingPatterns PyText Normalization IdentifierParsers

section Packaged

def wireNumbers : List (Text × Pat) :=
  [(ofString "sequential", .opt (sym 'W') * digits 1 5),
    (ofString "page_column",
      digits 1 4 * sym '.' * digits 1 2 * .opt (sym '-' * digits 1 3)),
    (ofString "voltage_based",
      (sym 'L' * oneOf ['1', '2', '3'] + oneOf ['U', 'V', 'W']) * digits 1 3 *
          .opt (sym '-' * digits 1 3) +
        sym 'L' * oneOf ['1', '2', '3'] * sym '-' * digits 1 3)]

def crossReferences : List (Text × Pat) :=
  [(ofString "slash_page_dot_column", sym '/' * digits 1 4 * sym '.' * digits 1 2),
    (ofString "page_dot_column", digits 1 4 * sym '.' * digits 1 2),
    (ofString "prefixed_slash",
      sym '=' * .oneOrMore upperOrDigit * sym '/' * digits 1 4 * sym '.' * digits 1 2),
    (ofString "page_slash_column", digits 1 4 * sym '/' * digits 1 2)]

def packaged : IdentifierRules where
  aspects := [ofString "=", ofString "+", ofString "-"]
  extraAspects := [ofString "==", ofString "++", ofString "&", ofString "#"]
  connectionPointSeparator := 0x3A
  cnLetterCodes :=
    [(ofString "KM", "contactor"), (ofString "KA", "relay"), (ofString "KT", "time_relay"),
      (ofString "KV", "voltage_relay"), (ofString "QF", "circuit_breaker"),
      (ofString "QS", "isolator"), (ofString "FU", "fuse"), (ofString "FR", "thermal_relay"),
      (ofString "SB", "pushbutton"), (ofString "SA", "selector_switch"),
      (ofString "SQ", "limit_switch"), (ofString "HL", "indicator_lamp"),
      (ofString "XT", "terminal_strip")]
  nfpaCodes :=
    [(ofString "CR", "control_relay"), (ofString "M", "motor_starter"),
      (ofString "PB", "pushbutton"), (ofString "LT", "indicator_lamp"),
      (ofString "TB", "terminal_block")]
  terminalPrefixes := [ofString "X", ofString "XT", ofString "TB"]
  wireNumberPatterns := wireNumbers
  crossReferenceFormats := crossReferences
  connectionPointRoles :=
    [("A1", "coil"), ("A2", "coil"), ("1", "main_pole"), ("2", "main_pole"), ("3", "main_pole"),
      ("4", "main_pole"), ("5", "main_pole"), ("6", "main_pole"), ("13", "aux_no"),
      ("14", "aux_no"), ("23", "aux_no"), ("24", "aux_no"), ("33", "aux_no"), ("34", "aux_no"),
      ("43", "aux_no"), ("44", "aux_no"), ("21", "aux_nc"), ("22", "aux_nc"), ("31", "aux_nc"),
      ("32", "aux_nc"), ("41", "aux_nc"), ("42", "aux_nc"), ("95", "overload_nc"),
      ("96", "overload_nc"), ("97", "overload_no"), ("98", "overload_no")].map
        fun (label, role) => (ofString label, role)
  voltageLabels :=
    ["L1", "L2", "L3", "N", "PE", "L+", "L-", "M", "+24V", "0V", "24VDC"].map ofString
  conventions := Finset.univ
  plcFamilies := Finset.univ

end Packaged

section Narrowing

structure RuleSelection where
  conventions : Finset Convention
  plcFamilies : Finset PlcFamily
  extraAspects : List Text
  wireNumberPatterns : List Text
  crossReferenceFormat : Option Text
  extraVoltageLabels : List Text

inductive RuleError where
  | unknown (what : String) (name : Text)
  | tooManyLabels
  | rawLabelTooLong
  | hiddenCharacter
  | malformedLabel
  | labelReadAs (kind : IdentifierKind)
  deriving DecidableEq

def maxExtraVoltageLabels : ℕ := 64

def maxVoltageLabelChars : ℕ := 16

def maxRawVoltageLabelChars : ℕ := 64

def isLabelSymbol (c : CodePoint) : Bool :=
  isAsciiUpper c || isAsciiDigit c || c.val = 0x2B || c.val = 0x2D

def voltageLabel : Pat := .oneOrMore (.one isLabelSymbol)

def railCode (sign : Text) : Option Pat :=
  if sign = ofString "-" then some (digits 1 4 * .opt (sym 'V'))
  else if sign = ofString "+" then some (digits 1 4 * sym 'V')
  else none

def isRail (aspects : List Aspect) : Bool :=
  match aspects with
  | [a] => (railCode a.sign).any fun rail => (rail.fullMatch a.code).isSome
  | _ => false

def pick {β : Type} (available : List (Text × β)) (names : List Text) (what : String) :
    Except RuleError (List (Text × β)) :=
  match names.find? (· ∉ available.map Prod.fst) with
  | some name => .error (.unknown what name)
  | none => .ok (available.filter (·.1 ∈ names))

variable (u : Unicode)

/-- The kind that a label would be read as if it were not a voltage. -/
def otherKind (rules : IdentifierRules) (label : Text) : Option IdentifierKind :=
  (parse u rules label none).bind fun found =>
    if found.kind = .voltage then none
    else if found.kind = .referenceDesignation ∧ found.valid = true ∧ isRail found.aspects then
      none
    else some found.kind

def checkedLabel (rules : IdentifierRules) (raw : Text) : Except RuleError Text :=
  if maxRawVoltageLabelChars < raw.length then .error .rawLabelTooLong
  else if textIssues u raw ≠ [] then .error .hiddenCharacter
  else
    let label := canonicalForm u raw
    if label = [] ∨ maxVoltageLabelChars < label.length ∨
        (voltageLabel.fullMatch label).isNone ∨ label.any u.isAlnum = false then
      .error .malformedLabel
    else
      match otherKind u rules label with
      | some kind => .error (.labelReadAs kind)
      | none => .ok label

def checkedVoltageLabels (rules : IdentifierRules) (labels : List Text) :
    Except RuleError (List Text) :=
  if maxExtraVoltageLabels < labels.length then .error .tooManyLabels
  else (labels.mapM (checkedLabel u rules)).map List.eraseDups

section Fields

variable (rules : IdentifierRules) (profile : RuleSelection)

def chosenAspects : Except RuleError (List Text) :=
  if profile.extraAspects = [] then .ok rules.extraAspects
  else
    (pick (rules.extraAspects.map (·, ())) profile.extraAspects "extra aspect").map
      (List.map Prod.fst)

def chosenPatterns : Except RuleError (List (Text × Pat)) :=
  if profile.wireNumberPatterns = [] then .ok rules.wireNumberPatterns
  else pick rules.wireNumberPatterns profile.wireNumberPatterns "wire-number pattern"

def chosenFormats : Except RuleError (List (Text × Pat)) :=
  match profile.crossReferenceFormat with
  | none => .ok rules.crossReferenceFormats
  | some name => pick rules.crossReferenceFormats [name] "cross-reference format"

def chosenConventions : Finset Convention :=
  if profile.conventions = ∅ then rules.conventions
  else rules.conventions ∩ profile.conventions

def chosenFamilies : Finset PlcFamily :=
  if profile.plcFamilies = ∅ then rules.plcFamilies
  else rules.plcFamilies ∩ profile.plcFamilies

end Fields

def selected (rules : IdentifierRules) (profile : RuleSelection) :
    Except RuleError IdentifierRules := do
  let extraAspects ← chosenAspects rules profile
  let wire ← chosenPatterns rules profile
  let xref ← chosenFormats rules profile
  .ok { rules with
    conventions := chosenConventions rules profile
    plcFamilies := chosenFamilies rules profile
    extraAspects := extraAspects
    wireNumberPatterns := wire
    crossReferenceFormats := xref }

def narrowed (rules : IdentifierRules) (profile : RuleSelection) :
    Except RuleError IdentifierRules := do
  let narrowed ← selected rules profile
  let extras ← checkedVoltageLabels u narrowed profile.extraVoltageLabels
  .ok { narrowed with voltageLabels := (rules.voltageLabels ++ extras).eraseDups }

end Narrowing

end Aizzak.RuleNarrowing
