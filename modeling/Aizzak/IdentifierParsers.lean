import Aizzak.BacktrackingPatterns
import Aizzak.Normalization

/-!
The one identifier parser of the electrical drawings. Each kind of identifier has a pure
function over the canonical text, its forms and the rules, and the kinds are tried in a fixed
order. What a parser finds carries the forms with the keys that are safe for its kind.
-/
namespace Aizzak.IdentifierParsers

open BacktrackingPatterns PyText Normalization

inductive IdentifierKind where
  | referenceDesignation
  | letterCode
  | terminal
  | bridge
  | wireNumber
  | plcAddress
  | crossReference
  | connectionPoint
  | voltage
  deriving DecidableEq

inductive Convention where
  | iec81346
  | gbt5094
  | cnLetterCodes
  | nfpaJic
  deriving DecidableEq

instance : Fintype Convention :=
  ⟨{.iec81346, .gbt5094, .cnLetterCodes, .nfpaJic}, fun c => by cases c <;> decide⟩

inductive PlcFamily where
  | s7En
  | s7De
  | tia
  | s7Db
  | s7200
  deriving DecidableEq

instance : Fintype PlcFamily :=
  ⟨{.s7En, .s7De, .tia, .s7Db, .s7200}, fun f => by cases f <;> decide⟩

structure Aspect where
  sign : Text
  code : Text
  deriving DecidableEq

inductive Width where
  | bit
  | byte
  | word
  | dword
  deriving DecidableEq

structure PlcAddress where
  family : PlcFamily
  area : Text
  width : Width
  byte : ℕ
  bit : Option ℕ
  dbNumber : Option ℕ
  deriving DecidableEq

structure ParsedIdentifier where
  kind : IdentifierKind
  convention : Option Convention := none
  forms : NormalizedForms
  aspects : List Aspect := []
  connectionPoint : Option Text := none
  deviceClass : Option String := none
  poleRole : Option String := none
  plc : Option PlcAddress := none
  valid : Bool := true
  issues : List String := []
  variant : Option Text := none
  deriving DecidableEq

inductive Group where
  | area
  | w
  | byte
  | bit
  | per
  | parea
  | pw
  | db
  | aarea
  | abyte
  | sign
  | code
  | num
  | cp
  | strip
  | point
  deriving DecidableEq

abbrev Pat := Pattern CodePoint Group

abbrev Caught := List (Group × Text)

structure IdentifierRules where
  aspects : List Text
  extraAspects : List Text
  cnLetterCodes : List (Text × String)
  nfpaCodes : List (Text × String)
  terminalPrefixes : List Text
  wireNumberPatterns : List (Text × Pat)
  crossReferenceFormats : List (Text × Pat)
  connectionPointRoles : List (Text × String)
  voltageLabels : List Text
  conventions : Finset Convention
  plcFamilies : Finset PlcFamily
  connectionPointSeparator : CodePoint

def IdentifierRules.allAspects (rules : IdentifierRules) : List Text :=
  rules.aspects ++ rules.extraAspects

section Symbols

def sym (c : Char) : Pat := .one fun a => a.val = c.toNat

def oneOf (cs : List Char) : Pat := .one fun a => cs.any fun c => a.val = c.toNat

def digit : Pat := .one isAsciiDigit

def upper : Pat := .one isAsciiUpper

def upperOrDigit : Pat := .one fun a => isAsciiUpper a || isAsciiDigit a

def digits (least most : ℕ) : Pat := .rep least most digit

end Symbols

section PlcSiemens

def width : Pat := oneOf ['B', 'W', 'D']

def bitPart : Pat := .opt (sym '.' * .group .bit (digits 1 3))

def tiaPattern : Pat :=
  sym '%' * .group .area (oneOf ['I', 'Q', 'M']) * .opt (.group .w width) *
    .group .byte (digits 1 5) * bitPart * .opt (.group .per (sym ':' * sym 'P'))

/-- The English and the German addresses differ in their areas. -/
def classicPattern (pareas areas : List Char) : Pat :=
  (sym 'P' * .group .parea (oneOf pareas) * .group .pw width +
      .group .area (oneOf areas) * .opt (.group .w width)) *
    .group .byte (digits 1 5) * bitPart

def enPattern : Pat := classicPattern ['I', 'Q'] ['I', 'Q', 'M']

def dePattern : Pat := classicPattern ['E', 'A'] ['E', 'A', 'M']

def dbPattern : Pat :=
  sym 'D' * sym 'B' * .group .db (digits 1 5) * sym '.' * sym 'D' * sym 'B' *
    .group .w (oneOf ['X', 'B', 'W', 'D']) * .group .byte (digits 1 5) * bitPart

def s7200Pattern : Pat :=
  .group .aarea (sym 'A' * sym 'I' + sym 'A' * sym 'Q') * sym 'W' * .group .abyte (digits 1 5) +
    sym 'V' * .opt (.group .w width) * .group .byte (digits 1 5) * bitPart

def percentShape : Pat :=
  sym '%' * upper *
    .many (.one fun a => isAsciiUpper a || isAsciiDigit a || a.val = 0x2E || a.val = 0x3A)

def textOf (caught : Caught) (name : Group) : Text := (caught.lookup name).getD []

def intOf (caught : Caught) (name : Group) : Option ℕ := (caught.lookup name).map number

def widths (letter : Text) : Width :=
  if letter = ofString "B" then .byte else if letter = ofString "W" then .word else .dword

def decimal (n : ℕ) : Text := ofString (toString n)

def letterOf : Width → Text
  | .bit => []
  | .byte => ofString "B"
  | .word => ofString "W"
  | .dword => ofString "D"

inductive Style where
  | en
  | tia
  | de
  deriving DecidableEq

def german (area : Text) : Text :=
  if area = ofString "I" then ofString "E"
  else if area = ofString "Q" then ofString "A"
  else if area = ofString "PI" then ofString "PE"
  else if area = ofString "PQ" then ofString "PA"
  else area

def render (style : Style) (area : Text) (width : Width) (byte : ℕ) (bit : Option ℕ) : Text :=
  let number :=
    if width = .bit then decimal byte ++ ofString "." ++ bit.elim (ofString "None") decimal
    else letterOf width ++ decimal byte
  match style with
  | .en => area ++ number
  | .de => german area ++ number
  | .tia =>
    ofString "%" ++ area.drop (area.length - 1) ++ number ++
      if (ofString "P").isPrefixOf area then ofString ":P" else []

def build (forms : NormalizedForms) (family : PlcFamily) (area : Text) (width : Width)
    (byte : ℕ) (bit : Option ℕ) (dbNumber : Option ℕ) (extraIssues : List String)
    (spellings : Bool) : ParsedIdentifier :=
  let issues := extraIssues ++
    (if bit.any (7 < ·) then ["plc.bit_out_of_range"] else []) ++
    (if width = .bit ∧ bit = none then ["plc.bit_missing"] else []) ++
    if width ≠ .bit ∧ bit ≠ none then ["plc.bit_on_non_bit_width"] else []
  let keys :=
    if spellings ∧ issues = [] then
      [forms.canonical, render .en area width byte bit, render .tia area width byte bit,
        render .de area width byte bit]
    else [forms.canonical, stripLeadingZeros forms.canonical]
  { kind := .plcAddress
    forms := { forms with searchKeys := dedupe keys }
    plc := some ⟨family, area, width, byte, bit, dbNumber⟩
    valid := issues.isEmpty
    issues := issues }

def widthAndBit (caught : Caught) : Width × Option ℕ :=
  ((caught.lookup .w).elim .bit widths, intOf caught .bit)

def unsupported (forms : NormalizedForms) : ParsedIdentifier :=
  { kind := .plcAddress, forms := forms, valid := false, issues := ["plc.unsupported_form"] }

def tia (canonical : Text) (forms : NormalizedForms) : Option ParsedIdentifier :=
  match tiaPattern.fullMatch canonical with
  | none => if (percentShape.fullMatch canonical).isSome then some (unsupported forms) else none
  | some caught =>
    let (width, bit) := widthAndBit caught
    let area := textOf caught .area
    let byte := number (textOf caught .byte)
    if (caught.lookup .per).isNone then some (build forms .tia area width byte bit none [] true)
    else if area = ofString "M" then
      some (build forms .tia area width byte bit none ["plc.peripheral_marker"] true)
    else some (build forms .tia (ofString "P" ++ area) width byte bit none [] true)

def dataBlock (forms : NormalizedForms) (caught : Caught) : ParsedIdentifier :=
  let letter := textOf caught .w
  build forms .s7Db (ofString "DB") (if letter = ofString "X" then .bit else widths letter)
    (number (textOf caught .byte)) (intOf caught .bit) (intOf caught .db) [] false

def s7200 (forms : NormalizedForms) (caught : Caught) : Option ParsedIdentifier :=
  match caught.lookup .aarea with
  | some area =>
    some (build forms .s7200 area .word (number (textOf caught .abyte)) none none [] false)
  | none =>
    let (width, bit) := widthAndBit caught
    if width = .bit ∧ bit = none then none
    else
      some (build forms .s7200 (ofString "V") width (number (textOf caught .byte)) bit none []
        false)

/-- `M1`, `A1` and `E5` have no width and no bit and are not addresses. -/
def classic (forms : NormalizedForms) (family : PlcFamily) (toEnglish : Text → Text)
    (caught : Caught) : Option ParsedIdentifier :=
  let byte := number (textOf caught .byte)
  match caught.lookup .parea with
  | some parea =>
    some (build forms family (toEnglish (ofString "P" ++ parea)) (widths (textOf caught .pw)) byte
      (intOf caught .bit) none [] true)
  | none =>
    let (width, bit) := widthAndBit caught
    if width = .bit ∧ bit = none then none
    else some (build forms family (toEnglish (textOf caught .area)) width byte bit none [] true)

def fromGerman (area : Text) : Text :=
  if area = ofString "E" then ofString "I"
  else if area = ofString "A" then ofString "Q"
  else if area = ofString "PE" then ofString "PI"
  else if area = ofString "PA" then ofString "PQ"
  else area

def IdentifierRules.enabledMatch (rules : IdentifierRules) (family : PlcFamily) (pattern : Pat)
    (canonical : Text) : Option Caught :=
  if family ∈ rules.plcFamilies then pattern.fullMatch canonical else none

def parsePlcAddress (rules : IdentifierRules) (canonical : Text) (forms : NormalizedForms) :
    Option ParsedIdentifier :=
  if canonical.head?.any (·.val = 0x25) then
    if .tia ∈ rules.plcFamilies then tia canonical forms else none
  else
    match rules.enabledMatch .s7Db dbPattern canonical with
    | some caught => some (dataBlock forms caught)
    | none =>
      match rules.enabledMatch .s7200 s7200Pattern canonical with
      | some caught => s7200 forms caught
      | none =>
        match rules.enabledMatch .s7En enPattern canonical with
        | some caught => classic forms .s7En id caught
        | none =>
          (rules.enabledMatch .s7De dePattern canonical).bind (classic forms .s7De fromGerman)

end PlcSiemens

section CrossReferencesAndVoltages

def parseCrossReference (rules : IdentifierRules) (canonical : Text) (forms : NormalizedForms) :
    Option ParsedIdentifier :=
  (rules.crossReferenceFormats.find? fun format => (format.2.fullMatch canonical).isSome).map
    fun format => { kind := .crossReference, forms := forms, variant := some format.1 }

def parseVoltage (rules : IdentifierRules) (canonical : Text) (forms : NormalizedForms) :
    Option ParsedIdentifier :=
  if canonical ∈ rules.voltageLabels then some { kind := .voltage, forms := forms } else none

end CrossReferencesAndVoltages

section ConnectionPoints

def isValidLabel (label : Text) : Bool :=
  ((Pattern.rep 1 6 upperOrDigit).fullMatch label).isSome

def roleOf (rules : IdentifierRules) (label : Text) : Option String :=
  rules.connectionPointRoles.lookup (label.map asciiUpper)

def checkLabel (rules : IdentifierRules) (tail : Text) : Option Text × List String :=
  if tail = [] then (none, ["connection_point.empty"])
  else if rules.connectionPointSeparator ∈ tail then (none, ["connection_point.multiple"])
  else if ¬ isValidLabel tail then (none, ["connection_point.malformed"])
  else (some tail, [])

def parseConnectionPoint (rules : IdentifierRules) (canonical : Text) (forms : NormalizedForms) :
    Option ParsedIdentifier :=
  (roleOf rules canonical).map fun role =>
    { kind := .connectionPoint
      forms := forms
      connectionPoint := some canonical
      poleRole := some role }

end ConnectionPoints

section LetterCodes

def pickConvention (rules : IdentifierRules) (candidates : List Convention) :
    Option Convention :=
  candidates.find? (· ∈ rules.conventions)

def classifyCode (rules : IdentifierRules) (code : Text) (numberFirst : Bool) :
    Option (Convention × String) :=
  match if .cnLetterCodes ∈ rules.conventions then rules.cnLetterCodes.lookup code else none with
  | some device => some (.cnLetterCodes, device)
  | none =>
    if numberFirst = false ∧ .nfpaJic ∈ rules.conventions then
      (rules.nfpaCodes.lookup code).map fun device => (.nfpaJic, device)
    else none

def deviceClassOf (rules : IdentifierRules) (code : Text) : Option String :=
  (classifyCode rules code false).map Prod.snd

def codeTail (separator : CodePoint) : Pat :=
  .opt (.one (fun a => a = separator) * .group .cp (.many (.one fun _ => true)))

def lettersFirst (separator : CodePoint) : Pat :=
  .group .code (.rep 1 3 upper) * .group .num (digits 1 4) * codeTail separator

def digitsFirst (separator : CodePoint) : Pat :=
  .group .num (digits 1 4) * .group .code (.rep 1 3 upper) * codeTail separator

def letterCode (rules : IdentifierRules) (forms : NormalizedForms) (numberFirst : Bool)
    (caught : Caught) : Option ParsedIdentifier :=
  let code := textOf caught .code
  (classifyCode rules code numberFirst).map fun found =>
    let (cp, issues) := (caught.lookup .cp).elim (none, []) (checkLabel rules)
    let plain := stripLeadingZeros (textOf caught .num)
    { kind := .letterCode
      convention := some found.1
      forms := withKeys forms [code ++ plain, plain ++ code]
      connectionPoint := cp
      deviceClass := some found.2
      poleRole := cp.bind (roleOf rules)
      valid := issues.isEmpty
      issues := issues }

def parseLetterCode (rules : IdentifierRules) (canonical : Text) (forms : NormalizedForms) :
    Option ParsedIdentifier :=
  match (lettersFirst rules.connectionPointSeparator).fullMatch canonical with
  | some caught => letterCode rules forms false caught
  | none =>
    ((digitsFirst rules.connectionPointSeparator).fullMatch canonical).bind
      (letterCode rules forms true)

end LetterCodes

section ReferenceDesignations

structure Chain where
  aspects : List Aspect
  connectionPoint : Option Text
  issues : List String

def longestFirst (texts : List Text) : List Text :=
  texts.insertionSort fun s t => t.length < s.length ∨ t.length = s.length ∧ s ≤ t

def element (signs : List Text) : Pat :=
  .group .sign (.anyOf (longestFirst signs)) *
    .group .code (.oneOrMore (.one fun a => isAsciiUpper a || isAsciiDigit a || a.val = 0x5F))

/-- The loop over the head, in at most `fuel` elements; each of them reads something. -/
def aspectsOf (pattern : Pat) : ℕ → Text → List Aspect × List String
  | _, [] => ([], [])
  | 0, _ :: _ => ([], ["aspect.malformed"])
  | fuel + 1, head@(_ :: _) =>
    match pattern.matchFront head with
    | none => ([], ["aspect.malformed"])
    | some way =>
      let (aspects, issues) := aspectsOf pattern fuel way.left
      (⟨textOf way.caught .sign, textOf way.caught .code⟩ :: aspects, issues)

def startsWith (text : Text) (fronts : List Text) : Bool := fronts.any (·.isPrefixOf text)

def splitChain (rules : IdentifierRules) (canonical : Text) : Option Chain :=
  let head := canonical.takeWhile (· ≠ rules.connectionPointSeparator)
  if startsWith head rules.allAspects then
    let (connectionPoint, labelIssues) :=
      if rules.connectionPointSeparator ∈ canonical then
        checkLabel rules (canonical.drop (head.length + 1))
      else (none, [])
    let (aspects, issues) := aspectsOf (element rules.allAspects) head.length head
    some ⟨aspects, connectionPoint, labelIssues ++ issues⟩
  else none

def prose : Pat :=
  .oneOrMore (.one fun a => isAsciiUpper a || isAsciiDigit a ||
    ['_', '=', '+', '-', '&', '#', '.', ':', '/'].any fun c => a.val = c.toNat)

def isAsciiAlpha (a : CodePoint) : Bool := isAsciiUpper a || isAsciiLower a

def productKeys (rules : IdentifierRules) (chain : Chain) (product : Option Aspect) : List Text :=
  match product with
  | none => []
  | some a =>
    a.code :: match chain.connectionPoint with
      | none => []
      | some point =>
        if chain.aspects.getLast? = some a then
          [a.code ++ rules.connectionPointSeparator :: point]
        else []

def parseReferenceDesignation (rules : IdentifierRules) (canonical : Text)
    (forms : NormalizedForms) : Option ParsedIdentifier :=
  if (prose.fullMatch canonical).isNone then none
  else
    (splitChain rules canonical).bind fun chain =>
      (pickConvention rules [.iec81346, .gbt5094]).map fun convention =>
        let product := chain.aspects.reverse.find? fun a =>
          a.sign = ofString "-" ∧ a.code.head?.any isAsciiAlpha
        { kind := .referenceDesignation
          convention := some convention
          forms := withKeys forms (productKeys rules chain product)
          aspects := chain.aspects
          connectionPoint := chain.connectionPoint
          deviceClass := product.bind fun a =>
            let letters := a.code.takeWhile isAsciiUpper
            if letters = [] then none else deviceClassOf rules letters
          poleRole := chain.connectionPoint.bind (roleOf rules)
          valid := chain.issues.isEmpty
          issues := chain.issues }

end ReferenceDesignations

section Terminals

structure Terminal where
  aspects : List Aspect
  strip : Text
  point : Option Text
  convention : Convention
  deviceClass : String
  issues : List String

def charset : Pat :=
  .oneOrMore (.one fun a => isAsciiUpper a || isAsciiDigit a ||
    ['_', '=', '+', '-', '&', '#', '.', ':', '/', '~'].any fun c => a.val = c.toNat)

def glue (separator : CodePoint) : Pat :=
  .one fun a => a.val = 0x2E || a.val = 0x2D || a = separator

def pointPart : Pat := .group .point (.many (.one fun a => a.val ≠ 0x0A))

def barePattern (strips : List Text) (separator : CodePoint) : Pat :=
  .group .strip (.anyOf (longestFirst strips) * digits 1 4) * glue separator * pointPart

def digitsFirstPattern (strips : List Text) (separator : CodePoint) : Pat :=
  .group .strip (digits 1 4 * .anyOf (longestFirst strips)) * glue separator * pointPart

def wholePattern (strips : List Text) : Pat := .anyOf (longestFirst strips) * digits 1 4

def deviceClass (name : Text) : String :=
  if name = ofString "TB" then "terminal_block" else "terminal_strip"

def stripName (rules : IdentifierRules) (strip : Text) : Text :=
  let letters := strip.filter isAsciiAlpha
  if letters ∈ rules.terminalPrefixes then letters else []

def terminalOfChain (rules : IdentifierRules) (canonical : Text) : Option Terminal :=
  (splitChain rules canonical).bind fun chain =>
    if chain.issues ≠ [] then none
    else
      match chain.connectionPoint, chain.aspects.getLast?,
        pickConvention rules [.iec81346, .gbt5094] with
      | some point, some last, some convention =>
        if last.sign = ofString "-" ∧
            ((wholePattern rules.terminalPrefixes).fullMatch last.code).isSome then
          some ⟨chain.aspects, last.code, some point, convention,
            deviceClass (stripName rules last.code), []⟩
        else none
      | _, _, _ => none

def terminalConvention (rules : IdentifierRules) (numberFirst : Bool) (name : Text) :
    Option Convention :=
  if numberFirst ∨ name = ofString "XT" then pickConvention rules [.cnLetterCodes]
  else if name = ofString "TB" then pickConvention rules [.nfpaJic]
  else pickConvention rules [.iec81346, .gbt5094]

def terminalOfMatch (rules : IdentifierRules) (numberFirst : Bool) (caught : Caught) :
    Option Terminal :=
  let strip := textOf caught .strip
  let name := stripName rules strip
  (terminalConvention rules numberFirst name).map fun convention =>
    let (point, issues) := checkLabel rules (textOf caught .point)
    ⟨[], strip, point, convention, deviceClass name, issues⟩

def splitTerminal (rules : IdentifierRules) (canonical : Text) : Option Terminal :=
  if rules.terminalPrefixes = [] then none
  else if startsWith canonical rules.allAspects then terminalOfChain rules canonical
  else
    match (barePattern rules.terminalPrefixes rules.connectionPointSeparator).fullMatch
      canonical with
    | some caught => terminalOfMatch rules false caught
    | none =>
      ((digitsFirstPattern rules.terminalPrefixes rules.connectionPointSeparator).fullMatch
        canonical).bind (terminalOfMatch rules true)

def tilde : CodePoint := 0x7E

def Terminal.unified (terminal : Terminal) (separator : CodePoint) : Text :=
  terminal.point.elim terminal.strip fun point => terminal.strip ++ separator :: point

def unifiedKeys (unified : Text) : List Text := [unified, stripLeadingZeros unified]

def parseTerminal (rules : IdentifierRules) (canonical : Text) (forms : NormalizedForms) :
    Option ParsedIdentifier :=
  if (charset.fullMatch canonical).isNone ∨ tilde ∈ canonical then none
  else
    (splitTerminal rules canonical).bind fun found =>
      if found.point = none ∧ found.issues = [] then none
      else some
        { kind := .terminal
          convention := some found.convention
          forms := withKeys forms (unifiedKeys (found.unified rules.connectionPointSeparator))
          aspects := found.aspects
          connectionPoint := found.point
          deviceClass := some found.deviceClass
          valid := found.issues.isEmpty
          issues := found.issues }

def bridgeRight (rules : IdentifierRules) (left : Terminal) (rightText : Text) :
    Option Text × Text × List String :=
  let bare :=
    if isValidLabel rightText then
      (some rightText, left.strip ++ rules.connectionPointSeparator :: rightText, [])
    else (none, rightText, ["bridge.right_not_terminal"])
  match splitTerminal rules rightText with
  | none => bare
  | some right =>
    if right.point = none ∧ right.issues = [] then bare
    else
      (right.point, right.unified rules.connectionPointSeparator, right.issues ++
        if stripLeadingZeros right.strip ≠ stripLeadingZeros left.strip then
          ["bridge.different_strips"]
        else [])

def parseBridge (rules : IdentifierRules) (canonical : Text) (forms : NormalizedForms) :
    Option ParsedIdentifier :=
  if canonical.count tilde ≠ 1 ∨ (charset.fullMatch canonical).isNone then none
  else
    let leftText := canonical.takeWhile (· ≠ tilde)
    (splitTerminal rules leftText).bind fun left =>
      if left.point = none ∧ left.issues = [] then none
      else
        let (rightPoint, rightUnified, rightIssues) :=
          bridgeRight rules left (canonical.drop (leftText.length + 1))
        let issues := left.issues ++ rightIssues
        some
          { kind := .bridge
            convention := some left.convention
            forms := withKeys forms (unifiedKeys
              (left.unified rules.connectionPointSeparator ++ tilde :: rightUnified))
            aspects := left.aspects
            connectionPoint := left.point.bind fun l => rightPoint.map fun r => l ++ tilde :: r
            deviceClass := some left.deviceClass
            valid := issues.isEmpty
            issues := issues }

end Terminals

section WireNumbers

def parseWireNumber (rules : IdentifierRules) (canonical : Text) (forms : NormalizedForms) :
    Option ParsedIdentifier :=
  (rules.wireNumberPatterns.find? fun pattern => (pattern.2.fullMatch canonical).isSome).map
    fun pattern => { kind := .wireNumber, forms := forms, variant := some pattern.1 }

end WireNumbers

section Parser

def maxTextChars : ℕ := 200

def order : List (IdentifierKind ×
    (IdentifierRules → Text → NormalizedForms → Option ParsedIdentifier)) :=
  [(.plcAddress, parsePlcAddress), (.crossReference, parseCrossReference),
    (.voltage, parseVoltage), (.bridge, parseBridge), (.terminal, parseTerminal),
    (.referenceDesignation, parseReferenceDesignation), (.letterCode, parseLetterCode),
    (.wireNumber, parseWireNumber), (.connectionPoint, parseConnectionPoint)]

def flagText (found : ParsedIdentifier) (issues : List String) : ParsedIdentifier :=
  if issues = [] then found
  else
    { found with
      valid := found.valid && issues.all (· ∈ nonInvalidatingIssues)
      issues := (found.issues ++ issues).eraseDups }

variable (u : Unicode) (rules : IdentifierRules)

def first (forms : NormalizedForms) (hint : Option IdentifierKind) (text : Text) :
    Option ParsedIdentifier :=
  (order.findSome? fun (kind, parse) =>
    if hint.any (· ≠ kind) then none else parse rules forms.canonical forms).map
      (flagText · (textIssues u text))

/-- An identifier behind marks is found invalid, under the canonical form that keeps them. -/
def parseNonAscii (text : Text) (forms : NormalizedForms) (hint : Option IdentifierKind) :
    Option ParsedIdentifier :=
  let skeleton := (u.nfd forms.canonical).filter fun c =>
    u.category c ≠ .nonspacingMark ∧ u.category c ≠ .enclosingMark
  if ¬ IsAscii skeleton ∨ skeleton.any u.isAlnum = false then none
  else
    (first u rules (normalize u skeleton) hint text).map fun found =>
      { found with
        forms := ⟨forms.original, forms.canonical, [forms.canonical]⟩
        valid := false
        issues := (found.issues ++ [issueNonAscii]).eraseDups }

def parse (text : Text) (hint : Option IdentifierKind) : Option ParsedIdentifier :=
  if Blank text ∨ maxTextChars < text.length then none
  else
    let forms := normalize u text
    if maxTextChars < forms.canonical.length ∨ forms.canonical.any u.isAlnum = false then none
    else if ¬ IsAscii forms.canonical then parseNonAscii u rules text forms hint
    else first u rules forms hint text

structure ConventionTally where
  conventions : Convention → ℕ
  plcFamilies : PlcFamily → ℕ
  crossReferenceFormats : List (Text × ℕ)
  identifiers : ℕ
  tokens : ℕ

def tally (tokens : List Text) : ConventionTally :=
  let parsed := tokens.filterMap fun token => parse u rules token none
  let found := parsed.filter fun p => issueNonAscii ∉ p.issues
  let formats := (found.filter (·.kind = .crossReference)).filterMap (·.variant)
  { conventions := fun c => found.countP fun p => p.convention = some c
    plcFamilies := fun f => found.countP fun p => p.plc.any (·.family = f)
    crossReferenceFormats := formats.eraseDups.map fun name => (name, formats.count name)
    identifiers := parsed.length
    tokens := tokens.length }

variable {u rules}

theorem normalize_of_isPlain {text : Text} (h : ∀ c ∈ text, IsPlain c) :
    normalize u text = normalize asciiUnicode text := by
  unfold Normalization.normalize
  rw [canonicalForm_of_isPlain h, canonicalForm_of_isPlain h]

/-- On plain text every table of Unicode parses alike. -/
theorem parse_of_isPlain {text : Text} {hint : Option IdentifierKind}
    (h : ∀ c ∈ text, IsPlain c) : parse u rules text hint = parse asciiUnicode rules text hint := by
  have ha : IsAscii text := fun c hc => by
    have := (h c hc).2
    omega
  have hca : (normalize asciiUnicode text).canonical = text := by
    change canonicalForm asciiUnicode text = text
    exact canonicalForm_of_isPlain h
  have hal : text.any u.isAlnum = text.any asciiUnicode.isAlnum := by
    rw [Bool.eq_iff_iff, List.any_eq_true, List.any_eq_true]
    refine exists_congr fun c => and_congr_right fun hc => ?_
    rw [u.isAlnum_ascii c (ha c hc), asciiUnicode.isAlnum_ascii c (ha c hc)]
  unfold parse
  simp only [normalize_of_isPlain h, hca, hal, ha, not_true_eq_false, if_false]
  unfold first
  rw [textIssues_of_isPlain h, textIssues_of_isPlain h]

end Parser

end Aizzak.IdentifierParsers
