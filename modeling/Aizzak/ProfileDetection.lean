import Aizzak.DrawingProfiles

/-!
What the evidence of a document makes of the profile it was read with. The convention of most
identifiers is proposed; the symbols are inferred from it, from the producers' hints and from
the language of the pages; a field without evidence keeps the value of the base. The arithmetic
is exact.
-/
namespace Aizzak.ProfileDetection

open PyText Normalization IdentifierParsers DrawingProfiles

inductive PageLanguage where
  | en
  | zh
  | mixed
  | none
  deriving DecidableEq

structure PdfSummary where
  creator : Option Text
  producer : Option Text

/-- The rules file takes only positive weights. -/
structure ProducerSignature where
  pattern : Text
  family : Text
  symbolHint : Option SymbolStandard
  weight : ℚ
  weight_pos : 0 < weight

structure Evidence where
  summary : PdfSummary
  pages : List PageLanguage
  tally : ConventionTally
  producers : List ProducerSignature

section Thresholds

def minIdentifiers : ℕ := 20

def fullConfidenceIdentifiers : ℕ := 100

def symbolConfidenceFactor : ℚ := 4 / 5

def languagePageShare : ℚ := 1 / 20

def mixedShare : ℚ := 1 / 4

def mixedMinIdentifiers : ℕ := 20

def zhPagesShare : ℚ := 1 / 2

def zhSymbolWeight : ℚ := 1 / 2

end Thresholds

def symbolOf : Convention → SymbolStandard
  | .iec81346 => .iec60617
  | .gbt5094 => .gbt4728
  | .cnLetterCodes => .gbt4728
  | .nfpaJic => .nfpaJic

def matchingProducers (u : Unicode) (summary : PdfSummary) (producers : List ProducerSignature) :
    List ProducerSignature :=
  let haystack := u.lower
    (summary.creator.getD [] ++ ofString "\n" ++ summary.producer.getD [])
  (producers.filter fun p => p.pattern ≠ [] ∧ u.lower p.pattern <:+: haystack).insertionSort
    fun p q => q.weight < p.weight ∨ p.weight = q.weight ∧
      (u.lower p.pattern < u.lower q.pattern ∨
        u.lower p.pattern = u.lower q.pattern ∧ p.family ≤ q.family)

def rankedConventions (tally : ConventionTally) : List Convention :=
  ([.iec81346, .gbt5094, .cnLetterCodes, .nfpaJic].filter fun c => 0 < tally.conventions c)
    |>.insertionSort fun c d => tally.conventions d ≤ tally.conventions c

def isMixed (tally : ConventionTally) : Bool :=
  match (rankedConventions tally).tail.head? with
  | none => false
  | some second =>
    0 < tally.identifiers && mixedMinIdentifiers ≤ tally.conventions second &&
      mixedShare * tally.identifiers ≤ tally.conventions second

def sampleFactor (identifiers : ℕ) : ℚ :=
  if identifiers < minIdentifiers then 0 else min 1 (identifiers / fullConfidenceIdentifiers)

/-- The lead of the first count over the second, as a share of all. -/
def margin (counts : List ℕ) : ℚ :=
  let first : ℕ := counts.head?.getD 0
  let second : ℕ := counts.tail.head?.getD 0
  if counts.sum = 0 then 0 else ((first : ℚ) - second) / counts.sum

def languageShares (pages : List PageLanguage) : ℚ × ℚ :=
  if pages = [] then (0, 0)
  else
    ((pages.countP fun p => p = .en ∨ p = .mixed) / pages.length,
      (pages.countP fun p => p = .zh ∨ p = .mixed) / pages.length)

def conventionOf (base : DrawingProfile) (tally : ConventionTally) : Convention × ℚ :=
  match rankedConventions tally with
  | [] => (base.identifierConvention, 0)
  | top :: rest =>
    (top, margin ((top :: rest).map tally.conventions) * sampleFactor tally.identifiers)

section Symbols

def votes (convention : Convention) (hits : List ProducerSignature) (zhShare : ℚ) :
    List (SymbolStandard × ℚ) :=
  (symbolOf convention, 1) :: (hits.filterMap fun hit => hit.symbolHint.map (·, hit.weight)) ++
    if zhPagesShare < zhShare then [(.gbt4728, zhSymbolWeight)] else []

def score (votes : List (SymbolStandard × ℚ)) (standard : SymbolStandard) : ℚ :=
  ((votes.filter (·.1 = standard)).map Prod.snd).sum

def rankedStandards (votes : List (SymbolStandard × ℚ)) : List SymbolStandard :=
  ([.iec60617, .gbt4728, .nfpaJic, .vendor].filter (· ∈ votes.map Prod.fst)).insertionSort
    fun s t => score votes t ≤ score votes s

def symbol (convention : Convention) (conventionConfidence : ℚ) (hits : List ProducerSignature)
    (zhShare : ℚ) : SymbolStandard × ℚ :=
  let votes := votes convention hits zhShare
  let chosen := (rankedStandards votes).head?.getD (symbolOf convention)
  (chosen, conventionConfidence * symbolConfidenceFactor *
    (score votes chosen / (votes.map Prod.snd).sum))

end Symbols

section CrossReferences

def rankedFormats (tally : ConventionTally) : List (Text × ℕ) :=
  (tally.crossReferenceFormats.filter (0 < ·.2)).insertionSort fun a b =>
    b.2 < a.2 ∨ a.2 = b.2 ∧ a.1 ≤ b.1

def crossReference (base : DrawingProfile) (tally : ConventionTally) :
    CrossReferenceFormat × ℚ :=
  match rankedFormats tally with
  | [] => (base.crossReferenceFormat, 1)
  | top :: rest =>
    (((formatNames.find? fun format => ofString format.1 = top.1).map Prod.snd).getD
        base.crossReferenceFormat,
      margin ((top :: rest).map Prod.snd))

end CrossReferences

def seenFamilies (tally : ConventionTally) : Finset PlcFamily :=
  Finset.univ.filter fun f => 0 < tally.plcFamilies f

def seenLanguages (pages : List PageLanguage) : Finset Language :=
  let (en, zh) := languageShares pages
  (if languagePageShare < en then {.en} else ∅) ∪ if languagePageShare < zh then {.zh} else ∅

structure FieldConfidence where
  identifierConvention : ℚ
  symbolStandard : ℚ
  crossReferenceFormat : ℚ
  plcFamilies : ℚ
  languages : ℚ

def FieldConfidence.least (fields : FieldConfidence) : ℚ :=
  min fields.identifierConvention (min fields.symbolStandard
    (min fields.crossReferenceFormat (min fields.plcFamilies fields.languages)))

structure ProfileProposal where
  profile : DrawingProfile
  confidence : ℚ
  fieldConfidence : FieldConfidence
  mixedStandards : Bool

def detectProfile (u : Unicode) (base : DrawingProfile) (evidence : Evidence) :
    ProfileProposal :=
  let tally := evidence.tally
  let (convention, conventionConfidence) := conventionOf base tally
  let hits := matchingProducers u evidence.summary evidence.producers
  let (symbolStandard, symbolConfidence) :=
    symbol convention conventionConfidence hits (languageShares evidence.pages).2
  let (xref, xrefConfidence) := crossReference base tally
  let families := if seenFamilies tally = ∅ then base.plcFamilies else seenFamilies tally
  let languages :=
    if seenLanguages evidence.pages = ∅ then base.languages else seenLanguages evidence.pages
  let fields : FieldConfidence := ⟨conventionConfidence, symbolConfidence, xrefConfidence, 1, 1⟩
  { profile := base.withDetected symbolStandard convention xref families languages
    confidence := fields.least
    fieldConfidence := fields
    mixedStandards := isMixed tally }

end Aizzak.ProfileDetection
