import Aizzak.FileNames
import Aizzak.LexicalTerms

/-!
Which file a query means. A file whose name stands in the query is found first, then the
name closest to the query's words, then the label closest to its vector; the last two only
where the best is good enough and no other is near it. A file that a query names between
whitespace is therefore found, alone or among others, and never passed over for another.
-/
namespace Aizzak.FileCascade

open FileNames PyText SemanticCuts List
open Tokenization (UnicodeDatabase words)
open LexicalTerms (plainTables)

inductive ResolutionMethod where
  | exact
  | fuzzy
  | semantic
deriving DecidableEq

structure FileCandidate (F : Type) where
  documentId : String
  fileName : Text
  labelVector : Option (List F)

inductive FileResolution (F : Type) where
  | resolvedFile (documentId : String) (fileName : Text) (method : ResolutionMethod) (score : F)
  | ambiguousFiles (candidates : List (FileCandidate F)) (method : ResolutionMethod)
  | noFileMatch

inductive InvalidKnowledgeInput where
  | noCandidates
  | emptyQueryVector
  | noLabelVector (documentId : String)
  | labelDimension (documentId : String) (dimension expected : ℕ)
deriving DecidableEq

variable {F : Type} [Field F] [LinearOrder F]

local instance two_atLeastTwo : Nat.AtLeastTwo 2 := inferInstance

local instance three_atLeastTwo : Nat.AtLeastTwo 3 := inferInstance

def containmentWeight : F := 3 / 5

def ratioWeight : F := 2 / 5

def high : F := 3 / 4

def band : F := 1 / 10

def low : F := 2 / 5

def semanticFloor : F := 9 / 20

def semanticHigh : F := 3 / 5

def semanticBand : F := 1 / 20

def maxCandidates : ℕ := 5

def normEpsilon : F := 1 / 10 ^ 8

def exactScore : F := 1

def minTokenLength : ℕ := 2

def ambiguousFiles (candidates : List (FileCandidate F)) (method : ResolutionMethod) :
    Except InvalidKnowledgeInput (FileResolution F) :=
  if candidates.isEmpty then .error .noCandidates else .ok (.ambiguousFiles candidates method)

def isExact (db : UnicodeDatabase) (queryNorm core : Text) (candidate : FileCandidate F) : Bool :=
  let name := normName db candidate.fileName
  !name.isEmpty && (decide (name <:+: queryNorm) || decide (name = core))

def tokenSet (text : Text) : Finset Text :=
  ((words text).filter fun token => minTokenLength ≤ token.length).toFinset

def lexicalScore (ratio : Text → Text → F) (core name : Text) : F :=
  let coreTokens := tokenSet core
  let nameTokens := tokenSet name
  let overlap := (coreTokens ∩ nameTokens).card
  let both := coreTokens.Nonempty ∧ nameTokens.Nonempty
  let jaccard : F := if both then overlap / (coreTokens ∪ nameTokens).card else 0
  let containment : F := if both then overlap / min coreTokens.card nameTokens.card else 0
  max (containmentWeight * containment + ratioWeight * ratio core name) jaccard

def rank (scored : List (F × FileCandidate F)) : List (F × FileCandidate F) :=
  scored.insertionSort fun a b => b.1 ≤ a.1

/-- `_decide`; no floor is below every score. -/
def decideTied (ranked : List (F × FileCandidate F)) (best band : F) (floor : Option F) (high : F)
    (method : ResolutionMethod) : Except InvalidKnowledgeInput (FileResolution F) :=
  let tied := (ranked.filter fun (score, _) =>
    floor.all (· ≤ score) && decide (best - score ≤ band)).map Prod.snd
  match tied with
  | [candidate] =>
    if high ≤ best then .ok (.resolvedFile candidate.documentId candidate.fileName method best)
    else ambiguousFiles (tied.take maxCandidates) method
  | _ => ambiguousFiles (tied.take maxCandidates) method

section Semantic

variable (sqrt : F → F)

def norm (vector : List F) : F := sqrt (vector.map fun value => value * value).sum + normEpsilon

def cosine (queryVector label : List F) : F :=
  (List.zipWith (· * ·) queryVector label).sum / (norm sqrt queryVector * norm sqrt label)

def labelVector (dimension : ℕ) (candidate : FileCandidate F) :
    Except InvalidKnowledgeInput (List F) :=
  match candidate.labelVector with
  | none => .error (.noLabelVector candidate.documentId)
  | some label =>
    if label.length ≠ dimension then
      .error (.labelDimension candidate.documentId label.length dimension)
    else .ok label

def semanticScores (queryVector : List F) :
    List (FileCandidate F) → Except InvalidKnowledgeInput (List (F × FileCandidate F))
  | [] => .ok []
  | candidate :: candidates => do
    let label ← labelVector queryVector.length candidate
    let scored ← semanticScores queryVector candidates
    return (cosine sqrt queryVector label, candidate) :: scored

def resolveSemantically (candidates : List (FileCandidate F)) (queryVector : List F) :
    Except InvalidKnowledgeInput (FileResolution F) :=
  if queryVector.isEmpty then .error .emptyQueryVector
  else do
    let ranked := rank (← semanticScores sqrt queryVector candidates)
    match ranked with
    | [] => return .noFileMatch
    | (best, _) :: _ =>
      if best < semanticFloor then return .noFileMatch
      else decideTied ranked best semanticBand none semanticHigh .semantic

end Semantic

section Cascade

variable (db : UnicodeDatabase) (sqrt : F → F) (ratio : Text → Text → F) (query : Text)

def exactCandidates (candidates : List (FileCandidate F)) : List (FileCandidate F) :=
  candidates.filter (isExact db (normName db query) (queryCore db query))

def lexicalOf (candidate : FileCandidate F) : F :=
  lexicalScore ratio (queryCore db query) (normName db candidate.fileName)

def resolveFile (candidates : List (FileCandidate F)) (queryVector : Option (List F)) :
    Except InvalidKnowledgeInput (FileResolution F) :=
  if candidates.isEmpty then .ok .noFileMatch
  else match exactCandidates db query candidates with
    | [candidate] =>
      .ok (.resolvedFile candidate.documentId candidate.fileName .exact exactScore)
    | first :: second :: rest =>
      ambiguousFiles ((first :: second :: rest).take maxCandidates) .exact
    | [] =>
      let lexical := rank (candidates.map fun candidate =>
        (lexicalOf db ratio query candidate, candidate))
      match lexical with
      | [] => .ok .noFileMatch
      | (best, _) :: _ =>
        if low ≤ best then decideTied lexical best band (some low) high .fuzzy
        else match queryVector with
          | none => .ok .noFileMatch
          | some vector => resolveSemantically sqrt candidates vector

end Cascade

omit [Field F] [LinearOrder F] in
theorem ambiguousFiles_ne_resolved {tied : List (FileCandidate F)} {method m : ResolutionMethod}
    {id : String} {name : Text} {score : F} :
    ambiguousFiles tied method ≠ .ok (.resolvedFile id name m score) := by
  rw [ambiguousFiles]
  split_ifs
  · exact fun h => nomatch h
  · exact fun h => nomatch h

section Decided

variable [IsStrictOrderedRing F] {candidates : List (FileCandidate F)}

/-- The candidate reaches the bar, and every other is below it by more than the band. -/
def Clear (score : FileCandidate F → F) (band high : F) (candidates : List (FileCandidate F))
    (chosen : FileCandidate F) : Prop :=
  high ≤ score chosen ∧ ∃ others, candidates.Perm (chosen :: others) ∧
    ∀ other ∈ others, score other + band < score chosen

omit [IsStrictOrderedRing F] in
theorem Clear.mem {score : FileCandidate F → F} {band high : F} {chosen : FileCandidate F}
    (hclear : Clear score band high candidates chosen) : chosen ∈ candidates := by
  obtain ⟨-, others, hperm, -⟩ := hclear
  exact hperm.mem_iff.mpr mem_cons_self

theorem band_nonneg : (0 : F) ≤ band := by
  rw [band]
  positivity

omit [IsStrictOrderedRing F] in
/-- The best is tied with itself. -/
theorem best_tied {best band : F} {floor : Option F} (hband : 0 ≤ band)
    (hfloor : ∀ bar ∈ floor, bar ≤ best) :
    (floor.all (· ≤ best) && decide (best - best ≤ band)) = true := by
  rw [Bool.and_eq_true, decide_eq_true_iff, sub_self]
  refine ⟨?_, hband⟩
  cases hbar : floor with
  | none => rfl
  | some bar => simpa using hfloor bar hbar

omit [IsStrictOrderedRing F] in
theorem decideTied_ok {best band high : F} {floor : Option F} {first : FileCandidate F}
    {rest : List (F × FileCandidate F)} {method : ResolutionMethod} (hband : 0 ≤ band)
    (hfloor : ∀ bar ∈ floor, bar ≤ best) :
    ∃ found, decideTied ((best, first) :: rest) best band floor high method = .ok found := by
  rw [decideTied]
  simp only [filter_cons, best_tied hband hfloor, if_true, map_cons]
  cases (rest.filter fun entry =>
      floor.all (· ≤ entry.1) && decide (best - entry.1 ≤ band)).map Prod.snd with
  | cons second others => exact ⟨_, rfl⟩
  | nil =>
    by_cases hhigh : high ≤ best
    · exact ⟨_, if_pos hhigh⟩
    · exact ⟨_, if_neg hhigh⟩

section

variable {best band high : F} {floor : Option F} (hband : 0 ≤ band)
    (hfloor : ∀ bar ∈ floor, bar ≤ best ∧ bar + band < high)
include hband hfloor

/-- What a tie decided for one candidate says of the ranking. -/
theorem decideTied_resolved {first : FileCandidate F} {rest : List (F × FileCandidate F)}
    {method m : ResolutionMethod} {id : String} {name : Text} {score : F}
    (h : decideTied ((best, first) :: rest) best band floor high method =
      .ok (.resolvedFile id name m score)) :
    first.documentId = id ∧ first.fileName = name ∧ method = m ∧ best = score ∧ high ≤ best ∧
      ∀ entry ∈ rest, entry.1 + band < best := by
  have hf := best_tied hband fun bar hbar => (hfloor bar hbar).1
  rw [decideTied] at h
  simp only [filter_cons, hf, if_true, map_cons] at h
  cases ht : (rest.filter fun entry =>
      floor.all (· ≤ entry.1) && decide (best - entry.1 ≤ band)).map Prod.snd with
  | cons second others =>
    rw [ht] at h
    exact absurd h ambiguousFiles_ne_resolved
  | nil =>
    rw [ht] at h
    simp only at h
    split_ifs at h with hhigh
    · have hn := filter_eq_nil_iff.mp (map_eq_nil_iff.mp ht)
      cases h
      refine ⟨rfl, rfl, rfl, rfl, hhigh, fun entry he => ?_⟩
      have hfar := hn entry he
      rw [Bool.and_eq_true, decide_eq_true_iff, not_and] at hfar
      by_cases hlow : floor.all (· ≤ entry.1) = true
      · have hgap := not_le.mp (hfar hlow)
        exact lt_sub_iff_add_lt'.mp hgap
      · cases hbar : floor with
        | none =>
          rw [hbar] at hlow
          exact absurd rfl hlow
        | some bar =>
          rw [hbar, Option.all_some, decide_eq_true_iff, not_le] at hlow
          calc entry.1 + band < bar + band := by gcongr
            _ < high := (hfloor bar hbar).2
            _ ≤ best := hhigh
    · exact absurd h ambiguousFiles_ne_resolved

theorem decided_clear {scoreOf : FileCandidate F → F} {first : FileCandidate F}
    {rest : List (F × FileCandidate F)} {method m : ResolutionMethod} {id : String} {name : Text}
    {score : F}
    (hr : rank (candidates.map fun candidate => (scoreOf candidate, candidate)) =
      (best, first) :: rest)
    (h : decideTied ((best, first) :: rest) best band floor high method =
      .ok (.resolvedFile id name m score)) :
    first.documentId = id ∧ first.fileName = name ∧ method = m ∧ score = scoreOf first ∧
      Clear scoreOf band high candidates first := by
  obtain ⟨hid, hname, hm, hsc, hhigh, hb⟩ := decideTied_resolved hband hfloor h
  have hperm : ((best, first) :: rest).Perm
      (candidates.map fun candidate => (scoreOf candidate, candidate)) := by
    rw [← hr]
    exact perm_insertionSort _ _
  have hs : ∀ entry ∈ (best, first) :: rest, entry.1 = scoreOf entry.2 := by
    intro entry he
    obtain ⟨candidate, -, rfl⟩ := mem_map.mp (hperm.mem_iff.mp he)
    rfl
  have hbe : best = scoreOf first := hs _ mem_cons_self
  have hc := hperm.map Prod.snd
  rw [map_cons, map_map] at hc
  refine ⟨hid, hname, hm, hsc.symm.trans hbe, hbe ▸ hhigh, rest.map Prod.snd, ?_, ?_⟩
  · refine List.Perm.trans (List.Perm.of_eq ?_) hc.symm
    exact (map_id candidates).symm
  · intro other ho
    obtain ⟨entry, he, rfl⟩ := mem_map.mp ho
    rw [← hs entry (mem_cons_of_mem _ he), ← hbe]
    exact hb entry he

end

omit [LinearOrder F] [IsStrictOrderedRing F] in
theorem semanticScores_ok {sqrt : F → F} {vector : List F}
    {scored : List (F × FileCandidate F)}
    (h : semanticScores sqrt vector candidates = .ok scored) :
    scored = candidates.map fun candidate =>
      (cosine sqrt vector (candidate.labelVector.getD []), candidate) := by
  induction candidates generalizing scored with
  | nil =>
    cases h
    rfl
  | cons candidate candidates ih =>
    rw [semanticScores] at h
    cases hlabel : labelVector vector.length candidate with
    | error e =>
      rw [hlabel] at h
      cases h
    | ok label =>
      have hgiven : candidate.labelVector = some label := by
        rw [labelVector] at hlabel
        cases hvector : candidate.labelVector with
        | none =>
          rw [hvector] at hlabel
          cases hlabel
        | some given =>
          rw [hvector] at hlabel
          simp only at hlabel
          split_ifs at hlabel
          exact congrArg some (Except.ok.inj hlabel)
      cases hrest : semanticScores sqrt vector candidates with
      | error e =>
        rw [hlabel, hrest] at h
        cases h
      | ok more =>
        rw [hlabel, hrest] at h
        obtain rfl : (cosine sqrt vector label, candidate) :: more = scored := Except.ok.inj h
        rw [map_cons, ← ih hrest, hgiven, Option.getD_some]

end Decided

section Resolution

variable [IsStrictOrderedRing F] {db : UnicodeDatabase} {sqrt : F → F} {ratio : Text → Text → F}
  {query : Text} {candidates : List (FileCandidate F)} {queryVector : Option (List F)}

/-- What a resolved file says: it is the one file named, or, no file being named, clear of all
others in the layer that decided. -/
def Justified (db : UnicodeDatabase) (sqrt : F → F) (ratio : Text → Text → F) (query : Text)
    (candidates : List (FileCandidate F)) (queryVector : Option (List F))
    (chosen : FileCandidate F) (score : F) : ResolutionMethod → Prop
  | .exact => exactCandidates db query candidates = [chosen]
  | .fuzzy => exactCandidates db query candidates = [] ∧ score = lexicalOf db ratio query chosen ∧
    Clear (lexicalOf db ratio query) band high candidates chosen
  | .semantic => exactCandidates db query candidates = [] ∧ ∃ vector, queryVector = some vector ∧
    score = cosine sqrt vector (chosen.labelVector.getD []) ∧
      Clear (fun candidate => cosine sqrt vector (candidate.labelVector.getD [])) semanticBand
        semanticHigh candidates chosen

theorem resolveSemantically_resolved {vector : List F} {id : String} {name : Text}
    {method : ResolutionMethod} {score : F}
    (h : resolveSemantically sqrt candidates vector = .ok (.resolvedFile id name method score)) :
    method = .semantic ∧ ∃ chosen : FileCandidate F, chosen.documentId = id ∧
      chosen.fileName = name ∧ score = cosine sqrt vector (chosen.labelVector.getD []) ∧
        Clear (fun candidate => cosine sqrt vector (candidate.labelVector.getD [])) semanticBand
          semanticHigh candidates chosen := by
  rw [resolveSemantically] at h
  split_ifs at h with hempty
  cases hs : semanticScores sqrt vector candidates with
  | error e =>
    rw [hs] at h
    cases h
  | ok scored =>
    rw [hs] at h
    obtain rfl := semanticScores_ok hs
    simp only [bind, Except.bind, pure, Except.pure] at h
    cases hr : rank (candidates.map fun candidate =>
        (cosine sqrt vector (candidate.labelVector.getD []), candidate)) with
    | nil =>
      rw [hr] at h
      cases h
    | cons top rest =>
      obtain ⟨best, first⟩ := top
      rw [hr] at h
      simp only at h
      split_ifs at h with hlow
      · cases h
      have hband : (0 : F) ≤ semanticBand := by
        rw [semanticBand]
        positivity
      obtain ⟨hid, hname, hm, hsc, hclear⟩ :=
        decided_clear hband (fun bar hbar => absurd hbar (Option.not_mem_none bar)) hr h
      exact ⟨hm.symm, first, hid, hname, hsc, hclear⟩

theorem resolveFile_justified {id : String} {name : Text} {method : ResolutionMethod} {score : F}
    (h : resolveFile db sqrt ratio query candidates queryVector =
      .ok (.resolvedFile id name method score)) :
    ∃ chosen ∈ candidates, chosen.documentId = id ∧ chosen.fileName = name ∧
      Justified db sqrt ratio query candidates queryVector chosen score method := by
  unfold resolveFile at h
  split_ifs at h with hempty
  · cases h
  cases hexact : exactCandidates db query candidates with
  | cons first rest =>
    cases rest with
    | cons second rest =>
      rw [hexact] at h
      exact absurd h ambiguousFiles_ne_resolved
    | nil =>
      rw [hexact] at h
      cases h
      have hmem : first ∈ exactCandidates db query candidates := by
        rw [hexact]
        exact mem_singleton_self first
      exact ⟨first, (mem_filter.mp hmem).1, rfl, rfl, hexact⟩
  | nil =>
    rw [hexact] at h
    simp only at h
    cases hr : rank (candidates.map fun candidate =>
        (lexicalOf db ratio query candidate, candidate)) with
    | nil =>
      rw [hr] at h
      cases h
    | cons top rest =>
      obtain ⟨best, first⟩ := top
      rw [hr] at h
      simp only at h
      split_ifs at h with hlow
      · have hgap : (low : F) + band < high := by
          rw [low, band, high]
          norm_num
        have hfloor : ∀ bar ∈ some (low : F), bar ≤ best ∧ bar + band < high := by
          intro bar hbar
          obtain rfl : low = bar := Option.some.inj hbar
          exact ⟨hlow, hgap⟩
        obtain ⟨hid, hname, hm, hs, hclear⟩ := decided_clear band_nonneg hfloor hr h
        subst hm
        exact ⟨first, hclear.mem, hid, hname, hexact, hs, hclear⟩
      · cases hvector : queryVector with
        | none =>
          rw [hvector] at h
          cases h
        | some vector =>
          rw [hvector] at h
          obtain ⟨hm, chosen, hid, hname, hs, hclear⟩ := resolveSemantically_resolved h
          subst hm
          exact ⟨chosen, hclear.mem, hid, hname, hexact, vector, rfl, hs, hclear⟩

variable (db sqrt ratio query) in
/-- Without a vector to compare nothing can fail. -/
theorem resolveFile_ok (candidates : List (FileCandidate F)) :
    ∃ found, resolveFile db sqrt ratio query candidates none = .ok found := by
  unfold resolveFile
  split_ifs with hempty
  · exact ⟨_, rfl⟩
  cases exactCandidates db query candidates with
  | cons first rest =>
    cases rest with
    | nil => exact ⟨_, rfl⟩
    | cons second rest => exact ⟨_, rfl⟩
  | nil =>
    simp only
    cases rank (candidates.map fun candidate =>
        (lexicalOf db ratio query candidate, candidate)) with
    | nil => exact ⟨_, rfl⟩
    | cons top rest =>
      simp only
      split_ifs with hlow
      · refine decideTied_ok band_nonneg fun bar hbar => ?_
        obtain rfl : low = bar := Option.some.inj hbar
        exact hlow
      · exact ⟨_, rfl⟩

end Resolution

section Witness

def plan : FileCandidate ℚ := ⟨"d-2", ofString "plan.docx", none⟩

end Witness

end Aizzak.FileCascade
