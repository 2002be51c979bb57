import Aizzak.EventRuns
import Aizzak.IndexedParents

/-!
What a question is answered from: each candidate gives its own text or that of its complete
parent, once for each parent and once for each text. A parent longer than the cap is cut to its
beginning, wherever in it the candidate stands.
-/
namespace Aizzak.ParentWidening

open EventRuns IndexedParents PyText SemanticCuts TableRows List
open Tokenization (words)

structure ScoredChunk (C S : Type) where
  chunkId : C
  documentId : C
  text : Text
  score : S
  seq : ℤ

structure ParentChunkText (P : Type) where
  id : P
  text : Text
  isComplete : Bool

/-- `unicodedata.normalize("NFC", _)`, `str.casefold` and the digest of the bytes of a text. -/
structure Fingerprints (D : Type) where
  nfc : Text → Text
  casefold : Text → Text
  sha256 : Text → D

def parentTruncationMarker : Text := ofString " […]"

/-- `items[:stop]`; a negative stop counts from the end. -/
def sliceTo {α : Type} (items : List α) (stop : ℤ) : List α :=
  items.take (if stop < 0 then items.length + stop else stop).toNat

def capParentText (text : Text) (maxChars : ℤ) : Text :=
  if text.length ≤ maxChars then text
  else if maxChars ≤ parentTruncationMarker.length then sliceTo text maxChars
  else sliceTo text (maxChars - parentTruncationMarker.length) ++ parentTruncationMarker

structure Progress (C P S D : Type) where
  widened : List (ScoredChunk C S)
  seenParentIds : List P
  seenText : List D
  duplicateText : ℕ

structure Widening (C S : Type) where
  chunks : List (ScoredChunk C S)
  duplicateText : ℕ

section Widen

variable {C P S D : Type} [DecidableEq P] [DecidableEq D]

def Progress.init : Progress C P S D := ⟨[], [], [], 0⟩

def textFingerprint (fp : Fingerprints D) (text : Text) : Option D :=
  (encode (fp.casefold (foldWhitespace (fp.nfc text)))).toOption.map fp.sha256

def Progress.deliver (fp : Fingerprints D) (p : Progress C P S D) (entry : ScoredChunk C S) :
    Option (Progress C P S D) :=
  (textFingerprint fp entry.text).map fun fingerprint =>
    if fingerprint ∈ p.seenText then { p with duplicateText := p.duplicateText + 1 }
    else { p with
      widened := p.widened ++ [entry]
      seenText := fingerprint :: p.seenText }

variable (fp : Fingerprints D) (parents : C → Option (ParentChunkText P)) (maxChars : ℤ)

def widenCandidate (p : Progress C P S D) (candidate : ScoredChunk C S) :
    Option (Progress C P S D) :=
  match parents candidate.chunkId with
  | none => p.deliver fp candidate
  | some parent =>
    if parent.isComplete then
      if parent.id ∈ p.seenParentIds then some p
      else { p with seenParentIds := parent.id :: p.seenParentIds }.deliver fp
        { candidate with text := capParentText parent.text maxChars }
    else p.deliver fp candidate

def widenToParents (candidates : List (ScoredChunk C S)) : Option (Widening C S) :=
  (run (widenCandidate fp parents maxChars) Progress.init candidates).map fun p =>
    ⟨p.widened, p.duplicateText⟩

def passages : Progress C P S D → List (ScoredChunk C S) →
    List (ScoredChunk C S × ScoredChunk C S)
  | _, [] => []
  | p, candidate :: candidates =>
    match widenCandidate fp parents maxChars p candidate with
    | none => []
    | some q => (q.widened.drop p.widened.length).map (candidate, ·) ++ passages q candidates

def Progress.repeats (p : Progress C P S D) (text : Text) : Bool :=
  (textFingerprint fp text).any (· ∈ p.seenText)

def keptWords (text : Text) : List Text :=
  if maxChars ≤ parentTruncationMarker.length then words (sliceTo text maxChars)
  else words (sliceTo text (maxChars - parentTruncationMarker.length)) ++ [ofString "[…]"]

/-- A candidate whose complete parent is delivered stands before the cut of the parent, if the
parent is cut. -/
def capSpares (p : Progress C P S D) (candidate : ScoredChunk C S) : Bool :=
  match parents candidate.chunkId with
  | none => true
  | some parent =>
    !parent.isComplete || parent.id ∈ p.seenParentIds ||
      p.repeats fp (capParentText parent.text maxChars) || parent.text.length ≤ maxChars ||
      decide (words candidate.text <:+: keptWords maxChars parent.text)

def CapSpares (p : Progress C P S D) (candidate : ScoredChunk C S) : Prop :=
  capSpares fp parents maxChars p candidate = true

instance (p : Progress C P S D) (candidate : ScoredChunk C S) :
    Decidable (CapSpares fp parents maxChars p candidate) :=
  inferInstanceAs (Decidable (_ = true))

def Hold (candidates : List (ScoredChunk C S)) : Prop :=
  ∀ candidate ∈ candidates, ∀ parent, parents candidate.chunkId = some parent →
    parent.isComplete = true → words candidate.text <:+: words parent.text

end Widen

theorem words_append_marker (text : Text) :
    words (text ++ parentTruncationMarker) = words text ++ [ofString "[…]"] := by
  have hm : parentTruncationMarker = 0x20 :: ofString "[…]" := by decide
  have hw : words (ofString "[…]") = [ofString "[…]"] := by decide
  rw [hm, words, SeparatedRuns.runs_append_cons (by decide), ← words, ← words, hw]

theorem words_capParentText (text : Text) (maxChars : ℤ) :
    words (capParentText text maxChars) =
      if text.length ≤ maxChars then words text else keptWords maxChars text := by
  rw [capParentText, keptWords]
  split_ifs
  · rfl
  · rfl
  · exact words_append_marker _

section Evidence

variable {C P S D : Type} [DecidableEq P] [DecidableEq D] {fp : Fingerprints D}
  {parents : C → Option (ParentChunkText P)} {maxChars : ℤ} {p q : Progress C P S D}
  {candidate entry : ScoredChunk C S}

omit [DecidableEq P] in
theorem widened_deliver (h : p.deliver fp entry = some q) :
    q.widened = p.widened ++ if p.repeats fp entry.text then [] else [entry] := by
  rw [Progress.deliver] at h
  rw [Progress.repeats]
  cases hfingerprint : textFingerprint fp entry.text with
  | none =>
    rw [hfingerprint] at h
    cases h
  | some fingerprint =>
    rw [hfingerprint, Option.map_some, Option.some.injEq] at h
    subst h
    by_cases hseen : fingerprint ∈ p.seenText <;> simp [hseen]

/-- The passages already delivered stay in front. -/
theorem prefix_widened (h : widenCandidate fp parents maxChars p candidate = some q) :
    p.widened <+: q.widened := by
  rw [widenCandidate] at h
  split at h
  · rw [widened_deliver h]
    exact prefix_append _ _
  · split_ifs at h
    · cases h
      exact prefix_rfl
    · rw [widened_deliver h]
      exact prefix_append _ _
    · rw [widened_deliver h]
      exact prefix_append _ _

theorem holds_iff_capSpares (hh : Hold parents [candidate])
    (h : widenCandidate fp parents maxChars p candidate = some q) :
    (∀ entry ∈ q.widened.drop p.widened.length, words candidate.text <:+: words entry.text) ↔
      CapSpares fp parents maxChars p candidate := by
  have hown : ∀ {q : Progress C P S D}, p.deliver fp candidate = some q →
      ∀ entry ∈ q.widened.drop p.widened.length,
        words candidate.text <:+: words entry.text := by
    intro q hq entry he
    rw [widened_deliver hq, drop_left] at he
    split_ifs at he
    · cases he
    · obtain rfl := mem_singleton.mp he
      exact infix_rfl
  rw [widenCandidate] at h
  rw [CapSpares, capSpares]
  cases hp : parents candidate.chunkId with
  | none =>
    simp only [hp, iff_true] at h ⊢
    exact hown h
  | some parent =>
    simp only [hp] at h ⊢
    split_ifs at h with hc hseen
    · cases h
      simp [hseen]
    · have hw := hh candidate mem_cons_self parent hp hc
      have ha := widened_deliver h
      simp only at ha
      rw [ha, drop_left]
      have hre : ({ p with seenParentIds := parent.id :: p.seenParentIds } :
          Progress C P S D).repeats fp (capParentText parent.text maxChars) =
            p.repeats fp (capParentText parent.text maxChars) := rfl
      rw [hre]
      by_cases hr : p.repeats fp (capParentText parent.text maxChars) = true
      · simp [hr]
      · by_cases hs : parent.text.length ≤ maxChars
        · simp [hr, hs, words_capParentText, hw]
        · simp [hr, hs, words_capParentText, hc, hseen]
    · simp only [hc, Bool.not_false, Bool.true_or, iff_true]
      exact hown h

theorem widened_eq_append_passages {candidates : List (ScoredChunk C S)}
    (hrun : run (widenCandidate fp parents maxChars) p candidates = some q) :
    q.widened = p.widened ++ (passages fp parents maxChars p candidates).map Prod.snd := by
  induction candidates generalizing p with
  | nil =>
    cases hrun
    simp [passages]
  | cons candidate candidates ih =>
    obtain ⟨next, hn, hr⟩ := run_cons_eq_some hrun
    have hp := prefix_widened hn
    rw [ih hr, passages, hn, map_append, map_map, ← append_assoc]
    congr 1
    rw [Function.comp_def, map_id']
    exact (prefix_iff_eq_append.mp hp).symm

theorem passages_hold_iff {candidates : List (ScoredChunk C S)} (hh : Hold parents candidates)
    (hrun : run (widenCandidate fp parents maxChars) p candidates = some q) :
    (∀ passage ∈ passages fp parents maxChars p candidates,
      words passage.1.text <:+: words passage.2.text) ↔
      Guarded (widenCandidate fp parents maxChars) (CapSpares fp parents maxChars) p
        candidates := by
  induction candidates generalizing p with
  | nil => simp [passages, Guarded]
  | cons candidate candidates ih =>
    obtain ⟨next, hn, hr⟩ := run_cons_eq_some hrun
    rw [Hold, forall_mem_cons] at hh
    have hl := ih hh.2 hr
    have hone : Hold parents [candidate] := by
      rw [Hold, forall_mem_singleton]
      exact hh.1
    have hnow := holds_iff_capSpares hone hn
    simp only [passages, hn, Guarded, forall_mem_append, forall_mem_map]
    rw [hl, hnow]

/-- Every passage that is delivered for a candidate holds its text exactly when the cap spares
each candidate whose complete parent stands in for it. -/
theorem widening_keeps_evidence_iff {candidates : List (ScoredChunk C S)}
    {widening : Widening C S} (hholds : Hold parents candidates)
    (hwidening : widenToParents (P := P) fp parents maxChars candidates = some widening) :
    (widening.chunks =
        (passages fp parents maxChars Progress.init candidates).map Prod.snd ∧
      ∀ passage ∈ passages fp parents maxChars Progress.init candidates,
        words passage.1.text <:+: words passage.2.text) ↔
      Guarded (widenCandidate fp parents maxChars) (CapSpares fp parents maxChars)
        Progress.init candidates := by
  obtain ⟨q, hrun, rfl⟩ := Option.map_eq_some_iff.mp hwidening
  have hc := widened_eq_append_passages hrun
  rw [← passages_hold_iff hholds hrun]
  exact and_iff_right hc

end Evidence

def parentTexts (outcome : IndexOutcome) (seq : ℕ) : Option (ParentChunkText String) := do
  let chunk ← outcome.chunks.find? (·.seq = seq)
  let key ← chunk.parentKey
  let draft ← outcome.parents.find? (·.key = key)
  return ⟨draft.key, draft.text, draft.isComplete⟩

theorem hold_parentTexts {K D S : Type} [Field K] [LinearOrder K] [DecidableEq D]
    {ix : Indexer K D} {doc : ParsedDocument} {outcome : IndexOutcome}
    (hwi : 12 ≤ ix.overlapWords) (hl : ix.overlapWords < ix.maxWords)
    (h : ix.execute doc = some outcome) {candidates : List (ScoredChunk ℕ S)}
    (hca : ∀ candidate ∈ candidates, ∃ chunk ∈ outcome.chunks,
      chunk.seq = candidate.chunkId ∧ chunk.text = candidate.text) :
    Hold (parentTexts outcome) candidates := by
  obtain ⟨windows, hk, hch, hs, hpa⟩ := Indexer.execute_spec h
  obtain ⟨hn, -⟩ := Indexer.nodes_and_chunks hch
  have hse : (outcome.chunks.map (·.seq)).Nodup := by
    have hpl : outcome.chunks.map (·.seq) = windows.zipIdx.map Prod.snd := by
      rw [hch, map_map]
      rfl
    rw [hpl, zipIdx_map_snd]
    exact nodup_range'
  intro candidate hcn parent hp hc
  obtain ⟨chunk, hck, hseq, htext⟩ := hca candidate hcn
  simp only [parentTexts, Option.bind_eq_bind, Option.bind_eq_some_iff, Option.pure_def,
    Option.some.injEq] at hp
  obtain ⟨found, hf, key, hkey, draft, hd, rfl⟩ := hp
  have hsa : found = chunk := by
    apply inj_on_of_nodup_map hse (mem_of_find?_eq_some hf) hck
    rw [hseq]
    simpa using List.find?_some hf
  subst hsa
  obtain ⟨node, hin, hw, hnodeKey⟩ := hn found hck
  have hdraftKey : draft.key = key := by
    simpa using List.find?_some hd
  have hmem := ((hpa draft).mp (mem_of_find?_eq_some hd)).1
  have hpo : parentKeyOf node.1.metadata = some draft.key := by
    rw [← hnodeKey, hkey, hdraftKey]
  rw [← htext, hw, Indexer.words_chunkOf hk hin]
  rcases Indexer.infix_or_merged_of_kept hk hin hmem hc hpo with hpn | hm
  · exact hpn
  · exact Indexer.repeatsHeld_of_wide_overlap hwi hl windows hk node hin hm draft
      hmem hc hpo

private def maxParentChunkChars : ℤ := 4000

private def ascii : Fingerprints Text := ⟨id, List.map Tokenization.asciiLower, id⟩

private def candidateOf (chunk : IndexedChunk) : ScoredChunk ℕ ℕ :=
  ⟨chunk.seq, 0, chunk.text, 1, chunk.seq⟩

private theorem candidateOf_indexed (outcome : IndexOutcome) :
    ∀ candidate ∈ outcome.chunks.map candidateOf, ∃ chunk ∈ outcome.chunks,
      chunk.seq = candidate.chunkId ∧ chunk.text = candidate.text := by
  intro candidate hcandidate
  obtain ⟨chunk, hchunk, rfl⟩ := List.mem_map.mp hcandidate
  exact ⟨chunk, hchunk, rfl, rfl⟩

private def pageDelivered (outcome : IndexOutcome) : Bool :=
  let candidates := outcome.chunks.map candidateOf
  let parents := parentTexts outcome
  (widenToParents ascii parents maxParentChunkChars candidates).any (·.chunks.length = 1) &&
    decide (Guarded (widenCandidate ascii parents maxParentChunkChars)
      (CapSpares ascii parents maxParentChunkChars) Progress.init candidates)

theorem page_holds_notes :
    ∃ outcome widening, (defaultIndexer (asciiPy none)).execute pagedNotes = some outcome ∧
      widenToParents ascii (parentTexts outcome) maxParentChunkChars
        (outcome.chunks.map candidateOf) = some widening ∧ widening.chunks.length = 1 ∧
      ∀ passage ∈ passages ascii (parentTexts outcome) maxParentChunkChars Progress.init
        (outcome.chunks.map candidateOf), words passage.1.text <:+: words passage.2.text := by
  have hany : ((defaultIndexer (asciiPy none)).execute pagedNotes).any pageDelivered = true := by
    decide +kernel
  obtain ⟨outcome, hexecute, ht⟩ := (Option.any_eq_true _ _).mp hany
  rw [pageDelivered, Bool.and_eq_true, decide_eq_true_eq] at ht
  obtain ⟨widening, hw, hone⟩ := (Option.any_eq_true _ _).mp ht.1
  have hh : Hold (parentTexts outcome) (outcome.chunks.map candidateOf) :=
    hold_parentTexts (by decide) (by decide) hexecute (candidateOf_indexed outcome)
  exact ⟨outcome, widening, hexecute, hw, of_decide_eq_true hone,
    ((widening_keeps_evidence_iff hh hw).mpr ht.2).2⟩

private def drawing : Text := List.replicate 4000 0x41

private def valve : Text := ofString "Part: Relief valve"

private def drawingsText : Text :=
  ofString "\x7b\"headers\": [\"Part\", \"Drawing\"], \"rows\": [\x7b\"Part\": \"Pump\", " ++
    ofString "\"Drawing\": \"" ++ drawing ++
    ofString "\"\x7d, \x7b\"Part\": \"Relief valve\"\x7d]\x7d"

private def drawings : Json :=
  .dict [(ofString "headers", .list [.str (ofString "Part"), .str (ofString "Drawing")]),
    (ofString "rows", .list [
      .dict [(ofString "Part", .str (ofString "Pump")), (ofString "Drawing", .str drawing)],
      .dict [(ofString "Part", .str (ofString "Relief valve"))]])]

private def drawingsDocument : ParsedDocument where
  chunks := [⟨drawingsText, .table, 0, ∅⟩]
  unstamped := by
    intro chunk hchunk
    rw [List.mem_singleton.mp hchunk]
    exact AList.notMem_empty _

private def valveOf (outcome : IndexOutcome) : List (ScoredChunk ℕ ℕ) :=
  (outcome.chunks.map candidateOf).filter (·.text = valve)

private def valveCutAway (outcome : IndexOutcome) : Bool :=
  let candidates := valveOf outcome
  let parents := parentTexts outcome
  (widenToParents ascii parents maxParentChunkChars candidates).any (·.chunks.length = 1) &&
    (passages ascii parents maxParentChunkChars Progress.init candidates).any fun passage =>
      passage.1.text = valve && !decide (words passage.1.text <:+: words passage.2.text)

/-- The question finds the second row and is answered from the first. -/
theorem matched_row_is_cut_away :
    ∃ outcome widening,
      (defaultIndexer (asciiPy (some drawings))).execute drawingsDocument = some outcome ∧
      Hold (parentTexts outcome) (valveOf outcome) ∧
      widenToParents ascii (parentTexts outcome) maxParentChunkChars (valveOf outcome) =
        some widening ∧
      ∃ passage ∈ passages ascii (parentTexts outcome) maxParentChunkChars Progress.init
        (valveOf outcome), passage.1.text = valve ∧
          ¬ words passage.1.text <:+: words passage.2.text := by
  have hany : ((defaultIndexer (asciiPy (some drawings))).execute drawingsDocument).any
      valveCutAway = true := by
    decide +kernel
  obtain ⟨outcome, hexecute, ht⟩ := (Option.any_eq_true _ _).mp hany
  rw [valveCutAway, Bool.and_eq_true, any_eq_true] at ht
  obtain ⟨⟨widening, hw, -⟩, passage, hp, hl⟩ :=
    ht.imp_left (Option.any_eq_true _ _).mp
  rw [Bool.and_eq_true, decide_eq_true_eq, Bool.not_eq_true', decide_eq_false_iff_not] at hl
  refine ⟨outcome, widening, hexecute, ?_, hw, passage, hp, hl⟩
  apply hold_parentTexts (by decide) (by decide) hexecute
  intro candidate hc
  exact candidateOf_indexed outcome candidate (mem_of_mem_filter hc)

end Aizzak.ParentWidening
