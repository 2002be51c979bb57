import Aizzak.KeyedTables
import Aizzak.SemanticBoundaries
import Aizzak.Tokenization

/-!
How a parsed document becomes the segments that are cut into chunks for the index. The sentences
of its prose are embedded in batches; where their vectors break a chunk apart, the chunk is
replaced by the parts. The provider may answer with any vectors, any number of them, or fail: a
failed batch is tried again chunk by chunk, and a chunk that fails alone stays whole. The marks
that end sentences are not part of them, so a chunk that is taken apart loses its marks.
-/
namespace Aizzak.SemanticCuts

open PyText SemanticBoundaries SeparatedRuns List
open Tokenization (words)

inductive ParsedChunkKind where
  | text
  | table
  | ocr
  | json
deriving DecidableEq

inductive MetaValue where
  | int (value : ℤ)
  | other (text : String)
deriving DecidableEq

def MetaValue.str : MetaValue → String
  | .int value => toString value
  | .other text => text

/-- What a parser says about a chunk: the page, the sheet, and, for segments, the parent chunk. -/
abbrev Metadata := AList fun _ : String => MetaValue

structure ParsedChunk where
  text : Text
  kind : ParsedChunkKind
  order : ℤ
  metadata : Metadata

structure SourceSegment where
  text : Text
  order : ℤ
  kind : ParsedChunkKind
  metadata : Metadata
  subOrder : ℕ

structure ParentChunkDraft where
  key : String
  order : ℤ
  text : Text
  isComplete : Bool

def embedBatch : ℕ := 128

def minSentencesToSplit : ℕ := 2

def minSemanticParts : ℕ := 2

def isMark (c : CodePoint) : Bool :=
  c.val = 0x2E || c.val = 0x61F || c.val = 0x21 || c.val = 0x61B || c.val = 0x6D4

def isNewline (c : CodePoint) : Bool := c.val = 0x0A

def matchLength (text : Text) : ℕ :=
  let marks := (text.takeWhile isMark).length
  let newlines := (text.takeWhile isNewline).length
  if marks ≠ 0 then marks else if 2 ≤ newlines then newlines else 0

/-- `_SENTENCE_SPLIT.split`, with the code points of a match still to be passed over and the piece
read so far. -/
def splitPieces : ℕ → Text → Text → List Text
  | _, piece, [] => [piece]
  | skip + 1, piece, _ :: text => splitPieces skip piece text
  | 0, piece, c :: text =>
    match matchLength (c :: text) with
    | 0 => splitPieces 0 (piece ++ [c]) text
    | length + 1 => piece :: splitPieces length [] text

def splitSentences (text : Text) : List Text :=
  ((splitPieces 0 [] text).map strip).filter (· ≠ [])

def joinSpace (sentences : List Text) : Text := List.intercalate [⟨0x20, space_lt⟩] sentences

def groupSentencesFrom (sentences : List Text) : ℕ → List ℕ → List Text
  | start, [] => [joinSpace (sentences.drop start)]
  | start, boundary :: boundaries =>
    joinSpace ((sentences.drop start).take (boundary - start)) ::
      groupSentencesFrom sentences boundary boundaries

def groupSentences (sentences : List Text) (boundaries : List ℕ) : List Text :=
  groupSentencesFrom sentences 0 boundaries

def plainSegment (chunk : ParsedChunk) : SourceSegment :=
  ⟨chunk.text, chunk.order, chunk.kind, chunk.metadata, 0⟩

structure SentenceRequest where
  chunk : ParsedChunk
  sentences : List Text
  slot : ℕ

variable {K : Type} [Field K] [LinearOrder K]

/-- `none` where the vectors raise, `some none` where the split is not worth acting on. -/
def semanticParts (sqrt : K → K) (request : SentenceRequest) (vectors : List (List K)) :
    Option (Option (List SourceSegment)) :=
  (semanticBoundaries sqrt vectors semanticBuffer semanticBreakpointPercentile).map
    fun boundaries =>
      let parts := groupSentences request.sentences boundaries
      if parts.length < minSemanticParts then none
      else some (parts.zipIdx.map fun (part, index) =>
        ⟨part, request.chunk.order, request.chunk.kind, request.chunk.metadata, index⟩)

def packSentenceRequests (pending : List SentenceRequest) : List (List SentenceRequest) :=
  go pending [] 0
where
  go : List SentenceRequest → List SentenceRequest → ℕ → List (List SentenceRequest)
    | [], current, _ => if current.isEmpty then [] else [current]
    | request :: pending, current, sentences =>
      if !current.isEmpty ∧ embedBatch < sentences + request.sentences.length then
        current :: go pending [request] request.sentences.length
      else go pending (current ++ [request]) (sentences + request.sentences.length)

abbrev Responses (K : Type) := List (Option (List (List K)))

def embedSentences : ℕ → Responses K → Option (List (List K)) × Responses K
  | 0, responses => (some [], responses)
  | _ + 1, [] => (none, [])
  | _ + 1, none :: responses => (none, responses)
  | calls + 1, some vectors :: responses =>
    let (more, responses) := embedSentences calls responses
    (more.map (vectors ++ ·), responses)

def replacementsOf (sqrt : K → K) :
    List SentenceRequest → List (List K) → Option (List (Option (List SourceSegment)))
  | [], _ => some []
  | request :: group, vectors => do
    let replacement ← semanticParts sqrt request (vectors.take request.sentences.length)
    let more ← replacementsOf sqrt group (vectors.drop request.sentences.length)
    return replacement :: more

def textsOf (group : List SentenceRequest) : List Text := group.flatMap (·.sentences)

def callsFor (texts : ℕ) : ℕ := (texts + (embedBatch - 1)) / embedBatch

def semanticSplitGroup (sqrt : K → K) (group : List SentenceRequest) (responses : Responses K) :
    Option (List (Option (List SourceSegment))) × Responses K :=
  match embedSentences (callsFor (textsOf group).length) responses with
  | (none, responses) => (none, responses)
  | (some vectors, responses) =>
    if vectors.length ≠ (textsOf group).length then (none, responses)
    else (replacementsOf sqrt group vectors, responses)

abbrev Slots := List (List SourceSegment)

def installSemanticSplits (slots : Slots) (group : List SentenceRequest)
    (replacements : List (Option (List SourceSegment))) : Slots :=
  (group.zip replacements).foldl (fun slots (request, replacement) =>
    match replacement with
    | some parts => slots.set request.slot parts
    | none => slots) slots

def tryGroup (sqrt : K → K) (group : List SentenceRequest) (slots : Slots)
    (responses : Responses K) : Option Slots × Responses K :=
  match semanticSplitGroup sqrt group responses with
  | (some replacements, responses) =>
    (some (installSemanticSplits slots group replacements), responses)
  | (none, responses) => (none, responses)

def applyAlone (sqrt : K → K) (done : Slots × Responses K) (request : SentenceRequest) :
    Slots × Responses K :=
  let (slots, responses) := tryGroup sqrt [request] done.1 done.2
  (slots.getD done.1, responses)

def applyGroup (sqrt : K → K) (done : Slots × Responses K) (group : List SentenceRequest) :
    Slots × Responses K :=
  match tryGroup sqrt group done.1 done.2 with
  | (some slots, responses) => (slots, responses)
  | (none, responses) =>
    if group.length = 1 then (done.1, responses)
    else group.foldl (applyAlone sqrt) (done.1, responses)

def applySemanticSplits (sqrt : K → K) (pending : List SentenceRequest) (slots : Slots)
    (responses : Responses K) : Slots :=
  ((packSentenceRequests pending).foldl (applyGroup sqrt) (slots, responses)).1

def parentKey : String := "_parent_key"

def textParentMaxChars : ℕ := 4000

def parentGroupKeys : List String := ["page_number", "sheet_name"]

def documentGroup : String := "document"

def groupOf (segment : SourceSegment) : String :=
  (parentGroupKeys.findSome? fun key =>
    (segment.metadata.lookup key).map fun value => key ++ "=" ++ value.str).getD documentGroup

def ReadsBefore (a b : SourceSegment × ℕ) : Prop :=
  a.1.order < b.1.order ∨ a.1.order = b.1.order ∧
    (a.1.subOrder < b.1.subOrder ∨ a.1.subOrder = b.1.subOrder ∧ a.2 ≤ b.2)

instance : DecidableRel ReadsBefore := fun a b =>
  inferInstanceAs (Decidable (a.1.order < b.1.order ∨ a.1.order = b.1.order ∧
    (a.1.subOrder < b.1.subOrder ∨ a.1.subOrder = b.1.subOrder ∧ a.2 ≤ b.2)))

def packParentParts (members : List (SourceSegment × ℕ)) : List (List (SourceSegment × ℕ)) :=
  go members [] 0
where
  go : List (SourceSegment × ℕ) → List (SourceSegment × ℕ) → ℕ →
      List (List (SourceSegment × ℕ))
    | [], current, _ => if current.isEmpty then [] else [current]
    | member :: members, current, length =>
      let size := member.1.text.length + if current.isEmpty then 0 else 1
      if !current.isEmpty ∧ textParentMaxChars < length + size then
        current :: go members [member] member.1.text.length
      else go members (current ++ [member]) (length + size)

def joinLines (part : List (SourceSegment × ℕ)) : Text :=
  List.intercalate [⟨0x0A, lineFeed_lt⟩] (part.map (·.1.text))

def parentParts (maxWords : ℕ) (segments : List SourceSegment) :
    List (List (SourceSegment × ℕ)) :=
  let members := segments.zipIdx.filter fun (segment, _) =>
    decide (parentKey ∉ segment.metadata) && decide (segment.kind ≠ .table)
  let groups := (members.map (groupOf ·.1)).eraseDups.map fun group =>
    (members.filter (groupOf ·.1 = group)).insertionSort ReadsBefore
  (groups.flatMap packParentParts).filter fun part =>
    decide ((joinLines part).length ≤ textParentMaxChars) &&
      !(part.length = 1 && part.all fun (segment, _) => (words segment.text).length ≤ maxWords)

def attachTextParents (maxWords : ℕ) (segments : List SourceSegment) :
    List SourceSegment × List ParentChunkDraft :=
  let parts := (parentParts maxWords segments).zipIdx
  let keyOf (index : ℕ) : Option String := parts.findSome? fun (part, n) =>
    if part.any (·.2 = index) then some ("text-" ++ toString n) else none
  (segments.zipIdx.map fun (segment, index) =>
      match keyOf index with
      | some key => { segment with metadata := segment.metadata.insert parentKey (.other key) }
      | none => segment,
    parts.map fun (part, n) =>
      ⟨"text-" ++ toString n, (part.head?.map (·.1.order)).getD 0, joinLines part, true⟩)

section Document

variable (sqrt : K → K) (tableToSegments : ℕ → ParsedChunk → Option (List SourceSegment))

def firstSlots (chunks : List ParsedChunk) : Slots :=
  chunks.zipIdx.map fun (chunk, index) =>
    if chunk.kind = .table then (tableToSegments index chunk).getD [plainSegment chunk]
    else [plainSegment chunk]

def pendingRequests (chunks : List ParsedChunk) : List SentenceRequest :=
  chunks.zipIdx.filterMap fun (chunk, index) =>
    if chunk.kind ≠ .table ∧ minSentencesToSplit ≤ (splitSentences chunk.text).length then
      some ⟨chunk, splitSentences chunk.text, index⟩
    else none

def handedSegments (maxWords : ℕ) (chunks : List ParsedChunk) (responses : Responses K) : Slots :=
  let slots := applySemanticSplits sqrt (pendingRequests chunks)
    (firstSlots tableToSegments chunks) responses
  (slots.map List.length).splitLengths (attachTextParents maxWords slots.flatten).1

end Document

variable {c : CodePoint}

theorem isSpace_of_isNewline (h : isNewline c = true) : isSpace c = true := by
  have hval : c.val = 0x0A := of_decide_eq_true h
  simp [isSpace, isSpaceCode, hval]

theorem not_isSpace_of_isMark (h : isMark c = true) : isSpace c = false := by
  simp only [isMark, Bool.or_eq_true, decide_eq_true_eq] at h
  rcases h with (((h | h) | h) | h) | h <;> simp [isSpace, isSpaceCode, h]

theorem take_matchLength (text : Text) :
    (∀ c ∈ text.take (matchLength text), isMark c = true) ∨
      ∀ c ∈ text.take (matchLength text), isNewline c = true := by
  have ht : ∀ p : CodePoint → Bool, text.take (text.takeWhile p).length = text.takeWhile p :=
    fun p => (prefix_iff_eq_take.mp ( takeWhile_prefix p)).symm
  rw [matchLength]
  by_cases hm : (text.takeWhile isMark).length ≠ 0
  · left
    rw [if_pos hm, ht]
    exact all_eq_true.mp all_takeWhile
  · right
    rw [if_neg hm]
    by_cases hl : 2 ≤ (text.takeWhile isNewline).length
    · rw [if_pos hl, ht]
      exact all_eq_true.mp all_takeWhile
    · rw [if_neg hl]
      simp

variable {text : Text}

theorem isMark_eq_false_of_matchLength (h : matchLength (c :: text) = 0) : isMark c = false := by
  by_contra hm
  rw [Bool.not_eq_false] at hm
  rw [matchLength, takeWhile_cons_of_pos hm] at h
  simp at h

def kept (c : CodePoint) : Bool := !isSpace c && !isMark c

/-- Splitting loses whitespace and marks alone. -/
theorem filter_splitPieces (skip : ℕ) (piece text : Text) :
    (splitPieces skip piece text).flatten.filter (!isSpace ·) =
      piece.filter (!isSpace ·) ++ (text.drop skip).filter kept := by
  induction text generalizing skip piece with
  | nil => cases skip <;> simp [splitPieces]
  | cons c text ih =>
    cases skip with
    | succ skip =>
      rw [splitPieces, ih, drop_succ_cons]
    | zero =>
      rw [splitPieces]
      cases hm : matchLength (c :: text) with
      | zero =>
        have hmr := isMark_eq_false_of_matchLength hm
        have hs : [c].filter (!isSpace ·) = [c].filter kept := by
          simp [filter_cons, kept, hmr]
        simp only
        rw [ih, filter_append, append_assoc, hs, ← filter_append]
        rfl
      | succ length =>
        have hlo : ((c :: text).take (length + 1)).filter kept = [] := by
          rw [filter_eq_nil_iff]
          have ht := take_matchLength (c :: text)
          rw [hm] at ht
          rcases ht with hma | hl
          · intro d hd
            simp [kept, hma d hd]
          · intro d hd
            simp [kept, isSpace_of_isNewline (hl d hd)]
        have hdr : (c :: text).filter kept = (text.drop length).filter kept := by
          rw [← take_append_drop (length + 1) (c :: text), filter_append, hlo,
            nil_append, drop_succ_cons]
        simp only [flatten_cons, filter_append, ih, filter_nil, nil_append]
        rw [drop_zero, hdr]

/-- Splitting a text without marks keeps its words. -/
theorem words_splitPieces (h : ∀ c ∈ text, isMark c = false) (skip : ℕ) (piece : Text) :
    (splitPieces skip piece text).flatMap words = words (piece ++ text.drop skip) := by
  induction text generalizing skip piece with
  | nil => cases skip <;> simp [splitPieces]
  | cons c text ih =>
    rw [forall_mem_cons] at h
    cases skip with
    | succ skip => rw [splitPieces, ih h.2, drop_succ_cons]
    | zero =>
      rw [splitPieces]
      cases hm : matchLength (c :: text) with
      | zero =>
        simp only
        rw [ih h.2, append_assoc]
        rfl
      | succ length =>
        have hs : ∀ d ∈ (c :: text).take (length + 1), isSpace d = true := by
          have ht := take_matchLength (c :: text)
          rw [hm] at ht
          rcases ht with hma | hl
          · have hc := hma c (by simp)
            rw [h.1] at hc
            cases hc
          · exact fun d hd => isSpace_of_isNewline (hl d hd)
        simp only [flatMap_cons, ih h.2, nil_append, drop_zero]
        rw [take_succ_cons, forall_mem_cons] at hs
        rw [words, words, words, runs_append_cons hs.1,
          ← runs_append_of_seps hs.2 (text.drop length), take_append_drop]

theorem words_strip (text : Text) : words (strip text) = words text := by
  have hf : words (text.dropWhile isSpace) = words text := by
    have hs : ∀ c ∈ text.takeWhile isSpace, isSpace c = true :=
      all_eq_true.mp all_takeWhile
    rw [words, ← runs_append_of_seps hs, takeWhile_append_dropWhile]
    rfl
  have hb : ∀ t : Text, words (t.reverse.dropWhile isSpace).reverse = words t := by
    intro t
    have hs : ∀ c ∈ (t.reverse.takeWhile isSpace).reverse, isSpace c = true := by
      intro c hc
      exact all_eq_true.mp all_takeWhile c (mem_reverse.mp hc)
    rw [words, ← runs_append_seps hs, ← reverse_append,
      takeWhile_append_dropWhile, reverse_reverse]
    rfl
  rw [strip, hb, hf]

theorem words_splitSentences (text : Text) :
    (splitSentences text).flatMap words = (splitPieces 0 [] text).flatMap words := by
  rw [splitSentences]
  induction splitPieces 0 [] text with
  | nil => rfl
  | cons piece pieces ih =>
    rw [map_cons, flatMap_cons, ← words_strip piece]
    by_cases he : strip piece = []
    · rw [filter_cons_of_neg (by simpa using he), ih, he]
      rfl
    · rw [filter_cons_of_pos (by simpa using he), flatMap_cons, ih]

theorem words_joinSpace (sentences : List Text) :
    words (joinSpace sentences) = sentences.flatMap words :=
  runs_intercalate (by decide) nofun sentences

variable {boundaries : List ℕ}

theorem words_groupSentencesFrom (sentences : List Text) (start : ℕ)
    (h : (start :: boundaries).Pairwise (· ≤ ·)) :
    (groupSentencesFrom sentences start boundaries).flatMap words =
      (sentences.drop start).flatMap words := by
  induction boundaries generalizing start with
  | nil => simp [groupSentencesFrom, words_joinSpace]
  | cons boundary boundaries ih =>
    have hs : start ≤ boundary := rel_of_pairwise_cons h mem_cons_self
    rw [groupSentencesFrom, flatMap_cons, ih boundary h.of_cons, words_joinSpace,
      ← flatMap_append]
    have hd : sentences.drop boundary = (sentences.drop start).drop (boundary - start) := by
      rw [drop_drop]
      congr 1
      omega
    rw [hd, take_append_drop]

def segmentWords (slot : List SourceSegment) : List Text :=
  slot.flatMap fun segment => words segment.text

def partSegments (request : SentenceRequest) (boundaries : List ℕ) : List SourceSegment :=
  (groupSentences request.sentences boundaries).zipIdx.map fun (part, index) =>
    ⟨part, request.chunk.order, request.chunk.kind, request.chunk.metadata, index⟩

theorem segmentWords_partSegments (request : SentenceRequest) (h : boundaries.Pairwise (· < ·)) :
    segmentWords (partSegments request boundaries) = request.sentences.flatMap words := by
  have hs : (0 :: boundaries).Pairwise (· ≤ ·) :=
    pairwise_cons.mpr ⟨fun _ _ => Nat.zero_le _, h.imp Nat.le_of_lt⟩
  have hw := words_groupSentencesFrom request.sentences 0 hs
  rw [drop_zero] at hw
  rw [segmentWords, partSegments, flatMap_map, ← hw]
  conv_rhs => rw [← zipIdx_map_fst 0 (groupSentencesFrom request.sentences 0 boundaries)]
  rw [flatMap_map]
  rfl

theorem length_groupSentencesFrom (sentences : List Text) (start : ℕ) (boundaries : List ℕ) :
    (groupSentencesFrom sentences start boundaries).length = boundaries.length + 1 := by
  induction boundaries generalizing start with
  | nil => rfl
  | cons boundary boundaries ih => rw [groupSentencesFrom, length_cons, ih, length_cons]

variable {sqrt : K → K} {request : SentenceRequest} {vectors : List (List K)}

theorem semanticParts_eq
    (h : semanticBoundaries sqrt vectors semanticBuffer semanticBreakpointPercentile =
      some boundaries) :
    semanticParts sqrt request vectors =
      some (if boundaries = [] then none else some (partSegments request boundaries)) := by
  have hl := length_groupSentencesFrom request.sentences 0 boundaries
  rw [semanticParts, h, Option.map_some]
  cases boundaries with
  | nil => rfl
  | cons boundary boundaries =>
    rw [length_cons] at hl
    rw [if_neg (cons_ne_nil _ _)]
    simp only [groupSentences, minSemanticParts, hl]
    rw [if_neg (by omega)]
    rfl

/-- A split of a chunk leaves the words of its sentences, takes more than two of them, and says of
its parts what the parser said of the chunk. -/
structure Splits (request : SentenceRequest) (segments : List SourceSegment) : Prop where
  words : segmentWords segments = request.sentences.flatMap words
  many : 2 < request.sentences.length
  described : ∀ segment ∈ segments,
    segment.kind = request.chunk.kind ∧ segment.metadata = request.chunk.metadata

theorem semanticParts_eq_some {segments : List SourceSegment}
    (hfew : vectors.length ≤ request.sentences.length)
    (h : semanticParts sqrt request vectors = some (some segments)) : Splits request segments := by
  cases hb : semanticBoundaries sqrt vectors semanticBuffer
      semanticBreakpointPercentile with
  | none =>
    rw [semanticParts, hb] at h
    cases h
  | some boundaries =>
    rw [semanticParts_eq hb, Option.some.injEq] at h
    split_ifs at h with hnil
    cases h
    have hm : 2 < vectors.length := by
      by_contra hfew
      exact hnil (semanticBoundaries_of_two (by omega) hb)
    refine ⟨segmentWords_partSegments request (pairwise_semanticBoundaries hb), by omega,
      fun segment hs => ?_⟩
    obtain ⟨part, -, rfl⟩ := mem_map.mp hs
    exact ⟨rfl, rfl⟩

structure Asks (chunks : List ParsedChunk) (request : SentenceRequest) : Prop where
  chunk : chunks[request.slot]? = some request.chunk
  prose : request.chunk.kind ≠ .table
  sentences : request.sentences = splitSentences request.chunk.text
  several : minSentencesToSplit ≤ request.sentences.length

variable {chunks : List ParsedChunk}

theorem asks_of_mem (h : request ∈ pendingRequests chunks) : Asks chunks request := by
  obtain ⟨⟨chunk, index⟩, hmem, hr⟩ := mem_filterMap.mp h
  simp only at hr
  split_ifs at hr with hs
  cases hr
  exact ⟨mem_zipIdx_iff_getElem?.mp hmem, hs.1, rfl, hs.2⟩

theorem flatten_packSentenceRequests (pending : List SentenceRequest) :
    (packSentenceRequests pending).flatten = pending := by
  have hgo : ∀ (pending current : List SentenceRequest) (sentences : ℕ),
      (packSentenceRequests.go pending current sentences).flatten = current ++ pending := by
    intro pending
    induction pending with
    | nil =>
      intro current sentences
      rw [packSentenceRequests.go]
      cases current <;> simp
    | cons request pending ih =>
      intro current sentences
      rw [packSentenceRequests.go]
      split_ifs
      · rw [flatten_cons, ih, singleton_append]
      · rw [ih, append_assoc, singleton_append]
  exact hgo pending [] 0

def SlotSound (chunk : ParsedChunk) (slot : List SourceSegment) : Prop :=
  slot = [plainSegment chunk] ∨
    2 < (splitSentences chunk.text).length ∧
      segmentWords slot = (splitSentences chunk.text).flatMap words

def SlotsSound (chunks : List ParsedChunk) (slots : Slots) : Prop :=
  slots.length = chunks.length ∧
    ∀ (i : ℕ) chunk slot, chunks[i]? = some chunk → chunk.kind ≠ .table → slots[i]? = some slot →
      SlotSound chunk slot

/-- Storing a sound split keeps the slots sound. -/
theorem SlotsSound.set {slots : Slots} (h : SlotsSound chunks slots) (ha : Asks chunks request)
    {segments : List SourceSegment} (hs : SlotSound request.chunk segments) :
    SlotsSound chunks (slots.set request.slot segments) := by
  refine ⟨by rw [length_set, h.1], fun i chunk slot hc hp hsl => ?_⟩
  rw [List.getElem?_set] at hsl
  split_ifs at hsl with hi hlt
  · subst hi
    obtain rfl := Option.mem_unique ha.chunk hc
    exact Option.some.inj hsl ▸ hs
  · exact h.2 i chunk slot hc hp hsl

variable {group : List SentenceRequest}

theorem replacementsOf_eq_some {replacements : List (Option (List SourceSegment))}
    (h : replacementsOf sqrt group vectors = some replacements) :
    ∀ p ∈ group.zip replacements, ∀ segments, p.2 = some segments → Splits p.1 segments := by
  induction group generalizing vectors replacements with
  | nil => simp
  | cons request group ih =>
    simp only [replacementsOf, Option.bind_eq_bind, Option.bind_eq_some_iff, Option.pure_def,
      Option.some.injEq] at h
    obtain ⟨replacement, hr, more, hm, rfl⟩ := h
    rw [zip_cons_cons, forall_mem_cons]
    refine ⟨fun segments hs => ?_, ih hm⟩
    simp only at hs
    rw [hs] at hr
    exact semanticParts_eq_some (by simp) hr

/-- What holds of the slots before the semantic pass and survives putting a split of a chunk into
its slot holds after the pass, whatever the provider answers. -/
structure KeptBySplits (chunks : List ParsedChunk) (P : Slots → Prop) : Prop where
  set : ∀ {slots request segments}, Asks chunks request → Splits request segments → P slots →
    P (slots.set request.slot segments)

namespace KeptBySplits

variable {chunks : List ParsedChunk} {P : Slots → Prop} (hkept : KeptBySplits chunks P)
include hkept

variable {slots : Slots} {group : List SentenceRequest}

theorem install (h : P slots) (ha : ∀ request ∈ group, Asks chunks request)
    {replacements : List (Option (List SourceSegment))}
    (hr : ∀ p ∈ group.zip replacements, ∀ segments, p.2 = some segments →
      Splits p.1 segments) : P (installSemanticSplits slots group replacements) := by
  have hzip : ∀ p ∈ group.zip replacements, p.1 ∈ group := fun p hp => (of_mem_zip hp).1
  rw [installSemanticSplits]
  generalize group.zip replacements = pairs at hr hzip ⊢
  induction pairs generalizing slots with
  | nil => exact h
  | cons p rest ih =>
    rw [forall_mem_cons] at hr hzip
    rw [foldl_cons]
    refine ih ?_ hr.2 hzip.2
    obtain ⟨request, replacement⟩ := p
    cases replacement with
    | none => exact h
    | some segments => exact hkept.set (ha request hzip.1) (hr.1 segments rfl) h

theorem tryGroup (h : P slots) (sqrt : K → K) (ha : ∀ request ∈ group, Asks chunks request)
    (responses : Responses K) :
    ∀ after ∈ (tryGroup sqrt group slots responses).1, P after := by
  intro after haf
  rw [SemanticCuts.tryGroup, semanticSplitGroup] at haf
  cases he : embedSentences (callsFor (textsOf group).length) responses with
  | mk vectors rest =>
    rw [he] at haf
    cases vectors with
    | none => cases haf
    | some vectors =>
      simp only at haf
      by_cases hl : vectors.length = (textsOf group).length
      · rw [if_neg (not_not.mpr hl)] at haf
        cases hr : replacementsOf sqrt group vectors with
        | none =>
          rw [hr] at haf
          cases haf
        | some replacements =>
          rw [hr] at haf
          cases haf
          exact hkept.install h ha (replacementsOf_eq_some hr)
      · rw [if_pos hl] at haf
        cases haf

variable {sqrt : K → K} {done : Slots × Responses K}

theorem applyAlone (h : P done.1) {request : SentenceRequest} (hak : Asks chunks request) :
    P (applyAlone sqrt done request).1 := by
  have ha : ∀ other ∈ [request], Asks chunks other := by simpa using hak
  have htry := hkept.tryGroup h sqrt ha done.2
  rw [SemanticCuts.applyAlone]
  cases hr : (SemanticCuts.tryGroup sqrt [request] done.1 done.2).1 with
  | none => simpa [hr] using h
  | some slots => simpa [hr] using htry slots hr

theorem foldl_applyAlone (ha : ∀ request ∈ group, Asks chunks request) (h : P done.1) :
    P (group.foldl (SemanticCuts.applyAlone sqrt) done).1 := by
  induction group generalizing done with
  | nil => exact h
  | cons request group ih =>
    rw [forall_mem_cons] at ha
    exact ih ha.2 (hkept.applyAlone h ha.1)

theorem applyGroup (h : P done.1) (ha : ∀ request ∈ group, Asks chunks request) :
    P (applyGroup sqrt done group).1 := by
  have htry := hkept.tryGroup h sqrt ha done.2
  rw [SemanticCuts.applyGroup]
  cases hr : SemanticCuts.tryGroup sqrt group done.1 done.2 with
  | mk slots responses =>
    rw [hr] at htry
    cases slots with
    | some slots => exact htry slots rfl
    | none =>
      simp only
      split_ifs
      · exact h
      · exact hkept.foldl_applyAlone ha h

theorem applySemanticSplits (h : P slots) (sqrt : K → K) (responses : Responses K) :
    P (applySemanticSplits sqrt (pendingRequests chunks) slots responses) := by
  have ha : ∀ group ∈ packSentenceRequests (pendingRequests chunks),
      ∀ request ∈ group, Asks chunks request := by
    intro group hg request hr
    refine asks_of_mem ?_
    rw [← flatten_packSentenceRequests (pendingRequests chunks)]
    exact mem_flatten_of_mem hg hr
  rw [SemanticCuts.applySemanticSplits]
  generalize packSentenceRequests (pendingRequests chunks) = groups at ha ⊢
  have hf : ∀ done : Slots × Responses K, P done.1 →
      P (groups.foldl (SemanticCuts.applyGroup sqrt) done).1 := by
    induction groups with
    | nil => exact fun done h => h
    | cons group groups ih =>
      rw [forall_mem_cons] at ha
      exact fun done h => ih ha.2 _ (hkept.applyGroup h ha.1)
  exact hf _ h

end KeptBySplits

theorem firstSlots_sound (tableToSegments : ℕ → ParsedChunk → Option (List SourceSegment))
    (chunks : List ParsedChunk) : SlotsSound chunks (firstSlots tableToSegments chunks) := by
  refine ⟨by rw [firstSlots, length_map, length_zipIdx],
    fun i chunk slot hc hp hs => .inl ?_⟩
  rw [firstSlots, List.getElem?_map, List.getElem?_zipIdx, hc] at hs
  simp only [Option.map_some, Option.some.injEq, if_neg hp] at hs
  exact hs.symm

/-- The semantic pass leaves every slot sound. -/
theorem applySemanticSplits_sound (sqrt : K → K)
    (tableToSegments : ℕ → ParsedChunk → Option (List SourceSegment)) (chunks : List ParsedChunk)
    (responses : Responses K) :
    SlotsSound chunks (applySemanticSplits sqrt (pendingRequests chunks)
      (firstSlots tableToSegments chunks) responses) := by
  have hkept : KeptBySplits chunks (SlotsSound chunks) := by
    refine ⟨fun ha hs h => h.set ha (.inr ?_)⟩
    rw [← ha.sentences]
    exact ⟨hs.many, hs.words⟩
  exact hkept.applySemanticSplits (firstSlots_sound tableToSegments chunks) sqrt responses

theorem map_text_attachTextParents (maxWords : ℕ) (segments : List SourceSegment) :
    (attachTextParents maxWords segments).1.map (·.text) = segments.map (·.text) := by
  rw [attachTextParents]
  simp only [map_map]
  conv_rhs => rw [← zipIdx_map_fst 0 segments, map_map]
  refine map_congr_left fun p _ => ?_
  obtain ⟨segment, index⟩ := p
  simp only [Function.comp_apply]
  split <;> rfl

theorem map_splitLengths {α β : Type} (f : α → β) (sizes : List ℕ) (l : List α) :
    (sizes.splitLengths l).map (List.map f) = sizes.splitLengths (l.map f) := by
  induction sizes generalizing l with
  | nil => rfl
  | cons size sizes ih =>
    simp only [List.splitLengths, splitAt_eq, map_cons, ih, map_take, map_drop]

theorem splitLengths_flatten {α : Type} (ls : List (List α)) :
    (ls.map List.length).splitLengths ls.flatten = ls := by
  induction ls with
  | nil => rfl
  | cons l ls ih =>
    simp only [map_cons, flatten_cons, List.splitLengths, splitAt_eq]
    rw [take_left, drop_left, ih]

theorem segmentWords_handedSegments (sqrt : K → K)
    (tableToSegments : ℕ → ParsedChunk → Option (List SourceSegment)) (maxWords : ℕ)
    (chunks : List ParsedChunk) (responses : Responses K) :
    (handedSegments sqrt tableToSegments maxWords chunks responses).map segmentWords =
      (applySemanticSplits sqrt (pendingRequests chunks) (firstSlots tableToSegments chunks)
        responses).map segmentWords := by
  rw [handedSegments]
  generalize applySemanticSplits sqrt (pendingRequests chunks) (firstSlots tableToSegments chunks)
    responses = slots
  have ht : ((slots.map List.length).splitLengths
      (attachTextParents maxWords slots.flatten).1).map (List.map SourceSegment.text) =
        slots.map (List.map SourceSegment.text) := by
    rw [map_splitLengths, map_text_attachTextParents, ← map_splitLengths, splitLengths_flatten]
  have hw : segmentWords = (fun texts : List Text => texts.flatMap words) ∘
      List.map SourceSegment.text := by
    funext slot
    simp only [segmentWords, Function.comp_apply, flatMap_map]
  rw [hw, ← map_map, ht, map_map]

/-- A slot has the words of its chunk where no mark was dropped. -/
theorem SlotSound.words_eq {chunk : ParsedChunk} {slot : List SourceSegment}
    (h : SlotSound chunk slot)
    (hkept : (splitSentences chunk.text).length < 3 ∨ ∀ c ∈ chunk.text, isMark c = false) :
    segmentWords slot = words chunk.text := by
  rcases h with rfl | ⟨hma, hw⟩
  · simp [segmentWords, plainSegment]
  · have hm := hkept.resolve_left (by omega)
    rw [hw, words_splitSentences, words_splitPieces hm, nil_append, drop_zero]

theorem words_ne_of_mark (hc : c ∈ text) (hm : isMark c = true) :
    (splitSentences text).flatMap words ≠ words text := by
  intro heq
  have hf : ∀ ls : List Text, (ls.flatMap words).flatten = ls.flatten.filter (!isSpace ·) := by
    intro ls
    induction ls with
    | nil => rfl
    | cons l ls ih =>
      rw [flatMap_cons, flatten_append, ih, words, flatten_runs, flatten_cons,
        filter_append]
  have hl := congrArg List.flatten heq
  rw [words_splitSentences, hf, filter_splitPieces, words, flatten_runs, filter_nil,
    nil_append, drop_zero] at hl
  have hmem : c ∈ text.filter kept := by
    rw [hl, mem_filter]
    exact ⟨hc, by simp [not_isSpace_of_isMark hm]⟩
  have hkept := (mem_filter.mp hmem).2
  simp [kept, hm] at hkept

def bentParts (request : SentenceRequest) : Option (List SourceSegment) :=
  if 3 ≤ request.sentences.length then
    some (partSegments request [request.sentences.length - 1])
  else none

def bentVectors (request : SentenceRequest) : List (List K) :=
  line (bend request.sentences.length)

def bentResponses (group : List SentenceRequest) : Responses K :=
  some (group.flatMap bentVectors) ::
    List.replicate (callsFor (textsOf group).length - 1) (some [])

def installBent (slots : Slots) (request : SentenceRequest) : Slots :=
  match bentParts request with
  | some parts => slots.set request.slot parts
  | none => slots

theorem install_bentParts (slots : Slots) (group : List SentenceRequest) :
    installSemanticSplits slots group (group.map bentParts) = group.foldl installBent slots := by
  rw [installSemanticSplits]
  induction group generalizing slots with
  | nil => rfl
  | cons request group ih =>
    rw [map_cons, zip_cons_cons, foldl_cons, foldl_cons, ih]
    rfl

omit [LinearOrder K] in
theorem length_bentVectors (h : minSentencesToSplit ≤ request.sentences.length) :
    (bentVectors request : List (List K)).length = request.sentences.length := by
  rw [minSentencesToSplit] at h
  rw [bentVectors, line, length_map, length_bend (by omega)]

omit [LinearOrder K] in
theorem length_flatMap_bentVectors
    (h : ∀ request ∈ group, minSentencesToSplit ≤ request.sentences.length) :
    (group.flatMap bentVectors : List (List K)).length = (textsOf group).length := by
  rw [textsOf]
  induction group with
  | nil => rfl
  | cons request group ih =>
    rw [forall_mem_cons] at h
    rw [flatMap_cons, flatMap_cons, length_append, length_append,
      length_bentVectors h.1, ih h.2]

omit [Field K] [LinearOrder K] in
theorem embedSentences_replicate (calls : ℕ) (responses : Responses K) :
    embedSentences calls (List.replicate calls (some []) ++ responses) = (some [], responses) := by
  induction calls with
  | zero => rfl
  | succ calls ih =>
    rw [replicate_succ, cons_append, embedSentences, ih]
    rfl

theorem foldl_installBent {parts : List SourceSegment} (hp : bentParts request = some parts)
    (ha : Asks chunks request) {pending : List SentenceRequest}
    (hall : ∀ other ∈ pending, Asks chunks other) {slots : Slots}
    (hle : slots.length = chunks.length)
    (h : slots[request.slot]? = some parts ∨ request ∈ pending) :
    (pending.foldl installBent slots)[request.slot]? = some parts := by
  induction pending generalizing slots with
  | nil => exact h.resolve_right not_mem_nil
  | cons other pending ih =>
    rw [forall_mem_cons] at hall
    rw [foldl_cons]
    have hsi : (installBent slots other).length = chunks.length := by
      rw [installBent]
      split
      · rw [length_set, hle]
      · exact hle
    refine ih hall.2 hsi ?_
    by_cases hsl : other.slot = request.slot
    · have hsa : bentParts other = some parts := by
        have hc : other.chunk = request.chunk := by
          have hf := hall.1.chunk
          rw [hsl, ha.chunk] at hf
          exact (Option.some.inj hf).symm
        have hs : other.sentences = request.sentences := by
          rw [hall.1.sentences, ha.sentences, hc]
        rw [← hp, bentParts, bentParts, partSegments, partSegments, hs, hc]
      have hlt : request.slot < slots.length := by
        rw [hle]
        exact (List.getElem?_eq_some_iff.mp ha.chunk).1
      left
      simp only [installBent, hsa, hsl]
      rw [List.getElem?_set_self hlt]
    · rcases h with hd | hmem
      · left
        rw [installBent]
        split
        · rw [List.getElem?_set_ne hsl, hd]
        · exact hd
      · rcases mem_cons.mp hmem with rfl | hl
        · exact absurd rfl hsl
        · exact .inr hl

section Bent

variable [IsStrictOrderedRing K] {sqrt : K → K}

theorem semanticParts_bent (hsqrt : ∀ x, sqrt (x * x) = |x|) {request : SentenceRequest}
    (h : minSentencesToSplit ≤ request.sentences.length) :
    semanticParts sqrt request (bentVectors request) = some (bentParts request) := by
  rw [minSentencesToSplit] at h
  rw [bentParts, bentVectors]
  by_cases ht : 3 ≤ request.sentences.length
  · rw [semanticParts_eq (semanticBoundaries_bend hsqrt ht), if_neg (cons_ne_nil _ _),
      if_pos ht]
  · have htwo : request.sentences.length = 2 := by omega
    rw [htwo, semanticParts_eq (semanticBoundaries_bend_two hsqrt), if_pos rfl, if_neg (by omega)]

section

variable {group : List SentenceRequest} (hsqrt : ∀ x, sqrt (x * x) = |x|)
    (h : ∀ request ∈ group, minSentencesToSplit ≤ request.sentences.length)
include hsqrt h

theorem replacementsOf_bent :
    replacementsOf sqrt group (group.flatMap bentVectors) = some (group.map bentParts) := by
  induction group with
  | nil => rfl
  | cons request group ih =>
    rw [forall_mem_cons] at h
    have hl := length_bentVectors (K := K) h.1
    rw [replacementsOf, flatMap_cons, ← hl, take_left, drop_left,
      semanticParts_bent hsqrt h.1, ih h.2]
    rfl

theorem tryGroup_bent (hne : group ≠ []) (slots : Slots) (responses : Responses K) :
    tryGroup sqrt group slots (bentResponses group ++ responses) =
      (some (group.foldl installBent slots), responses) := by
  have hc : callsFor (textsOf group).length = callsFor (textsOf group).length - 1 + 1 := by
    obtain ⟨request, rest, rfl⟩ := exists_cons_of_ne_nil hne
    have hs := h request mem_cons_self
    have ht : 2 ≤ (textsOf (request :: rest)).length := by
      rw [textsOf, flatMap_cons, length_append]
      rw [minSentencesToSplit] at hs
      omega
    rw [callsFor, embedBatch]
    omega
  have he : embedSentences (callsFor (textsOf group).length)
      (bentResponses group ++ responses) = (some (group.flatMap bentVectors), responses) := by
    rw [bentResponses, hc, Nat.add_sub_cancel, cons_append, embedSentences,
      embedSentences_replicate]
    simp
  rw [tryGroup, semanticSplitGroup, he]
  simp only [length_flatMap_bentVectors h, ne_eq, not_true_eq_false, if_false,
    replacementsOf_bent hsqrt h, install_bentParts]

end

theorem foldl_applyGroup_bent (hsqrt : ∀ x, sqrt (x * x) = |x|)
    {groups : List (List SentenceRequest)} (h : ∀ group ∈ groups, group ≠ [] ∧
      ∀ request ∈ group, minSentencesToSplit ≤ request.sentences.length) (slots : Slots) :
    (groups.foldl (applyGroup sqrt) (slots, groups.flatMap bentResponses)).1 =
      groups.flatten.foldl installBent slots := by
  induction groups generalizing slots with
  | nil => rfl
  | cons group groups ih =>
    rw [forall_mem_cons] at h
    rw [foldl_cons, applyGroup, flatMap_cons, tryGroup_bent hsqrt h.1.2 h.1.1,
      flatten_cons, foldl_append]
    exact ih h.2 _

end Bent

theorem ne_nil_of_mem_packSentenceRequests {pending : List SentenceRequest}
    (h : group ∈ packSentenceRequests pending) : group ≠ [] := by
  have hgo : ∀ (pending current : List SentenceRequest) (sentences : ℕ),
      ∀ group ∈ packSentenceRequests.go pending current sentences, group ≠ [] := by
    intro pending
    induction pending with
    | nil =>
      intro current sentences group hg
      rw [packSentenceRequests.go] at hg
      cases current with
      | nil => simp at hg
      | cons request current =>
        rw [mem_singleton.mp hg]
        exact cons_ne_nil _ _
    | cons request pending ih =>
      intro current sentences group hg
      rw [packSentenceRequests.go] at hg
      split_ifs at hg with hf
      · rcases mem_cons.mp hg with rfl | hr
        · rintro rfl
          simp at hf
        · exact ih _ _ group hr
      · exact ih _ _ group hg
  exact hgo pending [] 0 group h

section Document

variable {sqrt : K → K} (tableToSegments : ℕ → ParsedChunk → Option (List SourceSegment))

variable {chunks : List ParsedChunk} {i : ℕ}

theorem request_mem {chunk : ParsedChunk} (hc : chunks[i]? = some chunk)
    (hp : chunk.kind ≠ .table)
    (hm : minSentencesToSplit ≤ (splitSentences chunk.text).length) :
    ⟨chunk, splitSentences chunk.text, i⟩ ∈ pendingRequests chunks := by
  refine mem_filterMap.mpr ⟨(chunk, i), mem_zipIdx_iff_getElem?.mpr hc, ?_⟩
  simp only
  rw [if_pos ⟨hp, hm⟩]

/-- For three sentences and more there are vectors that take the chunk apart. -/
theorem exists_cut [IsStrictOrderedRing K] (hsqrt : ∀ x, sqrt (x * x) = |x|) {chunk : ParsedChunk}
    (hc : chunks[i]? = some chunk) (hpr : chunk.kind ≠ .table)
    (hm : 3 ≤ (splitSentences chunk.text).length) :
    ∃ (responses : Responses K) (slot : List SourceSegment),
      (applySemanticSplits sqrt (pendingRequests chunks) (firstSlots tableToSegments chunks)
        responses)[i]? = some slot ∧
      segmentWords slot = (splitSentences chunk.text).flatMap words := by
  have hmem := request_mem hc hpr (Nat.le_trans (by decide) hm)
  refine ⟨(packSentenceRequests (pendingRequests chunks)).flatMap bentResponses,
    partSegments ⟨chunk, splitSentences chunk.text, i⟩ [(splitSentences chunk.text).length - 1],
    ?_, segmentWords_partSegments _ (pairwise_singleton _ _)⟩
  have hg : ∀ group ∈ packSentenceRequests (pendingRequests chunks), group ≠ [] ∧
      ∀ request ∈ group, minSentencesToSplit ≤ request.sentences.length := by
    intro group hgr
    refine ⟨ne_nil_of_mem_packSentenceRequests hgr, fun request hr => ?_⟩
    have hp : request ∈ pendingRequests chunks := by
      rw [← flatten_packSentenceRequests (pendingRequests chunks)]
      exact mem_flatten_of_mem hgr hr
    exact (asks_of_mem hp).several
  rw [applySemanticSplits, foldl_applyGroup_bent hsqrt hg, flatten_packSentenceRequests]
  have hpa : bentParts ⟨chunk, splitSentences chunk.text, i⟩ =
      some (partSegments _ [(splitSentences chunk.text).length - 1]) := if_pos hm
  exact foldl_installBent hpa (asks_of_mem hmem) (fun _ => asks_of_mem)
    (firstSlots_sound tableToSegments chunks).1 (.inr hmem)

theorem getElem?_handedSegments (maxWords : ℕ) {responses : Responses K}
    {slot : List SourceSegment}
    (h : (applySemanticSplits sqrt (pendingRequests chunks) (firstSlots tableToSegments chunks)
      responses)[i]? = some slot) :
    ∃ segments, (handedSegments sqrt tableToSegments maxWords chunks responses)[i]? =
      some segments ∧ segmentWords segments = segmentWords slot := by
  have hw := congrArg (·[i]?)
    (segmentWords_handedSegments sqrt tableToSegments maxWords chunks responses)
  simp only [List.getElem?_map, h, Option.map_some, Option.map_eq_some_iff] at hw
  exact hw

end Document

/-- Whatever vectors a provider returns or refuses, the segments of a document's prose keep the
words of its chunks, exactly when every prose chunk has fewer than three sentences or no mark. -/
theorem cuts_keep_words_iff [IsStrictOrderedRing K] (sqrt : K → K)
    (hsqrt : ∀ x, sqrt (x * x) = |x|)
    (tableToSegments : ℕ → ParsedChunk → Option (List SourceSegment)) (maxWords : ℕ)
    (chunks : List ParsedChunk) :
    (∀ (responses : Responses K) (i : ℕ) (chunk : ParsedChunk), chunks[i]? = some chunk →
      chunk.kind ≠ .table →
        ∃ segments, (handedSegments sqrt tableToSegments maxWords chunks responses)[i]? =
          some segments ∧ segmentWords segments = words chunk.text) ↔
    ∀ chunk ∈ chunks, chunk.kind ≠ .table →
      (splitSentences chunk.text).length < 3 ∨ ∀ c ∈ chunk.text, isMark c = false := by
  constructor
  · intro h chunk hmem hp
    by_contra hcut
    rw [not_or] at hcut
    obtain ⟨hma, hm⟩ := hcut
    obtain ⟨i, hc⟩ := List.getElem?_of_mem hmem
    obtain ⟨responses, slot, hsl, hl⟩ :=
      exists_cut tableToSegments hsqrt hc hp (by omega)
    obtain ⟨segments, hs, hw⟩ := h responses i chunk hc hp
    obtain ⟨handed, hh, hsa⟩ := getElem?_handedSegments tableToSegments maxWords hsl
    obtain rfl := Option.mem_unique hs hh
    rw [not_forall] at hm
    obtain ⟨c, hmr⟩ := hm
    rw [Classical.not_imp, Bool.not_eq_false] at hmr
    refine words_ne_of_mark hmr.1 hmr.2 ?_
    rw [← hl, ← hsa, hw]
  · intro h responses i chunk hc hp
    have hso := applySemanticSplits_sound sqrt tableToSegments chunks responses
    obtain ⟨slot, hsl⟩ : ∃ slot, (applySemanticSplits sqrt (pendingRequests chunks)
        (firstSlots tableToSegments chunks) responses)[i]? = some slot := by
      have hlt : i < (applySemanticSplits sqrt (pendingRequests chunks)
          (firstSlots tableToSegments chunks) responses).length := by
        rw [hso.1]
        exact (List.getElem?_eq_some_iff.mp hc).1
      exact ⟨_, List.getElem?_eq_getElem hlt⟩
    obtain ⟨segments, hs, hsa⟩ := getElem?_handedSegments tableToSegments maxWords hsl
    refine ⟨segments, hs, ?_⟩
    rw [hsa]
    exact (hso.2 i chunk slot hc hp hsl).words_eq
      (h chunk (mem_of_getElem? hc) hp)

private def proseChunk (text : String) : ParsedChunk := ⟨ofString text, .text, 0, ∅⟩

/-- Two pieces are not enough to split, so the number stays whole. -/
theorem decimal_point_is_kept :
    (splitSentences (ofString "Pi is 3.14")).length = 2 ∧ ∀ responses : Responses ℚ,
    ∃ segments, (handedSegments Rat.sqrt (fun _ _ => none) 100 [proseChunk "Pi is 3.14"]
      responses)[0]? = some segments ∧
        segmentWords segments = [ofString "Pi", ofString "is", ofString "3.14"] := by
  refine ⟨by decide +kernel, fun responses => ?_⟩
  have hfew : ∀ chunk ∈ [proseChunk "Pi is 3.14"], chunk.kind ≠ .table →
      (splitSentences chunk.text).length < 3 ∨ ∀ c ∈ chunk.text, isMark c = false := by
    decide +kernel
  obtain ⟨segments, hs, hw⟩ := (cuts_keep_words_iff Rat.sqrt Rat.sqrt_eq
    (fun _ _ => none) 100 [proseChunk "Pi is 3.14"]).mpr hfew responses 0 _ rfl (by decide)
  exact ⟨segments, hs, hw.trans (by decide +kernel)⟩

/-- Three sentences, taken apart before the last: the decimal point of the last one is gone. -/
theorem decimal_point_disappears :
    ¬∀ (tableToSegments : ℕ → ParsedChunk → Option (List SourceSegment)) (maxWords : ℕ)
      (chunks : List ParsedChunk) (responses : Responses ℚ) (i : ℕ) (chunk : ParsedChunk),
      chunks[i]? = some chunk → chunk.kind ≠ .table →
        ∃ segments, (handedSegments Rat.sqrt tableToSegments maxWords chunks responses)[i]? =
          some segments ∧ segmentWords segments = words chunk.text := by
  intro h
  have hc : [proseChunk "Pi is not 3. It is 3.14"][0]? =
      some (proseChunk "Pi is not 3. It is 3.14") := rfl
  obtain ⟨responses, slot, hsl, hl⟩ := exists_cut (fun _ _ => none) Rat.sqrt_eq hc
    (by decide) (by decide +kernel)
  obtain ⟨segments, hs, hw⟩ := h (fun _ _ => none) 100 _ responses 0 _ hc (by decide)
  obtain ⟨handed, hh, hsa⟩ := getElem?_handedSegments (fun _ _ => none) 100 hsl
  obtain rfl := Option.mem_unique hs hh
  have he := hl.symm.trans (hsa.symm.trans hw)
  exact absurd he (by decide +kernel)

end Aizzak.SemanticCuts
