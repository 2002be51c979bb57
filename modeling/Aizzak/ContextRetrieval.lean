import Aizzak.LexicalTerms
import Aizzak.ParentWidening
import Aizzak.RankFusion

/-!
What a question retrieves. Each leg's hits pass their floor, are fused and reordered for
diversity, lose near duplicates, are reordered by the reranker where it is on, give their
passages, and are cut to the context budget and to the number asked for. Every stage keeps the
candidates distinct, and none before the reranker moves the best one from the front.
-/
namespace Aizzak.ContextRetrieval

open EventRuns IndexedParents ParentWidening PyText RankFusion List
open Tokenization (UnicodeDatabase isArabic tokenize)

structure Payload (C : Type) where
  documentId : C
  text : Text
  seq : ℤ
  fileName : Option Text
  pageNumber : Option ℤ
  sectionName : Option Text

structure VectorHit (C F : Type) where
  id : C
  score : F
  payload : Payload C
  vector : Option (List F)

structure RerankedDocument (F : Type) where
  index : ℤ
  score : F

structure RetrievedChunk (C F : Type) where
  documentId : C
  chunkId : C
  text : Text
  score : F
  fileName : Option Text
  pageNumber : Option ℤ
  sectionName : Option Text

structure RetrievalResult (C F : Type) where
  chunks : List (RetrievedChunk C F)
  bestDenseScore : Option F
  bestBm25Score : Option F

structure RetrievalTuning (F : Type) where
  weightDense : F
  weightBm25 : F
  rrfK : ℤ
  maxSearchCandidates : ℕ
  fusionRetention : ℕ
  defaultK : ℤ
  maxK : ℤ
  minDenseScore : F
  minBm25Score : F
  minFusedScore : F
  relativeFloor : F
  jaccardThreshold : F
  maxParentChunkChars : ℤ
  mmrLambda : F
  mmrOverfetch : ℕ
  rerankEnabled : Bool
  rerankCandidates : ℤ
  maxContextChars : ℤ
  maxContextTokens : ℤ

inductive RetrievalError where
  | emptyQuery
  | spaceRequired
  | unencodableText
  | zeroDivision
  deriving DecidableEq

variable {C F : Type} [Field F] [LinearOrder F]

def gateByScore (hits : List (VectorHit C F)) (minScore : F) : List (VectorHit C F) :=
  if minScore ≤ 0 then hits else hits.filter (minScore ≤ ·.score)

section Relevance

def jaccard (a b : Finset Text) : F :=
  if a ∪ b = ∅ then 0 else ((a ∩ b).card : F) / (a ∪ b).card

def losers (db : UnicodeDatabase) (candidates : List (ScoredChunk C F)) (threshold : F) :
    List ℕ :=
  candidates.zipIdx.flatMap fun (a, i) =>
    (candidates.zipIdx.filter fun (b, j) => i < j ∧ threshold ≤
      jaccard (tokenize db a.text).toFinset (tokenize db b.text).toFinset).map fun (b, j) =>
        if b.score ≤ a.score then j else i

def dedupNearDuplicates (db : UnicodeDatabase) (candidates : List (ScoredChunk C F))
    (threshold : F) : List (ScoredChunk C F) :=
  (candidates.zipIdx.filter (·.2 ∉ losers db candidates threshold)).map Prod.fst

def relativeSurvivors (survivors : List (ScoredChunk C F)) (relativeFloor : F) :
    List (ScoredChunk C F) :=
  match (survivors.map (·.score)).max? with
  | none => survivors
  | some best =>
    if 0 < relativeFloor then survivors.filter (relativeFloor * best ≤ ·.score) else survivors

def filterRelevant (db : UnicodeDatabase) (candidates : List (ScoredChunk C F))
    (minScore relativeFloor jaccardThreshold : F) : List (ScoredChunk C F) :=
  let survivors :=
    relativeSurvivors (candidates.filter (minScore ≤ ·.score)) relativeFloor
  if survivors.length < 2 then survivors
  else dedupNearDuplicates db survivors jaccardThreshold

end Relevance

section Reranking

/-- The positions that the reranker placed; a position out of range or placed already is
skipped. -/
def placed (count : ℕ) (ranked : List (RerankedDocument F)) : List ℕ :=
  ranked.foldl (fun before document =>
    if 0 ≤ document.index ∧ document.index < (count : ℤ) ∧ document.index.toNat ∉ before then
      before ++ [document.index.toNat]
    else before) []

def applyRerank (candidates : List (ScoredChunk C F)) (ranked : List (RerankedDocument F)) :
    List (ScoredChunk C F) :=
  let first := placed candidates.length ranked
  let rest := (List.range candidates.length).filter (· ∉ first)
  (first ++ rest).filterMap (candidates[·]?)

/-- The reranker reads the head of the candidates; it answers nothing in an outage. -/
def rerank (reranker : Option (Text → List Text → Option (List (RerankedDocument F))))
    (tuning : RetrievalTuning F) (query : Text) (candidates : List (ScoredChunk C F)) :
    List (ScoredChunk C F) :=
  match reranker with
  | none => candidates
  | some answer =>
    if tuning.rerankEnabled = false ∨ candidates = [] then candidates
    else
      let scope := sliceTo candidates tuning.rerankCandidates
      match answer query (scope.map (·.text)) with
      | none => candidates
      | some ranked => applyRerank scope ranked ++ candidates.drop scope.length

end Reranking

section Budget

/-- Two Arabic characters a token, four of any other, rounded up. -/
def estimateTokens (text : Text) : ℕ :=
  let arabic := text.countP isArabic
  (2 * arabic + (text.length - arabic) + 3) / 4

def fitFrom {β : Type} (maxChars maxTokens : ℤ) : Bool → ℕ → ℕ → List (β × Text) → List β
  | _, _, _, [] => []
  | kept, usedChars, usedTokens, (item, rendered) :: rest =>
    let chars := usedChars + rendered.length
    let tokens := usedTokens + estimateTokens rendered
    if kept ∧ (maxChars < chars ∨ maxTokens < tokens) then []
    else item :: fitFrom maxChars maxTokens true chars tokens rest

def fitToContextBudget {β : Type} (candidates : List (β × Text)) (maxChars maxTokens : ℤ) :
    List β :=
  fitFrom maxChars maxTokens false 0 0 candidates

def formatLabel (fileName : Option Text) (pageNumber : Option ℤ) (sectionName : Option Text) :
    Text :=
  let name := fileName.getD (ofString "unknown")
  let paged := pageNumber.elim name fun page => name ++ ofString s!" p.{page}"
  let sectioned := sectionName.elim paged fun title => paged ++ ofString " | section: " ++ title
  ofString "[" ++ sectioned ++ ofString "]"

def labeledText (chunk : RetrievedChunk C F) : Text :=
  formatLabel chunk.fileName chunk.pageNumber chunk.sectionName ++ ofString "\n" ++ chunk.text

end Budget

section Execution

variable [DecidableEq C] {P D : Type} [DecidableEq P] [DecidableEq D]

/-- The payload of an id; a hit of the sparse leg overrides one of the dense leg. -/
def payloadOf (hits : List (VectorHit C F)) (id : C) : Option (Payload C) :=
  (hits.reverse.find? (·.id = id)).map (·.payload)

def vectorOf (hits : List (VectorHit C F)) (id : C) : Option (List F) :=
  (hits.reverse.find? fun hit => hit.id = id ∧ hit.vector.isSome).bind (·.vector)

def toScoredChunk (chunk : FusedChunk C F) (payload : Payload C) : ScoredChunk C F :=
  ⟨chunk.chunkId, payload.documentId, payload.text, chunk.score, payload.seq⟩

def toRetrievedChunk (chunk : ScoredChunk C F) (payload : Payload C) : RetrievedChunk C F :=
  ⟨chunk.documentId, chunk.chunkId, chunk.text, chunk.score, payload.fileName,
    payload.pageNumber, payload.sectionName⟩

def resultCount (tuning : RetrievalTuning F) (k : Option ℤ) : ℕ :=
  (max 1 (min (k.getD tuning.defaultK) tuning.maxK)).toNat

variable (db : UnicodeDatabase) (fp : Fingerprints D) (sqrt : F → F)
  (tuning : RetrievalTuning F)

def fusedPool (count : ℕ) (dense sparse : List (VectorHit C F)) : List (FusedChunk C F) :=
  reciprocalRankFusion (dense.map (·.id)) (sparse.map (·.id))
    (min (count * tuning.mmrOverfetch) tuning.maxSearchCandidates) tuning.weightDense
    tuning.weightBm25 tuning.rrfK

def retained (count : ℕ) (dense sparse : List (VectorHit C F)) : List (FusedChunk C F) :=
  mmrRerank sqrt (fusedPool tuning count dense sparse) (vectorOf (dense ++ sparse))
    (min (count * tuning.fusionRetention) tuning.maxSearchCandidates) tuning.mmrLambda

def scoredChunks (count : ℕ) (dense sparse : List (VectorHit C F)) : List (ScoredChunk C F) :=
  (retained sqrt tuning count dense sparse).filterMap fun chunk =>
    (payloadOf (dense ++ sparse) chunk.chunkId).map (toScoredChunk chunk)

def relevantChunks (count : ℕ) (dense sparse : List (VectorHit C F)) :
    List (ScoredChunk C F) :=
  filterRelevant db (scoredChunks sqrt tuning count dense sparse) tuning.minFusedScore
    tuning.relativeFloor tuning.jaccardThreshold

def retrievedChunks (hits : List (VectorHit C F)) (widened : List (ScoredChunk C F)) :
    List (RetrievedChunk C F) :=
  widened.filterMap fun chunk => (payloadOf hits chunk.chunkId).map (toRetrievedChunk chunk)

def budgeted (hits : List (VectorHit C F)) (chunks : List (ScoredChunk C F)) :
    List (RetrievedChunk C F) :=
  fitToContextBudget ((retrievedChunks hits chunks).map fun chunk => (chunk, labeledText chunk))
    tuning.maxContextChars tuning.maxContextTokens

/-- The fusion of a pool that is not empty meets a rank it cannot divide by. -/
def fusionRaises (count : ℕ) (dense sparse : List (VectorHit C F)) : Bool :=
  0 < min (count * tuning.mmrOverfetch) tuning.maxSearchCandidates &&
    dividesByZero (dense.map (·.id)) (sparse.map (·.id)) tuning.rrfK

variable (parents : C → Option (ParentChunkText P))
  (reranker : Option (Text → List Text → Option (List (RerankedDocument F))))

def retrieveContext (query spaceId : Text) (k : Option ℤ) (documentIds : Option (List C))
    (denseHits sparseHits : List (VectorHit C F)) :
    Except RetrievalError (RetrievalResult C F) :=
  if Blank query then .error .emptyQuery
  else if Blank spaceId then .error .spaceRequired
  else if documentIds = some [] then .ok ⟨[], none, none⟩
  else
    let count := resultCount tuning k
    let dense := gateByScore denseHits tuning.minDenseScore
    let sparse := gateByScore sparseHits tuning.minBm25Score
    if fusionRaises tuning count dense sparse then .error .zeroDivision
    else
      let relevant :=
        rerank reranker tuning query (relevantChunks db sqrt tuning count dense sparse)
      match widenToParents fp parents tuning.maxParentChunkChars relevant with
      | none => .error .unencodableText
      | some widening =>
        .ok
          { chunks := (budgeted tuning (dense ++ sparse) widening.chunks).take count
            bestDenseScore := (denseHits.map (·.score)).max?
            bestBm25Score := (sparseHits.map (·.score)).max? }

end Execution

section Stages

variable {C F : Type} [Field F] [LinearOrder F] {db : UnicodeDatabase}
  {candidates : List (ScoredChunk C F)} {top : ScoredChunk C F}

structure LedBy (top : ScoredChunk C F) (candidates : List (ScoredChunk C F)) : Prop where
  head : candidates.head? = some top
  best : ∀ c ∈ candidates, c.score ≤ top.score

omit [Field F] in
/-- A floor that lets any candidate pass lets the best one pass. -/
theorem LedBy.filter (h : LedBy top candidates) (floor : F)
    (hne : candidates.filter (floor ≤ ·.score) ≠ []) :
    LedBy top (candidates.filter (floor ≤ ·.score)) := by
  obtain ⟨rest, rfl⟩ := List.head?_eq_some_iff.mp h.head
  obtain ⟨c, hc⟩ := exists_mem_of_ne_nil _ hne
  rw [mem_filter, decide_eq_true_eq] at hc
  have htop : floor ≤ top.score := hc.2.trans (h.best c hc.1)
  have hkept : (top :: rest).filter (floor ≤ ·.score) = top :: rest.filter (floor ≤ ·.score) :=
    filter_cons_of_pos (decide_eq_true htop)
  exact ⟨hkept ▸ List.head?_cons, fun d hd => h.best d (mem_of_mem_filter hd)⟩

variable {threshold : F}

theorem zero_notMem_losers {rest : List (ScoredChunk C F)}
    (h : ∀ c ∈ top :: rest, c.score ≤ top.score) : 0 ∉ losers db (top :: rest) threshold := by
  intro hz
  obtain ⟨⟨a, i⟩, hai, hp⟩ := mem_flatMap.mp hz
  obtain ⟨⟨b, j⟩, hbj, heq⟩ := mem_map.mp hp
  rw [mem_filter, decide_eq_true_eq] at hbj
  simp only at heq hbj
  split_ifs at heq with hs
  · omega
  · subst heq
    have ha : a = top := by
      have := mem_zipIdx hai
      simpa using this.2.2
    subst ha
    exact hs (h b (fst_mem_of_mem_zipIdx hbj.1))

theorem dedup_sublist :
    (dedupNearDuplicates db candidates threshold).Sublist candidates := by
  have hsub := (filter_sublist (l := candidates.zipIdx)
    (p := (·.2 ∉ losers db candidates threshold))).map Prod.fst
  rwa [zipIdx_map_fst] at hsub

/-- No near duplicate displaces the best candidate. -/
theorem LedBy.dedup (h : LedBy top candidates) (threshold : F) :
    LedBy top (dedupNearDuplicates db candidates threshold) := by
  refine ⟨?_, fun c hc => h.best c (dedup_sublist.subset hc)⟩
  obtain ⟨rest, rfl⟩ := List.head?_eq_some_iff.mp h.head
  have hkept : ((top, 0) :: rest.zipIdx 1).filter
      (·.2 ∉ losers db (top :: rest) threshold) = (top, 0) :: (rest.zipIdx 1).filter
        (·.2 ∉ losers db (top :: rest) threshold) :=
    filter_cons_of_pos (decide_eq_true (zero_notMem_losers h.best))
  rw [dedupNearDuplicates, zipIdx_cons, hkept]
  rfl

theorem relativeSurvivors_cases (candidates : List (ScoredChunk C F)) (relativeFloor : F) :
    relativeSurvivors candidates relativeFloor = candidates ∨
      ∃ floor, relativeSurvivors candidates relativeFloor =
        candidates.filter (floor ≤ ·.score) := by
  unfold relativeSurvivors
  split
  · exact .inl rfl
  · split_ifs
    · exact .inr ⟨_, rfl⟩
    · exact .inl rfl

variable {minScore relativeFloor : F}

theorem filterRelevant_sublist :
    (filterRelevant db candidates minScore relativeFloor threshold).Sublist candidates := by
  have hs : (relativeSurvivors (candidates.filter (minScore ≤ ·.score))
      relativeFloor).Sublist candidates := by
    rcases relativeSurvivors_cases (candidates.filter (minScore ≤ ·.score)) relativeFloor
      with h | ⟨floor, h⟩
    · rw [h]
      exact filter_sublist
    · rw [h]
      exact filter_sublist.trans filter_sublist
  unfold filterRelevant
  dsimp only
  split_ifs
  · exact hs
  · exact dedup_sublist.trans hs

/-- Whatever is relevant, the best candidate is in front of it. -/
theorem LedBy.filterRelevant (h : LedBy top candidates)
    (hne : filterRelevant db candidates minScore relativeFloor threshold ≠ []) :
    LedBy top (filterRelevant db candidates minScore relativeFloor threshold) := by
  have hsu : relativeSurvivors (candidates.filter (minScore ≤ ·.score)) relativeFloor ≠ [] →
      LedBy top (relativeSurvivors (candidates.filter (minScore ≤ ·.score)) relativeFloor) := by
    intro hs
    rcases relativeSurvivors_cases (candidates.filter (minScore ≤ ·.score)) relativeFloor
      with heq | ⟨floor, heq⟩
    · rw [heq] at hs ⊢
      exact h.filter minScore hs
    · rw [heq] at hs ⊢
      refine (h.filter minScore fun hn => hs ?_).filter floor hs
      rw [hn, filter_nil]
  unfold ContextRetrieval.filterRelevant at hne ⊢
  dsimp only at hne ⊢
  split_ifs at hne ⊢ with hfew
  · exact hsu hne
  · refine (hsu fun hn => hfew ?_).dedup threshold
    rw [hn]
    exact Nat.zero_lt_two

theorem filterRelevant_ne_nil (h : LedBy top candidates) (hs : 0 ≤ top.score)
    (hmin : minScore ≤ 0) (hoff : relativeFloor ≤ 0) :
    filterRelevant db candidates minScore relativeFloor threshold ≠ [] := by
  have hmem : top ∈ candidates := mem_of_head? h.head
  have hkept : candidates.filter (minScore ≤ ·.score) ≠ [] :=
    ne_nil_of_mem (mem_filter.mpr ⟨hmem, decide_eq_true (hmin.trans hs)⟩)
  have hsu : relativeSurvivors (candidates.filter (minScore ≤ ·.score)) relativeFloor =
      candidates.filter (minScore ≤ ·.score) := by
    unfold relativeSurvivors
    split
    · rfl
    · exact if_neg (not_lt.mpr hoff)
  unfold filterRelevant
  dsimp only
  rw [hsu]
  split_ifs
  · exact hkept
  · intro hn
    have hled : (dedupNearDuplicates db (candidates.filter (minScore ≤ ·.score))
        threshold).head? = some top := ((h.filter minScore hkept).dedup threshold).head
    rw [hn] at hled
    cases hled

end Stages

section Reranking

variable {C F : Type} {candidates : List (ScoredChunk C F)}

/-- The reranker's answer is cleaned of repetitions and of positions out of range. -/
theorem placed_spec (count : ℕ) (ranked : List (RerankedDocument F)) :
    (placed count ranked).Nodup ∧ ∀ i ∈ placed count ranked, i < count := by
  have hf : ∀ before : List ℕ, (before.Nodup ∧ ∀ i ∈ before, i < count) →
      ((ranked.foldl (fun before document =>
        if 0 ≤ document.index ∧ document.index < (count : ℤ) ∧
            document.index.toNat ∉ before then
          before ++ [document.index.toNat]
        else before) before).Nodup ∧ ∀ i ∈ ranked.foldl (fun before document =>
        if 0 ≤ document.index ∧ document.index < (count : ℤ) ∧
            document.index.toNat ∉ before then
          before ++ [document.index.toNat]
        else before) before, i < count) := by
    induction ranked with
    | nil => exact fun _ h => h
    | cons document ranked ih =>
      intro before hb
      rw [foldl_cons]
      refine ih _ ?_
      split_ifs with hp
      · obtain ⟨hlow, hh, hnew⟩ := hp
        refine ⟨?_, ?_⟩
        · rw [nodup_append]
          refine ⟨hb.1, nodup_singleton _, fun i hi j hj => ?_⟩
          rw [mem_singleton.mp hj]
          rintro rfl
          exact hnew hi
        · rw [forall_mem_append, forall_mem_singleton]
          exact ⟨hb.2, by omega⟩
      · exact hb
  exact hf [] ⟨nodup_nil, fun _ h => absurd h not_mem_nil⟩

theorem filterMap_range_getElem? {α : Type*} (l : List α) :
    (List.range l.length).filterMap (l[·]?) = l := by
  induction l with
  | nil => rfl
  | cons a l ih =>
    have ht : (List.map Nat.succ (List.range l.length)).filterMap ((a :: l)[·]?) = l := by
      rw [filterMap_map]
      exact ih
    rw [length_cons, range_succ_eq_map]
    exact congrArg (a :: ·) ht

/-- The reranker's placements lose no candidate and repeat none. -/
theorem applyRerank_perm (candidates : List (ScoredChunk C F))
    (ranked : List (RerankedDocument F)) : (applyRerank candidates ranked).Perm candidates := by
  obtain ⟨hn, hlt⟩ := placed_spec candidates.length ranked
  have hp : (placed candidates.length ranked ++ (List.range candidates.length).filter
      (· ∉ placed candidates.length ranked)).Perm (List.range candidates.length) := by
    refine (perm_ext_iff_of_nodup ?_ nodup_range).mpr fun i => ?_
    · rw [nodup_append]
      refine ⟨hn, nodup_range.filter _, fun i hi j hj => ?_⟩
      rintro rfl
      exact of_decide_eq_true (mem_filter.mp hj).2 hi
    · rw [mem_append, mem_filter, mem_range, decide_eq_true_eq]
      constructor
      · exact fun h => h.elim (hlt i) And.left
      · intro h
        by_cases hi : i ∈ placed candidates.length ranked
        · exact .inl hi
        · exact .inr ⟨h, hi⟩
  have hpe := hp.filterMap (candidates[·]?)
  rwa [filterMap_range_getElem?] at hpe

theorem sliceTo_append_drop {α : Type} (items : List α) (stop : ℤ) :
    sliceTo items stop ++ items.drop (sliceTo items stop).length = items :=
  (prefix_append_drop ( take_prefix _ _)).symm

theorem rerank_perm (reranker : Option (Text → List Text → Option (List (RerankedDocument F))))
    (tuning : RetrievalTuning F) (query : Text) :
    (rerank reranker tuning query candidates).Perm candidates := by
  unfold rerank
  split
  · exact .refl _
  · split_ifs
    · exact .refl _
    · dsimp only
      split
      · exact .refl _
      · refine ((applyRerank_perm _ _).append_right _).trans ?_
        rw [sliceTo_append_drop]

end Reranking

section Budget

variable {β : Type} {maxChars maxTokens : ℤ}

theorem fitFrom_prefix (kept : Bool) (usedChars usedTokens : ℕ) (items : List (β × Text)) :
    fitFrom maxChars maxTokens kept usedChars usedTokens items <+: items.map Prod.fst := by
  induction items generalizing kept usedChars usedTokens with
  | nil => exact prefix_rfl
  | cons item items ih =>
    simp only [fitFrom]
    split_ifs
    · exact nil_prefix
    · exact cons_prefix_cons.mpr ⟨rfl, ih _ _ _⟩

/-- The budget cuts the end alone and never everything. -/
theorem fitToContextBudget_cons (maxChars maxTokens : ℤ) (item : β × Text)
    (items : List (β × Text)) :
    ∃ rest, fitToContextBudget (item :: items) maxChars maxTokens = item.1 :: rest := by
  rw [fitToContextBudget, fitFrom]
  exact ⟨_, if_neg fun h => Bool.false_ne_true h.1⟩

end Budget

section Passages

variable {C F P D : Type} [DecidableEq P] [DecidableEq D] {fp : Fingerprints D}
  {parents : C → Option (ParentChunkText P)} {maxChars : ℤ} {p q : Progress C P F D}
  {candidate entry : ScoredChunk C F} {done : List (ScoredChunk C F)}

def completeParent (parents : C → Option (ParentChunkText P)) (c : C) : Option P :=
  ((parents c).filter (·.isComplete)).map (·.id)

/-- What the loop has gathered of the candidates it has seen: each once, each parent once, each
text once. -/
structure Gathered (fp : Fingerprints D) (parents : C → Option (ParentChunkText P))
    (done : List (ScoredChunk C F)) (p : Progress C P F D) : Prop where
  ids : (p.widened.map (·.chunkId)).Sublist (done.map (·.chunkId))
  texts : p.widened.map (fun e => textFingerprint fp e.text) = p.seenText.reverse.map some
  freshTexts : p.seenText.Nodup
  seen : ∀ id ∈ p.widened.filterMap (completeParent parents ·.chunkId), id ∈ p.seenParentIds
  freshParents : (p.widened.filterMap (completeParent parents ·.chunkId)).Nodup

omit [DecidableEq P] in
theorem Gathered.deliver (h : Gathered fp parents done p)
    (hid : entry.chunkId = candidate.chunkId)
    (hnew : ∀ id, completeParent parents candidate.chunkId = some id →
      id ∈ p.seenParentIds ∧
        id ∉ p.widened.filterMap (completeParent parents ·.chunkId))
    (hdeliver : p.deliver fp entry = some q) : Gathered fp parents (done ++ [candidate]) q := by
  obtain ⟨d, hd, rfl⟩ := Option.map_eq_some_iff.mp hdeliver
  have hids := h.ids.trans (sublist_append_left _ ([candidate].map (·.chunkId)))
  rw [← map_append] at hids
  split_ifs with hseen
  · exact ⟨hids, h.texts, h.freshTexts, h.seen, h.freshParents⟩
  · have hparents : (p.widened ++ [entry]).filterMap (completeParent parents ·.chunkId) =
        p.widened.filterMap (completeParent parents ·.chunkId) ++
          (completeParent parents candidate.chunkId).toList := by
      rw [filterMap_append, ← hid]
      cases hparent : completeParent parents entry.chunkId <;> simp [hparent]
    refine ⟨?_, ?_, nodup_cons.mpr ⟨hseen, h.freshTexts⟩, ?_, ?_⟩
    · simp only [map_append, map_cons, map_nil, hid]
      exact h.ids.append_right _
    · simp [h.texts, hd]
    · simp only [hparents, forall_mem_append, Option.mem_toList]
      exact ⟨h.seen, fun id hid => (hnew id hid).1⟩
    · simp only [hparents]
      cases hparent : completeParent parents candidate.chunkId with
      | none => simpa using h.freshParents
      | some id =>
        rw [Option.toList_some, nodup_append]
        refine ⟨h.freshParents, nodup_singleton id, fun other hother id' hid' => ?_⟩
        rw [mem_singleton.mp hid']
        rintro rfl
        exact (hnew other hparent).2 hother

theorem Gathered.widenCandidate (h : Gathered fp parents done p)
    (hs : widenCandidate fp parents maxChars p candidate = some q) :
    Gathered fp parents (done ++ [candidate]) q := by
  have hown : completeParent parents candidate.chunkId = none →
      p.deliver fp candidate = some q → Gathered fp parents (done ++ [candidate]) q :=
    fun hn => h.deliver rfl fun id hid => absurd (hn ▸ hid) nofun
  rw [ParentWidening.widenCandidate] at hs
  split at hs
  · rename_i hparent
    exact hown (by rw [completeParent, hparent]; rfl) hs
  · rename_i parent hparent
    split_ifs at hs with hco hseen
    · cases hs
      refine ⟨?_, h.texts, h.freshTexts, h.seen, h.freshParents⟩
      have hids := h.ids.trans (sublist_append_left _ ([candidate].map (·.chunkId)))
      rwa [← map_append] at hids
    · have hid : completeParent parents candidate.chunkId = some parent.id := by
        simp [completeParent, hparent, hco]
      have hg : Gathered fp parents done
          { p with seenParentIds := parent.id :: p.seenParentIds } :=
        ⟨h.ids, h.texts, h.freshTexts, fun id hid => mem_cons_of_mem _ (h.seen id hid),
          h.freshParents⟩
      have hp : ({ candidate with text := capParentText parent.text maxChars } :
          ScoredChunk C F).chunkId = candidate.chunkId := rfl
      refine hg.deliver hp (fun id hparentId => ?_) hs
      obtain rfl := Option.mem_unique hid hparentId
      exact ⟨mem_cons_self, fun hmem => hseen (h.seen _ hmem)⟩
    · exact hown (by simp [completeParent, hparent, hco]) hs

variable {candidates : List (ScoredChunk C F)}

theorem Gathered.run (h : Gathered fp parents done p)
    (hrun : run (ParentWidening.widenCandidate fp parents maxChars) p candidates = some q) :
    Gathered fp parents (done ++ candidates) q := by
  induction candidates generalizing p done with
  | nil =>
    cases hrun
    rwa [append_nil]
  | cons candidate candidates ih =>
    obtain ⟨next, hn, hr⟩ := run_cons_eq_some hrun
    have hl := ih (h.widenCandidate hn) hr
    rwa [append_assoc] at hl

omit [DecidableEq P] [DecidableEq D] in
theorem gathered_init : Gathered fp parents [] (Progress.init : Progress C P F D) :=
  ⟨List.Sublist.refl _, rfl, nodup_nil, fun _ h => absurd h not_mem_nil, nodup_nil⟩

theorem prefix_widened_run
    (hrun : run (ParentWidening.widenCandidate fp parents maxChars) p candidates = some q) :
    p.widened <+: q.widened := by
  induction candidates generalizing p with
  | nil =>
    cases hrun
    exact prefix_rfl
  | cons candidate candidates ih =>
    obtain ⟨next, hn, hr⟩ := run_cons_eq_some hrun
    exact (prefix_widened hn).trans (ih hr)

/-- The first candidate's passage is delivered first. -/
theorem exists_widened_cons
    (hrun : run (ParentWidening.widenCandidate fp parents maxChars) Progress.init
      (candidate :: candidates) = some q) :
    ∃ entry rest, q.widened = entry :: rest ∧ entry.chunkId = candidate.chunkId := by
  obtain ⟨next, hn, hr⟩ := run_cons_eq_some hrun
  have hde : ∀ {p : Progress C P F D} {e : ScoredChunk C F}, p.widened = [] →
      p.seenText = [] → p.deliver fp e = some next → next.widened = [e] := by
    intro p e hw ht hn
    rw [widened_deliver hn, hw, Progress.repeats, ht]
    simp
  have hf : ∃ entry, next.widened = [entry] ∧ entry.chunkId = candidate.chunkId := by
    rw [ParentWidening.widenCandidate] at hn
    split at hn
    · exact ⟨candidate, hde rfl rfl hn, rfl⟩
    · split_ifs at hn with hco hseen
      · exact absurd hseen not_mem_nil
      · exact ⟨_, hde rfl rfl hn, rfl⟩
      · exact ⟨candidate, hde rfl rfl hn, rfl⟩
  obtain ⟨entry, he, hid⟩ := hf
  obtain ⟨rest, hq⟩ := prefix_widened_run hr
  exact ⟨entry, rest, by rw [← hq, he]; rfl, hid⟩

end Passages

section Pipeline

variable {C F P D : Type} [DecidableEq C] [DecidableEq P] [DecidableEq D] {fp : Fingerprints D}
  {db : UnicodeDatabase} {sqrt : F → F} {count maxChars : ℕ} {id : C} {top : ScoredChunk C F}

theorem map_filterMap {α β γ : Type*} {l : List α} {f : α → Option β} {g : β → γ} {h : α → γ}
    (hs : ∀ a ∈ l, ∃ b, f a = some b ∧ g b = h a) : (l.filterMap f).map g = l.map h := by
  induction l with
  | nil => rfl
  | cons a l ih =>
    obtain ⟨⟨b, hb, hg⟩, hr⟩ := forall_mem_cons.mp hs
    rw [filterMap_cons_some hb, map_cons, map_cons, hg, ih hr]

variable {hits : List (VectorHit C F)}

theorem exists_payloadOf (h : id ∈ hits.map (·.id)) :
    ∃ payload, payloadOf hits id = some payload := by
  obtain ⟨hit, hhit, hid⟩ := mem_map.mp h
  have hf : (hits.reverse.find? (·.id = id)).isSome :=
    List.find?_isSome.mpr ⟨hit, mem_reverse.mpr hhit, decide_eq_true hid⟩
  obtain ⟨found, hf⟩ := Option.isSome_iff_exists.mp hf
  exact ⟨found.payload, by rw [payloadOf, hf]; rfl⟩

theorem isSome_vectorOf (hv : ∀ hit ∈ hits, hit.vector.isSome) (h : id ∈ hits.map (·.id)) :
    (vectorOf hits id).isSome := by
  obtain ⟨hit, hhit, hid⟩ := mem_map.mp h
  have hf : (hits.reverse.find? fun hit => hit.id = id ∧ hit.vector.isSome).isSome :=
    List.find?_isSome.mpr
      ⟨hit, mem_reverse.mpr hhit, decide_eq_true ⟨hid, hv hit hhit⟩⟩
  obtain ⟨found, hf⟩ := Option.isSome_iff_exists.mp hf
  rw [vectorOf, hf]
  exact hv found (mem_reverse.mp (mem_of_find?_eq_some hf))

variable [Field F] [LinearOrder F] {tuning : RetrievalTuning F}

omit [DecidableEq C] in
theorem gateByScore_subset {minScore : F} :
    gateByScore hits minScore ⊆ hits := by
  rw [gateByScore]
  split_ifs
  · exact List.Subset.refl _
  · exact filter_sublist.subset

omit [DecidableEq C] in
theorem gateByScore_append_subset {denseHits sparseHits : List (VectorHit C F)}
    {minDense minSparse : F} : gateByScore denseHits minDense ++ gateByScore sparseHits minSparse ⊆
      denseHits ++ sparseHits := by
  intro hit hhit
  rw [mem_append] at hhit ⊢
  exact hhit.imp (gateByScore_subset ·) (gateByScore_subset ·)

variable {dense sparse : List (VectorHit C F)}

theorem retained_subset :
    retained sqrt tuning count dense sparse ⊆ fusedPool tuning count dense sparse := by
  obtain ⟨ranked, hp, ht⟩ := mmrRerank_eq_take (fusedPool tuning count dense sparse)
    (vectorOf (dense ++ sparse))
  intro chunk hch
  rw [retained, ht] at hch
  exact hp.subset (mem_of_mem_take hch)

theorem nodup_retained : ((retained sqrt tuning count dense sparse).map (·.chunkId)).Nodup := by
  obtain ⟨ranked, hp, ht⟩ := mmrRerank_eq_take (fusedPool tuning count dense sparse)
    (vectorOf (dense ++ sparse))
  rw [retained, ht]
  exact ((take_sublist _ _).map _).nodup ((hp.map _).nodup_iff.mpr nodup_fused)

theorem mem_hits_of_retained {chunk : FusedChunk C F}
    (h : chunk ∈ retained sqrt tuning count dense sparse) :
    chunk.chunkId ∈ (dense ++ sparse).map (·.id) := by
  rw [map_append]
  exact (fused_cases (retained_subset h)).1

theorem scoredChunks_map {β : Type} (f : C → F → β) :
    (scoredChunks sqrt tuning count dense sparse).map (fun c => f c.chunkId c.score) =
      (retained sqrt tuning count dense sparse).map fun c => f c.chunkId c.score := by
  refine map_filterMap fun chunk hch => ?_
  obtain ⟨payload, hp⟩ := exists_payloadOf (mem_hits_of_retained hch)
  exact ⟨toScoredChunk chunk payload, by rw [hp]; rfl, rfl⟩

theorem relevantChunks_ids :
    ((relevantChunks db sqrt tuning count dense sparse).map (·.chunkId)).Nodup ∧
      ∀ chunk ∈ relevantChunks db sqrt tuning count dense sparse,
        chunk.chunkId ∈ (dense ++ sparse).map (·.id) := by
  have hsub : (relevantChunks db sqrt tuning count dense sparse).Sublist
      (scoredChunks sqrt tuning count dense sparse) := filterRelevant_sublist
  have hids := hsub.map (·.chunkId)
  rw [scoredChunks_map fun c _ => c] at hids
  refine ⟨hids.nodup nodup_retained, fun chunk hch => ?_⟩
  obtain ⟨kept, hkept, hid⟩ := mem_map.mp (hids.subset (mem_map_of_mem hch))
  exact hid ▸ mem_hits_of_retained hkept

structure RetrievalTuning.PoolOpen (tuning : RetrievalTuning F) : Prop where
  candidates_pos : 0 < tuning.maxSearchCandidates
  overfetch_pos : 0 < tuning.mmrOverfetch
  retention_pos : 0 < tuning.fusionRetention

def hitScore (tuning : RetrievalTuning F) (dense sparse : List (VectorHit C F)) (id : C) : F :=
  fusedScore (dense.map (·.id)) (sparse.map (·.id)) tuning.weightDense tuning.weightBm25
    tuning.rrfK id

def bestHit (tuning : RetrievalTuning F) (dense sparse : List (VectorHit C F)) : Option C :=
  ((dense ++ sparse).map (·.id)).eraseDups.argmax (hitScore tuning dense sparse)

variable [IsStrictOrderedRing F]

/-- The answer is led by the best hit of the pool. -/
theorem ledBy_scoredChunks (hv : ∀ hit ∈ dense ++ sparse, hit.vector.isSome)
    (hfo : dense ++ sparse ≠ []) (hco : 0 < count) (ho : tuning.PoolOpen) :
    ∃ top, LedBy top (scoredChunks sqrt tuning count dense sparse) ∧
      bestHit tuning dense sparse = some top.chunkId ∧
      top.score = hitScore tuning dense sparse top.chunkId := by
  have hh : ((fusedPool tuning count dense sparse).map (·.chunkId)).head? =
      bestHit tuning dense sparse := by
    rw [bestHit, map_append]
    exact head?_fused (lt_min (Nat.mul_pos hco ho.overfetch_pos) ho.candidates_pos)
  cases hpo : fusedPool tuning count dense sparse with
  | nil =>
    rw [hpo, map_nil, List.head?_nil, eq_comm, bestHit, argmax_eq_none] at hh
    obtain ⟨hit, hhit⟩ := exists_mem_of_ne_nil _ hfo
    have hid := mem_eraseDups.mpr (mem_map_of_mem (f := (·.id)) hhit)
    rw [hh] at hid
    exact absurd hid not_mem_nil
  | cons best rest =>
    have hs : ∀ chunk ∈ best :: rest, chunk.score ≤ best.score :=
      forall_mem_cons.mpr ⟨le_rfl, score_le_of_fused hpo⟩
    have hids : ∀ chunk ∈ best :: rest, chunk.chunkId ∈ (dense ++ sparse).map (·.id) := by
      intro chunk hch
      rw [map_append]
      exact (fused_cases (hpo ▸ hch)).1
    have hf : (retained sqrt tuning count dense sparse).head? = some best := by
      rw [retained, hpo]
      refine head?_mmrRerank (score_le_of_fused hpo) ?_
        (fun chunk hch => isSome_vectorOf hv (hids chunk hch))
        (lt_min (Nat.mul_pos hco ho.retention_pos) ho.candidates_pos)
      exact hpo ▸ nodup_fused
    have hp : (scoredChunks sqrt tuning count dense sparse).map
        (fun c => (c.chunkId, c.score)) =
          (retained sqrt tuning count dense sparse).map fun c => (c.chunkId, c.score) :=
      scoredChunks_map Prod.mk
    have hpa := congrArg List.head? hp
    rw [List.head?_map, List.head?_map, hf, Option.map_some, Option.map_eq_some_iff] at hpa
    obtain ⟨top, htop, heq⟩ := hpa
    obtain ⟨hid, hsc⟩ := Prod.mk.inj heq
    refine ⟨top, ⟨htop, fun c hc => ?_⟩, ?_, ?_⟩
    · have hmem := mem_map_of_mem (f := fun c => (c.chunkId, c.score)) hc
      rw [hp] at hmem
      obtain ⟨chunk, hch, hpa⟩ := mem_map.mp hmem
      rw [hsc, ← (Prod.mk.inj hpa).2]
      exact hs chunk (hpo ▸ retained_subset hch)
    · rw [← hh, hpo, hid]
      rfl
    · rw [hsc, hid]
      exact (fused_cases (hpo ▸ mem_cons_self : best ∈ fusedPool tuning count dense
        sparse)).2

theorem ledBy_relevantChunks (hv : ∀ hit ∈ dense ++ sparse, hit.vector.isSome)
    (hco : 0 < count) (ho : tuning.PoolOpen)
    (hne : relevantChunks db sqrt tuning count dense sparse ≠ []) :
    ∃ top, LedBy top (relevantChunks db sqrt tuning count dense sparse) ∧
      bestHit tuning dense sparse = some top.chunkId := by
  have hf : dense ++ sparse ≠ [] := by
    intro hn
    obtain ⟨chunk, hch⟩ := exists_mem_of_ne_nil _ hne
    have hid := relevantChunks_ids.2 chunk hch
    rw [hn] at hid
    exact absurd hid not_mem_nil
  obtain ⟨top, hled, hb, -⟩ := ledBy_scoredChunks hv hf hco ho
  exact ⟨top, hled.filterRelevant hne, hb⟩

/-- A leg of nonnegative weight gives nothing below zero. -/
theorem hitScore_nonneg (hk : 0 ≤ tuning.rrfK) (hde : 0 ≤ tuning.weightDense)
    (hb : 0 ≤ tuning.weightBm25) (id : C) :
    0 ≤ hitScore tuning dense sparse id := by
  have hleg : ∀ (ids : List C) {weight : F}, 0 ≤ weight →
      0 ≤ legScore ids weight tuning.rrfK id := by
    intro ids weight hw
    rw [legScore]
    cases rankOf ids id with
    | none => exact le_rfl
    | some rank =>
      have hcast : (0 : F) ≤ tuning.rrfK := Int.cast_nonneg hk
      exact mul_nonneg hw (by positivity)
  exact add_nonneg (hleg _ hde) (hleg _ hb)

def RetrievalTuning.FloorsOff (tuning : RetrievalTuning F) : Prop :=
  tuning.minFusedScore ≤ 0 ∧ tuning.relativeFloor ≤ 0

theorem relevantChunks_ne_nil (hv : ∀ hit ∈ dense ++ sparse, hit.vector.isSome)
    (hco : 0 < count) (ho : tuning.PoolOpen) (hf : dense ++ sparse ≠ [])
    (hk : 0 ≤ tuning.rrfK) (hw : 0 ≤ tuning.weightDense ∧ 0 ≤ tuning.weightBm25)
    (hoff : tuning.FloorsOff) :
    relevantChunks db sqrt tuning count dense sparse ≠ [] := by
  obtain ⟨top, hled, -, hs⟩ := ledBy_scoredChunks hv hf hco ho
  refine filterRelevant_ne_nil hled ?_ hoff.1 hoff.2
  rw [hs]
  exact hitScore_nonneg hk hw.1 hw.2 _

end Pipeline

section Delivery

variable {C F P D : Type} [DecidableEq C] {fp : Fingerprints D}
  {parents : C → Option (ParentChunkText P)}
  {tuning : RetrievalTuning F} {hits : List (VectorHit C F)} {widened : List (ScoredChunk C F)}

theorem budgeted_prefix : budgeted tuning hits widened <+: retrievedChunks hits widened := by
  have hids : ((retrievedChunks hits widened).map fun chunk => (chunk, labeledText chunk)).map
      Prod.fst = retrievedChunks hits widened := by
    rw [map_map]
    exact map_id _
  exact hids ▸ fitFrom_prefix false 0 0 _

/-- Everything that has a passage has its payload. -/
theorem retrieved_map {β : Type} (hids : ∀ chunk ∈ widened, chunk.chunkId ∈ hits.map (·.id))
    (f : C → Text → β) :
    (retrievedChunks hits widened).map (fun c => f c.chunkId c.text) =
      widened.map fun c => f c.chunkId c.text := by
  refine map_filterMap fun chunk hch => ?_
  obtain ⟨payload, hp⟩ := exists_payloadOf (hids chunk hch)
  exact ⟨toRetrievedChunk chunk payload, by rw [hp]; rfl, rfl⟩

/-- The budget and the number asked for never cut the first passage. -/
theorem head?_delivered {count : ℕ} (hco : 0 < count) :
    ((budgeted tuning hits widened).take count).head? = (retrievedChunks hits widened).head? := by
  rw [List.head?_take, if_neg hco.ne']
  change (fitToContextBudget ((retrievedChunks hits widened).map fun chunk =>
    (chunk, labeledText chunk)) _ _).head? = _
  cases retrievedChunks hits widened with
  | nil => rfl
  | cons chunk chunks =>
    obtain ⟨rest, hr⟩ := fitToContextBudget_cons tuning.maxContextChars
      tuning.maxContextTokens (chunk, labeledText chunk)
      (chunks.map fun chunk => (chunk, labeledText chunk))
    rw [map_cons, hr]
    rfl

theorem retrieved_distinct {done : List (ScoredChunk C F)} {p : Progress C P F D}
    (h : Gathered fp parents done p) (hids : ∀ chunk ∈ done, chunk.chunkId ∈ hits.map (·.id))
    (hn : (done.map (·.chunkId)).Nodup) :
    (∀ chunk ∈ retrievedChunks hits p.widened, chunk.chunkId ∈ done.map (·.chunkId)) ∧
      ((retrievedChunks hits p.widened).map (·.chunkId)).Nodup ∧
      ((retrievedChunks hits p.widened).filterMap (completeParent parents ·.chunkId)).Nodup ∧
      ((retrievedChunks hits p.widened).map fun c => textFingerprint fp c.text).Nodup := by
  have hmem : ∀ chunk ∈ p.widened, chunk.chunkId ∈ done.map (·.chunkId) := fun chunk hch =>
    h.ids.subset (mem_map_of_mem hch)
  have hh : ∀ chunk ∈ p.widened, chunk.chunkId ∈ hits.map (·.id) := by
    intro chunk hch
    obtain ⟨candidate, hca, hid⟩ := mem_map.mp (hmem chunk hch)
    exact hid ▸ hids candidate hca
  have hchunkIds := retrieved_map hh fun id _ => id
  refine ⟨fun chunk hch => ?_, ?_, ?_, ?_⟩
  · have hid := mem_map_of_mem (f := fun c => c.chunkId) hch
    rw [hchunkIds] at hid
    exact h.ids.subset hid
  · rw [hchunkIds]
    exact h.ids.nodup hn
  · have hparents := congrArg (List.filterMap (completeParent parents)) hchunkIds
    rw [filterMap_map, filterMap_map] at hparents
    exact hparents ▸ h.freshParents
  · rw [retrieved_map hh fun _ text => textFingerprint fp text, h.texts]
    exact (nodup_reverse.mpr h.freshTexts).map (Option.some_injective _)

end Delivery

section Answer

variable {C F P D : Type} [DecidableEq C] [DecidableEq P] [DecidableEq D] {fp : Fingerprints D}
  {db : UnicodeDatabase}
  {sqrt : F → F} {tuning : RetrievalTuning F} {parents : C → Option (ParentChunkText P)}
  {reranker : Option (Text → List Text → Option (List (RerankedDocument F)))}
  {query spaceId : Text} {k : Option ℤ} {documentIds : Option (List C)}
  {denseHits sparseHits : List (VectorHit C F)} {result : RetrievalResult C F}

theorem resultCount_spec (tuning : RetrievalTuning F) (k : Option ℤ) : 0 < resultCount tuning k ∧
    ∀ n, k = some n → 1 ≤ n → (resultCount tuning k : ℤ) ≤ n := by
  refine ⟨?_, ?_⟩
  · rw [resultCount]
    omega
  · rintro n rfl hn
    rw [resultCount, Option.getD_some]
    omega

variable {candidates : List (ScoredChunk C F)}

omit [DecidableEq C] in
theorem rerank_off (h : reranker = none ∨ tuning.rerankEnabled = false) :
    rerank reranker tuning query candidates = candidates := by
  rcases h with rfl | h
  · rfl
  · cases reranker with
    | none => rfl
    | some answer => exact if_pos (.inl h)

/-- The first candidate is the first that is delivered. -/
theorem head?_answer {hits : List (VectorHit C F)} {widening : Widening C F} {count : ℕ}
    (hco : 0 < count) (hids : ∀ chunk ∈ candidates, chunk.chunkId ∈ hits.map (·.id))
    (hwi : widenToParents fp parents tuning.maxParentChunkChars candidates = some widening) :
    (((budgeted tuning hits widening.chunks).take count).head?).map (·.chunkId) =
      candidates.head?.map (·.chunkId) := by
  obtain ⟨p, hrun, rfl⟩ := Option.map_eq_some_iff.mp hwi
  rw [head?_delivered hco]
  cases candidates with
  | nil =>
    cases hrun
    rfl
  | cons candidate candidates =>
    obtain ⟨entry, rest, hw, hid⟩ := exists_widened_cons hrun
    have he : entry.chunkId ∈ hits.map (·.id) := hid ▸ hids candidate mem_cons_self
    obtain ⟨payload, hp⟩ := exists_payloadOf he
    have hf : retrievedChunks hits p.widened =
        toRetrievedChunk entry payload :: retrievedChunks hits rest := by
      rw [hw]
      exact filterMap_cons_some (by rw [hp]; rfl)
    change Option.map (·.chunkId) (retrievedChunks hits p.widened).head? = _
    rw [hf, List.head?_cons, List.head?_cons, Option.map_some, Option.map_some, ← hid]
    rfl

theorem answer_distinct {hits : List (VectorHit C F)} {widening : Widening C F} (count : ℕ)
    (hids : ∀ chunk ∈ candidates, chunk.chunkId ∈ hits.map (·.id))
    (hn : (candidates.map (·.chunkId)).Nodup)
    (hw : widenToParents fp parents tuning.maxParentChunkChars candidates = some widening) :
    let chunks := (budgeted tuning hits widening.chunks).take count
    (∀ chunk ∈ chunks, chunk.chunkId ∈ candidates.map (·.chunkId)) ∧
      (chunks.map (·.chunkId)).Nodup ∧
      (chunks.filterMap (completeParent parents ·.chunkId)).Nodup ∧
      (chunks.map fun chunk => textFingerprint fp chunk.text).Nodup := by
  obtain ⟨p, hrun, rfl⟩ := Option.map_eq_some_iff.mp hw
  have hg := gathered_init.run hrun
  rw [nil_append] at hg
  obtain ⟨hmem, hch, hparents, ht⟩ := retrieved_distinct hg hids hn
  have hl : ((budgeted tuning hits p.widened).take count).Sublist
      (retrievedChunks hits p.widened) :=
    (take_sublist _ _).trans budgeted_prefix.sublist
  exact ⟨fun chunk hcn => hmem chunk (hl.subset hcn), (hl.map _).nodup hch,
    (hl.filterMap _).nodup hparents, (hl.map _).nodup ht⟩

variable [Field F] [LinearOrder F]

def gatedHits (tuning : RetrievalTuning F) (denseHits sparseHits : List (VectorHit C F)) :
    List (VectorHit C F) × List (VectorHit C F) :=
  (gateByScore denseHits tuning.minDenseScore, gateByScore sparseHits tuning.minBm25Score)

theorem reranked_ids {dense sparse : List (VectorHit C F)} {count : ℕ} :
    ((rerank reranker tuning query (relevantChunks db sqrt tuning count dense sparse)).map
      (·.chunkId)).Nodup ∧
      ∀ chunk ∈ rerank reranker tuning query (relevantChunks db sqrt tuning count dense sparse),
        chunk.chunkId ∈ (dense ++ sparse).map (·.id) := by
  obtain ⟨hn, hmem⟩ : ((relevantChunks db sqrt tuning count dense sparse).map
      (·.chunkId)).Nodup ∧ ∀ chunk ∈ relevantChunks db sqrt tuning count dense sparse,
        chunk.chunkId ∈ (dense ++ sparse).map (·.id) := relevantChunks_ids
  exact ⟨((rerank_perm reranker tuning query).map _).nodup_iff.mpr hn,
    fun chunk hch => hmem chunk ((rerank_perm reranker tuning query).subset hch)⟩

variable [IsStrictOrderedRing F]

/-- What is delivered is at most what was asked for, is from the legs, and is distinct in chunks,
in complete parents and in texts. The pool's own best opens it. -/
theorem retrieved_context_spec (hvectors : ∀ hit ∈ denseHits ++ sparseHits, hit.vector.isSome)
    (hopen : tuning.PoolOpen) (hrrfK : 0 ≤ tuning.rrfK)
    (hweights : 0 ≤ tuning.weightDense ∧ 0 ≤ tuning.weightBm25)
    (hresult : retrieveContext db fp sqrt tuning parents reranker query spaceId k documentIds
      denseHits sparseHits = .ok result) :
    (∀ n, k = some n → 1 ≤ n → (result.chunks.length : ℤ) ≤ n) ∧
      (∀ chunk ∈ result.chunks, chunk.chunkId ∈ (denseHits ++ sparseHits).map (·.id)) ∧
      (result.chunks.map (·.chunkId)).Nodup ∧
      (result.chunks.filterMap (completeParent parents ·.chunkId)).Nodup ∧
      (result.chunks.map fun chunk => textFingerprint fp chunk.text).Nodup ∧
      (documentIds ≠ some [] → gatedHits tuning denseHits sparseHits ≠ ([], []) →
        tuning.FloorsOff → result.chunks ≠ []) ∧
      (reranker = none ∨ tuning.rerankEnabled = false →
        ∀ first, result.chunks.head? = some first →
          bestHit tuning (gatedHits tuning denseHits sparseHits).1
            (gatedHits tuning denseHits sparseHits).2 = some first.chunkId) := by
  obtain ⟨hco, ha⟩ := resultCount_spec tuning k
  unfold retrieveContext at hresult
  split_ifs at hresult with hq hsp hsc
  · cases hresult
    refine ⟨fun n _ hn => ?_, by simp, by simp, by simp, by simp, fun h => absurd hsc h, by simp⟩
    exact Int.le_trans (by simp) hn
  · dsimp only at hresult
    split_ifs at hresult
    set dense := gateByScore denseHits tuning.minDenseScore
    set sparse := gateByScore sparseHits tuning.minBm25Score
    set count := resultCount tuning k
    set relevant := relevantChunks db sqrt tuning count dense sparse with hrl
    set reranked := rerank reranker tuning query relevant with hr
    have hg : gatedHits tuning denseHits sparseHits = (dense, sparse) := rfl
    have hs : dense ++ sparse ⊆ denseHits ++ sparseHits := gateByScore_append_subset
    have hgatedVectors : ∀ hit ∈ dense ++ sparse, hit.vector.isSome := fun hit hhit =>
      hvectors hit (hs hhit)
    obtain ⟨hno, hids⟩ : (reranked.map (·.chunkId)).Nodup ∧
      ∀ chunk ∈ reranked, chunk.chunkId ∈ (dense ++ sparse).map (·.id) := reranked_ids
    cases hw : widenToParents fp parents tuning.maxParentChunkChars reranked with
    | none =>
      rw [hw] at hresult
      cases hresult
    | some widening =>
      rw [hw] at hresult
      cases hresult
      have hh := head?_answer hco hids hw
      obtain ⟨hmem, hch, hparents, ht⟩ := 
        answer_distinct count hids hno hw
      dsimp only
      refine ⟨fun n hk hn => ?_, fun chunk hcn => ?_, hch, hparents, ht,
        fun _ hfo hoff hnn => ?_, fun hre first hf => ?_⟩
      · exact (Int.ofNat_le.mpr (length_take_le _ _)).trans (ha n hk hn)
      · obtain ⟨candidate, hca, hid⟩ := mem_map.mp (hmem chunk hcn)
        obtain ⟨hit, hhit, heq⟩ := mem_map.mp (hids candidate hca)
        exact mem_map.mpr ⟨hit, hs hhit, heq.trans hid⟩
      · have hso : relevant ≠ [] := by
          refine relevantChunks_ne_nil hgatedVectors hco hopen (fun hnn => hfo ?_)
            hrrfK hweights hoff
          rw [hg, (append_eq_nil_iff.mp hnn).1, (append_eq_nil_iff.mp hnn).2]
        rw [hnn, List.head?_nil, Option.map_none, eq_comm, Option.map_eq_none_iff,
          List.head?_eq_none_iff] at hh
        have hp : reranked.Perm relevant := rerank_perm reranker tuning query
        exact hso (perm_nil.mp (hh ▸ hp.symm))
      · rw [hf, Option.map_some, hr, rerank_off hre, eq_comm,
          Option.map_eq_some_iff] at hh
        obtain ⟨best, hb, hid⟩ := hh
        obtain ⟨top, hled, htop⟩ := ledBy_relevantChunks hgatedVectors hco hopen
          (ne_nil_of_mem (mem_of_head? hb))
        rw [hg, htop, ← hid, Option.mem_unique hled.head hb]

private def shipped : RetrievalTuning ℚ where
  weightDense := 1 / 2
  weightBm25 := 1 / 2
  rrfK := 60
  maxSearchCandidates := 100
  fusionRetention := 3
  defaultK := 5
  maxK := 50
  minDenseScore := 0
  minBm25Score := 0
  minFusedScore := 0
  relativeFloor := 0
  jaccardThreshold := 95 / 100
  maxParentChunkChars := 4000
  mmrLambda := 7 / 10
  mmrOverfetch := 6
  rerankEnabled := false
  rerankCandidates := 20
  maxContextChars := 12000
  maxContextTokens := 6000

private def pumpHit : VectorHit ℕ ℚ :=
  ⟨1, 9 / 10, ⟨7, ofString "pump", 0, none, none, none⟩, some [1, 0]⟩

private def valveHit : VectorHit ℕ ℚ :=
  ⟨2, 8 / 10, ⟨7, ofString "valve", 1, none, none, none⟩, some [0, 1]⟩

private def plainPrints : Fingerprints Text := ⟨id, List.map Tokenization.asciiLower, id⟩

private def asked (tuning : RetrievalTuning ℚ) (k : Option ℤ) (denseHits sparseHits : List
    (VectorHit ℕ ℚ)) : Except RetrievalError (RetrievalResult ℕ ℚ) :=
  retrieveContext (P := ℕ) LexicalTerms.plainTables plainPrints id tuning (fun _ => none) none
    (ofString "pump") (ofString "plant") k none denseHits sparseHits

private def deliveredIds (answer : Except RetrievalError (RetrievalResult ℕ ℚ)) :
    Option (List ℕ) :=
  answer.toOption.map fun result => result.chunks.map (·.chunkId)

theorem asked_pump_and_valve :
    (∀ hit ∈ [pumpHit] ++ [valveHit, pumpHit], hit.vector.isSome) ∧ shipped.PoolOpen ∧
      ∃ result, asked shipped (some 3) [pumpHit] [valveHit, pumpHit] = .ok result ∧
        (result.chunks.length : ℤ) ≤ 3 ∧ (result.chunks.map (·.chunkId)).Nodup ∧
        result.chunks ≠ [] ∧ ∀ first, result.chunks.head? = some first →
          bestHit shipped [pumpHit] [valveHit, pumpHit] = some first.chunkId := by
  have hv : ∀ hit ∈ [pumpHit] ++ [valveHit, pumpHit], hit.vector.isSome := by
    simp [pumpHit, valveHit]
  have ho : shipped.PoolOpen := ⟨by decide, by decide, by decide⟩
  have hok : (asked shipped (some 3) [pumpHit] [valveHit, pumpHit]).toOption.isSome := by
    decide +kernel
  cases hr : asked shipped (some 3) [pumpHit] [valveHit, pumpHit] with
  | error error =>
    rw [hr] at hok
    cases hok
  | ok result =>
    have hg : gatedHits shipped [pumpHit] [valveHit, pumpHit] =
        ([pumpHit], [valveHit, pumpHit]) := by
      rfl
    obtain ⟨hl, -, hids, -, -, hne, hf⟩ := retrieved_context_spec hv ho (by decide)
      ⟨by norm_num [shipped], by norm_num [shipped]⟩ hr
    refine ⟨hv, ho, result, rfl, hl 3 rfl (by decide), hids, hne nofun ?_ ?_, ?_⟩
    · simp [hg]
    · exact ⟨le_rfl, le_rfl⟩
    · exact hf (.inl rfl)

/-- A question for no chunk gets one; a pool that retains nothing, or a weight or a constant that
counts a leg against its hits, leaves a hit that passed undelivered, and one constant divides by
zero. -/
theorem retrieval_beyond_the_amounts :
    deliveredIds (asked shipped (some 0) [pumpHit] []) = some [1] ∧
      deliveredIds (asked { shipped with fusionRetention := 0 } none [pumpHit] []) = some [] ∧
      deliveredIds (asked { shipped with weightDense := -1 } none [pumpHit] []) = some [] ∧
      deliveredIds (asked { shipped with rrfK := -2 } none [pumpHit] []) = some [] ∧
      deliveredIds (asked { shipped with rrfK := -1 } none [pumpHit] []) = none ∧
      gatedHits shipped [pumpHit] [] ≠ ([], []) ∧ shipped.FloorsOff := by
  refine ⟨by decide +kernel, by decide +kernel, by decide +kernel, by decide +kernel,
    by decide +kernel, ?_, le_rfl, le_rfl⟩
  simp [gatedHits, gateByScore, shipped]

end Answer

end Aizzak.ContextRetrieval
