import Aizzak.FirstOccurrences

/-!
Two best-first lists of ids fused by reciprocal ranks, and the pool of the fused ids reordered
by marginal relevance: each pick after the first pays for what it repeats of the earlier ones.
Ties keep the earlier element, so that the best fused id opens both rankings.
-/
namespace Aizzak.RankFusion

open List

section Sorting

variable {α β : Type*} [LinearOrder β] {f : α → β}

theorem head?_insertionSort_desc (f : α → β) (l : List α) :
    (l.insertionSort fun a b => f b ≤ f a).head? = l.argmax f := by
  induction l with
  | nil => rfl
  | cons a l ih =>
    rw [insertionSort_cons, argmax_cons, ← ih]
    cases hs : l.insertionSort fun a b => f b ≤ f a with
    | nil => rfl
    | cons b rest =>
      rw [List.orderedInsert]
      simp only [List.head?_cons]
      by_cases hab : f b ≤ f a
      · rw [if_pos hab, if_neg (not_lt.mpr hab)]
        rfl
      · rw [if_neg hab, if_pos (not_le.mp hab)]
        rfl

/-- A first element that no key is below stays first. -/
theorem head?_insertionSort_of_least {a : α} {l : List α} (h : ∀ b ∈ l, f a ≤ f b) :
    ((a :: l).insertionSort fun a b => f a ≤ f b).head? = some a := by
  rw [insertionSort_cons_of_forall_rel _ h, List.head?_cons]

theorem argmax_cons_of_forall_le {a : α} {l : List α} (h : ∀ b ∈ l, f b ≤ f a) :
    (a :: l).argmax f = some a := by
  rw [argmax_cons]
  cases hmax : l.argmax f with
  | none => rfl
  | some c => exact if_neg (not_lt.mpr (h c (argmax_mem hmax)))

end Sorting

variable {C F : Type} [DecidableEq C] [Field F] [LinearOrder F]

/-- The rank of an id in a dictionary that the list fills in order: a later entry wins. -/
def rankOf (ids : List C) (c : C) : Option ℕ :=
  (ids.zipIdx.reverse.find? (·.1 = c)).map Prod.snd

theorem rankOf_head {c : C} {ids : List C} (h : c ∉ ids) : rankOf (c :: ids) c = some 0 := by
  have hl : (ids.zipIdx 1).reverse.find? (·.1 = c) = none := by
    rw [List.find?_eq_none]
    intro entry he
    have hmem := fst_mem_of_mem_zipIdx (mem_reverse.mp he)
    rw [decide_eq_true_eq]
    rintro rfl
    exact h hmem
  rw [rankOf, zipIdx_cons, reverse_cons, List.find?_append, hl]
  simp

section Fusion

structure FusedChunk (C F : Type) where
  chunkId : C
  score : F
  deriving DecidableEq

def legScore (ids : List C) (weight : F) (rrfK : ℤ) (c : C) : F :=
  (rankOf ids c).elim 0 fun rank => weight * (1 / (rrfK + rank + 1))

def fusedScore (denseIds bm25Ids : List C) (weightDense weightBm25 : F) (rrfK : ℤ) (c : C) : F :=
  legScore denseIds weightDense rrfK c + legScore bm25Ids weightBm25 rrfK c

def dividesByZero (denseIds bm25Ids : List C) (rrfK : ℤ) : Bool :=
  (denseIds ++ bm25Ids).any fun c => (rankOf denseIds c).any (rrfK + · + 1 = 0) ||
    (rankOf bm25Ids c).any (rrfK + · + 1 = 0)

def reciprocalRankFusion (denseIds bm25Ids : List C) (topK : ℕ) (weightDense weightBm25 : F)
    (rrfK : ℤ) : List (FusedChunk C F) :=
  let fused := (denseIds ++ bm25Ids).eraseDups.map fun c =>
    ⟨c, fusedScore denseIds bm25Ids weightDense weightBm25 rrfK c⟩
  (fused.insertionSort fun a b => b.score ≤ a.score).take topK

variable {denseIds bm25Ids : List C} {topK : ℕ} {rrfK : ℤ} {weightDense weightBm25 : F}

/-- The pool before the cut. -/
theorem fused_cases {chunk : FusedChunk C F}
    (h : chunk ∈ reciprocalRankFusion denseIds bm25Ids topK weightDense weightBm25 rrfK) :
    chunk.chunkId ∈ denseIds ++ bm25Ids ∧
      chunk.score = fusedScore denseIds bm25Ids weightDense weightBm25 rrfK chunk.chunkId := by
  have hs := mem_of_mem_take h
  rw [mem_insertionSort, mem_map] at hs
  obtain ⟨c, hc, rfl⟩ := hs
  exact ⟨mem_eraseDups.mp hc, rfl⟩

theorem nodup_fused :
    ((reciprocalRankFusion denseIds bm25Ids topK weightDense weightBm25 rrfK).map
      (·.chunkId)).Nodup := by
  have hf : ((denseIds ++ bm25Ids).eraseDups.map fun c => (⟨c, fusedScore denseIds bm25Ids
      weightDense weightBm25 rrfK c⟩ : FusedChunk C F)).map (·.chunkId) =
        (denseIds ++ bm25Ids).eraseDups := by
    rw [map_map]
    exact map_id _
  refine (((take_sublist _ _).map _).nodup ?_)
  rw [((perm_insertionSort _ _).map _).nodup_iff, hf]
  exact FirstOccurrences.nodup_eraseDups _

theorem head?_fused (hk : 0 < topK) :
    ((reciprocalRankFusion denseIds bm25Ids topK weightDense weightBm25 rrfK).map
      (·.chunkId)).head? = (denseIds ++ bm25Ids).eraseDups.argmax
        (fusedScore denseIds bm25Ids weightDense weightBm25 rrfK) := by
  rw [reciprocalRankFusion, ← map_insertionSort (fun c d => fusedScore denseIds bm25Ids
    weightDense weightBm25 rrfK d ≤ fusedScore denseIds bm25Ids weightDense weightBm25 rrfK c) _
    _ _ fun _ _ _ _ => Iff.rfl, ← map_take, map_map]
  simp only [Function.comp_def, map_id_fun', id_eq, List.head?_take, hk.ne', if_false]
  exact head?_insertionSort_desc _ _

theorem score_le_of_fused {top : FusedChunk C F} {rest : List (FusedChunk C F)}
    (h : reciprocalRankFusion denseIds bm25Ids topK weightDense weightBm25 rrfK = top :: rest) :
    ∀ chunk ∈ rest, chunk.score ≤ top.score := by
  have hk : topK ≠ 0 := by
    rintro rfl
    cases h
  intro chunk hc
  have hmem : chunk ∈ top :: rest := mem_cons_of_mem top hc
  have hh := congrArg List.head? h
  rw [← h] at hmem
  have hs := mem_of_mem_take hmem
  rw [reciprocalRankFusion, List.head?_take, if_neg hk, head?_insertionSort_desc] at hh
  exact le_of_mem_argmax ((mem_insertionSort _).mp hs) hh

end Fusion

section Diversity

structure MmrCandidate (C F : Type) where
  chunkId : C
  relevance : F
  vector : List F

def unit (sqrt : F → F) (vector : List F) : List F :=
  let norm := sqrt (vector.map fun x => x * x).sum
  if norm = 0 then vector else vector.map (· / norm)

/-- A shorter vector ends the product. -/
def dot (a b : List F) : F := (List.zipWith (· * ·) a b).sum

/-- The picks, in at most `n` rounds. The redundancy of an index is its greatest similarity to
the earlier picks; the first pick has none, and sets it. -/
def picks (weight : F) (relevance : ℕ → F) (units : ℕ → List F) :
    ℕ → List ℕ → (ℕ → F) → Bool → List ℕ
  | 0, _, _, _ => []
  | n + 1, remaining, redundancy, first =>
    match remaining.argmax fun i => weight * relevance i - (1 - weight) * redundancy i with
    | none => []
    | some best =>
      let similarity := fun i => dot (units i) (units best)
      best :: picks weight relevance units n (remaining.erase best)
        (fun i => if first then similarity i else max (redundancy i) (similarity i)) false

def maximalMarginalRelevance (sqrt : F → F) (candidates : List (MmrCandidate C F)) (topN : ℕ)
    (mmrLambda : F) : List C :=
  let bestRelevance := ((candidates.map (·.relevance)).max?).getD 0
  let relevance := fun i : ℕ =>
    if 0 < bestRelevance then (candidates[i]?.elim 0 (·.relevance)) / bestRelevance else 0
  let units := fun i : ℕ => candidates[i]?.elim [] fun candidate => unit sqrt candidate.vector
  (picks (min 1 (max 0 mmrLambda)) relevance units topN (List.range candidates.length)
    (fun _ => 0) true).filterMap fun i => candidates[i]?.map (·.chunkId)

/-- The pool in the order of its picks, the rest behind them in its own order, cut. -/
def mmrRerank (sqrt : F → F) (fused : List (FusedChunk C F)) (vectors : C → Option (List F))
    (topN : ℕ) (mmrLambda : F) : List (FusedChunk C F) :=
  let candidates := fused.filterMap fun chunk =>
    (vectors chunk.chunkId).map (⟨chunk.chunkId, chunk.score, ·⟩)
  if candidates = [] then fused.take topN
  else
    let order := rankOf (maximalMarginalRelevance sqrt candidates topN mmrLambda)
    let key := fun chunk : FusedChunk C F => (order chunk.chunkId).getD fused.length
    (fused.insertionSort fun a b => key a ≤ key b).take topN

variable {sqrt : F → F} {topN : ℕ} {mmrLambda : F}

theorem picks_subset {weight : F} {relevance : ℕ → F} {units : ℕ → List F} {n : ℕ}
    {remaining : List ℕ} {redundancy : ℕ → F} {first : Bool} :
    ∀ i ∈ picks weight relevance units n remaining redundancy first, i ∈ remaining := by
  induction n generalizing remaining redundancy first with
  | zero => exact fun _ h => absurd h not_mem_nil
  | succ n ih =>
    rw [picks]
    cases hbest : remaining.argmax
        fun i => weight * relevance i - (1 - weight) * redundancy i with
    | none => exact fun _ h => absurd h not_mem_nil
    | some best =>
      rw [forall_mem_cons]
      exact ⟨argmax_mem hbest, fun i hi => mem_of_mem_erase (ih i hi)⟩

theorem picks_of_argmax {weight : F} {relevance : ℕ → F} {units : ℕ → List F} {n best : ℕ}
    {remaining : List ℕ} {redundancy : ℕ → F} {first : Bool}
    (h : remaining.argmax (fun i => weight * relevance i - (1 - weight) * redundancy i) =
      some best) :
    picks weight relevance units (n + 1) remaining redundancy first =
      best :: picks weight relevance units n (remaining.erase best)
        (fun i => if first then dot (units i) (units best)
          else max (redundancy i) (dot (units i) (units best))) false := by
  rw [picks, h]

variable [IsStrictOrderedRing F]

omit [DecidableEq C] in
/-- The most relevant candidate opens the selection. -/
theorem exists_mmr_cons (sqrt : F → F) (mmrLambda : F) {c : MmrCandidate C F}
    {rest : List (MmrCandidate C F)} (hbest : ∀ d ∈ rest, d.relevance ≤ c.relevance)
    (hn : 0 < topN) :
    ∃ later, maximalMarginalRelevance sqrt (c :: rest) topN mmrLambda = c.chunkId :: later ∧
      ∀ id ∈ later, id ∈ rest.map (·.chunkId) := by
  obtain ⟨n, rfl⟩ : ∃ n, topN = n + 1 := ⟨topN - 1, by omega⟩
  unfold maximalMarginalRelevance
  dsimp only
  set bestRelevance := (((c :: rest).map (·.relevance)).max?).getD 0
  set weight : F := min 1 (max 0 mmrLambda)
  have hweight : 0 ≤ weight := le_min zero_le_one (le_max_left 0 mmrLambda)
  have hopens : (List.range (c :: rest).length).argmax (fun i => weight *
      (if 0 < bestRelevance then ((c :: rest)[i]?.elim 0 (·.relevance)) / bestRelevance else 0) -
        (1 - weight) * (0 : F)) = some 0 := by
    rw [length_cons, range_succ_eq_map]
    refine argmax_cons_of_forall_le fun i hi => ?_
    obtain ⟨j, hj, rfl⟩ := mem_map.mp hi
    have hjlt : j < rest.length := mem_range.mp hj
    simp only [Nat.succ_eq_add_one, List.getElem?_cons_succ, List.getElem?_cons_zero,
      List.getElem?_eq_getElem hjlt, Option.elim_some, mul_zero, sub_zero]
    refine mul_le_mul_of_nonneg_left ?_ hweight
    split_ifs with hpos
    · exact div_le_div_of_nonneg_right (hbest _ (getElem_mem hjlt)) hpos.le
    · exact le_rfl
  rw [picks_of_argmax hopens]
  refine ⟨_, filterMap_cons_some rfl, ?_⟩
  intro id hid
  obtain ⟨i, hi, hsome⟩ := mem_filterMap.mp hid
  have herase := picks_subset i hi
  have hne : i ≠ 0 := by
    rintro rfl
    exact nodup_range.not_mem_erase herase
  obtain ⟨j, rfl⟩ := Nat.exists_eq_succ_of_ne_zero hne
  rw [Nat.succ_eq_add_one, List.getElem?_cons_succ, Option.map_eq_some_iff] at hsome
  obtain ⟨d, hd, rfl⟩ := hsome
  exact mem_map_of_mem (mem_of_getElem? hd)

omit [IsStrictOrderedRing F] in
/-- Reordering keeps what is in the pool, and loses only what the cut loses. -/
theorem mmrRerank_eq_take (fused : List (FusedChunk C F)) (vectors : C → Option (List F)) :
    ∃ ranked : List (FusedChunk C F), ranked.Perm fused ∧
      mmrRerank sqrt fused vectors topN mmrLambda = ranked.take topN := by
  rw [mmrRerank]
  split
  · exact ⟨fused, List.Perm.refl _, rfl⟩
  · exact ⟨_, perm_insertionSort _ _, rfl⟩

/-- The best of the pool opens the reordered pool when everything in the pool has a vector. -/
theorem head?_mmrRerank {top : FusedChunk C F} {rest : List (FusedChunk C F)}
    {vectors : C → Option (List F)} (hbest : ∀ chunk ∈ rest, chunk.score ≤ top.score)
    (hids : ((top :: rest).map (·.chunkId)).Nodup)
    (hve : ∀ chunk ∈ top :: rest, (vectors chunk.chunkId).isSome) (hn : 0 < topN) :
    (mmrRerank sqrt (top :: rest) vectors topN mmrLambda).head? = some top := by
  have hf : ∀ l : List (FusedChunk C F), l.head? = some top →
      (l.take topN).head? = some top := by
    intro l hl
    rw [List.head?_take, if_neg hn.ne', hl]
  obtain ⟨v, hv⟩ := Option.isSome_iff_exists.mp (hve top mem_cons_self)
  set others : List (MmrCandidate C F) := rest.filterMap fun chunk =>
    (vectors chunk.chunkId).map (⟨chunk.chunkId, chunk.score, ·⟩) with ho
  have hmem : ∀ d ∈ others, ∃ chunk ∈ rest, d.chunkId = chunk.chunkId ∧
      d.relevance = chunk.score := by
    intro d hd
    obtain ⟨chunk, hch, hd⟩ := mem_filterMap.mp hd
    obtain ⟨w, -, rfl⟩ := Option.map_eq_some_iff.mp hd
    exact ⟨chunk, hch, rfl, rfl⟩
  have hc : (top :: rest).filterMap (fun chunk => (vectors chunk.chunkId).map
      (⟨chunk.chunkId, chunk.score, ·⟩)) = ⟨top.chunkId, top.score, v⟩ :: others := by
    rw [filterMap_cons, hv]
    rfl
  have hr : ∀ d ∈ others, d.relevance ≤ top.score := by
    intro d hd
    obtain ⟨chunk, hch, -, hs⟩ := hmem d hd
    exact hs ▸ hbest chunk hch
  obtain ⟨later, hla, his⟩ : ∃ later, maximalMarginalRelevance sqrt
      (⟨top.chunkId, top.score, v⟩ :: others) topN mmrLambda = top.chunkId :: later ∧
        ∀ id ∈ later, id ∈ others.map (·.chunkId) :=
    exists_mmr_cons sqrt mmrLambda hr hn
  have htop : top.chunkId ∉ later := by
    intro hid
    obtain ⟨d, hd, heq⟩ := mem_map.mp (his _ hid)
    obtain ⟨chunk, hch, hid', -⟩ := hmem d hd
    rw [map_cons, nodup_cons] at hids
    exact hids.1 (mem_map.mpr ⟨chunk, hch, hid'.symm.trans heq⟩)
  unfold mmrRerank
  simp only [hc, cons_ne_nil, if_false, hla]
  refine hf _ (head?_insertionSort_of_least fun chunk _ => ?_)
  rw [rankOf_head htop]
  exact Nat.zero_le _

end Diversity

end Aizzak.RankFusion
