import Aizzak.GreedyPicks
import Aizzak.RankFusion

/-!
Marginal relevance against its definition, over the real numbers. The redundancy of a candidate
is kept up to date pick by pick; it is always the greatest cosine to the earlier picks, so that
each pick is the earliest of greatest marginal score. The weight of the relevance is held
between zero and one, and where no relevance is positive all of them count as zero.
-/
namespace Aizzak.MarginalRelevance

open GreedyPicks RankFusion List

section Selection

variable {F : Type} [Field F] [LinearOrder F]

/-- The greatest similarity to the earlier picks, or zero where there are none. -/
def redundancyOf (similarity : ℕ → ℕ → F) (earlier : List ℕ) (i : ℕ) : F :=
  ((earlier.map (similarity i)).max?).getD 0

def marginalScore (weight : F) (relevance : ℕ → F) (similarity : ℕ → ℕ → F)
    (earlier : List ℕ) (i : ℕ) : F :=
  weight * relevance i - (1 - weight) * redundancyOf similarity earlier i

/-- One more pick is taken into the redundancy by one comparison. -/
theorem redundancyOf_concat (similarity : ℕ → ℕ → F) (earlier : List ℕ) (best i : ℕ) :
    redundancyOf similarity (earlier ++ [best]) i =
      if earlier.isEmpty then similarity i best
      else max (redundancyOf similarity earlier i) (similarity i best) := by
  cases earlier with
  | nil => rfl
  | cons first earlier =>
    rw [redundancyOf, redundancyOf, cons_append, map_cons, map_cons,
      List.max?_cons', List.max?_cons', map_append, foldl_append]
    rfl

theorem filter_erase {total best : ℕ} {earlier : List ℕ} :
    ((List.range total).filter (· ∉ earlier)).erase best =
      (List.range total).filter (· ∉ earlier ++ [best]) := by
  rw [(nodup_range.filter _).erase_eq_filter, filter_filter]
  apply filter_congr
  intro i _
  by_cases hb : i = best
  · simp [hb]
  · simp [hb]

theorem picks_greedyAfter {weight : F} {relevance : ℕ → F} {units : ℕ → List F} {total : ℕ}
    (n : ℕ) {earlier remaining : List ℕ} {redundancy : ℕ → F} {first : Bool}
    (hre : remaining = (List.range total).filter (· ∉ earlier))
    (hr : ∀ i, redundancy i =
      redundancyOf (fun i j => dot (units i) (units j)) earlier i)
    (hf : first = earlier.isEmpty) :
    GreedyAfter (marginalScore weight relevance fun i j => dot (units i) (units j)) total earlier
      (picks weight relevance units n remaining redundancy first) := by
  induction n generalizing earlier remaining redundancy first with
  | zero => exact greedyAfter_nil
  | succ n ih =>
    have hs : (fun i => weight * relevance i - (1 - weight) * redundancy i) =
        marginalScore weight relevance (fun i j => dot (units i) (units j)) earlier := by
      funext i
      rw [hr, marginalScore]
    rw [picks]
    cases hb : remaining.argmax
        fun i => weight * relevance i - (1 - weight) * redundancy i with
    | none => exact greedyAfter_nil
    | some best =>
      rw [hs, hre] at hb
      apply GreedyAfter.cons (isPick_of_argmax hb)
      apply ih
      · rw [hre, filter_erase]
      · intro i
        rw [redundancyOf_concat, hf, hr]
      · simp

theorem length_picks {weight : F} {relevance : ℕ → F} {units : ℕ → List F} (n : ℕ)
    {remaining : List ℕ} {redundancy : ℕ → F} {first : Bool} :
    (picks weight relevance units n remaining redundancy first).length =
      min n remaining.length := by
  induction n generalizing remaining redundancy first with
  | zero => rw [picks, length_nil, Nat.zero_min]
  | succ n ih =>
    rw [picks]
    cases hb : remaining.argmax
        fun i => weight * relevance i - (1 - weight) * redundancy i with
    | none =>
      rw [argmax_eq_none.mp hb]
      rfl
    | some best =>
      have hmem := argmax_mem hb
      have hpos := length_pos_of_mem hmem
      simp only [length_cons]
      rw [ih, length_erase_of_mem hmem]
      omega

end Selection

section Positions

variable {C F : Type} [Field F] [LinearOrder F]

def bestRelevance (candidates : List (MmrCandidate C F)) : F :=
  ((candidates.map (·.relevance)).max?).getD 0

def relevanceAt (candidates : List (MmrCandidate C F)) (i : ℕ) : F :=
  candidates[i]?.elim 0 (·.relevance)

def relevanceShare (candidates : List (MmrCandidate C F)) (i : ℕ) : F :=
  if 0 < bestRelevance candidates then relevanceAt candidates i / bestRelevance candidates else 0

def unitAt (sqrt : F → F) (candidates : List (MmrCandidate C F)) (i : ℕ) : List F :=
  candidates[i]?.elim [] fun candidate => unit sqrt candidate.vector

def mmrWeight (mmrLambda : F) : F := min 1 (max 0 mmrLambda)

def mmrPositions (sqrt : F → F) (candidates : List (MmrCandidate C F)) (topN : ℤ)
    (mmrLambda : F) : List ℕ :=
  picks (mmrWeight mmrLambda) (relevanceShare candidates) (unitAt sqrt candidates) topN.toNat
    (List.range candidates.length) (fun _ => 0) true

def mmrSelection (sqrt : F → F) (candidates : List (MmrCandidate C F)) (topN : ℤ)
    (mmrLambda : F) : List C :=
  if topN ≤ 0 ∨ candidates.isEmpty then []
  else maximalMarginalRelevance sqrt candidates topN.toNat mmrLambda

variable {sqrt : F → F} {topN : ℤ}

theorem length_mmrPositions {candidates : List (MmrCandidate C F)} {mmrLambda : F} :
    (mmrPositions sqrt candidates topN mmrLambda).length =
      min topN.toNat candidates.length := by
  rw [mmrPositions, length_picks, length_range]

theorem mmrSelection_eq {candidates : List (MmrCandidate C F)} {mmrLambda : F} :
    mmrSelection sqrt candidates topN mmrLambda =
      (mmrPositions sqrt candidates topN mmrLambda).filterMap
        fun i => candidates[i]?.map (·.chunkId) := by
  rw [mmrSelection]
  split_ifs with hn
  · have he : mmrPositions sqrt candidates topN mmrLambda = [] := by
      apply eq_nil_of_length_eq_zero
      rw [length_mmrPositions]
      rcases hn with hle | hnil
      · omega
      · rw [isEmpty_iff.mp hnil, length_nil, Nat.min_zero]
    rw [he, filterMap_nil]
  · rfl

theorem mmrPositions_greedy (sqrt : F → F) (candidates : List (MmrCandidate C F)) (topN : ℤ)
    (mmrLambda : F) :
    Greedy (marginalScore (mmrWeight mmrLambda) (relevanceShare candidates) fun i j =>
      dot (unitAt sqrt candidates i) (unitAt sqrt candidates j)) candidates.length
        (mmrPositions sqrt candidates topN mmrLambda) := by
  apply picks_greedyAfter
  · simp
  · exact fun _ => rfl
  · rfl

variable [IsStrictOrderedRing F] {candidates : List (MmrCandidate C F)} {mmrLambda : F}

/-- With a positive best the shares are ordered as the relevances. -/
theorem relevanceShare_le_iff (hb : 0 < bestRelevance candidates) (i j : ℕ) :
    relevanceShare candidates i ≤ relevanceShare candidates j ↔
      relevanceAt candidates i ≤ relevanceAt candidates j := by
  rw [relevanceShare, if_pos hb, relevanceShare, if_pos hb, div_le_div_iff_of_pos_right hb]

theorem mmrWeight_pos (h : 0 < mmrLambda) : 0 < mmrWeight mmrLambda :=
  lt_min zero_lt_one (lt_max_of_lt_right h)

omit [IsStrictOrderedRing F] in
theorem mmrWeight_of_one_le (h : 1 ≤ mmrLambda) : mmrWeight mmrLambda = 1 :=
  min_eq_left (le_max_of_le_right h)

/-- The first pick is the earliest candidate of highest relevance. -/
theorem head_mmrPositions (hl : 0 < mmrLambda) (hb : 0 < bestRelevance candidates)
    (hn : 0 < topN) :
    ∃ top, (mmrPositions sqrt candidates topN mmrLambda).head? = some top ∧
      top < candidates.length ∧ ∀ i < candidates.length,
        relevanceAt candidates i ≤ relevanceAt candidates top ∧
          (relevanceAt candidates i = relevanceAt candidates top → top ≤ i) := by
  have hg := mmrPositions_greedy sqrt candidates topN mmrLambda
  have hle : 0 < candidates.length := by
    apply length_pos_of_ne_nil
    intro hnil
    rw [bestRelevance, hnil] at hb
    exact lt_irrefl _ hb
  have ht : (mmrPositions sqrt candidates topN mmrLambda).length =
      min topN.toNat candidates.length := length_mmrPositions
  cases hp : mmrPositions sqrt candidates topN mmrLambda with
  | nil =>
    rw [hp, length_nil] at ht
    omega
  | cons top later =>
    obtain ⟨hlt, -, hm, hf⟩ := hg [] top later hp
    have hs : ∀ i j, marginalScore (mmrWeight mmrLambda) (relevanceShare candidates)
        (fun i j => dot (unitAt sqrt candidates i) (unitAt sqrt candidates j)) [] i ≤
          marginalScore (mmrWeight mmrLambda) (relevanceShare candidates)
            (fun i j => dot (unitAt sqrt candidates i) (unitAt sqrt candidates j)) [] j ↔
        relevanceAt candidates i ≤ relevanceAt candidates j := by
      intro i j
      rw [← relevanceShare_le_iff hb, marginalScore, marginalScore]
      simp only [redundancyOf, map_nil, List.max?_nil, Option.getD_none, mul_zero, sub_zero]
      exact mul_le_mul_iff_right₀ (mmrWeight_pos hl)
    refine ⟨top, rfl, hlt, fun i hi => ⟨?_, fun heq => ?_⟩⟩
    · exact (hs i top).mp (hm i hi not_mem_nil)
    · apply hf i hi not_mem_nil
      exact le_antisymm ((hs i top).mpr heq.le) ((hs top i).mpr heq.ge)

/-- Relevance alone gives the stable order by descending relevance. -/
theorem mmrPositions_of_one_le (hl : 1 ≤ mmrLambda) (hb : 0 < bestRelevance candidates) :
    mmrPositions sqrt candidates topN mmrLambda =
      ((List.range candidates.length).insertionSort fun i j =>
        relevanceAt candidates j ≤ relevanceAt candidates i).take topN.toNat := by
  have hg := mmrPositions_greedy sqrt candidates topN mmrLambda
  rw [mmrWeight_of_one_le hl] at hg
  have hr : Greedy (fun _ => relevanceAt candidates) candidates.length
      (mmrPositions sqrt candidates topN mmrLambda) := by
    refine hg.of_le_iff fun earlier i j => ?_
    rw [marginalScore, marginalScore, sub_self, zero_mul, zero_mul, sub_zero, sub_zero, one_mul,
      one_mul, relevanceShare_le_iff hb]
  apply hr.eq_of_length (greedy_insertionSort _ _)
  rw [length_mmrPositions, length_take, length_insertionSort, length_range]

end Positions

section Cosine

noncomputable def cosine (a b : List ℝ) : ℝ :=
  dot a b / (√ (a.map fun x => x * x).sum * √ (b.map fun x => x * x).sum)

theorem dot_map_div (a b : List ℝ) (x y : ℝ) :
    dot (a.map (· / x)) (b.map (· / y)) = dot a b / (x * y) := by
  induction a generalizing b with
  | nil => simp [dot]
  | cons c a ih =>
    cases b with
    | nil => simp [dot]
    | cons d b =>
      have hr := ih b
      simp only [dot, map_cons, zipWith_cons_cons, sum_cons] at hr ⊢
      rw [hr]
      ring

theorem dot_eq_zero_left {a b : List ℝ} (h : ∀ x ∈ a, x = 0) : dot a b = 0 := by
  induction a generalizing b with
  | nil => simp [dot]
  | cons c a ih =>
    cases b with
    | nil => simp [dot]
    | cons d b =>
      have hr := ih (b := b) fun x hx => h x (mem_cons_of_mem c hx)
      rw [dot] at hr
      rw [dot, zipWith_cons_cons, sum_cons, hr, h c mem_cons_self]
      ring

theorem dot_comm (a b : List ℝ) : dot a b = dot b a := by
  rw [dot, dot, zipWith_comm]
  congr 2
  funext x y
  exact mul_comm y x

theorem eq_zero_of_norm {a : List ℝ} (h : √ (a.map fun x => x * x).sum = 0) :
    ∀ x ∈ a, x = 0 := by
  intro x hx
  have hs : ∀ y ∈ a.map fun x => x * x, 0 ≤ y := by
    intro y hy
    obtain ⟨z, -, rfl⟩ := mem_map.mp hy
    exact mul_self_nonneg z
  have hle := single_le_sum hs (x * x) (mem_map.mpr ⟨x, hx, rfl⟩)
  have hsum := Real.sqrt_eq_zero'.mp h
  exact mul_self_eq_zero.mp (le_antisymm (hle.trans hsum) (mul_self_nonneg x))

/-- The product of two scaled vectors is the cosine. -/
theorem dot_unit (a b : List ℝ) : dot (unit Real.sqrt a) (unit Real.sqrt b) = cosine a b := by
  rw [cosine]
  by_cases ha : √ (a.map fun x => x * x).sum = 0
  · rw [unit, if_pos ha, dot_eq_zero_left (eq_zero_of_norm ha), ha]
    simp
  · by_cases hb : √ (b.map fun x => x * x).sum = 0
    · rw [dot_comm, unit, if_pos hb, dot_eq_zero_left (eq_zero_of_norm hb), hb]
      simp
    · rw [unit, if_neg ha, unit, if_neg hb, dot_map_div]

end Cosine

section Textbook

variable {C : Type}

noncomputable def cosineAt (candidates : List (MmrCandidate C ℝ)) (i j : ℕ) : ℝ :=
  cosine (candidates[i]?.elim [] (·.vector)) (candidates[j]?.elim [] (·.vector))

theorem dot_unitAt (candidates : List (MmrCandidate C ℝ)) (i j : ℕ) :
    dot (unitAt Real.sqrt candidates i) (unitAt Real.sqrt candidates j) =
      cosineAt candidates i j := by
  have hu : ∀ i, unitAt Real.sqrt candidates i =
      unit Real.sqrt (candidates[i]?.elim [] (·.vector)) := by
    intro i
    cases h : candidates[i]? with
    | none =>
      rw [unitAt, h]
      simp [unit]
    | some candidate => rw [unitAt, h, Option.elim_some, Option.elim_some]
  rw [hu, hu, dot_unit, cosineAt]

/-- The selection picks greedily by the marginal score of the definition. -/
theorem mmrSelection_textbook (candidates : List (MmrCandidate C ℝ)) (topN : ℤ)
    (mmrLambda : ℝ) :
    ∃ positions : List ℕ,
      mmrSelection Real.sqrt candidates topN mmrLambda =
        positions.filterMap (fun i => candidates[i]?.map (·.chunkId)) ∧
      positions.length = min topN.toNat candidates.length ∧ positions.Nodup ∧
      Greedy (marginalScore (min 1 (max 0 mmrLambda)) (relevanceShare candidates)
        (cosineAt candidates)) candidates.length positions ∧
      (0 < mmrLambda → 0 < bestRelevance candidates → 0 < topN →
        ∃ top, positions.head? = some top ∧ top < candidates.length ∧
          ∀ i < candidates.length, relevanceAt candidates i ≤ relevanceAt candidates top ∧
            (relevanceAt candidates i = relevanceAt candidates top → top ≤ i)) ∧
      (1 ≤ mmrLambda → 0 < bestRelevance candidates →
        positions = ((List.range candidates.length).insertionSort fun i j =>
          relevanceAt candidates j ≤ relevanceAt candidates i).take topN.toNat) := by
  have hg := mmrPositions_greedy Real.sqrt candidates topN mmrLambda
  refine ⟨mmrPositions Real.sqrt candidates topN mmrLambda, mmrSelection_eq,
    length_mmrPositions, hg.nodup, ?_, head_mmrPositions, mmrPositions_of_one_le⟩
  have hc : (fun i j => dot (unitAt Real.sqrt candidates i) (unitAt Real.sqrt candidates j)) =
      cosineAt candidates := by
    funext i j
    exact dot_unitAt candidates i j
  rw [hc] at hg
  exact hg

def negatives : List (MmrCandidate ℕ ℝ) := [⟨0, -2, [1]⟩, ⟨1, -1, [1]⟩]

/-- Where no relevance is positive the relevances do not order the selection. -/
theorem negatives_unordered : mmrSelection Real.sqrt negatives 2 1 ≠
    (negatives.insertionSort fun a b => b.relevance ≤ a.relevance).map (·.chunkId) := by
  have hs : (negatives.insertionSort fun a b => b.relevance ≤ a.relevance).map (·.chunkId) =
      [1, 0] := by
    simp only [negatives, insertionSort_cons, insertionSort_nil, orderedInsert_nil,
      List.orderedInsert]
    norm_num
  have hb : ¬ 0 < bestRelevance negatives := by
    simp only [bestRelevance, negatives, map_cons, map_nil, List.max?_cons',
      foldl_cons, foldl_nil, Option.getD_some]
    norm_num
  have hg := mmrPositions_greedy Real.sqrt negatives 2 1
  have hl : (mmrPositions Real.sqrt negatives 2 1).length = 2 := length_mmrPositions
  intro hsa
  rw [hs, mmrSelection_eq] at hsa
  cases hp : mmrPositions Real.sqrt negatives 2 1 with
  | nil =>
    rw [hp] at hl
    cases hl
  | cons top later =>
    have htop : top ≤ 0 := by
      apply (hg [] top later hp).first 0 (by decide) not_mem_nil
      rw [marginalScore, marginalScore, relevanceShare, if_neg hb, relevanceShare, if_neg hb]
      rfl
    obtain rfl : top = 0 := Nat.le_zero.mp htop
    rw [hp] at hsa
    have hh : some 0 = some 1 := congrArg List.head? hsa
    cases hh

end Textbook

end Aizzak.MarginalRelevance
