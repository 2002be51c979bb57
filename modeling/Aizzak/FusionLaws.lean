import Aizzak.FirstOccurrences
import Aizzak.GreedyPicks
import Aizzak.RankFusion

/-!
The laws of rank fusion. The fused list is the cut of one ranking of the union, which is sorted
by score and keeps ties in the order in which the two lists first name the ids. A score is made
of what each list gives to the position of an id, so that an id that is ahead in both lists is
ahead in the ranking, and a single list keeps its own order.
-/
namespace Aizzak.FusionLaws

open FirstOccurrences RankFusion List

section Positions

variable {C : Type} [DecidableEq C] {ids : List C} {c : C}

theorem rankOf_concat (ids : List C) (a c : C) :
    rankOf (ids ++ [a]) c = if a = c then some ids.length else rankOf ids c := by
  rw [rankOf, rankOf, zipIdx_append, reverse_append, zipIdx_singleton,
    reverse_singleton, singleton_append, List.find?_cons]
  by_cases h : a = c
  · simp [h]
  · simp [h]

/-- In a list without duplicates the rank of an id is its position. -/
theorem rankOf_of_nodup (h : ids.Nodup) (c : C) :
    rankOf ids c = if c ∈ ids then some (ids.idxOf c) else none := by
  induction ids using List.reverseRecOn with
  | nil => rfl
  | append_singleton ids a ih =>
    have ha : a ∉ ids := by
      intro hmem
      exact (nodup_append.mp h).2.2 a hmem a (mem_singleton_self a) rfl
    rw [rankOf_concat, ih (nodup_append.mp h).1]
    by_cases hac : a = c
    · subst hac
      rw [if_pos rfl, if_pos (by simp), idxOf_append_of_notMem ha]
      simp
    · by_cases hmem : c ∈ ids
      · rw [if_neg hac, if_pos hmem, if_pos (mem_append_left _ hmem),
          idxOf_append_of_mem hmem]
      · have ho : c ∉ ids ++ [a] := by
          simp [hmem, Ne.symm hac]
        rw [if_neg hac, if_neg hmem, if_neg ho]

/-- The first occurrences stand in the order of their positions. -/
theorem pairwise_eraseDups (l : List C) :
    l.eraseDups.Pairwise fun a b => l.idxOf a < l.idxOf b := by
  induction l using List.reverseRecOn with
  | nil => exact List.Pairwise.nil
  | append_singleton l x ih =>
    have he : l.eraseDups.Pairwise fun a b => (l ++ [x]).idxOf a < (l ++ [x]).idxOf b := by
      apply ih.imp_of_mem
      intro a b ha hb hlt
      rwa [idxOf_append_of_mem (mem_eraseDups.mp ha),
        idxOf_append_of_mem (mem_eraseDups.mp hb)]
    by_cases hx : x ∈ l
    · rwa [eraseDups_concat_of_mem hx]
    · rw [eraseDups_concat_of_notMem hx]
      refine pairwise_append.mpr ⟨he, pairwise_singleton _ x, ?_⟩
      intro a ha b hb
      have hmem := mem_eraseDups.mp ha
      rw [mem_singleton.mp hb, idxOf_append_of_mem hmem,
        idxOf_append_of_notMem hx]
      have hlt := idxOf_lt_length_of_mem hmem
      omega

theorem eraseDups_of_nodup (h : ids.Nodup) : ids.eraseDups = ids := by
  induction ids using List.reverseRecOn with
  | nil => rfl
  | append_singleton ids a ih =>
    obtain ⟨hids, -, hnew⟩ := nodup_append.mp h
    have ha : a ∉ ids := fun hmem => hnew a hmem a (mem_singleton_self a) rfl
    rw [eraseDups_concat_of_notMem ha, ih hids]

theorem length_eraseDups (denseIds bm25Ids : List C) :
    (denseIds ++ bm25Ids).eraseDups.length = (denseIds.toFinset ∪ bm25Ids.toFinset).card := by
  rw [← toFinset_card_of_nodup (nodup_eraseDups _)]
  congr 1
  ext c
  simp

/-- What is ahead of an id in a list, an absent id being behind everything in it. -/
def NoWorse (ids : List C) (a b : C) : Prop :=
  b ∈ ids → a ∈ ids ∧ ids.idxOf a ≤ ids.idxOf b

end Positions

variable {C F : Type} [DecidableEq C] [Field F]

def contribution (ids : List C) (weight : F) (rrfK : ℕ) (c : C) : F :=
  if c ∈ ids then weight * (1 / (rrfK + ids.idxOf c + 1)) else 0

variable {denseIds bm25Ids ids : List C} {weightDense weightBm25 weight : F} {rrfK : ℕ} {a b : C}

theorem legScore_of_nodup (h : ids.Nodup) (weight : F) (rrfK : ℕ) :
    legScore ids weight rrfK = contribution ids weight rrfK := by
  funext c
  rw [legScore, contribution, rankOf_of_nodup h]
  by_cases hmem : c ∈ ids
  · rw [if_pos hmem, if_pos hmem, Option.elim_some, Int.cast_natCast]
  · rw [if_neg hmem, if_neg hmem, Option.elim_none]

variable [LinearOrder F]

def reciprocalRankFusion (denseIds bm25Ids : List C) (topK : ℤ) (weightDense weightBm25 : F)
    (rrfK : ℕ) : List (FusedChunk C F) :=
  if topK ≤ 0 then []
  else RankFusion.reciprocalRankFusion denseIds bm25Ids topK.toNat weightDense weightBm25 rrfK

def ranking (denseIds bm25Ids : List C) (weightDense weightBm25 : F) (rrfK : ℕ) :
    List (FusedChunk C F) :=
  ((denseIds ++ bm25Ids).eraseDups.map fun c =>
    ⟨c, fusedScore denseIds bm25Ids weightDense weightBm25 rrfK c⟩).insertionSort
      fun a b => b.score ≤ a.score

theorem reciprocalRankFusion_eq_take (denseIds bm25Ids : List C) (topK : ℤ)
    (weightDense weightBm25 : F) (rrfK : ℕ) :
    reciprocalRankFusion denseIds bm25Ids topK weightDense weightBm25 rrfK =
      (ranking denseIds bm25Ids weightDense weightBm25 rrfK).take topK.toNat := by
  rw [reciprocalRankFusion]
  by_cases h : topK ≤ 0
  · rw [if_pos h, Int.toNat_of_nonpos h, take_zero]
  · rw [if_neg h]
    rfl

theorem length_ranking : (ranking denseIds bm25Ids weightDense weightBm25 rrfK).length =
    (denseIds.toFinset ∪ bm25Ids.toFinset).card := by
  rw [ranking, length_insertionSort, length_map, length_eraseDups]

theorem pairwise_ranking : (ranking denseIds bm25Ids weightDense weightBm25 rrfK).Pairwise
    fun a b => b.score < a.score ∨ (a.score = b.score ∧
      (denseIds ++ bm25Ids).idxOf a.chunkId < (denseIds ++ bm25Ids).idxOf b.chunkId) := by
  apply GreedyPicks.pairwise_insertionSort_desc
  exact pairwise_map.mpr (pairwise_eraseDups _)

variable [IsStrictOrderedRing F]

theorem contribution_nonneg (hw : 0 ≤ weight) (c : C) :
    0 ≤ contribution ids weight rrfK c := by
  rw [contribution]
  split
  · positivity
  · exact le_rfl

theorem contribution_le (hw : 0 ≤ weight) (h : NoWorse ids a b) :
    contribution ids weight rrfK b ≤ contribution ids weight rrfK a := by
  by_cases hb : b ∈ ids
  · obtain ⟨ha, hle⟩ := h hb
    rw [contribution, contribution, if_pos ha, if_pos hb]
    have hr : (ids.idxOf a : F) ≤ ids.idxOf b := Nat.cast_le.mpr hle
    gcongr
  · rw [contribution, if_neg hb]
    exact contribution_nonneg hw a

theorem contribution_lt (hw : 0 < weight) (h : NoWorse ids a b) (hb : b ∈ ids)
    (hne : a ≠ b) : contribution ids weight rrfK b < contribution ids weight rrfK a := by
  obtain ⟨ha, hle⟩ := h hb
  have hlt : ids.idxOf a < ids.idxOf b := by
    apply lt_of_le_of_ne hle
    intro heq
    exact hne ((idxOf_inj ha).mp heq)
  rw [contribution, contribution, if_pos ha, if_pos hb]
  have hr : (ids.idxOf a : F) < ids.idxOf b := Nat.cast_lt.mpr hlt
  gcongr

/-- An id that is ahead in both lists has no lower score, and a higher one where both weights
count. -/
theorem score_of_noWorse (hd : 0 ≤ weightDense) (hbm : 0 ≤ weightBm25)
    (ha : NoWorse denseIds a b) (ha' : NoWorse bm25Ids a b) :
    contribution denseIds weightDense rrfK b + contribution bm25Ids weightBm25 rrfK b ≤
      contribution denseIds weightDense rrfK a + contribution bm25Ids weightBm25 rrfK a ∧
    (0 < weightDense → 0 < weightBm25 → b ∈ denseIds ++ bm25Ids → a ≠ b →
      contribution denseIds weightDense rrfK b + contribution bm25Ids weightBm25 rrfK b <
        contribution denseIds weightDense rrfK a + contribution bm25Ids weightBm25 rrfK a) := by
  have hle : contribution denseIds weightDense rrfK b ≤ contribution denseIds weightDense rrfK a :=
    contribution_le hd ha
  have hle' : contribution bm25Ids weightBm25 rrfK b ≤ contribution bm25Ids weightBm25 rrfK a :=
    contribution_le hbm ha'
  refine ⟨add_le_add hle hle', fun hpos hp hb hne => ?_⟩
  rcases mem_append.mp hb with hmem | hmem
  · exact add_lt_add_of_lt_of_le (contribution_lt hpos ha hmem hne) hle'
  · exact add_lt_add_of_le_of_lt hle (contribution_lt hp ha' hmem hne)

/-- What earns its score from one list keeps the order of that list. -/
theorem ranking_of_single (hids : ids.Nodup) (hw : 0 ≤ weight)
    (hu : denseIds ++ bm25Ids = ids)
    (hsc : fusedScore denseIds bm25Ids weightDense weightBm25 rrfK =
      contribution ids weight rrfK) :
    (ranking denseIds bm25Ids weightDense weightBm25 rrfK).map (·.chunkId) = ids := by
  have hp := pairwise_eraseDups ids
  rw [eraseDups_of_nodup hids] at hp
  have hs : (ids.map fun c => (⟨c, contribution ids weight rrfK c⟩ :
      FusedChunk C F)).Pairwise fun a b => b.score ≤ a.score := by
    rw [pairwise_map]
    apply hp.imp_of_mem
    intro a b ha _ hlt
    exact contribution_le hw fun _ => ⟨ha, hlt.le⟩
  rw [ranking, hu, hsc, eraseDups_of_nodup hids, hs.insertionSort_eq, map_map]
  exact map_id ids

theorem ranking_nil_left (hids : ids.Nodup) (hw : 0 ≤ weight) (weightDense : F) :
    (ranking [] ids weightDense weight rrfK).map (·.chunkId) = ids := by
  apply ranking_of_single hids hw rfl
  funext c
  rw [fusedScore, legScore_of_nodup hids, legScore_of_nodup nodup_nil, contribution,
    if_neg not_mem_nil, zero_add]

theorem ranking_nil_right (hids : ids.Nodup) (hw : 0 ≤ weight) (weightBm25 : F) :
    (ranking ids [] weight weightBm25 rrfK).map (·.chunkId) = ids := by
  apply ranking_of_single hids hw (append_nil ids)
  funext c
  rw [fusedScore, legScore_of_nodup hids, legScore_of_nodup nodup_nil,
    contribution.eq_1 [], if_neg not_mem_nil, add_zero]

/-- The fused list is a cut of the union in the order of the scores, ties in the order in which
the lists first name the ids. An id ahead of another in both lists does not come behind it
unless they tie, and does not at all where both weights count. -/
structure Lawful (denseIds bm25Ids : List C) (topK : ℤ) (weightDense weightBm25 : F) (rrfK : ℕ)
    (fused : List (FusedChunk C F)) : Prop where
  length_eq : fused.length = min topK.toNat (denseIds.toFinset ∪ bm25Ids.toFinset).card
  nodup : (fused.map (·.chunkId)).Nodup
  chunkId_mem : ∀ chunk ∈ fused, chunk.chunkId ∈ denseIds.toFinset ∪ bm25Ids.toFinset
  score_eq : ∀ chunk ∈ fused, chunk.score =
    contribution denseIds weightDense rrfK chunk.chunkId +
      contribution bm25Ids weightBm25 rrfK chunk.chunkId
  sorted : fused.Pairwise fun a b => b.score < a.score ∨ (a.score = b.score ∧
    (denseIds ++ bm25Ids).idxOf a.chunkId < (denseIds ++ bm25Ids).idxOf b.chunkId)
  dominant : fused.Pairwise fun a b => NoWorse denseIds b.chunkId a.chunkId →
    NoWorse bm25Ids b.chunkId a.chunkId →
      a.score = b.score ∧ ¬(0 < weightDense ∧ 0 < weightBm25)

/-- The fusion of two duplicate-free lists meets the laws. -/
theorem lawful_fused (hd : denseIds.Nodup) (hbm : bm25Ids.Nodup)
    (hweightDense : 0 ≤ weightDense) (hweightBm25 : 0 ≤ weightBm25) (rrfK : ℕ) (topK : ℤ) :
    Lawful denseIds bm25Ids topK weightDense weightBm25 rrfK
      (reciprocalRankFusion denseIds bm25Ids topK weightDense weightBm25 rrfK) := by
  rw [reciprocalRankFusion_eq_take]
  set fused := (ranking denseIds bm25Ids weightDense weightBm25 rrfK).take topK.toNat with hcut
  have hmem : ∀ chunk ∈ fused, chunk.chunkId ∈ denseIds ++ bm25Ids ∧
      chunk.score = contribution denseIds weightDense rrfK chunk.chunkId +
        contribution bm25Ids weightBm25 rrfK chunk.chunkId := by
    intro chunk hc
    rw [hcut] at hc
    have hca := fused_cases hc
    rwa [fusedScore, legScore_of_nodup hd, legScore_of_nodup hbm] at hca
  have hso : fused.Pairwise fun a b => b.score < a.score ∨ (a.score = b.score ∧
      (denseIds ++ bm25Ids).idxOf a.chunkId < (denseIds ++ bm25Ids).idxOf b.chunkId) :=
    pairwise_ranking.sublist (take_sublist _ _)
  refine ⟨?_, nodup_fused, fun chunk hc => ?_, fun chunk hc => (hmem chunk hc).2,
    hso, ?_⟩
  · rw [hcut, length_take, length_ranking]
  · have hu := (hmem chunk hc).1
    rwa [Finset.mem_union, mem_toFinset, mem_toFinset, ← mem_append]
  · apply hso.imp_of_mem
    intro a b ha hb hab hnoWorse hnoWorse'
    have hids : b.chunkId ≠ a.chunkId := by
      intro heq
      have hs : a.score = b.score := by
        rw [(hmem a ha).2, (hmem b hb).2, heq]
      rcases hab with hlt | ⟨-, hlt⟩
      · exact hlt.ne hs.symm
      · rw [heq] at hlt
        exact lt_irrefl _ hlt
    have hs : a.score ≤ b.score ∧ (0 < weightDense → 0 < weightBm25 →
        a.chunkId ∈ denseIds ++ bm25Ids → b.chunkId ≠ a.chunkId → a.score < b.score) := by
      rw [(hmem a ha).2, (hmem b hb).2]
      exact score_of_noWorse hweightDense hweightBm25 hnoWorse hnoWorse'
    rcases hab with hlt | ⟨heq, -⟩
    · exact absurd hs.1 (not_le.mpr hlt)
    · refine ⟨heq, fun ⟨hpos, hp⟩ => ?_⟩
      exact (hs.2 hpos hp (hmem a ha).1 hids).ne heq

/-- The fused list is lawful, a smaller cut is a prefix of a larger one, and a list that is fused
with an empty one keeps its order whatever the weight of the empty one is. -/
theorem fusion_laws (hdense : denseIds.Nodup) (hbm25 : bm25Ids.Nodup)
    (hweightDense : 0 ≤ weightDense) (hweightBm25 : 0 ≤ weightBm25) (rrfK : ℕ) (topK : ℤ) :
    Lawful denseIds bm25Ids topK weightDense weightBm25 rrfK
        (reciprocalRankFusion denseIds bm25Ids topK weightDense weightBm25 rrfK) ∧
      (∀ smaller ≤ topK,
        reciprocalRankFusion denseIds bm25Ids smaller weightDense weightBm25 rrfK <+:
          reciprocalRankFusion denseIds bm25Ids topK weightDense weightBm25 rrfK) ∧
      ∀ weight : F,
        (reciprocalRankFusion [] bm25Ids topK weight weightBm25 rrfK).map (·.chunkId) =
          bm25Ids.take topK.toNat ∧
        (reciprocalRankFusion denseIds [] topK weightDense weight rrfK).map (·.chunkId) =
          denseIds.take topK.toNat := by
  refine ⟨lawful_fused hdense hbm25 hweightDense hweightBm25 rrfK topK, fun smaller hle => ?_,
    fun weight => ⟨?_, ?_⟩⟩
  · rw [reciprocalRankFusion_eq_take, reciprocalRankFusion_eq_take]
    exact take_prefix_take_left (Int.toNat_le_toNat hle)
  · rw [reciprocalRankFusion_eq_take, map_take, ranking_nil_left hbm25 hweightBm25]
  · rw [reciprocalRankFusion_eq_take, map_take, ranking_nil_right hdense hweightDense]

theorem fusion_laws_of_overlapping_lists :
    (reciprocalRankFusion [1, 2] [2, 3] 2 (1 / 2 : ℚ) (1 / 2) 60).length = 2 ∧
      (reciprocalRankFusion [1, 2] [2, 3] 1 (1 / 2 : ℚ) (1 / 2) 60 <+:
        reciprocalRankFusion [1, 2] [2, 3] 2 (1 / 2 : ℚ) (1 / 2) 60) := by
  have hd : ([1, 2] : List ℕ).Nodup := by decide
  have hb : ([2, 3] : List ℕ).Nodup := by decide
  have hw : (0 : ℚ) ≤ 1 / 2 := by norm_num
  obtain ⟨hl, hp, -⟩ := fusion_laws hd hb hw hw 60 2
  refine ⟨?_, hp 1 (by decide)⟩
  rw [hl.length_eq]
  decide

end Aizzak.FusionLaws
