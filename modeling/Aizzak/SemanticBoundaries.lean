import Mathlib

/-!
Where a text breaks, judged by the vectors of its sentences: each is averaged with its
neighbours, and the text breaks where the cosine distance of consecutive averages exceeds the
95th percentile of these distances. The numbers are those of an ordered field with a square root
of squares. Two sentences never break, and any three or more do for some vectors.
-/
namespace Aizzak.SemanticBoundaries

open List

variable {K : Type} [Field K] [LinearOrder K]

def semanticBuffer : ℕ := 1

def semanticBreakpointPercentile : ℕ := 95

def minVectorsToCompare : ℕ := 2

def columns (window : List (List K)) : Option (List (List K)) :=
  (List.range (window.headD []).length).mapM fun d => window.mapM (·[d]?)

def sentenceGroup (vectors : List (List K)) (index buffer : ℕ) : Option (List K) :=
  let start := index - buffer
  let stop := min vectors.length (index + buffer + 1)
  let window := (vectors.drop start).take (stop - start)
  (columns window).map fun columns => columns.map fun column => column.sum / window.length

def cosineDistance (sqrt : K → K) (a b : List K) : Option K :=
  if a.length ≠ b.length then none
  else
    let dot := (List.zipWith (· * ·) a b).sum
    let normA := sqrt (a.map fun x => x * x).sum
    let normB := sqrt (b.map fun y => y * y).sum
    if normA = 0 ∨ normB = 0 then some 1 else some (1 - dot / (normA * normB))

def percentile (values : List K) (percent : ℕ) : K :=
  let ordered := values.insertionSort (· ≤ ·)
  match ordered with
  | [] => 0
  | [value] => value
  | _ =>
    let lower := percent * (ordered.length - 1) / 100
    let upper := min (lower + 1) (ordered.length - 1)
    let fraction : K := ((percent * (ordered.length - 1) % 100 : ℕ) : K) / 100
    ordered.getD lower 0 + (ordered.getD upper 0 - ordered.getD lower 0) * fraction

def semanticBoundaries (sqrt : K → K) (vectors : List (List K)) (buffer percent : ℕ) :
    Option (List ℕ) :=
  if vectors.length < minVectorsToCompare then some []
  else do
    let groups ← (List.range vectors.length).mapM (sentenceGroup vectors · buffer)
    let distances ← (groups.zip groups.tail).mapM fun (a, b) => cosineDistance sqrt a b
    let threshold := percentile distances percent
    return distances.zipIdx.filterMap fun (distance, index) =>
      if threshold < distance then some (index + 1) else none

theorem pairwise_semanticBoundaries {sqrt : K → K} {vectors : List (List K)} {buffer percent : ℕ}
    {boundaries : List ℕ} (h : semanticBoundaries sqrt vectors buffer percent = some boundaries) :
    boundaries.Pairwise (· < ·) := by
  rw [semanticBoundaries] at h
  split_ifs at h
  · cases h
    exact .nil
  · simp only [Option.bind_eq_bind, Option.bind_eq_some_iff, Option.pure_def,
      Option.some.injEq] at h
    obtain ⟨groups, -, distances, -, rfl⟩ := h
    have hin : (distances.zipIdx.map (·.2)).Pairwise (· < ·) := by
      rw [zipIdx_map_snd]
      exact pairwise_lt_range'
    rw [pairwise_filterMap]
    refine (pairwise_map.mp hin).imp fun hlt x hx y hy => ?_
    split_ifs at hx hy
    cases hx
    cases hy
    omega

theorem percentile_singleton (value : K) (percent : ℕ) : percentile [value] percent = value := rfl

/-- Two sentences have one distance, which is its own percentile. -/
theorem semanticBoundaries_of_two {sqrt : K → K} {vectors : List (List K)} {buffer percent : ℕ}
    {boundaries : List ℕ} (hl : vectors.length ≤ 2)
    (h : semanticBoundaries sqrt vectors buffer percent = some boundaries) : boundaries = [] := by
  rw [semanticBoundaries] at h
  split_ifs at h with hfew
  · exact (Option.some.inj h).symm
  · have htwo : vectors.length = 2 := by
      rw [minVectorsToCompare] at hfew
      omega
    simp only [htwo, Option.bind_eq_bind, Option.bind_eq_some_iff, Option.pure_def,
      Option.some.injEq] at h
    obtain ⟨groups, hg, distances, hd, rfl⟩ := h
    have hrange : List.range 2 = [0, 1] := rfl
    simp only [hrange, mapM_cons, mapM_nil, Option.bind_eq_bind, Option.pure_def,
      Option.bind_eq_some_iff, Option.some.injEq] at hg
    obtain ⟨first, -, _, ⟨second, -, _, rfl, rfl⟩, rfl⟩ := hg
    simp only [tail_cons, zip_cons_cons, zip_nil_right, mapM_cons,
      mapM_nil, Option.bind_eq_bind, Option.pure_def, Option.bind_eq_some_iff,
      Option.some.injEq] at hd
    obtain ⟨distance, -, _, rfl, rfl⟩ := hd
    simp [percentile_singleton]

theorem percentile_of_sorted {values : List K} (hs : values.Pairwise (· ≤ ·))
    (hl : 2 ≤ values.length) (percent : ℕ) :
    percentile values percent =
      values.getD (percent * (values.length - 1) / 100) 0 +
        (values.getD (min (percent * (values.length - 1) / 100 + 1) (values.length - 1)) 0 -
          values.getD (percent * (values.length - 1) / 100) 0) *
            (((percent * (values.length - 1) % 100 : ℕ) : K) / 100) := by
  rw [percentile, hs.insertionSort_eq]
  match values, hl with
  | _ :: _ :: _, _ => rfl

theorem mapM_eq_some_map {α β : Type} {f : α → Option β} {g : α → β} {l : List α}
    (h : ∀ x ∈ l, f x = some (g x)) : l.mapM f = some (l.map g) := by
  induction l with
  | nil => rfl
  | cons x l ih =>
    rw [forall_mem_cons] at h
    rw [mapM_cons, h.1, ih h.2]
    rfl

def line (values : List K) : List (List K) := values.map fun x => [x]

omit [LinearOrder K] in
/-- In one dimension a group is the mean of its window. -/
theorem sentenceGroup_line {values : List K} (window : List K) {index buffer : ℕ}
    (hwindow : (values.drop (index - buffer)).take
      (min values.length (index + buffer + 1) - (index - buffer)) = window) (hne : window ≠ []) :
    sentenceGroup (line values) index buffer = some [window.sum / window.length] := by
  obtain ⟨first, rest, rfl⟩ := exists_cons_of_ne_nil hne
  have hcolumn : (line (first :: rest)).mapM (·[0]?) = some (first :: rest) := by
    rw [line, mapM_map]
    exact (mapM_eq_some_map (g := id) fun x _ => rfl).trans (by rw [map_id])
  have hcolumns : columns (line (first :: rest)) = some [first :: rest] := by
    have hrange : List.range ((line (first :: rest)).headD []).length = [0] := rfl
    rw [columns, hrange, mapM_cons, hcolumn]
    rfl
  have hline : ((line values).drop (index - buffer)).take
      (min (line values).length (index + buffer + 1) - (index - buffer)) =
        line (first :: rest) := by
    rw [← hwindow, line, line, map_take, map_drop, length_map]
  simp only [sentenceGroup, hline, hcolumns, Option.map_some, map_cons, map_nil]
  rw [line, length_map]

def bend (n : ℕ) : List K := List.replicate (n - 1) 1 ++ [-1]

omit [LinearOrder K] in
theorem drop_bend {n s : ℕ} (h : s < n) : (bend n : List K).drop s = bend (n - s) := by
  rw [bend, bend, drop_append_of_le_length (by rw [length_replicate]; omega),
    drop_replicate]
  congr 2
  omega

omit [LinearOrder K] in
theorem length_bend {n : ℕ} (h : 0 < n) : (bend n : List K).length = n := by
  rw [bend, length_append, length_replicate, length_singleton]
  omega

omit [LinearOrder K] in
theorem take_bend {n m : ℕ} (h : m < n) : (bend n : List K).take m = List.replicate m 1 := by
  rw [bend, take_append_of_le_length (by rw [length_replicate]; omega),
    take_replicate]
  congr 1
  omega

section Bend

variable [IsStrictOrderedRing K]

def bentGroup (n i : ℕ) : List K :=
  if i + 2 < n then [1] else if i + 2 = n then [1 / 3] else [0]

theorem sentenceGroup_bend {n i : ℕ} (hn : 3 ≤ n) (hi : i < n) :
    sentenceGroup (line (bend n : List K)) i semanticBuffer = some (bentGroup n i) := by
  have hsum : ∀ m : ℕ, (List.replicate m (1 : K)).sum = m := by simp
  rw [bentGroup, semanticBuffer]
  by_cases hinner : i + 2 < n
  · have hm : min (bend n : List K).length (i + 1 + 1) - (i - 1) ≠ 0 := by
      rw [length_bend (by omega)]
      omega
    rw [if_pos hinner, sentenceGroup_line (List.replicate _ 1) (by
      rw [drop_bend (by omega), take_bend (by rw [length_bend (by omega)]; omega)])
      (by simpa [replicate_eq_nil_iff] using hm)]
    rw [hsum, length_replicate, div_self (by exact_mod_cast hm)]
  · rw [if_neg hinner]
    by_cases hlast : i + 2 = n
    · rw [if_pos hlast, sentenceGroup_line [1, 1, -1] ?_ (by simp)]
      · norm_num
      · rw [length_bend (by omega), drop_bend (by omega)]
        have h3 : n - (i - 1) = 3 := by omega
        have ht : min n (i + 1 + 1) - (i - 1) = 3 := by omega
        rw [h3, ht]
        rfl
    · rw [if_neg hlast, sentenceGroup_line [1, -1] ?_ (by simp)]
      · norm_num
      · rw [length_bend (by omega), drop_bend (by omega)]
        have h2 : n - (i - 1) = 2 := by omega
        have ht : min n (i + 1 + 1) - (i - 1) = 2 := by omega
        rw [h2, ht]
        rfl

def bentGroups (k : ℕ) : List (List K) := List.replicate (k + 1) [1] ++ [[1 / 3], [0]]

omit [LinearOrder K] in
theorem map_bentGroup (k : ℕ) :
    (List.range (k + 3)).map (bentGroup (k + 3) : ℕ → List K) = bentGroups k := by
  rw [bentGroups]
  refine ext_getElem (by simp) fun i hi _ => ?_
  simp only [length_map, length_range] at hi
  rw [getElem_map, getElem_range, bentGroup]
  by_cases hinner : i + 2 < k + 3
  · rw [if_pos hinner, getElem_append_left (by rw [length_replicate]; omega),
      getElem_replicate]
  · rw [if_neg hinner, getElem_append_right (by rw [length_replicate]; omega)]
    simp only [length_replicate]
    by_cases hlast : i + 2 = k + 3
    · have hzero : i - (k + 1) = 0 := by omega
      simp [hlast, hzero]
    · have hone : i - (k + 1) = 1 := by omega
      rw [if_neg hlast]
      simp [hone]

variable {sqrt : K → K}

theorem cosineDistance_pos (hs : ∀ x, sqrt (x * x) = |x|) {a b : K} (ha : 0 < a) (hb : 0 < b) :
    cosineDistance sqrt [a] [b] = some 0 := by
  have hab : a * b ≠ 0 := (mul_pos ha hb).ne'
  simp only [cosineDistance, length_singleton, ne_eq, not_true_eq_false, if_false,
    map_cons, map_nil, sum_singleton, zipWith_cons_cons, zipWith_nil_left,
    hs, abs_of_pos ha, abs_of_pos hb, ha.ne', hb.ne', or_self]
  rw [div_self hab, sub_self]

theorem cosineDistance_zero (hs : ∀ x, sqrt (x * x) = |x|) (a : K) :
    cosineDistance sqrt [a] [0] = some 1 := by
  simp only [cosineDistance, length_singleton, ne_eq, not_true_eq_false, if_false,
    map_cons, map_nil, sum_singleton, hs, abs_zero, or_true, if_true]

omit [LinearOrder K] in
theorem bentGroups_succ (k : ℕ) : (bentGroups (k + 1) : List (List K)) = [1] :: bentGroups k := rfl

theorem mapM_distances (hs : ∀ x, sqrt (x * x) = |x|) (k : ℕ) :
    (((bentGroups k : List (List K)).zip (bentGroups k).tail).mapM
      fun (a, b) => cosineDistance sqrt a b) = some (List.replicate (k + 1) 0 ++ [1]) := by
  induction k with
  | zero =>
    have ht : (0 : K) < 3⁻¹ := by norm_num
    simp [bentGroups, cosineDistance_pos hs one_pos ht, cosineDistance_zero hs]
  | succ k ih =>
    have hc : ∃ rest, (bentGroups k : List (List K)) = [1] :: rest := ⟨_, rfl⟩
    obtain ⟨rest, hr⟩ := hc
    rw [hr, tail_cons] at ih
    rw [bentGroups_succ, tail_cons, hr, zip_cons_cons, mapM_cons, ih]
    dsimp only
    rw [cosineDistance_pos hs one_pos one_pos]
    rfl

/-- A single large distance is above the percentile of all. -/
theorem percentile_bent (k : ℕ) :
    0 ≤ percentile (List.replicate (k + 1) (0 : K) ++ [1]) semanticBreakpointPercentile ∧
      percentile (List.replicate (k + 1) (0 : K) ++ [1]) semanticBreakpointPercentile < 1 := by
  have hs : (List.replicate (k + 1) (0 : K) ++ [1]).Pairwise (· ≤ ·) := by
    rw [pairwise_append]
    refine ⟨by simp [pairwise_replicate], by simp, fun a ha b hb => ?_⟩
    rw [eq_of_mem_replicate ha, mem_singleton.mp hb]
    exact zero_le_one
  have hle : (List.replicate (k + 1) (0 : K) ++ [1]).length = k + 2 := by simp
  rw [percentile_of_sorted hs (by omega), hle, semanticBreakpointPercentile]
  have hl : (List.replicate (k + 1) (0 : K) ++ [1]).getD (95 * (k + 2 - 1) / 100) 0 = 0 := by
    rw [getD_eq_getElem?_getD,
      List.getElem?_append_left (by rw [length_replicate]; omega),
      List.getElem?_replicate, if_pos (by omega), Option.getD_some]
  have hu : ∀ i, 0 ≤ (List.replicate (k + 1) (0 : K) ++ [1]).getD i 0 ∧
      (List.replicate (k + 1) (0 : K) ++ [1]).getD i 0 ≤ 1 := by
    intro i
    rw [getD_eq_getElem?_getD]
    cases hget : (List.replicate (k + 1) (0 : K) ++ [1])[i]? with
    | none => simp
    | some value =>
      rcases mem_append.mp (mem_of_getElem? hget) with hzero | hone
      · simp [eq_of_mem_replicate hzero]
      · simp [mem_singleton.mp hone]
  obtain ⟨hlow, hh⟩ := hu (min (95 * (k + 2 - 1) / 100 + 1) (k + 2 - 1))
  rw [hl, zero_add, sub_zero]
  have hf : (0 : K) ≤ ((95 * (k + 2 - 1) % 100 : ℕ) : K) / 100 ∧
      ((95 * (k + 2 - 1) % 100 : ℕ) : K) / 100 < 1 := by
    have hlt : 95 * (k + 2 - 1) % 100 < 100 := Nat.mod_lt _ (by omega)
    refine ⟨by positivity, ?_⟩
    rw [div_lt_one (by norm_num)]
    exact_mod_cast hlt
  refine ⟨mul_nonneg hlow hf.1, ?_⟩
  calc _ ≤ 1 * (((95 * (k + 2 - 1) % 100 : ℕ) : K) / 100) :=
        mul_le_mul_of_nonneg_right hh hf.1
    _ < 1 := by rw [one_mul]; exact hf.2

/-- Bent vectors break the text before the last sentence. -/
theorem semanticBoundaries_bend (hs : ∀ x, sqrt (x * x) = |x|) {n : ℕ} (hn : 3 ≤ n) :
    semanticBoundaries sqrt (line (bend n)) semanticBuffer semanticBreakpointPercentile =
      some [n - 1] := by
  obtain ⟨k, rfl⟩ : ∃ k, n = k + 3 := ⟨n - 3, by omega⟩
  have hl : (line (bend (k + 3) : List K)).length = k + 3 := by
    rw [line, length_map, length_bend (by omega)]
  have hg : (List.range (k + 3)).mapM
      (sentenceGroup (line (bend (k + 3) : List K)) · semanticBuffer) = some (bentGroups k) := by
    rw [← map_bentGroup]
    exact mapM_eq_some_map fun i hi => sentenceGroup_bend (by omega) (mem_range.mp hi)
  obtain ⟨hlow, hh⟩ := percentile_bent (K := K) k
  rw [semanticBoundaries, hl, if_neg (by rw [minVectorsToCompare]; omega), hg]
  simp only [Option.bind_eq_bind, Option.bind_some, mapM_distances hs, Option.pure_def,
    Option.some.injEq]
  have hz : (List.replicate (k + 1) (0 : K)).zipIdx.filterMap (fun (distance, index) =>
      if percentile (List.replicate (k + 1) (0 : K) ++ [1]) semanticBreakpointPercentile < distance
      then some (index + 1) else none) = [] := by
    rw [filterMap_eq_nil_iff]
    rintro ⟨distance, index⟩ hmem
    have hzero := eq_of_mem_replicate (fst_mem_of_mem_zipIdx hmem)
    simp only at hzero
    rw [hzero]
    exact if_neg (not_lt.mpr hlow)
  rw [zipIdx_append, filterMap_append, hz]
  simp [hh]

/-- Two opposite vectors average to nothing, and do not break the text. -/
theorem semanticBoundaries_bend_two (hs : ∀ x, sqrt (x * x) = |x|) :
    semanticBoundaries sqrt (line (bend 2)) semanticBuffer semanticBreakpointPercentile =
      some [] := by
  have hl : (line (bend 2) : List (List K)).length = 2 := rfl
  have hg : ∀ i ∈ List.range 2,
      sentenceGroup (line (bend 2) : List (List K)) i semanticBuffer = some [0] := by
    intro i hi
    have hwindow : ((bend 2 : List K).drop (i - semanticBuffer)).take
        (min (bend 2 : List K).length (i + semanticBuffer + 1) - (i - semanticBuffer)) =
          [1, -1] := by
      have hc : i = 0 ∨ i = 1 := by
        rw [mem_range] at hi
        omega
      rcases hc with rfl | rfl <;> rfl
    rw [sentenceGroup_line [1, -1] hwindow (by simp)]
    simp
  rw [semanticBoundaries, hl, if_neg (by rw [minVectorsToCompare]; omega),
    mapM_eq_some_map hg]
  simp [range_succ, cosineDistance_zero hs, percentile_singleton]

end Bend

end Aizzak.SemanticBoundaries
