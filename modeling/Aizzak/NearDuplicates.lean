import Aizzak.LexicalTerms
import Aizzak.PairElimination

/-!
The chunks an answer keeps: those above both floors, less the loser of each pair of near
duplicates. What is kept is free of near duplicates and has a chunk of highest score. A chunk
that goes has a better near duplicate, which may itself have gone; so it has one among those
kept unless it ends a chain of them.
-/
namespace Aizzak.NearDuplicates

open PyText PairElimination
open Tokenization (UnicodeDatabase tokenize)
open LexicalTerms (plainTables)

structure ScoredChunk (F : Type) where
  chunkId : String
  documentId : String
  text : Text
  score : F
  seq : ℕ

variable {F : Type} [LinearOrder F] [Zero F]

def minCandidatesForDedup : ℕ := 2

section Floors

variable [Mul F]

def aboveFloors (candidates : List (ScoredChunk F)) (minScore relativeFloor : F) :
    List (ScoredChunk F) :=
  match candidates.filter (minScore ≤ ·.score) with
  | [] => []
  | first :: rest =>
    if 0 < relativeFloor then
      let floor := relativeFloor * rest.foldl (fun best chunk => max best chunk.score) first.score
      (first :: rest).filter (floor ≤ ·.score)
    else first :: rest

variable {candidates : List (ScoredChunk F)} {minScore relativeFloor : F}

theorem aboveFloors_sublist :
    (aboveFloors candidates minScore relativeFloor).Sublist candidates := by
  rw [aboveFloors]
  split
  · exact List.nil_sublist candidates
  · next first rest hk =>
    have hsub : (first :: rest).Sublist candidates := by
      rw [← hk]
      exact List.filter_sublist
    split_ifs
    · exact List.filter_sublist.trans hsub
    · exact hsub

theorem aboveFloors_upward {c t : ScoredChunk F}
    (ht : t ∈ aboveFloors candidates minScore relativeFloor) (hc : c ∈ candidates)
    (hle : t.score ≤ c.score) : c ∈ aboveFloors candidates minScore relativeFloor := by
  rw [aboveFloors] at ht ⊢
  cases hk : candidates.filter (minScore ≤ ·.score) with
  | nil =>
    rw [hk] at ht
    exact absurd ht List.not_mem_nil
  | cons first rest =>
    rw [hk] at ht
    have hup : ∀ floor : F, floor ≤ t.score → floor ≤ c.score := fun _ hf => hf.trans hle
    have ha : t ∈ first :: rest → c ∈ first :: rest := by
      intro hmem
      rw [← hk, List.mem_filter, decide_eq_true_iff] at hmem ⊢
      exact ⟨hc, hup _ hmem.2⟩
    simp only at ht ⊢
    split_ifs at ht ⊢ with hpos
    · rw [List.mem_filter, decide_eq_true_iff] at ht ⊢
      exact ⟨ha ht.1, hup _ ht.2⟩
    · exact ha ht

end Floors

section Dedup

variable [Div F] [NatCast F]

def jaccard (a b : Finset Text) : F :=
  if a ∪ b = ∅ then 0 else ((a ∩ b).card : F) / ((a ∪ b).card : F)

section Survivors

variable (db : UnicodeDatabase) (chunks : List (ScoredChunk F)) (threshold : F)

def wordSet (text : Text) : Finset Text := (tokenize db text).toFinset

def Near (a b : ScoredChunk F) : Prop := threshold ≤ jaccard (wordSet db a.text) (wordSet db b.text)

def NearAt (i j : ℕ) : Prop :=
  ∃ a ∈ chunks[i]?, ∃ b ∈ chunks[j]?, Near db threshold a b

instance (a b : ScoredChunk F) : Decidable (Near db threshold a b) :=
  inferInstanceAs (Decidable (_ ≤ _))

instance : DecidableRel (NearAt db chunks threshold) := fun i j =>
  inferInstanceAs (Decidable (∃ a ∈ chunks[i]?, ∃ b ∈ chunks[j]?, Near db threshold a b))

def scoreAt (i : ℕ) : F := (chunks[i]?).elim 0 ScoredChunk.score

def keptPositions : List ℕ :=
  (List.range chunks.length).filter
    (· ∉ losers (NearAt db chunks threshold) (scoreAt chunks) chunks.length)

def dedupNearDuplicates : List (ScoredChunk F) :=
  (keptPositions db chunks threshold).filterMap (chunks[·]?)

end Survivors

/-- Every chunk above the floors that goes is a near duplicate of one that is kept. -/
def Represented (db : UnicodeDatabase) (chunks : List (ScoredChunk F)) (threshold : F) : Prop :=
  ∀ k < chunks.length, k ∉ keptPositions db chunks threshold →
    ∃ m ∈ keptPositions db chunks threshold, NearAt db chunks threshold m k

section Kept

variable {db : UnicodeDatabase} {chunks : List (ScoredChunk F)} {threshold : F}

theorem near_symm (a b : ScoredChunk F) (h : Near db threshold a b) : Near db threshold b a := by
  rw [Near, jaccard, Finset.union_comm, Finset.inter_comm]
  exact h

theorem nearAt_symm (i j : ℕ) (h : NearAt db chunks threshold i j) :
    NearAt db chunks threshold j i := by
  obtain ⟨a, ha, b, hb, hn⟩ := h
  exact ⟨b, hb, a, ha, near_symm a b hn⟩

theorem mem_keptPositions_iff {k : ℕ} : k ∈ keptPositions db chunks threshold ↔
    k < chunks.length ∧
      k ∉ losers (NearAt db chunks threshold) (scoreAt chunks) chunks.length := by
  rw [keptPositions, List.mem_filter, List.mem_range, decide_eq_true_iff]

theorem dedupNearDuplicates_sublist :
    (dedupNearDuplicates db chunks threshold).Sublist chunks := by
  have hsub : (dedupNearDuplicates db chunks threshold).Sublist
      ((List.range chunks.length).filterMap (chunks[·]?)) :=
    List.filter_sublist.filterMap _
  rwa [range_filterMap] at hsub

/-- Fewer than two chunks lose no pair. -/
theorem dedupNearDuplicates_of_short (h : chunks.length < minCandidatesForDedup) :
    dedupNearDuplicates db chunks threshold = chunks := by
  have hall : keptPositions db chunks threshold = List.range chunks.length := by
    refine List.filter_eq_self.mpr fun k hk => decide_eq_true fun hlo => ?_
    obtain ⟨i, hi, hbe, hn, hb⟩ := (mem_losers_iff nearAt_symm).mp hlo
    have hi0 : i = 0 := by
      rw [minCandidatesForDedup] at h
      omega
    have hk0 : k = 0 := by
      rw [minCandidatesForDedup] at h
      omega
    subst hi0 hk0
    rcases hb with hlt | hl
    · exact lt_irrefl _ hlt
    · omega
  rw [dedupNearDuplicates, hall, range_filterMap]

theorem dedupNearDuplicates_pairwise :
    (dedupNearDuplicates db chunks threshold).Pairwise fun a b => ¬ Near db threshold a b := by
  rw [dedupNearDuplicates, List.pairwise_filterMap]
  have hn : (keptPositions db chunks threshold).Nodup := List.nodup_range.filter _
  refine List.Pairwise.imp_of_mem ?_ hn
  intro i j hi hj hne a ha b hb hnr
  obtain ⟨hi, hle⟩ := mem_keptPositions_iff.mp hi
  obtain ⟨hj, hl⟩ := mem_keptPositions_iff.mp hj
  exact not_near_of_left nearAt_symm hi hj hne hle hl ⟨a, ha, b, hb, hnr⟩

theorem exists_top_kept (hne : chunks ≠ []) :
    ∃ top ∈ dedupNearDuplicates db chunks threshold, ∀ c ∈ chunks, c.score ≤ top.score := by
  have hpos : 0 < chunks.length := List.length_pos_of_ne_nil hne
  have htop : ∃ m < chunks.length,
      m ∉ losers (NearAt db chunks threshold) (scoreAt chunks) chunks.length ∧
        ∀ k < chunks.length, scoreAt chunks k ≤ scoreAt chunks m :=
    exists_top_left nearAt_symm hpos
  obtain ⟨m, hm, hl, hmax⟩ := htop
  refine ⟨chunks[m], ?_, fun c hc => ?_⟩
  · exact List.mem_filterMap.mpr ⟨m, mem_keptPositions_iff.mpr ⟨hm, hl⟩,
      List.getElem?_eq_getElem hm⟩
  · obtain ⟨k, hk, rfl⟩ := List.mem_iff_getElem.mp hc
    have hle := hmax k hk
    rw [scoreAt, scoreAt, List.getElem?_eq_getElem hk, List.getElem?_eq_getElem hm] at hle
    exact hle

/-- A chunk goes unrepresented exactly at the end of a chain. -/
theorem represented_iff : Represented db chunks threshold ↔
    ∀ k, ¬ EndsChain (NearAt db chunks threshold) (scoreAt chunks) chunks.length k := by
  rw [← losers_near_left_iff nearAt_symm]
  constructor
  · intro h k hlo
    have hk : k < chunks.length := by
      obtain ⟨i, -, hk, -⟩ := (mem_losers_iff nearAt_symm).mp hlo
      exact hk
    obtain ⟨m, hke, hn⟩ := h k hk fun hke => (mem_keptPositions_iff.mp hke).2 hlo
    obtain ⟨hm, hl⟩ := mem_keptPositions_iff.mp hke
    exact ⟨m, hm, hl, hn⟩
  · intro h k hk hg
    have hlo : k ∈ losers (NearAt db chunks threshold) (scoreAt chunks) chunks.length := by
      by_contra hl
      exact hg (mem_keptPositions_iff.mpr ⟨hk, hl⟩)
    obtain ⟨m, hm, hl, hn⟩ := h k hlo
    exact ⟨m, mem_keptPositions_iff.mpr ⟨hm, hl⟩, hn⟩

end Kept

end Dedup

variable [Mul F] [Div F] [NatCast F]

def filterRelevant (db : UnicodeDatabase) (candidates : List (ScoredChunk F))
    (minScore relativeFloor : F) (dedup : Bool) (threshold : F) : List (ScoredChunk F) :=
  let survivors := aboveFloors candidates minScore relativeFloor
  if !dedup || decide (survivors.length < minCandidatesForDedup) then survivors
  else dedupNearDuplicates db survivors threshold

theorem filterRelevant_eq (db : UnicodeDatabase) (candidates : List (ScoredChunk F))
    (minScore relativeFloor threshold : F) :
    filterRelevant db candidates minScore relativeFloor true threshold =
      dedupNearDuplicates db (aboveFloors candidates minScore relativeFloor) threshold := by
  rw [filterRelevant]
  simp only [Bool.not_true, Bool.false_or, decide_eq_true_eq]
  split_ifs with hs
  · exact (dedupNearDuplicates_of_short hs).symm
  · rfl

/-- Near-duplicate removal keeps no near duplicates and a chunk of highest score; it keeps a near
duplicate of whatever it drops exactly where no chunk ends a chain of near duplicates. -/
theorem filterRelevant_keeps (db : UnicodeDatabase) (candidates : List (ScoredChunk F))
    (minScore relativeFloor threshold : F) :
    let above := aboveFloors candidates minScore relativeFloor
    let kept := filterRelevant db candidates minScore relativeFloor true threshold
    (kept.Sublist above ∧ above.Sublist candidates) ∧
    kept.Pairwise (fun a b => ¬ Near db threshold a b) ∧
    (above ≠ [] → ∃ top ∈ kept, ∀ c ∈ candidates, c.score ≤ top.score) ∧
    kept = (keptPositions db above threshold).filterMap (above[·]?) ∧
    (Represented db above threshold ↔
      ∀ k, ¬ EndsChain (NearAt db above threshold) (scoreAt above) above.length k) := by
  intro above kept
  have hk : kept = dedupNearDuplicates db above threshold :=
    filterRelevant_eq db candidates minScore relativeFloor threshold
  rw [hk]
  refine ⟨⟨dedupNearDuplicates_sublist, aboveFloors_sublist⟩, dedupNearDuplicates_pairwise,
    fun hne => ?_, rfl, represented_iff⟩
  have hexists : ∃ top ∈ dedupNearDuplicates db above threshold, ∀ c ∈ above,
      c.score ≤ top.score := exists_top_kept hne
  obtain ⟨top, htop, hmax⟩ := hexists
  refine ⟨top, htop, fun c hc => ?_⟩
  by_contra hlt
  have ha := aboveFloors_upward (dedupNearDuplicates_sublist.subset htop) hc
    (not_le.mp hlt).le
  exact hlt (hmax c ha)

section Chain

def chain : List (ScoredChunk ℚ) :=
  [⟨"c-1", "d", ofString "pump valve motor", 3, 0⟩,
    ⟨"c-2", "d", ofString "valve motor relay", 2, 1⟩,
    ⟨"c-3", "d", ofString "motor relay fuse", 1, 2⟩]

/-- The third chunk goes for the second, which goes for the first, which is not near it. -/
theorem chain_end_lost : ¬ Represented plainTables (aboveFloors chain 0 0) (1 / 2) := by
  intro h
  have hk : keptPositions plainTables (aboveFloors chain 0 0) (1 / 2) = [0] := by
    decide +kernel
  obtain ⟨m, hm, hn⟩ := h 2 (by decide +kernel) (by rw [hk]; decide)
  rw [hk, List.mem_singleton] at hm
  subst hm
  exact absurd hn (by decide +kernel)

end Chain

end Aizzak.NearDuplicates
