import Mathlib

/-!
A pass over all pairs of positions that marks the loser of each near pair, whatever became of
either before. Exactly the positions that a better one is near to are marked, so that nothing
left is near anything else left. A marked position is near one that is left unless it ends a
chain: unless each better one near it has itself a better one near.
-/
namespace Aizzak.PairElimination

def pairsBelow (n : ℕ) : List (ℕ × ℕ) :=
  (List.range n).flatMap fun i => (List.range' (i + 1) (n - (i + 1))).map fun j => (i, j)

theorem mem_pairsBelow_iff {n i j : ℕ} : (i, j) ∈ pairsBelow n ↔ i < j ∧ j < n := by
  rw [pairsBelow, List.mem_flatMap]
  constructor
  · intro h
    obtain ⟨first, hf, hp⟩ := h
    obtain ⟨second, hs, heq⟩ := List.mem_map.mp hp
    cases heq
    rw [List.mem_range] at hf
    rw [List.mem_range'_1] at hs
    omega
  · intro h
    refine ⟨i, List.mem_range.mpr (by omega), List.mem_map.mpr ⟨j, ?_, rfl⟩⟩
    rw [List.mem_range'_1]
    omega

theorem range_filterMap {α : Type*} (l : List α) :
    (List.range l.length).filterMap (l[·]?) = l := by
  induction l with
  | nil => rfl
  | cons a l ih =>
    rw [List.length_cons, List.range_succ_eq_map, List.filterMap_cons, List.filterMap_map]
    simp only [List.getElem?_cons_zero, List.cons.injEq, true_and]
    exact ih

variable {S : Type*} [LinearOrder S] (near : ℕ → ℕ → Prop) (score : ℕ → S) (n : ℕ)

/-- Of two positions the one of lower score loses, or the later of equal ones. -/
def loser (i j : ℕ) : ℕ := if score j ≤ score i then j else i

def losers [DecidableRel near] : List ℕ :=
  ((pairsBelow n).filter fun (i, j) => near i j).map fun (i, j) => loser score i j

def Better (i k : ℕ) : Prop := score k < score i ∨ (score i = score k ∧ i < k)

def Beats (i k : ℕ) : Prop := i < n ∧ k < n ∧ near i k ∧ Better score i k

/-- Something beats the position, and whatever beats it is beaten itself. -/
def EndsChain (k : ℕ) : Prop :=
  (∃ i, Beats near score n i k) ∧ ∀ i, Beats near score n i k → ∃ j, Beats near score n j i

variable {near score n}

theorem better_or_better {i k : ℕ} (h : i ≠ k) : Better score i k ∨ Better score k i := by
  rcases lt_trichotomy (score i) (score k) with hlt | heq | hlt
  · exact Or.inr (Or.inl hlt)
  · by_cases hb : i < k
    · exact Or.inl (Or.inr ⟨heq, hb⟩)
    · exact Or.inr (Or.inr ⟨heq.symm, by omega⟩)
  · exact Or.inl (Or.inl hlt)

theorem better_of_le {i j : ℕ} (hij : i < j) (h : score j ≤ score i) : Better score i j := by
  rcases h.lt_or_eq with hlt | heq
  · exact Or.inl hlt
  · exact Or.inr ⟨heq.symm, hij⟩

theorem le_of_better {i j : ℕ} (h : Better score i j) : score j ≤ score i := by
  rcases h with hlt | ⟨heq, -⟩
  · exact hlt.le
  · exact heq.ge

section Losers

variable [DecidableRel near] (hsymm : ∀ i j, near i j → near j i)
include hsymm

/-- The losers are the beaten positions. -/
theorem mem_losers_iff {k : ℕ} : k ∈ losers near score n ↔ ∃ i, Beats near score n i k := by
  rw [losers, List.mem_map]
  constructor
  · intro h
    obtain ⟨⟨i, j⟩, hp, hl⟩ := h
    obtain ⟨hbe, hn⟩ := List.mem_filter.mp hp
    have hij := mem_pairsBelow_iff.mp hbe
    have hn : near i j := of_decide_eq_true hn
    simp only [loser] at hl
    split_ifs at hl with hle
    · subst hl
      exact ⟨i, by omega, hij.2, hn, better_of_le hij.1 hle⟩
    · subst hl
      exact ⟨j, hij.2, by omega, hsymm i j hn, Or.inl (not_le.mp hle)⟩
  · intro h
    obtain ⟨i, hi, hk, hn, hb⟩ := h
    by_cases hbf : i < k
    · refine ⟨(i, k), List.mem_filter.mpr ⟨mem_pairsBelow_iff.mpr ⟨hbf, hk⟩,
        decide_eq_true hn⟩, if_pos (le_of_better hb)⟩
    · rcases hb with hlt | ⟨-, hls⟩
      · have hne : i ≠ k := by
          intro heq
          rw [heq] at hlt
          exact lt_irrefl _ hlt
        refine ⟨(k, i), List.mem_filter.mpr ⟨mem_pairsBelow_iff.mpr ⟨by omega, hi⟩,
          decide_eq_true (hsymm i k hn)⟩, if_neg (not_le.mpr hlt)⟩
      · omega

theorem not_near_of_left {i j : ℕ} (hi : i < n) (hj : j < n) (hne : i ≠ j)
    (hle : i ∉ losers near score n) (hl : j ∉ losers near score n) : ¬ near i j := by
  intro hn
  have he : Better score i j ∨ Better score j i := better_or_better hne
  rcases he with hb | hb
  · exact hl ((mem_losers_iff hsymm).mpr ⟨i, hi, hj, hn, hb⟩)
  · exact hle ((mem_losers_iff hsymm).mpr ⟨j, hj, hi, hsymm i j hn, hb⟩)

theorem exists_top_left (hn : 0 < n) :
    ∃ m < n, m ∉ losers near score n ∧ ∀ k < n, score k ≤ score m := by
  classical
  have hexists : ∃ m, m < n ∧ ∀ k < n, score k ≤ score m := by
    obtain ⟨m, hm, hmax⟩ :=
      Finset.exists_max_image (Finset.range n) score ⟨0, Finset.mem_range.mpr hn⟩
    exact ⟨m, Finset.mem_range.mp hm, fun k hk => hmax k (Finset.mem_range.mpr hk)⟩
  obtain ⟨hm, hmax⟩ := Nat.find_spec hexists
  refine ⟨Nat.find hexists, hm, fun hl => ?_, hmax⟩
  obtain ⟨i, hi, -, -, hb⟩ := (mem_losers_iff hsymm).mp hl
  rcases hb with hlt | ⟨heq, hbe⟩
  · exact absurd hlt (not_lt.mpr (hmax i hi))
  · exact Nat.find_min hexists hbe ⟨hi, fun k hk => heq ▸ hmax k hk⟩

/-- All losers have a near winner exactly when no chain ends. -/
theorem losers_near_left_iff :
    (∀ k ∈ losers near score n, ∃ m < n, m ∉ losers near score n ∧ near m k) ↔
      ∀ k, ¬ EndsChain near score n k := by
  constructor
  · intro h k hen
    obtain ⟨hlo, hc⟩ := hen
    have hmem := (mem_losers_iff hsymm).mpr hlo
    obtain ⟨m, hm, hl, hn⟩ := h k hmem
    have hne : m ≠ k := fun heq => hl (heq ▸ hmem)
    obtain ⟨-, -, hk, -⟩ := hlo
    have he : Better score m k ∨ Better score k m := better_or_better hne
    rcases he with hb | hb
    · exact hl ((mem_losers_iff hsymm).mpr (hc m ⟨hm, hk, hn, hb⟩))
    · exact hl ((mem_losers_iff hsymm).mpr ⟨k, hk, hm, hsymm m k hn, hb⟩)
  · intro h k hmem
    have hlo := (mem_losers_iff hsymm).mp hmem
    by_contra hno
    refine h k ⟨hlo, fun i hbe => ?_⟩
    by_contra hu
    exact hno ⟨i, hbe.1, fun hi => hu ((mem_losers_iff hsymm).mp hi), hbe.2.2.1⟩

end Losers

end Aizzak.PairElimination
