import Mathlib

/-!
The maximal runs of a list between separators, empty runs dropped: what splitting on
whitespace and collecting the matches of a repeated character class both return. A
rewriting that leaves separators in place acts on each run on its own, so the runs of
the rewritten list are those of its rewritten runs.
-/
namespace Aizzak.SeparatedRuns

open List

variable {α : Type*}

def runs (sep : α → Bool) (l : List α) : List (List α) :=
  (l.splitOnP sep).filter (!·.isEmpty)

structure IsRun (sep : α → Bool) (w : List α) : Prop where
  nonempty : w ≠ []
  no_sep : ∀ c ∈ w, sep c = false

instance (sep : α → Bool) (w : List α) : Decidable (IsRun sep w) :=
  decidable_of_iff (w.isEmpty = false ∧ w.all (!sep ·) = true) <| by
    rw [List.isEmpty_eq_false_iff, List.all_eq_true]
    constructor
    · intro h
      exact ⟨h.1, fun c hc => by simpa using h.2 c hc⟩
    · intro h
      exact ⟨h.nonempty, fun c hc => by simp [h.no_sep c hc]⟩

structure KeepsSeparators (sep : α → Bool) (f : List α → List α) : Prop where
  nil : f [] = []
  append_cons : ∀ s c t, sep c = true → f (s ++ c :: t) = f s ++ c :: f t

variable {sep inner : α → Bool}

theorem runs_nil : runs sep ([] : List α) = [] := rfl

theorem runs_append_cons {c : α} (hc : sep c = true) (s t : List α) :
    runs sep (s ++ c :: t) = runs sep s ++ runs sep t := by
  unfold runs
  rw [splitOnP_append_cons s t hc, filter_append]

theorem IsRun.runs {w : List α} (hw : IsRun sep w) : runs sep w = [w] := by
  unfold SeparatedRuns.runs
  rw [splitOnP_eq_singleton hw.no_sep]
  simp [hw.nonempty]

/-- The runs hold what is not a separator, in its order. -/
theorem flatten_runs (sep : α → Bool) (t : List α) : (runs sep t).flatten = t.filter (!sep ·) := by
  induction hn : t.length using Nat.strongRecOn generalizing t with
  | ind n ih =>
    by_cases hsep : ∃ c ∈ t, sep c = true
    · obtain ⟨c, hmem, hc⟩ := hsep
      obtain ⟨s, u, rfl⟩ := append_of_mem hmem
      simp only [length_append, length_cons] at hn
      rw [runs_append_cons hc, flatten_append, ih s.length (by omega) s rfl,
        ih u.length (by omega) u rfl, filter_append, filter_cons_of_neg (by simp [hc])]
    · have hall : ∀ c ∈ t, sep c = false := by
        intro c hmem
        by_contra hc
        exact hsep ⟨c, hmem, by simpa using hc⟩
      rw [filter_eq_self.mpr (by simpa using hall)]
      cases t with
      | nil => rfl
      | cons a l =>
        have hrun : IsRun sep (a :: l) := ⟨by simp, hall⟩
        rw [hrun.runs]
        simp

theorem isRun_of_mem_runs {w t : List α} (h : w ∈ runs sep t) : IsRun sep w := by
  refine ⟨by simpa using (mem_filter.mp h).2, fun c hc => ?_⟩
  have hf : c ∈ (runs sep t).flatten := mem_flatten_of_mem h hc
  rw [flatten_runs, mem_filter] at hf
  simpa using hf.2

/-- Separators in front make no run. -/
theorem runs_append_of_seps {s : List α} (hs : ∀ c ∈ s, sep c = true) (t : List α) :
    runs sep (s ++ t) = runs sep t := by
  induction s with
  | nil => rfl
  | cons c s ih =>
    rw [forall_mem_cons] at hs
    have hc := runs_append_cons hs.1 [] (s ++ t)
    rw [nil_append, runs_nil, nil_append] at hc
    rw [cons_append, hc, ih hs.2]

theorem runs_append_seps {s : List α} (hs : ∀ c ∈ s, sep c = true) (t : List α) :
    runs sep (t ++ s) = runs sep t := by
  cases s with
  | nil => rw [append_nil]
  | cons c s =>
    rw [forall_mem_cons] at hs
    have hr := runs_append_of_seps hs.2 []
    rw [append_nil, runs_nil] at hr
    rw [runs_append_cons hs.1, hr, append_nil]

/-- Lists put together with separators between them keep their runs. -/
theorem runs_intercalate {c : α} {gap : List α} (hc : sep c = true)
    (hgap : ∀ d ∈ gap, sep d = true) (ls : List (List α)) :
    runs sep (List.intercalate (c :: gap) ls) = ls.flatMap (runs sep) := by
  induction ls with
  | nil => rfl
  | cons l ls ih =>
    cases ls with
    | nil => simp [List.intercalate]
    | cons next rest =>
      have hj : List.intercalate (c :: gap) (l :: next :: rest) =
          l ++ c :: (gap ++ List.intercalate (c :: gap) (next :: rest)) := by
        simp [List.intercalate]
      rw [hj, runs_append_cons hc, runs_append_of_seps hgap, ih]
      rfl

namespace KeepsSeparators

theorem comp {f g : List α → List α} (hg : KeepsSeparators sep g) (hf : KeepsSeparators sep f) :
    KeepsSeparators sep (g ∘ f) where
  nil := by simp only [Function.comp_apply, hf.nil, hg.nil]
  append_cons := by
    intro s c t hc
    simp only [Function.comp_apply, hf.append_cons s c t hc, hg.append_cons _ c _ hc]

theorem map {g : α → α} (hg : ∀ c, sep c = true → g c = c) :
    KeepsSeparators sep (List.map g) where
  nil := rfl
  append_cons := by
    intro s c t hc
    simp only [map_append, map_cons, hg c hc]

theorem filter {p : α → Bool} (hp : ∀ c, sep c = true → p c = true) :
    KeepsSeparators sep (List.filter p) where
  nil := rfl
  append_cons := by
    intro s c t hc
    simp only [filter_append, filter_cons, hp c hc, if_true]

theorem runs_eq_flatMap {f : List α → List α} (hf : KeepsSeparators sep f)
    (hi : ∀ c, sep c = true → inner c = true) (t : List α) :
    runs inner (f t) = (runs sep t).flatMap fun w => runs inner (f w) := by
  induction hn : t.length using Nat.strongRecOn generalizing t with
  | ind n ih =>
    by_cases hsep : ∃ c ∈ t, sep c = true
    · obtain ⟨c, hmem, hc⟩ := hsep
      obtain ⟨s, u, rfl⟩ := append_of_mem hmem
      simp only [length_append, length_cons] at hn
      rw [hf.append_cons s c u hc, runs_append_cons (hi c hc), runs_append_cons hc,
        flatMap_append, ih s.length (by omega) s rfl, ih u.length (by omega) u rfl]
    · cases t with
      | nil => simp [hf.nil, runs_nil]
      | cons a l =>
        have hrun : IsRun sep (a :: l) := by
          refine ⟨by simp, ?_⟩
          intro c hmem
          by_contra hc
          exact hsep ⟨c, hmem, by simpa using hc⟩
        rw [hrun.runs]
        simp

end KeepsSeparators

def padded (gap c : α) (w : List α) (n : ℕ) : List α :=
  w ++ (List.replicate n [gap, c]).flatten

theorem padded_succ (gap c : α) (w : List α) (n : ℕ) :
    padded gap c w (n + 1) = w ++ gap :: padded gap c [c] n := by
  simp [padded, replicate_succ]

theorem runs_padded {gap c : α} (hgap : sep gap = true) (hc : sep c = false) {w : List α}
    (hw : IsRun sep w) (n : ℕ) : runs sep (padded gap c w n) = w :: List.replicate n [c] := by
  induction n generalizing w with
  | zero => simpa [padded] using hw.runs
  | succ n ih =>
    have hrun : IsRun sep [c] := ⟨by simp, by simpa using hc⟩
    rw [padded_succ, runs_append_cons hgap, hw.runs, ih hrun]
    simp [replicate_succ]

theorem countP_padded (p : α → Bool) (gap c : α) (w : List α) (n : ℕ) :
    (padded gap c w n).countP p =
      w.countP p + n * ((if p gap then 1 else 0) + if p c then 1 else 0) := by
  induction n with
  | zero => simp [padded]
  | succ n ih =>
    simp only [padded, countP_append, replicate_succ, flatten_cons,
      countP_cons, countP_nil] at ih ⊢
    rw [Nat.succ_mul]
    omega

end Aizzak.SeparatedRuns
