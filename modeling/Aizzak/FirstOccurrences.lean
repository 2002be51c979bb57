import Mathlib

/-!
A list in which elements may be repeated, read by the first occurrence of each: a log in which
a message may be written more than once. One element comes first before another when no
occurrence of the other stands ahead of all of its own.
-/
namespace Aizzak.FirstOccurrences

open List

variable {α : Type*}

/-- Whenever `y` occurs in the list, `x` has occurred before. -/
def FirstBefore (l : List α) (x y : α) : Prop :=
  ∀ before after, l = before ++ y :: after → x ∈ before

variable {l : List α} {x y : α}

theorem firstBefore_of_notMem (h : y ∉ l) : FirstBefore l x y := by
  rintro before after rfl
  simp at h

theorem FirstBefore.concat {z : α} (h : FirstBefore l x y) (hnew : z = y → x ∈ l) :
    FirstBefore (l ++ [z]) x y := by
  intro before after heq
  rcases eq_nil_or_concat after with rfl | ⟨rest, w, rfl⟩
  · obtain ⟨rfl, hz⟩ := append_inj' heq rfl
    exact hnew (singleton_inj.mp hz)
  · rw [concat_eq_append, ← cons_append, ← append_assoc] at heq
    exact h before rest (append_inj' heq rfl).1

variable {first rest : List α}

/-- What stands ahead of the first occurrence of an element is in every prefix that has it. -/
theorem mem_of_prefix (h : l <+: first ++ y :: rest) (hmem : y ∈ l) (hy : y ∉ first)
    (hx : x ∈ first) : x ∈ l := by
  rcases prefix_or_prefix_of_prefix h (prefix_append first (y :: rest)) with
    hs | hl
  · exact absurd (hs.subset hmem) hy
  · exact hl.subset hx

/-- Order is kept in the prefix of a list that is cut. -/
theorem firstBefore_of_prefix (h : l <+: first ++ y :: rest) (hy : y ∉ first) (hx : x ∈ first) :
    FirstBefore l x y := by
  rintro before after rfl
  have hup : before ++ [y] <+: first ++ y :: rest := by
    refine List.IsPrefix.trans ⟨after, ?_⟩ h
    simp
  have hin := mem_of_prefix hup (by simp) hy hx
  rcases mem_append.mp hin with hb | hl
  · exact hb
  · rw [mem_singleton] at hl
    exact absurd (hl ▸ hx) hy

theorem nodup_eraseDups [BEq α] [LawfulBEq α] (l : List α) : l.eraseDups.Nodup := by
  induction hn : l.length using Nat.strongRecOn generalizing l with
  | ind n ih =>
    cases l with
    | nil => simp
    | cons a l =>
      have hl := length_filter_le (fun b => !b == a) l
      simp only [length_cons] at hn
      rw [eraseDups_cons, nodup_cons]
      exact ⟨by simp, ih _ (by omega) _ rfl⟩

theorem length_eraseDups_le [BEq α] [LawfulBEq α] (l : List α) : l.eraseDups.length ≤ l.length :=
  (subperm_of_subset (nodup_eraseDups l) fun _ h => mem_eraseDups.mp h).length_le

variable [DecidableEq α]

theorem eraseDups_concat_of_mem (h : x ∈ l) :
    (l ++ [x]).eraseDups = l.eraseDups := by
  rw [eraseDups_append]
  simp [List.removeAll, h]

theorem eraseDups_concat_of_notMem (h : x ∉ l) :
    (l ++ [x]).eraseDups = l.eraseDups ++ [x] := by
  rw [eraseDups_append]
  simp [List.removeAll, h, eraseDups_cons]

/-- A list whose first occurrences are a prefix of another has them in the order of that one. -/
theorem firstBefore_of_eraseDups_prefix (h : l.eraseDups <+: first ++ y :: rest) (hy : y ∉ first)
    (hx : x ∈ first) :
    FirstBefore l x y := by
  rintro before after rfl
  have hup : (before ++ [y]).eraseDups <+: first ++ y :: rest := by
    have hs : before ++ y :: after = before ++ [y] ++ after := by simp
    rw [hs, eraseDups_append] at h
    exact (prefix_append _ _).trans h
  have hin := mem_of_prefix hup (by simp) hy hx
  rw [mem_eraseDups, mem_append, mem_singleton] at hin
  rcases hin with hb | rfl
  · exact hb
  · exact absurd hx hy

end Aizzak.FirstOccurrences
