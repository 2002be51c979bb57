import Mathlib

/-!
A list cut into batches from the front: an element joins the current batch while there
is room for it and starts the next one otherwise. A single element is always a batch,
so every element gets into one, in the order of the list.
-/
namespace Aizzak.GreedyBatches

variable {α : Type*} (room : List α → α → Bool)

def batchesFrom : List α → List α → List (List α)
  | [], current => if current.isEmpty then [] else [current]
  | a :: rest, current =>
    if !current.isEmpty && !room current a then current :: batchesFrom rest [a]
    else batchesFrom rest (current ++ [a])

def batches (l : List α) : List (List α) := batchesFrom room l []

theorem flatten_batchesFrom (l current : List α) :
    (batchesFrom room l current).flatten = current ++ l := by
  induction l generalizing current with
  | nil =>
    rw [batchesFrom]
    cases current <;> simp
  | cons a l ih =>
    rw [batchesFrom]
    split_ifs
    · rw [List.flatten_cons, ih, List.singleton_append]
    · rw [ih, List.append_assoc, List.singleton_append]

/-- The batches hold every element once, in order. -/
theorem flatten_batches (l : List α) : (batches room l).flatten = l :=
  flatten_batchesFrom room l []

section Invariant

variable {room} {P : List α → Prop} (hsingle : ∀ a, P [a])
  (hgrow : ∀ current a, current ≠ [] → P current → room current a = true → P (current ++ [a]))
include hsingle hgrow

theorem forall_batchesFrom {l current : List α} (hcu : current ≠ [] → P current) :
    ∀ batch ∈ batchesFrom room l current, P batch := by
  induction l generalizing current with
  | nil =>
    intro batch hb
    rw [batchesFrom] at hb
    split_ifs at hb with he
    · cases hb
    · rw [List.mem_singleton.mp hb]
      exact hcu (by simpa using he)
  | cons a l ih =>
    intro batch hb
    rw [batchesFrom] at hb
    split_ifs at hb with hc
    · rw [Bool.and_eq_true, Bool.not_eq_true', List.isEmpty_eq_false_iff] at hc
      rcases List.mem_cons.mp hb with rfl | hl
      · exact hcu hc.1
      · exact ih (fun _ => hsingle a) batch hl
    · refine ih (fun _ => ?_) batch hb
      by_cases he : current = []
      · rw [he]
        exact hsingle a
      · apply hgrow current a he (hcu he)
        rw [Bool.and_eq_true, Bool.not_eq_true', List.isEmpty_eq_false_iff] at hc
        by_contra hf
        exact hc ⟨he, by simpa using hf⟩

/-- What holds of single elements and is kept while there is room holds of every batch. -/
theorem forall_batches (l : List α) : ∀ batch ∈ batches room l, P batch :=
  forall_batchesFrom hsingle hgrow fun h => absurd rfl h

end Invariant

theorem length_batchesFrom_pos (l : List α) {current : List α} (h : current ≠ []) :
    0 < (batchesFrom room l current).length := by
  have hf := flatten_batchesFrom room l current
  apply List.length_pos_iff.mpr
  intro hnil
  rw [hnil] at hf
  exact h (List.append_eq_nil_iff.mp hf.symm).1

theorem batchesFrom_of_wider {wide : List α → α → Bool}
    (hw : ∀ current a, room current a = true → wide current a = true) {l current : List α}
    (hc : current ≠ []) (h : (batchesFrom room l current).length = 1) :
    batchesFrom wide l current = [current ++ l] := by
  have he : current.isEmpty = false := List.isEmpty_eq_false_iff.mpr hc
  induction l generalizing current with
  | nil => simp [batchesFrom, hc]
  | cons a l ih =>
    rw [batchesFrom, he, Bool.not_false, Bool.true_and] at h ⊢
    cases hr : room current a with
    | false =>
      have hm := length_batchesFrom_pos room l (List.cons_ne_nil a [])
      simp only [hr, Bool.not_false, if_true, List.length_cons] at h
      omega
    | true =>
      have hn : current ++ [a] ≠ [] := by simp
      rw [hr, Bool.not_true, if_neg Bool.false_ne_true] at h
      rw [hw current a hr, Bool.not_true, if_neg Bool.false_ne_true,
        ih hn h (List.isEmpty_eq_false_iff.mpr hn), List.append_assoc, List.singleton_append]

theorem batches_of_wider {wide : List α → α → Bool}
    (hw : ∀ current a, room current a = true → wide current a = true) {l : List α}
    (h : (batches room l).length = 1) : batches wide l = [l] := by
  cases l with
  | nil => simp [batches, batchesFrom] at h
  | cons a l =>
    have hs : ∀ other : List α → α → Bool, batches other (a :: l) = batchesFrom other l [a] :=
      fun _ => rfl
    rw [hs] at h ⊢
    exact batchesFrom_of_wider room hw (List.cons_ne_nil a []) h

end Aizzak.GreedyBatches
