import Mathlib

/-!
Lists whose elements carry a key. Sorted by keys that differ, a list has one order
whatever order it came in. Keeping the first element of each key leaves every key that
was there, each of them once.
-/
namespace Aizzak.KeyedLists

variable {α κ : Type*} (key : α → κ)

section Sorting

variable [LinearOrder κ]

def sortByKey (l : List α) : List α := l.insertionSort fun a b => key a ≤ key b

theorem perm_sortByKey (l : List α) : (sortByKey key l).Perm l :=
  List.perm_insertionSort _ l

theorem mem_sortByKey {l : List α} {a : α} : a ∈ sortByKey key l ↔ a ∈ l :=
  (perm_sortByKey key l).mem_iff

theorem pairwise_sortByKey (l : List α) :
    (sortByKey key l).Pairwise fun a b => key a ≤ key b := by
  have ht : Std.Total fun a b : α => key a ≤ key b := ⟨fun _ _ => le_total _ _⟩
  have htr : IsTrans α fun a b => key a ≤ key b := ⟨fun _ _ _ => le_trans⟩
  exact List.pairwise_insertionSort _ l

theorem sortByKey_eq_of_perm {l other : List α} (hp : l.Perm other)
    (hk : (l.map key).Nodup) : sortByKey key l = sortByKey key other := by
  have hs : (sortByKey key l).Perm (sortByKey key other) :=
    (perm_sortByKey key l).trans (hp.trans (perm_sortByKey key other).symm)
  apply hs.eq_of_pairwise _ (pairwise_sortByKey key l) (pairwise_sortByKey key other)
  intro a b ha hb hab hba
  apply List.inj_on_of_nodup_map hk
  · exact (mem_sortByKey key).mp ha
  · exact hp.mem_iff.mpr ((mem_sortByKey key).mp hb)
  · exact le_antisymm hab hba

end Sorting

section Keeping

variable [DecidableEq κ]

def keepFirst : List α → List κ → List α
  | [], _ => []
  | a :: l, seen =>
    if key a ∈ seen then keepFirst l seen else a :: keepFirst l (key a :: seen)

theorem sublist_keepFirst (l : List α) (seen : List κ) : (keepFirst key l seen).Sublist l := by
  induction l generalizing seen with
  | nil => exact List.Sublist.slnil
  | cons a l ih =>
    rw [keepFirst]
    split_ifs with hs
    · exact (ih seen).cons a
    · exact (ih (key a :: seen)).cons_cons a

theorem notMem_of_mem_keepFirst {l : List α} {seen : List κ} {a : α}
    (h : a ∈ keepFirst key l seen) : key a ∉ seen := by
  induction l generalizing seen with
  | nil => cases h
  | cons b l ih =>
    rw [keepFirst] at h
    split_ifs at h with hs
    · exact ih h
    · rcases List.mem_cons.mp h with rfl | hl
      · exact hs
      · exact fun hmem => ih hl (List.mem_cons_of_mem _ hmem)

/-- Every key is kept at most once. -/
theorem nodup_keys_keepFirst (l : List α) (seen : List κ) :
    ((keepFirst key l seen).map key).Nodup := by
  induction l generalizing seen with
  | nil => exact List.nodup_nil
  | cons a l ih =>
    rw [keepFirst]
    split_ifs with hs
    · exact ih seen
    · rw [List.map_cons, List.nodup_cons]
      refine ⟨fun hmem => ?_, ih _⟩
      obtain ⟨b, hb, hkey⟩ := List.mem_map.mp hmem
      apply notMem_of_mem_keepFirst key hb
      rw [hkey]
      exact List.mem_cons_self

theorem exists_mem_keepFirst {l : List α} {seen : List κ} {a : α} (h : a ∈ l) :
    key a ∈ seen ∨ ∃ b ∈ keepFirst key l seen, key b = key a := by
  induction l generalizing seen with
  | nil => cases h
  | cons b l ih =>
    rw [keepFirst]
    by_cases hs : key b ∈ seen
    · rw [if_pos hs]
      rcases List.mem_cons.mp h with rfl | hl
      · exact .inl hs
      · exact ih hl
    · rw [if_neg hs]
      rcases List.mem_cons.mp h with rfl | hl
      · exact .inr ⟨a, List.mem_cons_self, rfl⟩
      · rcases @ih (key b :: seen) hl with hin | ⟨c, hc, hkey⟩
        · rcases List.mem_cons.mp hin with heq | he
          · exact .inr ⟨b, List.mem_cons_self, heq.symm⟩
          · exact .inl he
        · exact .inr ⟨c, List.mem_cons_of_mem _ hc, hkey⟩

end Keeping

end Aizzak.KeyedLists
