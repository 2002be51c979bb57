import Aizzak.FirstOccurrences

/-!
Tables of counts under unique keys. Counting a list of keys, adding one table to another, and
the two ways to put a table into an order: by the names of its keys or along a list of members.
An ordered table of positive counts is determined by its counts.
-/
namespace Aizzak.CountTables

open List

variable {κ ν : Type*} [DecidableEq κ]

def countIn (items : List (κ × ℕ)) (k : κ) : ℕ := (items.find? (·.1 = k)).elim 0 Prod.snd

/-- A key that is there keeps its place. -/
def addTo : List (κ × ℕ) → κ → ℕ → List (κ × ℕ)
  | [], k, n => [(k, n)]
  | (i, m) :: rest, k, n => if i = k then (i, m + n) :: rest else (i, m) :: addTo rest k n

theorem countIn_cons (entry : κ × ℕ) (items : List (κ × ℕ)) (k : κ) :
    countIn (entry :: items) k = if entry.1 = k then entry.2 else countIn items k := by
  rw [countIn, List.find?_cons]
  by_cases h : entry.1 = k
  · rw [decide_eq_true h, if_pos h]
    rfl
  · rw [decide_eq_false h, if_neg h]
    rfl

theorem countIn_of_notMem {items : List (κ × ℕ)} {k : κ} (h : k ∉ items.map Prod.fst) :
    countIn items k = 0 := by
  have hn : items.find? (·.1 = k) = none := by
    rw [List.find?_eq_none]
    intro entry he
    rw [decide_eq_true_eq]
    rintro rfl
    exact h (mem_map_of_mem he)
  rw [countIn, hn]
  rfl

theorem countIn_of_mem {items : List (κ × ℕ)} {entry : κ × ℕ} (hn : (items.map Prod.fst).Nodup)
    (h : entry ∈ items) : countIn items entry.1 = entry.2 := by
  induction items with
  | nil => exact absurd h not_mem_nil
  | cons first items ih =>
    rw [map_cons, nodup_cons] at hn
    rw [countIn_cons]
    rcases mem_cons.mp h with rfl | hmem
    · exact if_pos rfl
    · have hne : first.1 ≠ entry.1 := by
        intro heq
        exact hn.1 (heq ▸ mem_map_of_mem hmem)
      rw [if_neg hne, ih hn.2 hmem]

/-- One count changes, by what is added. -/
theorem countIn_addTo (items : List (κ × ℕ)) (k i : κ) (n : ℕ) :
    countIn (addTo items k n) i = countIn items i + if k = i then n else 0 := by
  induction items with
  | nil =>
    rw [addTo, countIn_cons]
    exact (Nat.zero_add _).symm
  | cons entry items ih =>
    obtain ⟨j, m⟩ := entry
    rw [addTo]
    by_cases hjk : j = k
    · subst hjk
      rw [if_pos rfl, countIn_cons, countIn_cons]
      split_ifs
      · rfl
      · rfl
    · rw [if_neg hjk, countIn_cons, countIn_cons, ih]
      by_cases hji : j = i
      · subst hji
        simp [Ne.symm hjk]
      · simp [hji]

/-- Keys are kept in place, a new one goes to the end. -/
theorem map_fst_addTo (items : List (κ × ℕ)) (k : κ) (n : ℕ) :
    (addTo items k n).map Prod.fst =
      if k ∈ items.map Prod.fst then items.map Prod.fst else items.map Prod.fst ++ [k] := by
  induction items with
  | nil => rfl
  | cons entry items ih =>
    obtain ⟨j, m⟩ := entry
    rw [addTo]
    by_cases hjk : j = k
    · subst hjk
      simp
    · rw [if_neg hjk, map_cons, ih]
      simp only [map_cons, mem_cons, Ne.symm hjk, false_or]
      split_ifs
      · rfl
      · rfl

/-- Counting the occurrences is counting in the list. -/
theorem countIn_occurrences [BEq κ] [LawfulBEq κ] (keys : List κ) (k : κ) :
    countIn (keys.eraseDups.map fun i => (i, keys.count i)) k = keys.count k := by
  have hke : (keys.eraseDups.map fun i => (i, keys.count i)).map Prod.fst = keys.eraseDups := by
    rw [map_map]
    exact map_id _
  by_cases hk : k ∈ keys
  · have he : (k, keys.count k) ∈ keys.eraseDups.map fun i => (i, keys.count i) :=
      mem_map.mpr ⟨k, mem_eraseDups.mpr hk, rfl⟩
    refine countIn_of_mem ?_ he
    rw [hke]
    exact FirstOccurrences.nodup_eraseDups keys
  · rw [count_eq_zero_of_not_mem hk, countIn_of_notMem]
    rw [hke, mem_eraseDups]
    exact hk

structure CountTable (κ : Type*) where
  items : List (κ × ℕ)
  nodup : (items.map Prod.fst).Nodup

namespace CountTable

def empty : CountTable κ := ⟨[], List.nodup_nil⟩

def count (t : CountTable κ) (k : κ) : ℕ := countIn t.items k

def add (t : CountTable κ) (k : κ) (n : ℕ) : CountTable κ where
  items := addTo t.items k n
  nodup := by
    rw [map_fst_addTo]
    split_ifs with hmem
    · exact t.nodup
    · rw [List.nodup_append]
      refine ⟨t.nodup, List.nodup_singleton k, fun i hi j hj => ?_⟩
      rw [List.mem_singleton.mp hj]
      rintro rfl
      exact hmem hi

def addSome (t : CountTable κ) (k : Option κ) : CountTable κ := k.elim t (t.add · 1)

def update (t other : CountTable κ) : CountTable κ :=
  other.items.foldl (fun t entry => t.add entry.1 entry.2) t

def sortedBy [LinearOrder ν] (name : κ → ν) (t : CountTable κ) : CountTable κ where
  items := t.items.insertionSort fun a b => name a.1 ≤ name b.1
  nodup := (((List.perm_insertionSort _ t.items).map Prod.fst).nodup_iff).mpr t.nodup

def positive (t : CountTable κ) : CountTable κ where
  items := t.items.filter (0 < ·.2)
  nodup := (List.filter_sublist.map Prod.fst).nodup t.nodup

def along (members : List κ) (hnodup : members.Nodup) (t : CountTable κ) : CountTable κ where
  items := (members.filter (0 < t.count ·)).map fun k => (k, t.count k)
  nodup := by
    rw [List.map_map]
    exact (List.map_id _).symm ▸ hnodup.filter _

def renamed (name : κ → ν) (hname : Function.Injective name) (t : CountTable κ) :
    CountTable ν where
  items := t.items.map fun entry => (name entry.1, entry.2)
  nodup := by
    have hkeys : (t.items.map fun entry => (name entry.1, entry.2)).map Prod.fst =
        (t.items.map Prod.fst).map name := by
      rw [List.map_map, List.map_map]
      rfl
    exact hkeys ▸ t.nodup.map hname

def readAlong [DecidableEq ν] (members : List κ) (hnodup : members.Nodup) (name : κ → ν)
    (t : CountTable ν) : CountTable κ where
  items := (members.filter (name · ∈ t.items.map Prod.fst)).map fun k => (k, t.count (name k))
  nodup := by
    rw [List.map_map]
    exact (List.map_id _).symm ▸ hnodup.filter _

@[simp] theorem count_add (t : CountTable κ) (k i : κ) (n : ℕ) :
    (t.add k n).count i = t.count i + if k = i then n else 0 :=
  countIn_addTo t.items k i n

@[simp] theorem count_addSome (t : CountTable κ) (k : Option κ) (i : κ) :
    (t.addSome k).count i = t.count i + if k = some i then 1 else 0 := by
  cases k with
  | none => rfl
  | some k =>
    simp only [Option.some.injEq]
    exact count_add t k i 1

@[simp] theorem count_update (t other : CountTable κ) (k : κ) :
    (t.update other).count k = t.count k + other.count k := by
  obtain ⟨items, hnodup⟩ := other
  unfold update count
  dsimp only
  induction items generalizing t with
  | nil => rfl
  | cons entry items ih =>
    rw [List.map_cons, List.nodup_cons] at hnodup
    rw [List.foldl_cons, ih _ hnodup.2, countIn_cons]
    change (t.add entry.1 entry.2).count k + _ = t.count k + _
    rw [count_add, Nat.add_assoc]
    by_cases hk : entry.1 = k
    · rw [if_pos hk, if_pos hk, ← hk, countIn_of_notMem hnodup.1, Nat.add_zero]
    · rw [if_neg hk, if_neg hk, Nat.zero_add]

variable {t : CountTable κ} {k : κ}

theorem count_of_mem {n : ℕ} (h : (k, n) ∈ t.items) :
    t.count k = n :=
  countIn_of_mem t.nodup h

theorem mem_of_count_pos (h : 0 < t.count k) :
    (k, t.count k) ∈ t.items := by
  by_cases hmem : k ∈ t.items.map Prod.fst
  · obtain ⟨entry, he, rfl⟩ := mem_map.mp hmem
    rwa [count_of_mem he]
  · rw [count, countIn_of_notMem hmem] at h
    exact absurd h (lt_irrefl 0)

/-- The entries that stay are the counted ones. -/
theorem mem_positive_iff {entry : κ × ℕ} :
    entry ∈ t.positive.items ↔ 0 < entry.2 ∧ t.count entry.1 = entry.2 := by
  rw [positive, mem_filter, decide_eq_true_eq]
  constructor
  · rintro ⟨hmem, hpos⟩
    exact ⟨hpos, count_of_mem hmem⟩
  · rintro ⟨hpos, hc⟩
    have hmem := mem_of_count_pos (hc ▸ hpos : 0 < t.count entry.1)
    rw [hc] at hmem
    exact ⟨hmem, hpos⟩

variable {other : CountTable κ}

theorem count_of_perm (h : t.items.Perm other.items) (k : κ) :
    t.count k = other.count k := by
  by_cases hmem : k ∈ t.items.map Prod.fst
  · obtain ⟨entry, he, rfl⟩ := mem_map.mp hmem
    rw [count_of_mem he, count_of_mem (h.subset he)]
  · rw [count, count, countIn_of_notMem hmem,
      countIn_of_notMem fun ho => hmem ((h.map Prod.fst).symm.subset ho)]

@[simp] theorem count_sortedBy [LinearOrder ν] (name : κ → ν) (t : CountTable κ) (k : κ) :
    (t.sortedBy name).count k = t.count k :=
  count_of_perm (List.perm_insertionSort _ t.items) k

@[simp] theorem count_positive (t : CountTable κ) (k : κ) : t.positive.count k = t.count k := by
  rcases Nat.eq_zero_or_pos (t.count k) with hzero | hpos
  · have hnot : k ∉ t.positive.items.map Prod.fst := by
      intro hmem
      obtain ⟨entry, hentry, rfl⟩ := List.mem_map.mp hmem
      have := mem_positive_iff.mp hentry
      omega
    rw [hzero, count, countIn_of_notMem hnot]
  · exact count_of_mem (mem_positive_iff.mpr ⟨hpos, rfl⟩)

variable {members : List κ}

theorem count_along (hn : members.Nodup) (t : CountTable κ) (hk : k ∈ members) :
    (t.along members hn).count k = t.count k := by
  rcases Nat.eq_zero_or_pos (t.count k) with hz | hpos
  · have hnot : k ∉ (t.along members hn).items.map Prod.fst := by
      rw [along, map_map]
      intro hmem
      obtain ⟨i, hi, rfl⟩ := mem_map.mp hmem
      have hpos := of_decide_eq_true (mem_filter.mp hi).2
      exact absurd hz hpos.ne'
    rw [hz, count, countIn_of_notMem hnot]
  · refine count_of_mem (mem_map.mpr ⟨k, ?_, rfl⟩)
    exact mem_filter.mpr ⟨hk, decide_eq_true hpos⟩

variable {name : κ → ν}

@[simp] theorem count_renamed [DecidableEq ν] (hname : Function.Injective name) (t : CountTable κ)
    (k : κ) : (t.renamed name hname).count (name k) = t.count k := by
  obtain ⟨items, hnodup⟩ := t
  unfold renamed count
  dsimp only
  clear hnodup
  induction items with
  | nil => rfl
  | cons entry items ih =>
    rw [List.map_cons, countIn_cons, countIn_cons, ih]
    simp only [hname.eq_iff]

theorem count_readAlong [DecidableEq ν] (hn : members.Nodup) (t : CountTable ν)
    (hk : k ∈ members) :
    (t.readAlong members hn name).count k = t.count (name k) := by
  by_cases hmem : name k ∈ t.items.map Prod.fst
  · exact count_of_mem (mem_map.mpr
      ⟨k, mem_filter.mpr ⟨hk, decide_eq_true hmem⟩, rfl⟩)
  · have hnot : k ∉ (t.readAlong members hn name).items.map Prod.fst := by
      rw [readAlong, map_map]
      intro hk
      obtain ⟨i, hi, rfl⟩ := mem_map.mp hk
      exact hmem (of_decide_eq_true (mem_filter.mp hi).2)
    rw [count, countIn_of_notMem hnot, count, countIn_of_notMem hmem]

theorem along_congr (hnodup : members.Nodup) (h : ∀ k, t.count k = other.count k) :
    t.along members hnodup = other.along members hnodup := by
  have hc : t.count = other.count := funext h
  unfold along
  congr 1
  rw [hc]

/-- Only the positive counts matter to the sorted items. -/
theorem sortedBy_positive_congr [LinearOrder ν] (hn : Function.Injective name)
    (h : ∀ k, t.count k = other.count k) :
    t.positive.sortedBy name = other.positive.sortedBy name := by
  have hp : t.positive.items.Perm other.positive.items := by
    refine (perm_ext_iff_of_nodup t.positive.nodup.of_map other.positive.nodup.of_map).mpr
      fun entry => ?_
    rw [mem_positive_iff, mem_positive_iff, h]
  have ht : Std.Total fun a b : κ × ℕ => name a.1 ≤ name b.1 := ⟨fun _ _ => le_total _ _⟩
  have htr : IsTrans (κ × ℕ) fun a b => name a.1 ≤ name b.1 := ⟨fun _ _ _ => le_trans⟩
  have hitems : (t.positive.sortedBy name).items = (other.positive.sortedBy name).items := by
    refine List.Perm.eq_of_pairwise (fun a b ha hb hab hba => ?_)
      (pairwise_insertionSort _ t.positive.items)
      (pairwise_insertionSort _ other.positive.items)
      (((perm_insertionSort _ _).trans hp).trans (perm_insertionSort _ _).symm)
    have hkey : a.1 = b.1 := hn (le_antisymm hab hba)
    have hc := (mem_positive_iff.mp ((mem_insertionSort _).mp ha)).2
    have ho := (mem_positive_iff.mp ((mem_insertionSort _).mp hb)).2
    exact Prod.ext hkey (by rw [← hc, ← ho, h, hkey])
  unfold sortedBy at hitems ⊢
  congr 1

end CountTable

end Aizzak.CountTables
