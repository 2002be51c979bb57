import Mathlib

/-!
Tables of rows under unique keys, as Mathlib's association lists. What a row of a
changed table was before the change, and how many rows a change leaves.
-/
namespace Aizzak.KeyedTables

open List

variable {κ α : Type*} [DecidableEq κ] {table : AList fun _ : κ => α}

variable {k i : κ} {a b : α}

theorem lookup_insert_iff :
    (table.insert k a).lookup i = some b ↔
      (i = k ∧ a = b) ∨ (i ≠ k ∧ table.lookup i = some b) := by
  by_cases hik : i = k
  · subst hik
    simp
  · simp [AList.lookup_insert_ne hik, hik]

theorem forall_insert {P : κ → α → Prop} (hnew : P k a)
    (hold : ∀ i b, table.lookup i = some b → P i b) :
    ∀ i b, (table.insert k a).lookup i = some b → P i b := by
  intro i b hi
  rcases lookup_insert_iff.mp hi with ⟨rfl, rfl⟩ | ⟨-, hi⟩
  · exact hnew
  · exact hold i b hi

theorem lookup_erase_iff :
    (table.erase k).lookup i = some b ↔ i ≠ k ∧ table.lookup i = some b := by
  by_cases hik : i = k
  · subst hik
    simp
  · simp [AList.lookup_erase_ne hik, hik]

theorem mem_of_lookup (h : table.lookup k = some a) : k ∈ table := by
  rw [← AList.lookup_isSome, h]
  rfl

/-- Two rows that were found are one, or they have different keys. -/
theorem same_or_ne (h : table.lookup k = some a) (h' : table.lookup i = some b) :
    (i = k ∧ b = a) ∨ i ≠ k := by
  by_cases hik : i = k
  · subst hik
    exact Or.inl ⟨rfl, Option.mem_unique h' h⟩
  · exact Or.inr hik

/-- A row stays when another one is added under a fresh key. -/
theorem lookup_insert_of_lookup (hnew : k ∉ table) (h : table.lookup i = some b) :
    (table.insert k a).lookup i = some b := by
  have hne : i ≠ k := by
    rintro rfl
    exact hnew (mem_of_lookup h)
  rwa [AList.lookup_insert_ne hne]

theorem length_keys_insert_of_notMem (h : k ∉ table) :
    (table.insert k a).keys.length = table.keys.length + 1 := by
  rw [AList.keys_insert, erase_of_not_mem (by rwa [← AList.mem_keys])]
  rfl

theorem length_keys_erase (h : k ∈ table) :
    (table.erase k).keys.length + 1 = table.keys.length := by
  have hmem : k ∈ table.keys := AList.mem_keys.mp h
  have hpos := length_pos_of_mem hmem
  rw [AList.keys_erase, length_erase_of_mem hmem]
  omega

theorem length_keys_insert_of_mem (h : k ∈ table) :
    (table.insert k a).keys.length = table.keys.length := by
  have he := length_keys_erase h
  rw [AList.keys_erase] at he
  rw [AList.keys_insert, length_cons, he]

def eraseAll (table : AList fun _ : κ => α) (ks : List κ) : AList fun _ : κ => α :=
  ks.foldl (fun t k => t.erase k) table

theorem lookup_eraseAll_eq_some_iff {ks : List κ} :
    (eraseAll table ks).lookup i = some b ↔ i ∉ ks ∧ table.lookup i = some b := by
  induction ks generalizing table with
  | nil => simp [eraseAll]
  | cons k ks ih =>
    have hf : eraseAll table (k :: ks) = eraseAll (table.erase k) ks := rfl
    rw [hf, ih, lookup_erase_iff, mem_cons, not_or]
    tauto

def eraseWhere (table : AList fun _ : κ => α) (test : κ → α → Bool) : AList fun _ : κ => α :=
  eraseAll table ((table.entries.filter fun entry => test entry.1 entry.2).map (·.1))

theorem lookup_eraseWhere_eq_some_iff {test : κ → α → Bool} :
    (eraseWhere table test).lookup i = some b ↔ table.lookup i = some b ∧ test i b = false := by
  rw [eraseWhere, lookup_eraseAll_eq_some_iff]
  constructor
  · rintro ⟨hnot, hl⟩
    refine ⟨hl, ?_⟩
    by_contra ht
    rw [Bool.not_eq_false] at ht
    refine hnot (mem_map.mpr ⟨⟨i, b⟩, mem_filter.mpr ⟨?_, ht⟩, rfl⟩)
    exact AList.mem_lookup_iff.mp hl
  · rintro ⟨hl, ht⟩
    refine ⟨fun hmem => ?_, hl⟩
    obtain ⟨entry, he, rfl⟩ := mem_map.mp hmem
    obtain ⟨hrow, hp⟩ := mem_filter.mp he
    have ho : table.lookup entry.1 = some entry.2 := AList.mem_lookup_iff.mpr hrow
    obtain rfl := Option.mem_unique hl ho
    rw [hp] at ht
    cases ht

def anyRow (table : AList fun _ : κ => α) (test : κ → α → Bool) : Bool :=
  table.entries.any fun entry => test entry.1 entry.2

theorem anyRow_eq_true_iff {test : κ → α → Bool} :
    anyRow table test = true ↔ ∃ k a, table.lookup k = some a ∧ test k a = true := by
  simp only [anyRow, any_eq_true, ← AList.mem_lookup_iff, Option.mem_def, Sigma.exists]

def total (f : α → ℕ) (table : AList fun _ : κ => α) : ℕ :=
  (table.entries.map fun entry => f entry.2).sum

variable {f : α → ℕ}

theorem total_insert_of_notMem (h : k ∉ table) :
    total f (table.insert k a) = f a + total f table := by
  rw [total, AList.entries_insert_of_notMem h, map_cons, sum_cons]
  rfl

theorem total_insert_of_lookup {old : α} (h : table.lookup k = some old) :
    total f (table.insert k a) + f old = f a + total f table := by
  obtain ⟨found, front, back, -, hen, he⟩ :=
    exists_of_kerase (AList.mem_keys.mp (mem_of_lookup h))
  obtain rfl : old = found := by
    have hmem : (⟨k, found⟩ : Sigma fun _ : κ => α) ∈ table.entries := by
      rw [hen]
      exact mem_append_right _ mem_cons_self
    have hl := (mem_dlookup_iff table.nodupKeys).mpr hmem
    exact Option.mem_unique h hl
  rw [total, total, AList.entries_insert, he, hen]
  simp only [map_cons, map_append, sum_cons, sum_append]
  omega

theorem total_insert :
    total f (table.insert k a) + (table.lookup k).elim 0 f = f a + total f table := by
  cases hold : table.lookup k with
  | none => exact total_insert_of_notMem (AList.lookup_eq_none.mp hold)
  | some old => exact total_insert_of_lookup hold

def highest (f : α → ℕ) (table : AList fun _ : κ => α) : ℕ :=
  (table.entries.map fun entry => f entry.2).foldr max 0

theorem le_highest (h : table.lookup k = some a) :
    f a ≤ highest f table := by
  have hmem : f a ∈ table.entries.map fun entry => f entry.2 :=
    mem_map.mpr ⟨⟨k, a⟩, AList.mem_lookup_iff.mp h, rfl⟩
  exact le_max_of_le' 0 hmem le_rfl

theorem exists_of_highest_pos (hpos : 0 < highest f table) :
    ∃ k a, table.lookup k = some a ∧ f a = highest f table := by
  have ha : ∀ l : List ℕ, 0 < l.foldr max 0 → l.foldr max 0 ∈ l := by
    intro l
    induction l with
    | nil => simp
    | cons n l ih =>
      intro hn
      rw [foldr_cons] at hn ⊢
      rcases max_choice n (l.foldr max 0) with hmax | hmax
      · rw [hmax]
        exact mem_cons_self
      · rw [hmax] at hn ⊢
        exact mem_cons_of_mem _ (ih hn)
  obtain ⟨entry, he, heq⟩ := mem_map.mp (ha _ hpos)
  exact ⟨entry.1, entry.2, AList.mem_lookup_iff.mpr he, heq⟩

theorem highest_insert_of_notMem (h : k ∉ table) :
    highest f (table.insert k a) = max (f a) (highest f table) := by
  rw [highest, AList.entries_insert_of_notMem h, map_cons, foldr_cons]
  rfl

def putAll (table : AList fun _ : κ => α) (entries : List (κ × α)) : AList fun _ : κ => α :=
  entries.foldl (fun table entry => table.insert entry.1 entry.2) table

theorem mem_putAll {entries : List (κ × α)} :
    k ∈ putAll table entries ↔ k ∈ table ∨ k ∈ entries.map Prod.fst := by
  induction entries generalizing table with
  | nil => simp [putAll]
  | cons entry entries ih =>
    rw [putAll, foldl_cons, ← putAll, ih, AList.mem_insert, map_cons, mem_cons]
    tauto

theorem lookup_putAll_of_notMem {entries : List (κ × α)} (h : k ∉ entries.map Prod.fst) :
    (putAll table entries).lookup k = table.lookup k := by
  induction entries generalizing table with
  | nil => rfl
  | cons entry entries ih =>
    rw [map_cons, mem_cons, not_or] at h
    rw [putAll, foldl_cons, ← putAll, ih h.2, AList.lookup_insert_ne h.1]

theorem lookup_putAll_of_mem {entries : List (κ × α)} (hd : (entries.map Prod.fst).Nodup)
    (h : (k, a) ∈ entries) : (putAll table entries).lookup k = some a := by
  induction entries generalizing table with
  | nil => cases h
  | cons entry entries ih =>
    rw [map_cons, nodup_cons] at hd
    rw [putAll, foldl_cons, ← putAll]
    rcases mem_cons.mp h with rfl | h
    · rw [lookup_putAll_of_notMem hd.1, AList.lookup_insert]
    · exact ih hd.2 h

/-- No entry of a list takes the key of another exactly when each of them leaves a key. -/
theorem length_keys_putAll_iff {entries : List (κ × α)} :
    (putAll ∅ entries).keys.length = entries.length ↔ (entries.map Prod.fst).Nodup := by
  have hp : (putAll ∅ entries).keys ~ (entries.map Prod.fst).dedup :=
    (perm_ext_iff_of_nodup (putAll ∅ entries).keys_nodup (nodup_dedup _)).mpr fun k => by
      rw [mem_dedup]
      refine mem_putAll.trans ?_
      simp
  have hl : (entries.map Prod.fst).length = entries.length := length_map _
  rw [hp.length_eq, ← hl]
  constructor
  · intro h
    rw [← (dedup_sublist _).eq_of_length h]
    exact nodup_dedup _
  · intro h
    rw [dedup_eq_self.mpr h]

end Aizzak.KeyedTables
