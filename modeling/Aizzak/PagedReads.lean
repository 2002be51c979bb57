import Mathlib

/-!
Reading a table piece by piece: a list cut into slices of one size, and a table sorted by a key
that is read by pages, each beginning after the last key of the one before. Neither loses a row
nor reads one twice.
-/
namespace Aizzak.PagedReads

open List

variable {α K : Type*}

def slices (size : ℕ) (items : List α) : List (List α) :=
  (List.range ((items.length + size - 1) / size)).map fun i => (items.drop (i * size)).take size

theorem flatten_slices {size : ℕ} (hs : 0 < size) (items : List α) :
    (slices size items).flatten = items := by
  have hpart : ∀ n, ((List.range n).map fun i => (items.drop (i * size)).take size).flatten =
      items.take (n * size) := by
    intro n
    induction n with
    | zero => simp
    | succ n ih =>
      rw [range_succ, map_append, flatten_append, ih, Nat.succ_mul, take_add]
      simp
  rw [slices, hpart, take_of_length_le]
  have hmod := Nat.div_add_mod (items.length + size - 1) size
  have hlt := Nat.mod_lt (items.length + size - 1) hs
  rw [Nat.mul_comm] at hmod
  omega

theorem mem_slices {size : ℕ} (hs : 0 < size) {items : List α} {a : α} :
    (∃ slice ∈ slices size items, a ∈ slice) ↔ a ∈ items := by
  rw [← mem_flatten, flatten_slices hs]

theorem slices_map {β : Type*} (f : α → β) (size : ℕ) (items : List α) :
    slices size (items.map f) = (slices size items).map (List.map f) := by
  rw [slices, slices, length_map, map_map]
  apply map_congr_left
  intro i _
  rw [Function.comp_apply, map_take, map_drop]

section Pages

variable [LinearOrder K] (key : α → K)

def past (rows : List α) (start : Option K) : List α :=
  rows.filter fun a => start.all (· < key a)

def pagesFrom (size : ℕ) (rows : List α) : ℕ → Option K → List α
  | 0, _ => []
  | fuel + 1, start =>
    let page := (past key rows start).take size
    if page.length < size then page
    else
      match page.getLast? with
      | none => page
      | some last => page ++ pagesFrom size rows fuel (some (key last))

def pages (size : ℕ) (rows : List α) : List α :=
  pagesFrom key size rows (rows.length + 1) none

variable {key} {rows : List α}

/-- Behind the last row of a page lies the rest. -/
theorem past_last (hs : rows.Pairwise (key · < key ·)) {start : Option K}
    {page rest : List α} {last : α} (hsp : past key rows start = page ++ rest)
    (hl : page.getLast? = some last) : past key rows (some (key last)) = rest := by
  have hmem : last ∈ past key rows start := by
    rw [hsp]
    exact mem_append_left _ (mem_of_getLast? hl)
  have hst : start.all (· < key last) = true := (mem_filter.mp hmem).2
  have hps : past key rows (some (key last)) =
      (past key rows start).filter (key last < key ·) := by
    rw [past, past, filter_filter]
    apply filter_congr
    intro a _
    cases start with
    | none => simp
    | some k =>
      simp only [Option.all_some, decide_eq_true_eq] at hst ⊢
      by_cases ha : key last < key a
      · simp [ha, lt_trans hst ha]
      · simp [ha]
  have hp : (page ++ rest).Pairwise (key · < key ·) := hsp ▸ hs.filter _
  obtain ⟨hpa, -, hac⟩ := pairwise_append.mp hp
  obtain ⟨front, rfl⟩ : ∃ front, page = front ++ [last] :=
    List.getLast?_eq_some_iff.mp hl
  have hf : (front ++ [last]).filter (key last < key ·) = [] := by
    apply filter_eq_nil_iff.mpr
    intro a ha
    rcases mem_append.mp ha with ha | ha
    · have hlt := (pairwise_append.mp hpa).2.2 a ha last mem_cons_self
      simpa using le_of_lt hlt
    · rw [mem_singleton.mp ha]
      simp
  have hr : rest.filter (key last < key ·) = rest := by
    apply filter_eq_self.mpr
    intro a ha
    simpa using hac last (by simp) a ha
  rw [hps, hsp, filter_append, hf, hr, nil_append]

theorem pagesFrom_eq (hs : rows.Pairwise (key · < key ·)) {size : ℕ} (hsi : 0 < size)
    {fuel : ℕ} {start : Option K} (hf : (past key rows start).length < fuel) :
    pagesFrom key size rows fuel start = past key rows start := by
  induction fuel generalizing start with
  | zero => omega
  | succ fuel ih =>
    have hsp := (take_append_drop size (past key rows start)).symm
    have hl := congrArg List.length hsp
    rw [length_append] at hl
    rw [pagesFrom]
    split_ifs with hsh
    · rw [length_take] at hsh
      exact take_of_length_le (by omega)
    · split
      · rename_i hno
        rw [List.getLast?_eq_none_iff.mp hno] at hsh
        simp at hsh
        omega
      · rename_i last hla
        have hn := past_last hs hsp hla
        rw [ih (by rw [hn]; omega), hn, ← hsp]

/-- A sorted table read by pages is read whole. -/
theorem pages_eq (hs : rows.Pairwise (key · < key ·)) {size : ℕ} (hsi : 0 < size) :
    pages key size rows = rows := by
  have hall : past key rows none = rows := by simp [past]
  rw [pages, pagesFrom_eq hs hsi (by rw [hall]; omega), hall]

end Pages

end Aizzak.PagedReads
