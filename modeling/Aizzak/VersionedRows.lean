import Aizzak.KeyedTables

/-!
Rows with an optimistic lock. A row carries a version that every save raises by one, and a
save names the version it was read at: it goes through only while that is still the stored
one. A row read earlier is therefore current exactly as long as its version is, and a save
that goes through replaces the very row it was made from. Where every save makes one of some
moves, a stored row is what an earlier one became by such moves.
-/
namespace Aizzak.VersionedRows

open KeyedTables

structure Versioned (V : Type*) where
  value : V
  version : ℕ
deriving DecidableEq

variable {K V : Type*} [DecidableEq K]

def save (rows : AList fun _ : K => Versioned V) (key : K) (read : Versioned V) (value : V) :
    Option (AList fun _ : K => Versioned V) :=
  match rows.lookup key with
  | some row =>
    if row.version = read.version then some (rows.insert key ⟨value, row.version + 1⟩) else none
  | none => none

/-- A row read earlier: the stored one has not fallen behind it, and is the same while its
version is. -/
def Current (rows : AList fun _ : K => Versioned V) (key : K) (read : Versioned V) : Prop :=
  ∀ row, rows.lookup key = some row →
    read.version ≤ row.version ∧ (row.version = read.version → row = read)

/-- A row that later became another, by saves that each made one of the moves. -/
inductive Later (R : V → V → Prop) (old : Versioned V) : Versioned V → Prop where
  | same : Later R old old
  | moved {mid row : Versioned V} (hmid : Later R old mid) (hmove : R mid.value row.value)
      (hversion : row.version = mid.version + 1) : Later R old row

namespace Later

variable {R : V → V → Prop} {old mid row : Versioned V}

theorem single (hm : R old.value row.value) (hv : row.version = old.version + 1) :
    Later R old row :=
  .moved .same hm hv

theorem trans (h : Later R old mid) (h' : Later R mid row) : Later R old row := by
  induction h' with
  | same => exact h
  | moved _ hm hv ih => exact .moved ih hm hv

theorem keeps {p : V → Prop} (h : Later R old row)
    (hk : ∀ value after, R value after → p value → p after) (hold : p old.value) :
    p row.value := by
  induction h with
  | same => exact hold
  | moved _ hm _ ih => exact hk _ _ hm ih

theorem version_le (h : Later R old row) : old.version ≤ row.version := by
  induction h with
  | same => exact le_rfl
  | moved _ _ hv ih => omega

theorem eq_of_version (h : Later R old row) (hv : row.version = old.version) :
    row = old := by
  cases h with
  | same => rfl
  | moved hmid _ hn =>
    have hle := hmid.version_le
    omega

end Later

section Rows

variable {rows mid after : AList fun _ : K => Versioned V} {key : K} {read : Versioned V}
  {value : V}

theorem current_of_lookup (h : rows.lookup key = some read) : Current rows key read := by
  intro row hrow
  obtain rfl : read = row := Option.mem_unique h hrow
  exact ⟨le_rfl, fun _ => rfl⟩

/-- A save goes through only while the row is the one that was read. -/
theorem Current.save_eq_some (h : Current rows key read)
    (hs : save rows key read value = some after) :
    rows.lookup key = some read ∧ after = rows.insert key ⟨value, read.version + 1⟩ := by
  unfold save at hs
  split at hs
  · rename_i row hrow
    split_ifs at hs with hv
    obtain rfl := (h row hrow).2 hv
    exact ⟨hrow, (Option.some.inj hs).symm⟩
  · cases hs

theorem Current.later {R : V → V → Prop} (h : Current rows key read)
    (hl : ∀ row, after.lookup key = some row →
      ∃ old, rows.lookup key = some old ∧ Later R old row) : Current after key read := by
  intro row hrow
  obtain ⟨old, hold, hm⟩ := hl row hrow
  obtain ⟨hle, heq⟩ := h old hold
  have hv := hm.version_le
  refine ⟨by omega, fun hs => ?_⟩
  rw [hm.eq_of_version (by omega)]
  exact heq (by omega)

def Held (R : V → V → Prop) (rows : AList fun _ : K => Versioned V) (key : K)
    (read : Versioned V) : Prop :=
  ∃ row, rows.lookup key = some row ∧ Later R read row

def Grows (R : V → V → Prop) (rows after : AList fun _ : K => Versioned V) : Prop :=
  ∀ key row, rows.lookup key = some row → Held R after key row

section Held

variable {R : V → V → Prop}

theorem held_of_lookup (h : rows.lookup key = some read) : Held R rows key read :=
  ⟨read, h, .same⟩

theorem Held.grows (h : Held R rows key read) (hg : Grows R rows after) :
    Held R after key read := by
  obtain ⟨row, hrow, hl⟩ := h
  obtain ⟨now, hnow, hm⟩ := hg key row hrow
  exact ⟨now, hnow, hl.trans hm⟩

/-- A save goes through only over the row that was read. -/
theorem Held.save_eq_some (h : Held R rows key read)
    (hs : save rows key read value = some after) :
    rows.lookup key = some read ∧ after = rows.insert key ⟨value, read.version + 1⟩ := by
  refine Current.save_eq_some ?_ hs
  obtain ⟨row, hrow, hl⟩ := h
  intro found hf
  obtain rfl : row = found := Option.mem_unique hrow hf
  exact ⟨hl.version_le, hl.eq_of_version⟩

theorem Grows.refl (rows : AList fun _ : K => Versioned V) : Grows R rows rows :=
  fun _ _ h => held_of_lookup h

theorem Grows.added {row : Versioned V} (hkey : key ∉ rows) :
    Grows R rows (rows.insert key row) := by
  intro other found hf
  have hne : other ≠ key := by
    rintro rfl
    exact hkey (mem_of_lookup hf)
  exact held_of_lookup ((AList.lookup_insert_ne hne).trans hf)

theorem Grows.saved (hr : rows.lookup key = some read) (hm : R read.value value) :
    Grows R rows (rows.insert key ⟨value, read.version + 1⟩) := by
  intro other row hrow
  rcases same_or_ne hr hrow with ⟨rfl, rfl⟩ | hne
  · exact ⟨_, AList.lookup_insert _, .single hm rfl⟩
  · exact held_of_lookup ((AList.lookup_insert_ne hne).trans hrow)

end Held

/-- Every row of the later table is a new one, or one of the earlier table moved on. -/
def Advances (R : K → V → V → Prop) (fresh : K → Versioned V → Prop)
    (rows after : AList fun _ : K => Versioned V) : Prop :=
  ∀ key row, after.lookup key = some row →
    (∃ old, rows.lookup key = some old ∧ Later (R key) old row) ∨ fresh key row

variable {R : K → V → V → Prop} {fresh : K → Versioned V → Prop}

theorem Advances.shrink
    (h : ∀ key row, after.lookup key = some row → rows.lookup key = some row) :
    Advances R fresh rows after :=
  fun key row hrow => .inl ⟨row, h key row hrow, .same⟩

theorem Advances.refl (rows : AList fun _ : K => Versioned V) : Advances R fresh rows rows :=
  .shrink fun _ _ h => h

theorem Advances.saved (hr : rows.lookup key = some read) (hm : R key read.value value) :
    Advances R fresh rows (rows.insert key ⟨value, read.version + 1⟩) := by
  intro other row hrow
  rcases lookup_insert_iff.mp hrow with ⟨rfl, rfl⟩ | ⟨-, hold⟩
  · exact .inl ⟨read, hr, .single hm rfl⟩
  · exact .inl ⟨row, hold, .same⟩

theorem Advances.added {row : Versioned V} (hf : fresh key row) :
    Advances R fresh rows (rows.insert key row) := by
  intro other found hrow
  rcases lookup_insert_iff.mp hrow with ⟨rfl, rfl⟩ | ⟨-, hold⟩
  · exact .inr hf
  · exact .inl ⟨found, hold, .same⟩

/-- Rows that only move on, one change after another. -/
theorem Advances.trans (h : Advances R (fun _ _ => False) rows mid)
    (h' : Advances R (fun _ _ => False) mid after) : Advances R (fun _ _ => False) rows after := by
  intro key row hrow
  obtain ⟨between, hb, hl⟩ := (h' key row hrow).resolve_right id
  obtain ⟨old, hold, he⟩ := (h key between hb).resolve_right id
  exact .inl ⟨old, hold, he.trans hl⟩

theorem Advances.weaken (h : Advances R (fun _ _ => False) rows after) :
    Advances R fresh rows after :=
  fun key row hrow => (h key row hrow).imp_right False.elim

end Rows

end Aizzak.VersionedRows
