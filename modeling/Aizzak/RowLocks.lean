import Aizzak.KeyedTables

/-!
Row locks of open transactions. Each transaction holds some rows, and whoever needs a row that
another one holds waits. So no row is held twice, as long as a transaction that goes on holds
only what it held before and rows that nobody else holds.
-/
namespace Aizzak.RowLocks

open KeyedTables

variable {τ κ : Type*} [DecidableEq κ]

def heldByOther (locks : τ → List κ) (txs : AList fun _ : ℕ => τ) (id : ℕ) (key : κ) : Bool :=
  anyRow txs fun other tx => other ≠ id && key ∈ locks tx

/-- No row is held by two transactions. -/
def Exclusive (locks : τ → List κ) (txs : AList fun _ : ℕ => τ) : Prop :=
  ∀ i j a b key, txs.lookup i = some a → txs.lookup j = some b → key ∈ locks a →
    key ∈ locks b → i = j

variable {locks : τ → List κ} {txs : AList fun _ : ℕ => τ} {id other : ℕ} {key : κ} {tx : τ}

theorem heldByOther_of_mem (ho : txs.lookup other = some tx) (hne : other ≠ id)
    (hkey : key ∈ locks tx) : heldByOther locks txs id key = true :=
  anyRow_eq_true_iff.mpr ⟨other, tx, ho, by simp [hne, hkey]⟩

/-- A free row is in no other transaction's hands. -/
theorem notMem_of_free (h : heldByOther locks txs id key = false)
    (ho : txs.lookup other = some tx) (hne : other ≠ id) : key ∉ locks tx := by
  intro hkey
  rw [heldByOther_of_mem ho hne hkey] at h
  cases h

omit [DecidableEq κ] in
theorem exclusive_empty : Exclusive locks ∅ := fun _ _ _ _ _ h => by cases h

omit [DecidableEq κ] in
theorem Exclusive.erase (hx : Exclusive locks txs) : Exclusive locks (txs.erase id) :=
  fun i j a b key hi hj =>
    hx i j a b key (lookup_erase_iff.mp hi).2 (lookup_erase_iff.mp hj).2

/-- A transaction goes on with rows that it held before or that nobody else holds. -/
theorem Exclusive.insert (hx : Exclusive locks txs)
    (h : ∀ key ∈ locks tx, (∃ old, txs.lookup id = some old ∧ key ∈ locks old) ∨
      heldByOther locks txs id key = false) : Exclusive locks (txs.insert id tx) := by
  have hm : ∀ other b key, txs.lookup other = some b → key ∈ locks tx → key ∈ locks b →
      other = id := by
    intro other b key hb hkey hk
    rcases h key hkey with ⟨old, hold, hmem⟩ | hf
    · exact hx other id b old key hb hold hk hmem
    · by_contra hne
      exact notMem_of_free hf hb hne hk
  intro i j a b key hi hj ha hb
  rcases lookup_insert_iff.mp hi with ⟨rfl, rfl⟩ | ⟨-, hold⟩
  · rcases lookup_insert_iff.mp hj with ⟨rfl, -⟩ | ⟨-, hold⟩
    · rfl
    · exact (hm j b key hold ha hb).symm
  · rcases lookup_insert_iff.mp hj with ⟨rfl, rfl⟩ | ⟨-, hold'⟩
    · exact hm i a key hold hb ha
    · exact hx i j a b key hold hold' ha hb

end Aizzak.RowLocks
