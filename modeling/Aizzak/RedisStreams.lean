import Mathlib

/-!
The pending-entries list of a consumer group, over any ordered type of entry ids
and any type of consumer names. Each command that reads or moves pending entries is
a function on the list of rows, which Redis keeps sorted by id. A history read
counts a delivery; a claim that returns ids only does not.
-/
namespace Aizzak.RedisStreams

open List

abbrev StreamId := ℕ ×ₗ ℕ

instance lawfulBEq_streamId : LawfulBEq StreamId := inferInstance

def formatStreamId (id : StreamId) : String :=
  toString (ofLex id).1 ++ "-" ++ toString (ofLex id).2

structure PendingRow (Id C : Type*) where
  id : Id
  consumer : C
  deliveredAt : ℕ
  timesDelivered : ℕ
deriving DecidableEq, Repr

variable {Id C : Type*}

namespace PendingRow

def redelivered (row : PendingRow Id C) (now : ℕ) : PendingRow Id C :=
  { row with deliveredAt := now, timesDelivered := row.timesDelivered + 1 }

def claimedBy (row : PendingRow Id C) (consumer : C) (now : ℕ) : PendingRow Id C :=
  { row with consumer, deliveredAt := now }

@[simp] theorem redelivered_id (row : PendingRow Id C) (now : ℕ) :
    (row.redelivered now).id = row.id := rfl

@[simp] theorem redelivered_consumer (row : PendingRow Id C) (now : ℕ) :
    (row.redelivered now).consumer = row.consumer := rfl

@[simp] theorem redelivered_timesDelivered (row : PendingRow Id C) (now : ℕ) :
    (row.redelivered now).timesDelivered = row.timesDelivered + 1 := rfl

@[simp] theorem claimedBy_id (row : PendingRow Id C) (consumer : C) (now : ℕ) :
    (row.claimedBy consumer now).id = row.id := rfl

@[simp] theorem claimedBy_consumer (row : PendingRow Id C) (consumer : C) (now : ℕ) :
    (row.claimedBy consumer now).consumer = consumer := rfl

@[simp] theorem claimedBy_timesDelivered (row : PendingRow Id C) (consumer : C) (now : ℕ) :
    (row.claimedBy consumer now).timesDelivered = row.timesDelivered := rfl

end PendingRow

def ids (rows : List (PendingRow Id C)) : List Id := rows.map PendingRow.id

def deliverNew (rows : List (PendingRow Id C)) (consumer : C) (entries : List Id) (now : ℕ) :
    List (PendingRow Id C) :=
  rows ++ entries.map fun id => ⟨id, consumer, now, 1⟩

variable {rows : List (PendingRow Id C)}

theorem mem_ids {id : Id} :
    id ∈ ids rows ↔ ∃ row ∈ rows, row.id = id := by
  simp [ids]

private theorem ids_map_of_id {f : PendingRow Id C → PendingRow Id C}
    (hf : ∀ row, (f row).id = row.id) (rows : List (PendingRow Id C)) :
    ids (rows.map f) = ids rows := by
  simp [ids, hf]

@[simp] theorem ids_deliverNew (rows : List (PendingRow Id C)) (consumer : C)
    (entries : List Id) (now : ℕ) :
    ids (deliverNew rows consumer entries now) = ids rows ++ entries := by
  simp [ids, deliverNew, Function.comp_def]

/-- Dropping elements outside an initial run keeps the run initial. -/
theorem prefix_filter {α : Type*} {batch l : List α} {p : α → Bool} (hi : batch <+: l)
    (hk : ∀ row ∈ batch, p row = true) : batch <+: l.filter p := by
  obtain ⟨rest, rfl⟩ := hi
  rw [filter_append, filter_eq_self.mpr hk]
  exact prefix_append _ _

section Consumers

variable [DecidableEq C]

def owned (rows : List (PendingRow Id C)) (consumer : C) : List (PendingRow Id C) :=
  rows.filter (·.consumer = consumer)

theorem mem_owned {rows : List (PendingRow Id C)} {consumer : C} {row : PendingRow Id C} :
    row ∈ owned rows consumer ↔ row ∈ rows ∧ row.consumer = consumer := by
  simp [owned]

/-- The entries `XREADGROUP` with an explicit start returns: the consumer's own rows. -/
def historyIds (rows : List (PendingRow Id C)) (consumer : C) (count : ℕ) : List Id :=
  ids ((owned rows consumer).take count)

variable [DecidableEq Id]

def readHistory (rows : List (PendingRow Id C)) (consumer : C) (count now : ℕ) :
    List (PendingRow Id C) :=
  rows.map fun row =>
    if row.id ∈ historyIds rows consumer count then row.redelivered now else row

def historyBatch (rows : List (PendingRow Id C)) (consumer : C) (count now : ℕ) :
    List (PendingRow Id C) :=
  (owned (readHistory rows consumer count now) consumer).take count

@[simp] theorem ids_readHistory (rows : List (PendingRow Id C)) (consumer : C) (count now : ℕ) :
    ids (readHistory rows consumer count now) = ids rows :=
  ids_map_of_id (fun row => by split_ifs <;> rfl) rows

end Consumers

section Moves

variable [DecidableEq Id]

def ack (rows : List (PendingRow Id C)) (id : Id) : List (PendingRow Id C) :=
  rows.filter (·.id ≠ id)

def claim (rows : List (PendingRow Id C)) (consumer : C) (claimed : List Id) (now : ℕ) :
    List (PendingRow Id C) :=
  rows.map fun row => if row.id ∈ claimed then row.claimedBy consumer now else row

@[simp] theorem ids_claim (rows : List (PendingRow Id C)) (consumer : C) (claimed : List Id)
    (now : ℕ) : ids (claim rows consumer claimed now) = ids rows :=
  ids_map_of_id (fun row => by split_ifs <;> rfl) rows

theorem ids_ack (rows : List (PendingRow Id C)) (id : Id) :
    ids (ack rows id) = (ids rows).filter (· ≠ id) := by
  simp [ids, ack, filter_map, Function.comp_def]

end Moves

def owners (rows : List (PendingRow Id C)) : List C := rows.map PendingRow.consumer

variable {consumer : C}

theorem mem_owners :
    consumer ∈ owners rows ↔ ∃ row ∈ rows, row.consumer = consumer := by
  simp [owners]

variable {other : C}

/-- Only the reader becomes an owner. -/
theorem mem_owners_deliverNew {entries : List Id} {now : ℕ}
    (h : other ∈ owners (deliverNew rows consumer entries now)) :
    other ∈ owners rows ∨ other = consumer ∧ entries ≠ [] := by
  rw [owners, deliverNew, map_append, mem_append] at h
  rcases h with h | h
  · exact .inl h
  · rw [map_map, mem_map] at h
    obtain ⟨id, hid, rfl⟩ := h
    exact .inr ⟨rfl, ne_nil_of_mem hid⟩

/-- Only the claimer becomes an owner. -/
theorem mem_owners_claim [DecidableEq Id] {claimed : List Id} {now : ℕ}
    (h : other ∈ owners (claim rows consumer claimed now)) :
    other ∈ owners rows ∨ other = consumer ∧ claimed ≠ [] := by
  rw [owners, claim, map_map, mem_map] at h
  obtain ⟨row, hrow, ho⟩ := h
  simp only [Function.comp_apply] at ho
  split_ifs at ho with hc
  · exact .inr ⟨ho.symm, ne_nil_of_mem hc⟩
  · exact .inl (mem_owners.mpr ⟨row, hrow, ho⟩)

theorem mem_owners_ack [DecidableEq Id] {id : Id} (h : other ∈ owners (ack rows id)) :
    other ∈ owners rows := by
  obtain ⟨row, hrow, rfl⟩ := mem_owners.mp h
  exact mem_owners.mpr ⟨row, (mem_filter.mp hrow).1, rfl⟩

/-- The scan of `XAUTOCLAIM`: so many rows are looked at, and of those idle long enough so many
are taken. What has not been looked at is the second component. -/
def autoclaimScan (minIdle now : ℕ) :
    ℕ → ℕ → List (PendingRow Id C) → List Id × List (PendingRow Id C)
  | 0, _, rows => ([], rows)
  | _ + 1, 0, rows => ([], rows)
  | _ + 1, _ + 1, [] => ([], [])
  | attempts + 1, count + 1, row :: rows =>
    if row.deliveredAt + minIdle ≤ now then
      let scanned := autoclaimScan minIdle now attempts count rows
      (row.id :: scanned.1, scanned.2)
    else autoclaimScan minIdle now attempts (count + 1) rows

section Removal

variable [DecidableEq C]

def removeConsumer (rows : List (PendingRow Id C)) (consumer : C) : List (PendingRow Id C) :=
  rows.filter (·.consumer ≠ consumer)

variable {rows : List (PendingRow Id C)}

theorem mem_ids_removeConsumer {id : Id} (h : id ∈ ids rows) (consumer : C) :
    id ∈ ids (removeConsumer rows consumer) ∨ consumer ∈ owners rows := by
  obtain ⟨row, hrow, rfl⟩ := mem_ids.mp h
  by_cases hc : row.consumer = consumer
  · exact .inr (mem_owners.mpr ⟨row, hrow, hc⟩)
  · exact .inl (mem_ids.mpr ⟨row, mem_filter.mpr ⟨hrow, by simpa using hc⟩, rfl⟩)

theorem mem_owners_removeConsumer {consumer other : C}
    (h : other ∈ owners (removeConsumer rows consumer)) :
    other ∈ owners rows ∧ other ≠ consumer := by
  obtain ⟨row, hrow, rfl⟩ := mem_owners.mp h
  obtain ⟨hmem, hc⟩ := mem_filter.mp hrow
  exact ⟨mem_owners.mpr ⟨row, hmem, rfl⟩, by simpa using hc⟩

theorem owned_eq_nil_iff {consumer : C} :
    owned rows consumer = [] ↔ consumer ∉ owners rows := by
  simp [owned, owners, filter_eq_nil_iff]

variable [DecidableEq Id]

theorem owners_readHistory (rows : List (PendingRow Id C)) (consumer : C) (count now : ℕ) :
    owners (readHistory rows consumer count now) = owners rows := by
  rw [owners, readHistory, map_map, owners]
  apply map_congr_left
  intro row _
  simp only [Function.comp_apply]
  split_ifs <;> rfl

end Removal

section Order

variable [LinearOrder Id]

/-- Redis keeps the rows in strictly increasing id order. -/
def Sorted (rows : List (PendingRow Id C)) : Prop := (ids rows).Pairwise (· < ·)

variable {rows : List (PendingRow Id C)}

theorem Sorted.rows_pairwise (h : Sorted rows) : rows.Pairwise (·.id < ·.id) :=
  pairwise_map.mp h

theorem Sorted.row_unique (h : Sorted rows) {a b : PendingRow Id C} (ha : a ∈ rows)
    (hb : b ∈ rows) (hid : a.id = b.id) : a = b := by
  have hn : (rows.map PendingRow.id).Nodup := List.Pairwise.imp (fun h => ne_of_lt h) h
  exact inj_on_of_nodup_map hn ha hb hid

def autoclaim (rows : List (PendingRow Id C)) (minIdle now : ℕ) (start : Option Id) (count : ℕ) :
    List Id × Option Id :=
  let scanned := autoclaimScan minIdle now (10 * count) count
    (rows.filter fun row => start.all (· ≤ row.id))
  (scanned.1, scanned.2.head?.map PendingRow.id)

variable [DecidableEq C]

def pendingRange (rows : List (PendingRow Id C)) (consumer : C) (first last : Id) (count : ℕ) :
    List (PendingRow Id C) :=
  ((owned rows consumer).filter fun row => first ≤ row.id ∧ row.id ≤ last).take count

variable {consumer : C}

/-- A range query from the first to the last id of an initial run of a consumer's rows
returns exactly that run. -/
theorem pendingRange_of_prefix (h : Sorted rows) {batch : List (PendingRow Id C)}
    (hi : batch <+: owned rows consumer) (hne : batch ≠ []) :
    pendingRange rows consumer (batch.head hne).id (batch.getLast hne).id batch.length = batch := by
  obtain ⟨rest, hr⟩ := hi
  have hs : (owned rows consumer).Pairwise (·.id < ·.id) := h.rows_pairwise.filter _
  rw [← hr, pairwise_append] at hs
  obtain ⟨hb, -, ha⟩ := hs
  have hm : batch.Pairwise (·.id ≤ ·.id) := hb.imp fun hlt => le_of_lt hlt
  have hin : batch.filter (fun row =>
      (batch.head hne).id ≤ row.id ∧ row.id ≤ (batch.getLast hne).id) = batch := by
    apply filter_eq_self.mpr
    intro row hrow
    have hlow := hm.rel_head_of_rel_head_head hrow le_rfl
    have hh := hm.rel_getLast_of_rel_getLast_getLast hrow le_rfl
    simpa using ⟨hlow, hh⟩
  have ho : rest.filter (fun row =>
      (batch.head hne).id ≤ row.id ∧ row.id ≤ (batch.getLast hne).id) = [] := by
    apply filter_eq_nil_iff.mpr
    intro row hrow
    have hl := ha _ (getLast_mem hne) row hrow
    simpa using fun _ => hl
  rw [pendingRange, ← hr, filter_append, hin, ho, append_nil]
  exact take_length

private theorem map_eq_self {α : Type*} {f : α → α} {l : List α} (h : ∀ a ∈ l, f a = a) :
    l.map f = l :=
  (List.map_congr_left h).trans (List.map_id' l)

variable {other : C}

theorem owned_readHistory_of_ne (h : Sorted rows) (hne : other ≠ consumer) (count now : ℕ) :
    owned (readHistory rows consumer count now) other = owned rows other := by
  have hf : owned (readHistory rows consumer count now) other =
      (owned rows other).map fun row =>
        if row.id ∈ historyIds rows consumer count then row.redelivered now else row := by
    rw [owned, readHistory, filter_map]
    congr 1
    apply filter_congr
    intro row _
    simp only [Function.comp_apply]
    split_ifs <;> rfl
  rw [hf]
  apply map_eq_self
  intro row hrow
  apply if_neg
  intro hmem
  obtain ⟨read, hr, hid⟩ := mem_ids.mp hmem
  have ho := mem_owned.mp (mem_of_mem_take hr)
  have hs := h.row_unique ho.1 (mem_owned.mp hrow).1 hid
  exact hne ((mem_owned.mp hrow).2.symm.trans (hs ▸ ho.2))

omit [LinearOrder Id] in
/-- A delivery adds rows to the reader alone. -/
theorem owned_deliverNew_of_ne (hne : other ≠ consumer) (entries : List Id) (now : ℕ) :
    owned (deliverNew rows consumer entries now) other = owned rows other := by
  have hnone :
      owned (entries.map fun id => (⟨id, consumer, now, 1⟩ : PendingRow Id C)) other = [] := by
    apply filter_eq_nil_iff.mpr
    intro row hrow
    obtain ⟨id, -, rfl⟩ := mem_map.mp hrow
    simpa using hne.symm
  rw [owned, deliverNew, filter_append, ← owned, ← owned, hnone, append_nil]

/-- A claim takes the claimed rows from everyone else. -/
theorem owned_claim_of_ne (hne : other ≠ consumer) (claimed : List Id) (now : ℕ) :
    owned (claim rows consumer claimed now) other =
      (owned rows other).filter (·.id ∉ claimed) := by
  induction rows with
  | nil => rfl
  | cons row rows ih =>
    simp only [owned, claim, map_cons, filter_cons] at ih ⊢
    by_cases hc : row.id ∈ claimed
    · simp only [hc, if_true, PendingRow.claimedBy_consumer, hne.symm, decide_false,
        Bool.false_eq_true, if_false, ih]
      split_ifs <;> simp [hc]
    · simp only [hc, if_false, ih]
      split_ifs <;> simp [hc]

theorem owned_ack (id : Id) (other : C) :
    owned (ack rows id) other = (owned rows other).filter (·.id ≠ id) := by
  simp only [owned, ack, filter_filter, Bool.and_comm]

end Order

end Aizzak.RedisStreams
