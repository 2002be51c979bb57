import Aizzak.KeyedTables

/-!
Sorted sets of a key-value store, as Redis keeps them: members with one score each, under
keys that may carry an expiry. A key is gone once the clock has passed its expiry, and a set
that loses its last member takes its key along. Scores and times are in milliseconds.
-/
namespace Aizzak.SortedSets

open KeyedTables

variable {K M : Type} [DecidableEq K] [DecidableEq M]

/-- `TIME`: seconds and microseconds of the server's clock, which counts microseconds. -/
def time (clock : ℤ) : ℤ × ℤ := (clock / 1000000, clock % 1000000)

def nowMs (clock : ℤ) : ℤ := (time clock).1 * 1000 + (time clock).2 / 1000

theorem nowMs_eq (clock : ℤ) : nowMs clock = clock / 1000 := by
  simp only [nowMs, time]
  omega

theorem nowMs_mono {clock later : ℤ} (h : clock ≤ later) : nowMs clock ≤ nowMs later := by
  rw [nowMs_eq, nowMs_eq]
  omega

structure SortedSet (M : Type) where
  members : AList fun _ : M => ℤ
  expireAt : Option ℤ

abbrev Keyspace (K M : Type) := AList fun _ : K => SortedSet M

namespace SortedSet

def empty : SortedSet M := ⟨∅, none⟩

def score (set : SortedSet M) (m : M) : Option ℤ := set.members.lookup m

def card (set : SortedSet M) : ℕ := set.members.keys.length

def removeUpTo (set : SortedSet M) (bound : ℤ) : SortedSet M :=
  { set with
    members := eraseAll set.members
      (set.members.keys.filter fun m => (set.members.lookup m).any (· ≤ bound)) }

def add (set : SortedSet M) (m : M) (score : ℤ) : SortedSet M :=
  { set with members := set.members.insert m score }

/-- `ZADD XX GT`: the score of a member that is there may rise. -/
def raise (set : SortedSet M) (m : M) (score : ℤ) : SortedSet M :=
  match set.members.lookup m with
  | some old => if old < score then set.add m score else set
  | none => set

def remove (set : SortedSet M) (m : M) : SortedSet M :=
  { set with members := set.members.erase m }

def lowest (set : SortedSet M) : Option ℤ := (set.members.entries.map (·.2)).min?

def expire (set : SortedSet M) (at_ : ℤ) : SortedSet M := { set with expireAt := some at_ }

@[simp] theorem score_expire (set : SortedSet M) (at_ : ℤ) (m : M) :
    (set.expire at_).score m = set.score m := rfl

omit [DecidableEq M] in
@[simp] theorem card_expire (set : SortedSet M) (at_ : ℤ) : (set.expire at_).card = set.card := rfl

variable {set : SortedSet M} {m : M} {s : ℤ}

theorem score_removeUpTo {bound : ℤ} :
    (set.removeUpTo bound).score m = some s ↔ set.score m = some s ∧ bound < s := by
  rw [score, removeUpTo, lookup_eraseAll_eq_some_iff, List.mem_filter, and_comm]
  refine and_congr_right fun hs => ?_
  rw [hs, ← AList.mem_keys]
  simp [mem_of_lookup hs]

variable {i : M} {r : ℤ}

theorem score_add :
    (set.add m s).score i = some r ↔ (i = m ∧ s = r) ∨ (i ≠ m ∧ set.score i = some r) :=
  lookup_insert_iff

theorem score_remove :
    (set.remove m).score i = some r ↔ i ≠ m ∧ set.score i = some r :=
  lookup_erase_iff

/-- Raising moves one score, and only up. -/
theorem score_raise :
    (set.raise m s).score i = some r ↔
      ∃ t, set.score i = some t ∧ r = if i = m then max t s else t := by
  unfold raise
  by_cases him : i = m
  · subst him
    simp only [if_true]
    cases hm : set.members.lookup i with
    | none => simp [score, hm]
    | some old =>
      have hold : set.score i = some old := hm
      simp only [hold, Option.some.injEq, exists_eq_left']
      split_ifs with hlt
      · rw [score_add, max_eq_right (by omega)]
        simp [eq_comm]
      · rw [hold, max_eq_left (by omega), Option.some.injEq, eq_comm]
  · simp only [him, if_false, exists_eq_right']
    cases hm : set.members.lookup m with
    | none => rfl
    | some old =>
      simp only
      split_ifs
      · rw [score_add]
        simp [him]
      · rfl

/-- Several members raised to one score. -/
theorem score_foldl_raise {ms : List M} :
    (ms.foldl (fun set m => set.raise m s) set).score i = some r ↔
      ∃ t, set.score i = some t ∧ r = if i ∈ ms then max t s else t := by
  induction ms generalizing set with
  | nil => simp [eq_comm]
  | cons m ms ih =>
    rw [List.foldl_cons, ih]
    constructor
    · rintro ⟨t, ht, rfl⟩
      obtain ⟨u, hu, rfl⟩ := score_raise.mp ht
      refine ⟨u, hu, ?_⟩
      by_cases him : i = m <;> by_cases hms : i ∈ ms <;> simp [him, hms]
    · rintro ⟨t, ht, rfl⟩
      refine ⟨_, score_raise.mpr ⟨t, ht, rfl⟩, ?_⟩
      by_cases him : i = m <;> by_cases hms : i ∈ ms <;> simp [him, hms]

theorem mem_iff_score :
    m ∈ set.members.keys ↔ ∃ s, set.score m = some s := by
  rw [← AList.mem_keys, ← AList.lookup_isSome, Option.isSome_iff_exists]
  rfl

/-- A set whose members are all in another has no more of them. -/
theorem card_le_card {other : SortedSet M}
    (h : ∀ m s, set.score m = some s → ∃ r, other.score m = some r) : set.card ≤ other.card := by
  refine (List.subperm_of_subset set.members.keys_nodup fun m hm => ?_).length_le
  obtain ⟨s, hs⟩ := mem_iff_score.mp hm
  exact mem_iff_score.mpr (h m s hs)

theorem card_add_le (set : SortedSet M) (m : M) (s : ℤ) : (set.add m s).card ≤ set.card + 1 := by
  by_cases hm : m ∈ set.members
  · have hs : (set.add m s).card = set.card := length_keys_insert_of_mem hm
    omega
  · have hmo : (set.add m s).card = set.card + 1 := length_keys_insert_of_notMem hm
    omega

theorem lowest_eq_some (h : set.lowest = some s) :
    (∃ m, set.score m = some s) ∧ ∀ m r, set.score m = some r → s ≤ r := by
  obtain ⟨hmem, hle⟩ := List.min?_eq_some_iff.mp h
  obtain ⟨⟨m, r⟩, he, rfl⟩ := List.mem_map.mp hmem
  refine ⟨⟨m, AList.mem_lookup_iff.mpr he⟩, fun i r hi => hle r ?_⟩
  exact List.mem_map.mpr ⟨⟨i, r⟩, AList.mem_lookup_iff.mp hi, rfl⟩

omit [DecidableEq M] in
theorem lowest_eq_none (h : set.lowest = none) : set.card = 0 := by
  have hnil : set.members.entries = [] := by simpa [lowest] using h
  simp [card, AList.keys, List.keys, hnil]

end SortedSet

namespace Keyspace

/-- The set under a key at a time; an expired key reads as an empty set. -/
def read (sets : Keyspace K M) (now : ℤ) (key : K) : SortedSet M :=
  match sets.lookup key with
  | none => .empty
  | some set => if set.expireAt.any (· < now) then .empty else set

def write (sets : Keyspace K M) (key : K) (set : SortedSet M) : Keyspace K M :=
  if set.card = 0 then sets.erase key else sets.insert key set

variable {sets : Keyspace K M} {key : K} {set : SortedSet M}

variable {now : ℤ}

omit [DecidableEq M] in
theorem read_eq_of_lookup (h : sets.lookup key = some set)
    (hexpiry : ∀ at_, set.expireAt = some at_ → now ≤ at_) : sets.read now key = set := by
  rw [read, h]
  refine if_neg ?_
  rw [Option.any_eq_true]
  rintro ⟨at_, hat, hlate⟩
  have hkept := hexpiry at_ hat
  simp only [decide_eq_true_eq] at hlate
  omega

variable {m : M} {s : ℤ}

theorem lookup_of_score_read (h : (sets.read now key).score m = some s) :
    sets.lookup key = some (sets.read now key) := by
  unfold read at h ⊢
  cases hl : sets.lookup key with
  | none =>
    rw [hl] at h
    cases h
  | some set =>
    rw [hl] at h
    simp only at h ⊢
    split_ifs at h ⊢
    · cases h
    · rfl

/-- What is in a set later was in it before. -/
theorem score_read_of_later {later : ℤ} (hle : now ≤ later)
    (h : (sets.read later key).score m = some s) : (sets.read now key).score m = some s := by
  have hl := lookup_of_score_read h
  rw [read_eq_of_lookup hl fun at_ hat => ?_]
  · exact h
  · by_contra hlt
    have hexpired : sets.read later key = .empty := by
      unfold read at hl hat ⊢
      cases hset : sets.lookup key with
      | none => rfl
      | some set =>
        rw [hset] at hat
        simp only at hat ⊢
        split_ifs at hat ⊢ with hany
        · rfl
        · rw [hat] at hany
          simp only [Option.any_some, decide_eq_true_eq] at hany
          omega
    rw [hexpired] at h
    cases h

omit [DecidableEq M] in
theorem lookup_write_of_ne {other : K} (hne : other ≠ key) :
    (sets.write key set).lookup other = sets.lookup other := by
  unfold write
  split_ifs
  · exact AList.lookup_erase_ne hne
  · exact AList.lookup_insert_ne hne

omit [DecidableEq M] in
theorem lookup_write {stored : SortedSet M} :
    (sets.write key set).lookup key = some stored ↔ stored = set ∧ set.card ≠ 0 := by
  unfold write
  split_ifs with hcard
  · simp [hcard]
  · simp [hcard, eq_comm]

theorem lookup_write_of_score (h : set.score m = some s) :
    (sets.write key set).lookup key = some set := by
  refine lookup_write.mpr ⟨rfl, fun hcard => ?_⟩
  have hmem := SortedSet.mem_iff_score.mpr ⟨s, h⟩
  rw [SortedSet.card, List.length_eq_zero_iff] at hcard
  simp [hcard] at hmem

end Keyspace

end Aizzak.SortedSets
