import Aizzak.RedisStreams

/-!
Reclaiming the entries that dead consumers left pending. `XAUTOCLAIM` looks at a page of the
pending list, moves the stale entries of the page and drops those that the stream no longer has.
To a claim of bare ids the client library answers the ids alone. The consumer reads the first of
them as the cursor and the octets of the second as the claimed ids, so that it never names an
entry it moved.
-/
namespace Aizzak.PendingReclaims

open RedisStreams List

variable {C : Type}

def octets (id : StreamId) : List ℕ := (formatStreamId id).toList.map Char.toNat

/-- `_parse_autoclaim` of the ids that the library answers, with `none` for the cursor `0-0`. -/
def parseAutoclaim : List StreamId → Option StreamId × List String
  | [] => (none, [])
  | first :: rest =>
    (if first = toLex (0, 0) then none else some first,
      rest.head?.elim [] fun second => (octets second).map toString)

structure Scan (C : Type) where
  claimed : List StreamId
  deleted : List StreamId
  rest : List (PendingRow StreamId C)

section Server

variable (live : StreamId → Bool) (minIdle now : ℕ)

def stale (row : PendingRow StreamId C) : Bool := minIdle = 0 || row.deliveredAt + minIdle ≤ now

def claimable (row : PendingRow StreamId C) : Bool := live row.id && stale minIdle now row

/-- Both the moved and the dropped entries count, and ten times as many are looked at. -/
def scan : ℕ → ℕ → List (PendingRow StreamId C) → Scan C
  | 0, _, rows => ⟨[], [], rows⟩
  | _ + 1, 0, rows => ⟨[], [], rows⟩
  | _ + 1, _ + 1, [] => ⟨[], [], []⟩
  | attempts + 1, count + 1, row :: rows =>
    if !live row.id then
      let scanned := scan attempts count rows
      { scanned with deleted := row.id :: scanned.deleted }
    else if stale minIdle now row then
      let scanned := scan attempts count rows
      { scanned with claimed := row.id :: scanned.claimed }
    else scan attempts (count + 1) rows

def xautoclaim (consumer : C) (count : ℕ) (start : Option StreamId)
    (rows : List (PendingRow StreamId C)) : List StreamId × List (PendingRow StreamId C) :=
  let scanned := scan live minIdle now (10 * count) count
    (rows.filter fun row => start.all (· ≤ row.id))
  (scanned.claimed, claim (rows.filter (·.id ∉ scanned.deleted)) consumer scanned.claimed now)

end Server

structure Reclaimed (C : Type) where
  returned : List String
  moved : List StreamId
  rows : List (PendingRow StreamId C)

section Reclaim

variable (live : StreamId → Bool) (minIdle : ℕ) (clock : ℕ → ℕ) (consumer : C) (count : ℕ)

def reclaimFrom : ℕ → ℕ → Option StreamId → Reclaimed C → Reclaimed C
  | 0, _, _, done => done
  | batches + 1, call, cursor, done =>
    let reply := xautoclaim live minIdle (clock call) consumer count cursor done.rows
    let parsed := parseAutoclaim reply.1
    let done := ⟨done.returned ++ parsed.2, done.moved ++ reply.1, reply.2⟩
    if parsed.1 = none ∨ parsed.2 = [] then done
    else reclaimFrom batches (call + 1) parsed.1 done

def reclaim (maxBatches : ℕ) (rows : List (PendingRow StreamId C)) : Reclaimed C :=
  reclaimFrom live minIdle clock consumer count maxBatches 0 none ⟨[], [], rows⟩

end Reclaim

section Scans

variable {live : StreamId → Bool} {minIdle now attempts count : ℕ}
  {rows : List (PendingRow StreamId C)}

/-- A scan looks at a front of the rows. -/
theorem scan_spec : ∃ looked, rows = looked ++ (scan live minIdle now attempts count rows).rest ∧
    (scan live minIdle now attempts count rows).claimed =
      ids (looked.filter (claimable live minIdle now)) ∧
    (scan live minIdle now attempts count rows).deleted =
      ids (looked.filter fun row => !live row.id) := by
  induction attempts generalizing count rows with
  | zero => exact ⟨[], rfl, rfl, rfl⟩
  | succ attempts ih =>
    cases count with
    | zero => exact ⟨[], rfl, rfl, rfl⟩
    | succ count =>
      cases rows with
      | nil => exact ⟨[], rfl, rfl, rfl⟩
      | cons row rows =>
        rw [scan]
        by_cases hl : live row.id = true
        · by_cases hs : stale minIdle now row = true
          · obtain ⟨looked, hsp, hc, hd⟩ := @ih count rows
            refine ⟨row :: looked, ?_, ?_, ?_⟩
            · simpa [hl, hs] using hsp
            · simp [hl, hs, claimable, ids, hc]
            · simp [hl, hs, ids, hd]
          · obtain ⟨looked, hsp, hc, hd⟩ := @ih (count + 1) rows
            refine ⟨row :: looked, ?_, ?_, ?_⟩
            · simpa [hl, hs] using hsp
            · simp [hl, hs, claimable, ids, hc]
            · simp [hl, hs, ids, hd]
        · obtain ⟨looked, hsp, hc, hd⟩ := @ih count rows
          refine ⟨row :: looked, ?_, ?_, ?_⟩
          · simpa [hl] using hsp
          · simp [hl, claimable, ids, hc]
          · simp [hl, ids, hd]

end Scans

section Pages

variable (live : StreamId → Bool) (minIdle now count : ℕ) (rows : List (PendingRow StreamId C))

def page : List (PendingRow StreamId C) :=
  rows.take (rows.length - (scan live minIdle now (10 * count) count rows).rest.length)

def Barren : Prop := ∀ row ∈ rows, claimable live minIdle now row = false

end Pages

section Calls

variable {live : StreamId → Bool} {minIdle now count : ℕ} {clock : ℕ → ℕ} {consumer : C}
  {rows : List (PendingRow StreamId C)}

theorem page_spec : (scan live minIdle now (10 * count) count rows).claimed =
      ids ((page live minIdle now count rows).filter (claimable live minIdle now)) ∧
    (scan live minIdle now (10 * count) count rows).deleted =
      ids ((page live minIdle now count rows).filter fun row => !live row.id) := by
  obtain ⟨looked, hs, hc, hd⟩ := @scan_spec _ live minIdle now (10 * count) count rows
  have hl := congrArg List.length hs
  rw [length_append] at hl
  have hp : page live minIdle now count rows = looked := by
    rw [page, show rows.length - (scan live minIdle now (10 * count) count rows).rest.length =
      looked.length by omega]
    conv_lhs => rw [hs]
    exact take_left
  rw [hp]
  exact ⟨hc, hd⟩

theorem filter_start :
    (rows.filter fun row => (none : Option StreamId).all (· ≤ row.id)) = rows :=
  filter_eq_self.mpr fun _ _ => rfl

theorem barren_iff (consumer : C) :
    Barren live minIdle now (page live minIdle now count rows) ↔
      (xautoclaim live minIdle now consumer count none rows).1 = [] := by
  simp only [xautoclaim, filter_start]
  rw [page_spec.1, ids, map_eq_nil_iff, filter_eq_nil_iff, Barren]
  simp only [Bool.not_eq_true]

/-- A call that moves nothing leaves every row whose entry the stream still has. -/
theorem rows_of_barren
    (hb : Barren live minIdle now (page live minIdle now count rows)) :
    (xautoclaim live minIdle now consumer count none rows).2.Sublist rows ∧
      ∀ row ∈ rows, live row.id = true →
        row ∈ (xautoclaim live minIdle now consumer count none rows).2 := by
  have hc := (barren_iff consumer).mp hb
  simp only [xautoclaim, filter_start] at hc ⊢
  rw [hc, page_spec.2]
  have hk : ∀ l : List (PendingRow StreamId C), claim l consumer [] now = l := by
    intro l
    simp [claim]
  rw [hk]
  refine ⟨filter_sublist, fun row hrow hl => mem_filter.mpr ⟨hrow, ?_⟩⟩
  rw [decide_eq_true_eq, mem_ids]
  rintro ⟨other, ho, hid⟩
  have hd := (mem_filter.mp ho).2
  rw [hid, hl] at hd
  cases hd

/-- The parsed ids are decimal texts, which no entry id is. -/
theorem parsed_decimal {claimed : List StreamId} :
    ∀ text ∈ (parseAutoclaim claimed).2, ∃ n : ℕ, text = toString n := by
  intro text ht
  rcases claimed with _ | ⟨first, _ | ⟨second, rest⟩⟩
  · cases ht
  · cases ht
  · obtain ⟨n, -, rfl⟩ := mem_map.mp ht
    exact ⟨n, rfl⟩

theorem formatStreamId_ne_toString (id : StreamId) (n : ℕ) : formatStreamId id ≠ toString n := by
  intro h
  have hdash : '-' ∈ (toString n).toList := by
    rw [← h, formatStreamId]
    simp
  rw [Nat.toString_eq_repr, Nat.toList_repr] at hdash
  exact absurd (Nat.isDigit_of_mem_toDigits (by decide) (by decide) hdash) (by decide)

/-- A run of the loop returns decimal texts and forgets nothing that was moved. -/
theorem reclaimFrom_spec {batches call : ℕ} {cursor : Option StreamId} {done : Reclaimed C}
    (h : ∀ text ∈ done.returned, ∃ n : ℕ, text = toString n) :
    (∀ text ∈ (reclaimFrom live minIdle clock consumer count batches call cursor done).returned,
        ∃ n : ℕ, text = toString n) ∧
      done.moved ⊆
        (reclaimFrom live minIdle clock consumer count batches call cursor done).moved := by
  induction batches generalizing call cursor done with
  | zero => exact ⟨h, List.Subset.refl _⟩
  | succ batches ih =>
    have hall : ∀ text ∈ done.returned ++ (parseAutoclaim (xautoclaim live minIdle (clock call)
        consumer count cursor done.rows).1).2, ∃ n : ℕ, text = toString n := by
      intro text ht
      exact (mem_append.mp ht).elim (h text) (parsed_decimal text)
    rw [reclaimFrom]
    split_ifs
    · exact ⟨hall, subset_append_left _ _⟩
    · refine And.imp_right (fun hm => ?_) (ih hall)
      exact fun id hid => hm (mem_append_left _ hid)

end Calls

section Transfers

variable (live : StreamId → Bool) (minIdle count : ℕ) (clock : ℕ → ℕ) (consumer : C)

/-- The stale entries of the list end up with the consumer, and the returned ids are those of the
entries that were moved, each once. -/
structure Transfers (rows : List (PendingRow StreamId C)) (result : Reclaimed C) : Prop where
  owned : ∀ row ∈ rows, live row.id = true → row.deliveredAt + minIdle ≤ clock 0 →
    ∃ moved ∈ result.rows, moved.id = row.id ∧ moved.consumer = consumer
  nodup : result.returned.Nodup
  exact : ∀ text, text ∈ result.returned ↔ ∃ id ∈ result.moved, formatStreamId id = text

/-- The first page has nothing to move, and every stale entry is the consumer's already. -/
def NothingToMove (rows : List (PendingRow StreamId C)) : Prop :=
  Barren live minIdle (clock 0) (page live minIdle (clock 0) count rows) ∧
    ∀ row ∈ rows, live row.id = true → row.deliveredAt + minIdle ≤ clock 0 →
      row.consumer = consumer

end Transfers

section Spec

variable {live : StreamId → Bool} {minIdle count batches : ℕ} {clock : ℕ → ℕ} {consumer : C}
  {rows : List (PendingRow StreamId C)}

/-- A first call that moves nothing ends the loop. -/
theorem reclaim_of_barren
    (hb : Barren live minIdle (clock 0) (page live minIdle (clock 0) count rows)) :
    reclaim live minIdle clock consumer count (batches + 1) rows =
      ⟨[], [], (xautoclaim live minIdle (clock 0) consumer count none rows).2⟩ := by
  have hc := (barren_iff consumer).mp hb
  rw [reclaim, reclaimFrom]
  dsimp only
  rw [hc]
  exact if_pos (.inl rfl)

/-- What the first call moves was moved. -/
theorem subset_moved : (xautoclaim live minIdle (clock 0) consumer count none rows).1 ⊆
    (reclaim live minIdle clock consumer count (batches + 1) rows).moved := by
  rw [reclaim, reclaimFrom]
  dsimp only
  split_ifs
  · exact List.Subset.refl _
  · obtain ⟨first, rest⟩ := xautoclaim live minIdle (clock 0) consumer count none rows
    exact (@reclaimFrom_spec _ _ _ _ _ _ _ _ _ ⟨_, first, rest⟩ parsed_decimal).2

/-- A reclaim keeps its promise if and only if it has nothing to move. -/
theorem reclaim_transfers_iff {maxBatches : ℕ} (hsorted : Sorted rows)
    (hbatches : 0 < maxBatches) :
    Transfers live minIdle clock consumer rows
        (reclaim live minIdle clock consumer count maxBatches rows) ↔
      NothingToMove live minIdle count clock consumer rows := by
  obtain ⟨batches, rfl⟩ := Nat.exists_eq_add_one.mpr hbatches
  constructor
  · intro h
    have hb : Barren live minIdle (clock 0) (page live minIdle (clock 0) count rows) := by
      rw [barren_iff consumer]
      by_contra hne
      obtain ⟨id, hid⟩ := exists_mem_of_ne_nil _ hne
      have hr := (h.exact _).mpr ⟨id, subset_moved hid, rfl⟩
      obtain ⟨n, hn⟩ := (reclaimFrom_spec (by simp)).1 _ hr
      exact formatStreamId_ne_toString id n hn
    refine ⟨hb, fun row hrow hl hi => ?_⟩
    obtain ⟨moved, hm, hid, ho⟩ := h.owned row hrow hl hi
    rw [reclaim_of_barren hb] at hm
    have heq := hsorted.row_unique ((rows_of_barren hb).1.subset hm) hrow hid
    exact heq ▸ ho
  · rintro ⟨hb, ho⟩
    rw [reclaim_of_barren hb]
    refine ⟨fun row hrow hl hi => ?_, nodup_nil, by simp⟩
    exact ⟨row, (rows_of_barren hb).2 row hrow hl, rfl, ho row hrow hl hi⟩

/-- Three stale entries of a consumer that is gone: the texts returned are the octets of the
second one's id. -/
theorem reclaim_returns_octets :
    let rows := [⟨toLex (1, 0), "gone", 0, 1⟩, ⟨toLex (2, 0), "gone", 0, 1⟩,
      ⟨toLex (3, 0), "gone", 0, 1⟩]
    (reclaim (fun _ => true) 10 (fun _ => 100) "live" 100 100 rows).returned =
        ["50", "45", "48"] ∧
      ¬ Transfers (fun _ => true) 10 (fun _ => 100) "live" rows
        (reclaim (fun _ => true) 10 (fun _ => 100) "live" 100 100 rows) := by
  intro rows
  refine ⟨by decide +kernel, fun h => ?_⟩
  have hr := (h.exact "1-0").mpr ⟨toLex (1, 0), by decide +kernel, by decide +kernel⟩
  exact absurd hr (by decide +kernel)

/-- A consumer that has taken its stale entries over moments ago moves nothing. -/
theorem reclaim_transfers_fresh :
    Transfers (fun _ => true) 10 (fun _ => 100) "live" [⟨toLex (1, 0), "live", 95, 1⟩]
        (reclaim (fun _ => true) 10 (fun _ => 100) "live" 100 100
          [⟨toLex (1, 0), "live", 95, 1⟩]) ∧
      NothingToMove (fun _ => true) 10 100 (fun _ => 100) "live"
        [⟨toLex (1, 0), "live", 95, 1⟩] := by
  have hn : NothingToMove (fun _ => true) 10 100 (fun _ => 100) "live"
      [⟨toLex (1, 0), "live", 95, 1⟩] := by
    refine ⟨fun row hrow => ?_, by simp⟩
    have hm : row ∈ [⟨toLex (1, 0), "live", 95, 1⟩] := take_subset _ _ hrow
    rw [mem_singleton.mp hm]
    rfl
  have hs : Sorted [(⟨toLex (1, 0), "live", 95, 1⟩ : PendingRow StreamId String)] :=
    pairwise_singleton _ _
  exact ⟨(reclaim_transfers_iff hs (by decide)).mpr hn, hn⟩

end Spec

end Aizzak.PendingReclaims
