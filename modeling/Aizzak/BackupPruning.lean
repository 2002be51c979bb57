import Aizzak.Calendar
import Aizzak.PyText

/-!
The shelf of backups and its pruning. A base set that failed half way, or still runs, stands on
the shelf without a manifest; the sweep counts the names, and what is kept of the archived WAL is
read off the manifests of the sets it keeps. A manifest that was written but cannot be read counts
for as much as none.
-/
namespace Aizzak.BackupPruning

open Calendar PyText List

abbrev Place := CodePoint → Bool

def anyDigit : Place := fun c => (digit c).isSome

def among (first last : Char) : Place := fun c => first.toNat ≤ c.val && c.val ≤ last.toNat

def literal (lower upper : Char) : Place := fun c => c.val == lower.toNat || c.val == upper.toNat

def takes : List Place → Text → Option (Text × Text)
  | [], text => some ([], text)
  | _ :: _, [] => none
  | place :: places, c :: text =>
    if place c then (takes places text).map fun (taken, rest) => (c :: taken, rest) else none

def directive (forms : List (List Place)) (text : Text) : List (ℕ × Text) :=
  forms.filterMap fun form => (takes form text).map fun (taken, rest) => (number taken, rest)

def yearForms : List (List Place) := [[anyDigit, anyDigit, anyDigit, anyDigit]]

def monthForms : List (List Place) :=
  [[among '1' '1', among '0' '2'], [among '0' '0', among '1' '9'], [among '1' '9']]

def dayForms : List (List Place) :=
  [[among '3' '3', among '0' '1'], [among '1' '2', anyDigit], [among '0' '0', among '1' '9'],
    [among '1' '9'], [among ' ' ' ', among '1' '9']]

def hourForms : List (List Place) :=
  [[among '2' '2', among '0' '3'], [among '0' '1', anyDigit], [anyDigit]]

def minuteForms : List (List Place) := [[among '0' '5', anyDigit], [anyDigit]]

def secondForms : List (List Place) :=
  [[among '6' '6', among '0' '1'], [among '0' '5', anyDigit], [anyDigit]]

structure Stamp where
  date : Date
  hour : ℕ
  minute : ℕ
  second : ℕ

def stamps (text : Text) : List (Stamp × Text) :=
  (directive yearForms text).flatMap fun (year, text) =>
  (directive monthForms text).flatMap fun (month, text) =>
  (directive dayForms text).flatMap fun (day, text) =>
  (directive [[literal 't' 'T']] text).flatMap fun (_, text) =>
  (directive hourForms text).flatMap fun (hour, text) =>
  (directive minuteForms text).flatMap fun (minute, text) =>
  (directive secondForms text).flatMap fun (second, text) =>
  (directive [[literal 'z' 'Z']] text).map fun (_, text) =>
    (⟨⟨year, month, day⟩, hour, minute, second⟩, text)

def daysInMonth (year month : ℕ) : ℕ :=
  daysBeforeMonth (isLeap year) (month + 1) - daysBeforeMonth (isLeap year) month

/-- The first match must be the whole text, and name a moment of the calendar. -/
def parseTimestamp (name : Text) : Option Instant :=
  match (stamps name).head? with
  | some (stamp, []) =>
    if 0 < stamp.date.year ∧ stamp.date.day ≤ daysInMonth stamp.date.year stamp.date.month ∧
        stamp.second < 60 then
      some (dayNumber stamp.date * microsPerDay +
        (stamp.hour * 3600 + stamp.minute * 60 + stamp.second) * microsPerSecond)
    else none
  | _ => none

def baseRetention : ℕ := 7 * microsPerDay
def dumpRetention : ℕ := 30 * microsPerDay
def qdrantRetention : ℕ := 3 * microsPerDay
def minKeptSets : ℕ := 1

def upperHex : Place := fun c => among '0' '9' c || among 'A' 'F' c

/-- `^[0-9A-F]{24}$`, whose end may stand before one last line break. -/
def isSegment (name : Text) : Bool :=
  (name.take 24).length == 24 && (name.take 24).all upperHex &&
    (name.drop 24 == [] || name.drop 24 == [10])

structure Manifest where
  startWalFile : Option Text
deriving DecidableEq

/-- A set under its prefix: the manifest that was written, and whether it can be read. -/
structure BackupSet where
  name : Text
  manifest : Option Manifest
  readable : Bool
deriving DecidableEq

def BackupSet.Complete (item : BackupSet) : Prop := item.manifest.isSome = true

instance (item : BackupSet) : Decidable item.Complete :=
  inferInstanceAs (Decidable (item.manifest.isSome = true))

def BackupSet.startWalFile (item : BackupSet) : Option Text :=
  item.manifest.bind (·.startWalFile)

/-- `_read_manifests`: a manifest that cannot be read leaves the set incomplete. -/
def BackupSet.readManifest (item : BackupSet) : Option Manifest :=
  if item.readable then item.manifest else none

def BackupSet.floor (item : BackupSet) : Option Text :=
  (item.readManifest.bind (·.startWalFile)).filter isSegment

structure Sets where
  items : List BackupSet
  nodup : (items.map (·.name)).Nodup

def Sets.remove (sets : Sets) (doomed : List Text) : Sets where
  items := sets.items.filter (·.name ∉ doomed)
  nodup := List.Nodup.sublist (List.Sublist.map _ List.filter_sublist) sets.nodup

structure Shelf where
  bases : Sets
  dumps : Sets
  vectors : Sets
  archived : List Text

def tooOld (retention : ℕ) (now : Instant) (name : Text) : Bool :=
  match parseTimestamp name with
  | none => false
  | some stamp => ¬ ((now : ℤ) - stamp ≤ retention)

def doom (old : Text → Bool) : List Text → ℕ → List Text
  | [], _ => []
  | name :: names, keepable =>
    if keepable ≤ minKeptSets then []
    else if old name then name :: doom old names (keepable - 1)
    else doom old names keepable

def ordered (sets : Sets) : List Text := (sets.items.map (·.name)).insertionSort (· ≤ ·)

def expired (sets : Sets) (retention : ℕ) (now : Instant) : List Text :=
  doom (tooOld retention now) (ordered sets) (ordered sets).length

structure PrunePlan where
  baseSets : List Text
  dumpSets : List Text
  qdrantSets : List Text
  walSegments : List Text
  walFloor : Option Text
deriving DecidableEq

def floors (survivors : List BackupSet) : List Text := survivors.filterMap BackupSet.floor

def planPrune (shelf : Shelf) (now : Instant) : PrunePlan :=
  let doomedBases := expired shelf.bases baseRetention now
  let floor := (floors (shelf.bases.remove doomedBases).items).min?
  { baseSets := doomedBases
    dumpSets := expired shelf.dumps dumpRetention now
    qdrantSets := expired shelf.vectors qdrantRetention now
    walSegments :=
      match floor with
      | none => []
      | some floor =>
        (shelf.archived.insertionSort (· ≤ ·)).filter fun name => isSegment name && name < floor
    walFloor := floor }

def prune (shelf : Shelf) (now : Instant) : Shelf :=
  let plan := planPrune shelf now
  { bases := shelf.bases.remove plan.baseSets
    dumps := shelf.dumps.remove plan.dumpSets
    vectors := shelf.vectors.remove plan.qdrantSets
    archived := shelf.archived.filter (· ∉ plan.walSegments) }

section Sweep

variable {old : Text → Bool} {sets : Sets} {retention : ℕ} {now : Instant}

variable {names : List Text}

theorem doom_eq_filter {keepable : ℕ} (hk : (names.filter old).length < keepable) :
    doom old names keepable = names.filter old := by
  induction names generalizing keepable with
  | nil => rfl
  | cons name names ih =>
    by_cases hold : old name = true
    · rw [filter_cons_of_pos hold, length_cons] at hk
      have hm : ¬ keepable ≤ minKeptSets := by
        rw [minKeptSets]
        omega
      rw [doom, if_neg hm, if_pos hold, ih (by omega), filter_cons_of_pos hold]
    · rw [filter_cons_of_neg hold] at hk
      rw [doom, filter_cons_of_neg hold, if_neg hold, ih hk]
      split_ifs with hl
      · rw [minKeptSets] at hl
        exact (length_eq_zero_iff.mp (by omega)).symm
      · rfl

theorem doom_eq_dropLast (hold : ∀ name ∈ names, old name = true) :
    doom old names names.length = names.dropLast := by
  induction names with
  | nil => rfl
  | cons name names ih =>
    have hr := ih fun other ho => hold other (mem_cons_of_mem _ ho)
    rw [doom, if_pos (hold name mem_cons_self), length_cons, Nat.add_sub_cancel, hr]
    cases names with
    | nil => simp [minKeptSets]
    | cons => simp [minKeptSets]

variable {name : Text}

theorem mem_dropLast_iff (hs : names.Pairwise (· < ·)) :
    name ∈ names.dropLast ↔ name ∈ names ∧ ∃ other ∈ names, name < other := by
  rcases eq_nil_or_concat names with rfl | ⟨front, last, rfl⟩
  · simp
  · rw [concat_eq_append] at hs ⊢
    obtain ⟨-, -, hl⟩ := pairwise_append.mp hs
    have ha : ∀ other ∈ front, other < last := fun other ho =>
      hl other ho last mem_cons_self
    rw [dropLast_concat]
    constructor
    · intro hn
      exact ⟨mem_append_left _ hn, last, by simp, ha name hn⟩
    · rintro ⟨hn, other, ho, hlt⟩
      rcases mem_append.mp hn with hn | hn
      · exact hn
      · rw [mem_singleton.mp hn] at hlt
        rcases mem_append.mp ho with ho | ho
        · exact absurd hlt (lt_asymm (ha other ho))
        · rw [mem_singleton.mp ho] at hlt
          exact absurd hlt (lt_irrefl last)

theorem mem_ordered :
    name ∈ ordered sets ↔ ∃ item ∈ sets.items, item.name = name := by
  rw [ordered, mem_insertionSort, mem_map]

theorem ordered_sorted (sets : Sets) : (ordered sets).Pairwise (· < ·) := by
  have hn : (ordered sets).Nodup :=
    (perm_insertionSort _ _).nodup_iff.mpr sets.nodup
  exact (pairwise_insertionSort (· ≤ ·) _).imp₂ (fun _ _ hle hne => lt_of_le_of_ne hle hne)
    hn

theorem mem_expired :
    name ∈ expired sets retention now ↔ name ∈ ordered sets ∧ tooOld retention now name = true ∧
      ((∃ other ∈ ordered sets, tooOld retention now other = false) ∨
        ∃ other ∈ ordered sets, name < other) := by
  by_cases hfr : ∃ other ∈ ordered sets, tooOld retention now other = false
  · have hf :
        ((ordered sets).filter (tooOld retention now)).length < (ordered sets).length := by
      obtain ⟨other, ho, hy⟩ := hfr
      exact length_filter_lt_length_iff_exists.mpr ⟨other, ho, by simp [hy]⟩
    rw [expired, doom_eq_filter hf, mem_filter]
    simp [hfr]
  · have hold : ∀ other ∈ ordered sets, tooOld retention now other = true := by
      intro other ho
      by_contra hy
      exact hfr ⟨other, ho, by simpa using hy⟩
    rw [expired, doom_eq_dropLast hold, mem_dropLast_iff (ordered_sorted sets)]
    constructor
    · rintro ⟨hna, hn⟩
      exact ⟨hna, hold name hna, Or.inr hn⟩
    · rintro ⟨hna, -, hn⟩
      exact ⟨hna, hn.resolve_left hfr⟩

/-- A set the sweep leaves: a young one, or the newest of a shelf where all are old. -/
def Kept (sets : Sets) (retention : ℕ) (now : Instant) (item : BackupSet) : Prop :=
  tooOld retention now item.name = false ∨
    ∀ other ∈ sets.items, tooOld retention now other.name = true ∧ other.name ≤ item.name

theorem mem_remove_expired {item : BackupSet} :
    item ∈ (sets.remove (expired sets retention now)).items ↔
      item ∈ sets.items ∧ Kept sets retention now item := by
  rw [Sets.remove, mem_filter, decide_eq_true_eq]
  apply and_congr_right
  intro hitem
  have hna : item.name ∈ ordered sets := mem_ordered.mpr ⟨item, hitem, rfl⟩
  rw [mem_expired, Kept]
  constructor
  · intro hg
    by_cases hy : tooOld retention now item.name = false
    · exact Or.inl hy
    · right
      intro other ho
      have hin : other.name ∈ ordered sets := mem_ordered.mpr ⟨other, ho, rfl⟩
      constructor
      · by_contra hfr
        exact hg ⟨hna, by simpa using hy, Or.inl ⟨_, hin, by simpa using hfr⟩⟩
      · by_contra hn
        exact hg ⟨hna, by simpa using hy, Or.inr ⟨_, hin, not_le.mp hn⟩⟩
  · rintro hk ⟨-, hold, ho⟩
    have hall := hk.resolve_left (by simp [hold])
    rcases ho with ⟨other, hin, hy⟩ | ⟨other, hin, hn⟩
    · obtain ⟨found, hf, rfl⟩ := mem_ordered.mp hin
      rw [(hall found hf).1] at hy
      exact Bool.noConfusion hy
    · obtain ⟨found, hf, rfl⟩ := mem_ordered.mp hin
      exact absurd hn (not_lt.mpr (hall found hf).2)

theorem expired_remove_expired :
    expired (sets.remove (expired sets retention now)) retention now = [] := by
  apply eq_nil_iff_forall_not_mem.mpr
  intro name hna
  obtain ⟨hin, hold, ho⟩ := mem_expired.mp hna
  obtain ⟨item, hitem, rfl⟩ := mem_ordered.mp hin
  obtain ⟨-, hk⟩ := mem_remove_expired.mp hitem
  have hall := hk.resolve_left (by simp [hold])
  rcases ho with ⟨other, hin, hy⟩ | ⟨other, hin, hn⟩
  · obtain ⟨found, hf, rfl⟩ := mem_ordered.mp hin
    rw [(hall found (mem_remove_expired.mp hf).1).1] at hy
    exact Bool.noConfusion hy
  · obtain ⟨found, hf, rfl⟩ := mem_ordered.mp hin
    exact absurd hn (not_lt.mpr (hall found (mem_remove_expired.mp hf).1).2)

theorem remove_nil (sets : Sets) : (sets.remove []).items = sets.items := by
  simp [Sets.remove]

end Sweep

section Archive

variable {shelf : Shelf} {now : Instant}

theorem mem_walSegments {name : Text} :
    name ∈ (planPrune shelf now).walSegments ↔ name ∈ shelf.archived ∧ isSegment name = true ∧
      ∃ floor, (planPrune shelf now).walFloor = some floor ∧ name < floor := by
  simp only [planPrune]
  split
  · rename_i hn
    simp [hn]
  · rename_i floor hf
    rw [mem_filter, mem_insertionSort, Bool.and_eq_true, decide_eq_true_eq]
    simp [hf]

/-- The floor lies above a name unless a kept set is read to begin at it or before. -/
theorem walFloor_le_iff {name : Text} :
    (∀ floor, (planPrune shelf now).walFloor = some floor → floor ≤ name) ↔
      (∀ item ∈ (prune shelf now).bases.items, item.floor = none) ∨
        ∃ item ∈ (prune shelf now).bases.items, ∃ start, item.floor = some start ∧
          start ≤ name := by
  change (∀ floor, (floors (prune shelf now).bases.items).min? = some floor → floor ≤ name) ↔ _
  constructor
  · intro h
    cases hm : (floors (prune shelf now).bases.items).min? with
    | none =>
      rw [List.min?_eq_none_iff, floors, filterMap_eq_nil_iff] at hm
      exact .inl hm
    | some floor =>
      obtain ⟨item, hitem, hf⟩ := mem_filterMap.mp (List.min?_eq_some_iff.mp hm).1
      exact .inr ⟨item, hitem, floor, hf, h floor hm⟩
  · rintro (hnone | ⟨item, hitem, start, hs, hle⟩) floor hf
    · rw [floors, filterMap_eq_nil_iff.mpr hnone] at hf
      cases hf
    · exact ((List.min?_eq_some_iff.mp hf).2 start (mem_filterMap.mpr ⟨item, hitem, hs⟩)).trans
        hle

/-- What a set needs of the archive: the segments of its timeline from its first one on. -/
def Covered (start : Text) (before after : List Text) : Prop :=
  ∀ name ∈ before, isSegment name = true → name.take 8 = start.take 8 → start ≤ name →
    name ∈ after

/-- A segment is kept when the floor is not above it. -/
theorem mem_archived_prune {name : Text} (hn : name ∈ shelf.archived)
    (hs : isSegment name = true) : name ∈ (prune shelf now).archived ↔
      ∀ floor, (planPrune shelf now).walFloor = some floor → floor ≤ name := by
  rw [prune, mem_filter, decide_eq_true_eq, mem_walSegments]
  constructor
  · intro h floor hf
    exact not_lt.mp fun hlt => h.2 ⟨hn, hs, floor, hf, hlt⟩
  · rintro h
    refine ⟨hn, ?_⟩
    rintro ⟨-, -, floor, hf, hlt⟩
    exact absurd hlt (not_lt.mpr (h floor hf))

theorem floor_eq_some {item : BackupSet} {start : Text} (hr : item.readable = true)
    (hst : item.startWalFile = some start) (hs : isSegment start = true) :
    item.floor = some start := by
  rw [BackupSet.startWalFile] at hst
  rw [BackupSet.floor, BackupSet.readManifest, if_pos hr, hst, Option.filter_some, if_pos hs]

def PrunePlan.DeletesNothing (plan : PrunePlan) : Prop :=
  plan.baseSets = [] ∧ plan.dumpSets = [] ∧ plan.qdrantSets = [] ∧ plan.walSegments = []

/-- A sweep does not move the floor of the archive. -/
theorem walFloor_prune :
    (planPrune (prune shelf now) now).walFloor = (planPrune shelf now).walFloor := by
  have hb : ((prune shelf now).bases.remove
      (expired (prune shelf now).bases baseRetention now)).items =
        (prune shelf now).bases.items := by
    rw [show expired (prune shelf now).bases baseRetention now = [] from expired_remove_expired,
      remove_nil]
  have hf := congrArg (fun items => (floors items).min?) hb
  exact hf

theorem planPrune_prune : (planPrune (prune shelf now) now).DeletesNothing := by
  refine ⟨expired_remove_expired, expired_remove_expired, expired_remove_expired, ?_⟩
  apply eq_nil_iff_forall_not_mem.mpr
  intro name hn
  obtain ⟨hin, hs, floor, hf, hlt⟩ := mem_walSegments.mp hn
  obtain ⟨ha, hsp⟩ := mem_filter.mp hin
  rw [decide_eq_true_eq] at hsp
  rw [walFloor_prune] at hf
  exact hsp (mem_walSegments.mpr ⟨ha, hs, floor, hf, hlt⟩)

/-- A complete base set is young enough, or it is the newest of a shelf where all are old. -/
def KeepsComplete (shelf : Shelf) (now : Instant) : Prop :=
  ∃ item ∈ shelf.bases.items, item.Complete ∧ Kept shelf.bases baseRetention now item

/-- Of the segments that a kept set with an unreadable manifest needs, each is at or behind one
that the manifest of a kept set is read to begin with, if any of these names a segment. -/
def CoversUnread (shelf : Shelf) (now : Instant) : Prop :=
  ∀ item ∈ shelf.bases.items, Kept shelf.bases baseRetention now item → item.readable = false →
    ∀ start, item.startWalFile = some start → isSegment start = true → ∀ name ∈ shelf.archived,
      isSegment name = true → name.take 8 = start.take 8 → start ≤ name →
        (∀ other ∈ shelf.bases.items, Kept shelf.bases baseRetention now other →
          other.floor = none) ∨
        ∃ other ∈ shelf.bases.items, Kept shelf.bases baseRetention now other ∧
          ∃ first, other.floor = some first ∧ first ≤ name

theorem mem_bases_prune {item : BackupSet} : item ∈ (prune shelf now).bases.items ↔
    item ∈ shelf.bases.items ∧ Kept shelf.bases baseRetention now item :=
  mem_remove_expired

theorem walFloor_le_iff_kept {name : Text} :
    (∀ floor, (planPrune shelf now).walFloor = some floor → floor ≤ name) ↔
      (∀ other ∈ shelf.bases.items, Kept shelf.bases baseRetention now other →
        other.floor = none) ∨
      ∃ other ∈ shelf.bases.items, Kept shelf.bases baseRetention now other ∧
        ∃ first, other.floor = some first ∧ first ≤ name := by
  rw [walFloor_le_iff]
  simp only [mem_bases_prune, and_imp, and_assoc]

/-- A second sweep has nothing to do. The last complete base set is kept exactly when it is young
enough or newest of all, and the sweep takes no segment a kept set needs exactly when it reads the
manifests it has to go by. -/
theorem pruning_keeps_a_way_back_iff (shelf : Shelf) (now : Instant) :
    (((∃ item ∈ shelf.bases.items, item.Complete) →
        ∃ item ∈ (prune shelf now).bases.items, item.Complete) ∧
      (∀ item ∈ (prune shelf now).bases.items, item.Complete →
        ∀ start, item.startWalFile = some start → isSegment start = true →
          Covered start shelf.archived (prune shelf now).archived) ∧
      (planPrune (prune shelf now) now).DeletesNothing) ↔
    ((∃ item ∈ shelf.bases.items, item.Complete) → KeepsComplete shelf now) ∧
      CoversUnread shelf now := by
  constructor
  · rintro ⟨hc, hcov, -⟩
    refine ⟨fun hso => ?_, ?_⟩
    · obtain ⟨item, hitem, hd⟩ := hc hso
      obtain ⟨hb, hke⟩ := mem_bases_prune.mp hitem
      exact ⟨item, hb, hd, hke⟩
    · intro item hitem hke _ start hst hs name hn hsn htl hle
      have hd : item.Complete := by
        rw [BackupSet.startWalFile] at hst
        obtain ⟨manifest, hm, -⟩ := Option.bind_eq_some_iff.mp hst
        rw [BackupSet.Complete, hm]
        rfl
      have hkept := hcov item (mem_bases_prune.mpr ⟨hitem, hke⟩) hd start hst hs name hn hsn htl hle
      exact walFloor_le_iff_kept.mp ((mem_archived_prune hn hsn).mp hkept)
  · rintro ⟨hk, hun⟩
    refine ⟨?_, ?_, planPrune_prune⟩
    · intro hso
      obtain ⟨item, hitem, hd, hke⟩ := hk hso
      exact ⟨item, mem_bases_prune.mpr ⟨hitem, hke⟩, hd⟩
    · intro item hitem _ start hst hs name hn hsn htl hle
      obtain ⟨hb, hke⟩ := mem_bases_prune.mp hitem
      rw [mem_archived_prune hn hsn, walFloor_le_iff_kept]
      cases hr : item.readable with
      | true => exact .inr ⟨item, hb, hke, start, floor_eq_some hr hst hs, hle⟩
      | false => exact hun item hb hke hr start hst hs name hn hsn htl hle

def brokenNight : Shelf where
  bases :=
    { items :=
        [⟨ofString "20261001T020000Z", some ⟨some (ofString "000000010000000000000010")⟩, true⟩,
          ⟨ofString "20261010T020000Z", none, true⟩]
      nodup := by decide }
  dumps := ⟨[], List.nodup_nil⟩
  vectors := ⟨[], List.nodup_nil⟩
  archived := [ofString "000000010000000000000010", ofString "000000010000000000000011"]

def morning : Instant := dayNumber ⟨2026, 10, 10⟩ * microsPerDay + 43200 * microsPerSecond

/-- The sweep takes the only set a restore could start from. -/
theorem failed_night_costs_last_base :
    (∃ item ∈ brokenNight.bases.items, item.Complete) ∧
      ¬ ∃ item ∈ (prune brokenNight morning).bases.items, item.Complete := by
  decide +kernel

end Archive

end Aizzak.BackupPruning
