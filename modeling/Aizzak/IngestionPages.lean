import Aizzak.IngestionRuns

/-!
The page rows of a document. What a seeding, a recorded batch and a reset do to the row of one
page, which pages are unfinished, and what the evidence of a document is once the rows are
known. A batch is asked for by maximal runs of page numbers, which come to its pages again.
-/
namespace Aizzak.IngestionPages

open KeyedTables IngestionRuns List

def flattened (runs : List (ℕ × ℕ)) : List ℕ :=
  runs.reverse.flatMap fun run => pageRange run.1 run.2

theorem flattened_cons (run : ℕ × ℕ) (runs : List (ℕ × ℕ)) :
    flattened (run :: runs) = flattened runs ++ pageRange run.1 run.2 := by
  simp [flattened]

theorem flattened_addPage (runs : List (ℕ × ℕ)) (page : ℕ) (h : ∀ run ∈ runs, run.1 ≤ run.2) :
    flattened (addPage runs page) = flattened runs ++ [page] ∧
      ∀ run ∈ addPage runs page, run.1 ≤ run.2 := by
  cases runs with
  | nil => simp [addPage, flattened, pageRange]
  | cons run done =>
    obtain ⟨first, last⟩ := run
    have hle : first ≤ last := h (first, last) (by simp)
    rw [forall_mem_cons] at h
    simp only [addPage]
    split_ifs with hn
    · subst hn
      have hr : pageRange first (last + 1) = pageRange first last ++ [last + 1] := by
        have hl : last + 1 + 1 - first = last + 1 - first + 1 := by omega
        have hend : first + (last + 1 - first) = last + 1 := by omega
        rw [pageRange, hl, range'_concat, pageRange, Nat.one_mul, hend]
      refine ⟨?_, forall_mem_cons.mpr ⟨by simp only; omega, h.2⟩⟩
      rw [flattened_cons, flattened_cons, hr, append_assoc]
    · refine ⟨?_, forall_mem_cons.mpr ⟨le_rfl, forall_mem_cons.mpr h⟩⟩
      rw [flattened_cons]
      simp [pageRange]

theorem flattened_foldl (pages : List ℕ) (runs : List (ℕ × ℕ)) (h : ∀ run ∈ runs, run.1 ≤ run.2) :
    flattened (pages.foldl addPage runs) = flattened runs ++ pages := by
  induction pages generalizing runs with
  | nil => simp
  | cons page rest ih =>
    obtain ⟨hadd, hle⟩ := flattened_addPage runs page h
    rw [foldl_cons, ih (addPage runs page) hle, hadd, append_assoc]
    rfl

theorem flatMap_runsOf (pages : List ℕ) :
    ((runsOf pages).flatMap fun run => pageRange run.1 run.2) = pages := by
  simpa [flattened, runsOf] using flattened_foldl pages [] (by simp)

variable {E : Type}

def pendingRow : PageRow E := ⟨.pending, none, 0, none⟩

def storedRow (result : PageResult E) : PageRow E :=
  ⟨result.status, result.reason, result.attempts, some result.content⟩

/-- Seeding adds pending rows and touches no other. -/
theorem lookup_seed (pages : Pages E) (document : String) (numbers : List ℕ) (key : String × ℕ) :
    (seed pages document numbers).lookup key = pages.lookup key ∨
      pages.lookup key = none ∧ (seed pages document numbers).lookup key = some pendingRow ∧
        key.1 = document ∧ key.2 ∈ numbers := by
  induction numbers generalizing pages with
  | nil => exact .inl rfl
  | cons n rest ih =>
    by_cases hmem : (document, n) ∈ pages
    · have hf : seed pages document (n :: rest) = seed pages document rest := by
        simp [seed, hmem]
      rcases ih pages with hs | ⟨hno, hnew, hd, hn⟩
      · exact .inl (hf ▸ hs)
      · exact .inr ⟨hno, hf ▸ hnew, hd, mem_cons_of_mem _ hn⟩
    · have hf : seed pages document (n :: rest) =
          seed (pages.insert (document, n) pendingRow) document rest := by
        simp [seed, hmem, pendingRow]
      rw [hf]
      by_cases hkey : key = (document, n)
      · subst hkey
        have hno : pages.lookup (document, n) = none := AList.lookup_eq_none.mpr hmem
        rcases ih (pages.insert (document, n) pendingRow) with hs | ⟨hnew, -⟩
        · exact .inr ⟨hno, by rw [hs, AList.lookup_insert], rfl, by simp⟩
        · simp at hnew
      · have hl : (pages.insert (document, n) pendingRow).lookup key = pages.lookup key :=
          AList.lookup_insert_ne hkey
        rcases ih (pages.insert (document, n) pendingRow) with hs | ⟨hno, hnew, hd, hn⟩
        · exact .inl (hs.trans hl)
        · exact .inr ⟨hl ▸ hno, hnew, hd, mem_cons_of_mem _ hn⟩

variable {pages : Pages E} {key : String × ℕ}

theorem mem_seed_of_mem (h : key ∈ pages) (document : String) (numbers : List ℕ) :
    key ∈ seed pages document numbers := by
  induction numbers generalizing pages with
  | nil => exact h
  | cons n rest ih =>
    simp only [seed, foldl_cons]
    split_ifs
    · exact ih h
    · exact ih ((AList.mem_insert _).mpr (.inr h))

variable {numbers : List ℕ} {n : ℕ}

/-- Every page that was asked for has a row. -/
theorem mem_seed (pages : Pages E) (document : String) (h : n ∈ numbers) :
    (document, n) ∈ seed pages document numbers := by
  induction numbers generalizing pages with
  | nil => cases h
  | cons m rest ih =>
    simp only [seed, foldl_cons]
    rcases mem_cons.mp h with rfl | hr
    · split_ifs with hmem
      · exact mem_seed_of_mem hmem document rest
      · exact mem_seed_of_mem ((AList.mem_insert _).mpr (.inl rfl)) document rest
    · exact ih _ hr

theorem lookup_recordPages (pages : Pages E) (document : String) (results : List (PageResult E))
    (key : String × ℕ) :
    (recordPages pages document results).lookup key = pages.lookup key ∧
        (∀ result ∈ results, key ≠ (document, result.pageNo)) ∨
      ∃ result ∈ results, key = (document, result.pageNo) ∧
        (recordPages pages document results).lookup key = some (storedRow result) := by
  induction results generalizing pages with
  | nil => exact .inl ⟨rfl, by simp⟩
  | cons result rest ih =>
    have hf : recordPages pages document (result :: rest) =
        recordPages (pages.insert (document, result.pageNo) (storedRow result)) document rest := rfl
    rw [hf]
    rcases ih (pages.insert (document, result.pageNo) (storedRow result)) with
      ⟨hs, hn⟩ | ⟨other, ho, hkey, hrow⟩
    · by_cases hkey : key = (document, result.pageNo)
      · exact .inr ⟨result, by simp, hkey, by rw [hs, hkey, AList.lookup_insert]⟩
      · refine .inl ⟨by rw [hs, AList.lookup_insert_ne hkey], ?_⟩
        exact forall_mem_cons.mpr ⟨hkey, hn⟩
    · exact .inr ⟨other, mem_cons_of_mem _ ho, hkey, hrow⟩

theorem mem_recordPages_of_mem (h : key ∈ pages) (document : String)
    (results : List (PageResult E)) :
    key ∈ recordPages pages document results := by
  rw [← AList.lookup_isSome]
  rcases lookup_recordPages pages document results key with ⟨hs, -⟩ | ⟨result, -, -, hrow⟩
  · rw [hs, AList.lookup_isSome]
    exact h
  · rw [hrow]
    rfl

variable {document : String}

theorem lookup_resetPages_of_ne (pages : Pages E) (numbers : Option (List ℕ))
    (hkey : key.1 ≠ document) :
    (resetPages pages document numbers).lookup key = pages.lookup key := by
  have hf : ∀ reset : Pages E → String × ℕ → Pages E,
      (∀ rows other, (reset rows other).lookup key = rows.lookup key) →
      ∀ (keys : List (String × ℕ)) (rows : Pages E),
        (keys.foldl reset rows).lookup key = rows.lookup key := by
    intro reset hr keys
    induction keys with
    | nil => exact fun _ => rfl
    | cons other rest ih =>
      intro rows
      rw [foldl_cons, ih, hr]
  refine hf _ (fun rows other => ?_) pages.keys pages
  split_ifs with ho
  · have hne : key ≠ other := fun h => hkey (h ▸ ho.1)
    split
    · exact AList.lookup_insert_ne hne
    · rfl
  · rfl

theorem mem_unfinished :
    n ∈ unfinished pages document ↔
      ∃ row, pages.lookup (document, n) = some row ∧ row.status.isUnfinished = true := by
  rw [unfinished, (perm_insertionSort _ _).mem_iff]
  simp only [mem_map, mem_filter, Bool.and_eq_true, decide_eq_true_eq,
    Option.any_eq_true]
  constructor
  · rintro ⟨⟨name, m⟩, ⟨-, rfl, hrow⟩, rfl⟩
    exact hrow
  · rintro ⟨row, hrow, hs⟩
    exact ⟨(document, n), ⟨AList.mem_keys.mp (mem_of_lookup hrow), rfl, row, hrow, hs⟩, rfl⟩

theorem unfinished_eq (pages : Pages E) (document : String) (hs : numbers.Pairwise (· < ·))
    (hmem : ∀ n, n ∈ unfinished pages document ↔ n ∈ numbers) :
    unfinished pages document = numbers := by
  have hn : (unfinished pages document).Nodup := by
    refine (perm_insertionSort _ _).nodup_iff.mpr
      (List.Nodup.map_on ?_ (pages.keys_nodup.filter _))
    intro key hkey other hot heq
    simp only [mem_filter, Bool.and_eq_true, decide_eq_true_eq] at hkey hot
    exact Prod.ext (hkey.2.1.trans hot.2.1.symm) heq
  have ho : (unfinished pages document).Pairwise (· ≤ ·) := by
    unfold unfinished
    exact pairwise_insertionSort _ _
  have hp := (perm_ext_iff_of_nodup hn (hs.imp Nat.ne_of_lt)).mpr hmem
  exact hp.eq_of_pairwise (fun a b _ _ => Nat.le_antisymm) ho (hs.imp Nat.le_of_lt)

def evidenceOf (n : ℕ) (row : PageRow E) : Option (PageEvidence E) :=
  if row.status.isEvidence then
    row.content.map fun content => ⟨n, row.status, row.reason, content⟩
  else none

theorem pageNo_of_evidenceOf {row : PageRow E} {found : PageEvidence E}
    (h : evidenceOf n row = some found) : found.pageNo = n := by
  unfold evidenceOf at h
  split_ifs at h
  obtain ⟨content, -, rfl⟩ := Option.map_eq_some_iff.mp h
  rfl

theorem mem_evidence {found : PageEvidence E} :
    found ∈ evidence pages document ↔
      (pages.lookup (document, found.pageNo)).bind (evidenceOf found.pageNo) = some found := by
  rw [evidence, (perm_insertionSort _ _).mem_iff, mem_filterMap]
  constructor
  · rintro ⟨⟨name, n⟩, -, hrow⟩
    obtain ⟨row, hl, hf⟩ := Option.bind_eq_some_iff.mp hrow
    split_ifs at hf with hkey
    obtain ⟨rfl, hs⟩ := hkey
    have he : evidenceOf n row = some found := by rw [evidenceOf, if_pos hs, hf]
    rw [pageNo_of_evidenceOf he, hl]
    exact he
  · intro h
    obtain ⟨row, hl, hf⟩ := Option.bind_eq_some_iff.mp h
    refine ⟨(document, found.pageNo), AList.mem_keys.mp (mem_of_lookup hl), ?_⟩
    rw [hl, Option.bind_some]
    unfold evidenceOf at hf
    split_ifs at hf with hs
    rw [if_pos ⟨rfl, hs⟩, hf]

theorem evidence_nodup (pages : Pages E) (document : String) :
    (evidence pages document).Nodup := by
  refine (perm_insertionSort _ _).nodup_iff.mpr (List.Nodup.filterMap ?_ pages.keys_nodup)
  intro key other found hkey ho
  have hof : ∀ k : String × ℕ, (found ∈ (pages.lookup k).bind fun row =>
      if k.1 = document ∧ row.status.isEvidence then
        row.content.map fun content => (⟨k.2, row.status, row.reason, content⟩ : PageEvidence E)
      else none) → k = (document, found.pageNo) := by
    intro k hk
    obtain ⟨row, -, hf⟩ := Option.bind_eq_some_iff.mp hk
    split_ifs at hf with ht
    obtain ⟨content, -, rfl⟩ := Option.map_eq_some_iff.mp hf
    exact Prod.ext ht.1 rfl
  rw [hof key hkey, hof other ho]

theorem evidence_sorted (pages : Pages E) (document : String) :
    (evidence pages document).Pairwise fun a b => a.pageNo ≤ b.pageNo := by
  have : Std.Total fun a b : PageEvidence E => a.pageNo ≤ b.pageNo :=
    ⟨fun a b => Nat.le_total a.pageNo b.pageNo⟩
  have : IsTrans (PageEvidence E) fun a b => a.pageNo ≤ b.pageNo :=
    ⟨fun _ _ _ => Nat.le_trans⟩
  unfold evidence
  exact pairwise_insertionSort _ _

/-- The evidence of a document comes page by page. -/
theorem evidence_eq (pages : Pages E) (document : String) (hs : numbers.Pairwise (· < ·))
    (hc : ∀ n, (document, n) ∈ pages → n ∈ numbers) :
    evidence pages document =
      numbers.filterMap fun n => (pages.lookup (document, n)).bind (evidenceOf n) := by
  have hpageNo : ∀ n found, (pages.lookup (document, n)).bind (evidenceOf n) = some found →
      found.pageNo = n := by
    intro n found h
    obtain ⟨row, -, hf⟩ := Option.bind_eq_some_iff.mp h
    exact pageNo_of_evidenceOf hf
  have hno : (numbers.filterMap fun n =>
      (pages.lookup (document, n)).bind (evidenceOf n)).Nodup := by
    refine List.Nodup.filterMap ?_ (hs.imp Nat.ne_of_lt)
    intro n m found hn hm
    exact (hpageNo n found hn).symm.trans (hpageNo m found hm)
  have hmem : ∀ found, found ∈ evidence pages document ↔
      found ∈ numbers.filterMap fun n => (pages.lookup (document, n)).bind (evidenceOf n) := by
    intro found
    rw [mem_evidence, mem_filterMap]
    constructor
    · intro h
      obtain ⟨row, hrow, -⟩ := Option.bind_eq_some_iff.mp h
      exact ⟨found.pageNo, hc _ (mem_of_lookup hrow), h⟩
    · rintro ⟨n, -, h⟩
      rw [hpageNo n found h]
      exact h
  have hp := (perm_ext_iff_of_nodup (evidence_nodup pages document) hno).mpr hmem
  refine hp.eq_of_pairwise ?_ (evidence_sorted pages document) ?_
  · intro a b ha hb hab hba
    have hsa : a.pageNo = b.pageNo := Nat.le_antisymm hab hba
    have ha' := mem_evidence.mp ha
    have hb' := mem_evidence.mp ((hmem b).mpr hb)
    rw [hsa] at ha'
    exact Option.mem_unique ha' hb'
  · refine pairwise_filterMap.mpr (hs.imp ?_)
    intro n m hlt a ha b hb
    rw [hpageNo n a ha, hpageNo m b hb]
    exact hlt.le

end Aizzak.IngestionPages
