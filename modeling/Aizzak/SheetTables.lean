import Aizzak.IdentifierParsers
import Aizzak.KeyedTables

/-!
The tables of a spreadsheet. Blank rows and fresh header rows cut a sheet into blocks, the header
row of a block names its columns, and each row below it becomes a dict from those names to the
cells. A name that two columns share holds the later cell.
-/
namespace Aizzak.SheetTables

open PyText List
open IdentifierParsers (decimal)
open KeyedTables (putAll)

inductive Cell (α : Type*) where
  | nan
  | text (value : Text)
  | other (value : α)
deriving DecidableEq

inductive Value (α : Type*) where
  | none
  | text (value : Text)
  | other (value : α)
deriving DecidableEq

/-- Python's own reading of characters and of the cells that are no text. -/
structure Interpreter (α : Type*) where
  lower : Text → Text
  isDigit : CodePoint → Bool
  isAlpha : CodePoint → Bool
  shown : α → Text
  isoformat : α → Option Text

structure Sheet (α : Type*) where
  width : ℕ
  rows : List (List (Cell α))
  length_row : ∀ row ∈ rows, row.length = width

structure Table (α : Type*) where
  path : Text
  headers : List Text
  numRows : ℕ
  numCols : ℕ
  table : List (AList fun _ : Text => Value α)
  sheetName : Text
  sheetNumber : ℕ
  parent : Option (Text × Text)

def minRows : ℕ := 2

def minCols : ℕ := 2

def maxRowsPerChunk : ℕ := 500

def headerScanRows : ℕ := 5

def headerLikeMaxRatio : ℚ := 4 / 10

def headerStrongLowRatio : ℚ := 2 / 10

def headerStrongHighRatio : ℚ := 5 / 10

variable {α : Type*} (py : Interpreter α) (sheet : Sheet α)

def Cell.str : Cell α → Text
  | .nan => ofString "nan"
  | .text value => value
  | .other value => py.shown value

def Cell.isNa : Cell α → Bool
  | .nan => true
  | _ => false

def blankRow (row : List (Cell α)) : Bool := row.all Cell.isNa

def normalizeCellValue : Cell α → Value α
  | .nan => .none
  | .text value => if strip value = [] then .none else .text (strip value)
  | .other value => (py.isoformat value).elim (.other value) .text

def numericLike (s : Text) : Bool :=
  let pure := (s.erase 0x2E).filter (· ≠ 0x2C)
  (pure ≠ [] && pure.all py.isDigit) || s.any py.isDigit

def numericRatio (values : List Text) : ℚ :=
  if values = [] then 1 else values.countP (numericLike py) / values.length

def nonEmpty (row : List (Cell α)) : List Text :=
  (row.map fun v => strip (v.str py)).filter (· ≠ [])

def isHeaderRow (row : List (Cell α)) (nextRow : Option (List (Cell α))) : Bool :=
  match nonEmpty py row with
  | [] => false
  | value :: values =>
    let first := py.lower value
    if 0x2D ∈ first ∧ first.any py.isDigit ∧ first.any py.isAlpha then false
    else if ofString "---" <:+: first then false
    else
      let cur := numericRatio py (value :: values)
      let next := (nextRow.map (nonEmpty py)).bind fun vals =>
        if vals = [] then none else some (numericRatio py vals)
      if next.any fun next => next ≤ cur ∧
          ¬ (cur < headerStrongLowRatio ∧ headerStrongHighRatio < next) then false
      else cur < headerLikeMaxRatio

def closed (start : Option ℕ) (count i : ℕ) : List (ℕ × ℕ) :=
  if minRows ≤ count then start.toList.map (·, i - 1) else []

def segmentLoop (start : Option ℕ) (count : ℕ) (prev : Bool) :
    ℕ → List (List (Cell α)) → List (ℕ × ℕ)
  | i, [] => closed start count i
  | i, row :: rows =>
    if blankRow row then closed start count i ++ segmentLoop none 0 false (i + 1) rows
    else
      let headerLike := isHeaderRow py row rows.head?
      if start = none then segmentLoop (some i) 1 headerLike (i + 1) rows
      else if headerLike && !prev && minRows ≤ count then
        closed start count i ++ segmentLoop (some i) 1 headerLike (i + 1) rows
      else segmentLoop start (count + 1) headerLike (i + 1) rows

def segmentBlocks : List (ℕ × ℕ) := segmentLoop py none 0 false 0 sheet.rows

def blockRows (block : ℕ × ℕ) : List (List (Cell α)) :=
  (sheet.rows.drop block.1).take (block.2 + 1 - block.1)

def findHeaderRowIndex (rows : List (List (Cell α))) : ℕ :=
  ((range (min headerScanRows rows.length)).find? fun i =>
    (rows[i]?).any fun row => isHeaderRow py row rows[i + 1]?).getD 0

def headerName (i : ℕ) (h : Cell α) : Text :=
  if strip (h.str py) = [] then ofString "Column_" ++ decimal (i + 1) else strip (h.str py)

def rowToHeaders (headerRow : List (Cell α)) : List Text := headerRow.mapIdx (headerName py)

def rowEntries (headers : List Text) (row : List (Cell α)) : List (Text × Value α) :=
  headers.zipIdx.map fun p => (p.1, (row[p.2]?).elim .none (normalizeCellValue py))

def rowDict (headers : List Text) (row : List (Cell α)) : AList fun _ : Text => Value α :=
  putAll ∅ (rowEntries py headers row)

def rowsToDicts (rows : List (List (Cell α))) (headers : List Text) :
    List (AList fun _ : Text => Value α) :=
  (rows.filter fun row => !blankRow row).map (rowDict py headers)

def rowsRange (i count : ℕ) : Text := decimal i ++ ofString "-" ++ decimal (i + count - 1)

def splitLargeTable (rows : List (AList fun _ : Text => Value α)) (basePath : Text)
    (headers : List Text) (sheetName : Text) (sheetNumber : ℕ) : List (Table α) :=
  (range ((rows.length + maxRowsPerChunk - 1) / maxRowsPerChunk)).map fun c =>
    let i := maxRowsPerChunk * c
    let subset := (rows.drop i).take maxRowsPerChunk
    let rng := rowsRange i subset.length
    ⟨basePath ++ ofString "#rows_" ++ rng, headers, subset.length, headers.length, subset,
      sheetName, sheetNumber, some (basePath, rng)⟩

def headerRow (block : ℕ × ℕ) : List (Cell α) :=
  ((blockRows sheet block)[findHeaderRowIndex py (blockRows sheet block)]?).getD []

def dataRows (block : ℕ × ℕ) : List (List (Cell α)) :=
  (blockRows sheet block).drop (findHeaderRowIndex py (blockRows sheet block) + 1)

def blockToTables (block : ℕ × ℕ) (bIdx : ℕ) (basePath sheetName : Text) (sheetNumber : ℕ) :
    List (Table α) :=
  let headers := rowToHeaders py (headerRow py sheet block)
  let dictRows := rowsToDicts py (dataRows py sheet block) headers
  let path := basePath ++ ofString "#block_" ++ decimal bIdx ++ ofString "_rows_" ++
    decimal block.1 ++ ofString "-" ++ decimal block.2
  if (blockRows sheet block).length < minRows then []
  else if headers.length < minCols then []
  else if dictRows.length < minRows then []
  else if dictRows.length ≤ maxRowsPerChunk then
    [⟨path, headers, dictRows.length, headers.length, dictRows, sheetName, sheetNumber, none⟩]
  else splitLargeTable dictRows path headers sheetName sheetNumber

/-- An entry that holds the cell of every column under the name of the column, one key for each. -/
def Carries (names : List Text) (row : List (Cell α)) (entry : AList fun _ : Text => Value α) :
    Prop :=
  entry.keys.length = sheet.width ∧
    ∀ (i : ℕ) (name : Text) (cell : Cell α), names[i]? = some name → row[i]? = some cell →
      entry.lookup name = some (normalizeCellValue py cell)

/-- The rows of the tables, in order, are the rows of the block below its header that have a
cell. -/
def Keeps (block : ℕ × ℕ) (tables : List (Table α)) : Prop :=
  Forall₂ (Carries py sheet (rowToHeaders py (headerRow py sheet block)))
    ((dataRows py sheet block).filter fun row => !blankRow row) (tables.flatMap Table.table)

def DistinctNames (row : List (Cell α)) : Prop :=
  ∀ i j (hi : i < row.length) (hj : j < row.length), i ≠ j →
    headerName py i row[i] ≠ headerName py j row[j]

variable {py sheet}

theorem flatMap_take_drop {β : Type*} (l : List β) (m n : ℕ) :
    ((range n).flatMap fun c => (l.drop (m * c)).take m) = l.take (m * n) := by
  induction n with
  | zero => simp
  | succ n ih => rw [range_succ, flatMap_append, ih, flatMap_singleton, Nat.mul_succ, take_add]

theorem table_splitLargeTable (rows : List (AList fun _ : Text => Value α)) (path : Text)
    (headers : List Text) (name : Text) (number : ℕ) :
    (splitLargeTable rows path headers name number).flatMap Table.table = rows := by
  rw [splitLargeTable, flatMap_map]
  refine (flatMap_take_drop rows _ _).trans (take_of_length_le ?_)
  simp only [maxRowsPerChunk]
  omega

/-- A block that gives tables gives all of its rows. -/
theorem blockToTables_ne_nil {block : ℕ × ℕ} {bIdx number : ℕ} {base name : Text}
    (h : blockToTables py sheet block bIdx base name number ≠ []) :
    (blockToTables py sheet block bIdx base name number).flatMap Table.table =
        rowsToDicts py (dataRows py sheet block) (rowToHeaders py (headerRow py sheet block)) ∧
      (rowsToDicts py (dataRows py sheet block)
        (rowToHeaders py (headerRow py sheet block))) ≠ [] := by
  simp only [blockToTables] at h ⊢
  split_ifs at h ⊢ with hr hc hd hl
  · exact absurd rfl h
  · exact absurd rfl h
  · exact absurd rfl h
  · refine ⟨flatMap_singleton _ _, ?_⟩
    rintro hnil
    simp [hnil, minRows] at hd
  · refine ⟨table_splitLargeTable _ _ _ _ _, ?_⟩
    rintro hnil
    simp [hnil, minRows] at hd

theorem length_blockRow {block : ℕ × ℕ} {row : List (Cell α)} (h : row ∈ blockRows sheet block) :
    row.length = sheet.width :=
  sheet.length_row row (mem_of_mem_drop (mem_of_mem_take h))

theorem headerRow_mem {block : ℕ × ℕ} (h : dataRows py sheet block ≠ []) :
    headerRow py sheet block ∈ blockRows sheet block := by
  have hlt : findHeaderRowIndex py (blockRows sheet block) < (blockRows sheet block).length := by
    by_contra hle
    exact h (drop_eq_nil_of_le (by omega))
  rw [headerRow, getElem?_eq_getElem hlt]
  exact getElem_mem hlt

/-- Names are distinct exactly when the cells give distinct ones. -/
theorem nodup_rowToHeaders {row : List (Cell α)} :
    (rowToHeaders py row).Nodup ↔ DistinctNames py row := by
  rw [nodup_iff_injective_getElem]
  constructor
  · intro h i j hi hj hne heq
    have h' := @h ⟨i, by simpa [rowToHeaders] using hi⟩ ⟨j, by simpa [rowToHeaders] using hj⟩
    simp only [rowToHeaders, getElem_mapIdx] at h'
    exact hne (Fin.mk.inj (h' heq))
  · rintro h ⟨i, hi⟩ ⟨j, hj⟩ heq
    by_contra hne
    simp only [rowToHeaders, length_mapIdx, getElem_mapIdx] at hi hj heq
    exact h i j hi hj (fun heq => hne (Fin.ext heq)) heq

theorem map_fst_rowEntries (headers : List Text) (row : List (Cell α)) :
    (rowEntries py headers row).map Prod.fst = headers := by
  rw [rowEntries, map_map]
  exact zipIdx_map_fst 0 headers

theorem length_keys_rowDict_iff {headers : List Text} {row : List (Cell α)} :
    (rowDict py headers row).keys.length = headers.length ↔ headers.Nodup := by
  have hl : (rowEntries py headers row).length = headers.length := by
    rw [rowEntries, length_map, length_zipIdx]
  rw [rowDict, ← hl, KeyedTables.length_keys_putAll_iff, map_fst_rowEntries]

theorem lookup_rowDict {headers : List Text} {row : List (Cell α)} (hd : headers.Nodup) {i : ℕ}
    {name : Text} {cell : Cell α} (hn : headers[i]? = some name) (hc : row[i]? = some cell) :
    (rowDict py headers row).lookup name = some (normalizeCellValue py cell) := by
  refine KeyedTables.lookup_putAll_of_mem ?_ (mem_map.mpr ⟨(name, i), ?_, ?_⟩)
  · rwa [map_fst_rowEntries]
  · exact mem_zipIdx_iff_getElem?.mpr hn
  · rw [hc]
    rfl

theorem mem_closed {start : Option ℕ} {count i : ℕ} {block : ℕ × ℕ}
    (h : block ∈ closed start count i) : start = some block.1 ∧ block.2 = i - 1 := by
  rw [closed] at h
  split_ifs at h with hc
  · obtain ⟨s, hs, rfl⟩ := mem_map.mp h
    exact ⟨Option.mem_toList.mp hs, rfl⟩
  · cases h

def OpenAt (all : List (List (Cell α))) (start : Option ℕ) (i : ℕ) : Prop :=
  ∀ s ∈ start, s < i ∧ ∀ k row, s ≤ k → k < i → all[k]? = some row → blankRow row = false

theorem OpenAt.closed {all : List (List (Cell α))} {start : Option ℕ} {count i : ℕ}
    (ho : OpenAt all start i) {block : ℕ × ℕ} (h : block ∈ closed start count i) :
    ∀ k row, block.1 ≤ k → k ≤ block.2 → all[k]? = some row → blankRow row = false := by
  obtain ⟨hs, hend⟩ := mem_closed h
  obtain ⟨hlt, hr⟩ := ho _ hs
  intro k row hf hto
  exact hr k row hf (by omega)

theorem OpenAt.begin {all : List (List (Cell α))} {i : ℕ} {row : List (Cell α)}
    (hrow : all[i]? = some row) (hb : blankRow row = false) : OpenAt all (some i) (i + 1) := by
  rintro s ⟨⟩
  refine ⟨Nat.lt_succ_self i, fun k other hf hto hk => ?_⟩
  obtain rfl : k = i := by omega
  rw [hrow] at hk
  cases hk
  exact hb

theorem OpenAt.next {all : List (List (Cell α))} {start : Option ℕ} {i : ℕ}
    {row : List (Cell α)} (ho : OpenAt all start i) (hrow : all[i]? = some row)
    (hb : blankRow row = false) : OpenAt all start (i + 1) := by
  intro s hs
  obtain ⟨hlt, hr⟩ := ho s hs
  refine ⟨by omega, fun k other hf hto hk => ?_⟩
  rcases Nat.lt_succ_iff_lt_or_eq.mp hto with hto | rfl
  · exact hr k other hf hto hk
  · rw [hrow] at hk
    cases hk
    exact hb

/-- No block holds a blank row. -/
theorem notBlank_segmentLoop {all rows : List (List (Cell α))} {start : Option ℕ} {count i : ℕ}
    {prev : Bool} (hd : all.drop i = rows) (ho : OpenAt all start i) {block : ℕ × ℕ}
    (h : block ∈ segmentLoop py start count prev i rows) :
    ∀ k row, block.1 ≤ k → k ≤ block.2 → all[k]? = some row → blankRow row = false := by
  induction rows generalizing start count prev i with
  | nil => exact ho.closed h
  | cons row rows ih =>
    have hrow : all[i]? = some row := by
      rw [← head?_drop, hd, head?_cons]
    have hn : all.drop (i + 1) = rows := by
      rw [← tail_drop, hd, tail_cons]
    rw [segmentLoop] at h
    cases hb : blankRow row with
    | true =>
      rw [if_pos hb, mem_append] at h
      rcases h with h | h
      · exact ho.closed h
      · exact ih hn (fun _ hs => by cases hs) h
    | false =>
      simp only [hb, Bool.false_eq_true, if_false] at h
      split_ifs at h with hst hf
      · exact ih hn (OpenAt.begin hrow hb) h
      · rcases mem_append.mp h with h | h
        · exact ho.closed h
        · exact ih hn (OpenAt.begin hrow hb) h
      · exact ih hn (ho.next hrow hb) h

theorem notBlank_of_mem_blockRows {block : ℕ × ℕ} (h : block ∈ segmentBlocks py sheet)
    {row : List (Cell α)} (hrow : row ∈ blockRows sheet block) : blankRow row = false := by
  obtain ⟨k, hk⟩ := mem_iff_getElem?.mp hrow
  rw [blockRows, getElem?_take] at hk
  split_ifs at hk with hlt
  rw [getElem?_drop] at hk
  exact notBlank_segmentLoop drop_zero (fun _ hs => by cases hs) h _ row (by omega) (by omega) hk

variable {block : ℕ × ℕ} {bIdx number : ℕ} {base name : Text}

/-- Every row of a block below its header holds a cell, and the tables of the block carry every
cell of each of them exactly when no two cells of the header row give one name. -/
theorem tables_keep_cells_iff (hb : block ∈ segmentBlocks py sheet)
    (h : blockToTables py sheet block bIdx base name number ≠ []) :
    (∀ row ∈ dataRows py sheet block, blankRow row = false) ∧
      (Keeps py sheet block (blockToTables py sheet block bIdx base name number) ↔
        DistinctNames py (headerRow py sheet block)) := by
  obtain ⟨ht, hs⟩ := blockToTables_ne_nil h
  refine ⟨fun row hrow => notBlank_of_mem_blockRows hb (mem_of_mem_drop hrow), ?_⟩
  rw [Keeps, ht, ← nodup_rowToHeaders, rowsToDicts, forall₂_map_right_iff]
  rw [rowsToDicts, Ne, map_eq_nil_iff] at hs
  obtain ⟨row, hrow⟩ := exists_mem_of_ne_nil _ hs
  have hh : headerRow py sheet block ∈ blockRows sheet block :=
    headerRow_mem (ne_nil_of_mem (mem_filter.mp hrow).1)
  have hl : (rowToHeaders py (headerRow py sheet block)).length = sheet.width := by
    rw [rowToHeaders, length_mapIdx, length_blockRow hh]
  constructor
  · intro hall
    have hc := (forall₂_same.mp hall) row hrow
    exact length_keys_rowDict_iff.mp (hc.1.trans hl.symm)
  · intro hn
    refine forall₂_same.mpr fun row _ => ⟨?_, fun i column cell hna hce => ?_⟩
    · rw [length_keys_rowDict_iff.mpr hn, hl]
    · exact lookup_rowDict hn hna hce

theorem length_keys_of_keeps {tables : List (Table α)} (h : Keeps py sheet block tables) :
    ∀ entry ∈ tables.flatMap Table.table, entry.keys.length = sheet.width :=
  ((forall₂_and_left _ _).mp h.flip).1

private def asciiCells : Interpreter Empty where
  lower := map Normalization.asciiLower
  isDigit := Normalization.isAsciiDigit
  isAlpha := fun c => Normalization.isAsciiUpper c || Normalization.isAsciiLower c
  shown := nofun
  isoformat := nofun

private def word (s : String) : Cell Empty := .text (ofString s)

private def stock : Sheet Empty where
  width := 3
  rows := [[word "Item", word "Count", word "Shelf"], [word "Relay", word "4", .nan],
    [word "Fuse", word "9", word "12"]]
  length_row := by simp

theorem tables_keep_cells_stock :
    DistinctNames asciiCells (headerRow asciiCells stock (0, 2)) ∧
      Keeps asciiCells stock (0, 2)
        (blockToTables asciiCells stock (0, 2) 0 (ofString "$") (ofString "Stock") 1) :=
  have h : DistinctNames asciiCells (headerRow asciiCells stock (0, 2)) :=
    nodup_rowToHeaders.mp (by decide +kernel)
  ⟨h, (tables_keep_cells_iff (by decide +kernel)
    (ne_nil_of_length_pos (by decide +kernel))).2.mpr h⟩

private def unnamed : Sheet Empty where
  width := 3
  rows := [[word "Item", .nan, .nan], [word "Relay", word "4", word "24 V"],
    [word "Fuse", word "9", word "10 A"]]
  length_row := by simp

theorem unnamed_columns_lose_cells :
    (0, 2) ∈ segmentBlocks asciiCells unnamed ∧
      blockToTables asciiCells unnamed (0, 2) 0 (ofString "$") (ofString "Stock") 1 ≠ [] ∧
      ¬ Keeps asciiCells unnamed (0, 2)
        (blockToTables asciiCells unnamed (0, 2) 0 (ofString "$") (ofString "Stock") 1) := by
  refine ⟨by decide +kernel, ne_nil_of_length_pos (by decide +kernel), fun h => ?_⟩
  have hk := length_keys_of_keeps h
  revert hk
  decide +kernel

end Aizzak.SheetTables
