import Aizzak.IndexedParents

/-!
When a table fails its document. Reading a table's JSON is guarded, taking it apart is
not: a row that is no object raises, past the rows a parent holds a header that is no
text raises, and `json.loads` itself can raise what the guard does not name. Every other
text, however odd, becomes segments or falls back to plain text.
-/
namespace Aizzak.TableFailures

open PyText SemanticCuts TableRows

/-- What `json.loads` made of a text. An integer of too many digits is a `ValueError` that is
no `JSONDecodeError`, and nesting past the interpreter's stack is neither. -/
inductive Loaded where
  | value (json : Json)
  | jsonDecodeError
  | valueError
  | recursionError

def Loaded.toOption : Loaded → Option Json
  | .value json => some json
  | _ => none

inductive Raised where
  | attributeError
  | valueError
  | recursionError
deriving DecidableEq, Repr

def rendered {α : Type} : Option α → Except Raised α
  | none => .error .attributeError
  | some result => .ok result

section Raising

variable (py : Interpreter) (loads : Text → Loaded)

def reading : Interpreter := { py with loads := fun text => (loads text).toOption }

/-- `_table_to_segments` with what escapes it; the guard catches a `JSONDecodeError` alone. -/
def tableToSegments (chunk : ParsedChunk) (key : String) :
    Except Raised (Option (List SourceSegment × Option ParentChunkDraft)) :=
  match loads chunk.text with
  | .valueError => .error .valueError
  | .recursionError => .error .recursionError
  | _ => rendered (TableRows.tableToSegments (reading py loads) chunk key)

end Raising

def isDict : Json → Bool
  | .dict _ => true
  | _ => false

def isStr : Json → Bool
  | .str _ => true
  | _ => false

/-- The tables that can be taken apart: rows that are objects and, past the rows a parent holds,
headers that are texts. -/
def Regular (headers rows : List Json) : Prop :=
  (∀ row ∈ rows, isDict row = true) ∧
    (rows.length ≤ tableParentMaxRows ∨ ∀ header ∈ headers, isStr header = true)

def Harmless (loads : Text → Loaded) (text : Text) : Prop :=
  match loads text with
  | .value (.dict items) =>
    match items.find? (·.1 = ofString "headers"), items.find? (·.1 = ofString "rows") with
    | some (_, .list headers), some (_, .list rows) => Regular headers rows
    | _, _ => True
  | .value _ => True
  | .jsonDecodeError => True
  | .valueError => False
  | .recursionError => False

variable {py : Interpreter} {loads : Text → Loaded}

theorem isSome_mapM {α β : Type} {f : α → Option β} (l : List α) :
    (l.mapM f).isSome = l.all fun a => (f a).isSome := by
  induction l with
  | nil => rfl
  | cons a l ih =>
    rw [List.mapM_cons, List.all_cons, ← ih]
    cases f a with
    | none => rfl
    | some b => cases l.mapM f <;> rfl

theorem isSome_rowToSentence (row : Json) : (rowToSentence py row).isSome = isDict row := by
  cases row <;> rfl

theorem isSome_headerName (header : Json) : (headerName py header).isSome = isStr header := by
  cases header with
  | str text =>
    rw [headerName]
    split_ifs <;> rfl
  | _ => rfl

theorem isSome_tableParent (headers : List Json) (sentences : List Text) :
    (tableParent py headers sentences).isSome = true ↔
      sentences.length ≤ tableParentMaxRows ∨ (headers.mapM (headerName py)).isSome = true := by
  rw [tableParent]
  split_ifs with hn hfew
  · simp [hn]
  · simp [hfew]
  · simp [headerLine, hfew]

/-- Taking a table apart raises nothing exactly when it is regular. -/
theorem isSome_explodeTable (headers rows : List Json) :
    (explodeTable py headers rows).isSome = true ↔ Regular headers rows := by
  have hr := isSome_mapM (f := rowToSentence py) rows
  have hh := isSome_mapM (f := headerName py) headers
  simp only [isSome_rowToSentence] at hr
  simp only [isSome_headerName] at hh
  rw [Regular, ← List.all_eq_true, ← List.all_eq_true, ← hr, ← hh]
  cases hs : rows.mapM (rowToSentence py) with
  | none => simp [explodeTable, hs]
  | some sentences =>
    have hl : rows.length = sentences.length := (forall₂_of_mapM hs).length_eq
    rw [hl, ← isSome_tableParent]
    cases hp : tableParent py headers sentences with
    | none => simp [explodeTable, hs, hp]
    | some parent => simp [explodeTable, hs, hp]

theorem isSome_tableToSegments (chunk : ParsedChunk) (key : String) :
    (TableRows.tableToSegments py chunk key).isSome = true ↔
      ∀ headers rows, decodeTable py chunk.text = some (headers, rows) →
        Regular headers rows := by
  rw [TableRows.tableToSegments]
  cases hd : decodeTable py chunk.text with
  | none => simp
  | some table =>
    obtain ⟨headers, rows⟩ := table
    simp only [Option.isSome_map, isSome_explodeTable, Option.some.injEq, Prod.mk.injEq]
    constructor
    · rintro hr _ _ ⟨rfl, rfl⟩
      exact hr
    · intro hall
      exact hall headers rows ⟨rfl, rfl⟩

/-- Where `json.loads` answers or raises what the guard names, a text is harmless exactly when
the table it holds, if any, is regular. -/
theorem harmless_iff_of_caught {text : Text} (hvalue : loads text ≠ .valueError)
    (hd : loads text ≠ .recursionError) :
    Harmless loads text ↔
      ∀ headers rows, decodeTable (reading py loads) text = some (headers, rows) →
        Regular headers rows := by
  have hlo : (reading py loads).loads text = (loads text).toOption := rfl
  rw [Harmless, decodeTable, hlo]
  cases hl : loads text with
  | jsonDecodeError => simp [Loaded.toOption]
  | valueError => exact absurd hl hvalue
  | recursionError => exact absurd hl hd
  | value json =>
    cases json with
    | dict items =>
      simp only [Loaded.toOption]
      generalize items.find? (·.1 = ofString "headers") = found
      generalize items.find? (·.1 = ofString "rows") = kept
      rcases found with - | ⟨-, json⟩
      · simp
      cases json with
      | list headers =>
        rcases kept with - | ⟨-, json⟩
        · simp
        cases json with
        | list rows =>
          simp only [Option.some.injEq, Prod.mk.injEq]
          constructor
          · rintro hr _ _ ⟨rfl, rfl⟩
            exact hr
          · intro hall
            exact hall _ _ ⟨rfl, rfl⟩
        | _ => simp
      | _ => simp
    | _ => simp [Loaded.toOption]

theorem rendered_returns_iff {α : Type} (x : Option α) :
    (∃ result, rendered x = .ok result) ↔ x.isSome = true := by
  cases x <;> simp [rendered]

/-- A table chunk raises nothing exactly when its text is harmless, whatever the interpreter
does with texts. -/
theorem tableToSegments_returns_iff (py : Interpreter) (loads : Text → Loaded)
    (chunk : ParsedChunk) (key : String) :
    (∃ result, tableToSegments py loads chunk key = .ok result) ↔ Harmless loads chunk.text := by
  have hc := @harmless_iff_of_caught py loads chunk.text
  have hs := @isSome_tableToSegments (reading py loads) chunk key
  rw [tableToSegments]
  cases hl : loads chunk.text with
  | valueError => simp [Harmless, hl]
  | recursionError => simp [Harmless, hl]
  | jsonDecodeError =>
    rw [hc (by simp [hl]) (by simp [hl]), ← hs]
    exact rendered_returns_iff _
  | value json =>
    rw [hc (by simp [hl]) (by simp [hl]), ← hs]
    exact rendered_returns_iff _

def numberRow : Json :=
  .dict [(ofString "headers", .list []), (ofString "rows", .list [.scalar (ofString "1")])]

def numberTable : ParsedChunk where
  text := ofString "\x7b\"headers\": [], \"rows\": [1]\x7d"
  kind := .table
  order := 0
  metadata := ∅

theorem number_row_raises :
    tableToSegments (IndexedParents.asciiPy none) (fun _ => .value numberRow) numberTable
        "table-0" = .error .attributeError ∧
      ¬∃ result, tableToSegments (IndexedParents.asciiPy none) (fun _ => .value numberRow)
        numberTable "table-0" = .ok result := by
  have hr : tableToSegments (IndexedParents.asciiPy none) (fun _ => .value numberRow)
      numberTable "table-0" = .error .attributeError := by
    rfl
  refine ⟨hr, ?_⟩
  rw [hr]
  simp

end Aizzak.TableFailures
