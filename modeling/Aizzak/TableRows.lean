import Aizzak.SemanticCuts

/-!
Tables taken apart into rows. A table comes as JSON; each row becomes a sentence of its columns,
and up to twenty rows the parent of the rows holds all of them. Past twenty it holds the names of
the columns only, and nothing at all where no column has a name worth keeping. The rows point at
it in either case.
-/
namespace Aizzak.TableRows

open PyText SemanticCuts Option
open Tokenization (words)

/-- A JSON value; numbers and booleans are kept as `str` writes them. -/
inductive Json where
  | null
  | str (text : Text)
  | scalar (text : Text)
  | list (items : List Json)
  | dict (items : List (Text × Json))

/-- What the interpreter does with texts: `str.lower`, the class `\d`, `str` of a list or a
dictionary, and `json.loads`, which gives nothing where it raises. -/
structure Interpreter where
  lower : Text → Text
  isDecimal : CodePoint → Bool
  repr : Json → Text
  loads : Text → Option Json

def tableParentMaxRows : ℕ := 20

def tableRowHardCap : ℕ := 2000

def noiseHeaders : List Text := ["no.", "no", "row", "#", "index", "id"].map ofString

def emptyCellTexts : List Text := ["none", "null"].map ofString

def placeholderStem : Text := ofString "Column_"

def foldWhitespace (text : Text) : Text := joinSpace (words text)

def join (sep : String) (texts : List Text) : Text := List.intercalate (ofString sep) texts

section Render

variable (py : Interpreter)

def isNoiseHeader (header : Text) : Bool := py.lower (foldWhitespace header) ∈ noiseHeaders

def isPlaceholderHeader (header : Text) : Bool :=
  let folded := foldWhitespace header
  let digits := folded.drop placeholderStem.length
  placeholderStem.isPrefixOf folded && !digits.isEmpty && digits.all py.isDecimal

def Json.pyStr : Json → Text
  | .str text => text
  | .scalar text => text
  | value => py.repr value

def cellText : Json → Text
  | .null => []
  | value =>
    let folded := foldWhitespace (value.pyStr py)
    if py.lower folded ∈ emptyCellTexts then [] else folded

def cellPart (header : Text) (value : Json) : Option Text :=
  if isNoiseHeader py header then none
  else
    let text := cellText py value
    if text.isEmpty then none
    else if isPlaceholderHeader py header then some text
    else some (foldWhitespace header ++ ofString ": " ++ text)

/-- `none` where the row is no dictionary and `row.items()` raises. -/
def rowToSentence : Json → Option Text
  | .dict items => some (join "; " (items.filterMap fun (header, value) =>
      cellPart py header value))
  | _ => none

/-- The name of a column in the header line; a header that is no text raises. -/
def headerName : Json → Option (Option Text)
  | .str header =>
    let folded := foldWhitespace header
    if folded.isEmpty || isNoiseHeader py header || isPlaceholderHeader py header then some none
    else some (some folded)
  | _ => none

def headerLine (headers : List Json) : Option Text :=
  (headers.mapM (headerName py)).map fun names => join "; " (names.filterMap id)

structure ExplodedTable where
  rowSentences : List Text
  parentText : Text
  parentIsComplete : Bool
  truncated : Bool
  overflowText : Text

def tableParent (headers : List Json) (sentences : List Text) : Option (Text × Bool) :=
  if sentences.length = 0 then some ([], false)
  else if sentences.length ≤ tableParentMaxRows then some (join "\n" sentences, true)
  else (headerLine py headers).map (·, false)

def explodeTable (headers rows : List Json) : Option ExplodedTable := do
  let sentences ← rows.mapM (rowToSentence py)
  let parent ← tableParent py headers sentences
  return ⟨sentences.take tableRowHardCap, parent.1, parent.2, tableRowHardCap < rows.length,
    joinSpace (sentences.drop tableRowHardCap)⟩

def decodeTable (text : Text) : Option (List Json × List Json) :=
  match py.loads text with
  | some (.dict items) =>
    match items.find? (·.1 = ofString "headers"), items.find? (·.1 = ofString "rows") with
    | some (_, .list headers), some (_, .list rows) => some (headers, rows)
    | _, _ => none
  | _ => none

def rowSegment (chunk : ParsedChunk) (key : String) (index : ℕ) (sentence : Text) :
    SourceSegment :=
  ⟨sentence, chunk.order, chunk.kind, chunk.metadata.insert parentKey (.other key), index⟩

namespace ExplodedTable

def segments (exploded : ExplodedTable) (chunk : ParsedChunk) (key : String) :
    List SourceSegment :=
  let last := rowSegment chunk key exploded.rowSentences.length exploded.overflowText
  (exploded.rowSentences.zipIdx.map fun (sentence, index) =>
    rowSegment chunk key index sentence) ++
  if exploded.truncated && !exploded.overflowText.isEmpty then
    [{ last with metadata := last.metadata.insert "table_truncated" (.other "True") }]
  else []

def draft (exploded : ExplodedTable) (chunk : ParsedChunk) (key : String) :
    Option ParentChunkDraft :=
  if exploded.parentText.isEmpty then none
  else some ⟨key, chunk.order, exploded.parentText, exploded.parentIsComplete⟩

end ExplodedTable

/-- The segments of a table and its parent. The outer `none` stands for a raised exception, the
inner one for a table that is indexed as plain text. -/
def tableToSegments (chunk : ParsedChunk) (key : String) :
    Option (Option (List SourceSegment × Option ParentChunkDraft)) :=
  match decodeTable py chunk.text with
  | none => some none
  | some (headers, rows) =>
    (explodeTable py headers rows).map fun exploded =>
      if exploded.rowSentences.isEmpty then none
      else some (exploded.segments chunk key, exploded.draft chunk key)

end Render

/-- More rows than a parent holds, and no column with a name to keep. -/
def Headerless (py : Interpreter) (text : Text) : Prop :=
  ∃ headers rows, decodeTable py text = some (headers, rows) ∧
    tableParentMaxRows < rows.length ∧ headerLine py headers = some []

variable {py : Interpreter}

theorem words_joinLines (texts : List Text) : words (join "\n" texts) = texts.flatMap words :=
  SeparatedRuns.runs_intercalate (by decide) nofun texts

theorem infix_flatMap {α β : Type*} {f : α → List β} {a : α} {l : List α} (h : a ∈ l) :
    f a <:+: l.flatMap f := by
  obtain ⟨front, back, rfl⟩ := List.append_of_mem h
  refine ⟨front.flatMap f, back.flatMap f, ?_⟩
  rw [List.flatMap_append, List.flatMap_cons, List.append_assoc]

/-- A comprehension that may raise gives an element for each. -/
theorem forall₂_of_mapM {α β : Type} {f : α → Option β} {l : List α} {results : List β}
    (h : l.mapM f = some results) : List.Forall₂ (fun a b => f a = some b) l results := by
  induction l generalizing results with
  | nil =>
    obtain rfl : [] = results := by simpa using h
    exact .nil
  | cons a l ih =>
    simp only [List.mapM_cons, bind_eq_bind, bind_eq_some_iff, pure_def,
      some.injEq] at h
    obtain ⟨b, hb, rest, hr, rfl⟩ := h
    exact .cons hb (ih hr)

theorem eq_map_of_mapM {α β : Type} {f : α → Option β} {g : α → β} {l : List α}
    {results : List β} (hf : ∀ a b, f a = some b → b = g a) (h : l.mapM f = some results) :
    results = l.map g := by
  have hp := forall₂_of_mapM h
  clear h
  induction hp with
  | nil => rfl
  | cons hh _ ih => rw [List.map_cons, ← hf _ _ hh, ih]

theorem explodeTable_spec {headers rows : List Json} {exploded : ExplodedTable}
    (h : explodeTable py headers rows = some exploded) :
    ∃ sentences : List Text, sentences.length = rows.length ∧
      exploded.rowSentences = sentences.take tableRowHardCap ∧
      exploded.truncated = decide (tableRowHardCap < rows.length) ∧
      (rows.length = 0 ∨
        rows.length ≤ tableParentMaxRows ∧ exploded.parentText = join "\n" sentences ∧
          exploded.parentIsComplete = true ∨
        tableParentMaxRows < rows.length ∧ headerLine py headers = some exploded.parentText ∧
          exploded.parentIsComplete = false) := by
  simp only [explodeTable, bind_eq_bind, bind_eq_some_iff, pure_def,
    some.injEq] at h
  obtain ⟨sentences, hs, ⟨parentText, parentIsComplete⟩, hp, rfl⟩ := h
  have hle : sentences.length = rows.length := (forall₂_of_mapM hs).length_eq.symm
  refine ⟨sentences, hle, rfl, rfl, ?_⟩
  rw [tableParent, hle] at hp
  split_ifs at hp with hn hfew
  · exact .inl hn
  · obtain ⟨rfl, rfl⟩ := Prod.mk.inj (some.inj hp)
    exact .inr (.inl ⟨hfew, rfl, rfl⟩)
  · obtain ⟨line, hl, heq⟩ := map_eq_some_iff.mp hp
    obtain ⟨rfl, rfl⟩ := Prod.mk.inj heq
    exact .inr (.inr ⟨not_le.mp hfew, hl, rfl⟩)

namespace ExplodedTable

variable {exploded : ExplodedTable} {chunk : ParsedChunk} {key : String}

theorem lookup_rowSegment (chunk : ParsedChunk) (key : String) (index : ℕ) (sentence : Text) :
    (rowSegment chunk key index sentence).metadata.lookup parentKey = some (.other key) :=
  AList.lookup_insert _

theorem mem_segments {segment : SourceSegment} (h : segment ∈ exploded.segments chunk key) :
    segment.metadata.lookup parentKey = some (.other key) ∧ segment.kind = chunk.kind ∧
      (segment.text ∈ exploded.rowSentences ∨ exploded.truncated = true) := by
  rw [segments] at h
  rcases List.mem_append.mp h with hrow | hl
  · obtain ⟨⟨sentence, index⟩, hmem, rfl⟩ := List.mem_map.mp hrow
    exact ⟨lookup_rowSegment .., rfl, .inl (List.fst_mem_of_mem_zipIdx hmem)⟩
  · split_ifs at hl with ht
    · rw [List.mem_singleton.mp hl]
      refine ⟨?_, rfl, .inr (Bool.and_eq_true_iff.mp ht).1⟩
      rw [AList.lookup_insert_ne (by decide)]
      exact lookup_rowSegment ..
    · cases hl

end ExplodedTable

theorem eq_nil_of_joinLines {texts : List Text} (h : join "\n" texts = []) :
    ∀ text ∈ texts, text = [] := by
  cases texts with
  | nil => exact nofun
  | cons text rest =>
    cases rest with
    | nil => simpa [join, List.intercalate] using h
    | cons next rest => simp [join, List.intercalate, ofString] at h

/-- What a table becomes: its rows all point at one key, and a parent stands behind it unless the
table has no names for its columns or nothing in its rows; a complete parent holds every row. -/
theorem tableToSegments_spec {chunk : ParsedChunk} {key : String} {segments : List SourceSegment}
    {draft : Option ParentChunkDraft}
    (h : tableToSegments py chunk key = some (some (segments, draft))) :
    (∀ segment ∈ segments, segment.metadata.lookup parentKey = some (.other key) ∧
      segment.kind = chunk.kind) ∧
    (∀ d ∈ draft, d.key = key ∧ (d.isComplete = true →
      ∀ segment ∈ segments, words segment.text <:+: words d.text)) ∧
    (Headerless py chunk.text → draft = none) ∧
    (draft = none → ∀ segment ∈ segments, words segment.text ≠ [] →
      Headerless py chunk.text) := by
  rw [tableToSegments] at h
  cases hde : decodeTable py chunk.text with
  | none =>
    rw [hde] at h
    cases h
  | some table =>
    obtain ⟨headers, rows⟩ := table
    rw [hde] at h
    obtain ⟨exploded, hexploded, h⟩ := map_eq_some_iff.mp h
    obtain ⟨sentences, hln, hr, ht, hp⟩ := explodeTable_spec hexploded
    split_ifs at h with he
    · obtain ⟨rfl, rfl⟩ := Prod.mk.inj (some.inj h)
      have hn : rows.length ≠ 0 := by
        intro hz
        rw [hr, List.eq_nil_of_length_eq_zero (hln.trans hz)] at he
        simp at he
      have hfew : rows.length ≤ tableParentMaxRows →
          ∀ segment ∈ exploded.segments chunk key, segment.text ∈ sentences := by
        intro hle segment hs
        rcases (ExplodedTable.mem_segments hs).2.2 with hrow | hcut
        · rw [hr] at hrow
          exact List.mem_of_mem_take hrow
        · rw [ht, decide_eq_true_iff] at hcut
          exact absurd (hcut.trans_le hle) (by decide)
      rw [ExplodedTable.draft]
      refine ⟨fun segment hs => ⟨(ExplodedTable.mem_segments hs).1,
        (ExplodedTable.mem_segments hs).2.1⟩, ?_, ?_, ?_⟩
      · intro d hd
        split_ifs at hd with hb
        · cases hd
        · cases hd
          refine ⟨rfl, fun hc segment hs => ?_⟩
          rcases hp with hz | ⟨hle, htext, -⟩ | ⟨-, -, hh⟩
          · exact absurd hz hn
          · simp only [htext, words_joinLines]
            exact infix_flatMap (hfew hle segment hs)
          · simp only [hh] at hc
            cases hc
      · rintro ⟨headers', rows', hdc, hm, hli⟩
        obtain ⟨rfl, rfl⟩ := Prod.mk.inj (mem_unique hde hdc)
        rcases hp with hz | ⟨hle, -, -⟩ | ⟨-, hl, -⟩
        · exact absurd hz hn
        · exact absurd hle (not_le.mpr hm)
        · rw [if_pos]
          rw [← mem_unique hli hl]
          rfl
      · intro hno segment hs hw
        have hb : exploded.parentText = [] := by
          by_contra hne
          rw [if_neg (by simpa using hne)] at hno
          cases hno
        rcases hp with hz | ⟨hle, htext, -⟩ | ⟨hm, hli, -⟩
        · exact absurd hz hn
        · rw [hb] at htext
          rw [eq_nil_of_joinLines htext.symm _ (hfew hle segment hs)] at hw
          exact absurd rfl hw
        · exact ⟨headers, rows, hde, hm, hb ▸ hli⟩

end Aizzak.TableRows
