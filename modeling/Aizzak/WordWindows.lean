import Aizzak.SemanticCuts

/-!
Segments cut into overlapping windows of words. The windows of a segment advance by less than
their width; a last window of few characters is joined to the one before it, and the words the two
share then stand twice in the joined one. The windows of all segments are put into reading order,
and those that are short or repeat an earlier text are dropped.
-/
namespace Aizzak.WordWindows

open PyText SemanticCuts List
open Tokenization (words)

structure ChunkToIndex where
  seq : ℕ
  text : Text
  tokenCount : ℕ
  kind : ParsedChunkKind
  metadata : Metadata

def minNodeChars : ℕ := 15

def minChars : ℕ := 24

def windowsFrom (span step : ℕ) : ℕ → List Text → List (List Text)
  | 0, _ => []
  | _ + 1, [] => []
  | fuel + 1, rest =>
    if rest.length ≤ span then [rest]
    else rest.take span :: windowsFrom span step fuel (rest.drop step)

def wordWindows (maxTokens overlapTokens : ℕ) (words : List Text) : List (List Text) :=
  windowsFrom (max maxTokens 1) (max (maxTokens - overlapTokens) 1) words.length words

def mergeShortTrailingWindow (windows : List (List Text)) : List (List Text) :=
  match windows.reverse with
  | last :: previous :: front =>
    if minChars ≤ (joinSpace last).length then windows
    else front.reverse ++ [previous ++ last]
  | _ => windows

def orderSignalKeys : List String :=
  ["page_number", "position_in_doc", "paragraph_number", "chunk_index"]

def signal (segment : SourceSegment) (key : String) : List ℤ :=
  match segment.metadata.lookup key with
  | some (.int value) => [0, value]
  | _ => [1, 0]

def orderKey (segment : SourceSegment) (splitPart : ℕ) : List ℤ :=
  orderSignalKeys.flatMap (signal segment) ++ [segment.order, segment.subOrder, splitPart]

section Segments

variable (maxTokens overlapTokens : ℕ)

def segmentWindows (segment : SourceSegment) : List (List Text) :=
  mergeShortTrailingWindow (wordWindows maxTokens overlapTokens (words segment.text))

def candidates (segments : List SourceSegment) : List (SourceSegment × List Text) :=
  let windows := segments.flatMap fun segment =>
    (segmentWindows maxTokens overlapTokens segment).zipIdx.map fun (window, splitPart) =>
      (orderKey segment splitPart, segment, window)
  (windows.insertionSort fun a b => a.1 ≤ b.1).map Prod.snd

variable {D : Type} [DecidableEq D] (digest : Text → D)

def keptNodes : List (SourceSegment × List Text) → List D →
    Except UnicodeEncodeError (List (SourceSegment × List Text))
  | [], _ => .ok []
  | (segment, window) :: rest, seen =>
    let stripped := strip (joinSpace window)
    if stripped.length < minNodeChars then keptNodes rest seen
    else do
      let bytes ← encode stripped
      if digest bytes ∈ seen then keptNodes rest seen
      else
        let kept ← keptNodes rest (digest bytes :: seen)
        return (segment, window) :: kept

def nodes (segments : List SourceSegment) :
    Except UnicodeEncodeError (List (SourceSegment × List Text)) :=
  keptNodes digest (candidates maxTokens overlapTokens segments) []

def chunkSegments (segments : List SourceSegment) :
    Except UnicodeEncodeError (List ChunkToIndex) :=
  (nodes maxTokens overlapTokens digest segments).map fun kept =>
    kept.zipIdx.map fun ((segment, window), seq) =>
      ⟨seq, joinSpace window, window.length, segment.kind, segment.metadata⟩

end Segments

variable {maxTokens overlapTokens : ℕ} {window : List Text}

theorem infix_of_mem_windowsFrom {span step fuel : ℕ} {rest : List Text}
    (h : window ∈ windowsFrom span step fuel rest) : window <:+: rest := by
  induction fuel generalizing rest with
  | zero => cases h
  | succ fuel ih =>
    cases rest with
    | nil => cases h
    | cons word rest =>
      simp only [windowsFrom] at h
      split_ifs at h with hle
      · obtain rfl := mem_singleton.mp h
        exact infix_refl _
      · rcases mem_cons.mp h with rfl | hl
        · exact ( take_prefix _ _).isInfix
        · exact (ih hl).trans (drop_suffix _ _).isInfix

/-- The last two windows of a segment in one, the last being short. -/
def Merged (windows : List (List Text)) (window : List Text) : Prop :=
  ∃ front previous last, windows = front ++ [previous, last] ∧
    (joinSpace last).length < minChars ∧ window = previous ++ last

theorem mem_mergeShortTrailingWindow {windows : List (List Text)}
    (h : window ∈ mergeShortTrailingWindow windows) : window ∈ windows ∨ Merged windows window := by
  rw [mergeShortTrailingWindow] at h
  split at h
  · rename_i last previous front hr
    have hw : windows = front.reverse ++ [previous, last] := by
      rw [← reverse_reverse windows, hr]
      simp
    split_ifs at h with hl
    · exact .inl h
    · rcases mem_append.mp h with hf | hm
      · rw [hw]
        exact .inl (mem_append_left _ hf)
      · exact .inr ⟨_, _, _, hw, not_le.mp hl, mem_singleton.mp hm⟩
  · exact .inl h

variable {segment : SourceSegment}

theorem infix_or_merged (h : window ∈ segmentWindows maxTokens overlapTokens segment) :
    window <:+: words segment.text ∨
      Merged (wordWindows maxTokens overlapTokens (words segment.text)) window := by
  rcases mem_mergeShortTrailingWindow h with hp | hm
  · exact .inl (infix_of_mem_windowsFrom hp)
  · exact .inr hm

theorem mem_words_of_mem_window (h : window ∈ segmentWindows maxTokens overlapTokens segment) :
    ∀ word ∈ window, word ∈ words segment.text := by
  intro word hwo
  rcases infix_or_merged h with hp | ⟨front, previous, last, hw, -, rfl⟩
  · exact hp.subset hwo
  · have hmem : ∀ part ∈ [previous, last], part <:+: words segment.text := by
      intro part hpart
      apply infix_of_mem_windowsFrom
      rw [← wordWindows, hw]
      exact mem_append_right _ hpart
    rcases mem_append.mp hwo with hwo | hwo
    · exact (hmem previous mem_cons_self).subset hwo
    · exact (hmem last (mem_cons_of_mem _ mem_cons_self)).subset hwo

theorem mem_candidates {segments : List SourceSegment}
    (h : (segment, window) ∈ candidates maxTokens overlapTokens segments) :
    segment ∈ segments ∧ window ∈ segmentWindows maxTokens overlapTokens segment := by
  obtain ⟨⟨key, pair⟩, hmem, rfl⟩ := mem_map.mp h
  rw [mem_insertionSort] at hmem
  obtain ⟨other, ho, hmem⟩ := mem_flatMap.mp hmem
  obtain ⟨⟨taken, part⟩, ht, heq⟩ := mem_map.mp hmem
  obtain ⟨-, hp⟩ := Prod.mk.inj heq
  obtain ⟨rfl, rfl⟩ := Prod.mk.inj hp
  exact ⟨ho, fst_mem_of_mem_zipIdx ht⟩

section Kept

variable {D : Type} [DecidableEq D] {digest : Text → D}

/-- Deduplication drops windows and reorders none. -/
theorem sublist_of_keptNodes {windows kept : List (SourceSegment × List Text)} {seen : List D}
    (h : keptNodes digest windows seen = .ok kept) : kept.Sublist windows := by
  induction windows generalizing seen kept with
  | nil =>
    cases h
    exact List.Sublist.slnil
  | cons pair rest ih =>
    obtain ⟨segment, window⟩ := pair
    rw [keptNodes] at h
    split_ifs at h with hs
    · exact (ih h).cons _
    · cases hb : encode (strip (joinSpace window)) with
      | error e => simp [hb, bind, Except.bind] at h
      | ok bytes =>
        simp only [hb, bind, Except.bind] at h
        split_ifs at h with hse
        · exact (ih h).cons _
        · cases hr : keptNodes digest rest (digest bytes :: seen) with
          | error e => simp [hr] at h
          | ok more =>
            simp only [hr, pure, Except.pure] at h
            cases h
            exact (ih hr).cons_cons _

theorem mem_nodes {segments : List SourceSegment} {kept : List (SourceSegment × List Text)}
    {segment : SourceSegment} (h : nodes maxTokens overlapTokens digest segments = .ok kept)
    (hmem : (segment, window) ∈ kept) :
    segment ∈ segments ∧ window ∈ segmentWindows maxTokens overlapTokens segment :=
  mem_candidates ((sublist_of_keptNodes h).subset hmem)

end Kept

theorem words_joinSpace_of_subset {text : Text} {window : List Text}
    (h : ∀ word ∈ window, word ∈ words text) : words (joinSpace window) = window := by
  have hw : ∀ word ∈ window, words word = [word] :=
    fun word hw => (SeparatedRuns.isRun_of_mem_runs (h word hw)).runs
  rw [words_joinSpace, flatMap_def, map_congr_left hw]
  exact flatMap_singleton' window

theorem lt_length_of_mem_windowsFrom {span step fuel : ℕ} {rest : List Text} (hs : step ≤ span)
    (hst : 0 < step) (h : window ∈ windowsFrom span step fuel rest)
    (hlo : span - step < rest.length) : span - step < window.length := by
  induction fuel generalizing rest with
  | zero => cases h
  | succ fuel ih =>
    cases rest with
    | nil => cases h
    | cons word rest =>
      rw [windowsFrom] at h
      · split_ifs at h with hle
        · rw [mem_singleton.mp h]
          exact hlo
        · rcases mem_cons.mp h with rfl | hl
          · rw [length_take]
            exact Nat.lt_min.mpr ⟨by omega, by omega⟩
          · apply ih hl
            rw [length_drop]
            omega
      · exact fun hnil => nomatch hnil

theorem length_joinSpace {texts : List Text} (h : ∀ text ∈ texts, text ≠ []) :
    2 * texts.length ≤ (joinSpace texts).length + 1 := by
  rw [joinSpace]
  induction texts with
  | nil => simp
  | cons text texts ih =>
    rw [forall_mem_cons] at h
    have hpos := length_pos_iff.mpr h.1
    cases texts with
    | nil =>
      simp only [List.intercalate, List.intersperse, flatten_cons, flatten_nil,
        append_nil, length_cons, length_nil]
      omega
    | cons next rest =>
      have hj : List.intercalate [(⟨0x20, by decide⟩ : CodePoint)] (text :: next :: rest) =
          text ++ ⟨0x20, by decide⟩ :: List.intercalate [⟨0x20, by decide⟩] (next :: rest) := by
        simp [List.intercalate]
      have hr := ih h.2
      rw [hj]
      simp only [length_append, length_cons] at hr ⊢
      omega

/-- A wide overlap leaves no window short enough to merge. -/
theorem not_merged_of_wide_overlap {texts : List Text} (hwo : ∀ text ∈ texts, text ≠ [])
    (hwi : 12 ≤ overlapTokens) (hl : overlapTokens < maxTokens) :
    ¬Merged (wordWindows maxTokens overlapTokens texts) window := by
  rintro ⟨front, previous, last, hw, hs, -⟩
  have hmem : last ∈ wordWindows maxTokens overlapTokens texts := by
    rw [hw]
    simp
  have hla : ∀ text ∈ last, text ≠ [] :=
    fun text htext => hwo text ((infix_of_mem_windowsFrom hmem).subset htext)
  have hle : overlapTokens < last.length := by
    rw [wordWindows, Nat.max_eq_left (by omega), Nat.max_eq_left (by omega)] at hw
    cases ht : texts with
    | nil =>
      rw [ht] at hw
      simp [windowsFrom] at hw
    | cons text rest =>
      rw [ht, length_cons, windowsFrom] at hw
      · split_ifs at hw with hf
        · have hco := congrArg List.length hw
          simp at hco
        · have hta : last ∈ windowsFrom maxTokens (maxTokens - overlapTokens) rest.length
              ((text :: rest).drop (maxTokens - overlapTokens)) := by
            cases front with
            | nil =>
              rw [nil_append] at hw
              rw [(List.cons.inj hw).2]
              exact mem_cons_self
            | cons head front =>
              rw [cons_append] at hw
              rw [(List.cons.inj hw).2]
              simp
          have hlo := lt_length_of_mem_windowsFrom (by omega) (by omega) hta
            (by rw [length_drop]; omega)
          omega
      · exact fun hnil => nomatch hnil
  have hc := length_joinSpace hla
  rw [minChars] at hs
  omega

end Aizzak.WordWindows
