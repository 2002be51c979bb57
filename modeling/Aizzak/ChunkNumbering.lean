import Aizzak.KeyedLists
import Aizzak.WindowTiling

/-!
The numbers of the chunks of a document. The windows of all segments are sorted by the
keys of their segments and their places in them; with different keys for the segments no
two windows have one key, so the chunks and their numbers are the same whatever order the
segments came in.
-/
namespace Aizzak.ChunkNumbering

open KeyedLists PyText SemanticCuts List
open Tokenization (words)
open WindowTiling (cutWords)
open WordWindows (ChunkToIndex keptNodes minNodeChars orderKey orderSignalKeys signal)

def segmentKey (segment : SourceSegment) : List ℤ :=
  orderSignalKeys.flatMap (signal segment) ++ [segment.order, (segment.subOrder : ℤ)]

section Segments

variable (maxTokens overlapTokens minChars : ℤ)

def segmentWindows (segment : SourceSegment) : List (List Text) :=
  cutWords maxTokens overlapTokens minChars (words segment.text)

def keyedWindows (segments : List SourceSegment) : List (List ℤ × SourceSegment × List Text) :=
  segments.flatMap fun segment =>
    (segmentWindows maxTokens overlapTokens minChars segment).zipIdx.map fun (window, splitPart) =>
      (orderKey segment splitPart, segment, window)

def candidates (segments : List SourceSegment) : List (SourceSegment × List Text) :=
  (sortByKey Prod.fst (keyedWindows maxTokens overlapTokens minChars segments)).map Prod.snd

variable {D : Type} [DecidableEq D] (digest : Text → D)

def chunkSegments (segments : List SourceSegment) :
    Except UnicodeEncodeError (List ChunkToIndex) :=
  (keptNodes digest (candidates maxTokens overlapTokens minChars segments) []).map fun kept =>
    kept.zipIdx.map fun ((segment, window), seq) =>
      ⟨seq, joinSpace window, window.length, segment.kind, segment.metadata⟩

def nodeTexts (segments : List SourceSegment) : List Text :=
  (segments.flatMap fun segment =>
    (segmentWindows maxTokens overlapTokens minChars segment).map joinSpace).filter
      fun text => minNodeChars ≤ text.length

/-- Every order of the segments gives these chunks, numbered from zero, whose texts are the
texts of the windows, each once. -/
structure Numbers (segments : List SourceSegment) (chunks : List ChunkToIndex) : Prop where
  any_order : ∀ other, segments.Perm other →
    chunkSegments maxTokens overlapTokens minChars digest other = .ok chunks
  seq : chunks.map ChunkToIndex.seq = List.range chunks.length
  distinct : (chunks.map ChunkToIndex.text).Nodup
  long : ∀ chunk ∈ chunks, minNodeChars ≤ chunk.text.length
  complete : ∀ segment ∈ segments,
    ∀ window ∈ segmentWindows maxTokens overlapTokens minChars segment,
      minNodeChars ≤ (joinSpace window).length → ∃ chunk ∈ chunks, chunk.text = joinSpace window

end Segments

variable {maxTokens overlapTokens minChars : ℤ} {segments other : List SourceSegment}
  {segment : SourceSegment} {window : List Text}

theorem orderKey_eq (segment : SourceSegment) (splitPart : ℕ) :
    orderKey segment splitPart = segmentKey segment ++ [(splitPart : ℤ)] := by
  rw [orderKey, segmentKey, append_assoc, cons_append, cons_append, nil_append]

theorem orderKey_inj {other : SourceSegment} {splitPart otherPart : ℕ}
    (h : orderKey segment splitPart = orderKey other otherPart) :
    segmentKey segment = segmentKey other ∧ splitPart = otherPart := by
  rw [orderKey_eq, orderKey_eq] at h
  obtain ⟨hs, hpart⟩ := append_inj' h rfl
  exact ⟨hs, Int.ofNat.inj (singleton_inj.mp hpart)⟩

theorem nodup_keys_keyedWindows (hk : (segments.map segmentKey).Nodup) :
    ((keyedWindows maxTokens overlapTokens minChars segments).map Prod.fst).Nodup := by
  have hp := pairwise_map.mp hk
  rw [keyedWindows, map_flatMap, nodup_flatMap]
  constructor
  · intro segment _
    rw [map_map]
    change (List.map (orderKey segment ∘ Prod.snd)
      (segmentWindows maxTokens overlapTokens minChars segment).zipIdx).Nodup
    rw [← map_map]
    apply List.Nodup.map
    · intro part otherPart heq
      exact (orderKey_inj heq).2
    · rw [zipIdx_map_snd]
      exact nodup_range'
  · refine hp.imp fun {a b} hne => disjoint_left.mpr fun key ha hb => hne ?_
    simp only [map_map] at ha hb
    obtain ⟨⟨windowA, partA⟩, -, hkeyA⟩ := mem_map.mp ha
    obtain ⟨⟨windowB, partB⟩, -, hkeyB⟩ := mem_map.mp hb
    exact (orderKey_inj (hkeyA.trans hkeyB.symm)).1

theorem candidates_eq_of_perm (hp : segments.Perm other)
    (hk : (segments.map segmentKey).Nodup) :
    candidates maxTokens overlapTokens minChars segments =
      candidates maxTokens overlapTokens minChars other := by
  have hw : (keyedWindows maxTokens overlapTokens minChars segments).Perm
      (keyedWindows maxTokens overlapTokens minChars other) :=
    hp.flatMap_right _
  rw [candidates, candidates,
    sortByKey_eq_of_perm Prod.fst hw (nodup_keys_keyedWindows hk)]

/-- The candidates are the windows of the segments and nothing else. -/
theorem mem_candidates_iff :
    (segment, window) ∈ candidates maxTokens overlapTokens minChars segments ↔
      segment ∈ segments ∧ window ∈ segmentWindows maxTokens overlapTokens minChars segment := by
  rw [candidates, mem_map]
  constructor
  · rintro ⟨⟨key, pair⟩, hmem, rfl⟩
    obtain ⟨owner, ho, hmem⟩ := mem_flatMap.mp ((mem_sortByKey _).mp hmem)
    obtain ⟨⟨taken, part⟩, ht, heq⟩ := mem_map.mp hmem
    obtain ⟨-, hp⟩ := Prod.mk.inj heq
    obtain ⟨rfl, rfl⟩ := Prod.mk.inj hp
    exact ⟨ho, fst_mem_of_mem_zipIdx ht⟩
  · intro h
    obtain ⟨part, hpart⟩ := mem_iff_getElem?.mp h.2
    refine ⟨(orderKey segment part, segment, window), ?_, rfl⟩
    apply (mem_sortByKey _).mpr
    apply mem_flatMap.mpr
    refine ⟨segment, h.1, mem_map.mpr ⟨(window, part), ?_, rfl⟩⟩
    exact mem_zipIdx_iff_getElem?.mpr hpart

theorem strip_eq_self {text : Text} (hh : ∀ c ∈ text.head?, isSpace c = false)
    (hla : ∀ c ∈ text.getLast?, isSpace c = false) : strip text = text := by
  have hd : ∀ l : Text, (∀ c ∈ l.head?, isSpace c = false) → l.dropWhile isSpace = l := by
    intro l hl
    cases l with
    | nil => rfl
    | cons c rest =>
      have hc := hl c rfl
      exact dropWhile_cons_of_neg (by simp [hc])
  rw [strip, hd text hh, hd, reverse_reverse]
  rw [List.head?_reverse]
  exact hla

theorem strip_joinSpace {text : Text} (h : ∀ word ∈ window, word ∈ words text) :
    strip (joinSpace window) = joinSpace window := by
  have hw : ∀ word ∈ window, word ≠ [] ∧ ∀ c ∈ word, isSpace c = false := by
    intro word hwo
    have hrun := SeparatedRuns.isRun_of_mem_runs (h word hwo)
    exact ⟨hrun.nonempty, hrun.no_sep⟩
  clear h
  apply strip_eq_self
  · intro c hc
    cases window with
    | nil => cases hc
    | cons word rest =>
      obtain ⟨hne, hno⟩ := hw word mem_cons_self
      obtain ⟨d, tail, rfl⟩ := exists_cons_of_ne_nil hne
      have hcd : d = c := by
        cases rest with
        | nil => simpa [joinSpace] using hc
        | cons next rest => simpa [joinSpace, intercalate_cons_cons] using hc
      subst hcd
      exact hno d mem_cons_self
  · induction window with
    | nil =>
      intro c hc
      cases hc
    | cons word rest ih =>
      obtain ⟨hne, hno⟩ := hw word mem_cons_self
      intro c hc
      cases rest with
      | nil =>
        rw [joinSpace, intercalate_singleton] at hc
        exact hno c (mem_of_getLast? hc)
      | cons next rest =>
        have hr := fun word hwo => hw word (mem_cons_of_mem _ hwo)
        have hl := WordWindows.length_joinSpace fun word hwo => (hr word hwo).1
        have hj : joinSpace (next :: rest) ≠ [] := by
          intro hnil
          rw [hnil] at hl
          simp only [length_cons, length_nil] at hl
          omega
        apply ih hr
        rw [joinSpace, intercalate_cons_cons, ← joinSpace,
          List.getLast?_append_of_ne_nil _ hj] at hc
        exact hc

section Kept

variable {D : Type} [DecidableEq D] {digest : Text → D}

def nodeText (pair : SourceSegment × List Text) : Text := strip (joinSpace pair.2)

def longWindows (windows : List (SourceSegment × List Text)) : List (SourceSegment × List Text) :=
  windows.filter fun pair => minNodeChars ≤ (nodeText pair).length

/-- Only a text without an encoding stops the pass, and the first of equal digests is kept. -/
theorem keptNodes_eq_ok_iff {windows kept : List (SourceSegment × List Text)} {seen : List D} :
    keptNodes digest windows seen = .ok kept ↔
      (∀ pair ∈ longWindows windows, Encodable (nodeText pair)) ∧
        kept = keepFirst (fun pair => digest (nodeText pair)) (longWindows windows) seen := by
  induction windows generalizing seen kept with
  | nil =>
    rw [keptNodes, Except.ok.injEq]
    constructor
    · rintro rfl
      exact ⟨forall_mem_nil _, rfl⟩
    · exact fun h => h.2.symm
  | cons pair rest ih =>
    obtain ⟨segment, window⟩ := pair
    rw [keptNodes]
    by_cases hl : minNodeChars ≤ (strip (joinSpace window)).length
    · have hlongWindows : longWindows ((segment, window) :: rest) =
          (segment, window) :: longWindows rest := by
        exact filter_cons_of_pos (decide_eq_true hl)
      rw [if_neg (not_lt.mpr hl), hlongWindows, forall_mem_cons, keepFirst]
      by_cases henc : Encodable (strip (joinSpace window))
      · have hb : encode (strip (joinSpace window)) = .ok (strip (joinSpace window)) :=
          if_pos henc
        rw [hb]
        simp only [bind, Except.bind]
        by_cases hs : digest (strip (joinSpace window)) ∈ seen
        · rw [if_pos hs, ih, nodeText, if_pos hs]
          exact ⟨fun h => ⟨⟨henc, h.1⟩, h.2⟩, fun h => ⟨h.1.2, h.2⟩⟩
        · rw [if_neg hs, nodeText, if_neg hs]
          cases hr : keptNodes digest rest (digest (strip (joinSpace window)) :: seen) with
          | error e =>
            constructor
            · exact fun h => by cases h
            · intro h
              have hok := (@ih _ (digest (strip (joinSpace window)) :: seen)).mpr ⟨h.1.2, rfl⟩
              rw [hr] at hok
              cases hok
          | ok more =>
            obtain ⟨hall, hm⟩ := ih.mp hr
            rw [← hm]
            constructor
            · intro h
              exact ⟨⟨henc, hall⟩, (Except.ok.inj h).symm⟩
            · intro h
              rw [h.2]
              rfl
      · have hf : encode (strip (joinSpace window)) = .error ⟨strip (joinSpace window)⟩ :=
          if_neg henc
        rw [hf]
        simp only [bind, Except.bind]
        constructor
        · exact fun h => by cases h
        · exact fun h => absurd h.1.1 henc
    · have hlongWindows : longWindows ((segment, window) :: rest) = longWindows rest := by
        exact filter_cons_of_neg (mt of_decide_eq_true hl)
      rw [if_pos (not_le.mp hl), hlongWindows, ih]

theorem mem_nodeTexts_iff {text : Text} :
    text ∈ nodeTexts maxTokens overlapTokens minChars segments ↔
      (∃ segment ∈ segments, ∃ window ∈ segmentWindows maxTokens overlapTokens minChars segment,
        joinSpace window = text) ∧ minNodeChars ≤ text.length := by
  rw [nodeTexts, mem_filter, mem_flatMap, decide_eq_true_iff]
  simp only [mem_map]

theorem nodeText_eq (hw : window ∈ segmentWindows maxTokens overlapTokens minChars segment) :
    nodeText (segment, window) = joinSpace window :=
  strip_joinSpace (WindowTiling.mem_words_of_mem_cutWords hw)

theorem mem_longWindows_iff :
    (segment, window) ∈ longWindows (candidates maxTokens overlapTokens minChars segments) ↔
      segment ∈ segments ∧ window ∈ segmentWindows maxTokens overlapTokens minChars segment ∧
        minNodeChars ≤ (joinSpace window).length := by
  rw [longWindows, mem_filter, mem_candidates_iff, decide_eq_true_iff, and_assoc]
  refine and_congr_right fun _ => and_congr_right fun hw => ?_
  rw [nodeText_eq hw]

theorem encodable_longWindows_iff :
    (∀ pair ∈ longWindows (candidates maxTokens overlapTokens minChars segments),
        Encodable (nodeText pair)) ↔
      ∀ text ∈ nodeTexts maxTokens overlapTokens minChars segments, Encodable text := by
  constructor
  · intro h text htext
    obtain ⟨⟨segment, hs, window, hw, rfl⟩, hl⟩ := mem_nodeTexts_iff.mp htext
    rw [← nodeText_eq hw]
    exact h _ (mem_longWindows_iff.mpr ⟨hs, hw, hl⟩)
  · rintro h ⟨segment, window⟩ hp
    obtain ⟨hs, hw, hl⟩ := mem_longWindows_iff.mp hp
    rw [nodeText_eq hw]
    exact h _ (mem_nodeTexts_iff.mpr ⟨⟨segment, hs, window, hw, rfl⟩, hl⟩)

theorem chunkSegments_eq_of_perm (hk : (segments.map segmentKey).Nodup)
    (hp : segments.Perm other) :
    chunkSegments maxTokens overlapTokens minChars digest segments =
      chunkSegments maxTokens overlapTokens minChars digest other := by
  rw [chunkSegments, chunkSegments, candidates_eq_of_perm hp hk]

def chunksOf (kept : List (SourceSegment × List Text)) : List ChunkToIndex :=
  kept.zipIdx.map fun ((segment, window), seq) =>
    ⟨seq, joinSpace window, window.length, segment.kind, segment.metadata⟩

theorem map_text_chunksOf (kept : List (SourceSegment × List Text)) :
    (chunksOf kept).map ChunkToIndex.text = kept.map fun pair => joinSpace pair.2 := by
  rw [chunksOf, map_map]
  change kept.zipIdx.map ((fun pair : SourceSegment × List Text => joinSpace pair.2) ∘ Prod.fst) = _
  rw [← map_map, zipIdx_map_fst]

theorem map_seq_chunksOf (kept : List (SourceSegment × List Text)) :
    (chunksOf kept).map ChunkToIndex.seq = List.range (chunksOf kept).length := by
  rw [chunksOf, map_map, length_map, length_zipIdx, range_eq_range']
  exact zipIdx_map_snd 0 kept

/-- The numbered chunks do not depend on the order of the segments. -/
theorem numbers_chunksOf (hk : (segments.map segmentKey).Nodup)
    (hd : ∀ text ∈ nodeTexts maxTokens overlapTokens minChars segments,
      ∀ other ∈ nodeTexts maxTokens overlapTokens minChars segments,
        digest text = digest other → text = other)
    {kept : List (SourceSegment × List Text)}
    (hke : keptNodes digest (candidates maxTokens overlapTokens minChars segments) [] =
      .ok kept) :
    Numbers maxTokens overlapTokens minChars digest segments (chunksOf kept) := by
  obtain ⟨-, hf⟩ := keptNodes_eq_ok_iff.mp hke
  have hmem : ∀ pair ∈ kept,
      pair ∈ longWindows (candidates maxTokens overlapTokens minChars segments) := by
    intro pair hp
    rw [hf] at hp
    exact (sublist_keepFirst _ _ _).subset hp
  have htext : kept.map nodeText = (chunksOf kept).map ChunkToIndex.text := by
    rw [map_text_chunksOf]
    apply map_congr_left
    intro pair hp
    exact nodeText_eq (mem_longWindows_iff.mp (hmem pair hp)).2.1
  refine ⟨?_, map_seq_chunksOf kept, ?_, ?_, ?_⟩
  · intro other hpe
    rw [← chunkSegments_eq_of_perm hk hpe, chunkSegments, hke]
    rfl
  · have hn := nodup_keys_keepFirst (fun pair => digest (nodeText pair))
      (longWindows (candidates maxTokens overlapTokens minChars segments)) []
    rw [← hf] at hn
    rw [← htext]
    apply List.Nodup.of_map digest
    rw [map_map]
    exact hn
  · intro chunk hc
    have hchunkText := mem_map_of_mem (f := ChunkToIndex.text) hc
    rw [map_text_chunksOf] at hchunkText
    obtain ⟨pair, hp, heq⟩ := mem_map.mp hchunkText
    rw [← heq]
    exact (mem_longWindows_iff.mp (hmem pair hp)).2.2
  · intro segment hs window hw hl
    have hin := mem_longWindows_iff.mpr ⟨hs, hw, hl⟩
    rcases exists_mem_keepFirst (fun pair => digest (nodeText pair)) hin with hse | hfo
    · exact absurd hse not_mem_nil
    · obtain ⟨pair, hp, hsa⟩ := hfo
      rw [← hf] at hp
      obtain ⟨ho, hcut, hsi⟩ := mem_longWindows_iff.mp (hmem pair hp)
      rw [nodeText_eq hcut, nodeText_eq hw] at hsa
      have ht := hd _ (mem_nodeTexts_iff.mpr ⟨⟨_, ho, _, hcut, rfl⟩, hsi⟩) _
        (mem_nodeTexts_iff.mpr ⟨⟨_, hs, _, hw, rfl⟩, hl⟩) hsa
      have hc : joinSpace pair.2 ∈ (chunksOf kept).map ChunkToIndex.text := by
        rw [map_text_chunksOf]
        exact mem_map_of_mem hp
      obtain ⟨chunk, hc, heq⟩ := mem_map.mp hc
      exact ⟨chunk, hc, heq.trans ht⟩

/-- The numbering does not depend on the order of the segments exactly when every text to be kept
can be encoded. -/
theorem numbers_iff (hkeys : (segments.map segmentKey).Nodup)
    (hdigest : ∀ text ∈ nodeTexts maxTokens overlapTokens minChars segments,
      ∀ other ∈ nodeTexts maxTokens overlapTokens minChars segments,
        digest text = digest other → text = other) :
    (∃ chunks, Numbers maxTokens overlapTokens minChars digest segments chunks) ↔
      ∀ text ∈ nodeTexts maxTokens overlapTokens minChars segments, Encodable text := by
  rw [← encodable_longWindows_iff]
  constructor
  · rintro ⟨chunks, hc⟩
    have hs := hc.any_order segments (List.Perm.refl _)
    rw [chunkSegments] at hs
    cases hk : keptNodes digest (candidates maxTokens overlapTokens minChars segments) [] with
    | error e =>
      rw [hk] at hs
      cases hs
    | ok kept => exact (keptNodes_eq_ok_iff.mp hk).1
  · intro h
    exact ⟨_, numbers_chunksOf hkeys hdigest (keptNodes_eq_ok_iff.mpr ⟨h, rfl⟩)⟩

def plainText (text : Text) (order : ℤ) : SourceSegment := ⟨text, order, .text, ∅, 0⟩

/-- A text that cannot be encoded leaves no numbering. -/
theorem lone_surrogate_raises :
    let segments := [plainText (ofString "fourteen chars" ++ [⟨0xD800, by decide⟩]) 0]
    (segments.map segmentKey).Nodup ∧ Function.Injective (id : Text → Text) ∧
      ¬ ∃ chunks, Numbers 512 64 24 id segments chunks := by
  refine ⟨by decide, Function.injective_id, ?_⟩
  rintro ⟨chunks, hc⟩
  have hok := hc.any_order _ (List.Perm.refl _)
  have hr : (chunkSegments 512 64 24 (id : Text → Text)
      [plainText (ofString "fourteen chars" ++ [⟨0xD800, by decide⟩]) 0]).toOption.isNone := by
    decide
  rw [hok] at hr
  cases hr

theorem two_segments_are_numbered :
    let segments := [plainText (ofString "the later paragraph") 1,
      plainText (ofString "the first paragraph") 0]
    (segments.map segmentKey).Nodup ∧ Function.Injective (id : Text → Text) ∧
      ((∃ chunks, Numbers 2 1 24 id segments chunks) ↔
        ∀ text ∈ nodeTexts 2 1 24 segments, Encodable text) :=
  ⟨by decide, Function.injective_id,
    numbers_iff (by decide) fun _ _ _ _ heq => heq⟩

end Kept

end Aizzak.ChunkNumbering
