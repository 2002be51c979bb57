import Aizzak.PagedReads
import Aizzak.TableRows
import Aizzak.WordWindows

/-!
The chunks a document is indexed as and the parents they point at. Keys are put on the segments,
by the tables and then by the pages, before the segments are cut into windows; of the parents, the
ones some window points at are kept. A table of more than twenty rows whose columns have no names
puts its key on its rows and makes no parent, and a window made of two holds the words they share
twice, which its parent does not.
-/
namespace Aizzak.IndexedParents

open PagedReads PyText SemanticCuts TableRows WordWindows List
open Tokenization (words)

structure ParsedDocument where
  chunks : List ParsedChunk
  unstamped : ∀ chunk ∈ chunks, parentKey ∉ chunk.metadata

structure IndexedChunk where
  seq : ℕ
  text : Text
  tokenCount : ℕ
  parentKey : Option String

structure IndexOutcome where
  chunks : List IndexedChunk
  parents : List ParentChunkDraft

/-- An `IndexDocument` and what it meets in one call: the answers to the sentences, and which
batches of chunks are embedded and stored. -/
structure Indexer (K D : Type) where
  py : Interpreter
  sqrt : K → K
  digest : Text → D
  maxWords : ℕ
  overlapWords : ℕ
  responses : Responses K
  accepts : List ChunkToIndex → Bool

def tableKey (index : ℕ) : String := "table-" ++ toString index

def parentKeyOf (metadata : Metadata) : Option String :=
  (metadata.lookup parentKey).map MetaValue.str

def tableSegments (py : Interpreter) (index : ℕ) (chunk : ParsedChunk) :
    Option (List SourceSegment) :=
  (tableToSegments py chunk (tableKey index)).join.map Prod.fst

def tableDraft (py : Interpreter) (chunk : ParsedChunk) (index : ℕ) : Option ParentChunkDraft :=
  if chunk.kind = .table then (tableToSegments py chunk (tableKey index)).join.bind Prod.snd
  else none

def tablesRender (py : Interpreter) (chunks : List ParsedChunk) : Bool :=
  chunks.zipIdx.all fun (chunk, index) =>
    chunk.kind ≠ .table || (tableToSegments py chunk (tableKey index)).isSome

def indexedChunk (chunk : ChunkToIndex) : IndexedChunk :=
  ⟨chunk.seq, chunk.text, chunk.tokenCount, parentKeyOf chunk.metadata⟩

namespace Indexer

variable {K D : Type} [Field K] [LinearOrder K] [DecidableEq D]
  (ix : Indexer K D) (doc : ParsedDocument)

def cutSegments : List SourceSegment :=
  (applySemanticSplits ix.sqrt (pendingRequests doc.chunks)
    (firstSlots (tableSegments ix.py) doc.chunks) ix.responses).flatten

def segments : List SourceSegment := (attachTextParents ix.maxWords (ix.cutSegments doc)).1

def drafts : List ParentChunkDraft :=
  (doc.chunks.zipIdx.filterMap fun (chunk, index) => tableDraft ix.py chunk index) ++
    (attachTextParents ix.maxWords (ix.cutSegments doc)).2

def kept : Except UnicodeEncodeError (List (SourceSegment × List Text)) :=
  nodes ix.maxWords ix.overlapWords ix.digest (ix.segments doc)

/-- A batch, or its chunks one by one if it fails; a chunk that fails alone raises. -/
def indexBatch (batch : List ChunkToIndex) : Option (List IndexedChunk) :=
  if ix.accepts batch then some (batch.map indexedChunk)
  else if batch.length = 1 then none
  else batch.mapM fun chunk => if ix.accepts [chunk] then some (indexedChunk chunk) else none

def execute : Option IndexOutcome :=
  if tablesRender ix.py doc.chunks then
    match chunkSegments ix.maxWords ix.overlapWords ix.digest (ix.segments doc) with
    | .error _ => none
    | .ok toIndex =>
      let parents := (ix.drafts doc).filter fun draft =>
        toIndex.any fun chunk => parentKeyOf chunk.metadata = some draft.key
      if toIndex.isEmpty then some ⟨[], []⟩
      else ((slices embedBatch toIndex).mapM ix.indexBatch).map fun indexed =>
        ⟨indexed.flatten, parents⟩
  else none

end Indexer

section Keys

theorem toString_injective : Function.Injective (fun n : ℕ => toString n) := by
  intro m n h
  have hd := congrArg (fun s : String => Nat.ofDigitChars 10 s.toList 0) h
  simpa using hd

theorem tableKey_injective : Function.Injective tableKey := fun _ _ h =>
  toString_injective (String.append_right_inj _ |>.mp h)

theorem tableKey_ne_textKey (i n : ℕ) : tableKey i ≠ "text-" ++ toString n := by
  intro h
  have hs := congrArg (fun s : String => s.toList[1]?) h
  simp [tableKey] at hs

end Keys

section Attached

variable {maxWords : ℕ} {segments : List SourceSegment} {part : List (SourceSegment × ℕ)}

theorem mem_of_mem_packParentParts {members : List (SourceSegment × ℕ)}
    {member : SourceSegment × ℕ} (hpart : part ∈ packParentParts members) (h : member ∈ part) :
    member ∈ members := by
  have hgo : ∀ (members current : List (SourceSegment × ℕ)) (length : ℕ),
      (packParentParts.go members current length).flatten = current ++ members := by
    intro members
    induction members with
    | nil =>
      intro current length
      rw [packParentParts.go]
      cases current <;> simp
    | cons next members ih =>
      intro current length
      rw [packParentParts.go]
      split_ifs <;> simp [ih]
  have hf := hgo members [] 0
  rw [nil_append] at hf
  rw [← hf]
  exact mem_flatten_of_mem hpart h

/-- A run with a parent of its own holds segments of the document that had none. -/
theorem mem_parentParts {segment : SourceSegment} {index : ℕ}
    (hpart : part ∈ parentParts maxWords segments) (h : (segment, index) ∈ part) :
    segments[index]? = some segment ∧ parentKey ∉ segment.metadata := by
  obtain ⟨group, hg, hp⟩ := mem_flatMap.mp (mem_of_mem_filter hpart)
  obtain ⟨name, -, rfl⟩ := mem_map.mp hg
  have hm := mem_of_mem_packParentParts hp h
  rw [mem_insertionSort] at hm
  obtain ⟨hzip, hf⟩ := mem_filter.mp (mem_of_mem_filter hm)
  exact ⟨mem_zipIdx_iff_getElem?.mp hzip,
    of_decide_eq_true (Bool.and_eq_true_iff.mp hf).1⟩

theorem words_joinLines_part (part : List (SourceSegment × ℕ)) :
    words (joinLines part) = part.flatMap fun member => words member.1.text := by
  rw [joinLines, words, SeparatedRuns.runs_intercalate (by decide) (by simp), flatMap_map]
  rfl

/-- What attaching the page parents does to a segment: it leaves it, or puts on one that had no
key the key of a parent that holds its words. -/
theorem mem_attachTextParents {segment : SourceSegment}
    (h : segment ∈ (attachTextParents maxWords segments).1) :
    segment ∈ segments ∨ ∃ draft ∈ (attachTextParents maxWords segments).2,
      parentKeyOf segment.metadata = some draft.key ∧
        words segment.text <:+: words draft.text := by
  rw [attachTextParents] at h
  simp only at h
  obtain ⟨⟨old, index⟩, hzip, rfl⟩ := mem_map.mp h
  have hold := mem_zipIdx_iff_getElem?.mp hzip
  simp only
  split
  · rename_i key hkey
    obtain ⟨⟨part, n⟩, hpart, hf⟩ := exists_of_findSome?_eq_some hkey
    simp only at hf
    split_ifs at hf with hany
    cases hf
    obtain ⟨⟨member, i⟩, hm, hi⟩ := any_eq_true.mp hany
    obtain rfl : i = index := by simpa using hi
    have hs := (mem_parentParts (fst_mem_of_mem_zipIdx hpart) hm).1
    obtain rfl := Option.mem_unique hs hold
    refine .inr ⟨_, mem_map.mpr ⟨(part, n), hpart, rfl⟩, ?_, ?_⟩
    · rw [parentKeyOf, AList.lookup_insert]
      rfl
    · rw [words_joinLines_part]
      exact infix_flatMap (f := fun member : SourceSegment × ℕ => words member.1.text) hm
  · exact .inl (mem_of_getElem? hold)

theorem keys_attachTextParents (maxWords : ℕ) (segments : List SourceSegment) :
    (attachTextParents maxWords segments).2.map ParentChunkDraft.key =
      (List.range (parentParts maxWords segments).length).map fun n => "text-" ++ toString n := by
  rw [attachTextParents]
  simp only [map_map]
  rw [range_eq_range', ← zipIdx_map_snd 0 (parentParts maxWords segments), map_map]
  rfl

end Attached

def SlotsStamped (py : Interpreter) (doc : ParsedDocument) (slots : Slots) : Prop :=
  ∀ (i : ℕ) slot, slots[i]? = some slot → ∃ chunk, doc.chunks[i]? = some chunk ∧
    (chunk.kind = .table ∧ tableSegments py i chunk = some slot ∨
      ∀ segment ∈ slot, parentKey ∉ segment.metadata)

theorem firstSlots_stamped (py : Interpreter) (doc : ParsedDocument) :
    SlotsStamped py doc (firstSlots (tableSegments py) doc.chunks) := by
  intro i slot hsl
  rw [firstSlots, List.getElem?_map, List.getElem?_zipIdx] at hsl
  cases hc : doc.chunks[i]? with
  | none =>
    rw [hc] at hsl
    cases hsl
  | some chunk =>
    rw [hc] at hsl
    simp only [Option.map_some, Option.some.injEq, Nat.zero_add] at hsl
    refine ⟨chunk, rfl, ?_⟩
    have hp : ∀ segment ∈ [plainSegment chunk], parentKey ∉ segment.metadata := by
      intro segment hs
      rw [mem_singleton.mp hs]
      exact doc.unstamped chunk (mem_of_getElem? hc)
    by_cases ht : chunk.kind = .table
    · rw [if_pos ht] at hsl
      cases hr : tableSegments py i chunk with
      | some rows =>
        rw [hr] at hsl
        exact .inl ⟨ht, congrArg some hsl⟩
      | none =>
        rw [hr] at hsl
        exact .inr (hsl ▸ hp)
    · rw [if_neg ht] at hsl
      exact .inr (hsl ▸ hp)

namespace Indexer

variable {K D : Type} {ix : Indexer K D} {doc : ParsedDocument}

theorem indexBatch_eq_some {batch : List ChunkToIndex} {indexed : List IndexedChunk}
    (h : ix.indexBatch batch = some indexed) : indexed = batch.map indexedChunk := by
  rw [indexBatch] at h
  split_ifs at h
  · exact (Option.some.inj h).symm
  · refine eq_map_of_mapM (fun chunk result hr => ?_) h
    split_ifs at hr
    exact (Option.some.inj hr).symm

variable [Field K] [LinearOrder K]

variable {segment : SourceSegment}

theorem mem_cutSegments (h : segment ∈ ix.cutSegments doc) :
    (∃ i chunk rows, doc.chunks[i]? = some chunk ∧ chunk.kind = .table ∧
      tableSegments ix.py i chunk = some rows ∧ segment ∈ rows) ∨
    parentKey ∉ segment.metadata := by
  have hk : KeptBySplits doc.chunks (SlotsStamped ix.py doc) := by
    refine ⟨fun {slots request segments} ha hsp hsl i slot hst => ?_⟩
    rw [List.getElem?_set] at hst
    split_ifs at hst with hi hlt
    · subst hi
      refine ⟨request.chunk, ha.chunk, .inr fun segment hs => ?_⟩
      cases hst
      rw [(hsp.described segment hs).2]
      exact doc.unstamped request.chunk (mem_of_getElem? ha.chunk)
    · exact hsl i slot hst
  have hsl := hk.applySemanticSplits (firstSlots_stamped ix.py doc) ix.sqrt ix.responses
  obtain ⟨slot, hst, hs⟩ := mem_flatten.mp h
  obtain ⟨i, hi⟩ := mem_iff_getElem?.mp hst
  obtain ⟨chunk, hc, ⟨ht, hr⟩ | hf⟩ := hsl i slot hi
  · exact .inl ⟨i, chunk, slot, hc, ht, hr, hs⟩
  · exact .inr (hf segment hs)

variable {i : ℕ} {chunk : ParsedChunk}

theorem tableSegments_eq_some {py : Interpreter} {rows : List SourceSegment}
    (h : tableSegments py i chunk = some rows) :
    ∃ draft, tableToSegments py chunk (tableKey i) = some (some (rows, draft)) := by
  obtain ⟨⟨segments, draft⟩, hj, rfl⟩ := Option.map_eq_some_iff.mp h
  exact ⟨draft, Option.join_eq_some_iff.mp hj⟩

variable {draft : ParentChunkDraft}

theorem mem_drafts : draft ∈ ix.drafts doc ↔
    (∃ i chunk rows, doc.chunks[i]? = some chunk ∧ chunk.kind = .table ∧
      tableToSegments ix.py chunk (tableKey i) = some (some (rows, some draft))) ∨
    draft ∈ (attachTextParents ix.maxWords (ix.cutSegments doc)).2 := by
  rw [drafts, mem_append]
  apply or_congr_left
  constructor
  · intro hmem
    obtain ⟨⟨chunk, i⟩, hzip, hd⟩ := mem_filterMap.mp hmem
    simp only [tableDraft] at hd
    split_ifs at hd with ht
    obtain ⟨⟨rows, found⟩, hj, rfl⟩ := Option.bind_eq_some_iff.mp hd
    exact ⟨i, chunk, rows, mem_zipIdx_iff_getElem?.mp hzip, ht,
      Option.join_eq_some_iff.mp hj⟩
  · rintro ⟨i, chunk, rows, hc, ht, hr⟩
    refine mem_filterMap.mpr ⟨(chunk, i), mem_zipIdx_iff_getElem?.mpr hc, ?_⟩
    simp [tableDraft, ht, hr]

theorem key_of_tableDraft {py : Interpreter} (h : tableDraft py chunk i = some draft) :
    draft.key = tableKey i := by
  rw [tableDraft] at h
  split_ifs at h
  obtain ⟨⟨rows, found⟩, hj, rfl⟩ := Option.bind_eq_some_iff.mp h
  exact ((tableToSegments_spec (Option.join_eq_some_iff.mp hj)).2.1 draft rfl).1

theorem nodup_keys_drafts (ix : Indexer K D) (doc : ParsedDocument) :
    ((ix.drafts doc).map ParentChunkDraft.key).Nodup := by
  rw [drafts, map_append]
  refine List.Nodup.append ?_ ?_ ?_
  · have hp : doc.chunks.zipIdx.Pairwise fun a b => a.2 ≠ b.2 := by
      rw [← pairwise_map, zipIdx_map_snd]
      exact nodup_range'
    rw [List.Nodup, pairwise_map, pairwise_filterMap]
    refine hp.imp fun {a b} hne draft hd other ho => ?_
    rw [key_of_tableDraft hd, key_of_tableDraft ho]
    exact tableKey_injective.ne hne
  · rw [keys_attachTextParents]
    refine nodup_range.map fun m n h => ?_
    exact toString_injective (String.append_right_inj _ |>.mp h)
  · intro key ht htext
    obtain ⟨draft, hd, rfl⟩ := mem_map.mp ht
    obtain ⟨⟨chunk, i⟩, -, hd⟩ := mem_filterMap.mp hd
    rw [keys_attachTextParents, key_of_tableDraft hd] at htext
    obtain ⟨n, -, hkey⟩ := mem_map.mp htext
    exact tableKey_ne_textKey i n hkey.symm

/-- A table with a parent has names for its columns or few rows. -/
theorem not_headerless_of_draft (hd : draft ∈ ix.drafts doc) (hkey : draft.key = tableKey i)
    (hc : doc.chunks[i]? = some chunk) : ¬Headerless ix.py chunk.text := by
  intro hna
  rcases mem_drafts.mp hd with ⟨j, other, rows, ho, -, hr⟩ | htext
  · obtain ⟨-, hp, hno, -⟩ := tableToSegments_spec hr
    obtain rfl := tableKey_injective ((hp draft rfl).1.symm.trans hkey)
    obtain rfl := Option.mem_unique hc ho
    cases hno hna
  · have hmem := mem_map_of_mem (f := ParentChunkDraft.key) htext
    rw [keys_attachTextParents] at hmem
    obtain ⟨n, -, hn⟩ := mem_map.mp hmem
    exact tableKey_ne_textKey i n (hkey.symm.trans hn.symm)

variable [DecidableEq D]

def chunkOf (node : (SourceSegment × List Text) × ℕ) : IndexedChunk :=
  ⟨node.2, joinSpace node.1.2, node.1.2.length, parentKeyOf node.1.1.metadata⟩

variable {windows : List (SourceSegment × List Text)}

theorem nodes_and_chunks {chunks : List IndexedChunk} (h : chunks = windows.zipIdx.map chunkOf) :
    (∀ chunk ∈ chunks, ∃ node ∈ windows,
      chunk.text = joinSpace node.2 ∧ chunk.parentKey = parentKeyOf node.1.metadata) ∧
    ∀ node ∈ windows, ∃ chunk ∈ chunks,
      chunk.text = joinSpace node.2 ∧ chunk.parentKey = parentKeyOf node.1.metadata := by
  subst h
  constructor
  · intro chunk hc
    obtain ⟨⟨node, seq⟩, hmem, rfl⟩ := mem_map.mp hc
    exact ⟨node, fst_mem_of_mem_zipIdx hmem, rfl, rfl⟩
  · intro node hmem
    obtain ⟨seq, hseq⟩ := mem_iff_getElem?.mp hmem
    exact ⟨chunkOf (node, seq), mem_map_of_mem (mem_zipIdx_iff_getElem?.mpr hseq), rfl,
      rfl⟩

/-- What a successful call returns: the windows that are kept as chunks, and of the drafts those
some window points at. -/
theorem execute_spec {outcome : IndexOutcome} (h : ix.execute doc = some outcome) :
    ∃ windows, ix.kept doc = .ok windows ∧ outcome.chunks = windows.zipIdx.map chunkOf ∧
      outcome.parents.Sublist (ix.drafts doc) ∧
      ∀ draft, draft ∈ outcome.parents ↔ draft ∈ ix.drafts doc ∧
        ∃ node ∈ windows, parentKeyOf node.1.metadata = some draft.key := by
  rw [execute] at h
  split_ifs at h
  rw [chunkSegments] at h
  cases hk : nodes ix.maxWords ix.overlapWords ix.digest (ix.segments doc) with
  | error e =>
    rw [hk] at h
    cases h
  | ok windows =>
    rw [hk] at h
    simp only [Except.map] at h
    refine ⟨windows, hk, ?_⟩
    split_ifs at h with hno
    · cases h
      obtain rfl : windows = [] := by simpa using hno
      simp
    · obtain ⟨batches, hb, rfl⟩ := Option.map_eq_some_iff.mp h
      obtain rfl := eq_map_of_mapM (fun _ _ => indexBatch_eq_some) hb
      refine ⟨?_, filter_sublist, ?_⟩
      · rw [← map_flatten, flatten_slices (by decide : 0 < embedBatch), map_map]
        rfl
      · intro draft
        rw [mem_filter]
        apply and_congr_right
        intro _
        simp only [any_map, any_eq_true, Function.comp_apply, decide_eq_true_iff]
        constructor
        · rintro ⟨⟨node, seq⟩, hn, hkey⟩
          exact ⟨node, fst_mem_of_mem_zipIdx hn, hkey⟩
        · rintro ⟨node, hn, hkey⟩
          obtain ⟨seq, hseq⟩ := mem_iff_getElem?.mp hn
          exact ⟨(node, seq), mem_zipIdx_iff_getElem?.mpr hseq, hkey⟩

variable {window : List Text}

/-- A window that points at a key: there is a parent, complete only if it holds the segment the
window is of, or the key is that of a table without names. -/
theorem parent_of_kept {key : String} (hk : ix.kept doc = .ok windows)
    (hno : (segment, window) ∈ windows) (hkey : parentKeyOf segment.metadata = some key) :
    (∃ draft ∈ ix.drafts doc, draft.key = key ∧
      (draft.isComplete = true → words segment.text <:+: words draft.text)) ∨
    ∃ i chunk, doc.chunks[i]? = some chunk ∧ chunk.kind = .table ∧
      Headerless ix.py chunk.text ∧ key = tableKey i := by
  obtain ⟨hs, hw⟩ := mem_nodes hk hno
  rcases mem_attachTextParents hs with hcut | ⟨draft, hd, hdraftKey, hwo⟩
  · rcases mem_cutSegments hcut with ⟨i, chunk, rows, hch, ht, hr, hrow⟩ | hf
    · obtain ⟨draft, hd⟩ := tableSegments_eq_some hr
      obtain ⟨hst, hp, -, hn⟩ := tableToSegments_spec hd
      obtain rfl : tableKey i = key := by
        rw [parentKeyOf, (hst segment hrow).1] at hkey
        exact Option.some.inj hkey
      cases draft with
      | some draft =>
        obtain ⟨hdraftKey, hh⟩ := hp draft rfl
        exact .inl ⟨draft, mem_drafts.mpr (.inl ⟨i, chunk, rows, hch, ht, hd⟩),
          hdraftKey, fun hc => hh hc segment hrow⟩
      | none =>
        refine .inr ⟨i, chunk, hch, ht, hn rfl segment hrow ?_, rfl⟩
        intro he
        rw [segmentWindows, he] at hw
        cases hw
    · rw [parentKeyOf, AList.lookup_eq_none.mpr hf] at hkey
      cases hkey
  · obtain rfl := Option.mem_unique hdraftKey hkey
    exact .inl ⟨draft, mem_drafts.mpr (.inr hd), rfl, fun _ => hwo⟩

/-- No window of a table without names for its columns is kept. -/
def NamelessDropped (ix : Indexer K D) (doc : ParsedDocument) : Prop :=
  ∀ windows, ix.kept doc = .ok windows → ∀ i chunk, doc.chunks[i]? = some chunk →
    chunk.kind = .table → Headerless ix.py chunk.text →
      ∀ node ∈ windows, parentKeyOf node.1.metadata ≠ some (tableKey i)

/-- Where two windows made one are kept under a complete parent, the parent happens to repeat the
words they share. -/
def RepeatsHeld (ix : Indexer K D) (doc : ParsedDocument) : Prop :=
  ∀ windows, ix.kept doc = .ok windows → ∀ node ∈ windows,
    Merged (wordWindows ix.maxWords ix.overlapWords (words node.1.text)) node.2 →
    ∀ draft ∈ ix.drafts doc, draft.isComplete = true →
      parentKeyOf node.1.metadata = some draft.key → node.2 <:+: words draft.text

/-- At an overlap of twelve words or more, as with the default token limit, no window is two. -/
theorem repeatsHeld_of_wide_overlap (hw : 12 ≤ ix.overlapWords)
    (hl : ix.overlapWords < ix.maxWords) : RepeatsHeld ix doc := by
  intro windows _ node _ hm
  refine absurd hm (not_merged_of_wide_overlap (fun text htext => ?_) hw hl)
  exact (SeparatedRuns.isRun_of_mem_runs htext).nonempty

theorem infix_or_merged_of_kept (hke : ix.kept doc = .ok windows)
    (hno : (segment, window) ∈ windows) (hd : draft ∈ ix.drafts doc)
    (hc : draft.isComplete = true) (hkey : parentKeyOf segment.metadata = some draft.key) :
    window <:+: words draft.text ∨
      Merged (wordWindows ix.maxWords ix.overlapWords (words segment.text)) window := by
  rcases infix_or_merged (mem_nodes hke hno).2 with hp | hm
  · rcases parent_of_kept hke hno hkey with ⟨other, ho, hs, hh⟩ |
      ⟨i, chunk, hch, -, hn, hk⟩
    · obtain rfl := inj_on_of_nodup_map (nodup_keys_drafts ix doc) ho hd hs
      exact .inl (hp.trans (hh hc))
    · exact absurd hn (not_headerless_of_draft hd hk hch)
  · exact .inr hm

theorem words_chunkOf (hk : ix.kept doc = .ok windows) (hn : (segment, window) ∈ windows) :
    words (joinSpace window) = window :=
  words_joinSpace_of_subset (mem_words_of_mem_window (mem_nodes hk hn).2)

end Indexer

structure Agree (outcome : IndexOutcome) : Prop where
  keyed : ∀ chunk ∈ outcome.chunks, ∀ key, chunk.parentKey = some key →
    (outcome.parents.map ParentChunkDraft.key).count key = 1
  referenced : ∀ draft ∈ outcome.parents, ∃ chunk ∈ outcome.chunks,
    chunk.parentKey = some draft.key
  contained : ∀ draft ∈ outcome.parents, draft.isComplete = true → ∀ chunk ∈ outcome.chunks,
    chunk.parentKey = some draft.key → words chunk.text <:+: words draft.text

/-- Chunks and parents agree exactly where no row of a table without column names is kept and no
complete parent lacks the repeated words of a window it is the parent of. -/
theorem parents_agree_iff {K D : Type} [Field K] [LinearOrder K] [DecidableEq D]
    (ix : Indexer K D) (doc : ParsedDocument) {outcome : IndexOutcome}
    (h : ix.execute doc = some outcome) :
    Agree outcome ↔ ix.NamelessDropped doc ∧ ix.RepeatsHeld doc := by
  obtain ⟨windows, hke, hch, hs, hp⟩ := Indexer.execute_spec h
  obtain ⟨hnd, hcn⟩ := Indexer.nodes_and_chunks hch
  have hno : (outcome.parents.map ParentChunkDraft.key).Nodup :=
    (Indexer.nodup_keys_drafts ix doc).sublist (hs.map _)
  constructor
  · intro ha
    constructor
    · intro windows' hk i chunk hi ht hn node hmem hkey
      obtain rfl := Except.ok.inj (hke.symm.trans hk)
      obtain ⟨indexed, hid, -, hindexedKey⟩ := hcn node hmem
      have hct := ha.keyed indexed hid _ (hindexedKey.trans hkey)
      have hin : tableKey i ∈ outcome.parents.map ParentChunkDraft.key :=
        count_pos_iff.mp (by rw [hct]; exact Nat.one_pos)
      obtain ⟨draft, hd, hdraftKey⟩ := mem_map.mp hin
      exact Indexer.not_headerless_of_draft (hs.subset hd) hdraftKey hi hn
    · intro windows' hk node hmem hm draft hd hc hkey
      obtain rfl := Except.ok.inj (hke.symm.trans hk)
      obtain ⟨indexed, hid, htext, hindexedKey⟩ := hcn node hmem
      have hco := ha.contained draft ((hp draft).mpr ⟨hd, node, hmem, hkey⟩)
        hc indexed hid (hindexedKey.trans hkey)
      rwa [htext, Indexer.words_chunkOf hke hmem] at hco
  · rintro ⟨hn, hr⟩
    refine ⟨fun chunk hmem key hkey => ?_, fun draft hd => ?_, ?_⟩
    · obtain ⟨node, hin, -, hnodeKey⟩ := hnd chunk hmem
      rw [hnodeKey] at hkey
      rcases Indexer.parent_of_kept hke hin hkey with ⟨draft, hd, rfl, -⟩ |
        ⟨i, table, hi, ht, hb, rfl⟩
      · exact count_eq_one_of_mem hno (mem_map_of_mem
          ((hp draft).mpr ⟨hd, node, hin, hkey⟩))
      · exact absurd hkey (hn windows hke i table hi ht hb node hin)
    · obtain ⟨-, node, hin, hkey⟩ := (hp draft).mp hd
      obtain ⟨chunk, hmem, -, hchunkKey⟩ := hcn node hin
      exact ⟨chunk, hmem, hchunkKey.trans hkey⟩
    · intro draft hd hc chunk hmem hkey
      obtain ⟨node, hin, htext, hnodeKey⟩ := hnd chunk hmem
      rw [htext, Indexer.words_chunkOf hke hin]
      have hd := ((hp draft).mp hd).1
      rcases Indexer.infix_or_merged_of_kept hke hin hd hc
        (hnodeKey.symm.trans hkey) with hpl | hm
      · exact hpl
      · exact hr windows hke node hin hm draft hd hc
          (hnodeKey.symm.trans hkey)

def asciiPy (value : Option Json) : Interpreter where
  lower := List.map Tokenization.asciiLower
  isDecimal := fun c => 0x30 ≤ c.val && c.val ≤ 0x39
  repr := fun _ => []
  loads := fun _ => value

def defaultIndexer (py : Interpreter) : Indexer ℚ Text where
  py := py
  sqrt := Rat.sqrt
  digest := id
  maxWords := 192
  overlapWords := 19
  responses := []
  accepts := fun _ => true

def pagedNotes : ParsedDocument where
  chunks := [⟨ofString "Pump one is running", .text, 0, ∅⟩,
    ⟨ofString "Pump two stands still", .text, 1, ∅⟩]
  unstamped := by decide

theorem page_parent_agrees :
    ∃ outcome, (defaultIndexer (asciiPy none)).execute pagedNotes = some outcome ∧
      outcome.parents.map (·.key) = ["text-0"] ∧ Agree outcome := by
  have hrun : ((defaultIndexer (asciiPy none)).execute pagedNotes).map
      (fun outcome => outcome.parents.map (·.key)) = some ["text-0"] := by
    decide +kernel
  obtain ⟨outcome, hexecute, hk⟩ := Option.map_eq_some_iff.mp hrun
  refine ⟨outcome, hexecute, hk, (parents_agree_iff _ _ hexecute).mpr ⟨?_, ?_⟩⟩
  · intro windows _ i chunk hc ht
    have hp : ∀ chunk ∈ pagedNotes.chunks, chunk.kind ≠ .table := by decide
    exact absurd ht (hp chunk (mem_of_getElem? hc))
  · exact Indexer.repeatsHeld_of_wide_overlap (by decide) (by decide)

private def namelessRow : String := "\x7b\"Column_1\": \"Pump is running\"\x7d"

private def namelessText : Text :=
  ofString ("\x7b\"headers\": [\"Column_1\"], \"rows\": [" ++ namelessRow ++
    String.join (List.replicate 20 (", " ++ namelessRow)) ++ "]\x7d")

private def namelessTable : Json :=
  .dict [(ofString "headers", .list [.str (ofString "Column_1")]),
    (ofString "rows", .list (List.replicate 21
      (.dict [(ofString "Column_1", .str (ofString "Pump is running"))])))]

private def namelessDocument : ParsedDocument where
  chunks := [⟨namelessText, .table, 0, ∅⟩]
  unstamped := by
    intro chunk hchunk
    rw [List.mem_singleton.mp hchunk]
    exact AList.notMem_empty _

/-- The rows of the table point at a parent that is not there. -/
theorem nameless_table_has_no_parent :
    ∃ outcome, (defaultIndexer (asciiPy (some namelessTable))).execute namelessDocument =
      some outcome ∧ outcome.chunks.map (·.parentKey) = [some "table-0"] ∧
      outcome.parents.map (·.key) = [] ∧ ¬Agree outcome := by
  have hrun : ((defaultIndexer (asciiPy (some namelessTable))).execute
      namelessDocument).map (fun outcome =>
        (outcome.chunks.map (·.parentKey), outcome.parents.map (·.key))) =
      some ([some "table-0"], []) := by
    decide +kernel
  obtain ⟨outcome, hexecute, heq⟩ := Option.map_eq_some_iff.mp hrun
  obtain ⟨hc, hp⟩ := Prod.mk.inj heq
  refine ⟨outcome, hexecute, hc, hp, fun ha => ?_⟩
  have hmem : some "table-0" ∈ outcome.chunks.map (·.parentKey) := by
    rw [hc]
    exact mem_cons_self
  obtain ⟨chunk, hch, hkey⟩ := mem_map.mp hmem
  have hco := ha.keyed chunk hch "table-0" hkey
  rw [hp] at hco
  cases hco

end Aizzak.IndexedParents
