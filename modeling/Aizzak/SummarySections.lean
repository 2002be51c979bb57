import Aizzak.IndexedParents

/-!
What the summariser reads of an indexed document. The parents and chunks of a call are stored, the
chunks are read back in their order with their parents, and a complete parent stands once for all
its chunks, at the place of the first. A chunk whose parent lacks some of its words is then not
read as it was indexed.
-/
namespace Aizzak.SummarySections

open IndexedParents PyText SemanticCuts TableRows WordWindows List
open Tokenization (words)

structure ChunkParent where
  id : String
  text : Text
  isComplete : Bool

structure ParentedChunkText where
  text : Text
  parent : Option ChunkParent

def collapseFrom (writtenParents : List String) : List ParentedChunkText → List Text
  | [] => []
  | row :: rows =>
    match row.parent with
    | none => row.text :: collapseFrom writtenParents rows
    | some parent =>
      if !parent.isComplete then row.text :: collapseFrom writtenParents rows
      else if parent.id ∈ writtenParents then collapseFrom writtenParents rows
      else parent.text :: collapseFrom (parent.id :: writtenParents) rows

def collapseParentRuns (rows : List ParentedChunkText) : List Text := collapseFrom [] rows

structure ParentChunk where
  id : String
  seq : ℕ
  text : Text
  isComplete : Bool

structure Chunk where
  seq : ℕ
  text : Text
  tokenCount : ℕ
  parentId : Option String

structure Rows where
  parents : List ParentChunk
  chunks : List Chunk

def parentRow (mint : ℕ → String) (draft : ParentChunkDraft × ℕ) : ParentChunk :=
  ⟨mint draft.2, draft.2, draft.1.text, draft.1.isComplete⟩

def sortedDrafts (outcome : IndexOutcome) : List ParentChunkDraft :=
  outcome.parents.insertionSort fun a b => a.order ≤ b.order

def finalize (mint : ℕ → String) (outcome : IndexOutcome) : Rows :=
  let parentRows := (sortedDrafts outcome).zipIdx.map (parentRow mint)
  let parentIdByKey := fun key =>
    (((sortedDrafts outcome).zip parentRows).find? (·.1.key = key)).map (·.2.id)
  ⟨parentRows, outcome.chunks.map fun chunk =>
    ⟨chunk.seq, chunk.text, chunk.tokenCount, chunk.parentKey.bind parentIdByKey⟩⟩

def Rows.joined (rows : Rows) (chunk : Chunk) : ParentedChunkText :=
  ⟨chunk.text, (chunk.parentId.bind fun id => rows.parents.find? (·.id = id)).map fun parent =>
    ⟨parent.id, parent.text, parent.isComplete⟩⟩

def Rows.chunkTexts (rows : Rows) : List Text :=
  collapseParentRuns ((rows.chunks.insertionSort fun a b => a.seq ≤ b.seq).map rows.joined)

namespace ParentedChunkText

def speaker (row : ParentedChunkText) : Option ChunkParent := row.parent.filter (·.isComplete)

def standing (row : ParentedChunkText) : Text := (row.speaker.map ChunkParent.text).getD row.text

end ParentedChunkText

section Collapse

variable {α T : Type} {row : α → ParentedChunkText} {tag : α → T}

theorem collapseFrom_cons (written : List String) (row : ParentedChunkText)
    (rows : List ParentedChunkText) : collapseFrom written (row :: rows) =
      match row.speaker with
      | none => row.text :: collapseFrom written rows
      | some parent =>
        if parent.id ∈ written then collapseFrom written rows
        else parent.text :: collapseFrom (parent.id :: written) rows := by
  rw [collapseFrom, ParentedChunkText.speaker]
  cases hp : row.parent with
  | none => rfl
  | some parent =>
    cases hc : parent.isComplete <;> simp [Option.filter, hc]

/-- A name for whatever is written: rows that speak for themselves have names of their own, and
rows with one parent share one. -/
structure Named (row : α → ParentedChunkText) (tag : α → T) (l : List α) : Prop where
  leaf : l.Pairwise fun a b => (row a).speaker = none ∨ (row b).speaker = none → tag a ≠ tag b
  same : ∀ a ∈ l, ∀ b ∈ l, ∀ p ∈ (row a).speaker, ∀ q ∈ (row b).speaker,
    (p.id = q.id ↔ tag a = tag b) ∧ (p.id = q.id → p.text = q.text)

theorem Named.of_cons {a : α} {l : List α} (h : Named row tag (a :: l)) : Named row tag l where
  leaf := h.leaf.of_cons
  same := fun b hb c hc => h.same b (mem_cons_of_mem _ hb) c (mem_cons_of_mem _ hc)

variable [DecidableEq T]

theorem collapseFrom_map {l : List α} (h : Named row tag l) (written : List String) :
    collapseFrom written (l.map row) =
      ((l.filter fun a => !(row a).speaker.any (·.id ∈ written)).map fun a =>
        (tag a, (row a).standing)).eraseDups.map Prod.snd := by
  induction l generalizing written with
  | nil => rfl
  | cons a l ih =>
    have hl := (pairwise_cons.mp h.leaf).1
    rw [map_cons, collapseFrom_cons]
    cases hs : (row a).speaker with
    | none =>
      have hk : ((l.filter fun b => !(row b).speaker.any (·.id ∈ written)).map fun b =>
          (tag b, (row b).standing)).filter (fun v => !v == (tag a, (row a).standing)) =
          (l.filter fun b => !(row b).speaker.any (·.id ∈ written)).map fun b =>
            (tag b, (row b).standing) := by
        rw [filter_eq_self]
        intro v hv
        obtain ⟨b, hb, rfl⟩ := mem_map.mp hv
        have hne := hl b (mem_of_mem_filter hb) (.inl hs)
        simp [Ne.symm hne]
      rw [filter_cons_of_pos (by simp [hs]), map_cons, eraseDups_cons, hk,
        map_cons, ← ih h.of_cons]
      simp [ParentedChunkText.standing, hs]
    | some p =>
      by_cases hw : p.id ∈ written
      · rw [filter_cons_of_neg (by simp [hs, hw]), ← ih h.of_cons]
        simp [hw]
      · have hk : ((l.filter fun b => !(row b).speaker.any (·.id ∈ written)).map fun b =>
            (tag b, (row b).standing)).filter (fun v => !v == (tag a, (row a).standing)) =
            (l.filter fun b => !(row b).speaker.any (·.id ∈ p.id :: written)).map fun b =>
              (tag b, (row b).standing) := by
          rw [filter_map, filter_filter]
          congr 1
          apply filter_congr
          intro b hb
          cases ho : (row b).speaker with
          | none =>
            have hne := hl b hb (.inr ho)
            simp [Ne.symm hne]
          | some q =>
            obtain ⟨htag, htext⟩ := h.same a mem_cons_self b (mem_cons_of_mem _ hb) p
              hs q ho
            by_cases hid : p.id = q.id
            · simp [ParentedChunkText.standing, hs, ho, htag.mp hid, htext hid, hid]
            · have hne : tag b ≠ tag a := fun heq => hid (htag.mpr heq.symm)
              simp [hne, Ne.symm hid]
        rw [filter_cons_of_pos (by simp [hs, hw]), map_cons,
          eraseDups_cons, hk, map_cons, ← ih h.of_cons]
        simp [ParentedChunkText.standing, hs, hw]

end Collapse

def speakerOf (outcome : IndexOutcome) (chunk : IndexedChunk) : Option ParentChunkDraft :=
  chunk.parentKey.bind fun key =>
    outcome.parents.find? fun draft => draft.key = key && draft.isComplete

inductive Source where
  | chunk (seq : ℕ)
  | parent (key : String)
deriving DecidableEq

/-- What is read for a chunk: its complete parent under the parent's name, else its own text under
its number. -/
def voice (outcome : IndexOutcome) (chunk : IndexedChunk) : Source × Text :=
  match speakerOf outcome chunk with
  | some draft => (.parent draft.key, draft.text)
  | none => (.chunk chunk.seq, chunk.text)

section Stored

variable {mint : ℕ → String} {outcome : IndexOutcome} {chunk : IndexedChunk}

def readBack (mint : ℕ → String) (outcome : IndexOutcome) (chunk : IndexedChunk) :
    ParentedChunkText :=
  ⟨chunk.text, chunk.parentKey.bind fun key =>
    ((sortedDrafts outcome).zipIdx.find? (·.1.key = key)).map fun draft =>
      ⟨mint draft.2, draft.1.text, draft.1.isComplete⟩⟩

theorem find_parentRow (hmint : Function.Injective mint) {drafts : List ParentChunkDraft}
    {draft : ParentChunkDraft × ℕ} (h : draft ∈ drafts.zipIdx) :
    (drafts.zipIdx.map (parentRow mint)).find? (·.id = mint draft.2) =
      some (parentRow mint draft) := by
  cases hf : (drafts.zipIdx.map (parentRow mint)).find? (·.id = mint draft.2) with
  | none => simpa [parentRow] using List.find?_eq_none.mp hf _ (mem_map_of_mem h)
  | some found =>
    obtain ⟨other, ho, rfl⟩ := mem_map.mp (mem_of_find?_eq_some hf)
    have hid := List.find?_some hf
    have hseq : other.2 = draft.2 := hmint (of_decide_eq_true hid)
    have hs := (mem_zipIdx_iff_getElem?.mp ho).symm
    rw [hseq, mem_zipIdx_iff_getElem?.mp h] at hs
    rw [Prod.ext (Option.some.inj hs).symm hseq.symm]

theorem parentIdByKey_eq (mint : ℕ → String) (outcome : IndexOutcome) (key : String) :
    (((sortedDrafts outcome).zip ((sortedDrafts outcome).zipIdx.map (parentRow mint))).find?
      (·.1.key = key)).map (·.2.id) =
      ((sortedDrafts outcome).zipIdx.find? (·.1.key = key)).map (mint ·.2) := by
  have hzip : (sortedDrafts outcome).zip ((sortedDrafts outcome).zipIdx.map (parentRow mint)) =
      (sortedDrafts outcome).zipIdx.map fun draft => (draft.1, parentRow mint draft) := by
    conv_lhs => arg 1; rw [← zipIdx_map_fst 0 (sortedDrafts outcome)]
    exact zip_map'
  rw [hzip, List.find?_map, Option.map_map]
  rfl

theorem map_joined_finalize (hmint : Function.Injective mint) (outcome : IndexOutcome) :
    (finalize mint outcome).chunks.map (finalize mint outcome).joined =
      outcome.chunks.map (readBack mint outcome) := by
  rw [finalize, map_map]
  apply map_congr_left
  intro chunk _
  rw [Function.comp_apply, Rows.joined, readBack]
  cases chunk.parentKey with
  | none => rfl
  | some key =>
    rw [Option.bind_some, parentIdByKey_eq, Option.bind_some]
    cases hf : (sortedDrafts outcome).zipIdx.find? (·.1.key = key) with
    | none => rfl
    | some draft =>
      rw [Option.map_some, Option.bind_some,
        find_parentRow hmint (mem_of_find?_eq_some hf)]
      rfl

/-- The complete parent a chunk is read back with is its complete parent of the outcome, under the
id of its place. -/
theorem speaker_readBack (mint : ℕ → String) (chunk : IndexedChunk)
    (hkeys : (outcome.parents.map ParentChunkDraft.key).Nodup) :
    (∀ draft, speakerOf outcome chunk = some draft → ∃ i, (sortedDrafts outcome)[i]? = some draft ∧
      (readBack mint outcome chunk).speaker = some ⟨mint i, draft.text, true⟩) ∧
    (speakerOf outcome chunk = none → (readBack mint outcome chunk).speaker = none) := by
  have hpe : (sortedDrafts outcome).Perm outcome.parents := perm_insertionSort _ _
  rw [speakerOf, ParentedChunkText.speaker, readBack]
  cases chunk.parentKey with
  | none => exact ⟨nofun, fun _ => rfl⟩
  | some key =>
    simp only [Option.bind_some]
    cases hf : (sortedDrafts outcome).zipIdx.find? (·.1.key = key) with
    | none =>
      refine ⟨fun draft hd => ?_, fun _ => rfl⟩
      have hp := List.find?_some hd
      simp only [Bool.and_eq_true, decide_eq_true_eq] at hp
      have hmem := hpe.mem_iff.mpr (mem_of_find?_eq_some hd)
      obtain ⟨i, hi⟩ := mem_iff_getElem?.mp hmem
      have hno := List.find?_eq_none.mp hf (draft, i) (mem_zipIdx_iff_getElem?.mpr hi)
      simp [hp.1] at hno
    | some found =>
      have hkey := List.find?_some hf
      simp only [decide_eq_true_eq] at hkey
      have hpl := mem_zipIdx_iff_getElem?.mp (mem_of_find?_eq_some hf)
      have hmem := hpe.mem_iff.mp (mem_of_getElem? hpl)
      constructor
      · intro draft hd
        have hp := List.find?_some hd
        simp only [Bool.and_eq_true, decide_eq_true_eq] at hp
        obtain rfl := inj_on_of_nodup_map hkeys hmem (mem_of_find?_eq_some hd)
          (hkey.trans hp.1.symm)
        exact ⟨found.2, hpl, by simp [Option.filter, hp.2]⟩
      · intro hn
        have hno := List.find?_eq_none.mp hn found.1 hmem
        simp only [hkey, decide_true, Bool.true_and, Bool.not_eq_true] at hno
        simp [Option.filter, hno]

theorem standing_readBack (hkeys : (outcome.parents.map ParentChunkDraft.key).Nodup) :
    (readBack mint outcome chunk).standing = (voice outcome chunk).2 := by
  obtain ⟨hso, hn⟩ := speaker_readBack mint chunk hkeys
  rw [ParentedChunkText.standing, voice]
  cases hs : speakerOf outcome chunk with
  | none =>
    rw [hn hs]
    rfl
  | some draft =>
    obtain ⟨i, -, hr⟩ := hso draft hs
    simp [hr]

theorem key_speakerOf {draft : ParentChunkDraft} (h : speakerOf outcome chunk = some draft) :
    chunk.parentKey = some draft.key ∧ draft ∈ outcome.parents ∧ draft.isComplete = true := by
  obtain ⟨key, hkey, hf⟩ := Option.bind_eq_some_iff.mp h
  have hp := List.find?_some hf
  simp only [Bool.and_eq_true, decide_eq_true_eq] at hp
  exact ⟨hp.1 ▸ hkey, mem_of_find?_eq_some hf, hp.2⟩

section

variable (hmint : Function.Injective mint)
    (hkeys : (outcome.parents.map ParentChunkDraft.key).Nodup)
    (hseqs : outcome.chunks.Pairwise (·.seq < ·.seq))
include hmint hkeys hseqs

theorem named_readBack :
    Named (readBack mint outcome) (fun chunk => (voice outcome chunk).1) outcome.chunks := by
  have hpe : (sortedDrafts outcome).Perm outcome.parents := perm_insertionSort _ _
  have hsp : ∀ chunk p, (readBack mint outcome chunk).speaker = some p →
      ∃ draft i, speakerOf outcome chunk = some draft ∧ (sortedDrafts outcome)[i]? = some draft ∧
        p = ⟨mint i, draft.text, true⟩ := by
    intro chunk p hp
    cases hs : speakerOf outcome chunk with
    | none =>
      rw [(speaker_readBack mint chunk hkeys).2 hs] at hp
      cases hp
    | some draft =>
      obtain ⟨i, hi, hr⟩ := (speaker_readBack mint chunk hkeys).1 draft hs
      exact ⟨draft, i, rfl, hi, Option.mem_unique hp hr⟩
  have hsi : ∀ chunk, (readBack mint outcome chunk).speaker = none →
      speakerOf outcome chunk = none := by
    intro chunk hno
    by_contra hne
    obtain ⟨draft, hdr⟩ := Option.ne_none_iff_exists'.mp hne
    obtain ⟨i, -, hr⟩ := (speaker_readBack mint chunk hkeys).1 draft hdr
    rw [hno] at hr
    cases hr
  constructor
  · refine hseqs.imp fun {a b} hlt hl => ?_
    simp only [voice]
    rcases hl with hno | hno
    · rw [hsi a hno]
      cases speakerOf outcome b with
      | none => exact fun heq => absurd (Source.chunk.inj heq) (Nat.ne_of_lt hlt)
      | some draft => exact fun heq => nomatch heq
    · rw [hsi b hno]
      cases speakerOf outcome a with
      | none => exact fun heq => absurd (Source.chunk.inj heq) (Nat.ne_of_lt hlt)
      | some draft => exact fun heq => nomatch heq
  · intro a ha b hb p hp q hq
    obtain ⟨d, i, hd, hi, rfl⟩ := hsp a p hp
    obtain ⟨e, j, he, hj, rfl⟩ := hsp b q hq
    have hn : (sortedDrafts outcome).Nodup := hpe.nodup_iff.mpr (hkeys.of_map _)
    have hpl : i = j ↔ d = e := by
      constructor
      · rintro rfl
        exact Option.mem_unique hi hj
      · rintro rfl
        have hlt : i < (sortedDrafts outcome).length := (List.getElem?_eq_some_iff.mp hi).1
        exact (List.getElem?_inj hlt hn).mp (hi.trans hj.symm)
    have ht : (voice outcome a).1 = (voice outcome b).1 ↔ d = e := by
      rw [voice, hd, voice, he]
      constructor
      · intro heq
        exact inj_on_of_nodup_map hkeys (key_speakerOf hd).2.1 (key_speakerOf he).2.1
          (Source.parent.inj heq)
      · rintro rfl
        rfl
    rw [ht, ← hpl]
    exact ⟨hmint.eq_iff, fun hid => by rw [hpl.mp (hmint hid)]⟩

/-- What is read back is what stands for the chunks, each by its first occurrence. -/
theorem chunkTexts_finalize :
    (finalize mint outcome).chunkTexts =
      (outcome.chunks.map (voice outcome)).eraseDups.map Prod.snd := by
  have hs : (finalize mint outcome).chunks.Pairwise (·.seq ≤ ·.seq) := by
    rw [finalize, pairwise_map]
    exact hseqs.imp Nat.le_of_lt
  have hv : ((outcome.chunks.filter fun chunk =>
      !(readBack mint outcome chunk).speaker.any (·.id ∈ [])).map fun chunk =>
        ((voice outcome chunk).1, (readBack mint outcome chunk).standing)) =
      outcome.chunks.map (voice outcome) := by
    rw [filter_eq_self.mpr (by simp)]
    apply map_congr_left
    intro chunk _
    rw [standing_readBack hkeys]
  rw [Rows.chunkTexts, hs.insertionSort_eq, map_joined_finalize hmint, collapseParentRuns,
    collapseFrom_map (named_readBack hmint hkeys hseqs), hv]

end

end Stored

/-- What the summariser is promised: every chunk is in what it reads, and it reads, in the order of
the chunks, each complete parent once at its first chunk and every other chunk as it is. -/
structure Fed (outcome : IndexOutcome) (texts : List Text) : Prop where
  contains : ∀ chunk ∈ outcome.chunks, ∃ text ∈ texts, words chunk.text <:+: words text
  once : texts = (outcome.chunks.map (voice outcome)).eraseDups.map Prod.snd

section Read

variable {K D : Type} [Field K] [LinearOrder K] [DecidableEq D]

/-- Where two windows made one are kept under a complete parent, some text that is read happens to
repeat the words they share: a complete parent, or a window without one. -/
def RepeatsRead (ix : Indexer K D) (doc : ParsedDocument) : Prop :=
  ∀ windows, ix.kept doc = .ok windows → ∀ node ∈ windows,
    Merged (wordWindows ix.maxWords ix.overlapWords (words node.1.text)) node.2 →
    ∀ draft ∈ ix.drafts doc, draft.isComplete = true →
      parentKeyOf node.1.metadata = some draft.key → ∃ other ∈ windows,
        (∃ parent ∈ ix.drafts doc, parent.isComplete = true ∧
          parentKeyOf other.1.metadata = some parent.key ∧ node.2 <:+: words parent.text) ∨
        (∀ parent ∈ ix.drafts doc, parent.isComplete = true →
          parentKeyOf other.1.metadata ≠ some parent.key) ∧ node.2 <:+: other.2

/-- The summariser reads every indexed chunk exactly where the repeated words of a window that is
two are repeated in something it reads. -/
theorem summariser_reads_every_chunk_iff (ix : Indexer K D) (doc : ParsedDocument)
    {outcome : IndexOutcome} (h : ix.execute doc = some outcome) (mint : ℕ → String)
    (hmint : Function.Injective mint) :
    Fed outcome (finalize mint outcome).chunkTexts ↔ RepeatsRead ix doc := by
  obtain ⟨windows, hke, hch, hsu, hpa⟩ := Indexer.execute_spec h
  have hkeys : (outcome.parents.map ParentChunkDraft.key).Nodup :=
    (Indexer.nodup_keys_drafts ix doc).sublist (hsu.map _)
  have hseqs : outcome.chunks.Pairwise (·.seq < ·.seq) := by
    rw [hch, pairwise_map]
    have hpl : (windows.zipIdx.map Prod.snd).Pairwise (· < ·) := by
      rw [zipIdx_map_snd]
      exact pairwise_lt_range'
    exact pairwise_map.mp hpl
  have ho := chunkTexts_finalize hmint hkeys hseqs
  have hrea : ∀ text, text ∈ (finalize mint outcome).chunkTexts ↔
      ∃ chunk ∈ outcome.chunks, (voice outcome chunk).2 = text := by
    intro text
    rw [ho]
    simp only [mem_map, mem_eraseDups, exists_exists_and_eq_and]
  obtain ⟨hn, hcn⟩ := Indexer.nodes_and_chunks hch
  have hsp : ∀ chunk node, node ∈ windows → chunk.parentKey = parentKeyOf node.1.metadata →
      ∀ draft ∈ ix.drafts doc, draft.isComplete = true → chunk.parentKey = some draft.key →
        speakerOf outcome chunk = some draft := by
    intro chunk node hin hnodeKey draft hd hc hkey
    have hp := (hpa draft).mpr ⟨hd, node, hin, hnodeKey.symm.trans hkey⟩
    rw [speakerOf, hkey, Option.bind_some]
    cases hf : outcome.parents.find? fun other =>
        decide (other.key = draft.key) && other.isComplete with
    | none => simpa [hc] using List.find?_eq_none.mp hf draft hp
    | some other =>
      have hpr := List.find?_some hf
      simp only [Bool.and_eq_true, decide_eq_true_eq] at hpr
      rw [inj_on_of_nodup_map hkeys (mem_of_find?_eq_some hf) hp hpr.1]
  constructor
  · intro hfed windows' hk node hin hm draft hd hc hkey
    obtain rfl := Except.ok.inj (hke.symm.trans hk)
    obtain ⟨chunk, hmem, htext, hchunkKey⟩ := hcn node hin
    obtain ⟨text, hrd, hi⟩ := hfed.contains chunk hmem
    rw [htext, Indexer.words_chunkOf hke hin] at hi
    obtain ⟨reader, hr, rfl⟩ := (hrea text).mp hrd
    obtain ⟨other, hot, hotherText, hotherKey⟩ := hn reader hr
    refine ⟨other, hot, ?_⟩
    rw [voice] at hi
    cases hs : speakerOf outcome reader with
    | some parent =>
      rw [hs] at hi
      obtain ⟨hparentKey, hp, hparentComplete⟩ := key_speakerOf hs
      exact .inl ⟨parent, hsu.subset hp, hparentComplete,
        hotherKey.symm.trans hparentKey, hi⟩
    | none =>
      rw [hs] at hi
      refine .inr ⟨fun parent hp hparentComplete hsa => ?_, ?_⟩
      · have hso := hsp reader other hot hotherKey parent hp hparentComplete
          (hotherKey.trans hsa)
        rw [hs] at hso
        cases hso
      · rwa [hotherText, Indexer.words_chunkOf hke hot] at hi
  · intro hre
    refine ⟨fun chunk hmem => ?_, ho⟩
    obtain ⟨node, hin, htext, hchunkKey⟩ := hn chunk hmem
    have hown : (voice outcome chunk).2 ∈ (finalize mint outcome).chunkTexts :=
      (hrea _).mpr ⟨chunk, hmem, rfl⟩
    cases hs : speakerOf outcome chunk with
    | none =>
      rw [voice, hs] at hown
      exact ⟨chunk.text, hown, infix_refl _⟩
    | some draft =>
      rw [voice, hs] at hown
      obtain ⟨hkey, hp, hc⟩ := key_speakerOf hs
      have hd := hsu.subset hp
      rw [hchunkKey] at hkey
      rw [htext, Indexer.words_chunkOf hke hin]
      rcases Indexer.infix_or_merged_of_kept hke hin hd hc hkey with hpn | hm
      · exact ⟨draft.text, hown, hpn⟩
      · obtain ⟨other, hot, ⟨parent, hp, hparentComplete, hsa, hi⟩ |
          ⟨hsi, hi⟩⟩ := hre windows hke node hin hm draft hd hc hkey
        · obtain ⟨reader, hr, -, hreaderKey⟩ := hcn other hot
          have hso := hsp reader other hot hreaderKey parent hp hparentComplete
            (hreaderKey.trans hsa)
          refine ⟨parent.text, (hrea _).mpr ⟨reader, hr, ?_⟩, hi⟩
          rw [voice, hso]
        · obtain ⟨reader, hr, hreaderText, hreaderKey⟩ := hcn other hot
          have hno : speakerOf outcome reader = none := by
            by_contra hne
            obtain ⟨parent, hso⟩ := Option.ne_none_iff_exists'.mp hne
            obtain ⟨hparentKey, hp, hparentComplete⟩ := key_speakerOf hso
            exact hsi parent (hsu.subset hp) hparentComplete
              (hreaderKey.symm.trans hparentKey)
          refine ⟨reader.text, (hrea _).mpr ⟨reader, hr, ?_⟩, ?_⟩
          · rw [voice, hno]
          · rw [hreaderText, Indexer.words_chunkOf hke hot]
            exact hi

theorem repeatsRead_of_repeatsHeld {ix : Indexer K D} {doc : ParsedDocument}
    (h : ix.RepeatsHeld doc) : RepeatsRead ix doc :=
  fun windows hk node hn hm draft hd hc hkey => ⟨node, hn,
    .inl ⟨draft, hd, hc, hkey,
      h windows hk node hn hm draft hd hc hkey⟩⟩

end Read

theorem page_parent_is_read :
    ∃ outcome, (defaultIndexer (asciiPy none)).execute pagedNotes = some outcome ∧
      (finalize (fun n => toString n) outcome).chunkTexts.length = 1 ∧
      Fed outcome (finalize (fun n => toString n) outcome).chunkTexts := by
  have hrun : ((defaultIndexer (asciiPy none)).execute pagedNotes).map (fun outcome =>
      (finalize (fun n => toString n) outcome).chunkTexts.length) = some 1 := by
    decide +kernel
  obtain ⟨outcome, hexecute, hl⟩ := Option.map_eq_some_iff.mp hrun
  refine ⟨outcome, hexecute, hl,
    (summariser_reads_every_chunk_iff _ _ hexecute _ toString_injective).mpr ?_⟩
  exact repeatsRead_of_repeatsHeld (Indexer.repeatsHeld_of_wide_overlap (by decide) (by decide))

private def longNote : ParsedDocument where
  chunks := [⟨ofString ("a1 a2 a3 a4 a5 a6 a7 a8 a9 b1 b2 b3 b4 b5 b6 b7 b8 b9 c1 c2 c3 c4 c5 " ++
    "c6 c7 c8 c9 d1 d2 d3 d4 d5 d6"), .text, 0, ∅⟩]
  unstamped := by
    intro chunk hchunk
    rw [List.mem_singleton.mp hchunk]
    exact AList.notMem_empty _

private def narrowIndexer : Indexer ℚ Text :=
  { defaultIndexer (asciiPy none) with
    maxWords := 32
    overlapWords := 3 }

/-- The note is indexed with three words twice, and the summariser reads them once. -/
theorem repeated_words_are_not_read :
    ∃ outcome, narrowIndexer.execute longNote = some outcome ∧
      ¬Fed outcome (finalize (fun n => toString n) outcome).chunkTexts := by
  have hrun : (narrowIndexer.execute longNote).map (fun outcome : IndexOutcome =>
      outcome.chunks.any fun chunk =>
        (finalize (fun n => toString n) outcome).chunkTexts.all fun text =>
          decide ((words text).length < (words chunk.text).length)) = some true := by
    decide +kernel
  obtain ⟨outcome, hexecute, hl⟩ := Option.map_eq_some_iff.mp hrun
  refine ⟨outcome, hexecute, fun hfed => ?_⟩
  obtain ⟨chunk, hc, hall⟩ := any_eq_true.mp hl
  obtain ⟨text, htext, hi⟩ := hfed.contains chunk hc
  have hlt := of_decide_eq_true (all_eq_true.mp hall text htext)
  exact absurd hi.length_le (not_le.mpr hlt)

end Aizzak.SummarySections
