import Aizzak.CorpusWalk
import Aizzak.CursorCodecs

/-!
A client that lists the documents of a space, following the opaque cursors of its pages while
documents are registered and deleted.
-/
namespace Aizzak.WorkspaceListings

open PyText CorpusWalk CursorCodecs List

structure UuidColumn (K : Type) where
  text : K → Text
  cast : Text → K
  isUuidText_text : ∀ id, isUuidText (text id) = true
  cast_text : ∀ id, cast (text id) = id

structure Table (K F : Type) where
  documents : List (Document K F)
  nodup_ids : (documents.map Document.id).Nodup

structure Query where
  workspaceId : String
  spaceId : Option String
  limit : ℕ+

variable {K F : Type} [LinearOrder K] (column : UuidColumn K) (query : Query)

def listDocuments (table : Table K F) (cursor : Option Text) :
    Except Raised (Page (Document K F) Text) := do
  let after ← cursor.mapM decodeIdCursor
  let page := CorpusWalk.list table.documents query.workspaceId query.spaceId query.limit
    (after.map column.cast)
  let nextCursor ← page.nextCursor.mapM fun id => encodeIdCursor (column.text id)
  return ⟨page.data, nextCursor⟩

/-- What a client reads, a page of each table; none where they end before the pages do. -/
def follow : List (Table K F) → Option Text → Except Raised (Option (List (Document K F)))
  | [], _ => return none
  | table :: tables, cursor => do
    let page ← listDocuments column query table cursor
    match page.nextCursor with
    | none => return some page.data
    | some next => return (← follow tables (some next)).map (page.data ++ ·)

def rest (table : Table K F) (after : Option K) : List (Document K F) :=
  remaining table.documents query.workspaceId query.spaceId after

variable {column query} {table : Table K F} {cursor : Option Text} {after : Option K}

/-- A page is the last one, or its cursor is read back as the last of its documents. -/
theorem listDocuments_eq (h : cursor.mapM decodeIdCursor = .ok (after.map column.text)) :
    listDocuments column query table cursor = .ok ⟨rest query table after, none⟩ ∨
      ∃ front last next,
        listDocuments column query table cursor = .ok ⟨front ++ [last], some next⟩ ∧
        (some next).mapM decodeIdCursor = .ok ((some last.id).map column.text) ∧
        rest query table after = front ++ [last] ++ rest query table (some last.id) := by
  have hcast : (after.map column.text).map column.cast = after := by
    simp [Function.comp_def, column.cast_text]
  have hp := (take_append_drop query.limit (rest query table after)).symm
  rw [listDocuments, h]
  simp only [bind, Except.bind, hcast, list_eq table.nodup_ids]
  rw [← rest]
  by_cases hmore : (query.limit : ℕ) < (rest query table after).length
  · right
    obtain hnil | ⟨front, last, hf⟩ :=
      eq_nil_or_concat' ((rest query table after).take query.limit)
    · have hpos := query.limit.pos
      rw [take_eq_nil_iff, ← length_eq_zero_iff] at hnil
      omega
    · obtain ⟨next, he, hd⟩ := decodeIdCursor_encodeIdCursor (column.isUuidText_text last.id)
      rw [hf] at hp
      refine ⟨front, last, next, ?_, congrArg (·.map some) hd, ?_⟩
      · simp only [if_pos hmore, hf, getLast?_concat, Option.map_some, Option.mapM_some, he]
        rfl
      · have hr : rest query table (some last.id) = _ :=
          remaining_last table.nodup_ids hp getLast?_concat
        rwa [hr]
  · left
    rw [if_neg hmore, take_of_length_le (not_lt.mp hmore)]
    rfl

theorem mem_rest {d : Document K F} : d ∈ rest query table after ↔
    (d ∈ table.documents ∧ inSpace query.workspaceId query.spaceId d = true) ∧
      ∀ id ∈ after, d.id < id := by
  rw [rest, remaining, PagedReads.past, mem_filter, perm_corpus.mem_iff, mem_filter]
  cases after <;> simp [walkKey]

/-- Documents in the order of the listing, from some of the tables, with all that are in each. -/
structure Reads (query : Query) (tables : List (Table K F)) (after : Option K)
    (all : List (Document K F)) : Prop where
  newestFirst : all.Pairwise fun a b => b.id < a.id
  found : ∀ d ∈ all, ∃ table ∈ tables, d ∈ rest query table after
  complete : ∀ d, (∀ table ∈ tables, d ∈ rest query table after) → d ∈ all

theorem pairwise_rest : (rest query table after).Pairwise fun a b => b.id < a.id :=
  (pairwise_corpus table.nodup_ids).filter _

/-- What a page and the rest of a run read together. -/
theorem Reads.append {tables : List (Table K F)} {front all : List (Document K F)}
    {last : Document K F} (hr : Reads query tables (some last.id) all)
    (hsplit : rest query table after = front ++ [last] ++ rest query table (some last.id)) :
    Reads query (table :: tables) after (front ++ [last] ++ all) := by
  have hs := @pairwise_rest K F _ query table after
  have hpage : ∀ d ∈ front ++ [last], d ∈ rest query table after :=
    fun d hd => hsplit ▸ mem_append_left _ hd
  rw [hsplit, pairwise_append] at hs
  refine ⟨pairwise_append.mpr ⟨hs.1, hr.newestFirst, ?_⟩, ?_, ?_⟩
  · intro a ha b hb
    obtain ⟨later, -, hm⟩ := hr.found b hb
    have hlt : b.id < last.id := (mem_rest.mp hm).2 _ rfl
    rcases mem_append.mp ha with hf | hl
    · exact hlt.trans ((pairwise_append.mp hs.1).2.2 a hf last mem_cons_self)
    · rwa [mem_singleton.mp hl]
  · intro d hd
    rcases mem_append.mp hd with hd | hd
    · exact ⟨table, mem_cons_self, hpage d hd⟩
    · obtain ⟨later, hl, hm⟩ := hr.found d hd
      obtain ⟨hm, hlt⟩ := mem_rest.mp hm
      have hlast := (mem_rest.mp (hpage last mem_concat_self)).2
      exact ⟨later, mem_cons_of_mem _ hl,
        mem_rest.mpr ⟨hm, fun id hid => (hlt _ rfl).trans (hlast id hid)⟩⟩
  · intro d hd
    have hm := hd table mem_cons_self
    rw [hsplit] at hm
    rcases mem_append.mp hm with hm | hm
    · exact mem_append_left _ hm
    · refine mem_append_right _ (hr.complete d fun later hl => mem_rest.mpr ?_)
      exact ⟨(mem_rest.mp (hd later (mem_cons_of_mem _ hl))).1, (mem_rest.mp hm).2⟩

theorem reads_follow (tables : List (Table K F))
    (h : cursor.mapM decodeIdCursor = .ok (after.map column.text)) :
    ∃ read, follow column query tables cursor = .ok read ∧
      ∀ all ∈ read, Reads query tables after all := by
  induction tables generalizing cursor after with
  | nil => exact ⟨none, rfl, by simp⟩
  | cons table tables ih =>
    rw [follow]
    rcases listDocuments_eq h with hl | ⟨front, last, next, hl, hd, hsplit⟩
    · rw [hl]
      refine ⟨_, rfl, ?_⟩
      rintro all ⟨⟩
      exact ⟨pairwise_rest, fun d hd => ⟨table, mem_cons_self, hd⟩,
        fun d hd => hd table mem_cons_self⟩
    · obtain ⟨read, hread, hall⟩ := ih hd
      rw [hl]
      simp only [bind, Except.bind, hread]
      refine ⟨_, rfl, ?_⟩
      intro all hmap
      obtain ⟨more, hmore, rfl⟩ := Option.map_eq_some_iff.mp hmap
      exact (hall more hmore).append hsplit

theorem follow_replicate {n : ℕ} (hn : (rest query table after).length < n)
    (h : cursor.mapM decodeIdCursor = .ok (after.map column.text)) :
    follow column query (replicate n table) cursor = .ok (some (rest query table after)) := by
  induction n generalizing cursor after with
  | zero => omega
  | succ n ih =>
    rw [replicate_succ, follow]
    rcases listDocuments_eq h with hl | ⟨front, last, next, hl, hd, hsplit⟩
    · rw [hl]
      rfl
    · have hlen := congrArg length hsplit
      simp only [length_append, length_singleton] at hlen
      have hm := ih (by omega) hd
      rw [hl, hsplit]
      simp only [bind, Except.bind, hm]
      rfl

/-- Every client reads, newest first, documents of the space and all that stayed in it, and reads a
table that stays as it is to its end. -/
theorem document_listing_law (column : UuidColumn K) (query : Query) :
    (∀ tables : List (Table K F), ∃ read, follow column query tables none = .ok read ∧
      ∀ all ∈ read, Reads query tables none all) ∧
    ∀ table : Table K F, ∀ n, (rest query table none).length < n →
      follow column query (replicate n table) none = .ok (some (rest query table none)) :=
  ⟨fun tables => reads_follow tables rfl, fun _ _ hn => follow_replicate hn rfl⟩

def lastDigit (n : Fin 16) : Text :=
  ofString "00000000-0000-4000-8000-00000000000" ++
    [Fin.ofNat _ (if n.val < 10 then 48 + n.val else 87 + n.val)]

def digitValue (text : Text) : Fin 16 :=
  ((List.finRange 16).find? fun n => lastDigit n = text).getD 0

private theorem isUuidText_lastDigit : ∀ n, isUuidText (lastDigit n) = true := by decide +kernel

private theorem digitValue_lastDigit : ∀ n, digitValue (lastDigit n) = n := by decide +kernel

def digitUuids : UuidColumn (Fin 16) :=
  ⟨lastDigit, digitValue, isUuidText_lastDigit, digitValue_lastDigit⟩

def stored (ids : List (Fin 16)) : List (Document (Fin 16) ℕ) :=
  ids.map fun id => ⟨id, "w", some "s", id.val⟩

private theorem nodup_before : ((stored [1, 2, 3]).map Document.id).Nodup := by decide

private theorem nodup_after : ((stored [1, 2, 4]).map Document.id).Nodup := by decide

def beforeDelete : Table (Fin 16) ℕ := ⟨stored [1, 2, 3], nodup_before⟩

def afterRegister : Table (Fin 16) ℕ := ⟨stored [1, 2, 4], nodup_after⟩

def pagesOfTwo : Query := ⟨"w", some "s", 2⟩

def readIds : Except Raised (Option (List (Document (Fin 16) ℕ))) → Option (List (Fin 16))
  | .ok read => read.map fun all => all.map Document.id
  | .error _ => none

/-- Between two pages the newest document is deleted and another registered: the client has read
the deleted one and not the new one. -/
theorem listing_between_pages :
    (∃ all, follow digitUuids pagesOfTwo [beforeDelete, afterRegister] none = .ok (some all) ∧
      all.map Document.id = [3, 2, 1] ∧
      Reads pagesOfTwo [beforeDelete, afterRegister] none all) ∧
    follow digitUuids pagesOfTwo (replicate 4 beforeDelete) none =
      .ok (some (rest pagesOfTwo beforeDelete none)) := by
  obtain ⟨hreads, hstill⟩ := document_listing_law (F := ℕ) digitUuids pagesOfTwo
  obtain ⟨read, hread, hall⟩ := hreads [beforeDelete, afterRegister]
  have hids : readIds (follow digitUuids pagesOfTwo [beforeDelete, afterRegister] none) =
      some [3, 2, 1] := by
    decide +kernel
  rw [hread] at hids ⊢
  refine ⟨?_, hstill beforeDelete 4 (by decide)⟩
  cases read with
  | none => cases hids
  | some all => exact ⟨all, rfl, Option.some.inj hids, hall all rfl⟩

end Aizzak.WorkspaceListings
