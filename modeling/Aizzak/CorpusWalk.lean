import Aizzak.PagedReads

/-!
The walk over the documents of a space that pairs each with the name of its file. It reads the
newest documents first, a page at a time, asks for the names of a page's files at once, and stops
asking for pages when it has as many names as it may show: the documents it has not seen then are
counted by the database.
-/
namespace Aizzak.CorpusWalk

open PagedReads List

structure Document (K F : Type) where
  id : K
  workspaceId : String
  spaceId : Option String
  fileId : F

structure Page (α K : Type) where
  data : List α
  nextCursor : Option K

structure Walk (K : Type) where
  named : List (K × String)
  walked : ℕ

variable {K F : Type}

def inSpace (workspaceId : String) (spaceId : Option String) (document : Document K F) : Bool :=
  document.workspaceId = workspaceId && spaceId.all (document.spaceId = some ·)

def namesForFiles [DecidableEq F] (readable : F → Option String) (fileIds : List F) (fileId : F) :
    Option String :=
  if fileId ∈ fileIds then readable fileId else none

def capFull (cap : Option ℤ) (named : List (K × String)) : Bool :=
  cap.any fun c => c ≤ (named.length : ℤ)

def visit (cap : Option ℤ) (names : F → Option String) (walk : Walk K) (document : Document K F) :
    Walk K :=
  if capFull cap walk.named then { walk with walked := walk.walked + 1 }
  else match names document.fileId with
    | none => { walk with walked := walk.walked + 1 }
    | some name => ⟨walk.named ++ [(document.id, name)], walk.walked + 1⟩

section Repository

variable [LinearOrder K] (documents : List (Document K F)) (workspaceId : String)
  (spaceId : Option String)

def newestFirst (documents : List (Document K F)) : List (Document K F) :=
  documents.insertionSort fun a b => b.id ≤ a.id

/-- One row more than the limit is read, to tell whether another page follows. -/
def list (limit : ℕ) (cursor : Option K) : Page (Document K F) K :=
  let rows := (newestFirst (documents.filter fun d =>
    inSpace workspaceId spaceId d && cursor.all (d.id < ·))).take (limit + 1)
  let pageRows := rows.take limit
  ⟨pageRows, if limit < rows.length then pageRows.getLast?.map Document.id else none⟩

def count : ℕ := (documents.filter (inSpace workspaceId spaceId)).length

def walkFrom [DecidableEq F] (readable : F → Option String) (cap : Option ℤ) (pageSize : ℕ) :
    ℕ → Walk K → Option K → Option (List (K × String) × ℕ)
  | 0, _, _ => none
  | fuel + 1, walk, cursor =>
    let page := list documents workspaceId spaceId pageSize cursor
    let wantingNames := (cap.all fun c => (walk.named.length : ℤ) < c) && !page.data.isEmpty
    let names := if wantingNames then namesForFiles readable (page.data.map Document.fileId)
      else fun _ => none
    let walk := page.data.foldl (visit cap names) walk
    match page.nextCursor with
    | none => some (walk.named, walk.walked)
    | some last =>
      if capFull cap walk.named then some (walk.named, count documents workspaceId spaceId)
      else walkFrom readable cap pageSize fuel walk (some last)

def namedDocuments [DecidableEq F] (readable : F → Option String) (cap : Option ℤ)
    (pageSize fuel : ℕ) : Option (List (K × String) × ℕ) :=
  walkFrom documents workspaceId spaceId readable cap pageSize fuel ⟨[], 0⟩ none

end Repository

def readableNames (readable : F → Option String) (documents : List (Document K F)) :
    List (K × String) :=
  documents.filterMap fun d => (readable d.fileId).map (d.id, ·)

def capped (cap : Option ℤ) (named : List (K × String)) : List (K × String) :=
  cap.elim named fun c => named.take c.toNat

section Names

variable {cap : Option ℤ} {named more : List (K × String)}

theorem capFull_capped : capFull cap (capped cap named) = capFull cap named := by
  cases cap with
  | none => rfl
  | some c =>
    rw [capFull, capFull, capped, Option.any_some, Option.any_some, Option.elim_some,
      length_take, decide_eq_decide]
    omega

theorem capped_append_of_full (hf : capFull cap named = true) :
    capped cap (named ++ more) = capped cap named := by
  cases cap with
  | none => cases hf
  | some c =>
    have hl : c ≤ named.length := of_decide_eq_true hf
    apply take_append_of_le_length
    omega

theorem capped_concat {named : List (K × String)} {entry : K × String}
    (hf : capFull cap named = false) :
    capped cap (named ++ [entry]) = capped cap named ++ [entry] := by
  cases cap with
  | none => rfl
  | some c =>
    have hl : ¬ c ≤ named.length := of_decide_eq_false hf
    rw [capped, capped, Option.elim_some, Option.elim_some, take_of_length_le,
      take_of_length_le]
    · omega
    · rw [length_append, length_singleton]
      omega

end Names

section Visits

variable {cap : Option ℤ} {readable names : F → Option String} {front page : List (Document K F)}
  {document : Document K F}

def walkOver (cap : Option ℤ) (readable : F → Option String) (documents : List (Document K F)) :
    Walk K :=
  ⟨capped cap (readableNames readable documents), documents.length⟩

theorem walkOver_named :
    (walkOver cap readable front).named = capped cap (readableNames readable front) := rfl

theorem readableNames_append :
    readableNames readable (front ++ page) =
      readableNames readable front ++ readableNames readable page :=
  filterMap_append

/-- A document of the page is walked over as in the plain walk. -/
theorem visit_walkOver
    (hn : capFull cap (readableNames readable front) = true ∨
      names document.fileId = readable document.fileId) :
    visit cap names (walkOver cap readable front) document =
      walkOver cap readable (front ++ [document]) := by
  rw [walkOver, walkOver, visit, capFull_capped, readableNames_append, length_append]
  by_cases hf : capFull cap (readableNames readable front) = true
  · rw [if_pos hf, capped_append_of_full hf]
    rfl
  · rw [if_neg hf, hn.resolve_left hf]
    cases hr : readable document.fileId with
    | none => simp [readableNames, hr]
    | some name =>
      have he : readableNames readable [document] = [(document.id, name)] := by
        simp [readableNames, hr]
      rw [he, capped_concat (Bool.eq_false_iff.mpr hf)]
      rfl

theorem foldl_visit
    (hn : capFull cap (readableNames readable front) = true ∨
      ∀ document ∈ page, names document.fileId = readable document.fileId) :
    page.foldl (visit cap names) (walkOver cap readable front) =
      walkOver cap readable (front ++ page) := by
  induction page generalizing front with
  | nil => rw [foldl_nil, append_nil]
  | cons document page ih =>
    have hh : capFull cap (readableNames readable front) = true ∨
        names document.fileId = readable document.fileId :=
      hn.imp_right fun h => h document mem_cons_self
    have ht : capFull cap (readableNames readable (front ++ [document])) = true ∨
        ∀ d ∈ page, names d.fileId = readable d.fileId := by
      refine hn.imp (fun hf => ?_) fun h d hd => h d (mem_cons_of_mem _ hd)
      rw [← capFull_capped, readableNames_append, capped_append_of_full hf, capFull_capped]
      exact hf
    rw [foldl_cons, visit_walkOver hh, ih ht, append_assoc, singleton_append]

theorem mem_readableNames {id : K} {name : String} :
    (id, name) ∈ readableNames readable front ↔
      ∃ d ∈ front, d.id = id ∧ readable d.fileId = some name := by
  rw [readableNames, mem_filterMap]
  refine exists_congr fun d => and_congr_right fun _ => ?_
  rw [Option.map_eq_some_iff]
  constructor
  · rintro ⟨name', hr, heq⟩
    obtain ⟨rfl, rfl⟩ := Prod.mk.inj heq
    exact ⟨rfl, hr⟩
  · rintro ⟨rfl, hr⟩
    exact ⟨name, hr, rfl⟩

theorem names_enough [DecidableEq F]
    (hn : names = if (cap.all fun c => ((capped cap (readableNames readable front)).length : ℤ)
      < c) && !page.isEmpty then namesForFiles readable (page.map Document.fileId)
        else fun _ => none) :
    capFull cap (readableNames readable front) = true ∨
      ∀ document ∈ page, names document.fileId = readable document.fileId := by
  by_cases hf : capFull cap (readableNames readable front) = true
  · exact .inl hf
  · right
    intro document hd
    have hr : (cap.all fun c =>
        ((capped cap (readableNames readable front)).length : ℤ) < c) = true := by
      rw [← capFull_capped] at hf
      cases cap with
      | none => rfl
      | some c => simpa [capFull] using hf
    have hp : (!page.isEmpty) = true := by
      cases page with
      | nil => cases hd
      | cons _ _ => rfl
    rw [hn, hr, hp, Bool.and_self, if_pos rfl, namesForFiles,
      if_pos (mem_map_of_mem hd)]

end Visits

section Pages

variable [LinearOrder K] {documents : List (Document K F)} {workspaceId : String}
  {spaceId : Option String} {cursor : Option K} {size : ℕ}

def walkKey (document : Document K F) : Kᵒᵈ := OrderDual.toDual document.id

def corpus (documents : List (Document K F)) (workspaceId : String) (spaceId : Option String) :
    List (Document K F) :=
  newestFirst (documents.filter (inSpace workspaceId spaceId))

def remaining (documents : List (Document K F)) (workspaceId : String) (spaceId : Option String)
    (cursor : Option K) : List (Document K F) :=
  past walkKey (corpus documents workspaceId spaceId) (cursor.map OrderDual.toDual)

theorem pairwise_newestFirst (hids : (documents.map Document.id).Nodup) :
    (newestFirst documents).Pairwise (walkKey · < walkKey ·) := by
  have hp := perm_insertionSort (fun a b : Document K F => b.id ≤ a.id) documents
  have ht : Std.Total fun a b : Document K F => b.id ≤ a.id := ⟨fun _ _ => le_total _ _⟩
  have htr : IsTrans (Document K F) fun a b => b.id ≤ a.id :=
    ⟨fun _ _ _ hab hbc => le_trans hbc hab⟩
  have hs : (newestFirst documents).Pairwise fun a b => b.id ≤ a.id :=
    pairwise_insertionSort _ documents
  have hn : (newestFirst documents).Pairwise fun a b => a.id ≠ b.id := by
    apply pairwise_map.mp
    exact (hp.map Document.id).nodup_iff.mpr hids
  refine (hs.and hn).imp fun hab => ?_
  exact lt_of_le_of_ne hab.1 fun h => hab.2 (congrArg OrderDual.ofDual h)

theorem pairwise_corpus (hids : (documents.map Document.id).Nodup) :
    (corpus documents workspaceId spaceId).Pairwise (walkKey · < walkKey ·) :=
  pairwise_newestFirst (hids.sublist (filter_sublist.map _))

theorem perm_corpus : (corpus documents workspaceId spaceId).Perm
    (documents.filter (inSpace workspaceId spaceId)) :=
  perm_insertionSort _ _

theorem length_corpus :
    (corpus documents workspaceId spaceId).length = count documents workspaceId spaceId :=
  perm_corpus.length_eq

/-- The listing's filter and the walk's order commute. -/
theorem newestFirst_filter (hids : (documents.map Document.id).Nodup) :
    newestFirst (documents.filter fun d =>
      inSpace workspaceId spaceId d && cursor.all (d.id < ·)) =
        remaining documents workspaceId spaceId cursor := by
  have hp : remaining documents workspaceId spaceId cursor =
      (corpus documents workspaceId spaceId).filter fun d => cursor.all (d.id < ·) := by
    apply filter_congr
    intro d _
    cases cursor <;> rfl
  have hpe : (newestFirst (documents.filter fun d =>
      inSpace workspaceId spaceId d && cursor.all (d.id < ·))).Perm
        ((corpus documents workspaceId spaceId).filter fun d => cursor.all (d.id < ·)) := by
    refine (perm_insertionSort _ _).trans ?_
    have hall : (corpus documents workspaceId spaceId).Perm
      (documents.filter (inSpace workspaceId spaceId)) := perm_corpus
    have hf := hall.filter fun d => cursor.all (d.id < ·)
    rw [filter_filter] at hf
    rw [filter_congr fun d _ => Bool.and_comm _ _]
    exact hf.symm
  rw [hp]
  apply List.Perm.eq_of_pairwise (fun a b _ _ hab hba => absurd hba (lt_asymm hab)) _
    ((pairwise_corpus hids).filter _) hpe
  exact pairwise_newestFirst (hids.sublist (filter_sublist.map _))

theorem list_eq (hids : (documents.map Document.id).Nodup) :
    list documents workspaceId spaceId size cursor =
      ⟨(remaining documents workspaceId spaceId cursor).take size,
        if size < (remaining documents workspaceId spaceId cursor).length then
          ((remaining documents workspaceId spaceId cursor).take size).getLast?.map Document.id
        else none⟩ := by
  have hm : ∀ n, size < min (size + 1) n ↔ size < n := by
    intro n
    omega
  rw [list, newestFirst_filter hids]
  simp only [take_take, length_take, Nat.min_eq_left (Nat.le_succ size), hm]

theorem remaining_last (hids : (documents.map Document.id).Nodup) {page rest : List (Document K F)}
    {last : Document K F}
    (hs : remaining documents workspaceId spaceId cursor = page ++ rest)
    (hl : page.getLast? = some last) :
    remaining documents workspaceId spaceId (some last.id) = rest :=
  past_last (pairwise_corpus hids) hs hl

theorem pairwise_readableNames {readable : F → Option String}
    (hs : documents.Pairwise (walkKey · < walkKey ·)) :
    (readableNames readable documents).Pairwise fun a b => b.1 < a.1 := by
  apply hs.filterMap
  intro a b hab entry he other ho
  obtain ⟨_, -, rfl⟩ := Option.map_eq_some_iff.mp he
  obtain ⟨_, -, rfl⟩ := Option.map_eq_some_iff.mp ho
  exact hab

end Pages

section Walks

variable [LinearOrder K] [DecidableEq F] {documents : List (Document K F)} {workspaceId : String}
  {spaceId : Option String} {readable : F → Option String} {cap : Option ℤ} {cursor : Option K}
  {size : ℕ}

/-- The paged walk reads what a walk without pages would. -/
theorem walkFrom_eq (hids : (documents.map Document.id).Nodup) (hsi : 0 < size) {fuel : ℕ}
    {front : List (Document K F)}
    (hs : front ++ remaining documents workspaceId spaceId cursor =
      corpus documents workspaceId spaceId)
    (hf : (remaining documents workspaceId spaceId cursor).length < fuel) :
    walkFrom documents workspaceId spaceId readable cap size fuel (walkOver cap readable front)
      cursor = some (capped cap (readableNames readable (corpus documents workspaceId spaceId)),
        count documents workspaceId spaceId) := by
  induction fuel generalizing front cursor with
  | zero => omega
  | succ fuel ih =>
    generalize hr : remaining documents workspaceId spaceId cursor = rows at hs hf
    have hp := (take_append_drop size rows).symm
    have hl := congrArg List.length hp
    rw [length_append, length_take] at hl
    rw [walkFrom, list_eq hids, hr]
    dsimp only
    rw [walkOver_named, foldl_visit (names_enough rfl), walkOver_named, capFull_capped]
    by_cases hm : size < rows.length
    · rw [if_pos hm]
      have hne : rows.take size ≠ [] := by
        apply ne_nil_of_length_pos
        rw [length_take]
        omega
      have hla := List.getLast?_eq_some_getLast hne
      have hre := remaining_last hids (hr.trans hp) hla
      have hc : (front ++ rows.take size) ++ rows.drop size =
          corpus documents workspaceId spaceId := by
        rw [append_assoc, ← hp, hs]
      rw [hla, Option.map_some]
      dsimp only
      by_cases hfu : capFull cap (readableNames readable (front ++ rows.take size)) = true
      · have hn : readableNames readable (corpus documents workspaceId spaceId) =
            readableNames readable (front ++ rows.take size) ++
              readableNames readable (rows.drop size) := by
          rw [← hc, readableNames_append]
        rw [if_pos hfu, hn, capped_append_of_full hfu]
      · rw [if_neg hfu]
        apply ih
        · rw [hre, hc]
        · rw [hre, length_drop]
          omega
    · rw [if_neg hm, take_of_length_le (Nat.le_of_not_lt hm), hs, walkOver,
        length_corpus]

/-- The walk returns the first readable documents, newest first, as many as the cap lets it, and
the number of all the documents of the space. -/
theorem namedDocuments_spec (hids : (documents.map Document.id).Nodup) (hsize : 0 < size)
    {fuel : ℕ} (hfuel : documents.length < fuel) :
    ∃ all : List (K × String), all.Pairwise (fun a b => b.1 < a.1) ∧
      (∀ id name, (id, name) ∈ all ↔ ∃ d ∈ documents,
        inSpace workspaceId spaceId d = true ∧ d.id = id ∧ readable d.fileId = some name) ∧
      namedDocuments documents workspaceId spaceId readable cap size fuel =
        some (capped cap all, (documents.filter (inSpace workspaceId spaceId)).length) := by
  have hw : remaining documents workspaceId spaceId none =
      corpus documents workspaceId spaceId := by
    apply filter_eq_self.mpr
    intro d _
    rfl
  have hs : (corpus documents workspaceId spaceId).length < fuel := by
    have hc := length_filter_le (inSpace workspaceId spaceId) documents
    rw [perm_corpus.length_eq]
    omega
  have hst : walkOver cap readable ([] : List (Document K F)) = ⟨[], 0⟩ := by
    cases cap with
    | none => rfl
    | some c => rw [walkOver, capped, Option.elim_some, readableNames, filterMap_nil,
        take_nil, length_nil]
  refine ⟨readableNames readable (corpus documents workspaceId spaceId),
    pairwise_readableNames (pairwise_corpus hids), fun id name => ?_, ?_⟩
  · rw [mem_readableNames]
    refine exists_congr fun d => ?_
    rw [perm_corpus.mem_iff, mem_filter, and_assoc]
  · rw [namedDocuments, ← hst]
    apply walkFrom_eq hids hsize
    · rw [hw, nil_append]
    · rw [hw]
      exact hs

end Walks

def sampleDocuments : List (Document ℕ ℕ) :=
  [⟨3, "w", some "s", 1⟩, ⟨9, "w", some "s", 2⟩, ⟨4, "w", some "t", 1⟩, ⟨7, "w", some "s", 3⟩,
    ⟨5, "w", some "s", 1⟩]

def sampleNames (fileId : ℕ) : Option String :=
  if fileId = 1 then some "one" else if fileId = 3 then some "three" else none

theorem namedDocuments_sample :
    ∃ all : List (ℕ × String), all.Pairwise (fun a b => b.1 < a.1) ∧
      (∀ id name, (id, name) ∈ all ↔ ∃ d ∈ sampleDocuments,
        inSpace "w" (some "s") d = true ∧ d.id = id ∧ sampleNames d.fileId = some name) ∧
      namedDocuments sampleDocuments "w" (some "s") sampleNames (some 2) 2 6 =
        some (capped (some 2) all,
          (sampleDocuments.filter (inSpace "w" (some "s"))).length) :=
  namedDocuments_spec (by decide) (by decide) (by decide)

end Aizzak.CorpusWalk
