import Aizzak.FileCascade

/-!
A turn read as the answer to the question of the turn before, which displayed names. The
corpus is folded into a dictionary of names, so that a name which two documents bear means the
last of them. A position therefore picks what was displayed there exactly where the name
displayed is last borne by that document now, or by none if the document is gone.
-/
namespace Aizzak.ClarificationReplies

open FileNames FileCascade PyText
open Tokenization (UnicodeDatabase)
open LexicalTerms (plainTables)

inductive Failure where
  | invalid (e : InvalidKnowledgeInput)
  | tooLong (e : IntTooLong)
  | keyError (name : Text)

variable {F : Type} [Field F] [LinearOrder F]

/-- `by_name`: a later candidate takes the place of an earlier one of its name. -/
def byName (candidates : List (FileCandidate F)) (name : Text) : Option (FileCandidate F) :=
  candidates.reverse.find? (·.fileName = name)

def named (candidates : List (FileCandidate F)) (name : Text) :
    Except Failure (Option (FileCandidate F)) :=
  match byName candidates name with
  | some candidate => .ok (some candidate)
  | none => .error (.keyError name)

section Reply

variable (db : UnicodeDatabase) (sqrt : F → F) (ratio : Text → Text → F)
  (offered : List Text) (candidates : List (FileCandidate F))

/-- The offer as far as it still exists, in the order it was displayed. -/
def live : List (FileCandidate F) := offered.filterMap (byName candidates)

def resolution (reply : Text) : Except Failure (Option (FileResolution F)) :=
  if (live offered candidates).isEmpty then .ok none
  else match resolveFile db sqrt ratio reply (live offered candidates) none with
    | .ok found => .ok (some found)
    | .error e => .error (.invalid e)

def positionOrFragment (reply : Text) (found : Option (FileResolution F)) :
    Except Failure (Option (FileCandidate F)) :=
  match readOrdinal db reply offered.length with
  | .error e => .error (.tooLong e)
  | .ok (some position) => .ok ((offered[position - 1]?).bind (byName candidates))
  | .ok none =>
    match found with
    | some (.resolvedFile _ name _ _) => named candidates name
    | _ => .ok none

def answerOf (reply : Text) (found : Option (FileResolution F)) :
    Except Failure (Option (FileCandidate F)) :=
  match found with
  | some (.resolvedFile _ name .exact _) => named candidates name
  | _ => positionOrFragment db offered candidates reply found

def resolveClarificationReply (reply : Text) : Except Failure (Option (FileCandidate F)) :=
  if offered.isEmpty then .ok none
  else (resolution db sqrt ratio offered candidates reply).bind
    (answerOf db offered candidates reply)

/-- The reply names the one live file of that name, in that layer. -/
def Resolves (reply : Text) (method : ResolutionMethod) (name : Text) : Prop :=
  ∃ id score, resolveFile db sqrt ratio reply (live offered candidates) none =
    .ok (.resolvedFile id name method score)

/-- The reply is read as a position, and it names no offered file exactly. -/
def Points (reply : Text) (position : ℕ) : Prop :=
  readOrdinal db reply offered.length = .ok (some position) ∧
    ∀ name, ¬ Resolves db sqrt ratio offered candidates reply .exact name

def Names (reply : Text) (name : Text) : Prop :=
  Resolves db sqrt ratio offered candidates reply .exact name ∨
    (readOrdinal db reply offered.length = .ok none ∧
      ∃ method, Resolves db sqrt ratio offered candidates reply method name)

end Reply

section Names

variable {candidates : List (FileCandidate F)} {name : Text} {candidate : FileCandidate F}

def LastBearer (candidates : List (FileCandidate F)) (name : Text)
    (candidate : FileCandidate F) : Prop :=
  candidate.fileName = name ∧ ∃ front back, candidates = front ++ candidate :: back ∧
    ∀ other ∈ back, other.fileName ≠ name

omit [Field F] [LinearOrder F] in
/-- A name stands for the last candidate that bears it. -/
theorem byName_eq_some_iff :
    byName candidates name = some candidate ↔ LastBearer candidates name candidate := by
  rw [byName, List.find?_eq_some_iff_append, decide_eq_true_iff]
  constructor
  · intro h
    obtain ⟨hname, front, back, hsplit, hother⟩ := h
    refine ⟨hname, back.reverse, front.reverse, ?_, fun other hmem => ?_⟩
    · have hreverse := congrArg List.reverse hsplit
      simpa using hreverse
    · have hfar := hother other (List.mem_reverse.mp hmem)
      simpa using hfar
  · intro h
    obtain ⟨hname, front, back, rfl, hother⟩ := h
    refine ⟨hname, back.reverse, front.reverse, by simp, fun other hmem => ?_⟩
    have hfar := hother other (List.mem_reverse.mp hmem)
    simpa using hfar

omit [Field F] [LinearOrder F] in
theorem byName_eq_none_iff :
    byName candidates name = none ↔ ∀ other ∈ candidates, other.fileName ≠ name := by
  rw [byName, List.find?_eq_none]
  simp only [List.mem_reverse, decide_eq_true_eq, ne_eq]

def stillThere (candidates : List (FileCandidate F)) (shown : FileCandidate F) : Option String :=
  if shown.documentId ∈ candidates.map FileCandidate.documentId then some shown.documentId
  else none

/-- The name a document was displayed under is now last borne by it, or by no document if the
document is gone. -/
def Kept (candidates : List (FileCandidate F)) (shown : FileCandidate F) : Prop :=
  (shown.documentId ∈ candidates.map FileCandidate.documentId →
    ∃ candidate, LastBearer candidates shown.fileName candidate ∧
      candidate.documentId = shown.documentId) ∧
  (shown.documentId ∉ candidates.map FileCandidate.documentId →
    ∀ other ∈ candidates, other.fileName ≠ shown.fileName)

omit [Field F] [LinearOrder F] in
/-- A name stands for the document displayed under it exactly where it is kept. -/
theorem byName_shown_iff {shown : FileCandidate F} :
    (byName candidates shown.fileName).map FileCandidate.documentId =
        stillThere candidates shown ↔
      Kept candidates shown := by
  by_cases hthere : shown.documentId ∈ candidates.map FileCandidate.documentId
  · rw [stillThere, if_pos hthere, Option.map_eq_some_iff]
    constructor
    · intro h
      obtain ⟨candidate, hfound, hid⟩ := h
      exact ⟨fun _ => ⟨candidate, byName_eq_some_iff.mp hfound, hid⟩,
        fun hgone => absurd hthere hgone⟩
    · intro h
      obtain ⟨candidate, hlast, hid⟩ := h.1 hthere
      exact ⟨candidate, byName_eq_some_iff.mpr hlast, hid⟩
  · rw [stillThere, if_neg hthere, Option.map_eq_none_iff, byName_eq_none_iff]
    constructor
    · intro h
      exact ⟨fun hback => absurd hback hthere, fun _ => h⟩
    · intro h
      exact h.2 hthere

end Names

section Spec

variable [IsStrictOrderedRing F] {db : UnicodeDatabase} {sqrt : F → F}
  {ratio : Text → Text → F} {offered : List Text}
  {candidates : List (FileCandidate F)} {reply : Text}

variable (db sqrt ratio offered candidates) in
/-- The layers of names over the live offer cannot fail. -/
theorem resolution_ok (reply : Text) :
    ∃ found, resolution db sqrt ratio offered candidates reply = .ok found ∧
      ∀ id name method score, found = some (.resolvedFile id name method score) ↔
        resolveFile db sqrt ratio reply (live offered candidates) none =
          .ok (.resolvedFile id name method score) := by
  rw [resolution]
  split_ifs with hempty
  · refine ⟨none, rfl, fun id name method score => ?_⟩
    have hnone : resolveFile db sqrt ratio reply (live offered candidates) none =
        .ok .noFileMatch := if_pos hempty
    rw [hnone]
    constructor
    · intro h
      cases h
    · intro h
      cases h
  · obtain ⟨found, hfound⟩ := resolveFile_ok db sqrt ratio reply (live offered candidates)
    rw [hfound]
    refine ⟨some found, rfl, fun id name method score => ?_⟩
    rw [Option.some.injEq, Except.ok.injEq]

section

variable {method : ResolutionMethod} {name : Text}
    (h : Resolves db sqrt ratio offered candidates reply method name)
include h

theorem byName_of_resolves : ∃ candidate, byName candidates name = some candidate := by
  obtain ⟨id, score, hr⟩ := h
  obtain ⟨chosen, hl, -, hname, -⟩ := resolveFile_justified hr
  obtain ⟨shown, -, hbears⟩ := List.mem_filterMap.mp hl
  have hsa : chosen.fileName = shown := (byName_eq_some_iff.mp hbears).1
  have hs : shown = name := hsa.symm.trans hname
  exact ⟨chosen, hs ▸ hbears⟩

theorem resolves_ne_nil : offered.isEmpty = false := by
  obtain ⟨id, score, hr⟩ := h
  obtain ⟨chosen, hl, -⟩ := resolveFile_justified hr
  obtain ⟨shown, hmem, -⟩ := List.mem_filterMap.mp hl
  have hne := List.ne_nil_of_mem hmem
  simpa using hne

end

omit [IsStrictOrderedRing F] [Field F] [LinearOrder F] in
theorem named_eq_ok {name : Text} {candidate : FileCandidate F}
    (h : named candidates name = .ok (some candidate)) :
    byName candidates name = some candidate := by
  rw [named] at h
  cases hfound : byName candidates name with
  | none =>
    rw [hfound] at h
    cases h
  | some other =>
    rw [hfound] at h
    cases h
    rfl

omit [IsStrictOrderedRing F] [Field F] [LinearOrder F] in
theorem answerOf_of_not_exact {found : Option (FileResolution F)}
    (h : ∀ id name score, found ≠ some (.resolvedFile id name .exact score)) :
    answerOf db offered candidates reply found =
      positionOrFragment db offered candidates reply found := by
  unfold answerOf
  split
  · next id name score => exact absurd rfl (h id name score)
  · rfl

omit [IsStrictOrderedRing F] in
theorem reply_eq {found : Option (FileResolution F)} (hoffered : offered.isEmpty = false)
    (hfound : resolution db sqrt ratio offered candidates reply = .ok found) :
    resolveClarificationReply db sqrt ratio offered candidates reply =
      answerOf db offered candidates reply found := by
  rw [resolveClarificationReply, hoffered, hfound]
  rfl

theorem reply_of_points {position : ℕ}
    (h : Points db sqrt ratio offered candidates reply position) :
    resolveClarificationReply db sqrt ratio offered candidates reply =
      .ok ((offered[position - 1]?).bind (byName candidates)) := by
  obtain ⟨hre, hexact⟩ := h
  obtain ⟨found, hfound, hr⟩ := resolution_ok db sqrt ratio offered candidates reply
  have hra := readOrdinal_range hre
  have hoffered : offered.isEmpty = false := by
    rw [List.isEmpty_eq_false_iff]
    intro hnil
    rw [hnil, List.length_nil] at hra
    omega
  have hother : ∀ id name score, found ≠ some (.resolvedFile id name .exact score) := by
    intro id name score hs
    exact hexact name ⟨id, score, (hr id name .exact score).mp hs⟩
  rw [reply_eq hoffered hfound, answerOf_of_not_exact hother]
  unfold positionOrFragment
  rw [hre]

theorem selected {candidate : FileCandidate F}
    (h : resolveClarificationReply db sqrt ratio offered candidates reply =
      .ok (some candidate)) :
    (∃ position name, Points db sqrt ratio offered candidates reply position ∧
      offered[position - 1]? = some name ∧ byName candidates name = some candidate) ∨
    ∃ name, Names db sqrt ratio offered candidates reply name ∧
      byName candidates name = some candidate := by
  obtain ⟨found, hfound, hr⟩ := resolution_ok db sqrt ratio offered candidates reply
  have hoffered : offered.isEmpty = false := by
    by_contra hempty
    rw [resolveClarificationReply, if_pos ((Bool.not_eq_false _).mp hempty)] at h
    cases h
  rw [reply_eq hoffered hfound] at h
  by_cases hexact : ∃ id name score, found = some (.resolvedFile id name .exact score)
  · obtain ⟨id, name, score, rfl⟩ := hexact
    exact Or.inr ⟨name, Or.inl ⟨id, score, (hr id name .exact score).mp rfl⟩,
      named_eq_ok h⟩
  · have hother : ∀ id name score, found ≠ some (.resolvedFile id name .exact score) := by
      intro id name score hs
      exact hexact ⟨id, name, score, hs⟩
    rw [answerOf_of_not_exact hother] at h
    unfold positionOrFragment at h
    cases hrd : readOrdinal db reply offered.length with
    | error e =>
      rw [hrd] at h
      cases h
    | ok read =>
      rw [hrd] at h
      cases read with
      | some position =>
        obtain ⟨name, hname, hbears⟩ := Option.bind_eq_some_iff.mp (Except.ok.inj h)
        refine Or.inl ⟨position, name, ⟨hrd, fun other hre => ?_⟩, hname, hbears⟩
        obtain ⟨id, score, hok⟩ := hre
        exact hother id other score ((hr id other .exact score).mpr hok)
      | none =>
        simp only at h
        split at h
        · next id' name method score =>
          exact Or.inr ⟨name, Or.inr ⟨hrd, method, id', score,
            (hr id' name method score).mp rfl⟩, named_eq_ok h⟩
        · cases h

theorem reply_of_names {name : Text}
    (h : Names db sqrt ratio offered candidates reply name) :
    ∃ candidate, byName candidates name = some candidate ∧
      resolveClarificationReply db sqrt ratio offered candidates reply =
        .ok (some candidate) := by
  obtain ⟨found, hfound, hr⟩ := resolution_ok db sqrt ratio offered candidates reply
  rcases h with hexact | ⟨hre, method, hf⟩
  · obtain ⟨candidate, hbears⟩ := byName_of_resolves hexact
    refine ⟨candidate, hbears, ?_⟩
    rw [reply_eq (resolves_ne_nil hexact) hfound]
    obtain ⟨id, score, hok⟩ := hexact
    rw [(hr id name .exact score).mpr hok, answerOf, named, hbears]
  · obtain ⟨candidate, hbears⟩ := byName_of_resolves hf
    refine ⟨candidate, hbears, ?_⟩
    rw [reply_eq (resolves_ne_nil hf) hfound]
    obtain ⟨id, score, hok⟩ := hf
    have hs := (hr id name method score).mpr hok
    have hname : named candidates name = .ok (some candidate) := by rw [named, hbears]
    cases method with
    | exact => rw [hs, answerOf, hname]
    | fuzzy => simp only [hs, answerOf, positionOrFragment, hre, hname]
    | semantic => simp only [hs, answerOf, positionOrFragment, hre, hname]

end Spec

section Offer

variable (db : UnicodeDatabase) (sqrt : F → F) (ratio : Text → Text → F)
  (shown candidates : List (FileCandidate F))

def names : List Text := shown.map FileCandidate.fileName

structure SelectsShown : Prop where
  shown_there : ∀ reply position document,
    Points db sqrt ratio (names shown) candidates reply position →
    shown[position - 1]? = some document →
    ∃ chosen, resolveClarificationReply db sqrt ratio (names shown) candidates reply =
      .ok chosen ∧ chosen.map FileCandidate.documentId = stillThere candidates document
  distinct : ∀ reply reply' position position' chosen chosen',
    Points db sqrt ratio (names shown) candidates reply position →
    Points db sqrt ratio (names shown) candidates reply' position' → position ≠ position' →
    resolveClarificationReply db sqrt ratio (names shown) candidates reply = .ok (some chosen) →
    resolveClarificationReply db sqrt ratio (names shown) candidates reply' = .ok (some chosen') →
    chosen.documentId ≠ chosen'.documentId
  offered_only : ∀ reply chosen,
    resolveClarificationReply db sqrt ratio (names shown) candidates reply = .ok (some chosen) →
    chosen.documentId ∈ shown.map FileCandidate.documentId

/-- The names that replies can refer to still stand for what was shown. -/
structure NamesStand : Prop where
  pointed : ∀ reply position document,
    Points db sqrt ratio (names shown) candidates reply position →
    shown[position - 1]? = some document → Kept candidates document
  named : ∀ reply name bearer, Names db sqrt ratio (names shown) candidates reply name →
    LastBearer candidates name bearer → bearer.documentId ∈ shown.map FileCandidate.documentId

variable [IsStrictOrderedRing F] {db sqrt ratio shown candidates}

theorem reply_shown {reply : Text} {position : ℕ}
    (h : Points db sqrt ratio (names shown) candidates reply position) :
    ∃ document, shown[position - 1]? = some document ∧
      resolveClarificationReply db sqrt ratio (names shown) candidates reply =
        .ok (byName candidates document.fileName) := by
  have hr := readOrdinal_range h.1
  rw [names, List.length_map] at hr
  have hlt : position - 1 < shown.length := by omega
  refine ⟨shown[position - 1], List.getElem?_eq_getElem hlt, ?_⟩
  rw [reply_of_points h, names, List.getElem?_map, List.getElem?_eq_getElem hlt]
  rfl

omit [Field F] [LinearOrder F] [IsStrictOrderedRing F] in
theorem kept_id {document chosen : FileCandidate F} (hkept : Kept candidates document)
    (hbears : byName candidates document.fileName = some chosen) :
    chosen.documentId = document.documentId := by
  have hthere := byName_shown_iff.mpr hkept
  rw [hbears, Option.map_some, stillThere] at hthere
  split_ifs at hthere with hmem
  exact Option.some.inj hthere

/-- Replies select what was shown exactly where the names they refer to still stand for it. -/
theorem selectsShown_iff (hdistinct : (shown.map FileCandidate.documentId).Nodup) :
    SelectsShown db sqrt ratio shown candidates ↔ NamesStand db sqrt ratio shown candidates := by
  constructor
  · intro h
    refine ⟨fun reply position document hp hat => ?_, fun reply name bearer hn hlast => ?_⟩
    · obtain ⟨chosen, hc, hid⟩ := h.shown_there reply position document hp hat
      obtain ⟨other, hother, hre⟩ := reply_shown hp
      obtain rfl : document = other := Option.mem_unique hat hother
      rw [hre] at hc
      cases hc
      exact byName_shown_iff.mp hid
    · obtain ⟨candidate, hbears, hre⟩ := reply_of_names hn
      have hs := hbears.symm.trans (byName_eq_some_iff.mpr hlast)
      rw [← Option.some.inj hs]
      exact h.offered_only reply candidate hre
  · intro h
    refine ⟨fun reply position document hp hat => ?_,
      fun reply reply' position position' chosen chosen' hp hpo hne hok hok' => ?_,
      fun reply chosen hok => ?_⟩
    · obtain ⟨other, hother, hre⟩ := reply_shown hp
      obtain rfl : document = other := Option.mem_unique hat hother
      exact ⟨_, hre, byName_shown_iff.mpr (h.pointed reply position document hp hat)⟩
    · obtain ⟨document, hat, hre⟩ := reply_shown hp
      obtain ⟨document', hat', hr⟩ := reply_shown hpo
      have hid := kept_id (h.pointed reply position document hp hat)
        (Except.ok.inj (hre.symm.trans hok))
      have hid' := kept_id (h.pointed reply' position' document' hpo hat')
        (Except.ok.inj (hr.symm.trans hok'))
      have hra := readOrdinal_range hp.1
      have hrange' := readOrdinal_range hpo.1
      rw [hid, hid']
      intro hs
      have hlt : position - 1 < (shown.map FileCandidate.documentId).length := by
        rw [List.length_map]
        exact (List.getElem?_eq_some_iff.mp hat).1
      have hids : (shown.map FileCandidate.documentId)[position - 1]? =
          (shown.map FileCandidate.documentId)[position' - 1]? := by
        rw [List.getElem?_map, List.getElem?_map, hat, hat', Option.map_some, Option.map_some,
          hs]
      have hi := (List.getElem?_inj hlt hdistinct).mp hids
      omega
    · rcases selected hok with ⟨position, name, hp, hname, hbears⟩ | ⟨name, hn, hbears⟩
      · obtain ⟨document, hat, hre⟩ := reply_shown hp
        have hid := kept_id (h.pointed reply position document hp hat)
          (Except.ok.inj (hre.symm.trans hok))
        rw [hid]
        exact List.mem_map_of_mem (List.mem_of_getElem? hat)
      · exact h.named reply name chosen hn (byName_eq_some_iff.mp hbears)

end Offer

section Namesakes

def signed : FileCandidate ℚ := ⟨"d-1", ofString "contract.pdf", none⟩

def draft : FileCandidate ℚ := ⟨"d-2", ofString "contract.pdf", none⟩

/-- Of two documents of one name the first position picks the second. -/
theorem first_namesake_lost :
    ¬ SelectsShown plainTables id (fun _ _ => 0) [signed, draft] [signed, draft] := by
  intro h
  have hp : Points plainTables id (fun _ _ => (0 : ℚ)) (names [signed, draft])
      [signed, draft] (ofString "1") 1 := by
    refine ⟨rfl, fun name hr => ?_⟩
    obtain ⟨id, score, hok⟩ := hr
    obtain ⟨chosen, -, -, -, hexact⟩ := resolveFile_justified hok
    cases hexact
  obtain ⟨chosen, hc, hid⟩ := h.shown_there _ 1 signed hp rfl
  obtain ⟨document, hat, hre⟩ := reply_shown hp
  cases hat
  rw [hre] at hc
  cases hc
  exact absurd hid (by decide)

theorem selectsShown_iff_contracts :
    SelectsShown plainTables id (fun _ _ => 0) [signed, draft] [draft] ↔
      NamesStand plainTables id (fun _ _ => 0) [signed, draft] [draft] :=
  selectsShown_iff (by decide)

end Namesakes

end Aizzak.ClarificationReplies
