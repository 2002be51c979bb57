import Aizzak.IdentifierParsers

/-!
What the parser finds is what the recogniser of its kind finds on the canonical form, which it
keeps. The text adds issues only, and none where it is plain.
-/
namespace Aizzak.ParserResults

open BacktrackingPatterns PyText Normalization IdentifierParsers

theorem mem_dedupe {key : Text} {keys : List Text} :
    key ∈ dedupe keys ↔ key ∈ keys ∧ key ≠ [] := by
  rw [dedupe, List.mem_eraseDups, List.mem_filter, decide_eq_true_eq]

section Recognisers

variable {α : Type} {kind : IdentifierKind} {rules : IdentifierRules} {text : Text}
  {forms : NormalizedForms} {found : ParsedIdentifier}
  {recogniser : NormalizedForms → Option ParsedIdentifier}

def Fills (kind : IdentifierKind) (fill : NormalizedForms → ParsedIdentifier) : Prop :=
  ∀ forms, (fill forms).kind = kind ∧ (fill forms).forms.canonical = forms.canonical ∧
    ∀ other, fill other = { fill forms with forms := (fill other).forms }

/-- What is found hangs on the text alone. -/
def Recognises (kind : IdentifierKind)
    (recogniser : NormalizedForms → Option ParsedIdentifier) : Prop :=
  ∃ found : Option (NormalizedForms → ParsedIdentifier),
    (∀ forms, recogniser forms = found.map (· forms)) ∧ ∀ fill ∈ found, Fills kind fill

theorem Recognises.spec (h : Recognises kind recogniser) (hfo : recogniser forms = some found) :
    found.kind = kind ∧ found.forms.canonical = forms.canonical ∧
      ∀ other, ∃ found', recogniser other = some found' ∧
        found' = { found with forms := found'.forms } := by
  obtain ⟨fill, heq, hf⟩ := h
  rw [heq] at hfo
  obtain ⟨fill, rfl, rfl⟩ := Option.map_eq_some_iff.mp hfo
  obtain ⟨hk, hc, ho⟩ := hf fill rfl forms
  exact ⟨hk, hc, fun other => ⟨fill other, heq other, ho other⟩⟩

theorem recognises_none : Recognises kind fun _ => none := ⟨none, fun _ => rfl, nofun⟩

theorem recognises_some {fill : NormalizedForms → ParsedIdentifier} (h : Fills kind fill) :
    Recognises kind fun forms => some (fill forms) :=
  ⟨some fill, fun _ => rfl, by rintro _ ⟨⟩; exact h⟩

theorem recognises_map {read : Option α} {fill : α → NormalizedForms → ParsedIdentifier}
    (h : ∀ a, Fills kind (fill a)) :
    Recognises kind fun forms => read.map fun a => fill a forms := by
  cases read with
  | none => exact recognises_none
  | some a => exact recognises_some (h a)

theorem recognises_bind {read : Option α}
    {recogniser : α → NormalizedForms → Option ParsedIdentifier}
    (h : ∀ a, Recognises kind (recogniser a)) :
    Recognises kind fun forms => read.bind fun a => recogniser a forms := by
  cases read with
  | none => exact recognises_none
  | some a => exact h a

theorem recognises_ite {p : Prop} [Decidable p]
    {recogniser' : NormalizedForms → Option ParsedIdentifier} (h : Recognises kind recogniser)
    (h' : Recognises kind recogniser') :
    Recognises kind fun forms => if p then recogniser forms else recogniser' forms := by
  by_cases hp : p
  · simpa only [if_pos hp] using h
  · simpa only [if_neg hp] using h'

theorem recognises_tia : Recognises .plcAddress (tia text) := by
  unfold tia
  cases tiaPattern.fullMatch text with
  | none =>
    refine recognises_ite ?_ recognises_none
    exact recognises_some fun _ => ⟨rfl, rfl, fun _ => rfl⟩
  | some caught =>
    refine recognises_ite ?_ (recognises_ite ?_ ?_)
    all_goals exact recognises_some fun _ => ⟨rfl, rfl, fun _ => rfl⟩

theorem recognises_s7200 {caught : Caught} :
    Recognises .plcAddress (s7200 · caught) := by
  unfold s7200
  cases caught.lookup .aarea with
  | none =>
    refine recognises_ite recognises_none ?_
    exact recognises_some fun _ => ⟨rfl, rfl, fun _ => rfl⟩
  | some area => exact recognises_some fun _ => ⟨rfl, rfl, fun _ => rfl⟩

theorem recognises_classic {family : PlcFamily} {toEnglish : Text → Text} {caught : Caught} :
    Recognises .plcAddress (classic · family toEnglish caught) := by
  unfold classic
  cases caught.lookup .parea with
  | none =>
    refine recognises_ite recognises_none ?_
    exact recognises_some fun _ => ⟨rfl, rfl, fun _ => rfl⟩
  | some parea => exact recognises_some fun _ => ⟨rfl, rfl, fun _ => rfl⟩

theorem recognises_plcAddress : Recognises .plcAddress (parsePlcAddress rules text) := by
  unfold parsePlcAddress
  refine recognises_ite (recognises_ite recognises_tia recognises_none) ?_
  cases rules.enabledMatch .s7Db dbPattern text with
  | some caught => exact recognises_some fun _ => ⟨rfl, rfl, fun _ => rfl⟩
  | none =>
    cases rules.enabledMatch .s7200 s7200Pattern text with
    | some caught => exact recognises_s7200
    | none =>
      cases rules.enabledMatch .s7En enPattern text with
      | some caught => exact recognises_classic
      | none => exact recognises_bind fun _ => recognises_classic

theorem recognises_crossReference :
    Recognises .crossReference (parseCrossReference rules text) :=
  recognises_map fun _ _ => ⟨rfl, rfl, fun _ => rfl⟩

theorem recognises_voltage : Recognises .voltage (parseVoltage rules text) :=
  recognises_ite (recognises_some fun _ => ⟨rfl, rfl, fun _ => rfl⟩) recognises_none

theorem recognises_bridge : Recognises .bridge (parseBridge rules text) := by
  unfold parseBridge
  refine recognises_ite recognises_none (recognises_bind fun left => ?_)
  exact recognises_ite recognises_none (recognises_some fun _ => ⟨rfl, rfl, fun _ => rfl⟩)

theorem recognises_terminal : Recognises .terminal (parseTerminal rules text) := by
  unfold parseTerminal
  refine recognises_ite recognises_none (recognises_bind fun found => ?_)
  exact recognises_ite recognises_none (recognises_some fun _ => ⟨rfl, rfl, fun _ => rfl⟩)

theorem recognises_referenceDesignation :
    Recognises .referenceDesignation (parseReferenceDesignation rules text) := by
  unfold parseReferenceDesignation
  refine recognises_ite recognises_none (recognises_bind fun chain => ?_)
  exact recognises_map fun _ _ => ⟨rfl, rfl, fun _ => rfl⟩

theorem recognises_letterCode : Recognises .letterCode (parseLetterCode rules text) := by
  unfold parseLetterCode
  cases (lettersFirst rules.connectionPointSeparator).fullMatch text with
  | some caught => exact recognises_map fun _ _ => ⟨rfl, rfl, fun _ => rfl⟩
  | none => exact recognises_bind fun _ => recognises_map fun _ _ => ⟨rfl, rfl, fun _ => rfl⟩

theorem recognises_wireNumber : Recognises .wireNumber (parseWireNumber rules text) :=
  recognises_map fun _ _ => ⟨rfl, rfl, fun _ => rfl⟩

theorem recognises_connectionPoint :
    Recognises .connectionPoint (parseConnectionPoint rules text) :=
  recognises_map fun _ _ => ⟨rfl, rfl, fun _ => rfl⟩

/-- Every recogniser finds its own kind. -/
theorem recognises_of_order {entry : IdentifierKind ×
    (IdentifierRules → Text → NormalizedForms → Option ParsedIdentifier)}
    (he : entry ∈ order) : Recognises entry.1 (entry.2 rules text) := by
  simp only [order, List.mem_cons, List.not_mem_nil, or_false] at he
  rcases he with rfl | rfl | rfl | rfl | rfl | rfl | rfl | rfl | rfl
  · exact recognises_plcAddress
  · exact recognises_crossReference
  · exact recognises_voltage
  · exact recognises_bridge
  · exact recognises_terminal
  · exact recognises_referenceDesignation
  · exact recognises_letterCode
  · exact recognises_wireNumber
  · exact recognises_connectionPoint

end Recognisers

section Results

variable {u : Unicode} {rules : IdentifierRules} {text : Text} {hint : Option IdentifierKind}
  {found : ParsedIdentifier} {forms forms' : NormalizedForms}

theorem flagText_spec (found : ParsedIdentifier) (issues : List String) :
    (flagText found issues).kind = found.kind ∧ (flagText found issues).forms = found.forms ∧
      (flagText found issues).plc = found.plc ∧
        ((flagText found issues).valid = true → found.valid = true) := by
  unfold flagText
  split_ifs
  · exact ⟨rfl, rfl, rfl, id⟩
  · exact ⟨rfl, rfl, rfl, fun h => ((Bool.and_eq_true _ _).mp h).1⟩

/-- The result is that of some recogniser, with the text's issues. -/
theorem first_eq_some (h : first u rules forms hint text = some found) :
    ∃ entry ∈ order, (∀ kind ∈ hint, kind = entry.1) ∧
      ∃ inner, entry.2 rules forms.canonical forms = some inner ∧
        found = flagText inner (textIssues u text) := by
  obtain ⟨inner, hi, rfl⟩ := Option.map_eq_some_iff.mp h
  obtain ⟨entry, he, hp⟩ := List.exists_of_findSome?_eq_some hi
  dsimp only at hp
  split_ifs at hp with ho
  refine ⟨entry, he, fun kind hk => ?_, inner, hp, rfl⟩
  by_contra hne
  exact ho ((Option.any_eq_true _ _).mpr ⟨kind, hk, decide_eq_true hne⟩)

def search (rules : IdentifierRules) (hint : Option IdentifierKind) (forms : NormalizedForms)
    (entries : List (IdentifierKind ×
      (IdentifierRules → Text → NormalizedForms → Option ParsedIdentifier))) :
    Option ParsedIdentifier :=
  entries.findSome? fun (kind, parse) =>
    if hint.any (· ≠ kind) then none else parse rules forms.canonical forms

theorem first_eq : first u rules forms hint text =
    (search rules hint forms order).map (flagText · (textIssues u text)) := rfl

/-- A search on the same canonical form finds the same, but for the keys. -/
theorem search_again (hc : forms'.canonical = forms.canonical)
    {entries : List (IdentifierKind ×
      (IdentifierRules → Text → NormalizedForms → Option ParsedIdentifier))}
    (he : ∀ entry ∈ entries, entry ∈ order)
    (h : search rules hint forms entries = some found) :
    ∃ found', search rules hint forms' entries = some found' ∧
      found' = { found with forms := found'.forms } := by
  induction entries with
  | nil => cases h
  | cons entry entries ih =>
    obtain ⟨hen, hrs⟩ := List.forall_mem_cons.mp he
    obtain ⟨kind, recogniser⟩ := entry
    have hr : Recognises kind (recogniser rules forms.canonical) :=
      recognises_of_order hen
    unfold search at h ih ⊢
    rw [List.findSome?_cons] at h ⊢
    rw [hc] at ih ⊢
    dsimp only at h ⊢
    split_ifs at h ⊢ with ho
    · exact ih hrs h
    cases hrd : recogniser rules forms.canonical forms with
    | some inner =>
      rw [hrd] at h
      cases h
      obtain ⟨-, -, ha⟩ := hr.spec hrd
      obtain ⟨inner', hi, hs⟩ := ha forms'
      rw [hi]
      exact ⟨inner', rfl, hs⟩
    | none =>
      rw [hrd] at h
      have hn : recogniser rules forms.canonical forms' = none := by
        cases hre : recogniser rules forms.canonical forms' with
        | none => rfl
        | some inner =>
          obtain ⟨inner', hi, -⟩ := (hr.spec hre).2.2 forms
          rw [hrd] at hi
          cases hi
      rw [hn]
      exact ih hrs h

theorem first_again (hc : forms'.canonical = forms.canonical) {text' : Text}
    (h : first u rules forms hint text = some found) :
    ∃ found', first u rules forms' hint text' = some found' ∧ found'.kind = found.kind := by
  obtain ⟨inner, hin, rfl⟩ := Option.map_eq_some_iff.mp h
  obtain ⟨inner', hi, hs⟩ := search_again hc (fun _ => id) hin
  refine ⟨flagText inner' (textIssues u text'), ?_, ?_⟩
  · rw [first_eq, hi, Option.map_some]
  · rw [(flagText_spec inner' _).1, (flagText_spec inner _).1, hs]

/-- A valid identifier was recognised in its ASCII form. -/
theorem parse_valid (h : parse u rules text hint = some found) (hv : found.valid = true) :
    IsAscii (canonicalForm u text) ∧ (canonicalForm u text).length ≤ maxTextChars ∧
      ∃ entry ∈ order, (∀ kind ∈ hint, kind = entry.1) ∧
        ∃ inner, entry.2 rules (canonicalForm u text) (normalize u text) = some inner ∧
          inner.kind = entry.1 ∧ inner.valid = true ∧
            found = flagText inner (textIssues u text) := by
  unfold parse at h
  split_ifs at h with hb
  dsimp only at h
  split_ifs at h with hl ha
  · obtain ⟨hle, -⟩ := not_or.mp hl
    obtain ⟨entry, he, hh, inner, hi, rfl⟩ := first_eq_some h
    exact ⟨ha, Nat.le_of_not_lt hle, entry, he, hh, inner, hi,
      ((recognises_of_order he).spec hi).1, (flagText_spec inner _).2.2.2 hv, rfl⟩
  · unfold parseNonAscii at h
    dsimp only at h
    split_ifs at h
    obtain ⟨inner, -, rfl⟩ := Option.map_eq_some_iff.mp h
    cases hv

/-- The recogniser of each kind is tried once. -/
theorem eq_of_kind {entry entry' : IdentifierKind ×
    (IdentifierRules → Text → NormalizedForms → Option ParsedIdentifier)}
    (hen : entry ∈ order) (he : entry' ∈ order) (hk : entry.1 = entry'.1) :
    entry = entry' := by
  have hn : (order.map Prod.fst).Nodup := by decide
  exact List.inj_on_of_nodup_map hn hen he hk

theorem parse_valid_of_kind
    {recogniser : IdentifierRules → Text → NormalizedForms → Option ParsedIdentifier}
    (hmem : (found.kind, recogniser) ∈ order) (h : parse u rules text hint = some found)
    (hv : found.valid = true) :
    ∃ inner, recogniser rules (canonicalForm u text) (normalize u text) = some inner ∧
      inner.valid = true ∧ found = flagText inner (textIssues u text) := by
  obtain ⟨-, -, entry, he, -, inner, hi, hk, hinnerValid, rfl⟩ := parse_valid h hv
  have hs := eq_of_kind hmem he ((flagText_spec inner _).1.trans hk)
  rw [← hs] at hi
  exact ⟨inner, hi, hinnerValid, rfl⟩

theorem parse_of_plain (hp : ∀ c ∈ text, IsPlain c) (hl : text.length ≤ maxTextChars)
    (hal : text.any asciiAlnum = true) :
    parse u rules text none =
      order.findSome? fun entry => entry.2 rules text (normalize u text) := by
  have ha : IsAscii text := fun c hc => by
    have := (hp c hc).2
    omega
  obtain ⟨c, hc, hcl⟩ := List.any_eq_true.mp hal
  have hb : ¬ Blank text := by
    intro hb
    have hsp := hb c hc
    have hcp := hp c hc
    simp only [IsPlain] at hcp
    simp only [PyText.isSpace, isSpaceCode, Bool.or_eq_true, Bool.and_eq_true, decide_eq_true_eq,
      beq_iff_eq] at hsp
    omega
  have ht : text.any u.isAlnum = true :=
    List.any_eq_true.mpr ⟨c, hc, by rwa [u.isAlnum_ascii c (ha c hc)]⟩
  have hs := Nat.not_lt.mpr hl
  have hi := textIssues_of_isPlain (u := u) hp
  have hca : (normalize u text).canonical = text := canonicalForm_of_isPlain hp
  rw [parse, if_neg (not_or.mpr ⟨hb, hs⟩)]
  simp only [hca, hs, ht, ha, Bool.true_eq_false, or_self,
    not_true_eq_false, if_false, first, hi, Option.any_none, Bool.false_eq_true]
  have hf : (fun found => flagText found []) = id := rfl
  rw [hf, Option.map_id, id_eq]

end Results

end Aizzak.ParserResults
