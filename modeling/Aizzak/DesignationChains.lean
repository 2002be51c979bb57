import Aizzak.DigitRuns
import Aizzak.RuleFiles

/-!
The aspect chain of a reference designation. No symbol of a sign is one of a code, so a chain is
cut into its elements in one way, and the scanner finds it although its signs begin with one
another.
-/
namespace Aizzak.DesignationChains

open BacktrackingPatterns Pattern PyText Normalization IdentifierParsers DigitRuns RuleFiles List

section Elements

variable {signs : List Text} {text rest : Text} {a b : Aspect} {elements : List Aspect}
  {way : Way CodePoint Group}

def isCodeSymbol (c : CodePoint) : Bool := isAsciiUpper c || isAsciiDigit c || c.val = 0x5F

structure IsElement (signs : List Text) (a : Aspect) : Prop where
  sign : a.sign ∈ signs
  code : a.code ≠ []
  symbols : ∀ c ∈ a.code, isCodeSymbol c = true

def spelled (elements : List Aspect) : Text := elements.flatMap fun a => a.sign ++ a.code

/-- A code goes as far as it can. -/
theorem front_of_matchFront (h : (element signs).matchFront text = some way) :
    ∃ a, IsElement signs a ∧ text = a.sign ++ (a.code ++ way.left) ∧
      (∀ c ∈ way.left.head?, isCodeSymbol c = false) ∧
        textOf way.caught .sign = a.sign ∧ textOf way.caught .code = a.code := by
  obtain ⟨v, hv, w, hw, rfl⟩ := matchFront_seq h
  obtain ⟨sign, ⟨c, hc, hca⟩, rfl⟩ := reads_of_ways hv
  obtain ⟨hsign, rfl⟩ := reads_anyOf.mp hc
  obtain ⟨code, hl, hsome, hs, hr, hcode⟩ := matchFront_group_oneOrMore_one hw
  refine ⟨⟨sign, code⟩, ⟨(mem_insertionSort _).mp hsign, hsome, hs⟩, ?_, hr, ?_, ?_⟩
  · rw [hl]
    rfl
  · rw [Way.next, hca, hcode]
    rfl
  · rw [Way.next, hca, hcode]
    rfl

theorem isSome_matchFront (ha : IsElement signs a) (rest : Text) :
    ((element signs).matchFront (a.sign ++ (a.code ++ rest))).isSome = true := by
  have hr : (element signs).Reads (a.sign ++ a.code) [(.sign, a.sign), (.code, a.code)] := by
    refine ⟨a.sign, [(.sign, a.sign)], a.code, [(.code, a.code)], ⟨[], ?_, rfl⟩, ⟨[], ?_, rfl⟩,
      rfl, rfl⟩
    · exact reads_anyOf.mpr ⟨(mem_insertionSort _).mpr ha.sign, rfl⟩
    · exact reads_oneOrMore_one.mpr ⟨rfl, ha.code, ha.symbols⟩
  rw [← append_assoc]
  exact matchFront_of_reads hr

theorem isCodeSymbol_of_mem {c : CodePoint} (h : c ∈ aspectChars) : isCodeSymbol c = false := by
  have hall : aspectChars.all (fun c => !isCodeSymbol c) = true := by decide
  have hc := all_eq_true.mp hall c h
  rwa [Bool.not_eq_true'] at hc

variable (hsigns : ∀ sign ∈ signs, IsSign sign)
include hsigns

theorem IsElement.head (ha : IsElement signs a) :
    ∀ c ∈ (a.sign ++ rest).head?, isCodeSymbol c = false := by
  obtain ⟨hsome, hs⟩ := hsigns a.sign ha.sign
  cases hsign : a.sign with
  | nil => exact absurd hsign hsome
  | cons c sign =>
    rintro d ⟨⟩
    exact isCodeSymbol_of_mem (hs c (hsign ▸ mem_cons_self))

theorem head_spelled (helements : ∀ a ∈ elements, IsElement signs a) :
    ∀ c ∈ (spelled elements).head?, isCodeSymbol c = false := by
  cases elements with
  | nil => nofun
  | cons a elements =>
    rw [spelled, flatMap_cons, append_assoc]
    exact (helements a mem_cons_self).head hsigns

theorem IsElement.append_inj {rest' : Text} (ha : IsElement signs a) (hb : IsElement signs b)
    (hre : ∀ c ∈ rest.head?, isCodeSymbol c = false)
    (hr : ∀ c ∈ rest'.head?, isCodeSymbol c = false)
    (h : a.sign ++ (a.code ++ rest) = b.sign ++ (b.code ++ rest')) : a = b ∧ rest = rest' := by
  have hs : ∀ {d}, IsElement signs d → ∀ c ∈ d.sign, (!isCodeSymbol c) = true := by
    intro d hd c hc
    rw [isCodeSymbol_of_mem ((hsigns d.sign hd.sign).2 c hc)]
    rfl
  have hcode : ∀ {d : Aspect} {tail}, IsElement signs d →
      ∀ c ∈ (d.code ++ tail).head?, (!isCodeSymbol c) = false := by
    intro d tail hd
    cases hdc : d.code with
    | nil => exact absurd hdc hd.code
    | cons c code =>
      rintro e ⟨⟩
      rw [hd.symbols c (hdc ▸ mem_cons_self)]
      rfl
  obtain ⟨hsign, haf⟩ :=
    append_inj_of_head (hs ha) (hcode ha) (hs hb) (hcode hb) h
  obtain ⟨hco, ht⟩ := append_inj_of_head ha.symbols hre hb.symbols hr haf
  cases a
  cases b
  exact ⟨by simp_all, ht⟩

/-- The scanner finds the elements of a chain. -/
theorem aspectsOf_spelled (helements : ∀ a ∈ elements, IsElement signs a) {fuel : ℕ}
    (hfu : (spelled elements).length ≤ fuel) :
    aspectsOf (element signs) fuel (spelled elements) = (elements, []) := by
  induction elements generalizing fuel with
  | nil => cases fuel <;> rfl
  | cons a elements ih =>
    obtain ⟨ha, hr⟩ := forall_mem_cons.mp helements
    have htext : spelled (a :: elements) = a.sign ++ (a.code ++ spelled elements) := by
      rw [spelled, flatMap_cons, append_assoc]
      rfl
    obtain ⟨way, hway⟩ := Option.isSome_iff_exists.mp
      (isSome_matchFront ha (spelled elements))
    obtain ⟨b, hb, heq, hl, hsign, hcode⟩ := front_of_matchFront hway
    obtain ⟨rfl, haf⟩ :=
      ha.append_inj hsigns hb (head_spelled hsigns hr) hl heq
    obtain ⟨first, front, hf⟩ := exists_cons_of_ne_nil (hsigns a.sign ha.sign).1
    rw [htext, hf, cons_append, length_cons, length_append,
      length_append] at hfu
    cases fuel with
    | zero => exact absurd hfu (Nat.not_succ_le_zero _)
    | succ fuel =>
      rw [htext, hf, cons_append, aspectsOf, ← cons_append, ← hf, hway]
      dsimp only
      rw [← haf, ih hr (by omega), hsign, hcode]

omit hsigns in
/-- What the scanner finds are elements, and all of the text unless it says that it is not. -/
theorem aspectsOf_sound {fuel : ℕ} {issues : List String}
    (h : aspectsOf (element signs) fuel text = (elements, issues)) :
    (∀ a ∈ elements, IsElement signs a) ∧ (issues = [] → text = spelled elements) := by
  induction fuel generalizing text elements issues with
  | zero =>
    cases text with
    | nil =>
      obtain ⟨rfl, rfl⟩ := Prod.mk.inj h
      exact ⟨by simp, fun _ => rfl⟩
    | cons c text =>
      obtain ⟨rfl, rfl⟩ := Prod.mk.inj h
      exact ⟨by simp, nofun⟩
  | succ fuel ih =>
    cases text with
    | nil =>
      obtain ⟨rfl, rfl⟩ := Prod.mk.inj h
      exact ⟨by simp, fun _ => rfl⟩
    | cons c text =>
      rw [aspectsOf] at h
      cases hway : (element signs).matchFront (c :: text) with
      | none =>
        rw [hway] at h
        obtain ⟨rfl, rfl⟩ := Prod.mk.inj h
        exact ⟨by simp, nofun⟩
      | some way =>
        obtain ⟨a, ha, htext, -, hsign, hcode⟩ := front_of_matchFront hway
        cases hlater : aspectsOf (element signs) fuel way.left with
        | mk later problems =>
        obtain ⟨helements, hall⟩ := ih hlater
        rw [hway] at h
        dsimp only at h
        rw [hlater] at h
        obtain ⟨rfl, rfl⟩ := Prod.mk.inj h
        rw [hsign, hcode]
        refine ⟨forall_mem_cons.mpr ⟨ha, helements⟩, fun hnone => ?_⟩
        rw [htext, spelled, flatMap_cons, append_assoc, hall hnone]
        rfl

end Elements

section Designations

variable {u : Unicode} {compile : Text → Option Pat} {data : DrawingProfiles.Fields}
  {rules : IdentifierRules} {text : Text} {forms : NormalizedForms} {found : ParsedIdentifier}
  {chain : Chain}

def IsPoint (label : Text) : Prop :=
  1 ≤ label.length ∧ label.length ≤ 6 ∧ ∀ c ∈ label, (isAsciiUpper c || isAsciiDigit c) = true

theorem isValidLabel_iff {label : Text} : isValidLabel label = true ↔ IsPoint label := by
  rw [isValidLabel, fullMatch_isSome_iff, upperOrDigit, mem_language_rep_one]
  rfl

def colon : CodePoint := 0x3A

def pointText (point : Option Text) : Text := point.elim [] fun label => colon :: label

/-- A chain of elements and at most one connection point behind it. -/
structure IsDesignation (rules : IdentifierRules) (text : Text) (elements : List Aspect)
    (point : Option Text) : Prop where
  nonempty : elements ≠ []
  valid : ∀ a ∈ elements, IsElement rules.allAspects a
  label : ∀ label ∈ point, IsPoint label
  spelling : text = spelled elements ++ pointText point

theorem colon_notMem_point {label : Text} (h : IsPoint label) : colon ∉ label := by
  intro hc
  have := h.2.2 colon hc
  revert this
  decide

theorem checkLabel_of_isPoint (hseparator : rules.connectionPointSeparator = colon) {tail : Text}
    (h : IsPoint tail) : checkLabel rules tail = (some tail, []) := by
  have hnil : tail ≠ [] := ne_nil_of_length_pos h.1
  rw [checkLabel, if_neg hnil, hseparator, if_neg (colon_notMem_point h),
    if_neg (not_not.mpr (isValidLabel_iff.mpr h))]

theorem isPoint_of_checkLabel {tail : Text} (h : (checkLabel rules tail).2 = []) :
    IsPoint tail := by
  unfold checkLabel at h
  split_ifs at h with hnil hco hl
  exact isValidLabel_iff.mp hl

variable (hsigns : ∀ sign ∈ rules.allAspects, IsSign sign)
  (hseparator : rules.connectionPointSeparator = colon)
include hsigns

theorem colon_notMem_spelled {elements : List Aspect}
    (helements : ∀ a ∈ elements, IsElement rules.allAspects a) : colon ∉ spelled elements := by
  rw [spelled, mem_flatMap]
  rintro ⟨a, ha, hc⟩
  rcases mem_append.mp hc with hsign | hcode
  · have := (hsigns a.sign (helements a ha).sign).2 colon hsign
    revert this
    decide
  · have := (helements a ha).symbols colon hcode
    revert this
    decide

omit hsigns in
theorem startsWith_iff {signs : List Text} :
    startsWith text signs = true ↔ ∃ sign ∈ signs, sign <+: text := by
  rw [startsWith, any_eq_true]
  simp only [ isPrefixOf_iff_prefix]

include hseparator

theorem startsWith_head (h : startsWith text rules.allAspects = true) :
    startsWith (text.takeWhile (· ≠ rules.connectionPointSeparator)) rules.allAspects = true := by
  obtain ⟨sign, hsign, rest, rfl⟩ := startsWith_iff.mp h
  refine startsWith_iff.mpr ⟨sign, hsign, ?_⟩
  rw [takeWhile_append_of_pos]
  · exact prefix_append _ _
  · intro c hc
    rw [hseparator]
    refine decide_eq_true ?_
    rintro rfl
    have := (hsigns sign hsign).2 colon hc
    revert this
    decide

omit hsigns hseparator in
/-- A text is cut at the first separator. -/
theorem cut_at {separator : CodePoint} {head tail : Text} (h : separator ∉ head) :
    (head ++ separator :: tail).takeWhile (· ≠ separator) = head ∧
      (head ++ separator :: tail).drop (head.length + 1) = tail := by
  have hhead : ∀ c ∈ head, decide (c ≠ separator) = true := fun c hc =>
    decide_eq_true fun heq => h (heq ▸ hc)
  have hnext : ∀ c ∈ (separator :: tail).head?, decide (c ≠ separator) = false := by
    rintro c ⟨⟩
    exact decide_eq_false (not_not.mpr rfl)
  refine ⟨takeWhile_append_of_head hhead hnext, ?_⟩
  rw [← drop_drop, drop_left]
  rfl

theorem splitChain_sound (h : splitChain rules text = some chain) (hi : chain.issues = []) :
    IsDesignation rules text chain.aspects chain.connectionPoint := by
  have he : ∀ {elements : List Aspect}, startsWith (spelled elements) rules.allAspects = true →
      elements ≠ [] := by
    rintro elements hs rfl
    obtain ⟨sign, hsign, hp⟩ := startsWith_iff.mp hs
    exact (hsigns sign hsign).1 (prefix_nil.mp hp)
  unfold splitChain at h
  dsimp only at h
  split_ifs at h with hs hco
  · rw [hseparator] at hco hs h
    obtain ⟨head, tail, rfl, hhead⟩ := eq_append_cons_of_mem hco
    obtain ⟨ht, hd⟩ := cut_at hhead
    rw [ht] at hs h
    rw [hd] at h
    cases hr : aspectsOf (element rules.allAspects) head.length head with
    | mk aspects problems =>
    obtain ⟨hv, hall⟩ := aspectsOf_sound hr
    rw [hr] at h
    cases h
    obtain ⟨hla, hnone⟩ := append_eq_nil_iff.mp hi
    have hpo := isPoint_of_checkLabel hla
    have hl := checkLabel_of_isPoint hseparator hpo
    obtain rfl := hall hnone
    refine ⟨he hs, hv, ?_, ?_⟩
    · rw [hl]
      rintro label ⟨⟩
      exact hpo
    · rw [hl]
      rfl
  · rw [hseparator] at hco hs h
    have ht : text.takeWhile (· ≠ colon) = text := by
      rw [takeWhile_eq_self_iff]
      exact fun c hc => decide_eq_true fun heq => hco (heq ▸ hc)
    rw [ht] at hs h
    cases hr : aspectsOf (element rules.allAspects) text.length text with
    | mk aspects problems =>
    obtain ⟨hv, hall⟩ := aspectsOf_sound hr
    rw [hr] at h
    cases h
    obtain rfl := hall hi
    exact ⟨he hs, hv, nofun, (append_nil _).symm⟩

theorem splitChain_complete {elements : List Aspect} {point : Option Text}
    (h : IsDesignation rules text elements point) :
    splitChain rules text = some ⟨elements, point, []⟩ := by
  have hhead := colon_notMem_spelled hsigns h.valid
  have hs : startsWith (spelled elements) rules.allAspects = true := by
    obtain ⟨a, rest, hcons⟩ := exists_cons_of_ne_nil h.nonempty
    refine startsWith_iff.mpr ⟨a.sign, (h.valid a (hcons ▸ mem_cons_self)).sign, ?_⟩
    rw [hcons, spelled, flatMap_cons, append_assoc]
    exact prefix_append _ _
  have hap := aspectsOf_spelled hsigns h.valid le_rfl
  unfold splitChain
  rw [h.spelling, hseparator]
  cases point with
  | none =>
    have ht : (spelled elements).takeWhile (· ≠ colon) = spelled elements := by
      rw [takeWhile_eq_self_iff]
      exact fun c hc => decide_eq_true fun heq => hhead (heq ▸ hc)
    rw [pointText, Option.elim_none, append_nil, ht]
    dsimp only
    rw [if_pos hs, if_neg hhead, hap]
    rfl
  | some label =>
    obtain ⟨ht, hd⟩ := @cut_at colon (spelled elements) label hhead
    have hmem : colon ∈ spelled elements ++ colon :: label := by simp
    rw [pointText, Option.elim_some, ht]
    dsimp only
    rw [if_pos hs, if_pos hmem, hd, hap,
      checkLabel_of_isPoint hseparator (h.label label rfl)]
    rfl

omit hsigns hseparator in
theorem chain_of_found (h : parseReferenceDesignation rules text forms = some found) :
    ∃ chain, splitChain rules text = some chain ∧ found.aspects = chain.aspects ∧
      found.connectionPoint = chain.connectionPoint ∧ found.issues = chain.issues ∧
        found.valid = chain.issues.isEmpty := by
  unfold parseReferenceDesignation at h
  split_ifs at h
  obtain ⟨chain, hchain, h⟩ := Option.bind_eq_some_iff.mp h
  obtain ⟨convention, -, rfl⟩ := Option.map_eq_some_iff.mp h
  exact ⟨chain, hchain, rfl, rfl, rfl, rfl⟩

omit hsigns hseparator in
theorem exists_found (forms : NormalizedForms) (hconventions : rules.conventions = Finset.univ)
    (hprose : (prose.fullMatch text).isSome = true) (hchain : splitChain rules text = some chain) :
    ∃ found, parseReferenceDesignation rules text forms = some found := by
  have hpick : pickConvention rules [.iec81346, .gbt5094] = some .iec81346 := by
    rw [pickConvention, hconventions]
    rfl
  have hsome : ¬ (prose.fullMatch text).isNone = true := by
    rw [Option.isNone_iff_eq_none, ← ne_eq, Option.ne_none_iff_isSome]
    exact hprose
  rw [parseReferenceDesignation, if_neg hsome, hchain, Option.bind_some, hpick]
  exact ⟨_, rfl⟩

omit hseparator in
/-- A designation is written in the permitted symbols. -/
theorem prose_of_isDesignation {elements : List Aspect} {point : Option Text}
    (h : IsDesignation rules text elements point) : (prose.fullMatch text).isSome = true := by
  have hsign : aspectChars.all (fun c => isAsciiUpper c || isAsciiDigit c ||
      ['_', '=', '+', '-', '&', '#', '.', ':', '/'].any fun d => c.val = d.toNat) = true := by
    decide
  rw [fullMatch_isSome_iff, prose, mem_language_oneOrMore_one]
  constructor
  · obtain ⟨a, rest, hcons⟩ := exists_cons_of_ne_nil h.nonempty
    have ha := (h.valid a (hcons ▸ mem_cons_self)).code
    rw [h.spelling, hcons, spelled, flatMap_cons]
    simp [ha]
  · rw [h.spelling, forall_mem_append, spelled, forall_mem_flatMap]
    refine ⟨fun a ha => forall_mem_append.mpr ⟨fun c hc => ?_, fun c hc => ?_⟩, ?_⟩
    · exact all_eq_true.mp hsign c ((hsigns a.sign (h.valid a ha).sign).2 c hc)
    · have hsymbol := (h.valid a ha).symbols c hc
      simp only [isCodeSymbol, Bool.or_eq_true, decide_eq_true_eq] at hsymbol
      rcases hsymbol with hletter | hline
      · rw [(Bool.or_eq_true _ _).mpr hletter, Bool.true_or]
      · simp [hline]
    · cases point with
      | none => nofun
      | some label =>
        refine forall_mem_cons.mpr ⟨by decide, fun c hc => ?_⟩
        rw [(h.label label rfl).2.2 c hc, Bool.true_or]

end Designations

section Exactness

variable {u : Unicode} {compile : Text → Option Pat} {data : DrawingProfiles.Fields}
  {rules : IdentifierRules} {text : Text} {forms : NormalizedForms}

/-- Reference designations are read exactly: those that are a chain of elements and at most one
connection point, with the elements and the point that spell the text, are valid, and any other
text of the permitted symbols that begins with a sign is found with its issues. -/
theorem designation_exact (hrules : fromMapping u compile data = .ok rules)
    (hseparator : rules.connectionPointSeparator = colon) :
    ((∃ found, parseReferenceDesignation rules text forms = some found ∧ found.valid = true) ↔
        ∃ elements point, IsDesignation rules text elements point) ∧
      (∀ found, parseReferenceDesignation rules text forms = some found → found.valid = true →
        IsDesignation rules text found.aspects found.connectionPoint) ∧
      ((prose.fullMatch text).isSome = true → startsWith text rules.allAspects = true →
        (¬ ∃ elements point, IsDesignation rules text elements point) →
          ∃ found, parseReferenceDesignation rules text forms = some found ∧
            found.valid = false ∧ found.issues ≠ []) := by
  have hac := accepted_of_fromMapping hrules
  have hsigns := hac.signs
  have hso : ∀ found, parseReferenceDesignation rules text forms = some found →
      found.valid = true → IsDesignation rules text found.aspects found.connectionPoint := by
    intro found h hv
    obtain ⟨chain, hchain, hap, hp, -, hi⟩ := chain_of_found h
    rw [hap, hp]
    exact splitChain_sound hsigns hseparator hchain (isEmpty_iff.mp (hi ▸ hv))
  refine ⟨⟨?_, ?_⟩, hso, ?_⟩
  · rintro ⟨found, h, hv⟩
    exact ⟨_, _, hso found h hv⟩
  · rintro ⟨elements, point, h⟩
    have hchain := splitChain_complete hsigns hseparator h
    obtain ⟨found, hf⟩ := exists_found forms hac.conventions
      (prose_of_isDesignation hsigns h) hchain
    obtain ⟨chain, hch, -, -, -, hv⟩ := chain_of_found hf
    obtain rfl := Option.mem_unique hchain hch
    exact ⟨found, hf, hv⟩
  · intro hprose hs hnone
    obtain ⟨chain, hchain⟩ : ∃ chain, splitChain rules text = some chain := by
      rw [splitChain]
      dsimp only
      rw [if_pos (startsWith_head hsigns hseparator hs)]
      exact ⟨_, rfl⟩
    obtain ⟨found, hf⟩ := exists_found forms hac.conventions hprose hchain
    obtain ⟨chain', hch, -, -, hi, hv⟩ := chain_of_found hf
    have hsome : chain'.issues ≠ [] := fun hnil =>
      hnone ⟨_, _, splitChain_sound hsigns hseparator hch hnil⟩
    refine ⟨found, hf, ?_, hi ▸ hsome⟩
    rw [hv, isEmpty_eq_false_iff]
    exact hsome

private def nestedSigns : DrawingProfiles.Fields :=
  let text := fun s : String => DrawingProfiles.Json.str (ofString s)
  [(ofString "version", text "1.0.0"),
    (ofString "reference_designation", .obj
      [(ofString "aspects", .list [text "=", text "+", text "-"]),
        (ofString "extra_aspects", .list [text "==", text "++"])]),
    (ofString "cn_letter_codes", .obj []), (ofString "nfpa_codes", .obj []),
    (ofString "terminals", .obj [(ofString "prefixes", .list [])]),
    (ofString "wire_numbers", .obj []), (ofString "cross_references", .obj []),
    (ofString "connection_points", .obj []),
    (ofString "voltages", .obj [(ofString "labels", .list [])])]

/-- A plant, a place within it and a device there. -/
theorem nested_signs_are_read :
    ∃ rules, fromMapping asciiUnicode (fun _ => none) nestedSigns = .ok rules ∧
      ∃ found, parseReferenceDesignation rules (ofString "==PLANT=A1+P2-K5:13")
        (normalize asciiUnicode (ofString "==PLANT=A1+P2-K5:13")) = some found ∧
          found.valid = true := by
  have hac : (fromMapping asciiUnicode (fun _ => none) nestedSigns).toOption.any
      (fun rules => rules.allAspects = ["=", "+", "-", "==", "++"].map ofString ∧
        rules.connectionPointSeparator = colon) = true := by
    decide +kernel
  obtain ⟨rules, hr, ht⟩ := (Option.any_eq_true _ _).mp hac
  obtain ⟨hap, hseparator⟩ := of_decide_eq_true ht
  have hr := DrawingProfiles.toOption_eq_some hr
  have he : ∀ sign ∈ ["=", "+", "-", "==", "++"], ∀ code ∈ ["PLANT", "A1", "P2", "K5"],
      IsElement rules.allAspects ⟨ofString sign, ofString code⟩ := by
    intro sign hsign code hcode
    have hs : ∀ code ∈ ["PLANT", "A1", "P2", "K5"],
        ofString code ≠ [] ∧ (ofString code).all isCodeSymbol = true := by
      decide
    obtain ⟨hsome, hall⟩ := hs code hcode
    exact ⟨hap ▸ mem_map_of_mem hsign, hsome, all_eq_true.mp hall⟩
  refine ⟨rules, hr, (designation_exact hr hseparator).1.mpr
    ⟨[⟨ofString "==", ofString "PLANT"⟩, ⟨ofString "=", ofString "A1"⟩,
      ⟨ofString "+", ofString "P2"⟩, ⟨ofString "-", ofString "K5"⟩], some (ofString "13"),
      cons_ne_nil _ _, ?_, ?_, by decide⟩⟩
  · simp only [forall_mem_cons]
    exact ⟨he _ (by decide) _ (by decide), he _ (by decide) _ (by decide),
      he _ (by decide) _ (by decide), he _ (by decide) _ (by decide), nofun⟩
  · rintro label ⟨⟩
    refine ⟨by decide, by decide, all_eq_true.mp ?_⟩
    decide

end Exactness

end Aizzak.DesignationChains
