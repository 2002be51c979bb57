import Aizzak.DesignationChains
import Aizzak.ParserResults
import Aizzak.RuleNarrowing

/-!
The search keys of a terminal. Every key ends with the strip, one other symbol and the point, so
two terminals meet under a key exactly when strip and point agree behind their leading zeros.
-/
namespace Aizzak.TerminalKeys

open BacktrackingPatterns Pattern PyText Normalization IdentifierParsers DigitRuns RuleFiles List
  DesignationChains ParserResults RuleNarrowing

section Written

variable {key strip point strip' point' : Text}

def isPartSymbol (c : CodePoint) : Bool := isAsciiUpper c || isAsciiDigit c

def IsPart (part : Text) : Prop := part ≠ [] ∧ ∀ c ∈ part, isPartSymbol c = true

structure Written (key strip point : Text) : Prop where
  left : IsPart strip
  right : IsPart point
  spelling : ∃ front glue, key = front ++ (strip ++ glue :: point) ∧ isPartSymbol glue = false ∧
    ∀ c ∈ front.getLast?, isPartSymbol c = false

/-- A text ends so in one way. -/
theorem Written.unique (h : Written key strip point) (h' : Written key strip' point') :
    strip = strip' ∧ point = point' := by
  obtain ⟨front, glue, hkey, hglue, hfr⟩ := h.spelling
  obtain ⟨front', glue', hk, hg, hf⟩ := h'.spelling
  have hr : ∀ {front strip point : Text} {glue : CodePoint},
      (front ++ (strip ++ glue :: point)).reverse =
        point.reverse ++ (glue :: (strip.reverse ++ front.reverse)) := by
    intro front strip point glue
    simp
  have hpart : ∀ {part : Text}, IsPart part → ∀ c ∈ part.reverse, isPartSymbol c = true :=
    fun hpart c hc => hpart.2 c (mem_reverse.mp hc)
  have hl : ∀ {front : Text}, (∀ c ∈ front.getLast?, isPartSymbol c = false) →
      ∀ c ∈ front.reverse.head?, isPartSymbol c = false := by
    intro front hfr c hc
    rw [List.head?_reverse] at hc
    exact hfr c hc
  have heq := congrArg List.reverse (hkey.symm.trans hk)
  rw [hr, hr] at heq
  obtain ⟨hp, hre⟩ := append_inj_of_head (hpart h.right) (by rintro c ⟨⟩; exact hglue)
    (hpart h'.right) (by rintro c ⟨⟩; exact hg) heq
  obtain ⟨hs, -⟩ := append_inj_of_head (hpart h.left) (hl hfr) (hpart h'.left)
    (hl hf) (tail_eq_of_cons_eq hre)
  exact ⟨reverse_injective hs, reverse_injective hp⟩

theorem isAsciiDigit_of_not_part {c : CodePoint} (h : isPartSymbol c = false) :
    isAsciiDigit c = false :=
  (Bool.or_eq_false_iff.mp h).2

theorem stripLeadingZeros_glue {glue : CodePoint} (hglue : isPartSymbol glue = false) :
    stripLeadingZeros (strip ++ glue :: point) =
      stripLeadingZeros strip ++ glue :: stripLeadingZeros point := by
  have he : EndsRun (glue :: point) := by
    rintro c ⟨⟩
    exact isAsciiDigit_of_not_part hglue
  have hd : NoDigits [glue] :=
    forall_mem_singleton.mpr (isAsciiDigit_of_not_part hglue)
  rw [stripLeadingZeros_append strip he]
  exact congrArg _ (strip_of_noDigits hd)

theorem mem_of_mem_strip {after : Bool} {text : Text} {c : CodePoint}
    (h : c ∈ stripLeadingZeros.strip after text) : c ∈ text := by
  induction text generalizing after with
  | nil => exact h
  | cons d text ih =>
    rw [stripLeadingZeros.strip] at h
    split_ifs at h
    · exact mem_cons_of_mem d (ih h)
    · rcases mem_cons.mp h with rfl | hr
      · exact mem_cons_self
      · exact mem_cons_of_mem d (ih hr)

theorem stripLeadingZeros_ne_nil {text : Text} (h : text ≠ []) : stripLeadingZeros text ≠ [] := by
  unfold stripLeadingZeros
  induction text with
  | nil => exact absurd rfl h
  | cons c text ih =>
    rw [stripLeadingZeros.strip]
    split_ifs with hz
    · refine ih ?_
      rintro rfl
      exact absurd hz.2.2 Bool.false_ne_true
    · exact cons_ne_nil _ _

theorem IsPart.withoutZeros {part : Text} (h : IsPart part) :
    IsPart (stripLeadingZeros part) :=
  ⟨stripLeadingZeros_ne_nil h.1, fun c hc => h.2 c (mem_of_mem_strip hc)⟩

theorem getLast?_stripLeadingZeros {text : Text} (h : ∀ c ∈ text.getLast?, isAsciiDigit c = false) :
    (stripLeadingZeros text).getLast? = text.getLast? := by
  induction text using List.reverseRecOn with
  | nil => rfl
  | append_singleton text c =>
    have hc : NoDigits [c] := forall_mem_singleton.mpr (h c List.getLast?_concat)
    have he : EndsRun [c] := by
      rintro d ⟨⟩
      exact hc c (mem_singleton_self c)
    have hl := stripLeadingZeros_of_noDigits hc
    rw [stripLeadingZeros_append text he, hl, List.getLast?_concat, List.getLast?_concat]

theorem Written.withoutZeros (h : Written key strip point) :
    Written (stripLeadingZeros key) (stripLeadingZeros strip) (stripLeadingZeros point) := by
  obtain ⟨front, glue, rfl, hglue, hf⟩ := h.spelling
  have hd : ∀ c ∈ front.getLast?, isAsciiDigit c = false :=
    fun c hc => isAsciiDigit_of_not_part (hf c hc)
  refine ⟨h.left.withoutZeros, h.right.withoutZeros, stripLeadingZeros front, glue,
    ?_, hglue, ?_⟩
  · rw [stripLeadingZeros_append_of_last _ hd, stripLeadingZeros_glue hglue]
  · rwa [getLast?_stripLeadingZeros hd]

/-- Dropping from the front what belongs to no part keeps what stands behind. -/
theorem Written.dropped (h : Written key strip point) {P : CodePoint → Bool}
    (hP : ∀ c, isPartSymbol c = true → P c = false) : Written (key.dropWhile P) strip point := by
  obtain ⟨front, glue, rfl, hglue, hf⟩ := h.spelling
  obtain ⟨c, rest, hstrip⟩ := exists_cons_of_ne_nil h.left.1
  have hfi : P c = false := hP c (h.left.2 c (hstrip ▸ mem_cons_self))
  refine ⟨h.left, h.right, front.dropWhile P, glue, ?_, hglue, fun d hd => ?_⟩
  · have hs : (strip ++ glue :: point).dropWhile P = strip ++ glue :: point := by
      rw [hstrip, cons_append, dropWhile_cons_of_neg (by rw [hfi]; exact Bool.false_ne_true)]
    rw [dropWhile_append]
    split_ifs with hn
    · rw [hs, isEmpty_iff.mp hn, nil_append]
    · rfl
  · obtain ⟨dropped, hdr⟩ := dropWhile_suffix P (l := front)
    have hl : front.getLast? = some d := by
      rw [← hdr, List.getLast?_append, Option.mem_def.mp hd]
      rfl
    exact hf d hl

end Written

section Strips

variable {rules : IdentifierRules} {text strip point : Text} {caught : Caught} {found : Terminal}

def CapitalPrefixes (rules : IdentifierRules) : Prop :=
  ∀ name ∈ rules.terminalPrefixes, ∀ c ∈ name, isAsciiUpper c = true

def IsStrip (strip : Text) : Prop := IsPart strip ∧ ∃ c ∈ strip, isAsciiDigit c = true

theorem isStrip_of_append {front rest : Text} (hmem : ∃ c ∈ front ++ rest, isAsciiDigit c = true)
    (hf : ∀ c ∈ front, isPartSymbol c = true) (hr : ∀ c ∈ rest, isPartSymbol c = true) :
    IsStrip (front ++ rest) := by
  refine ⟨⟨?_, fun c hc => ?_⟩, hmem⟩
  · obtain ⟨c, hc, -⟩ := hmem
    exact ne_nil_of_mem hc
  · exact (mem_append.mp hc).elim (hf c) (hr c)

theorem digits_of_reads (h : (digits 1 4).Reads text caught) :
    caught = [] ∧ (∃ c ∈ text, isAsciiDigit c = true) ∧ ∀ c ∈ text, isPartSymbol c = true := by
  obtain ⟨hc, hl, -, hall⟩ := reads_rep_one.mp h
  obtain ⟨c, rest, rfl⟩ := exists_cons_of_length_pos hl
  refine ⟨hc, ⟨c, mem_cons_self, hall c mem_cons_self⟩, fun d hd => ?_⟩
  exact Bool.or_eq_true_iff.mpr (.inr (hall d hd))

theorem prefix_of_reads (hprefixes : CapitalPrefixes rules)
    (h : (anyOf (longestFirst rules.terminalPrefixes)).Reads text caught) :
    caught = [] ∧ ∀ c ∈ text, isPartSymbol c = true := by
  obtain ⟨hn, hca⟩ := reads_anyOf.mp h
  exact ⟨hca, fun c hc => Bool.or_eq_true_iff.mpr
    (.inl (hprefixes text ((mem_insertionSort _).mp hn) c hc))⟩

theorem isStrip_of_whole (hprefixes : CapitalPrefixes rules)
    (h : (wholePattern rules.terminalPrefixes).Reads text caught) :
    caught = [] ∧ IsStrip text := by
  obtain ⟨name, c, ds, d, hn, hds, rfl, rfl⟩ := h
  obtain ⟨rfl, hc⟩ := prefix_of_reads hprefixes hn
  obtain ⟨rfl, ⟨digit, hd, hisDigit⟩, hall⟩ := digits_of_reads hds
  exact ⟨rfl, isStrip_of_append ⟨digit, mem_append_right _ hd, hisDigit⟩ hc hall⟩

theorem isStrip_of_numberFirst (hprefixes : CapitalPrefixes rules)
    (h : (digits 1 4 * anyOf (longestFirst rules.terminalPrefixes)).Reads text caught) :
    caught = [] ∧ IsStrip text := by
  obtain ⟨ds, c, name, d, hds, hn, rfl, rfl⟩ := h
  obtain ⟨rfl, hc⟩ := prefix_of_reads hprefixes hn
  obtain ⟨rfl, ⟨digit, hd, hisDigit⟩, hall⟩ := digits_of_reads hds
  exact ⟨rfl, isStrip_of_append ⟨digit, mem_append_left _ hd, hisDigit⟩ hall hc⟩

theorem isPart_of_isPoint (h : IsPoint point) : IsPart point :=
  ⟨ne_nil_of_length_pos h.1, h.2.2⟩

theorem isPartSymbol_of_glue {g : CodePoint}
    (h : g.val = 0x2E ∨ g.val = 0x2D ∨ g = colon) : isPartSymbol g = false := by
  have hc : colon.val = 0x3A := rfl
  have hval : g.val = 0x2E ∨ g.val = 0x2D ∨ g.val = 0x3A :=
    h.imp_right (Or.imp_right fun heq : g = colon => heq ▸ hc)
  simp only [isPartSymbol, isAsciiUpper, isAsciiDigit, Bool.or_eq_false_iff, Bool.and_eq_false_iff,
    decide_eq_false_iff_not]
  omega

theorem parts_of_reads {p : Pat} (hp : ∀ {part c}, p.Reads part c → c = [] ∧ IsStrip part)
    (h : (group .strip p * glue colon * pointPart).Reads text caught) :
    IsStrip (textOf caught .strip) ∧ ∃ g, isPartSymbol g = false ∧
      text = textOf caught .strip ++ g :: textOf caught .point := by
  obtain ⟨_, _, point, _, ⟨strip, _, _, _, ⟨c, hstrip, rfl⟩, ⟨g, hg, rfl, rfl⟩, rfl, rfl⟩,
    ⟨d, hpoint, rfl⟩, rfl, rfl⟩ := h
  obtain ⟨rfl, hn⟩ := hp hstrip
  have hglue : isPartSymbol g = false := by
    simp only [Bool.or_eq_true, decide_eq_true_eq, or_assoc] at hg
    exact isPartSymbol_of_glue hg
  refine ⟨hn, g, hglue, ?_⟩
  rw [append_assoc]
  rfl

variable (hprefixes : CapitalPrefixes rules) (hsigns : ∀ sign ∈ rules.allAspects, IsSign sign)
  (hseparator : rules.connectionPointSeparator = colon)
include hseparator

theorem terminalOfMatch_spec {numberFirst : Bool}
    (h : terminalOfMatch rules numberFirst caught = some found) (hi : found.issues = []) :
    found.strip = textOf caught .strip ∧ found.point = some (textOf caught .point) ∧
      IsPoint (textOf caught .point) := by
  obtain ⟨convention, -, rfl⟩ := Option.map_eq_some_iff.mp h
  have hpoint : IsPoint (textOf caught .point) := isPoint_of_checkLabel hi
  refine ⟨rfl, ?_, hpoint⟩
  dsimp only
  rw [checkLabel_of_isPoint hseparator hpoint]

omit hseparator in
theorem written_of_parts (hstrip : IsStrip strip) (hpoint : IsPoint point) {g : CodePoint}
    (hglue : isPartSymbol g = false) (htext : text = strip ++ g :: point) :
    Written text strip point :=
  ⟨hstrip.1, isPart_of_isPoint hpoint, [], g, htext, hglue, nofun⟩

theorem written_of_match {p : Pat} {numberFirst : Bool}
    (hp : ∀ {part c}, p.Reads part c → c = [] ∧ IsStrip part)
    (hm : (group .strip p * glue rules.connectionPointSeparator * pointPart).fullMatch text =
      some caught)
    (h : terminalOfMatch rules numberFirst caught = some found) (hi : found.issues = []) :
    IsStrip found.strip ∧ ∃ point, found.point = some point ∧ Written text found.strip point := by
  obtain ⟨hstrip, hpoint, hl⟩ := terminalOfMatch_spec hseparator h hi
  obtain ⟨hn, g, hglue, htext⟩ :=
    parts_of_reads hp (hseparator ▸ reads_of_fullMatch hm)
  rw [hstrip]
  exact ⟨hn, _, hpoint, written_of_parts hn hl hglue htext⟩

include hprefixes hsigns

/-- A terminal ends with its strip and its point. -/
theorem written_of_chain (h : terminalOfChain rules text = some found) :
    IsStrip found.strip ∧ ∃ point, found.point = some point ∧ Written text found.strip point := by
  obtain ⟨chain, hch, h⟩ := Option.bind_eq_some_iff.mp h
  split_ifs at h with hi
  obtain ⟨-, hv, hl, hs⟩ :=
    splitChain_sound hsigns hseparator hch (not_not.mp hi)
  split at h
  · rename_i point last convention hpoint hla hco
    split_ifs at h with hw
    cases h
    obtain ⟨hsi, hcd⟩ := hw
    obtain ⟨caught, hm⟩ := Option.isSome_iff_exists.mp hcd
    obtain ⟨-, hstrip⟩ := isStrip_of_whole hprefixes (reads_of_fullMatch hm)
    obtain ⟨init, hin⟩ := List.getLast?_eq_some_iff.mp hla
    have hsp : spelled chain.aspects = (spelled init ++ ofString "-") ++ last.code := by
      rw [hin, spelled, flatMap_append, flatMap_singleton, hsi, append_assoc]
      rfl
    refine ⟨hstrip, point, rfl, hstrip.1, isPart_of_isPoint (hl point hpoint),
      spelled init ++ ofString "-", colon, ?_, by decide, ?_⟩
    · rw [hs, hsp, hpoint, append_assoc]
      rfl
    · intro c hc
      have hh : ofString "-" = [hyphen] := rfl
      rw [hh, List.getLast?_concat] at hc
      cases hc
      rfl
  · cases h

theorem splitTerminal_spec (h : splitTerminal rules text = some found)
    (hi : found.issues = []) :
    IsStrip found.strip ∧ ∃ point, found.point = some point ∧ Written text found.strip point := by
  unfold splitTerminal at h
  split_ifs at h with hn hs
  · exact written_of_chain hprefixes hsigns hseparator h
  · split at h
    · rename_i caught hm
      exact written_of_match hseparator (isStrip_of_whole hprefixes) hm h hi
    · obtain ⟨caught, hm, h⟩ := Option.bind_eq_some_iff.mp h
      exact written_of_match hseparator (isStrip_of_numberFirst hprefixes) hm h hi

end Strips

section Keys

variable {u : Unicode} {rules : IdentifierRules} {text text' key strip point : Text}
  {hint hint' : Option IdentifierKind} {found found' : ParsedIdentifier} {terminal : Terminal}

theorem tagKey_of_written (hstrip : IsStrip strip) (h : Written text strip point) :
    tagKey text = [] := by
  unfold tagKey
  split
  · rename_i caught hm
    exfalso
    obtain ⟨_, _, digits, _, ⟨letters, _, _, _, ⟨_, hl, rfl⟩, ⟨g, hg, rfl, rfl⟩, rfl, rfl⟩,
      ⟨_, hd, rfl⟩, rfl, rfl⟩ := reads_of_fullMatch hm
    obtain ⟨rfl, hs, hu⟩ := reads_oneOrMore_one.mp hl
    obtain ⟨rfl, hpoint, hn⟩ := reads_oneOrMore_one.mp hd
    have hglue : isPartSymbol g = false := by
      simp only [Bool.or_eq_true, decide_eq_true_eq] at hg
      simp only [isPartSymbol, isAsciiUpper, isAsciiDigit, Bool.or_eq_false_iff,
        Bool.and_eq_false_iff, decide_eq_false_iff_not]
      omega
    have hw : Written (letters ++ [g] ++ digits) letters digits := by
      refine ⟨⟨hs, fun c hc => ?_⟩, ⟨hpoint, fun c hc => ?_⟩, [], g, ?_, hglue, by simp⟩
      · exact Bool.or_eq_true_iff.mpr (.inl (hu c hc))
      · exact Bool.or_eq_true_iff.mpr (.inr (hn c hc))
      · rw [append_assoc]
        rfl
    obtain ⟨rfl, -⟩ := h.unique hw
    obtain ⟨c, hc, hdi⟩ := hstrip.2
    have hca := hu c hc
    simp only [isAsciiUpper, isAsciiDigit, Bool.and_eq_true, decide_eq_true_eq] at hca hdi
    omega
  · rfl

def unifiedKey (rules : IdentifierRules) (terminal : Terminal) : Text :=
  stripLeadingZeros (terminal.unified rules.connectionPointSeparator)

theorem written_unified (hstrip : IsPart strip) (hpoint : IsPart point) :
    Written (strip ++ colon :: point) strip point :=
  ⟨hstrip, hpoint, [], colon, rfl, by decide, by simp⟩

/-- Behind their leading zeros the parts of a key are those of the terminal. -/
def Agrees (key strip point : Text) : Prop :=
  ∃ strip' point', Written key strip' point' ∧
    stripLeadingZeros strip' = stripLeadingZeros strip ∧
      stripLeadingZeros point' = stripLeadingZeros point

theorem Written.agrees (h : Written key strip point) :
    Agrees key strip point ∧ Agrees (stripLeadingZeros key) strip point :=
  ⟨⟨strip, point, h, rfl, rfl⟩, _, _, h.withoutZeros, stripLeadingZeros_idem _,
    stripLeadingZeros_idem _⟩

/-- Every key of a terminal agrees with it. -/
theorem agrees_of_mem_keys (hstrip : IsStrip strip) (h : Written (canonicalForm u text) strip point)
    (hkey : key ∈
      (withKeys (normalize u text) (unifiedKeys (strip ++ colon :: point))).searchKeys) :
    Agrees key strip point := by
  have hm : ∀ c, isPartSymbol c = true →
      (decide (c.val = 0x2D) || decide (c.val = 0x25)) = false := by
    intro c hc
    simp only [isPartSymbol, isAsciiUpper, isAsciiDigit, Bool.or_eq_true, Bool.and_eq_true,
      decide_eq_true_eq] at hc
    simp only [Bool.or_eq_false_iff, decide_eq_false_iff_not]
    omega
  have hb := h.dropped hm
  have hu := written_unified hstrip.1 h.right
  obtain ⟨hmem, hs⟩ := mem_dedupe.mp hkey
  rcases mem_append.mp hmem with hn | hextra
  · obtain ⟨hn, -⟩ := mem_dedupe.mp hn
    rw [tagKey_of_written hstrip h] at hn
    simp only [mem_cons, not_mem_nil, or_false] at hn
    rcases hn with rfl | rfl | rfl | rfl
    · exact h.agrees.1
    · exact hb.agrees.1
    · exact hb.agrees.2
    · exact absurd rfl hs
  · simp only [unifiedKeys, mem_cons, not_mem_nil, or_false] at hextra
    rcases hextra with rfl | rfl
    · exact hu.agrees.1
    · exact hu.agrees.2

structure ReadAs (rules : IdentifierRules) (canonical : Text) (keys : List Text)
    (terminal : Terminal) (point : Text) : Prop where
  read : splitTerminal rules canonical = some terminal
  strip : IsStrip terminal.strip
  pointed : terminal.point = some point
  agrees : ∀ key ∈ keys, Agrees key terminal.strip point
  unified : unifiedKey rules terminal ∈ keys

theorem ReadAs.unifiedKey_eq {canonical : Text} {keys : List Text}
    (hseparator : rules.connectionPointSeparator = colon)
    (h : ReadAs rules canonical keys terminal point) :
    unifiedKey rules terminal =
      stripLeadingZeros terminal.strip ++ colon :: stripLeadingZeros point := by
  rw [unifiedKey, Terminal.unified, h.pointed, hseparator]
  exact stripLeadingZeros_glue (by decide)

theorem parseTerminal_spec {forms : NormalizedForms}
    (h : parseTerminal rules text forms = some found) (hv : found.valid = true) :
    ∃ terminal, splitTerminal rules text = some terminal ∧ terminal.issues = [] ∧
      found.forms = withKeys forms
        (unifiedKeys (terminal.unified rules.connectionPointSeparator)) := by
  unfold parseTerminal at h
  split_ifs at h
  obtain ⟨terminal, ht, h⟩ := Option.bind_eq_some_iff.mp h
  split_ifs at h
  cases h
  exact ⟨terminal, ht, isEmpty_iff.mp hv, rfl⟩

section Rules

variable (hprefixes : CapitalPrefixes rules) (hsigns : ∀ sign ∈ rules.allAspects, IsSign sign)
  (hseparator : rules.connectionPointSeparator = colon)
include hprefixes hsigns hseparator

/-- A valid terminal was read off its text. -/
theorem exists_readAs (h : parse u rules text hint = some found) (hki : found.kind = .terminal)
    (hv : found.valid = true) :
    ∃ terminal point,
      ReadAs rules (canonicalForm u text) found.forms.searchKeys terminal point := by
  have hmem : (found.kind, parseTerminal) ∈ order := by
    rw [hki]
    simp [order]
  obtain ⟨inner, hin, hinnerValid, rfl⟩ := parse_valid_of_kind hmem h hv
  obtain ⟨terminal, ht, hi, hf⟩ := parseTerminal_spec hin hinnerValid
  obtain ⟨hstrip, point, hpoint, hw⟩ :=
    splitTerminal_spec hprefixes hsigns hseparator ht hi
  have hu : terminal.unified rules.connectionPointSeparator =
      terminal.strip ++ colon :: point := by
    rw [Terminal.unified, hpoint, hseparator]
    rfl
  have hk : (flagText inner (textIssues u text)).forms.searchKeys =
      (withKeys (normalize u text)
        (unifiedKeys (terminal.strip ++ colon :: point))).searchKeys := by
    rw [(flagText_spec inner _).2.1, hf, hu]
  refine ⟨terminal, point, ht, hstrip, hpoint, fun key hkey => ?_, ?_⟩
  · exact agrees_of_mem_keys hstrip hw (hk ▸ hkey)
  · rw [hk, unifiedKey, hu]
    refine mem_dedupe.mpr ⟨mem_append_right _ (by simp [unifiedKeys]), ?_⟩
    refine stripLeadingZeros_ne_nil ?_
    simp

end Rules

/-- Terminals meet under a key exactly when their unified forms agree behind leading zeros. -/
theorem share_key_iff (hseparator : rules.connectionPointSeparator = colon)
    {terminal' : Terminal} {point' canonical canonical' : Text} {keys keys' : List Text}
    (h : ReadAs rules canonical keys terminal point)
    (h' : ReadAs rules canonical' keys' terminal' point') :
    (∃ key ∈ keys, key ∈ keys') ↔ unifiedKey rules terminal = unifiedKey rules terminal' := by
  constructor
  · rintro ⟨key, hkey, hk⟩
    obtain ⟨strip, point, hwr, hstrip, hpoint⟩ := h.agrees key hkey
    obtain ⟨strip', point', hw, hs, hp⟩ := h'.agrees key hk
    obtain ⟨rfl, rfl⟩ := hwr.unique hw
    rw [h.unifiedKey_eq hseparator, h'.unifiedKey_eq hseparator, ← hstrip, ← hpoint, ← hs,
      ← hp]
  · intro heq
    exact ⟨unifiedKey rules terminal, h.unified, heq ▸ h'.unified⟩

theorem capitalPrefixes_packaged : CapitalPrefixes packaged := by
  have hall : packaged.terminalPrefixes.all (fun name => name.all isAsciiUpper) = true := by
    decide
  intro name hn c hc
  exact all_eq_true.mp (all_eq_true.mp hall name hn) c hc

theorem isSign_packaged : ∀ sign ∈ packaged.allAspects, IsSign sign := by
  have hall : packaged.allAspects.all
      (fun sign => !sign.isEmpty && sign.all (· ∈ aspectChars)) = true := by
    decide
  intro sign hs
  have hg := all_eq_true.mp hall sign hs
  rw [Bool.and_eq_true, Bool.not_eq_true', isEmpty_eq_false_iff] at hg
  exact ⟨hg.1, fun c hc => of_decide_eq_true (all_eq_true.mp hg.2 c hc)⟩

/-- Under the packaged rules two texts of valid terminals share a search key exactly when the
unified forms of their strips and points are equal behind their leading zeros. -/
theorem terminals_share_key_iff (h : parse u packaged text hint = some found)
    (hkind : found.kind = .terminal) (hvalid : found.valid = true)
    (h' : parse u packaged text' hint' = some found') (hkind' : found'.kind = .terminal)
    (hvalid' : found'.valid = true) :
    ∃ terminal terminal', splitTerminal packaged (canonicalForm u text) = some terminal ∧
      splitTerminal packaged (canonicalForm u text') = some terminal' ∧
        ((∃ key ∈ found.forms.searchKeys, key ∈ found'.forms.searchKeys) ↔
          unifiedKey packaged terminal = unifiedKey packaged terminal') := by
  obtain ⟨terminal, point, hre⟩ :=
    exists_readAs capitalPrefixes_packaged isSign_packaged rfl h hkind hvalid
  obtain ⟨terminal', point', hr⟩ :=
    exists_readAs capitalPrefixes_packaged isSign_packaged rfl h' hkind' hvalid'
  exact ⟨terminal, terminal', hre.read, hr.read,
    share_key_iff rfl hre hr⟩

private def unifiedOf (text : String) : Option Text :=
  (splitTerminal packaged (canonicalForm asciiUnicode (ofString text))).map (unifiedKey packaged)

/-- A strip on its own and in its place meet; a digit moved over the colon sets them apart. -/
theorem strip_in_its_place_meets :
    (∃ found found', parse asciiUnicode packaged (ofString "X1.14") none = some found ∧
      parse asciiUnicode packaged (ofString "=A1+P2-X1:14") none = some found' ∧
        ∃ key ∈ found.forms.searchKeys, key ∈ found'.forms.searchKeys) ∧
      ∃ found found', parse asciiUnicode packaged (ofString "X1:14") none = some found ∧
        parse asciiUnicode packaged (ofString "X11:4") none = some found' ∧
          ¬ ∃ key ∈ found.forms.searchKeys, key ∈ found'.forms.searchKeys := by
  have hr : ∀ text ∈ ["X1.14", "=A1+P2-X1:14", "X1:14", "X11:4"],
      (parse asciiUnicode packaged (ofString text) none).any
        (fun found => found.kind = .terminal ∧ found.valid = true) = true := by
    decide +kernel
  have hfo : ∀ text ∈ ["X1.14", "=A1+P2-X1:14", "X1:14", "X11:4"], ∃ found,
      parse asciiUnicode packaged (ofString text) none = some found ∧ found.kind = .terminal ∧
        found.valid = true := by
    intro text htext
    obtain ⟨found, hpa, ht⟩ := (Option.any_eq_true _ _).mp (hr text htext)
    exact ⟨found, hpa, of_decide_eq_true ht⟩
  have hm : unifiedOf "X1.14" = unifiedOf "=A1+P2-X1:14" := by decide +kernel
  have ha : unifiedOf "X1:14" ≠ unifiedOf "X11:4" := by decide +kernel
  obtain ⟨bare, hb, hki, hva⟩ := hfo "X1.14" (by decide)
  obtain ⟨placed, hp, hk, hv⟩ := hfo "=A1+P2-X1:14" (by decide)
  obtain ⟨first, hf, fkind, fvalid⟩ := hfo "X1:14" (by decide)
  obtain ⟨other, ho, okind, ovalid⟩ := hfo "X11:4" (by decide)
  refine ⟨⟨bare, placed, hb, hp, ?_⟩, first, other, hf, ho, ?_⟩
  · obtain ⟨terminal, terminal', hsp, hs, hiff⟩ :=
      terminals_share_key_iff hb hki hva hp hk hv
    refine hiff.mpr (Option.some.inj ?_)
    simpa only [unifiedOf, hsp, hs, Option.map_some] using hm
  · obtain ⟨terminal, terminal', hsp, hs, hiff⟩ :=
      terminals_share_key_iff hf fkind fvalid ho okind ovalid
    refine fun hsh => ha ?_
    simp only [unifiedOf, hsp, hs, Option.map_some]
    exact congrArg some (hiff.mp hsh)

end Keys

end Aizzak.TerminalKeys
