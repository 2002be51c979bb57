import Aizzak.ParserResults
import Aizzak.RuleNarrowing

/-!
How a voltage label is read. Its symbols are capital letters, digits and the two signs, so the
only PLC addresses it can spell are those of a word, a byte or a double word.
-/
namespace Aizzak.VoltageLabels

open BacktrackingPatterns Pattern PyText Normalization IdentifierParsers ParserResults
  RuleNarrowing

section Addresses

variable {caught : Caught} {text : Text} {pareas areas : List Char} {family : PlcFamily}
  {forms : NormalizedForms}

def classicWord (pareas areas : List Char) : Pat :=
  (sym 'P' * oneOf pareas + oneOf areas) * width * digits 1 5

def s7200Word : Pat :=
  (sym 'A' * oneOf ['I', 'Q'] * sym 'W' + sym 'V' * width) * digits 1 5

def wordAddress : PlcFamily → Pat
  | .s7En => classicWord ['I', 'Q'] ['I', 'Q', 'M']
  | .s7De => classicWord ['E', 'A'] ['E', 'A', 'M']
  | .s7200 => s7200Word
  | .tia | .s7Db => .one fun _ => false

def SpellsAddress (family : PlcFamily) (label : Text) : Prop :=
  ((wordAddress family).fullMatch label).isSome = true

instance (family : PlcFamily) (label : Text) : Decidable (SpellsAddress family label) :=
  inferInstanceAs (Decidable (_ = true))

def IsRun (ds : Text) : Prop :=
  1 ≤ ds.length ∧ ds.length ≤ 5 ∧ ∀ a ∈ ds, isAsciiDigit a = true

/-- The second symbol is a digit, so that the text has no room for a width. -/
def SecondIsDigit (text : Text) : Prop :=
  ∃ a b rest, text = a :: b :: rest ∧ isAsciiDigit b = true

variable {a : CodePoint}

theorem secondIsDigit_of_isRun {ds : Text} (h : IsRun ds) :
    SecondIsDigit (a :: ds) := by
  cases ds with
  | nil => exact absurd h.1 (Nat.not_succ_le_zero 0)
  | cons b rest => exact ⟨a, b, rest, rfl, h.2.2 b List.mem_cons_self⟩

theorem not_secondIsDigit {b : CodePoint} {rest : Text} (h : ¬ isAsciiDigit b = true) :
    ¬ SecondIsDigit (a :: b :: rest) := by
  rintro ⟨c, d, after, heq, hd⟩
  obtain ⟨-, hr⟩ := List.cons.inj heq
  obtain ⟨rfl, -⟩ := List.cons.inj hr
  exact h hd

def InClass (cs : List Char) (a : CodePoint) : Prop := ∃ c ∈ cs, a.val = c.toNat

variable {cs : List Char} {w : Way CodePoint Group}

theorem mem_ways_group_oneOf {name : Group} :
    w ∈ (group name (oneOf cs)).ways text ↔
      ∃ a, InClass cs a ∧ text = a :: w.left ∧ w.caught = [(name, [a])] := by
  simp only [oneOf, mem_ways_group_one, List.any_eq_true, decide_eq_true_eq, InClass]

theorem mem_ways_sym {c : Char} :
    w ∈ (sym c).ways text ↔
      ∃ a : CodePoint, a.val = c.toNat ∧ text = a :: w.left ∧ w.caught = [] := by
  simp only [sym, mem_ways_one, decide_eq_true_eq]

theorem eq_of_mem_ways_bitPart (hdot : ∀ c ∈ text, c.val ≠ 0x2E) (h : w ∈ bitPart.ways text) :
    w = ⟨[], text⟩ := by
  rcases mem_ways_opt.mp h with hbit | hn
  · obtain ⟨v, hv, -⟩ := mem_ways_seq.mp hbit
    obtain ⟨a, ha, rfl, -⟩ := mem_ways_sym.mp hv
    exact absurd ha (hdot a List.mem_cons_self)
  · exact hn

theorem isRun_of_mem_ways {v : Way CodePoint Group} (hdot : ∀ c ∈ text, c.val ≠ 0x2E)
    (hb : w ∈ (group .byte (digits 1 5)).ways text) (hbit : v ∈ bitPart.ways w.left)
    (hle : v.left = []) :
    IsRun text ∧ w.caught = [(.byte, text)] ∧ v.caught = [] := by
  obtain ⟨front, rfl, hl, hm, hall, hca⟩ := mem_ways_group_rep_one.mp hb
  have hr := eq_of_mem_ways_bitPart (fun c hc => hdot c (List.mem_append_right front hc)) hbit
  rw [hr] at hle ⊢
  rw [show w.left = [] from hle, List.append_nil]
  exact ⟨⟨hl, hm, hall⟩, hca, rfl⟩

/-- A text without a dot is an address of the peripheral, one with a width, or has neither. -/
theorem classic_way_cases (hdot : ∀ c ∈ text, c.val ≠ 0x2E)
    (h : ⟨caught, []⟩ ∈ (classicPattern pareas areas).ways text) :
    (∃ p a w ds, text = p :: a :: w :: ds ∧ p.val = 'P'.toNat ∧ InClass pareas a ∧
      InClass ['B', 'W', 'D'] w ∧ IsRun ds ∧
      caught = [(.parea, [a]), (.pw, [w]), (.byte, ds)]) ∨
    (∃ a w ds, text = a :: w :: ds ∧ InClass areas a ∧ InClass ['B', 'W', 'D'] w ∧ IsRun ds ∧
      caught = [(.area, [a]), (.w, [w]), (.byte, ds)]) ∨
    ∃ a ds, text = a :: ds ∧ InClass areas a ∧ IsRun ds ∧ caught = [(.area, [a]), (.byte, ds)] := by
  obtain ⟨v, hv, bits, hbi, heq⟩ := mem_ways_seq.mp h
  obtain ⟨rfl, hend⟩ := Way.mk.inj heq
  obtain ⟨head, hh, byte, hby, rfl⟩ := mem_ways_seq.mp hv
  have hn : ∀ {front : Text}, text = front ++ head.left →
      IsRun head.left ∧ byte.caught = [(.byte, head.left)] ∧ bits.caught = [] := by
    rintro front rfl
    exact isRun_of_mem_ways (fun c hc => hdot c (List.mem_append_right front hc)) hby hbi
      hend.symm
  rcases mem_ways_alt.mp hh with hpe | hpl
  · obtain ⟨pa, hpa, pw, hpw, rfl⟩ := mem_ways_seq.mp hpe
    obtain ⟨p, hp, a, ha, rfl⟩ := mem_ways_seq.mp hpa
    obtain ⟨p', hp', rfl, hpc⟩ := mem_ways_sym.mp hp
    obtain ⟨a', ha', hal, hac⟩ := mem_ways_group_oneOf.mp ha
    obtain ⟨w', hw', hwl, hwc⟩ := mem_ways_group_oneOf.mp hpw
    have htext : p' :: p.left = [p', a', w'] ++ pw.left := by
      rw [hal, show a.left = w' :: pw.left from hwl]
      rfl
    obtain ⟨hrun, hbc, hb⟩ := hn htext
    refine .inl ⟨p', a', w', pw.left, htext, hp', ha', hw', hrun, ?_⟩
    simp [Way.next, hpc, hac, hwc, hbc, hb]
  · obtain ⟨a, ha, w, hw, rfl⟩ := mem_ways_seq.mp hpl
    obtain ⟨a', ha', rfl, hac⟩ := mem_ways_group_oneOf.mp ha
    rcases mem_ways_opt.mp hw with hwi | hno
    · obtain ⟨w', hw', hwl, hwc⟩ := mem_ways_group_oneOf.mp hwi
      have htext : a' :: a.left = [a', w'] ++ w.left := by
        rw [hwl]
        rfl
      obtain ⟨hrun, hbc, hb⟩ := hn htext
      refine .inr (.inl ⟨a', w', w.left, htext, ha', hw', hrun, ?_⟩)
      simp [Way.next, hac, hwc, hbc, hb]
    · subst hno
      have htext : a' :: a.left = [a'] ++ a.left := rfl
      obtain ⟨hrun, hbc, hb⟩ := hn htext
      refine .inr (.inr ⟨a', a.left, rfl, ha', hrun, ?_⟩)
      simp [Way.next, hac, hbc, hb]

theorem not_isAsciiDigit_of_inClass (hcs : ∀ c ∈ cs, '9'.toNat < c.toNat) (h : InClass cs a) :
    ¬ isAsciiDigit a = true := by
  obtain ⟨c, hc, ha⟩ := h
  have hlow : 57 < c.toNat := hcs c hc
  simp only [isAsciiDigit, Bool.and_eq_true, decide_eq_true_eq]
  omega

theorem isRun_iff {ds : Text} : ds ∈ (digits 1 5).language ↔ IsRun ds := mem_language_rep_one

theorem mem_language_oneOf :
    text ∈ (oneOf cs).language ↔ ∃ a, InClass cs a ∧ text = [a] := by
  simp only [oneOf, mem_language_one, List.any_eq_true, decide_eq_true_eq, InClass]

theorem mem_language_sym {c : Char} :
    text ∈ (sym c).language ↔ ∃ a : CodePoint, a.val = c.toNat ∧ text = [a] := by
  simp only [sym, mem_language_one, decide_eq_true_eq]

/-- The words of the classic families without a bit. -/
theorem mem_classicWord : text ∈ (classicWord pareas areas).language ↔
    (∃ p a w ds, text = p :: a :: w :: ds ∧ p.val = 'P'.toNat ∧ InClass pareas a ∧
      InClass ['B', 'W', 'D'] w ∧ IsRun ds) ∨
    ∃ a w ds, text = a :: w :: ds ∧ InClass areas a ∧ InClass ['B', 'W', 'D'] w ∧ IsRun ds := by
  constructor
  · rintro ⟨_, ⟨head, hh, _, hwi, rfl⟩, ds, hds, rfl⟩
    obtain ⟨w, hw, rfl⟩ := mem_language_oneOf.mp hwi
    rcases hh with ⟨_, hpe, _, har, rfl⟩ | har
    · obtain ⟨p, hp, rfl⟩ := mem_language_sym.mp hpe
      obtain ⟨a, ha, rfl⟩ := mem_language_oneOf.mp har
      exact .inl ⟨p, a, w, ds, rfl, hp, ha, hw, isRun_iff.mp hds⟩
    · obtain ⟨a, ha, rfl⟩ := mem_language_oneOf.mp har
      exact .inr ⟨a, w, ds, rfl, ha, hw, isRun_iff.mp hds⟩
  · rintro (⟨p, a, w, ds, rfl, hp, ha, hw, hds⟩ | ⟨a, w, ds, rfl, ha, hw, hds⟩)
    · have hh : [p] ++ [a] ∈ (sym 'P' * oneOf pareas + oneOf areas).language :=
        .inl (Language.append_mem_mul (mem_language_sym.mpr ⟨p, hp, rfl⟩)
          (mem_language_oneOf.mpr ⟨a, ha, rfl⟩))
      exact Language.append_mem_mul (Language.append_mem_mul hh
        (mem_language_oneOf.mpr ⟨w, hw, rfl⟩)) (isRun_iff.mpr hds)
    · have hh : [a] ∈ (sym 'P' * oneOf pareas + oneOf areas).language :=
        .inr (mem_language_oneOf.mpr ⟨a, ha, rfl⟩)
      exact Language.append_mem_mul (Language.append_mem_mul hh
        (mem_language_oneOf.mpr ⟨w, hw, rfl⟩)) (isRun_iff.mpr hds)

theorem nil_mem_bitPart : [] ∈ bitPart.language := .inr rfl

theorem classicPattern_of_classicWord (h : text ∈ (classicWord pareas areas).language) :
    text ∈ (classicPattern pareas areas).language := by
  rw [← List.append_nil text]
  refine Language.append_mem_mul ?_ nil_mem_bitPart
  rcases mem_classicWord.mp h with
    ⟨p, a, w, ds, rfl, hp, ha, hw, hds⟩ | ⟨a, w, ds, rfl, ha, hw, hds⟩
  · exact Language.append_mem_mul (a := [p] ++ [a] ++ [w])
      (.inl (Language.append_mem_mul (Language.append_mem_mul (mem_language_sym.mpr ⟨p, hp, rfl⟩)
        (mem_language_oneOf.mpr ⟨a, ha, rfl⟩)) (mem_language_oneOf.mpr ⟨w, hw, rfl⟩)))
      (isRun_iff.mpr hds)
  · exact Language.append_mem_mul (a := [a] ++ [w])
      (.inr (Language.append_mem_mul (mem_language_oneOf.mpr ⟨a, ha, rfl⟩)
        (.inl (mem_language_oneOf.mpr ⟨w, hw, rfl⟩)))) (isRun_iff.mpr hds)

theorem classicWord_second (hp : ∀ c ∈ pareas, '9'.toNat < c.toNat)
    (h : text ∈ (classicWord pareas areas).language) : ¬ SecondIsDigit text := by
  rcases mem_classicWord.mp h with
    ⟨p, a, w, ds, rfl, -, ha, -, -⟩ | ⟨a, w, ds, rfl, -, hw, -⟩
  · exact not_secondIsDigit (not_isAsciiDigit_of_inClass hp ha)
  · exact not_secondIsDigit (not_isAsciiDigit_of_inClass (by simp) hw)

theorem widths_ne_bit (letter : Text) : widths letter ≠ .bit := by
  unfold widths
  split_ifs <;> exact nofun

variable {toEnglish : Text → Text}

/-- A match without a dot is an address without a bit, or none at all. -/
theorem classic_match_cases (hdot : ∀ c ∈ text, c.val ≠ 0x2E)
    (h : (classicPattern pareas areas).fullMatch text = some caught) :
    (∃ found, classic forms family toEnglish caught = some found) ∧
        text ∈ (classicWord pareas areas).language ∨
      classic forms family toEnglish caught = none ∧ SecondIsDigit text := by
  rcases classic_way_cases hdot (mem_ways_of_fullMatch h) with
    ⟨p, a, w, ds, rfl, hp, ha, hw, hds, rfl⟩ | ⟨a, w, ds, rfl, ha, hw, hds, rfl⟩ |
      ⟨a, ds, rfl, ha, hds, rfl⟩
  · exact .inl ⟨⟨_, rfl⟩, mem_classicWord.mpr (.inl ⟨p, a, w, ds, rfl, hp, ha, hw, hds⟩)⟩
  · refine .inl ⟨?_, mem_classicWord.mpr (.inr ⟨a, w, ds, rfl, ha, hw, hds⟩)⟩
    exact ⟨_, if_neg fun hbit => widths_ne_bit [w] hbit.1⟩
  · exact .inr ⟨rfl, secondIsDigit_of_isRun hds⟩

/-- The words of the S7-200 family without a bit. -/
theorem mem_s7200Word : text ∈ s7200Word.language ↔
    (∃ a b w ds, text = a :: b :: w :: ds ∧ a.val = 'A'.toNat ∧ InClass ['I', 'Q'] b ∧
      w.val = 'W'.toNat ∧ IsRun ds) ∨
    ∃ v w ds, text = v :: w :: ds ∧ v.val = 'V'.toNat ∧ InClass ['B', 'W', 'D'] w ∧ IsRun ds := by
  constructor
  · rintro ⟨_, hh, ds, hds, rfl⟩
    rcases hh with ⟨_, ⟨_, han, _, har, rfl⟩, _, hwo, rfl⟩ | ⟨_, hp, _, hwi, rfl⟩
    · obtain ⟨a, ha, rfl⟩ := mem_language_sym.mp han
      obtain ⟨b, hb, rfl⟩ := mem_language_oneOf.mp har
      obtain ⟨w, hw, rfl⟩ := mem_language_sym.mp hwo
      exact .inl ⟨a, b, w, ds, rfl, ha, hb, hw, isRun_iff.mp hds⟩
    · obtain ⟨v, hv, rfl⟩ := mem_language_sym.mp hp
      obtain ⟨w, hw, rfl⟩ := mem_language_oneOf.mp hwi
      exact .inr ⟨v, w, ds, rfl, hv, hw, isRun_iff.mp hds⟩
  · rintro (⟨a, b, w, ds, rfl, ha, hb, hw, hds⟩ | ⟨v, w, ds, rfl, hv, hw, hds⟩)
    · exact Language.append_mem_mul (a := [a] ++ [b] ++ [w])
        (.inl (Language.append_mem_mul (Language.append_mem_mul
          (mem_language_sym.mpr ⟨a, ha, rfl⟩) (mem_language_oneOf.mpr ⟨b, hb, rfl⟩))
          (mem_language_sym.mpr ⟨w, hw, rfl⟩))) (isRun_iff.mpr hds)
    · exact Language.append_mem_mul (a := [v] ++ [w])
        (.inr (Language.append_mem_mul (mem_language_sym.mpr ⟨v, hv, rfl⟩)
          (mem_language_oneOf.mpr ⟨w, hw, rfl⟩))) (isRun_iff.mpr hds)

theorem s7200Pattern_of_s7200Word (h : text ∈ s7200Word.language) :
    text ∈ s7200Pattern.language := by
  rcases mem_s7200Word.mp h with
    ⟨a, b, w, ds, rfl, ha, ⟨c, hc, hb⟩, hw, hds⟩ | ⟨v, w, ds, rfl, hv, hw, hds⟩
  · have har : [a] ++ [b] ∈ (sym 'A' * sym 'I' + sym 'A' * sym 'Q').language := by
      have hf := mem_language_sym.mpr ⟨a, ha, rfl⟩
      simp only [List.mem_cons, List.not_mem_nil, or_false] at hc
      rcases hc with rfl | rfl
      · exact .inl (Language.append_mem_mul hf (mem_language_sym.mpr ⟨b, hb, rfl⟩))
      · exact .inr (Language.append_mem_mul hf (mem_language_sym.mpr ⟨b, hb, rfl⟩))
    exact .inl (Language.append_mem_mul (a := [a] ++ [b] ++ [w])
      (Language.append_mem_mul har (mem_language_sym.mpr ⟨w, hw, rfl⟩)) (isRun_iff.mpr hds))
  · have hvw : [v] ++ [w] ∈ (sym 'V' * .opt (.group .w width)).language :=
      Language.append_mem_mul (mem_language_sym.mpr ⟨v, hv, rfl⟩)
        (.inl (mem_language_oneOf.mpr ⟨w, hw, rfl⟩))
    have hall := Language.append_mem_mul (Language.append_mem_mul hvw (isRun_iff.mpr hds))
      nil_mem_bitPart
    rw [List.append_nil] at hall
    exact .inr hall

theorem s7200Word_second (h : text ∈ s7200Word.language) : ¬ SecondIsDigit text := by
  rcases mem_s7200Word.mp h with ⟨a, b, w, ds, rfl, -, hb, -, -⟩ | ⟨v, w, ds, rfl, -, hw, -⟩
  · exact not_secondIsDigit (not_isAsciiDigit_of_inClass (by simp) hb)
  · exact not_secondIsDigit (not_isAsciiDigit_of_inClass (by simp) hw)

theorem mem_ways_analogArea (h : w ∈ (sym 'A' * sym 'I' + sym 'A' * sym 'Q').ways text) :
    ∃ a b, text = a :: b :: w.left ∧ a.val = 'A'.toNat ∧ InClass ['I', 'Q'] b := by
  rcases mem_ways_alt.mp h with hin | hout
  · obtain ⟨x, hx, y, hy, rfl⟩ := mem_ways_seq.mp hin
    obtain ⟨a, ha, rfl, -⟩ := mem_ways_sym.mp hx
    obtain ⟨b, hb, hl, -⟩ := mem_ways_sym.mp hy
    exact ⟨a, b, congrArg (a :: ·) hl, ha, 'I', by simp, hb⟩
  · obtain ⟨x, hx, y, hy, rfl⟩ := mem_ways_seq.mp hout
    obtain ⟨a, ha, rfl, -⟩ := mem_ways_sym.mp hx
    obtain ⟨b, hb, hl, -⟩ := mem_ways_sym.mp hy
    exact ⟨a, b, congrArg (a :: ·) hl, ha, 'Q', by simp, hb⟩

/-- An analog word, an address with a width, or a byte alone. -/
theorem s7200_match_cases (hdot : ∀ c ∈ text, c.val ≠ 0x2E)
    (h : s7200Pattern.fullMatch text = some caught) :
    (∃ found, s7200 forms caught = some found) ∧ text ∈ s7200Word.language ∨
      s7200 forms caught = none ∧ SecondIsDigit text := by
  rcases mem_ways_alt.mp (mem_ways_of_fullMatch h) with han | hp
  · obtain ⟨head, hh, byte, hby, heq⟩ := mem_ways_seq.mp han
    obtain ⟨rfl, hend⟩ := Way.mk.inj heq
    obtain ⟨area, har, word, hwo, rfl⟩ := mem_ways_seq.mp hh
    obtain ⟨analog, hl, rfl⟩ := mem_ways_group.mp har
    obtain ⟨a, b, rfl, ha, hb⟩ := mem_ways_analogArea hl
    obtain ⟨w, hw, hlf, -⟩ := mem_ways_sym.mp hwo
    obtain ⟨front, hf, hle, hm, hall, -⟩ := mem_ways_group_rep_one.mp hby
    rw [← hend, List.append_nil] at hf
    refine .inl ⟨⟨_, rfl⟩, mem_s7200Word.mpr (.inl ⟨a, b, w, front, ?_, ha, hb, hw, ?_⟩)⟩
    · rw [show analog.left = w :: word.left from hlf, show word.left = front from hf]
    · exact ⟨hle, hm, hall⟩
  · obtain ⟨head, hh, bits, hbt, heq⟩ := mem_ways_seq.mp hp
    obtain ⟨rfl, hend⟩ := Way.mk.inj heq
    obtain ⟨area, har, byte, hby, rfl⟩ := mem_ways_seq.mp hh
    obtain ⟨v, hv, w, hw, rfl⟩ := mem_ways_seq.mp har
    obtain ⟨v', hv', rfl, hvc⟩ := mem_ways_sym.mp hv
    rcases mem_ways_opt.mp hw with hwi | hn
    · obtain ⟨w', hw', hwl, hwc⟩ := mem_ways_group_oneOf.mp hwi
      have hla : ∀ c ∈ w.left, c.val ≠ 0x2E := fun c hc => hdot c (by simp [hwl, hc])
      obtain ⟨hrun, hbc, hbi⟩ := isRun_of_mem_ways hla hby hbt hend.symm
      refine .inl ⟨?_, mem_s7200Word.mpr (.inr ⟨v', w', w.left, by rw [hwl], hv', hw', hrun⟩)⟩
      simp only [Way.next, hvc, hwc, hbc, hbi]
      exact ⟨_, if_neg fun hbit => widths_ne_bit [w'] hbit.1⟩
    · subst hn
      have hla : ∀ c ∈ v.left, c.val ≠ 0x2E := fun c hc => hdot c (List.mem_cons_of_mem v' hc)
      obtain ⟨hrun, hbc, hbi⟩ := isRun_of_mem_ways hla hby hbt hend.symm
      refine .inr ⟨?_, secondIsDigit_of_isRun hrun⟩
      simp only [Way.next, hvc, hbc, hbi]
      rfl

theorem spellsAddress_iff : SpellsAddress family text ↔ text ∈ (wordAddress family).language :=
  fullMatch_isSome_iff

theorem not_spells_tia : ¬ SpellsAddress .tia text := by
  rw [spellsAddress_iff]
  rintro ⟨a, ha, -⟩
  cases ha

theorem not_spells_s7Db : ¬ SpellsAddress .s7Db text := not_spells_tia

theorem SpellsAddress.second (h : SpellsAddress family text) : ¬ SecondIsDigit text := by
  cases family with
  | s7En => exact classicWord_second (by simp) (spellsAddress_iff.mp h)
  | s7De => exact classicWord_second (by simp) (spellsAddress_iff.mp h)
  | s7200 => exact s7200Word_second (spellsAddress_iff.mp h)
  | tia => exact absurd h not_spells_tia
  | s7Db => exact absurd h not_spells_s7Db

variable {rules : IdentifierRules} {pattern : Pat} {read : Caught → Option ParsedIdentifier}

/-- What an enabled family makes of a text without a dot: nothing, an address, or a text whose
second symbol is a digit, which spells no address of any family. -/
theorem enabledMatch_cases
    (hw : text ∈ (wordAddress family).language → text ∈ pattern.language)
    (hm : ∀ caught, pattern.fullMatch text = some caught →
      (∃ found, read caught = some found) ∧ text ∈ (wordAddress family).language ∨
        read caught = none ∧ SecondIsDigit text) :
    rules.enabledMatch family pattern text = none ∧
        ¬ (family ∈ rules.plcFamilies ∧ SpellsAddress family text) ∨
      ∃ caught, rules.enabledMatch family pattern text = some caught ∧
        ((∃ found, read caught = some found) ∧ family ∈ rules.plcFamilies ∧
            SpellsAddress family text ∨
          read caught = none ∧ ∀ other, ¬ SpellsAddress other text) := by
  rw [IdentifierRules.enabledMatch]
  by_cases hf : family ∈ rules.plcFamilies
  · rw [if_pos hf]
    cases hfu : pattern.fullMatch text with
    | none =>
      refine .inl ⟨rfl, fun hs => ?_⟩
      have hso := fullMatch_isSome_iff.mpr (hw (spellsAddress_iff.mp hs.2))
      rw [hfu] at hso
      cases hso
    | some caught =>
      refine .inr ⟨caught, rfl, ?_⟩
      rcases hm caught hfu with ⟨hfo, hs⟩ | ⟨hn, hse⟩
      · exact .inl ⟨hfo, hf, spellsAddress_iff.mpr hs⟩
      · exact .inr ⟨hn, fun other hs => hs.second hse⟩
  · rw [if_neg hf]
    exact .inl ⟨rfl, fun hs => hf hs.1⟩

theorem fullMatch_dbPattern (hdot : ∀ c ∈ text, c.val ≠ 0x2E) :
    dbPattern.fullMatch text = none := by
  rw [← Option.not_isSome_iff_eq_none, fullMatch_isSome_iff]
  intro h
  have hd : dbPattern.Demands fun c => c.val = 0x2E := by
    refine .inl (.inl (.inl (.inl (.inl (.inr ?_)))))
    intro c hc
    exact of_decide_eq_true hc
  obtain ⟨c, hc, hval⟩ := exists_mem_of_demands hd h
  exact hdot c hc hval

/-- A text without a dot that does not begin with a percent sign is an address exactly when it
spells one without a bit, of a family that the rules enable. -/
theorem parsePlcAddress_isSome_iff (hdot : ∀ c ∈ text, c.val ≠ 0x2E)
    (hp : ∀ c ∈ text, c.val ≠ 0x25) :
    (parsePlcAddress rules text forms).isSome ↔
      ∃ family ∈ rules.plcFamilies, SpellsAddress family text := by
  have hh : ¬ (text.head?.any (·.val = 0x25)) = true := by
    rw [Option.any_eq_true]
    rintro ⟨c, hc, hval⟩
    exact hp c (List.mem_of_head? hc) (of_decide_eq_true hval)
  have hdb : rules.enabledMatch .s7Db dbPattern text = none := by
    rw [IdentifierRules.enabledMatch, fullMatch_dbPattern hdot, ite_self]
  have hn : (¬ ∃ family ∈ rules.plcFamilies, SpellsAddress family text) →
      ((none : Option ParsedIdentifier).isSome = true ↔
        ∃ family ∈ rules.plcFamilies, SpellsAddress family text) := by
    intro h
    exact iff_of_false Bool.false_ne_true h
  have ha := @enabledMatch_cases text .s7200 rules s7200Pattern (s7200 forms)
    s7200Pattern_of_s7200Word fun _ => s7200_match_cases hdot
  have he := @enabledMatch_cases text .s7En rules enPattern (classic forms .s7En id)
    classicPattern_of_classicWord fun _ => classic_match_cases hdot
  have hg := @enabledMatch_cases text .s7De rules dePattern (classic forms .s7De fromGerman)
    classicPattern_of_classicWord fun _ => classic_match_cases hdot
  rw [parsePlcAddress, if_neg hh, hdb]
  rcases ha with
    ⟨h200, hn2⟩ | ⟨caught, h200, ⟨⟨found, hfo⟩, hs⟩ | ⟨hnn, hno⟩⟩
  · rcases he with
      ⟨hen, hnoEn⟩ | ⟨caught, hen, ⟨⟨found, hfo⟩, hs⟩ | ⟨hnn, hno⟩⟩
    · rcases hg with
        ⟨hde, hnoDe⟩ | ⟨caught, hde, ⟨⟨found, hfo⟩, hs⟩ | ⟨hnn, hno⟩⟩
      · simp only [h200, hen, hde, Option.bind_none]
        refine hn ?_
        rintro ⟨family, hf, hs⟩
        cases family with
        | s7En => exact hnoEn ⟨hf, hs⟩
        | s7De => exact hnoDe ⟨hf, hs⟩
        | s7200 => exact hn2 ⟨hf, hs⟩
        | tia => exact not_spells_tia hs
        | s7Db => exact not_spells_s7Db hs
      · simp only [h200, hen, hde, Option.bind_some, hfo]
        exact iff_of_true rfl ⟨.s7De, hs⟩
      · simp only [h200, hen, hde, Option.bind_some, hnn]
        exact hn fun ⟨family, _, hs⟩ => hno family hs
    · simp only [h200, hen, hfo]
      exact iff_of_true rfl ⟨.s7En, hs⟩
    · simp only [h200, hen, hnn]
      exact hn fun ⟨family, _, hs⟩ => hno family hs
  · simp only [h200, hfo]
    exact iff_of_true rfl ⟨.s7200, hs⟩
  · simp only [h200, hnn]
    exact hn fun ⟨family, _, hs⟩ => hno family hs

theorem parsePlcAddress_eq_none_iff (hdot : ∀ c ∈ text, c.val ≠ 0x2E)
    (hp : ∀ c ∈ text, c.val ≠ 0x25) :
    parsePlcAddress rules text forms = none ↔
      ∀ family ∈ rules.plcFamilies, ¬ SpellsAddress family text := by
  rw [← Option.not_isSome_iff_eq_none, parsePlcAddress_isSome_iff hdot hp]
  exact ⟨fun hn family hf hs => hn ⟨family, hf, hs⟩,
    fun hall ⟨family, hf, hs⟩ => hall family hf hs⟩

end Addresses

section Conventions

variable {rules : IdentifierRules} {conventions : Finset Convention}
  {families : Finset PlcFamily} {formats : List (Text × Pat)} {text : Text}
  {forms : NormalizedForms}

def rescoped (rules : IdentifierRules) (conventions : Finset Convention)
    (families : Finset PlcFamily) (formats : List (Text × Pat)) : IdentifierRules :=
  { rules with
    conventions := conventions
    plcFamilies := families
    crossReferenceFormats := formats }

theorem rescoped_terminalPrefixes :
    (rescoped rules conventions families formats).terminalPrefixes = rules.terminalPrefixes := rfl

theorem rescoped_allAspects :
    (rescoped rules conventions families formats).allAspects = rules.allAspects := rfl

theorem rescoped_connectionPointSeparator :
    (rescoped rules conventions families formats).connectionPointSeparator =
      rules.connectionPointSeparator := rfl

theorem rescoped_conventions :
    (rescoped rules conventions families formats).conventions = conventions := rfl

theorem rescoped_cnLetterCodes :
    (rescoped rules conventions families formats).cnLetterCodes = rules.cnLetterCodes := rfl

theorem rescoped_nfpaCodes :
    (rescoped rules conventions families formats).nfpaCodes = rules.nfpaCodes := rfl

theorem pickConvention_rescoped (hsub : conventions ⊆ rules.conventions)
    {candidates : List Convention} {c : Convention}
    (h : pickConvention (rescoped rules conventions families formats) candidates = some c) :
    ∃ d, pickConvention rules candidates = some d := by
  refine Option.isSome_iff_exists.mp ?_
  rw [pickConvention, List.find?_isSome]
  have hp := List.find?_some h
  rw [decide_eq_true_eq] at hp
  exact ⟨c, List.mem_of_find?_eq_some h, decide_eq_true (hsub hp)⟩

variable {numberFirst : Bool}

theorem terminalConvention_rescoped (hsub : conventions ⊆ rules.conventions) {name : Text}
    {c : Convention}
    (h : terminalConvention (rescoped rules conventions families formats) numberFirst name =
      some c) :
    ∃ d, terminalConvention rules numberFirst name = some d := by
  unfold terminalConvention at h ⊢
  split_ifs at h ⊢ with hn hb
  · exact pickConvention_rescoped hsub h
  · exact pickConvention_rescoped hsub h
  · exact pickConvention_rescoped hsub h

variable {x : Terminal}

section

variable (hsub : conventions ⊆ rules.conventions)
include hsub

theorem terminalOfMatch_rescoped {caught : Caught}
    (h : terminalOfMatch (rescoped rules conventions families formats) numberFirst caught =
      some x) :
    ∃ y, terminalOfMatch rules numberFirst caught = some y ∧ y.point = x.point ∧
      y.issues = x.issues := by
  obtain ⟨c, hc, rfl⟩ := Option.map_eq_some_iff.mp h
  obtain ⟨d, hd⟩ := terminalConvention_rescoped hsub hc
  refine ⟨⟨[], textOf caught .strip, (checkLabel rules (textOf caught .point)).1, d,
    deviceClass (stripName rules (textOf caught .strip)),
    (checkLabel rules (textOf caught .point)).2⟩, ?_, rfl, rfl⟩
  exact Option.map_eq_some_iff.mpr ⟨d, hd, rfl⟩

/-- A terminal of a chain under narrowed rules was one before. -/
theorem terminalOfChain_rescoped
    (h : terminalOfChain (rescoped rules conventions families formats) text = some x) :
    ∃ y, terminalOfChain rules text = some y ∧ y.point = x.point ∧ y.issues = x.issues := by
  obtain ⟨chain, hc, hx⟩ := Option.bind_eq_some_iff.mp h
  have hs : splitChain rules text = some chain := hc
  rw [terminalOfChain, hs, Option.bind_some]
  split_ifs at hx ⊢ with hi
  split at hx
  case h_2 => cases hx
  case h_1 point last convention hp hl hpi =>
    obtain ⟨d, hd⟩ := pickConvention_rescoped hsub hpi
    split_ifs at hx with hw
    cases hx
    simp only [hp, hl, hd]
    exact ⟨_, if_pos hw, rfl, rfl⟩

theorem splitTerminal_rescoped
    (h : splitTerminal (rescoped rules conventions families formats) text = some x) :
    ∃ y, splitTerminal rules text = some y ∧ y.point = x.point ∧ y.issues = x.issues := by
  have hx := h
  rw [splitTerminal, rescoped_terminalPrefixes, rescoped_allAspects,
    rescoped_connectionPointSeparator] at hx
  rw [splitTerminal]
  by_cases hn : rules.terminalPrefixes = []
  · rw [if_pos hn] at hx
    cases hx
  rw [if_neg hn] at hx ⊢
  by_cases ha : startsWith text rules.allAspects
  · rw [if_pos ha] at hx ⊢
    exact terminalOfChain_rescoped hsub hx
  rw [if_neg ha] at hx ⊢
  cases hb : (barePattern rules.terminalPrefixes rules.connectionPointSeparator).fullMatch
    text with
  | some caught =>
    rw [hb] at hx
    exact terminalOfMatch_rescoped hsub hx
  | none =>
    rw [hb] at hx
    obtain ⟨caught, hc, hf⟩ := Option.bind_eq_some_iff.mp hx
    obtain ⟨y, hy, hs⟩ := terminalOfMatch_rescoped hsub hf
    exact ⟨y, Option.bind_eq_some_iff.mpr ⟨caught, hc, hy⟩, hs⟩

theorem parseTerminal_rescoped (h : parseTerminal rules text forms = none) :
    parseTerminal (rescoped rules conventions families formats) text forms = none := by
  rw [parseTerminal] at h ⊢
  by_cases hc : (charset.fullMatch text).isNone ∨ tilde ∈ text
  · rw [if_pos hc]
  rw [if_neg hc] at h ⊢
  cases hs : splitTerminal (rescoped rules conventions families formats) text with
  | none => rfl
  | some x =>
    obtain ⟨y, hy, hp, hi⟩ := splitTerminal_rescoped hsub hs
    rw [hy, Option.bind_some, hp, hi] at h
    rw [Option.bind_some]
    split_ifs at h ⊢ with he
    rfl

/-- A designation under narrowed rules was one before. -/
theorem parseReferenceDesignation_rescoped {x : ParsedIdentifier}
    (h : parseReferenceDesignation (rescoped rules conventions families formats) text forms =
      some x) :
    ∃ y, parseReferenceDesignation rules text forms = some y ∧ y.valid = x.valid ∧
      y.aspects = x.aspects := by
  rw [parseReferenceDesignation] at h ⊢
  by_cases hp : (prose.fullMatch text).isNone
  · rw [if_pos hp] at h
    cases h
  rw [if_neg hp] at h ⊢
  obtain ⟨chain, hch, hx⟩ := Option.bind_eq_some_iff.mp h
  obtain ⟨c, hc, rfl⟩ := Option.map_eq_some_iff.mp hx
  obtain ⟨d, hd⟩ := pickConvention_rescoped hsub hc
  have hs : splitChain rules text = some chain := hch
  rw [hs, Option.bind_some, hd, Option.map_some]
  exact ⟨_, rfl, rfl, rfl⟩

theorem classifyCode_rescoped {code : Text} (h : classifyCode rules code numberFirst = none) :
    classifyCode (rescoped rules conventions families formats) code numberFirst = none := by
  rw [classifyCode] at h
  split at h
  case h_1 => cases h
  case h_2 hcn =>
    have hnoCn : (if .cnLetterCodes ∈ conventions then rules.cnLetterCodes.lookup code
        else none) = none := by
      split_ifs at hcn ⊢ with hn hw hw
      · exact hcn
      · exact absurd (hsub hn) hw
      · rfl
      · rfl
    have hnoNfpa : (if numberFirst = false ∧ .nfpaJic ∈ conventions then
        (rules.nfpaCodes.lookup code).map fun device => (Convention.nfpaJic, device)
        else none) = none := by
      split_ifs at h ⊢ with hn hw hw
      · exact h
      · exact absurd ⟨hn.1, hsub hn.2⟩ hw
      · rfl
      · rfl
    rw [classifyCode, rescoped_conventions, rescoped_cnLetterCodes, rescoped_nfpaCodes, hnoCn]
    exact hnoNfpa

theorem letterCode_rescoped {caught : Caught} (h : letterCode rules forms numberFirst caught = none)
    : letterCode (rescoped rules conventions families formats) forms numberFirst caught = none := by
  rw [letterCode, Option.map_eq_none_iff] at h ⊢
  exact classifyCode_rescoped hsub h

theorem parseLetterCode_rescoped (h : parseLetterCode rules text forms = none) :
    parseLetterCode (rescoped rules conventions families formats) text forms = none := by
  rw [parseLetterCode] at h ⊢
  rw [rescoped_connectionPointSeparator]
  cases hl : (lettersFirst rules.connectionPointSeparator).fullMatch text with
  | some caught =>
    rw [hl] at h
    exact letterCode_rescoped hsub h
  | none =>
    rw [hl] at h
    refine Option.bind_eq_none_iff.mpr fun caught hc => ?_
    exact letterCode_rescoped hsub (Option.bind_eq_none_iff.mp h caught hc)

end

end Conventions

section Labels

variable {u : Unicode} {rules : IdentifierRules} {label text : Text} {forms : NormalizedForms}

structure IsLabel (label : Text) : Prop where
  short : label.length ≤ maxVoltageLabelChars
  symbols : ∀ c ∈ label, isLabelSymbol c = true
  telling : label.any asciiAlnum = true

structure FromPackage (rules : IdentifierRules) : Prop where
  aspects : ∀ sign ∈ rules.allAspects, sign ∈ packaged.allAspects
  formats : ∀ format ∈ rules.crossReferenceFormats, format ∈ crossReferences
  wires : ∀ pattern ∈ rules.wireNumberPatterns, pattern ∈ wireNumbers
  roles : rules.connectionPointRoles = packaged.connectionPointRoles

theorem isLabelSymbol_iff {c : CodePoint} : isLabelSymbol c = true ↔
    (0x41 ≤ c.val ∧ c.val ≤ 0x5A) ∨ (0x30 ≤ c.val ∧ c.val ≤ 0x39) ∨ c.val = 0x2B ∨
      c.val = 0x2D := by
  simp only [isLabelSymbol, isAsciiUpper, isAsciiDigit, Bool.or_eq_true, Bool.and_eq_true,
    decide_eq_true_eq, or_assoc]

theorem isPlain_of_isLabelSymbol {c : CodePoint} (h : isLabelSymbol c = true) : IsPlain c := by
  rw [isLabelSymbol_iff] at h
  rw [IsPlain]
  omega

theorem IsLabel.isPlain (h : IsLabel label) : ∀ c ∈ label, IsPlain c :=
  fun c hc => isPlain_of_isLabelSymbol (h.symbols c hc)

theorem IsLabel.isAscii (h : IsLabel label) : IsAscii label := fun c hc => by
  have := (h.isPlain c hc).2
  omega

theorem IsLabel.ne (h : IsLabel label) {n : ℕ} (hn : n = 0x25 ∨ n = 0x2E ∨ n = 0x2F ∨ n = 0x7E) :
    ∀ c ∈ label, c.val ≠ n := by
  intro c hc
  have hs := isLabelSymbol_iff.mp (h.symbols c hc)
  omega

theorem IsLabel.any_isAlnum (h : IsLabel label) : label.any u.isAlnum = true := by
  obtain ⟨c, hc, ha⟩ := List.any_eq_true.mp h.telling
  exact List.any_eq_true.mpr ⟨c, hc, by rwa [u.isAlnum_ascii c (h.isAscii c hc)]⟩

theorem parse_of_isLabel (h : IsLabel label) :
    parse u rules label none =
      order.findSome? fun kind => kind.2 rules label (normalize u label) := by
  have hl : label.length ≤ maxTextChars := h.short.trans (by decide)
  exact parse_of_plain h.isPlain hl h.telling

theorem demands_crossReferences {format : Text × Pat} (h : format ∈ crossReferences) :
    format.2.Demands fun c => c.val = 0x2E ∨ c.val = 0x2F := by
  simp only [crossReferences, List.mem_cons, List.not_mem_nil, or_false] at h
  rcases h with rfl | rfl | rfl | rfl
  · exact .inl (.inr fun c hc => .inl (of_decide_eq_true hc))
  · exact .inl (.inr fun c hc => .inl (of_decide_eq_true hc))
  · exact .inl (.inr fun c hc => .inl (of_decide_eq_true hc))
  · exact .inl (.inr fun c hc => .inr (of_decide_eq_true hc))

theorem parseCrossReference_of_isLabel (h : IsLabel label)
    (hr : ∀ format ∈ rules.crossReferenceFormats, format ∈ crossReferences) :
    parseCrossReference rules label forms = none := by
  rw [parseCrossReference, Option.map_eq_none_iff, List.find?_eq_none]
  intro format hf hm
  obtain ⟨c, hc, hval⟩ := exists_mem_of_demands (demands_crossReferences (hr format hf))
    (fullMatch_isSome_iff.mp hm)
  have hdot := h.ne (n := 0x2E) (by simp) c hc
  have hs := h.ne (n := 0x2F) (by simp) c hc
  exact hval.elim hdot hs

theorem parseBridge_of_isLabel (h : IsLabel label) : parseBridge rules label forms = none := by
  have ht : tilde ∉ label := fun hmem => h.ne (n := 0x7E) (by simp) tilde hmem rfl
  rw [parseBridge, List.count_eq_zero_of_not_mem ht]
  exact if_pos (.inl Nat.zero_ne_one)

def ReadsRail (rules : IdentifierRules) (label : Text) (forms : NormalizedForms) : Prop :=
  ∃ found, parseReferenceDesignation rules label forms = some found ∧ found.valid = true ∧
    isRail found.aspects = true

/-- A label is safe exactly when no recogniser but its own reads it. -/
theorem otherKind_eq_none_iff (h : IsLabel label) (hr : FromPackage rules) :
    otherKind u rules label = none ↔ parsePlcAddress rules label (normalize u label) = none ∧
      (label ∈ rules.voltageLabels ∨ parseTerminal rules label (normalize u label) = none ∧
        (ReadsRail rules label (normalize u label) ∨
          parseReferenceDesignation rules label (normalize u label) = none ∧
          parseLetterCode rules label (normalize u label) = none ∧
          parseWireNumber rules label (normalize u label) = none ∧
          parseConnectionPoint rules label (normalize u label) = none)) := by
  rw [otherKind, parse_of_isLabel h]
  generalize normalize u label = forms
  simp only [order, List.findSome?_cons, List.findSome?_nil,
    parseCrossReference_of_isLabel h hr.formats, parseBridge_of_isLabel h]
  cases hplc : parsePlcAddress rules label forms with
  | some found =>
    have hk := (recognises_plcAddress.spec hplc).1
    simp [hk]
  | none =>
    simp only [true_and, parseVoltage]
    by_cases hv : label ∈ rules.voltageLabels
    · simp [hv]
    simp only [hv, if_false, false_or]
    cases ht : parseTerminal rules label forms with
    | some found => simp [(recognises_terminal.spec ht).1]
    | none =>
      simp only [true_and]
      cases hd : parseReferenceDesignation rules label forms with
      | some found =>
        simp [(recognises_referenceDesignation.spec hd).1, ReadsRail, hd]
      | none =>
        simp only [ReadsRail, hd, reduceCtorEq, false_and, exists_false, false_or,
          true_and]
        cases hl : parseLetterCode rules label forms with
        | some found => simp [(recognises_letterCode.spec hl).1]
        | none =>
          simp only [true_and]
          cases hw : parseWireNumber rules label forms with
          | some found => simp [(recognises_wireNumber.spec hw).1]
          | none =>
            cases hp : parseConnectionPoint rules label forms with
            | some found => simp [(recognises_connectionPoint.spec hp).1]
            | none => simp

section Signs

variable {c : CodePoint} {rest : Text}

theorem asciiAlnum_of_isAsciiUpper (h : isAsciiUpper c = true) : asciiAlnum c = true := by
  simp [asciiAlnum, h]

theorem asciiAlnum_of_isAsciiDigit (h : isAsciiDigit c = true) : asciiAlnum c = true := by
  simp [asciiAlnum, h]

theorem fullMatch_of_opens {pattern : Pat} (ho : pattern.Opens fun c => asciiAlnum c = true)
    (h : ¬ asciiAlnum c = true) : pattern.fullMatch (c :: rest) = none := by
  rw [← Option.not_isSome_iff_eq_none, fullMatch_isSome_iff]
  exact fun hw => h (head_of_opens (P := fun c => asciiAlnum c = true) ho hw)

theorem parseLetterCode_of_sign (h : ¬ asciiAlnum c = true) :
    parseLetterCode rules (c :: rest) forms = none := by
  have hl : (lettersFirst rules.connectionPointSeparator).Opens
      fun c => asciiAlnum c = true :=
    ⟨⟨fun _ => asciiAlnum_of_isAsciiUpper, nofun⟩, nofun⟩
  have hd : (digitsFirst rules.connectionPointSeparator).Opens
      fun c => asciiAlnum c = true :=
    ⟨⟨fun _ => asciiAlnum_of_isAsciiDigit, nofun⟩, nofun⟩
  rw [parseLetterCode, fullMatch_of_opens hl h, fullMatch_of_opens hd h]
  rfl

theorem opens_oneOf {cs : List Char} (hcs : ∀ a ∈ cs, 0x41 ≤ a.toNat ∧ a.toNat ≤ 0x5A) :
    (oneOf cs).Opens fun c => asciiAlnum c = true := by
  intro c hc
  obtain ⟨a, ha, hval⟩ := List.any_eq_true.mp hc
  have hr := hcs a ha
  rw [decide_eq_true_eq] at hval
  apply asciiAlnum_of_isAsciiUpper
  simp only [isAsciiUpper, Bool.and_eq_true, decide_eq_true_eq]
  omega

theorem opens_sym {a : Char} (ha : 0x41 ≤ a.toNat ∧ a.toNat ≤ 0x5A) :
    (sym a).Opens fun c => asciiAlnum c = true := by
  intro c hc
  have hval := of_decide_eq_true hc
  apply asciiAlnum_of_isAsciiUpper
  simp only [isAsciiUpper, Bool.and_eq_true, decide_eq_true_eq]
  omega

theorem opens_wireNumbers {pattern : Text × Pat} (h : pattern ∈ wireNumbers) :
    pattern.2.Opens fun c => asciiAlnum c = true := by
  have hd : ∀ least most, (digits least most).Opens fun c => asciiAlnum c = true :=
    fun _ _ _ => asciiAlnum_of_isAsciiDigit
  simp only [wireNumbers, List.mem_cons, List.not_mem_nil, or_false] at h
  rcases h with rfl | rfl | rfl
  · exact ⟨opens_sym (by decide), fun _ => hd 1 5⟩
  · exact ⟨⟨⟨hd 1 4, nofun⟩, nofun⟩, nofun⟩
  · exact ⟨⟨⟨⟨⟨opens_sym (by decide), nofun⟩, opens_oneOf (by simp)⟩, nofun⟩, nofun⟩,
      ⟨⟨opens_sym (by decide), nofun⟩, nofun⟩, nofun⟩

theorem parseWireNumber_of_sign (hr : FromPackage rules) (h : ¬ asciiAlnum c = true) :
    parseWireNumber rules (c :: rest) forms = none := by
  rw [parseWireNumber, Option.map_eq_none_iff, List.find?_eq_none]
  intro pattern hp hm
  rw [fullMatch_of_opens (opens_wireNumbers (hr.wires pattern hp)) h] at hm
  cases hm

theorem parseConnectionPoint_of_sign (hr : FromPackage rules)
    (hs : isLabelSymbol c = true) (h : ¬ asciiAlnum c = true) :
    parseConnectionPoint rules (c :: rest) forms = none := by
  have hk : ∀ entry ∈ packaged.connectionPointRoles,
      entry.1.head?.any asciiAlnum = true := by decide +kernel
  rw [parseConnectionPoint, Option.map_eq_none_iff, roleOf, hr.roles, List.lookup_eq_none_iff]
  intro entry he
  have hkey := hk entry he
  rw [bne_iff_ne]
  intro heq
  rw [← heq, List.map_cons, asciiUpper_of_isPlain (isPlain_of_isLabelSymbol hs)] at hkey
  exact h hkey

theorem startsWith_of_splitChain {chain : Chain} (h : splitChain rules text = some chain) :
    startsWith (text.takeWhile (· ≠ rules.connectionPointSeparator)) rules.allAspects = true := by
  by_contra hno
  simp only [splitChain, hno, if_false, reduceCtorEq] at h

theorem exists_sign_of_designation {found : ParsedIdentifier} (hr : FromPackage rules)
    (h : parseReferenceDesignation rules text forms = some found) :
    ∃ c rest, text = c :: rest ∧ ¬ asciiAlnum c = true := by
  have hsi : ∀ sign ∈ packaged.allAspects, sign.head?.any (fun c => !asciiAlnum c) = true := by
    decide +kernel
  rw [parseReferenceDesignation] at h
  split_ifs at h
  obtain ⟨chain, hc, -⟩ := Option.bind_eq_some_iff.mp h
  obtain ⟨sign, hsg, hf⟩ := List.any_eq_true.mp (startsWith_of_splitChain hc)
  have hfi := hsi sign (hr.aspects sign hsg)
  rw [Option.any_eq_true] at hfi
  obtain ⟨s, hs, ha⟩ := hfi
  obtain ⟨tail, rfl⟩ := List.head?_eq_some_iff.mp hs
  cases text with
  | nil => cases hf
  | cons c rest =>
    refine ⟨c, rest, rfl, ?_⟩
    rw [List.takeWhile_cons] at hf
    split at hf
    · rw [List.isPrefixOf_cons_cons, Bool.and_eq_true, beq_iff_eq] at hf
      simpa [hf.1] using ha
    · cases hf

end Signs

/-- A label that no rules read as another kind passes the same rules under other conventions,
families and formats exactly when it spells no address of those families. -/
theorem otherKind_rescoped {conventions : Finset Convention} {families : Finset PlcFamily}
    {formats : List (Text × Pat)} (hla : IsLabel label) (hru : FromPackage rules)
    (hf : ∀ format ∈ formats, format ∈ crossReferences)
    (hsub : conventions ⊆ rules.conventions) (h : otherKind u rules label = none) :
    otherKind u (rescoped rules conventions families formats) label = none ↔
      ∀ family ∈ families, ¬ SpellsAddress family label := by
  have hr : FromPackage (rescoped rules conventions families formats) :=
    ⟨hru.aspects, hf, hru.wires, hru.roles⟩
  rw [otherKind_eq_none_iff hla hr, parsePlcAddress_eq_none_iff
    (hla.ne (.inr (.inl rfl))) (hla.ne (.inl rfl))]
  refine and_iff_left ?_
  obtain ⟨-, hv | ⟨ht, hre⟩⟩ := (otherKind_eq_none_iff hla hru).mp h
  · exact .inl hv
  refine .inr ⟨parseTerminal_rescoped hsub ht, ?_⟩
  cases hd : parseReferenceDesignation (rescoped rules conventions families formats) label
      (normalize u label) with
  | some found =>
    obtain ⟨wide, hw, hva, ha⟩ :=
      parseReferenceDesignation_rescoped hsub hd
    rcases hre with ⟨rail, hrl, hra, hi⟩ | ⟨hn, -⟩
    · obtain rfl := Option.mem_unique hw hrl
      exact .inl ⟨found, hd, hva ▸ hra, ha ▸ hi⟩
    · rw [hw] at hn
      cases hn
  | none =>
    refine .inr ⟨rfl, ?_⟩
    rcases hre with ⟨rail, hrl, -, -⟩ | ⟨-, hl, hwi, hp⟩
    · obtain ⟨c, rest, rfl, hs⟩ := exists_sign_of_designation hru hrl
      exact ⟨parseLetterCode_of_sign hs, parseWireNumber_of_sign hr hs,
        parseConnectionPoint_of_sign hr (hla.symbols c List.mem_cons_self) hs⟩
    · exact ⟨parseLetterCode_rescoped hsub hl, hwi, hp⟩

end Labels

end Aizzak.VoltageLabels
