import Aizzak.ParserResults
import Aizzak.PlcSpellings
import Aizzak.RuleNarrowing

/-!
The search keys of a PLC address. Every key spells the address, and one of them depends on nothing
but the address, so two addresses meet under a key exactly when they are one.
-/
namespace Aizzak.PlcKeys

open BacktrackingPatterns PyText Normalization IdentifierParsers DigitRuns PlcSpellings List
  ParserResults RuleNarrowing

section Keys

variable {family : PlcFamily} {text key : Text} {place : Place} {forms : NormalizedForms}
  {extra : List String} {bs : Option Text} {width : Width}

/-- A bit of a bit address and of no other, among the eight of a byte. -/
structure Coherent (place : Place) : Prop where
  width : place.width = .bit ↔ place.bit ≠ none
  bit : ∀ b ∈ place.bit, b ≤ 7

def numbersText (place : Place) : Text :=
  decimal place.byte ++ bitText (place.bit.map decimal)

def mainKey (place : Place) : Text :=
  match place.dbNumber with
  | none => place.area ++ letterOf place.width ++ numbersText place
  | some n =>
    ofString "DB" ++ (decimal n ++ (ofString ".DB" ++ blockLetter place.width ++
      numbersText place))

def rendered (style : Style) (place : Place) : Text :=
  render style place.area place.width place.byte place.bit

def keysOf (family : PlcFamily) (place : Place) (text : Text) : List Text :=
  dedupe <|
    if family ≠ .s7Db ∧ family ≠ .s7200 then
      [text, rendered .en place, rendered .tia place, rendered .de place]
    else [text, stripLeadingZeros text]

theorem issues_written : (written forms family place extra).issues = extra ++
    (if place.bit.any (7 < ·) then ["plc.bit_out_of_range"] else []) ++
      (if place.width = .bit ∧ place.bit = none then ["plc.bit_missing"] else []) ++
        if place.width ≠ .bit ∧ place.bit ≠ none then ["plc.bit_on_non_bit_width"] else [] := rfl

theorem valid_written_iff :
    (written forms family place extra).valid = true ↔ extra = [] ∧ Coherent place := by
  have hv : (written forms family place extra).valid =
      (written forms family place extra).issues.isEmpty := rfl
  rw [hv, List.isEmpty_iff, issues_written, List.append_eq_nil_iff, List.append_eq_nil_iff,
    List.append_eq_nil_iff, and_assoc, and_assoc]
  refine and_congr_right fun _ => ?_
  simp only [ite_eq_right_iff, List.cons_ne_nil, imp_false, Bool.not_eq_true, Option.any_eq_false,
    decide_eq_false_iff_not]
  constructor
  · rintro ⟨hbit, hm, hs⟩
    refine ⟨⟨fun hw hn => hm ⟨hw, hn⟩, fun hso => ?_⟩, fun b hb => ?_⟩
    · by_contra hw
      exact hs ⟨hw, hso⟩
    · have := hbit b hb
      omega
  · rintro ⟨hw, hbit⟩
    refine ⟨fun b hb => ?_, fun h => hw.mp h.1 h.2, fun h => h.1 (hw.mpr h.2)⟩
    have := hbit b hb
    omega

theorem searchKeys_written (hv : (written forms family place extra).valid = true) :
    (written forms family place extra).forms.searchKeys = keysOf family place forms.canonical := by
  have hi : (written forms family place extra).issues = [] := isEmpty_iff.mp hv
  rw [issues_written] at hi
  have hk : (written forms family place extra).forms.searchKeys = dedupe
      (if decide (family ≠ .s7Db ∧ family ≠ .s7200) = true ∧ extra ++
          (if place.bit.any (7 < ·) then ["plc.bit_out_of_range"] else []) ++
            (if place.width = .bit ∧ place.bit = none then ["plc.bit_missing"] else []) ++
              (if place.width ≠ .bit ∧ place.bit ≠ none then ["plc.bit_on_non_bit_width"]
                else []) = [] then
        [forms.canonical, rendered .en place, rendered .tia place, rendered .de place]
      else [forms.canonical, stripLeadingZeros forms.canonical]) := rfl
  rw [hk, hi]
  simp only [decide_eq_true_eq, and_true]
  rfl

def familyOf : Style → PlcFamily
  | .en => .s7En
  | .tia => .tia
  | .de => .s7De

def markOf (style : Style) (area : Text) : Mark :=
  match style with
  | .en => ⟨area, [], area⟩
  | .tia =>
    ⟨ofString "%" ++ area.drop (area.length - 1),
      if (ofString "P").isPrefixOf area then ofString ":P" else [], area⟩
  | .de => ⟨german area, [], area⟩

theorem rendered_eq (style : Style) (h : Coherent place) :
    rendered style place = (markOf style place.area).front ++ letterOf place.width ++
      numbersText place ++ (markOf style place.area).back := by
  have hn : (if place.width = .bit then
        decimal place.byte ++ ofString "." ++ place.bit.elim (ofString "None") decimal
      else letterOf place.width ++ decimal place.byte) =
        letterOf place.width ++ numbersText place := by
    rw [numbersText]
    by_cases hw : place.width = .bit
    · obtain ⟨b, hb⟩ := Option.ne_none_iff_exists'.mp (h.width.mp hw)
      rw [if_pos hw, hw, hb, append_assoc]
      rfl
    · have hb : place.bit = none := not_not.mp fun hs => hw (h.width.mpr hs)
      rw [if_neg hw, hb, Option.map_none, bitText, Option.elim_none, append_nil]
  unfold rendered render
  rw [hn]
  cases style with
  | en => simp only [markOf, append_nil, append_assoc]
  | tia => simp only [markOf, append_assoc]
  | de => simp only [markOf, append_nil, append_assoc]

theorem runOf_decimal {most : ℕ} {ds : Text} (h : RunOf most ds) :
    RunOf most (decimal (number ds)) :=
  ⟨isDigits_decimal _, (length_decimal_le h.1).trans h.2⟩

theorem numbers_of_spells (h : Spells family text place) :
    RunOf 5 (decimal place.byte) ∧ (∀ bs ∈ place.bit.map decimal, RunOf 3 bs) ∧
      ∀ n ∈ place.dbNumber, RunOf 5 (decimal n) := by
  have hb : ∀ {bs : Option Text}, (∀ b ∈ bs, RunOf 3 b) →
      ∀ b ∈ (bs.map number).map decimal, RunOf 3 b := by
    rintro (_ | bs) hbs b ⟨⟩
    exact runOf_decimal (hbs bs rfl)
  cases h with
  | plain _ hds hbs => exact ⟨runOf_decimal hds, hb hbs, nofun⟩
  | block hdb hds hbs =>
    refine ⟨runOf_decimal hds, hb hbs, ?_⟩
    rintro n ⟨⟩
    exact runOf_decimal hdb

theorem dbNumber_of_spells (h : Spells family text place) (hf : family ≠ .s7Db) :
    place.dbNumber = none := by
  cases h with
  | plain => rfl
  | block => exact absurd rfl hf

theorem number_bits (bit : Option ℕ) : (bit.map decimal).map number = bit := by
  cases bit with
  | none => rfl
  | some b => exact congrArg some (number_decimal b)

theorem spells_numbers (place : Place) {m : Mark} (hm : m ∈ marksOf family)
    (hb : RunOf 5 (decimal place.byte)) (hbi : ∀ b ∈ place.bit.map decimal, RunOf 3 b)
    (ha : m.area = place.area) (hdb : place.dbNumber = none) :
    Spells family (m.front ++ letterOf place.width ++ numbersText place ++ m.back) place := by
  have hp : (⟨m.area, place.width, number (decimal place.byte),
      (place.bit.map decimal).map number, none⟩ : Place) = place := by
    rw [ha, number_decimal, number_bits, ← hdb]
  have hs := @Spells.plain _ _ place.width _ _ hm hb hbi
  rw [hp] at hs
  simpa only [numbersText, append_assoc] using hs

/-- Each rendering of an input, an output, the memory or the peripheral spells the address. -/
theorem spells_rendered (style : Style) (h : Spells family text place) (hc : Coherent place)
    (hf : family ≠ .s7Db ∧ family ≠ .s7200) :
    Spells (familyOf style) (rendered style place) place := by
  have hm : ∀ family ∈ families, family ≠ .s7Db ∧ family ≠ .s7200 →
      ∀ area ∈ areasOf family, markOf style area ∈ marksOf (familyOf style) ∧
        (markOf style area).area = area := by
    cases style <;> decide
  obtain ⟨hma, ha⟩ := hm family (mem_families family) hf _ h.area_mem
  obtain ⟨hb, hbi, -⟩ := numbers_of_spells h
  rw [rendered_eq style hc]
  exact spells_numbers place hma hb hbi ha (dbNumber_of_spells h hf.1)

theorem stripLeadingZeros_bitText (hbs : ∀ b ∈ bs, RunOf 3 b) :
    stripLeadingZeros (bitText bs) = bitText ((bs.map number).map decimal) := by
  cases bs with
  | none => rfl
  | some b =>
    have hp : NoDigits (ofString ".") := by decide
    rw [bitText, Option.elim_some, strip_of_noDigits hp, ← decimal_number (hbs b rfl).1]
    rfl

theorem stripLeadingZeros_numbers {ds : Text} (hds : RunOf 5 ds) (hbs : ∀ b ∈ bs, RunOf 3 b) :
    stripLeadingZeros (ds ++ bitText bs) =
      decimal (number ds) ++ bitText ((bs.map number).map decimal) := by
  have hend : EndsRun (bitText bs) := by
    rw [← append_nil (bitText bs)]
    exact endsRun_bitText nofun
  rw [stripLeadingZeros_append ds hend, decimal_number hds.1, stripLeadingZeros_bitText hbs]

section

variable (h : Spells family text place)
include h

/-- Without leading zeros the addresses of the other two families depend on nothing else. -/
theorem stripLeadingZeros_of_spells (hf : ¬ (family ≠ .s7Db ∧ family ≠ .s7200)) :
    stripLeadingZeros text = mainKey place := by
  cases h with
  | @plain _ m width ds bs hma hds hbs =>
    have hm : ∀ family ∈ families, ¬ (family ≠ .s7Db ∧ family ≠ .s7200) →
        ∀ m ∈ marksOf family, m.front = m.area ∧ m.back = [] := by
      decide
    obtain ⟨hfr, hba⟩ := hm family (mem_families family) hf m hma
    rw [hba, append_nil, strip_of_noDigits (noDigits_front hma),
      stripLeadingZeros_numbers hds hbs, hfr]
    rfl
  | @block width db ds bs hdb hds hbs =>
    have hb : NoDigits (ofString "DB") := by decide
    have hl : NoDigits (ofString ".DB" ++ blockLetter width) := by
      cases width <;> decide
    have hdot : EndsRun (ofString ".DB" ++ blockLetter width ++ (ds ++ bitText bs)) := by
      rintro c ⟨⟩
      decide
    rw [strip_of_noDigits hb, stripLeadingZeros_append db hdot, strip_of_noDigits hl,
      stripLeadingZeros_numbers hds hbs, ← decimal_number hdb.1]
    rfl

theorem spells_mainKey (hf : ¬ (family ≠ .s7Db ∧ family ≠ .s7200)) :
    Spells family (mainKey place) place := by
  obtain ⟨hb, hbi, hdb⟩ := numbers_of_spells h
  cases h with
  | @plain _ m width ds bs hma hds hbs =>
    have hm : ∀ family ∈ families, ¬ (family ≠ .s7Db ∧ family ≠ .s7200) →
        ∀ m ∈ marksOf family, m.front = m.area ∧ m.back = [] := by
      decide
    obtain ⟨hfr, hba⟩ := hm family (mem_families family) hf m hma
    have hs := spells_numbers ⟨m.area, width, number ds, bs.map number, none⟩ hma hb
      hbi rfl rfl
    rwa [hba, append_nil, hfr] at hs
  | @block width db ds bs _ _ _ =>
    have hs := @Spells.block width _ _ _ (hdb _ rfl) hb hbi
    rwa [number_decimal, number_decimal, number_bits] at hs

theorem spells_of_mem_keys (hc : Coherent place) (hkey : key ∈ keysOf family place text) :
    ∃ other, Spells other key place := by
  rw [keysOf, mem_dedupe] at hkey
  obtain ⟨hkey, -⟩ := hkey
  split_ifs at hkey with hf
  · simp only [mem_cons, not_mem_nil, or_false] at hkey
    rcases hkey with rfl | rfl | rfl | rfl
    · exact ⟨family, h⟩
    · exact ⟨.s7En, spells_rendered .en h hc hf⟩
    · exact ⟨.tia, spells_rendered .tia h hc hf⟩
    · exact ⟨.s7De, spells_rendered .de h hc hf⟩
  · simp only [mem_cons, not_mem_nil, or_false] at hkey
    rcases hkey with rfl | rfl
    · exact ⟨family, h⟩
    · rw [stripLeadingZeros_of_spells h hf]
      exact ⟨family, spells_mainKey h hf⟩

theorem ne_nil_of_spells : text ≠ [] := by
  cases h with
  | plain _ hds _ =>
    intro hnil
    exact hds.1.1 (append_eq_nil_iff.mp (append_eq_nil_iff.mp hnil).2).1
  | block => exact cons_ne_nil _ _

theorem mainKey_mem (hc : Coherent place) : mainKey place ∈ keysOf family place text := by
  by_cases hf : family ≠ .s7Db ∧ family ≠ .s7200
  · have hm : mainKey place = rendered .en place := by
      rw [mainKey, dbNumber_of_spells h hf.1, rendered_eq .en hc, markOf,
        append_nil]
    rw [keysOf, mem_dedupe, if_pos hf, hm]
    exact ⟨by simp, ne_nil_of_spells (spells_rendered .en h hc hf)⟩
  · rw [keysOf, mem_dedupe, if_neg hf, ← stripLeadingZeros_of_spells h hf]
    refine ⟨by simp, ?_⟩
    rw [stripLeadingZeros_of_spells h hf]
    exact ne_nil_of_spells (spells_mainKey h hf)

end

end Keys

section Symbols

variable {family : PlcFamily} {text : Text} {place : Place} {bs : Option Text}

theorem all_bitText {P : CodePoint → Bool} (hdot : P dot = true)
    (hbs : ∀ b ∈ bs, ∀ c ∈ b, P c = true) : ∀ c ∈ bitText bs, P c = true := by
  cases bs with
  | none => exact fun c hc => absurd hc not_mem_nil
  | some b => exact forall_mem_cons.mpr ⟨hdot, hbs b rfl⟩

theorem all_of_spells {P : CodePoint → Bool} (hdi : ∀ c, isAsciiDigit c = true → P c = true)
    (hdot : P dot = true)
    (hm : ∀ m ∈ marksOf family, ∀ width, (m.front ++ letterOf width ++ m.back).all P = true)
    (hbl : ∀ width, (ofString "DB" ++ (ofString ".DB" ++ blockLetter width)).all P = true)
    (h : Spells family text place) : ∀ c ∈ text, P c = true := by
  have hd : ∀ {most : ℕ} {ds : Text}, RunOf most ds → ∀ c ∈ ds, P c = true :=
    fun hds c hc => hdi c (hds.1.2 c hc)
  have hbi : ∀ {bs : Option Text}, (∀ b ∈ bs, RunOf 3 b) → ∀ c ∈ bitText bs, P c = true :=
    fun hbs => all_bitText hdot fun b hb => hd (hbs b hb)
  cases h with
  | @plain _ m width ds bs hma hds hbs =>
    obtain ⟨hf, hba⟩ :=
      forall_mem_append.mp (all_eq_true.mp (hm m hma width))
    exact forall_mem_append.mpr ⟨hf, forall_mem_append.mpr ⟨hd hds,
      forall_mem_append.mpr ⟨hbi hbs, hba⟩⟩⟩
  | @block width db ds bs hdb hds hbs =>
    obtain ⟨hf, hl⟩ := forall_mem_append.mp (all_eq_true.mp (hbl width))
    exact forall_mem_append.mpr ⟨hf, forall_mem_append.mpr ⟨hd hdb,
      forall_mem_append.mpr ⟨hl,
        forall_mem_append.mpr ⟨hd hds, hbi hbs⟩⟩⟩⟩

theorem isPlain_of_spells (h : Spells family text place) : ∀ c ∈ text, IsPlain c := by
  have hm : ∀ family ∈ families, ∀ m ∈ marksOf family, ∀ width,
      (m.front ++ letterOf width ++ m.back).all (IsPlain ·) = true := by
    intro family hf m hma width
    revert family m
    cases width <;> decide
  have hp : ∀ c ∈ text, decide (IsPlain c) = true := by
    refine all_of_spells (fun c hc => ?_) (by decide) (hm family (mem_families family))
      (fun width => by cases width <;> decide) h
    simp only [isAsciiDigit, Bool.and_eq_true, decide_eq_true_eq] at hc
    rw [decide_eq_true_eq, IsPlain]
    omega
  exact fun c hc => of_decide_eq_true (hp c hc)

theorem length_of_spells (h : Spells family text place) : text.length ≤ maxTextChars := by
  have hbi : ∀ {bs : Option Text}, (∀ b ∈ bs, RunOf 3 b) → (bitText bs).length ≤ 4 := by
    rintro (_ | b) hbs
    · exact Nat.zero_le 4
    · exact Nat.succ_le_succ (hbs b rfl).2
  cases h with
  | @plain _ m width ds bs hma hds hbs =>
    have hm : ∀ family ∈ families, ∀ m ∈ marksOf family,
        m.front.length ≤ 2 ∧ m.back.length ≤ 2 := by
      decide
    have hl : (letterOf width).length ≤ 1 := by
      cases width <;> decide
    have hma := hm family (mem_families family) m hma
    have hla := hbi hbs
    have hby := hds.2
    simp only [length_append, maxTextChars]
    omega
  | @block width db ds bs hdb hds hbs =>
    have hl : (ofString ".DB" ++ blockLetter width).length ≤ 4 := by
      cases width <;> decide
    have hf : (ofString "DB").length = 2 := by decide
    have hla := hbi hbs
    have hb := hdb.2
    have hby := hds.2
    simp only [length_append, maxTextChars] at hl ⊢
    omega

theorem any_asciiAlnum_of_spells (h : Spells family text place) :
    text.any asciiAlnum = true := by
  have hrun : ∀ {ds rest : Text}, RunOf 5 ds → (ds ++ rest).any asciiAlnum = true := by
    intro ds rest hds
    obtain ⟨c, hc⟩ := exists_mem_of_ne_nil ds hds.1.1
    refine any_eq_true.mpr ⟨c, mem_append_left rest hc, ?_⟩
    rw [asciiAlnum, hds.1.2 c hc]
    rfl
  cases h with
  | plain _ hds _ => rw [any_append, hrun hds, Bool.or_true]
  | block => rfl

theorem notMem_letterOf (width : Width) : colon ∉ letterOf width ∧ dot ∉ letterOf width := by
  cases width <;> decide

/-- The marker of the peripheral stands in the addresses of one family alone. -/
theorem not_colon_of_spells (h : Spells family text place) (hf : family ≠ .tia) :
    colon ∉ text := by
  have hm : ∀ family ∈ families, family ≠ .tia → ∀ m ∈ marksOf family, ∀ width,
      (m.front ++ letterOf width ++ m.back).all (· ≠ colon) = true := by
    intro family hf hne m hma width
    revert family m
    cases width <;> decide
  have hn : ∀ c ∈ text, decide (c ≠ colon) = true := by
    refine all_of_spells (fun c hc => ?_) (by decide)
      (hm family (mem_families family) hf) (fun width => by cases width <;> decide) h
    refine decide_eq_true ?_
    rintro rfl
    revert hc
    decide
  exact fun hco => of_decide_eq_true (hn colon hco) rfl

/-- The peripheral and, with an issue, the memory are written with the marker. -/
theorem colon_of_spells (h : Spells .tia text place) :
    (place.area ∈ peripheralAreas → colon ∈ text) ∧
      (colon ∈ text → place.area ∈ peripheralAreas ∨ place.area = ofString "M") := by
  cases h with
  | @plain _ m width ds bs hma hds hbs =>
    have hm : ∀ m ∈ marksOf .tia, (m.area ∈ peripheralAreas → colon ∈ m.back) ∧
        (colon ∈ m.front ++ m.back → m.area ∈ peripheralAreas ∨ m.area = ofString "M") := by
      decide
    obtain ⟨hb, ha⟩ := hm m hma
    refine ⟨fun hp => ?_, fun hc => ha ?_⟩
    · exact mem_append_right _ (mem_append_right _
        (mem_append_right _ (hb hp)))
    · simp only [mem_append, or_assoc] at hc ⊢
      rcases hc with hf | hl | hby | hbi | hb
      · exact .inl hf
      · exact absurd hl (notMem_letterOf width).1
      · exact absurd hby (colon_notMem_of_digits hds.1)
      · exact absurd hbi (colon_notMem_bitText hbs)
      · exact .inr hb

theorem dot_of_spells (h : Spells family text place) (hf : family ≠ .s7Db) :
    dot ∈ text ↔ place.bit ≠ none := by
  cases h with
  | @plain _ m width ds bs hma hds hbs =>
    have hm : ∀ family ∈ families, ∀ m ∈ marksOf family, dot ∉ m.front ++ m.back := by
      decide
    have hma := hm family (mem_families family) m hma
    cases bs with
    | none =>
      refine iff_of_false (fun hdot => ?_) (not_not.mpr rfl)
      simp only [bitText, Option.elim_none, nil_append, mem_append, not_or,
        or_assoc] at hdot hma
      rcases hdot with hfr | hl | hb | hba
      · exact hma.1 hfr
      · exact (notMem_letterOf width).2 hl
      · have hd := hds.1.2 dot hb
        revert hd
        decide
      · exact hma.2 hba
    | some b =>
      refine iff_of_true ?_ (Option.some_ne_none _)
      exact mem_append_right _ (mem_append_right _
        (mem_append_left _ mem_cons_self))
  | block => exact absurd rfl hf

end Symbols

section Addresses

variable {u : Unicode} {rules : IdentifierRules} {text text' : Text}
  {hint hint' : Option IdentifierKind} {p q : ParsedIdentifier}

def IsAddress (p : ParsedIdentifier) : Prop := p.kind = .plcAddress ∧ p.valid = true

instance (p : ParsedIdentifier) : Decidable (IsAddress p) := inferInstanceAs (Decidable (_ ∧ _))

def denoted (p : ParsedIdentifier) : Option Place := p.plc.map placeOf

structure ReadAt (family : PlcFamily) (place : Place) (canonical : Text) (p : ParsedIdentifier) :
    Prop where
  spells : Spells family canonical place
  coherent : Coherent place
  classic : family ≠ .tia → Classic place
  markers : markerIssues family place canonical = []
  keys : p.forms.searchKeys = keysOf family place canonical
  canonical : p.forms.canonical = canonical
  denoted : denoted p = some place

theorem exists_readAt (h : parse u rules text hint = some p) (hp : IsAddress p) :
    ∃ family place, ReadAt family place (canonicalForm u text) p := by
  obtain ⟨hk, hv⟩ := hp
  have hmem : (p.kind, parsePlcAddress) ∈ order := by
    rw [hk]
    exact mem_cons_self
  obtain ⟨inner, hi, hinnerValid, rfl⟩ := parse_valid_of_kind hmem h hv
  obtain ⟨-, hf, hplc, -⟩ := flagText_spec inner (textIssues u text)
  rcases parsePlcAddress_spec hi with rfl | ⟨family, place, hs, hcl, rfl⟩
  · cases hinnerValid
  · obtain ⟨hm, hc⟩ := valid_written_iff.mp hinnerValid
    refine ⟨family, place, hs, hc, hcl, hm, ?_, ?_, ?_⟩
    · rw [hf, searchKeys_written hinnerValid]
      rfl
    · rw [hf]
      rfl
    · rw [denoted, hplc]
      rfl

/-- Two addresses share a key exactly when they denote the same, whatever they were written as. -/
theorem shared_key_iff_same_place (hp : parse u rules text hint = some p)
    (hq : parse u rules text' hint' = some q) (hpAddress : IsAddress p) (hqAddress : IsAddress q) :
    (∃ key ∈ p.forms.searchKeys, key ∈ q.forms.searchKeys) ↔ denoted p = denoted q := by
  obtain ⟨family, place, hre⟩ := exists_readAt hp hpAddress
  obtain ⟨family', place', hr⟩ := exists_readAt hq hqAddress
  rw [hre.keys, hr.keys, hre.denoted, hr.denoted, Option.some.injEq]
  constructor
  · rintro ⟨key, hkey, hk⟩
    obtain ⟨other, hsp⟩ := spells_of_mem_keys hre.spells hre.coherent hkey
    obtain ⟨other', hs⟩ := spells_of_mem_keys hr.spells hr.coherent hk
    exact hsp.unique hs
  · rintro rfl
    exact ⟨mainKey place, mainKey_mem hre.spells hre.coherent,
      mainKey_mem hr.spells hr.coherent⟩

/-- An input in German and, with a leading zero, in the percent notation. -/
theorem german_and_tia_share_a_key :
    ∃ p q, parse asciiUnicode packaged (ofString "E0.0") none = some p ∧
      parse asciiUnicode packaged (ofString "%I00.0") none = some q ∧
        ∃ key ∈ p.forms.searchKeys, key ∈ q.forms.searchKeys := by
  have hp : (parse asciiUnicode packaged (ofString "E0.0") none).any (IsAddress ·) = true := by
    decide +kernel
  have hq : (parse asciiUnicode packaged (ofString "%I00.0") none).any (IsAddress ·) = true := by
    decide +kernel
  have hs : (parse asciiUnicode packaged (ofString "E0.0") none).map denoted =
      (parse asciiUnicode packaged (ofString "%I00.0") none).map denoted := by
    decide +kernel
  obtain ⟨p, hpr, hpAddress⟩ := (Option.any_eq_true _ _).mp hp
  obtain ⟨q, hpa, hqAddress⟩ := (Option.any_eq_true _ _).mp hq
  rw [hpr, hpa, Option.map_some, Option.map_some, Option.some.injEq] at hs
  exact ⟨p, q, hpr, hpa, (shared_key_iff_same_place hpr hpa
    (of_decide_eq_true hpAddress) (of_decide_eq_true hqAddress)).mpr hs⟩

def spelledAreas : List Text :=
  [ofString "I", ofString "Q", ofString "M", ofString "PI", ofString "PQ"]

variable {family : PlcFamily} {place : Place}

theorem mem_keysOf_iff {key : Text} (hs : Spells family text place)
    (hc : Coherent place) (hf : family ≠ .s7Db ∧ family ≠ .s7200) :
    key ∈ keysOf family place text ↔ key = text ∨ ∃ style, key = rendered style place := by
  have hne : ∀ style, rendered style place ≠ [] :=
    fun style => ne_nil_of_spells (spells_rendered style hs hc hf)
  rw [keysOf, mem_dedupe, if_pos hf]
  simp only [mem_cons, not_mem_nil, or_false]
  constructor
  · rintro ⟨rfl | rfl | rfl | rfl, -⟩
    · exact .inl rfl
    · exact .inr ⟨.en, rfl⟩
    · exact .inr ⟨.tia, rfl⟩
    · exact .inr ⟨.de, rfl⟩
  · rintro (rfl | ⟨style, rfl⟩)
    · exact ⟨.inl rfl, ne_nil_of_spells hs⟩
    · refine ⟨.inr ?_, hne style⟩
      cases style
      · exact .inl rfl
      · exact .inr (.inl rfl)
      · exact .inr (.inr rfl)

theorem colon_notMem_rendered {style : Style} (hs : Spells family text place)
    (hc : Coherent place) (ha : place.area = ofString "M") :
    colon ∉ rendered style place := by
  obtain ⟨hb, hbi, -⟩ := numbers_of_spells hs
  have hm : colon ∉ (markOf style place.area).front ∧
      colon ∉ (markOf style place.area).back := by
    rw [ha]
    cases style <;> decide
  rw [rendered_eq style hc, numbersText]
  simp only [mem_append, not_or]
  exact ⟨⟨⟨hm.1, (notMem_letterOf _).1⟩, colon_notMem_of_digits hb.1,
    colon_notMem_bitText hbi⟩, hm.2⟩

/-- A rendering is read back unless it is one of a bit of the peripheral outside its family. -/
theorem parse_rendered {style : Style} (hall : rules.plcFamilies = Finset.univ)
    (hs : Spells family text place) (hc : Coherent place)
    (hf : family ≠ .s7Db ∧ family ≠ .s7200) (hcl : Classic place) :
    ∃ q, parse u rules (rendered style place) none = some q ∧ IsAddress q ∧
      denoted q = some place := by
  have hr := spells_rendered style hs hc hf
  have hst : familyOf style ∈ [PlcFamily.s7En, .s7De, .tia] := by
    cases style <;> decide
  have hco : ¬ (place.width = .bit ∧ place.bit = none) :=
    fun h => hc.width.mp h.1 h.2
  obtain ⟨other, hfo⟩ := exists_parsePlcAddress (normalize u (rendered style place)) hall
    hr hst (fun _ => hcl) hco
  have hm : markerIssues other place (rendered style place) = [] := by
    by_cases ha : place.area = ofString "M"
    · exact markerIssues_of_notMem (colon_notMem_rendered hs hc ha)
    · exact markerIssues_of_area ha
  rw [hm] at hfo
  refine ⟨written (normalize u (rendered style place)) other place [], ?_,
    ⟨rfl, valid_written_iff.mpr ⟨rfl, hc⟩⟩, rfl⟩
  rw [parse_of_plain (isPlain_of_spells hr) (length_of_spells hr)
    (any_asciiAlnum_of_spells hr), order, List.findSome?_cons]
  dsimp only
  rw [hfo]

/-- Every other spelling that an address is indexed under is read as the address exactly when the
address is not, with a marker and a dot, a bit of the peripheral. -/
theorem spellings_parse_iff (hall : rules.plcFamilies = Finset.univ)
    (h : parse u rules text hint = some p) (hp : IsAddress p)
    (harea : ∃ address ∈ p.plc, address.area ∈ spelledAreas) :
    (∀ key ∈ p.forms.searchKeys, key ≠ p.forms.canonical →
      ∃ q, parse u rules key none = some q ∧ IsAddress q ∧ denoted q = denoted p) ↔
      ¬ (colon ∈ canonicalForm u text ∧ dot ∈ canonicalForm u text) := by
  obtain ⟨family, place, hre⟩ := exists_readAt h hp
  have hs := hre.spells
  have hc := hre.coherent
  have hf : family ≠ .s7Db ∧ family ≠ .s7200 := by
    obtain ⟨address, ha, hsp⟩ := harea
    have hpl : placeOf address = place := by
      have hd := hre.denoted
      rw [denoted, Option.mem_def.mp ha, Option.map_some] at hd
      exact Option.some.inj hd
    have har : ∀ family ∈ families, ∀ area ∈ areasOf family, area ∈ spelledAreas →
        family ≠ .s7Db ∧ family ≠ .s7200 := by
      decide
    exact har family (mem_families family) _ hs.area_mem (hpl ▸ hsp)
  rw [hre.keys, hre.canonical, hre.denoted]
  constructor
  · rintro hk ⟨hco, hdot⟩
    have htia : family = .tia := by
      by_contra hne
      exact not_colon_of_spells hs hne hco
    subst htia
    have hpe : place.area ∈ peripheralAreas := by
      refine ((colon_of_spells hs).2 hco).resolve_right fun hme => ?_
      have hm := hre.markers
      rw [markerIssues_of_colon hco hme] at hm
      cases hm
    have hbit : place.width = .bit :=
      hc.width.mpr ((dot_of_spells hs hf.1).mp hdot)
    have hen := spells_rendered .en hs hc hf
    have ho : rendered .en place ≠ canonicalForm u text := by
      intro heq
      have hh := head_of_spells hs
      rw [← heq, head_of_spells hen] at hh
      cases hh
    obtain ⟨q, hq, hqAddress, hqDenoted⟩ := hk _
      ((mem_keysOf_iff hs hc hf).mpr (.inr ⟨.en, rfl⟩)) ho
    obtain ⟨family', place', hr⟩ := exists_readAt hq hqAddress
    have hspells' := hr.spells
    rw [canonicalForm_of_isPlain (isPlain_of_spells hen)] at hspells'
    obtain rfl := hen.unique hspells'
    have hfa : family' ≠ .tia := by
      rintro rfl
      have hh := head_of_spells hspells'
      rw [head_of_spells hen] at hh
      cases hh
    exact hr.classic hfa hpe hbit
  · intro hnot key hkey hne
    obtain ⟨style, rfl⟩ :=
      ((mem_keysOf_iff hs hc hf).mp hkey).resolve_left hne
    refine parse_rendered hall hs hc hf ?_
    by_cases htia : family = .tia
    · subst htia
      intro hpe hbit
      exact hnot ⟨(colon_of_spells hs).1 hpe,
        (dot_of_spells hs hf.1).mpr (hc.width.mp hbit)⟩
    · exact hre.classic htia

/-- A word of the peripheral, written with the marker. -/
theorem peripheral_word_spellings_parse :
    ∃ p, parse asciiUnicode packaged (ofString "%IW64:P") none = some p ∧
      ∀ key ∈ p.forms.searchKeys, key ≠ p.forms.canonical →
        ∃ q, parse asciiUnicode packaged key none = some q ∧ IsAddress q ∧
          denoted q = denoted p := by
  have hp : (parse asciiUnicode packaged (ofString "%IW64:P") none).any (fun p =>
      IsAddress p ∧ ∃ address ∈ p.plc, address.area ∈ spelledAreas) = true := by
    decide +kernel
  obtain ⟨p, hpa, ht⟩ := (Option.any_eq_true _ _).mp hp
  obtain ⟨hpAddress, ha⟩ := of_decide_eq_true ht
  exact ⟨p, hpa, (spellings_parse_iff rfl hpa hpAddress ha).mpr (by decide +kernel)⟩

/-- A bit of the peripheral is indexed under an English spelling that is no address. -/
theorem peripheral_bit_spelling_unread :
    ∃ p, parse asciiUnicode packaged (ofString "%I0.0:P") none = some p ∧ IsAddress p ∧
      (∃ address ∈ p.plc, address.area ∈ spelledAreas) ∧
        ∃ key ∈ p.forms.searchKeys, key ≠ p.forms.canonical ∧
          ¬ ∃ q, parse asciiUnicode packaged key none = some q ∧ IsAddress q ∧
            denoted q = denoted p := by
  have hp : (parse asciiUnicode packaged (ofString "%I0.0:P") none).any (fun p =>
      IsAddress p ∧ (∃ address ∈ p.plc, address.area ∈ spelledAreas) ∧
        ofString "PI0.0" ∈ p.forms.searchKeys ∧ ofString "PI0.0" ≠ p.forms.canonical) = true := by
    decide +kernel
  have hkey : (parse asciiUnicode packaged (ofString "PI0.0") none).all (¬ IsAddress ·) = true := by
    decide +kernel
  obtain ⟨p, hpa, ht⟩ := (Option.any_eq_true _ _).mp hp
  obtain ⟨hpAddress, ha, hmem, hne⟩ := of_decide_eq_true ht
  refine ⟨p, hpa, hpAddress, ha, _, hmem, hne, ?_⟩
  rintro ⟨q, hq, hqAddress, -⟩
  rw [hq, Option.all_some] at hkey
  exact of_decide_eq_true hkey hqAddress

end Addresses

end Aizzak.PlcKeys
