import Aizzak.DigitRuns

/-!
The spellings of a PLC address. What stands before and behind its numbers tells the area and the
width, so a text that is spelled as an address is spelled as one address only, whichever family
it is of; the recognisers and the renderer are both read against that.
-/
namespace Aizzak.PlcSpellings

open BacktrackingPatterns Pattern PyText Normalization IdentifierParsers DigitRuns List

/-- What an address denotes, whatever the family that wrote it. -/
structure Place where
  area : Text
  width : Width
  byte : ℕ
  bit : Option ℕ
  dbNumber : Option ℕ
  deriving DecidableEq

def placeOf (address : PlcAddress) : Place :=
  ⟨address.area, address.width, address.byte, address.bit, address.dbNumber⟩

structure Mark where
  front : Text
  back : Text
  area : Text
  deriving DecidableEq

def mark (front back area : String) : Mark := ⟨ofString front, ofString back, ofString area⟩

def marksOf : PlcFamily → List Mark
  | .s7En =>
    [mark "I" "" "I", mark "Q" "" "Q", mark "M" "" "M", mark "PI" "" "PI", mark "PQ" "" "PQ"]
  | .s7De =>
    [mark "E" "" "I", mark "A" "" "Q", mark "M" "" "M", mark "PE" "" "PI", mark "PA" "" "PQ"]
  | .tia =>
    [mark "%I" "" "I", mark "%Q" "" "Q", mark "%M" "" "M", mark "%I" ":P" "PI",
      mark "%Q" ":P" "PQ", mark "%M" ":P" "M"]
  | .s7200 => [mark "AI" "" "AI", mark "AQ" "" "AQ", mark "V" "" "V"]
  | .s7Db => []

def families : List PlcFamily := [.s7En, .s7De, .tia, .s7200, .s7Db]

def bitText (bs : Option Text) : Text := bs.elim [] fun b => ofString "." ++ b

def blockLetter (width : Width) : Text := if width = .bit then ofString "X" else letterOf width

def RunOf (most : ℕ) (ds : Text) : Prop := IsDigits ds ∧ ds.length ≤ most

inductive Spells : PlcFamily → Text → Place → Prop
  | plain {family : PlcFamily} {m : Mark} {width : Width} {ds : Text} {bs : Option Text}
      (hmark : m ∈ marksOf family) (hds : RunOf 5 ds) (hbs : ∀ b ∈ bs, RunOf 3 b) :
      Spells family (m.front ++ letterOf width ++ (ds ++ (bitText bs ++ m.back)))
        ⟨m.area, width, number ds, bs.map number, none⟩
  | block {width : Width} {db ds : Text} {bs : Option Text} (hdb : RunOf 5 db) (hds : RunOf 5 ds)
      (hbs : ∀ b ∈ bs, RunOf 3 b) :
      Spells .s7Db (ofString "DB" ++ (db ++ (ofString ".DB" ++ blockLetter width ++
        (ds ++ bitText bs))))
        ⟨ofString "DB", width, number ds, bs.map number, some (number db)⟩

section Unique

variable {family family' : PlcFamily} {m m' : Mark} {width width' : Width} {text : Text}
  {place place' : Place} {bs bs' : Option Text}

theorem mem_families (family : PlcFamily) : family ∈ families := by
  cases family <;> decide

theorem noDigits_front (hm : m ∈ marksOf family) : NoDigits (m.front ++ letterOf width) := by
  have hall : ∀ family ∈ families, ∀ m ∈ marksOf family,
      NoDigits (m.front ++ letterOf width) := by
    cases width <;> decide +kernel
  exact hall family (mem_families family) m hm

theorem area_of_marks (hma : m ∈ marksOf family) (hm : m' ∈ marksOf family')
    (hf : m.front ++ letterOf width = m'.front ++ letterOf width')
    (hb : m.back = m'.back) : m.area = m'.area ∧ width = width' := by
  have hall : ∀ family ∈ families, ∀ m ∈ marksOf family, ∀ family' ∈ families,
      ∀ m' ∈ marksOf family', m.front ++ letterOf width = m'.front ++ letterOf width' →
        m.back = m'.back → m.area = m'.area ∧ width = width' := by
    cases width <;> cases width' <;> decide +kernel
  exact hall family (mem_families family) m hma family' (mem_families family') m' hm hf
    hb

theorem front_ne_block (hm : m ∈ marksOf family) :
    m.front ++ letterOf width ≠ ofString "DB" := by
  have hall : ∀ family ∈ families, ∀ m ∈ marksOf family,
      m.front ++ letterOf width ≠ ofString "DB" := by
    cases width <;> decide +kernel
  exact hall family (mem_families family) m hm

theorem noDigits_back (hm : m ∈ marksOf family) : NoDigits m.back ∧
    ofString "." ≠ m.back.take 1 := by
  have hall : ∀ family ∈ families, ∀ m ∈ marksOf family,
      NoDigits m.back ∧ ofString "." ≠ m.back.take 1 := by
    decide +kernel
  exact hall family (mem_families family) m hm

theorem endsRun_of_noDigits (h : NoDigits text) : EndsRun text :=
  fun c hc => h c (mem_of_head? hc)

theorem endsRun_bitText (hb : NoDigits text) : EndsRun (bitText bs ++ text) := by
  cases bs with
  | none => exact endsRun_of_noDigits hb
  | some b =>
    rintro c ⟨⟩
    decide

/-- The bit and what stands behind it are told apart. -/
theorem bitText_inj (hma : m ∈ marksOf family) (hm : m' ∈ marksOf family')
    (hbs : ∀ b ∈ bs, RunOf 3 b) (hbs' : ∀ b ∈ bs', RunOf 3 b)
    (h : bitText bs ++ m.back = bitText bs' ++ m'.back) : bs = bs' ∧ m.back = m'.back := by
  obtain ⟨hba, hdot⟩ := noDigits_back hma
  obtain ⟨hb, hd⟩ := noDigits_back hm
  match bs, bs' with
  | none, none => exact ⟨rfl, h⟩
  | none, some b =>
    refine absurd ?_ hdot
    rw [show m.back = bitText (some b) ++ m'.back from h]
    rfl
  | some b, none =>
    refine absurd ?_ hd
    rw [show m'.back = bitText (some b) ++ m.back from h.symm]
    rfl
  | some b, some b' =>
    have ht : b ++ m.back = b' ++ m'.back := tail_eq_of_cons_eq h
    obtain ⟨rfl, heq⟩ := (hbs b rfl).1.append_inj (hbs' b' rfl).1 (endsRun_of_noDigits hba)
      (endsRun_of_noDigits hb) ht
    exact ⟨rfl, heq⟩

theorem bitText_injective (h : bitText bs = bitText bs') : bs = bs' := by
  match bs, bs' with
  | none, none => rfl
  | none, some b => cases h
  | some b, none => cases h
  | some b, some b' => exact congrArg some (tail_eq_of_cons_eq h)

theorem blockLetter_inj
    (h : ofString ".DB" ++ blockLetter width = ofString ".DB" ++ blockLetter width') :
    width = width' := by
  revert h
  cases width <;> cases width' <;> decide +kernel

theorem Spells.plain_block {db : Text} (hm : m ∈ marksOf family) (hdb : IsDigits db)
    {ds rest rest' : Text} (hds : IsDigits ds)
    (h : m.front ++ letterOf width ++ (ds ++ rest) = ofString "DB" ++ (db ++ rest')) : False := by
  have hb : NoDigits (ofString "DB") := by decide
  exact front_ne_block hm ((noDigits_front hm).append_inj hb hds hdb h).1

/-- An address denotes one place, whatever family spells it. -/
theorem Spells.unique (h : Spells family text place) (h' : Spells family' text place') :
    place = place' := by
  have hb : NoDigits (ofString "DB") := by decide
  have hl : ∀ width, NoDigits (ofString ".DB" ++ blockLetter width) := by
    intro width
    cases width <;> decide
  have hdot : ∀ width rest, EndsRun (ofString ".DB" ++ blockLetter width ++ rest) := by
    rintro width rest c ⟨⟩
    decide
  have hend : ∀ bs, EndsRun (bitText bs) := by
    intro bs
    rw [← append_nil (bitText bs)]
    exact endsRun_bitText nofun
  generalize htext : text = other at h'
  cases h with
  | plain hma hds hbs =>
    cases h' with
    | plain hm hds' hbs' =>
      obtain ⟨hf, hn⟩ := (noDigits_front hma).append_inj (noDigits_front hm) hds.1
        hds'.1 htext
      obtain ⟨hby, hr⟩ := hds.1.append_inj hds'.1 (endsRun_bitText (noDigits_back hma).1)
        (endsRun_bitText (noDigits_back hm).1) hn
      obtain ⟨hbit, hba⟩ := bitText_inj hma hm hbs hbs' hr
      obtain ⟨ha, hw⟩ := area_of_marks hma hm hf hba
      rw [ha, hw, hby, hbit]
    | block hdb hds' hbs' => exact (Spells.plain_block hma hdb.1 hds.1 htext).elim
  | block hdb hds hbs =>
    cases h' with
    | plain hm hds' hbs' => exact (Spells.plain_block hm hdb.1 hds'.1 htext.symm).elim
    | block hdb' hds' hbs' =>
      obtain ⟨-, hn⟩ := hb.append_inj hb hdb.1 hdb'.1 htext
      obtain ⟨hdb, haf⟩ := hdb.1.append_inj hdb'.1 (hdot _ _) (hdot _ _) hn
      obtain ⟨hf, hla⟩ := (hl _).append_inj (hl _) hds.1 hds'.1 haf
      obtain ⟨hby, hbi⟩ := hds.1.append_inj hds'.1 (hend _) (hend _) hla
      rw [blockLetter_inj hf, hdb, hby, bitText_injective hbi]

end Unique

section Recognisers

variable {text : Text} {caught : Caught} {bs : Option Text} {width : Width}

def bitCaught (bs : Option Text) : Caught := bs.elim [] fun b => [(.bit, b)]

def widthCaught (width : Width) : Caught := if width = .bit then [] else [(.w, letterOf width)]

theorem reads_sym {c : Char} (hc : c.toNat < 0x110000) :
    (sym c).Reads text caught ↔ text = [⟨c.toNat, hc⟩] ∧ caught = [] := by
  constructor
  · rintro ⟨a, ha, rfl, rfl⟩
    rw [show a = ⟨c.toNat, hc⟩ from Fin.ext (of_decide_eq_true ha)]
    exact ⟨rfl, rfl⟩
  · rintro ⟨rfl, rfl⟩
    exact ⟨_, decide_eq_true rfl, rfl, rfl⟩

theorem reads_digits {most : ℕ} :
    (IdentifierParsers.digits 1 most).Reads text caught ↔ caught = [] ∧ RunOf most text := by
  rw [IdentifierParsers.digits, IdentifierParsers.digit, reads_rep_one]
  refine and_congr_right fun _ => ⟨?_, ?_⟩
  · rintro ⟨hl, hm, hall⟩
    exact ⟨⟨ne_nil_of_length_pos hl, hall⟩, hm⟩
  · rintro ⟨⟨hne, hall⟩, hm⟩
    exact ⟨length_pos_iff.mpr hne, hm, hall⟩

theorem reads_bitPart : bitPart.Reads text caught ↔
    ∃ bs : Option Text, (∀ b ∈ bs, RunOf 3 b) ∧ text = bitText bs ∧ caught = bitCaught bs := by
  constructor
  · rintro (⟨head, c, tail, d, hdot, ⟨e, hr, rfl⟩, rfl, rfl⟩ | ⟨rfl, rfl⟩)
    · obtain ⟨rfl, rfl⟩ := (reads_sym (by decide)).mp hdot
      obtain ⟨rfl, hrun⟩ := reads_digits.mp hr
      refine ⟨some tail, ?_, rfl, rfl⟩
      rintro b ⟨⟩
      exact hrun
    · exact ⟨none, nofun, rfl, rfl⟩
  · rintro ⟨_ | b, hbs, rfl, rfl⟩
    · exact .inr ⟨rfl, rfl⟩
    · exact .inl ⟨_, [], b, _, (reads_sym (by decide)).mpr ⟨rfl, rfl⟩,
        ⟨[], reads_digits.mpr ⟨rfl, hbs b rfl⟩, rfl⟩, rfl, rfl⟩

theorem reads_oneOf {cs : List Char} : (oneOf cs).Reads text caught ↔
    text ∈ cs.map (fun c => ofString (String.singleton c)) ∧ caught = [] := by
  have hp : ∀ (c : Char) (a : CodePoint),
      a.val = c.toNat ↔ [a] = ofString (String.singleton c) := by
    intro c a
    rw [ofString, String.toList_singleton, map_singleton, List.cons.injEq, Fin.ext_iff]
    simp
  constructor
  · rintro ⟨a, ha, rfl, rfl⟩
    obtain ⟨c, hc, hval⟩ := any_eq_true.mp ha
    exact ⟨mem_map.mpr ⟨c, hc, ((hp c a).mp (of_decide_eq_true hval)).symm⟩, rfl⟩
  · rintro ⟨htext, rfl⟩
    obtain ⟨c, hc, rfl⟩ := mem_map.mp htext
    have hl : (ofString (String.singleton c)).length = 1 := by
      rw [ofString, String.toList_singleton]
      rfl
    obtain ⟨a, ha⟩ := length_eq_one_iff.mp hl
    refine ⟨a, any_eq_true.mpr ⟨c, hc, decide_eq_true ((hp c a).mpr ha.symm)⟩, ha, rfl⟩

theorem reads_letter {cs : List Char} {name : Group} : (group name (oneOf cs)).Reads text caught ↔
    text ∈ cs.map (fun c => ofString (String.singleton c)) ∧ caught = [(name, text)] := by
  constructor
  · rintro ⟨c, hc, rfl⟩
    obtain ⟨htext, rfl⟩ := reads_oneOf.mp hc
    exact ⟨htext, rfl⟩
  · rintro ⟨htext, rfl⟩
    exact ⟨[], reads_oneOf.mpr ⟨htext, rfl⟩, rfl⟩

theorem mem_widthLetters :
    text ∈ ['B', 'W', 'D'].map (fun c => ofString (String.singleton c)) ↔
      ∃ width, width ≠ .bit ∧ text = letterOf width := by
  constructor
  · intro h
    simp only [map_cons, map_nil, mem_cons, not_mem_nil, or_false] at h
    rcases h with rfl | rfl | rfl
    · exact ⟨.byte, nofun, by decide⟩
    · exact ⟨.word, nofun, by decide⟩
    · exact ⟨.dword, nofun, by decide⟩
  · rintro ⟨width, hw, rfl⟩
    cases width
    · exact absurd rfl hw
    all_goals decide

theorem reads_width : (opt (group .w IdentifierParsers.width)).Reads text caught ↔
    ∃ width, text = letterOf width ∧ caught = widthCaught width := by
  constructor
  · rintro (hl | ⟨rfl, rfl⟩)
    · obtain ⟨htext, rfl⟩ := reads_letter.mp hl
      obtain ⟨width, hw, rfl⟩ := mem_widthLetters.mp htext
      exact ⟨width, rfl, (if_neg hw).symm⟩
    · exact ⟨.bit, rfl, rfl⟩
  · rintro ⟨width, rfl, rfl⟩
    by_cases hw : width = .bit
    · subst hw
      exact .inr ⟨rfl, rfl⟩
    · refine .inl (reads_letter.mpr ⟨mem_widthLetters.mpr ⟨width, hw, rfl⟩, ?_⟩)
      exact if_neg hw

theorem reads_byte {name : Group} {most : ℕ} :
    (group name (IdentifierParsers.digits 1 most)).Reads text caught ↔
      RunOf most text ∧ caught = [(name, text)] := by
  constructor
  · rintro ⟨c, hc, rfl⟩
    obtain ⟨rfl, hrun⟩ := reads_digits.mp hc
    exact ⟨hrun, rfl⟩
  · rintro ⟨hrun, rfl⟩
    exact ⟨[], reads_digits.mpr ⟨rfl, hrun⟩, rfl⟩

/-- What the TIA pattern catches of a text. -/
theorem reads_tiaPattern : tiaPattern.Reads text caught ↔
    ∃ area ∈ ['I', 'Q', 'M'].map (fun c => ofString (String.singleton c)), ∃ width ds bs,
      ∃ peripheral : Bool, RunOf 5 ds ∧ (∀ b ∈ bs, RunOf 3 b) ∧
        text = ofString "%" ++ area ++ letterOf width ++ ds ++ bitText bs ++
          ofString (if peripheral then ":P" else "") ∧
        caught = [(.area, area)] ++ widthCaught width ++ [(.byte, ds)] ++ bitCaught bs ++
          if peripheral then [(.per, ofString ":P")] else [] := by
  constructor
  · rintro ⟨_, _, back, per, ⟨_, _, bits, _, ⟨_, _, ds, _, ⟨_, _, letter, _, ⟨percent, _, area, _,
      hpe, hr, rfl, rfl⟩, hl, rfl, rfl⟩, hds, rfl, rfl⟩, hb, rfl, rfl⟩, hba, rfl,
      rfl⟩
    obtain ⟨rfl, rfl⟩ := (reads_sym (by decide)).mp hpe
    obtain ⟨ha, rfl⟩ := reads_letter.mp hr
    obtain ⟨width, rfl, rfl⟩ := reads_width.mp hl
    obtain ⟨hrun, rfl⟩ := reads_byte.mp hds
    obtain ⟨bs, hbs, rfl, rfl⟩ := reads_bitPart.mp hb
    rcases hba with ⟨_, ⟨_, _, _, _, hc, hp, rfl, rfl⟩, rfl⟩ | ⟨rfl, rfl⟩
    · obtain ⟨rfl, rfl⟩ := (reads_sym (by decide)).mp hc
      obtain ⟨rfl, rfl⟩ := (reads_sym (by decide)).mp hp
      exact ⟨area, ha, width, ds, bs, true, hrun, hbs, rfl, rfl⟩
    · exact ⟨area, ha, width, ds, bs, false, hrun, hbs, rfl, rfl⟩
  · rintro ⟨area, ha, width, ds, bs, peripheral, hds, hbs, rfl, rfl⟩
    have hpe : (sym '%').Reads (ofString "%") [] :=
      (reads_sym (by decide)).mpr ⟨by decide, rfl⟩
    refine ⟨_, _, _, _, ⟨_, _, _, _, ⟨_, _, _, _, ⟨_, _, _, _, ⟨_, _, _, _, hpe,
      reads_letter.mpr ⟨ha, rfl⟩, rfl, rfl⟩, reads_width.mpr ⟨width, rfl, rfl⟩, rfl, rfl⟩,
      reads_byte.mpr ⟨hds, rfl⟩, rfl, rfl⟩, reads_bitPart.mpr ⟨bs, hbs, rfl, rfl⟩, rfl, rfl⟩, ?_,
      rfl, rfl⟩
    cases peripheral
    · exact .inr ⟨rfl, rfl⟩
    · exact .inl ⟨_, ⟨_, _, _, _, (reads_sym (c := ':') (by decide)).mpr ⟨rfl, rfl⟩,
        (reads_sym (c := 'P') (by decide)).mpr ⟨rfl, rfl⟩, rfl, rfl⟩, rfl⟩

def ReadsArea (pareas areas : List Char) (text : Text) (caught : Caught) : Prop :=
  (∃ area ∈ pareas.map (fun c => ofString (String.singleton c)), ∃ width, width ≠ .bit ∧
    text = ofString "P" ++ area ++ letterOf width ∧
      caught = [(.parea, area)] ++ [(.pw, letterOf width)]) ∨
  ∃ area ∈ areas.map (fun c => ofString (String.singleton c)), ∃ width,
    text = area ++ letterOf width ∧ caught = [(.area, area)] ++ widthCaught width

/-- What the classic patterns catch of a text. -/
theorem reads_classicPattern {pareas areas : List Char} :
    (classicPattern pareas areas).Reads text caught ↔
      ∃ front c ds bs, ReadsArea pareas areas front c ∧ RunOf 5 ds ∧ (∀ b ∈ bs, RunOf 3 b) ∧
        text = front ++ ds ++ bitText bs ∧ caught = c ++ [(.byte, ds)] ++ bitCaught bs := by
  constructor
  · rintro ⟨_, _, bits, _, ⟨front, c, ds, _, hf, hds, rfl, rfl⟩, hb, rfl, rfl⟩
    obtain ⟨hrun, rfl⟩ := reads_byte.mp hds
    obtain ⟨bs, hbs, rfl, rfl⟩ := reads_bitPart.mp hb
    refine ⟨front, c, ds, bs, ?_, hrun, hbs, rfl, rfl⟩
    rcases hf with ⟨_, _, letter, _, ⟨_, _, area, _, hp, hr, rfl, rfl⟩, hl, rfl, rfl⟩ |
      ⟨area, _, letter, _, hr, hl, rfl, rfl⟩
    · obtain ⟨rfl, rfl⟩ := (reads_sym (by decide)).mp hp
      obtain ⟨ha, rfl⟩ := reads_letter.mp hr
      obtain ⟨hw, rfl⟩ := reads_letter.mp hl
      obtain ⟨width, hwi, rfl⟩ := mem_widthLetters.mp hw
      exact .inl ⟨area, ha, width, hwi, rfl, rfl⟩
    · obtain ⟨ha, rfl⟩ := reads_letter.mp hr
      obtain ⟨width, rfl, rfl⟩ := reads_width.mp hl
      exact .inr ⟨area, ha, width, rfl, rfl⟩
  · rintro ⟨front, c, ds, bs, hf, hds, hbs, rfl, rfl⟩
    refine ⟨_, _, _, _, ⟨_, _, _, _, ?_, reads_byte.mpr ⟨hds, rfl⟩, rfl, rfl⟩,
      reads_bitPart.mpr ⟨bs, hbs, rfl, rfl⟩, rfl, rfl⟩
    rcases hf with ⟨area, ha, width, hwi, rfl, rfl⟩ | ⟨area, ha, width, rfl, rfl⟩
    · have hp : (sym 'P').Reads (ofString "P") [] := (reads_sym (by decide)).mpr ⟨by decide, rfl⟩
      exact .inl ⟨_, _, _, _, ⟨_, _, _, _, hp, reads_letter.mpr ⟨ha, rfl⟩, rfl, rfl⟩,
        reads_letter.mpr ⟨mem_widthLetters.mpr ⟨width, hwi, rfl⟩, rfl⟩, rfl, rfl⟩
    · exact .inr ⟨_, _, _, _, reads_letter.mpr ⟨ha, rfl⟩,
        reads_width.mpr ⟨width, rfl, rfl⟩, rfl, rfl⟩

theorem of_reads_s7200Pattern (h : s7200Pattern.Reads text caught) :
    (∃ area ∈ [ofString "AI", ofString "AQ"], ∃ ds, RunOf 5 ds ∧
      text = area ++ letterOf .word ++ ds ∧ caught = [(.aarea, area)] ++ [(.abyte, ds)]) ∨
    ∃ width ds bs, RunOf 5 ds ∧ (∀ b ∈ bs, RunOf 3 b) ∧
      text = ofString "V" ++ letterOf width ++ ds ++ bitText bs ∧
        caught = widthCaught width ++ [(.byte, ds)] ++ bitCaught bs := by
  rcases h with ⟨_, _, ds, _, ⟨area, _, _, _, ⟨c, hr, rfl⟩, hw, rfl, rfl⟩, hds, rfl, rfl⟩ |
    ⟨_, _, bits, _, ⟨_, _, ds, _, ⟨_, _, letter, _, hv, hl, rfl, rfl⟩, hds, rfl, rfl⟩, hb,
      rfl, rfl⟩
  · obtain ⟨rfl, rfl⟩ := (reads_sym (by decide)).mp hw
    obtain ⟨hrun, rfl⟩ := reads_byte.mp hds
    rcases hr with ⟨_, _, _, _, ha, hi, rfl, rfl⟩ | ⟨_, _, _, _, ha, hq, rfl, rfl⟩
    · obtain ⟨rfl, rfl⟩ := (reads_sym (by decide)).mp ha
      obtain ⟨rfl, rfl⟩ := (reads_sym (by decide)).mp hi
      exact .inl ⟨ofString "AI", by decide, ds, hrun, rfl, rfl⟩
    · obtain ⟨rfl, rfl⟩ := (reads_sym (by decide)).mp ha
      obtain ⟨rfl, rfl⟩ := (reads_sym (by decide)).mp hq
      exact .inl ⟨ofString "AQ", by decide, ds, hrun, rfl, rfl⟩
  · obtain ⟨rfl, rfl⟩ := (reads_sym (by decide)).mp hv
    obtain ⟨width, rfl, rfl⟩ := reads_width.mp hl
    obtain ⟨hrun, rfl⟩ := reads_byte.mp hds
    obtain ⟨bs, hbs, rfl, rfl⟩ := reads_bitPart.mp hb
    exact .inr ⟨width, ds, bs, hrun, hbs, rfl, rfl⟩

theorem of_reads_dbPattern (h : dbPattern.Reads text caught) :
    ∃ db width ds bs, RunOf 5 db ∧ RunOf 5 ds ∧ (∀ b ∈ bs, RunOf 3 b) ∧
      text = ofString "DB" ++ db ++ ofString ".DB" ++ blockLetter width ++ ds ++ bitText bs ∧
        caught = [(.db, db)] ++ [(.w, blockLetter width)] ++ [(.byte, ds)] ++ bitCaught bs := by
  obtain ⟨_, _, bits, _, ⟨_, _, ds, _, ⟨_, _, letter, _, ⟨_, _, _, _, ⟨_, _, _, _, ⟨_, _, _, _, ⟨_,
    _, db, _, ⟨_, _, _, _, hd, hb, rfl, rfl⟩, hdb, rfl, rfl⟩, hdot, rfl, rfl⟩, hd', rfl, rfl⟩, hb',
    rfl, rfl⟩, hl, rfl, rfl⟩, hds, rfl, rfl⟩, hbi, rfl, rfl⟩ := h
  obtain ⟨rfl, rfl⟩ := (reads_sym (by decide)).mp hd
  obtain ⟨rfl, rfl⟩ := (reads_sym (by decide)).mp hb
  obtain ⟨rfl, rfl⟩ := (reads_sym (by decide)).mp hdot
  obtain ⟨rfl, rfl⟩ := (reads_sym (by decide)).mp hd'
  obtain ⟨rfl, rfl⟩ := (reads_sym (by decide)).mp hb'
  obtain ⟨hbl, rfl⟩ := reads_byte.mp hdb
  obtain ⟨hrun, rfl⟩ := reads_byte.mp hds
  obtain ⟨bs, hbs, rfl, rfl⟩ := reads_bitPart.mp hbi
  obtain ⟨hw, rfl⟩ := reads_letter.mp hl
  obtain ⟨width, rfl⟩ : ∃ width, letter = blockLetter width := by
    simp only [map_cons, map_nil, mem_cons, not_mem_nil, or_false] at hw
    rcases hw with rfl | rfl | rfl | rfl
    · exact ⟨.bit, by decide⟩
    · exact ⟨.byte, by decide⟩
    · exact ⟨.word, by decide⟩
    · exact ⟨.dword, by decide⟩
  refine ⟨db, width, ds, bs, hbl, hrun, hbs, ?_, rfl⟩
  simp only [append_assoc]
  rfl

end Recognisers

section Readings

variable {text : Text} {caught : Caught} {bs : Option Text} {width : Width} {place : Place}
  {family : PlcFamily} {forms : NormalizedForms} {found : ParsedIdentifier} {extra : List String}
  {rules : IdentifierRules}

def colon : CodePoint := 0x3A

def dot : CodePoint := 0x2E

def peripheralAreas : List Text := [ofString "PI", ofString "PQ"]

def Classic (place : Place) : Prop := place.area ∈ peripheralAreas → place.width ≠ .bit

def written (forms : NormalizedForms) (family : PlcFamily) (place : Place)
    (extra : List String) : ParsedIdentifier :=
  build forms family place.area place.width place.byte place.bit place.dbNumber extra
    (decide (family ≠ .s7Db ∧ family ≠ .s7200))

theorem spells_of_eq {m : Mark} {ds : Text} (hm : m ∈ marksOf family) (hds : RunOf 5 ds)
    (hbs : ∀ b ∈ bs, RunOf 3 b)
    (htext : text = m.front ++ letterOf width ++ ds ++ bitText bs ++ m.back) :
    Spells family text ⟨m.area, width, number ds, bs.map number, none⟩ := by
  rw [htext, append_assoc, append_assoc]
  exact .plain hm hds hbs

def markerIssues (family : PlcFamily) (place : Place) (text : Text) : List String :=
  if family = .tia ∧ place.area = ofString "M" ∧ colon ∈ text then ["plc.peripheral_marker"]
  else []

theorem markerIssues_of_family (h : family ≠ .tia) : markerIssues family place text = [] :=
  if_neg fun hall => h hall.1

theorem markerIssues_of_area (h : place.area ≠ ofString "M") :
    markerIssues family place text = [] :=
  if_neg fun hall => h hall.2.1

theorem markerIssues_of_notMem (h : colon ∉ text) : markerIssues family place text = [] :=
  if_neg fun hall => h hall.2.2

theorem markerIssues_of_colon (hc : colon ∈ text) (h : place.area = ofString "M") :
    markerIssues .tia place text = ["plc.peripheral_marker"] :=
  if_pos ⟨rfl, h, hc⟩

theorem colon_notMem_of_digits {ds : Text} (h : IsDigits ds) : colon ∉ ds := by
  intro hc
  have := h.2 colon hc
  revert this
  decide

theorem colon_notMem_bitText (hbs : ∀ b ∈ bs, RunOf 3 b) : colon ∉ bitText bs := by
  cases bs with
  | none => exact not_mem_nil
  | some b =>
    intro hc
    rcases mem_append.mp hc with hdot | hb
    · revert hdot
      decide
    · exact colon_notMem_of_digits (hbs b rfl).1 hb

/-- A TIA match is parsed to the place it spells. -/
theorem tia_spec (forms : NormalizedForms) (h : tiaPattern.fullMatch text = some caught) :
    ∃ place, Spells .tia text place ∧
      tia text forms = some (written forms .tia place (markerIssues .tia place text)) := by
  obtain ⟨area, ha, width, ds, bs, peripheral, hds, hbs, htext, hca⟩ :=
    reads_tiaPattern.mp (reads_of_fullMatch h)
  have hg : textOf caught .area = area ∧ widthAndBit caught = (width, bs.map number) ∧
      textOf caught .byte = ds ∧ (caught.lookup .per).isNone = !peripheral := by
    rw [hca]
    cases width <;> cases bs <;> cases peripheral <;> exact ⟨rfl, rfl, rfl, rfl⟩
  obtain ⟨hga, hgw, hgb, hgp⟩ := hg
  have hnot : peripheral = false → colon ∉ text := by
    rintro rfl hc
    rw [htext] at hc
    simp only [mem_append, or_assoc] at hc
    rcases hc with hc | hc | hc | hc | hc | hc
    · revert hc
      decide
    · revert hc
      simp only [map_cons, map_nil, mem_cons, not_mem_nil, or_false] at ha
      rcases ha with rfl | rfl | rfl <;> decide
    · revert hc
      cases width <;> decide
    · exact colon_notMem_of_digits hds.1 hc
    · exact colon_notMem_bitText hbs hc
    · revert hc
      decide
  have hhas : peripheral = true → colon ∈ text := by
    rintro rfl
    rw [htext]
    exact mem_append_right _ (by decide)
  unfold tia
  rw [h]
  dsimp only
  rw [hga, hgw, hgb, hgp]
  simp only [map_cons, map_nil, mem_cons, not_mem_nil, or_false] at ha
  cases peripheral with
  | false =>
    rcases ha with rfl | rfl | rfl
    · refine ⟨_, spells_of_eq (m := mark "%I" "" "I") (by decide) hds hbs htext, ?_⟩
      rw [markerIssues_of_notMem (hnot rfl)]
      rfl
    · refine ⟨_, spells_of_eq (m := mark "%Q" "" "Q") (by decide) hds hbs htext, ?_⟩
      rw [markerIssues_of_notMem (hnot rfl)]
      rfl
    · refine ⟨_, spells_of_eq (m := mark "%M" "" "M") (by decide) hds hbs htext, ?_⟩
      rw [markerIssues_of_notMem (hnot rfl)]
      rfl
  | true =>
    rcases ha with rfl | rfl | rfl
    · refine ⟨_, spells_of_eq (m := mark "%I" ":P" "PI") (by decide) hds hbs htext, ?_⟩
      rw [markerIssues_of_area]
      · rfl
      · exact (by decide : ofString "PI" ≠ ofString "M")
    · refine ⟨_, spells_of_eq (m := mark "%Q" ":P" "PQ") (by decide) hds hbs htext, ?_⟩
      rw [markerIssues_of_area]
      · rfl
      · exact (by decide : ofString "PQ" ≠ ofString "M")
    · refine ⟨_, spells_of_eq (m := mark "%M" ":P" "M") (by decide) hds hbs htext, ?_⟩
      rw [markerIssues_of_colon (hhas rfl)]
      · rfl
      · rfl

structure ReadsAs (family : PlcFamily) (pareas areas : List Char) (toEnglish : Text → Text) :
    Prop where
  plain : ∀ area ∈ areas.map (fun c => ofString (String.singleton c)),
    ⟨area, [], toEnglish area⟩ ∈ marksOf family ∧ toEnglish area ∉ peripheralAreas
  peripheral : ∀ area ∈ pareas.map (fun c => ofString (String.singleton c)),
    ⟨ofString "P" ++ area, [], toEnglish (ofString "P" ++ area)⟩ ∈ marksOf family
  onlyThese : ∀ m ∈ marksOf family, m.back = [] ∧
    (m.front ∈ areas.map (fun c => ofString (String.singleton c)) ∨
      m.area ∈ peripheralAreas ∧
        ∃ area ∈ pareas.map (fun c => ofString (String.singleton c)),
          m.front = ofString "P" ++ area)
  spelled : family ≠ .s7Db ∧ family ≠ .s7200

theorem readsAs_english : ReadsAs .s7En ['I', 'Q'] ['I', 'Q', 'M'] id where
  plain := by decide
  peripheral := by decide
  onlyThese := by decide
  spelled := by decide

theorem readsAs_german : ReadsAs .s7De ['E', 'A'] ['E', 'A', 'M'] fromGerman where
  plain := by decide
  peripheral := by decide
  onlyThese := by decide
  spelled := by decide

variable {pareas areas : List Char} {toEnglish : Text → Text}

theorem widths_letterOf (h : width ≠ .bit) : widths (letterOf width) = width := by
  cases width
  · exact absurd rfl h
  all_goals decide

/-- A classic match is parsed to the place it spells, unless a bit address lacks its bit. -/
theorem classic_spec (forms : NormalizedForms) (hf : ReadsAs family pareas areas toEnglish)
    (h : (classicPattern pareas areas).fullMatch text = some caught) :
    ∃ place, Spells family text place ∧ Classic place ∧
      classic forms family toEnglish caught =
        if place.width = .bit ∧ place.bit = none then none
        else some (written forms family place []) := by
  obtain ⟨front, c, ds, bs, hfr, hds, hbs, htext, hc⟩ :=
    reads_classicPattern.mp (reads_of_fullMatch h)
  have hs : decide (family ≠ .s7Db ∧ family ≠ .s7200) = true :=
    decide_eq_true hf.spelled
  rw [← append_nil (bitText bs), ← append_assoc] at htext
  rcases hfr with ⟨area, ha, width, hw, rfl, rfl⟩ | ⟨area, ha, width, rfl, rfl⟩
  · have hg : caught.lookup .parea = some area ∧ textOf caught .pw = letterOf width ∧
        textOf caught .byte = ds ∧ intOf caught .bit = bs.map number := by
      rw [hc]
      cases bs <;> exact ⟨rfl, rfl, rfl, rfl⟩
    obtain ⟨hga, hgw, hgb, hgn⟩ := hg
    refine ⟨_, spells_of_eq (hf.peripheral area ha) hds hbs htext, fun _ => hw, ?_⟩
    rw [if_neg fun hbit => hw hbit.1, classic, hga, hgw, hgb, hgn, widths_letterOf hw,
      written, hs]
  · have hg : caught.lookup .parea = none ∧ textOf caught .area = area ∧
        widthAndBit caught = (width, bs.map number) ∧ textOf caught .byte = ds := by
      rw [hc]
      cases width <;> cases bs <;> exact ⟨rfl, rfl, rfl, rfl⟩
    obtain ⟨hgp, hga, hgw, hgb⟩ := hg
    obtain ⟨hm, hpl⟩ := hf.plain area ha
    refine ⟨_, spells_of_eq hm hds hbs htext, fun hp => absurd hp hpl, ?_⟩
    rw [classic, hgp, hga, hgw, hgb, written, hs]

/-- An S7-200 match is parsed to the place it spells, unless a bit address lacks its bit. -/
theorem s7200_spec (forms : NormalizedForms) (h : s7200Pattern.fullMatch text = some caught) :
    ∃ place, Spells .s7200 text place ∧
      s7200 forms caught = if place.width = .bit ∧ place.bit = none then none
        else some (written forms .s7200 place []) := by
  rcases of_reads_s7200Pattern (reads_of_fullMatch h) with
    ⟨area, ha, ds, hds, htext, rfl⟩ | ⟨width, ds, bs, hds, hbs, htext, rfl⟩
  · have hm : ⟨area, [], area⟩ ∈ marksOf .s7200 := by
      simp only [mem_cons, not_mem_nil, or_false] at ha
      rcases ha with rfl | rfl <;> decide
    have hbs : ∀ b ∈ (none : Option Text), RunOf 3 b := nofun
    refine ⟨⟨area, .word, number ds, none, none⟩, spells_of_eq hm hds hbs ?_, rfl⟩
    rw [htext, bitText, Option.elim_none, append_nil, append_nil]
  · have hg : (widthCaught width ++ [(Group.byte, ds)] ++ bitCaught bs).lookup .aarea = none ∧
        widthAndBit (widthCaught width ++ [(.byte, ds)] ++ bitCaught bs) =
          (width, bs.map number) ∧
        textOf (widthCaught width ++ [(.byte, ds)] ++ bitCaught bs) .byte = ds := by
      cases width <;> cases bs <;> exact ⟨rfl, rfl, rfl⟩
    obtain ⟨hga, hgw, hgb⟩ := hg
    refine ⟨⟨ofString "V", width, number ds, bs.map number, none⟩,
      spells_of_eq (m := mark "V" "" "V") (by decide) hds hbs ?_, ?_⟩
    · rw [htext]
      exact (append_nil _).symm
    · rw [s7200, hga, hgw, hgb]
      rfl

theorem db_spec (forms : NormalizedForms) (h : dbPattern.fullMatch text = some caught) :
    ∃ place, Spells .s7Db text place ∧ dataBlock forms caught = written forms .s7Db place [] := by
  obtain ⟨db, width, ds, bs, hdb, hds, hbs, htext, hc⟩ :=
    of_reads_dbPattern (reads_of_fullMatch h)
  have hg : textOf caught .w = blockLetter width ∧ textOf caught .byte = ds ∧
      intOf caught .bit = bs.map number ∧ intOf caught .db = some (number db) := by
    rw [hc]
    cases width <;> cases bs <;> exact ⟨rfl, rfl, rfl, rfl⟩
  obtain ⟨hgw, hgb, hgn, hgd⟩ := hg
  have hw : (if blockLetter width = ofString "X" then .bit else widths (blockLetter width)) =
      width := by
    cases width <;> decide
  refine ⟨⟨ofString "DB", width, number ds, bs.map number, some (number db)⟩, ?_, ?_⟩
  · have hs := @Spells.block width _ _ _ hdb hds hbs
    rw [htext]
    simpa only [append_assoc] using hs
  · rw [dataBlock, hgw, hgb, hgn, hgd]
    rw [hw]
    rfl

def areasOf (family : PlcFamily) : List Text :=
  if family = .s7Db then [ofString "DB"] else (marksOf family).map Mark.area

theorem Spells.area_mem (h : Spells family text place) : place.area ∈ areasOf family := by
  cases h with
  | plain hm =>
    rw [areasOf]
    split_ifs with hdb
    · subst hdb
      cases hm
    · exact mem_map_of_mem hm
  | block => exact (by decide : ofString "DB" ∈ areasOf .s7Db)

theorem classic_of_areas (ha : ∀ area ∈ areasOf family, area ∉ peripheralAreas)
    (h : Spells family text place) : Classic place :=
  fun hp => absurd hp (ha place.area h.area_mem)

theorem classic_of_s7200 (h : Spells .s7200 text place) : Classic place :=
  classic_of_areas (by decide) h

theorem classic_of_s7Db (h : Spells .s7Db text place) : Classic place :=
  classic_of_areas (by decide) h

theorem fullMatch_of_enabledMatch {p : Pat}
    (h : rules.enabledMatch family p text = some caught) : p.fullMatch text = some caught := by
  rw [IdentifierRules.enabledMatch] at h
  split_ifs at h
  exact h

/-- Whatever is parsed as an address spells a place, or is unsupported. -/
theorem parsePlcAddress_spec (h : parsePlcAddress rules text forms = some found) :
    found = unsupported forms ∨ ∃ family place, Spells family text place ∧
      (family ≠ .tia → Classic place) ∧
        found = written forms family place (markerIssues family place text) := by
  have ho : ∀ {family place}, family ≠ .tia → Spells family text place → Classic place →
      (if place.width = .bit ∧ place.bit = none then none
        else some (written forms family place [])) = some found →
      ∃ family place, Spells family text place ∧ (family ≠ .tia → Classic place) ∧
        found = written forms family place (markerIssues family place text) := by
    intro other place ho hs hc heq
    split_ifs at heq
    cases heq
    exact ⟨other, place, hs, fun _ => hc, by rw [markerIssues_of_family ho]⟩
  unfold parsePlcAddress at h
  split_ifs at h
  · cases hm : tiaPattern.fullMatch text with
    | none =>
      rw [tia, hm] at h
      dsimp only at h
      split_ifs at h
      exact .inl (Option.some.inj h).symm
    | some caught =>
      obtain ⟨place, hs, htia⟩ := tia_spec forms hm
      rw [htia] at h
      exact .inr ⟨.tia, place, hs, fun hne => absurd rfl hne, (Option.some.inj h).symm⟩
  · right
    split at h
    · rename_i caught hm
      obtain ⟨place, hs, hdb⟩ := db_spec forms (fullMatch_of_enabledMatch hm)
      rw [hdb] at h
      exact ⟨.s7Db, place, hs, fun _ => classic_of_s7Db hs, (Option.some.inj h).symm⟩
    · split at h
      · rename_i caught hm
        obtain ⟨place, hs, h200⟩ :=
          s7200_spec forms (fullMatch_of_enabledMatch hm)
        rw [h200] at h
        exact ho (by decide) hs (classic_of_s7200 hs) h
      · split at h
        · rename_i caught hm
          obtain ⟨place, hs, hc, hen⟩ :=
            classic_spec forms readsAs_english (fullMatch_of_enabledMatch hm)
          rw [hen] at h
          exact ho (by decide) hs hc h
        · obtain ⟨caught, hm, h⟩ := Option.bind_eq_some_iff.mp h
          obtain ⟨place, hs, hc, hde⟩ :=
            classic_spec forms readsAs_german (fullMatch_of_enabledMatch hm)
          rw [hde] at h
          exact ho (by decide) hs hc h

theorem reads_of_spells_classic (hf : ReadsAs family pareas areas toEnglish)
    (h : Spells family text place) (hcl : Classic place) :
    ∃ caught, (classicPattern pareas areas).fullMatch text = some caught := by
  cases h with
  | @plain _ m width ds bs hm hds hbs =>
    obtain ⟨hb, hfr⟩ := hf.onlyThese m hm
    have hr : ∃ c, ReadsArea pareas areas (m.front ++ letterOf width) c := by
      rcases hfr with hpl | ⟨hp, area, ha, hfr⟩
      · exact ⟨_, .inr ⟨m.front, hpl, width, rfl, rfl⟩⟩
      · exact ⟨_, .inl ⟨area, ha, width, hcl hp, by rw [hfr], rfl⟩⟩
    obtain ⟨c, hc⟩ := hr
    obtain ⟨caught, hca, -⟩ := exists_fullMatch_of_reads
      (reads_classicPattern.mpr ⟨_, c, ds, bs, hc, hds, hbs, rfl, rfl⟩)
    refine ⟨caught, ?_⟩
    rw [← hca, hb, append_nil, append_assoc (m.front ++ letterOf width)]
  | block => exact absurd rfl hf.spelled.1

theorem reads_of_spells_tia (h : Spells .tia text place) :
    ∃ caught, tiaPattern.fullMatch text = some caught := by
  cases h with
  | @plain _ m width ds bs hma hds hbs =>
    have hm : ∀ m ∈ marksOf .tia,
        ∃ area ∈ ['I', 'Q', 'M'].map (fun c => ofString (String.singleton c)),
          ∃ peripheral : Bool, m.front = ofString "%" ++ area ∧
            m.back = ofString (if peripheral then ":P" else "") := by
      decide
    obtain ⟨area, ha, peripheral, hf, hb⟩ := hm m hma
    obtain ⟨caught, hc, -⟩ := exists_fullMatch_of_reads
      (reads_tiaPattern.mpr ⟨area, ha, width, ds, bs, peripheral, hds, hbs, rfl, rfl⟩)
    refine ⟨caught, ?_⟩
    rw [← hc, hf, hb]
    simp only [append_assoc]

/-- The sign in front tells the addresses of the one family from those of the others. -/
theorem head_of_spells (h : Spells family text place) :
    text.head?.any (·.val = 0x25) = decide (family = .tia) := by
  cases h with
  | @plain _ m width ds bs hma hds hbs =>
    have hm : ∀ family ∈ families, ∀ m ∈ marksOf family, m.front ≠ [] ∧
        m.front.head?.any (·.val = 0x25) = decide (family = .tia) := by
      decide
    obtain ⟨hne, hh⟩ := hm family (mem_families family) m hma
    rw [append_assoc, List.head?_append_of_ne_nil _ hne, hh]
  | block => rfl

/-- With all families on, every classic spelling is parsed to its place. -/
theorem exists_parsePlcAddress (forms : NormalizedForms) (hall : rules.plcFamilies = Finset.univ)
    (h : Spells family text place) (hf : family ∈ [.s7En, .s7De, .tia])
    (hcl : family ≠ .tia → Classic place)
    (hco : ¬ (place.width = .bit ∧ place.bit = none)) :
    ∃ family', parsePlcAddress rules text forms =
      some (written forms family' place (markerIssues family' place text)) := by
  have he : ∀ family (p : Pat), rules.enabledMatch family p text = p.fullMatch text := by
    intro family p
    rw [IdentifierRules.enabledMatch, hall, if_pos (Finset.mem_univ family)]
  have hi : place.area ∈ areasOf .tia := by
    have ha : ∀ family ∈ [PlcFamily.s7En, .s7De, .tia], ∀ area ∈ areasOf family,
        area ∈ areasOf .tia := by
      decide
    exact ha family hf _ h.area_mem
  have hdb : dbPattern.fullMatch text = none := by
    cases hm : dbPattern.fullMatch text with
    | none => rfl
    | some caught =>
      obtain ⟨place', hs, -⟩ := db_spec forms hm
      have hno : ∀ area ∈ areasOf .s7Db, area ∉ areasOf .tia := by decide
      exact absurd hi (h.unique hs ▸ hno _ hs.area_mem)
  have h200 : s7200Pattern.fullMatch text = none := by
    cases hm : s7200Pattern.fullMatch text with
    | none => rfl
    | some caught =>
      obtain ⟨place', hs, -⟩ := s7200_spec forms hm
      have hno : ∀ area ∈ areasOf .s7200, area ∉ areasOf .tia := by decide
      exact absurd hi (h.unique hs ▸ hno _ hs.area_mem)
  unfold parsePlcAddress
  by_cases hp : text.head?.any (·.val = 0x25) = true
  · have htia : family = .tia := by
      rw [head_of_spells h] at hp
      exact of_decide_eq_true hp
    subst htia
    obtain ⟨caught, hc⟩ := reads_of_spells_tia h
    obtain ⟨place', hs, hfo⟩ := tia_spec forms hc
    obtain rfl := h.unique hs
    rw [if_pos hp, hall, if_pos (Finset.mem_univ _)]
    exact ⟨.tia, hfo⟩
  · rw [if_neg hp, he, he, he, he, hdb, h200]
    dsimp only
    cases hen : enPattern.fullMatch text with
    | some caught =>
      obtain ⟨place', hs, -, hfo⟩ := classic_spec forms readsAs_english hen
      obtain rfl := h.unique hs
      rw [if_neg hco] at hfo
      exact ⟨.s7En, hfo.trans (by rw [markerIssues_of_family (by decide)])⟩
    | none =>
      have hg : ∃ caught, dePattern.fullMatch text = some caught := by
        simp only [mem_cons, not_mem_nil, or_false] at hf
        rcases hf with rfl | rfl | rfl
        · obtain ⟨caught, hc⟩ :=
            reads_of_spells_classic readsAs_english h (hcl (by decide))
          rw [show classicPattern _ _ = enPattern from rfl, hen] at hc
          cases hc
        · exact reads_of_spells_classic readsAs_german h (hcl (by decide))
        · exact absurd (head_of_spells h) hp
      obtain ⟨caught, hde⟩ := hg
      obtain ⟨place', hs, -, hfo⟩ := classic_spec forms readsAs_german hde
      obtain rfl := h.unique hs
      rw [if_neg hco] at hfo
      refine ⟨.s7De, ?_⟩
      rw [hde, Option.bind_some, hfo, markerIssues_of_family (by decide)]

end Readings

end Aizzak.PlcSpellings
