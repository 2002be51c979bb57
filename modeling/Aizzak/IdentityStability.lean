import Aizzak.ParserResults
import Aizzak.RuleNarrowing

/-!
An identifier read once more from its canonical form. The second reading normalises a text from
which hidden characters are gone and which is in upper case by then, so it finds the same
identity exactly when nothing in that text is left to compose.
-/
namespace Aizzak.IdentityStability

open BacktrackingPatterns PyText Normalization IdentifierParsers ParserResults RuleNarrowing List

section Rereading

variable {u : Unicode} {rules : IdentifierRules} {text : Text} {hint : Option IdentifierKind}
  {forms : NormalizedForms} {found : ParsedIdentifier}

theorem canonical_of_first (h : first u rules forms hint text = some found) :
    found.forms.canonical = forms.canonical := by
  obtain ⟨entry, he, -, inner, hi, rfl⟩ := first_eq_some h
  rw [(flagText_spec inner _).2.1]
  exact ((recognises_of_order he).spec hi).2.1

theorem canonical_of_parse (h : parse u rules text hint = some found) :
    found.forms.canonical = canonicalForm u text := by
  unfold parse at h
  split_ifs at h
  dsimp only at h
  split_ifs at h
  · exact canonical_of_first h
  · unfold parseNonAscii at h
    dsimp only at h
    split_ifs at h
    obtain ⟨inner, -, rfl⟩ := Option.map_eq_some_iff.mp h
    rfl

/-- The canonical form of an identifier parses to its kind. -/
theorem parse_again (hsp : ∀ c, u.isAlnum c = true → PyText.isSpace c = false)
    (hst : canonicalForm u (canonicalForm u text) = canonicalForm u text)
    (h : parse u rules text hint = some found) :
    ∃ found', parse u rules (canonicalForm u text) hint = some found' ∧
      found'.kind = found.kind := by
  have hca : (normalize u (canonicalForm u text)).canonical =
      (normalize u text).canonical := hst
  unfold parse at h
  split_ifs at h
  dsimp only at h
  split_ifs at h with hl ha
  all_goals
    have hf : (normalize u text).canonical = canonicalForm u text := rfl
    rw [hf] at hl ha
    obtain ⟨hsh, hal⟩ := not_or.mp hl
    have hb : ¬ Blank (canonicalForm u text) := by
      intro hb
      obtain ⟨c, hc, hcl⟩ := any_eq_true.mp (Bool.eq_true_of_not_eq_false hal)
      have hs := hb c hc
      rw [hsp c hcl] at hs
      cases hs
    rw [parse, if_neg (not_or.mpr ⟨hb, hsh⟩)]
    dsimp only
    rw [hca, hf, if_neg hl]
  · rw [if_neg (not_not.mpr ha)]
    exact first_again hca h
  · rw [if_pos ha]
    unfold parseNonAscii at h ⊢
    dsimp only at h ⊢
    rw [hca]
    split_ifs at h ⊢
    obtain ⟨inner, hin, rfl⟩ := Option.map_eq_some_iff.mp h
    obtain ⟨inner', hi, hk⟩ := first_again rfl hin
    exact ⟨_, Option.map_eq_some_iff.mpr ⟨inner', hi, rfl⟩, hk⟩

end Rereading

section Composition

variable {u : Unicode} {rules : IdentifierRules} {text : Text} {hint : Option IdentifierKind}
  {found : ParsedIdentifier} {c : CodePoint}

def foldDash (c : CodePoint) : CodePoint := if c.val ∈ dashes then hyphen else c

structure Settled (u : Unicode) (c : CodePoint) : Prop where
  point : u.nfkc [c] = [c]
  dash : foldDash c = c
  digit : foldPoint u c = c
  seen : (!isSpace u c && !isHidden u c) = true

/-- What Unicode says of compatibility forms and of upper case. -/
structure FoldingLaws (u : Unicode) : Prop where
  nfkc_point : ∀ text, ∀ c ∈ u.nfkc text, u.nfkc [c] = [c]
  nfkc_settled : ∀ text, (∀ c ∈ text, Settled u c) → ∀ c ∈ u.nfkc text, Settled u c
  upper_settled : ∀ text, (∀ c ∈ text, Settled u c) → ∀ c ∈ u.upper text, Settled u c
  upper_upper : ∀ text, u.upper (u.upper text) = u.upper text
  upper_nfkc : ∀ text, (∀ c ∈ text, Settled u c) → u.upper text = text →
    u.upper (u.nfkc text) = u.nfkc text
  alnum_notSpace : ∀ c, u.isAlnum c = true → PyText.isSpace c = false

def kept (u : Unicode) (text : Text) : Text :=
  (fold u text).filter fun c => !isSpace u c && !isHidden u c

def NothingToCompose (u : Unicode) (text : Text) : Prop :=
  u.nfkc (u.upper (kept u text)) = u.upper (kept u text)

instance (u : Unicode) (text : Text) : Decidable (NothingToCompose u text) :=
  inferInstanceAs (Decidable (_ = _))

theorem foldPoint_ascii (h : c.val < 0x80) : foldPoint u c = c := by
  rw [foldPoint, if_pos h]

theorem foldDash_ascii (h : c.val < 0x80) : foldDash c = c := by
  have hd : c.val ∉ dashes := by
    simp only [dashes, mem_cons, not_mem_nil, or_false, not_or]
    omega
  rw [foldDash, if_neg hd]

theorem nfkc_singleton_ascii (h : c.val < 0x80) : u.nfkc [c] = [c] :=
  u.nfkc_ascii [c] (forall_mem_singleton.mpr h)

theorem folded_again (h : u.nfkc [c] = [c]) :
    u.nfkc [foldPoint u (foldDash c)] = [foldPoint u (foldDash c)] ∧
      foldDash (foldPoint u (foldDash c)) = foldPoint u (foldDash c) ∧
        foldPoint u (foldPoint u (foldDash c)) = foldPoint u (foldDash c) := by
  have ha : ∀ {d : CodePoint}, d.val < 0x80 →
      u.nfkc [d] = [d] ∧ foldDash d = d ∧ foldPoint u d = d :=
    fun hd => ⟨nfkc_singleton_ascii hd, foldDash_ascii hd, foldPoint_ascii hd⟩
  by_cases hda : c.val ∈ dashes
  · have hh : foldDash c = hyphen := if_pos hda
    rw [hh, foldPoint_ascii (by decide)]
    exact ha (by decide)
  · have hs : foldDash c = c := if_neg hda
    rw [hs]
    by_cases hc : c.val < 0x80
    · rw [foldPoint_ascii hc]
      exact ha hc
    by_cases hde : u.category c = .decimalNumber
    · have hdi : (foldPoint u c).val < 0x80 := by
        rw [foldPoint, if_neg hc, if_pos hde]
        dsimp only
        omega
      exact ha hdi
    · have hf : foldPoint u c = c := by rw [foldPoint, if_neg hc, if_neg hde]
      rw [hf, hs, hf]
      exact ⟨h, rfl, rfl⟩

theorem settled_of_mem_kept (hu : FoldingLaws u) (hc : c ∈ kept u text) : Settled u c := by
  obtain ⟨hf, hs⟩ := mem_filter.mp hc
  obtain ⟨d, hd, rfl⟩ := mem_map.mp hf
  obtain ⟨e, he, rfl⟩ := mem_map.mp hd
  obtain ⟨hp, hda, hdi⟩ := folded_again (hu.nfkc_point text e he)
  exact ⟨hp, hda, hdi, hs⟩

/-- Of settled code points the fold leaves what the compatibility form makes of them. -/
theorem kept_of_settled (hu : FoldingLaws u) (h : ∀ c ∈ text, Settled u c) :
    kept u text = u.nfkc text := by
  have hn := hu.nfkc_settled text h
  have hda : (u.nfkc text).map foldDash = u.nfkc text :=
    (map_congr_left fun c hc => (hn c hc).dash).trans (map_id _)
  have hd : (u.nfkc text).map (foldPoint u) = u.nfkc text :=
    (map_congr_left fun c hc => (hn c hc).digit).trans (map_id _)
  have hf : fold u text = u.nfkc text := by
    change ((u.nfkc text).map foldDash).map (foldPoint u) = u.nfkc text
    rw [hda, hd]
  rw [kept, hf]
  exact filter_eq_self.mpr fun c hc => (hn c hc).seen

theorem canonicalForm_canonicalForm (hu : FoldingLaws u) :
    canonicalForm u (canonicalForm u text) = u.nfkc (canonicalForm u text) := by
  have hca : ∀ c ∈ canonicalForm u text, Settled u c :=
    hu.upper_settled _ fun c hc => settled_of_mem_kept hu hc
  calc canonicalForm u (canonicalForm u text)
      = u.upper (kept u (canonicalForm u text)) := rfl
    _ = u.upper (u.nfkc (canonicalForm u text)) := by rw [kept_of_settled hu hca]
    _ = u.nfkc (canonicalForm u text) := hu.upper_nfkc _ hca (hu.upper_upper _)

theorem canonicalForm_idempotent_iff (hu : FoldingLaws u) :
    canonicalForm u (canonicalForm u text) = canonicalForm u text ↔ NothingToCompose u text := by
  rw [canonicalForm_canonicalForm hu]
  rfl

/-- An identifier is found again, under its kind and canonical form, exactly where the upper case
of what was kept of its text is in compatibility form; and there alone the canonical form of the
text is its own canonical form. -/
theorem identity_stable_iff (hu : FoldingLaws u) (h : parse u rules text hint = some found) :
    ((∃ found', parse u rules found.forms.canonical hint = some found' ∧
        found'.kind = found.kind ∧ found'.forms.canonical = found.forms.canonical) ↔
      NothingToCompose u text) ∧
        (canonicalForm u (canonicalForm u text) = canonicalForm u text ↔
          NothingToCompose u text) := by
  have hc := canonical_of_parse h
  refine ⟨⟨?_, fun hn => ?_⟩, canonicalForm_idempotent_iff hu⟩
  · rintro ⟨found', h', -, hsa⟩
    rw [canonical_of_parse h', hc] at hsa
    exact (canonicalForm_idempotent_iff hu).mp hsa
  · have hs := (canonicalForm_idempotent_iff hu).mpr hn
    obtain ⟨found', h', hk⟩ := parse_again hu.alnum_notSpace hs h
    rw [hc]
    exact ⟨found', h', hk, (canonical_of_parse h').trans hs⟩

end Composition

section Acute

variable {text : Text} {c : CodePoint}

def acute : CodePoint := 0x301

def joiner : CodePoint := 0x34F

def capitalE : CodePoint := 0x45

def capitalEAcute : CodePoint := 0xC9

def withAcute (c : CodePoint) : Text → Text
  | [] => [c]
  | d :: rest => if c = capitalE ∧ d = acute then capitalEAcute :: rest else c :: d :: rest

def compose (text : Text) : Text := text.foldr withAcute []

theorem mem_compose (h : c ∈ compose text) : c ∈ text ∨ c = capitalEAcute := by
  induction text with
  | nil => exact .inl h
  | cons d text ih =>
    rw [compose, foldr_cons, ← compose] at h
    cases hr : compose text with
    | nil =>
      rw [hr] at h
      exact .inl (mem_singleton.mp h ▸ mem_cons_self)
    | cons e rest =>
      rw [hr] at h ih
      rw [withAcute] at h
      split_ifs at h
      · rcases mem_cons.mp h with rfl | hc
        · exact .inr rfl
        · exact (ih (mem_cons_of_mem e hc)).imp_left (mem_cons_of_mem d)
      · rcases mem_cons.mp h with rfl | hc
        · exact .inl mem_cons_self
        · exact (ih hc).imp_left (mem_cons_of_mem d)

theorem compose_ascii (h : IsAscii text) : compose text = text := by
  induction text with
  | nil => rfl
  | cons c text ih =>
    obtain ⟨-, htext⟩ := forall_mem_cons.mp h
    rw [compose, foldr_cons, ← compose, ih htext]
    cases text with
    | nil => rfl
    | cons d text =>
      have hd := htext d mem_cons_self
      have ha : d ≠ acute := by
        rintro rfl
        exact absurd hd (by decide)
      rw [withAcute, if_neg fun h => ha h.2]

local instance neZero_ten : NeZero 10 := ⟨by omega⟩

def acuteUnicode : Unicode where
  nfkc := compose
  nfd := fun text => text.flatMap fun c => if c = capitalEAcute then [capitalE, acute] else [c]
  category := fun c =>
    if c.val < 0x80 then asciiCategory c
    else if c = acute ∨ c = joiner then .nonspacingMark
    else .other
  decimal := fun _ => 0
  upper := fun text => text.map asciiUpper
  lower := fun text => text.map asciiLower
  isAlnum := fun c => (c.val < 0x80 && asciiAlnum c) || c = capitalEAcute
  nfkc_ascii := fun _ h => compose_ascii h
  category_ascii := fun _ h => if_pos h
  upper_ascii := asciiUnicode.upper_ascii
  isAlnum_ascii := fun c h => by
    have hother : c ≠ capitalEAcute := by
      rintro rfl
      exact absurd h (by decide)
    rw [decide_eq_true h, Bool.true_and, decide_eq_false hother, Bool.or_false]

theorem settled_capitalEAcute : Settled acuteUnicode capitalEAcute :=
  ⟨rfl, by decide, by decide, by decide⟩

theorem isPlain_asciiUpper (h : isAsciiLower c = true) : IsPlain (asciiUpper c) := by
  rw [asciiUpper, dif_pos h]
  simp only [isAsciiLower, Bool.and_eq_true, decide_eq_true_eq] at h
  simp only [IsPlain]
  omega

theorem settled_asciiUpper (h : Settled acuteUnicode c) : Settled acuteUnicode (asciiUpper c) := by
  by_cases hl : isAsciiLower c = true
  · have hp := isPlain_asciiUpper hl
    have ha : (asciiUpper c).val < 0x80 := by
      have := hp.2
      omega
    refine ⟨rfl, foldDash_ascii ha, foldPoint_ascii ha, ?_⟩
    rw [isSpace_of_isPlain hp, isHidden_of_isPlain hp]
    rfl
  · rwa [asciiUpper, dif_neg hl]

theorem asciiUpper_asciiUpper : asciiUpper (asciiUpper c) = asciiUpper c := by
  by_cases hl : isAsciiLower c = true
  · exact asciiUpper_of_isPlain (isPlain_asciiUpper hl)
  · have hs : asciiUpper c = c := dif_neg hl
    rw [hs, hs]

theorem foldingLaws_acute : FoldingLaws acuteUnicode where
  nfkc_point := fun _ _ _ => rfl
  nfkc_settled := fun text h c hc => by
    rcases mem_compose hc with hmem | rfl
    · exact h c hmem
    · exact settled_capitalEAcute
  upper_settled := fun text h c hc => by
    obtain ⟨d, hd, rfl⟩ := mem_map.mp hc
    exact settled_asciiUpper (h d hd)
  upper_upper := fun text => by
    change (text.map asciiUpper).map asciiUpper = text.map asciiUpper
    rw [map_map]
    exact map_congr_left fun c _ => asciiUpper_asciiUpper
  upper_nfkc := fun text _ hu => by
    have hf : ∀ c ∈ text, asciiUpper c = c :=
      map_inj_left.mp (hu.trans (map_id text).symm)
    change (compose text).map asciiUpper = compose text
    refine (map_congr_left fun c hc => ?_).trans (map_id _)
    rcases mem_compose hc with hmem | rfl
    · exact hf c hmem
    · decide
  alnum_notSpace := fun c h => by
    rcases (Bool.or_eq_true _ _).mp h with ha | ho
    · simp only [asciiAlnum, isAsciiDigit, isAsciiUpper, isAsciiLower, Bool.or_eq_true,
        Bool.and_eq_true, decide_eq_true_eq] at ha
      simp only [PyText.isSpace, isSpaceCode, Bool.or_eq_false_iff, Bool.and_eq_false_iff,
        decide_eq_false_iff_not, beq_eq_false_iff_ne]
      omega
    · obtain rfl := of_decide_eq_true ho
      decide

/-- The accent composes with the letter before it. -/
theorem accented_letter_is_stable :
    ∃ found, parse acuteUnicode packaged (ofString "-KE" ++ acute :: ofString "1") none =
        some found ∧
      ∃ found', parse acuteUnicode packaged found.forms.canonical none = some found' ∧
        found'.kind = found.kind ∧ found'.forms.canonical = found.forms.canonical := by
  have hr : (parse acuteUnicode packaged (ofString "-KE" ++ acute :: ofString "1")
      none).isSome = true := by
    decide +kernel
  obtain ⟨found, hf⟩ := Option.isSome_iff_exists.mp hr
  exact ⟨found, hf, (identity_stable_iff foldingLaws_acute hf).1.mpr (by decide +kernel)⟩

/-- Once the joiner between them is gone, letter and accent are another canonical text. -/
theorem joined_letter_is_unstable :
    ∃ found, parse acuteUnicode packaged (ofString "-KE" ++ joiner :: acute :: ofString "1") none =
        some found ∧
      ¬ ∃ found', parse acuteUnicode packaged found.forms.canonical none = some found' ∧
        found'.kind = found.kind ∧ found'.forms.canonical = found.forms.canonical := by
  have hr : (parse acuteUnicode packaged (ofString "-KE" ++ joiner :: acute :: ofString "1")
      none).any (fun found => (parse acuteUnicode packaged found.forms.canonical none).all
        fun found' => found'.forms.canonical ≠ found.forms.canonical) = true := by
    decide +kernel
  obtain ⟨found, hfo, hall⟩ := (Option.any_eq_true _ _).mp hr
  refine ⟨found, hfo, ?_⟩
  rintro ⟨found', hf, -, hs⟩
  rw [hf, Option.all_some] at hall
  exact of_decide_eq_true hall hs

end Acute

end Aizzak.IdentityStability
