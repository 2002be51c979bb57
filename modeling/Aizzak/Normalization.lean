import Aizzak.BacktrackingPatterns
import Aizzak.PyText

/-!
The canonical form of an identifier's text: compatibility folding, every decimal digit as
ASCII, every dash as a hyphen, whitespace and hidden characters dropped, upper case. What
`unicodedata` and `str` say of a text outside ASCII is left open; a text in ASCII is read by
the tables below.
-/
namespace Aizzak.Normalization

open BacktrackingPatterns PyText

inductive Category where
  | control
  | format
  | surrogate
  | privateUse
  | unassigned
  | spaceSeparator
  | lineSeparator
  | paragraphSeparator
  | decimalNumber
  | nonspacingMark
  | enclosingMark
  | other
  deriving DecidableEq

def isAsciiDigit (c : CodePoint) : Bool := 0x30 ≤ c.val && c.val ≤ 0x39

def isAsciiUpper (c : CodePoint) : Bool := 0x41 ≤ c.val && c.val ≤ 0x5A

def isAsciiLower (c : CodePoint) : Bool := 0x61 ≤ c.val && c.val ≤ 0x7A

def asciiCategory (c : CodePoint) : Category :=
  if c.val < 0x20 ∨ c.val = 0x7F then .control
  else if c.val = 0x20 then .spaceSeparator
  else if isAsciiDigit c then .decimalNumber
  else .other

def asciiUpper (c : CodePoint) : CodePoint :=
  if h : isAsciiLower c then ⟨c.val - 0x20, by omega⟩ else c

def asciiLower (c : CodePoint) : CodePoint :=
  if h : isAsciiUpper c then ⟨c.val + 0x20, by
    simp only [isAsciiUpper, Bool.and_eq_true, decide_eq_true_eq] at h
    omega⟩ else c

def asciiAlnum (c : CodePoint) : Bool := isAsciiDigit c || isAsciiUpper c || isAsciiLower c

def IsAscii (text : Text) : Prop := ∀ c ∈ text, c.val < 0x80

instance (text : Text) : Decidable (IsAscii text) := List.decidableBAll _ text

/-- What `unicodedata` and `str` know of Unicode, as far as the code asks them. -/
structure Unicode where
  nfkc : Text → Text
  nfd : Text → Text
  category : CodePoint → Category
  decimal : CodePoint → Fin 10
  upper : Text → Text
  lower : Text → Text
  isAlnum : CodePoint → Bool
  nfkc_ascii : ∀ text, IsAscii text → nfkc text = text
  category_ascii : ∀ c : CodePoint, c.val < 0x80 → category c = asciiCategory c
  upper_ascii : ∀ text, IsAscii text → upper text = text.map asciiUpper
  isAlnum_ascii : ∀ c : CodePoint, c.val < 0x80 → isAlnum c = asciiAlnum c

def hyphen : CodePoint := 0x2D

def dashes : List ℕ :=
  [0x2010, 0x2011, 0x2012, 0x2013, 0x2014, 0x2015, 0x2212, 0xFE58, 0xFE63, 0xFF0D]

def isBidi (c : CodePoint) : Bool :=
  c.val == 0x200E || c.val == 0x200F || c.val == 0x061C || (0x202A ≤ c.val && c.val < 0x202F) ||
    (0x2066 ≤ c.val && c.val < 0x206A)

def isIgnorable (c : CodePoint) : Bool :=
  c.val == 0x034F || c.val == 0x115F || c.val == 0x1160 || c.val == 0x17B4 || c.val == 0x17B5 ||
    (0x180B ≤ c.val && c.val < 0x1810) || c.val == 0x2800 || c.val == 0x3164 || c.val == 0xFFA0 ||
    (0x2060 ≤ c.val && c.val < 0x2070) || (0xFE00 ≤ c.val && c.val < 0xFE10) ||
    (0xFFF0 ≤ c.val && c.val < 0xFFF9) || (0x1BCA0 ≤ c.val && c.val < 0x1BCA4) ||
    (0x1D173 ≤ c.val && c.val < 0x1D17B) || (0xE0000 ≤ c.val && c.val < 0xE1000)

def issueHidden : String := "text.hidden_character"

def issueBidi : String := "text.bidi_control"

def issueNonAscii : String := "text.non_ascii"

def nonInvalidatingIssues : List String := [issueBidi]

section Folding

variable (u : Unicode)

def isSpace (c : CodePoint) : Bool :=
  (0x09 ≤ c.val && c.val ≤ 0x0D) || u.category c = .spaceSeparator ||
    u.category c = .lineSeparator || u.category c = .paragraphSeparator

def isHidden (c : CodePoint) : Bool :=
  !isSpace u c && (u.category c = .control || u.category c = .format || isIgnorable c)

def foldPoint (c : CodePoint) : CodePoint :=
  if c.val < 0x80 then c
  else if u.category c = .decimalNumber then ⟨0x30 + (u.decimal c).val, by omega⟩
  else c

def fold (text : Text) : Text :=
  ((u.nfkc text).map fun c => if c.val ∈ dashes then hyphen else c).map (foldPoint u)

def canonicalForm (text : Text) : Text :=
  u.upper ((fold u text).filter fun c => !isSpace u c && !isHidden u c)

def textIssues (text : Text) : List String :=
  (if (fold u text).any fun c => isHidden u c && !isBidi c then [issueHidden] else []) ++
    if text.any isBidi then [issueBidi] else []

end Folding

/-- `0` at the head of a run of digits goes unless it is the last of them. -/
def stripLeadingZeros (text : Text) : Text := strip false text
where
  strip : Bool → Text → Text
    | _, [] => []
    | afterDigit, c :: rest =>
      if c.val = 0x30 ∧ afterDigit = false ∧ rest.head?.any isAsciiDigit then strip false rest
      else c :: strip (isAsciiDigit c) rest

section Forms

/-- The forms of an identifier. Its identity is its kind and the canonical form; the keys are
for retrieval alone. -/
structure NormalizedForms where
  original : Text
  canonical : Text
  searchKeys : List Text
  deriving DecidableEq

def dedupe (keys : List Text) : List Text := (keys.filter (· ≠ [])).eraseDups

inductive TagGroup where
  | letters
  | digits
  deriving DecidableEq

def tag : Pattern CodePoint TagGroup :=
  .group .letters (.oneOrMore (.one isAsciiUpper)) *
    .one (fun c => c.val = 0x2D || c.val = 0x2E || c.val = 0x5F) *
    .group .digits (.oneOrMore (.one isAsciiDigit))

def tagKey (canonical : Text) : Text :=
  match tag.fullMatch canonical with
  | some caught =>
    (caught.lookup .letters).getD [] ++ stripLeadingZeros ((caught.lookup .digits).getD [])
  | none => []

def normalize (u : Unicode) (text : Text) : NormalizedForms :=
  let canonical := canonicalForm u text
  let stripped := canonical.dropWhile fun c => c.val = 0x2D || c.val = 0x25
  ⟨text, canonical,
    dedupe [canonical, stripped, stripLeadingZeros stripped, tagKey canonical]⟩

def withKeys (forms : NormalizedForms) (extra : List Text) : NormalizedForms :=
  { forms with searchKeys := dedupe (forms.searchKeys ++ extra) }

end Forms

section Ascii

variable {u : Unicode} {text : Text}

theorem fold_of_isAscii (h : IsAscii text) : fold u text = text := by
  rw [fold, u.nfkc_ascii text h, List.map_map]
  refine (List.map_congr_left fun c hc => ?_).trans (List.map_id text)
  have hc := h c hc
  have hd : c.val ∉ dashes := by
    simp only [dashes, List.mem_cons, List.not_mem_nil, or_false, not_or]
    omega
  rw [Function.comp_apply, if_neg hd, foldPoint, if_pos hc, id_eq]

/-- A printable code point of ASCII that no case mapping changes. -/
def IsPlain (c : CodePoint) : Prop := 0x21 ≤ c.val ∧ c.val < 0x61

instance (c : CodePoint) : Decidable (IsPlain c) :=
  inferInstanceAs (Decidable (0x21 ≤ c.val ∧ c.val < 0x61))

section

variable {c : CodePoint} (h : IsPlain c)
include h

theorem category_of_isPlain : u.category c = .decimalNumber ∨ u.category c = .other := by
  obtain ⟨hlow, hh⟩ := h
  rw [u.category_ascii c (by omega), asciiCategory, if_neg (by omega), if_neg (by omega)]
  by_cases hd : isAsciiDigit c = true
  · exact .inl (if_pos hd)
  · exact .inr (if_neg hd)

theorem isSpace_of_isPlain : isSpace u c = false := by
  have hb : (decide (0x09 ≤ c.val) && decide (c.val ≤ 0x0D)) = false := by
    have := h.1
    simp only [Bool.and_eq_false_iff, decide_eq_false_iff_not]
    omega
  rcases category_of_isPlain (u := u) h with hc | hc <;> simp only [isSpace, hc, hb] <;> rfl

theorem isHidden_of_isPlain : isHidden u c = false := by
  have hca := category_of_isPlain (u := u) h
  obtain ⟨hlow, hh⟩ := h
  have hs : isIgnorable c = false := by
    simp only [isIgnorable, Bool.or_eq_false_iff, Bool.and_eq_false_iff, beq_eq_false_iff_ne,
      decide_eq_false_iff_not]
    omega
  rcases hca with hc | hc <;> simp [isHidden, hc, hs]

theorem asciiUpper_of_isPlain : asciiUpper c = c := by
  have hl : ¬ isAsciiLower c = true := by
    simp only [isAsciiLower, Bool.and_eq_true, decide_eq_true_eq, not_and]
    have := h.2
    omega
  rw [asciiUpper, dif_neg hl]

end

theorem canonicalForm_of_isPlain (h : ∀ c ∈ text, IsPlain c) : canonicalForm u text = text := by
  have ha : IsAscii text := fun c hc => by
    have := (h c hc).2
    omega
  have hk : (text.filter fun c => !isSpace u c && !isHidden u c) = text := by
    refine List.filter_eq_self.mpr fun c hc => ?_
    rw [isSpace_of_isPlain (h c hc), isHidden_of_isPlain (h c hc)]
    rfl
  rw [canonicalForm, fold_of_isAscii ha, hk, u.upper_ascii text ha]
  exact (List.map_congr_left fun c hc => asciiUpper_of_isPlain (h c hc)).trans (List.map_id text)

theorem textIssues_of_isPlain (h : ∀ c ∈ text, IsPlain c) : textIssues u text = [] := by
  have ha : IsAscii text := fun c hc => by
    have := (h c hc).2
    omega
  have hhi : ¬ (text.any fun c => isHidden u c && !isBidi c) = true := by
    rw [List.any_eq_true]
    rintro ⟨c, hc, hh⟩
    rw [isHidden_of_isPlain (h c hc)] at hh
    exact Bool.false_ne_true hh
  have hbi : ¬ text.any isBidi = true := by
    rw [List.any_eq_true]
    rintro ⟨c, hc, hb⟩
    have := ha c hc
    simp only [isBidi, Bool.or_eq_true, Bool.and_eq_true, beq_iff_eq, decide_eq_true_eq] at hb
    omega
  rw [textIssues, fold_of_isAscii ha, if_neg hhi, if_neg hbi, List.append_nil]

def asciiUnicode : Unicode where
  nfkc := id
  nfd := id
  category := fun c => if c.val < 0x80 then asciiCategory c else .other
  decimal := fun _ => 0
  upper := fun text => text.map asciiUpper
  lower := fun text => text.map asciiLower
  isAlnum := fun c => c.val < 0x80 && asciiAlnum c
  nfkc_ascii := fun _ _ => rfl
  category_ascii := fun _ h => if_pos h
  upper_ascii := fun _ _ => rfl
  isAlnum_ascii := fun c h => by rw [decide_eq_true h, Bool.true_and]

end Ascii

end Aizzak.Normalization
