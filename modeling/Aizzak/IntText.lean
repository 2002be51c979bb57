import Aizzak.DigitRuns

/-!
Integers as text. `str` writes the shortest decimal form and refuses an integer of more
digits than its limit; `int` reads far more than `str` writes: blanks around the number,
either sign, leading zeros, single underscores and the digits of every script. What `str`
wrote is read back, and a text is what `str` writes of its value exactly when it is
plain.
-/
namespace Aizzak.IntText

open PyText Normalization IdentifierParsers DigitRuns List

def maxStrDigits : ℕ := 4300

def minus : CodePoint := 0x2D

def plus : CodePoint := 0x2B

def underscore : CodePoint := 0x5F

def intText (n : ℤ) : Text :=
  if n < 0 then minus :: decimal n.natAbs else decimal n.natAbs

def strInt (n : ℤ) : Option Text :=
  if n.natAbs < 10 ^ maxStrDigits then some (intText n) else none

def asciiOf (c : CodePoint) : Option CodePoint :=
  if c.val < 127 then some c
  else if isSpace c then some 0x20
  else (digit c).map fun d => Fin.ofNat _ (0x30 + d)

def isBlank (c : CodePoint) : Bool := c.val == 0x20 || (0x09 ≤ c.val && c.val ≤ 0x0D)

def splitSign : Text → Bool × Text
  | [] => (false, [])
  | c :: rest =>
    if c = minus then (true, rest) else if c = plus then (false, rest) else (false, c :: rest)

def isRunSymbol (c : CodePoint) : Bool := isAsciiDigit c || c = underscore

def underscoresInside : Text → Bool
  | [] => true
  | c :: rest => (c ≠ underscore || rest.head?.any isAsciiDigit) && underscoresInside rest

def readInt (text : Text) : Option ℤ :=
  let (negative, body) := splitSign (text.dropWhile isBlank)
  let run := body.takeWhile isRunSymbol
  let digits := run.filter isAsciiDigit
  if run.head?.any isAsciiDigit ∧ underscoresInside run ∧ digits.length ≤ maxStrDigits ∧
      (body.dropWhile isRunSymbol).all isBlank then
    some (if negative then -number digits else number digits)
  else none

def pyInt (text : Text) : Option ℤ := (text.mapM asciiOf).bind readInt

def Plain (text : Text) : Prop :=
  (IsDigits text ∧ (text.head? = some 0x30 → text = [0x30])) ∨
    ∃ ds, text = minus :: ds ∧ IsDigits ds ∧ ds.head? ≠ some 0x30

variable {text ds : Text} {n : ℤ}

theorem mapM_asciiOf (h : ∀ c ∈ text, c.val < 127) : text.mapM asciiOf = some text := by
  induction text with
  | nil => rfl
  | cons c text ih =>
    rw [forall_mem_cons] at h
    rw [mapM_cons, ih h.2, asciiOf, if_pos h.1]
    rfl

theorem val_lt_of_isAsciiDigit {c : CodePoint} (h : isAsciiDigit c = true) :
    0x30 ≤ c.val ∧ c.val ≤ 0x39 := by
  simpa [isAsciiDigit] using h

theorem isBlank_of_isAsciiDigit {c : CodePoint} (h : isAsciiDigit c = true) :
    isBlank c = false := by
  have hr := val_lt_of_isAsciiDigit h
  simp only [isBlank, Bool.or_eq_false_iff, Bool.and_eq_false_iff, beq_eq_false_iff_ne,
    decide_eq_false_iff_not]
  omega

theorem underscoresInside_of_isDigits (h : ∀ c ∈ ds, isAsciiDigit c = true) :
    underscoresInside ds = true := by
  induction ds with
  | nil => rfl
  | cons c ds ih =>
    rw [forall_mem_cons] at h
    have hc : c ≠ underscore := by
      rintro rfl
      exact absurd h.1 (by decide)
    simp [underscoresInside, hc, ih h.2]

theorem splitSign_isDigits (h : IsDigits ds) : splitSign ds = (false, ds) := by
  cases ds with
  | nil => rfl
  | cons c ds =>
    have hr := val_lt_of_isAsciiDigit (h.2 c mem_cons_self)
    have hm : c ≠ minus := by
      rintro rfl
      exact absurd hr (by decide)
    have hp : c ≠ plus := by
      rintro rfl
      exact absurd hr (by decide)
    rw [splitSign, if_neg hm, if_neg hp]

theorem run_isDigits (h : IsDigits ds) :
    ds.takeWhile isRunSymbol = ds ∧ ds.dropWhile isRunSymbol = [] ∧
      ds.filter isAsciiDigit = ds ∧ ds.head?.any isAsciiDigit = true := by
  have hrun : ∀ c ∈ ds, isRunSymbol c = true := by
    intro c hc
    rw [isRunSymbol, h.2 c hc, Bool.true_or]
  refine ⟨takeWhile_eq_self_iff.mpr hrun, dropWhile_eq_nil_iff.mpr hrun,
    filter_eq_self.mpr h.2, ?_⟩
  cases ds with
  | nil => exact absurd rfl h.1
  | cons c ds => exact h.2 c mem_cons_self

theorem readInt_isDigits (h : IsDigits ds) :
    readInt ds = if ds.length ≤ maxStrDigits then some (number ds : ℤ) else none := by
  obtain ⟨ht, hd, hf, hh⟩ := run_isDigits h
  have hb : ds.dropWhile isBlank = ds := by
    cases ds with
    | nil => rfl
    | cons c ds =>
      have hc := isBlank_of_isAsciiDigit (h.2 c mem_cons_self)
      rw [dropWhile_cons_of_neg (by simp [hc])]
  rw [readInt, hb, splitSign_isDigits h]
  simp [ht, hd, hf, hh, underscoresInside_of_isDigits h.2]

theorem readInt_minus (h : IsDigits ds) :
    readInt (minus :: ds) =
      if ds.length ≤ maxStrDigits then some (-(number ds : ℤ)) else none := by
  obtain ⟨ht, hd, hf, hh⟩ := run_isDigits h
  have hb : (minus :: ds).dropWhile isBlank = minus :: ds :=
    dropWhile_cons_of_neg (by decide)
  rw [readInt, hb, splitSign, if_pos rfl]
  simp [ht, hd, hf, hh, underscoresInside_of_isDigits h.2]

theorem pyInt_isDigits (h : IsDigits ds) :
    pyInt ds = if ds.length ≤ maxStrDigits then some (number ds : ℤ) else none := by
  have ha : ∀ c ∈ ds, c.val < 127 := by
    intro c hc
    have hr := val_lt_of_isAsciiDigit (h.2 c hc)
    omega
  rw [pyInt, mapM_asciiOf ha, Option.bind_some, readInt_isDigits h]

theorem pyInt_minus (h : IsDigits ds) :
    pyInt (minus :: ds) =
      if ds.length ≤ maxStrDigits then some (-(number ds : ℤ)) else none := by
  have ha : ∀ c ∈ minus :: ds, c.val < 127 := by
    rw [forall_mem_cons]
    refine ⟨by decide, fun c hc => ?_⟩
    have hr := val_lt_of_isAsciiDigit (h.2 c hc)
    omega
  rw [pyInt, mapM_asciiOf ha, Option.bind_some, readInt_minus h]

theorem number_lt_pow (h : ∀ c ∈ ds, isAsciiDigit c = true) : number ds < 10 ^ ds.length := by
  induction ds using List.reverseRecOn with
  | nil => decide
  | append_singleton ds d ih =>
    obtain ⟨hds, hd⟩ := forall_mem_append.mp h
    rw [forall_mem_singleton] at hd
    have hr := val_lt_of_isAsciiDigit hd
    have hlt := ih hds
    rw [number_append_singleton hd, length_append, length_singleton, pow_succ]
    omega

theorem length_decimal_le_of_lt {m k : ℕ} (hk : 0 < k) (hm : m < 10 ^ k) :
    (decimal m).length ≤ k := by
  induction k, hk using Nat.le_induction generalizing m with
  | base =>
    have hten : m < 10 := by omega
    rw [decimal_eq, if_pos hten]
    exact le_rfl
  | succ k hk ih =>
    rw [decimal_eq, length_append, length_singleton]
    split_ifs with hten
    · simp
    · have hq : m / 10 < 10 ^ k := by
        rw [pow_succ] at hm
        omega
      have hr := ih hq
      omega

/-- `str` writes a number exactly while it has few enough digits. -/
theorem length_decimal_iff (m : ℕ) : (decimal m).length ≤ maxStrDigits ↔ m < 10 ^ maxStrDigits := by
  constructor
  · intro hl
    have hlt := number_lt_pow (isDigits_decimal m).2
    rw [number_decimal] at hlt
    exact hlt.trans_le (Nat.pow_le_pow_right (by decide) hl)
  · intro hm
    exact length_decimal_le_of_lt (by decide) hm

/-- What `str` wrote is read back. -/
theorem pyInt_strInt (h : strInt n = some text) : pyInt text = some n := by
  rw [strInt] at h
  split_ifs at h with hl
  cases h
  have hle := (length_decimal_iff n.natAbs).mpr hl
  rw [intText]
  split_ifs with hneg
  · rw [pyInt_minus (isDigits_decimal _), if_pos hle, number_decimal]
    congr 1
    omega
  · rw [pyInt_isDigits (isDigits_decimal _), if_pos hle, number_decimal]
    congr 1
    omega

theorem decimal_number_of_head (h : IsDigits ds) (hh : ds.head? = some 0x30 → ds = [0x30]) :
    decimal (number ds) = ds := by
  rw [decimal_number h, stripLeadingZeros]
  cases ds with
  | nil => rfl
  | cons c ds =>
    have hc := h.2 c mem_cons_self
    have hr : ∀ d ∈ ds, isAsciiDigit d = true := fun d hd => h.2 d (mem_cons_of_mem c hd)
    have hk : ¬(c.val = 0x30 ∧ false = false ∧ ds.head?.any isAsciiDigit = true) := by
      rintro ⟨hz, -, hn⟩
      have hw : c = 0x30 := Fin.ext hz
      have ha := hh (congrArg some hw)
      rw [List.cons.injEq] at ha
      rw [ha.2] at hn
      contradiction
    rw [stripLeadingZeros.strip, if_neg hk, hc, strip_true hr]

theorem decimal_head (m : ℕ) : (decimal m).head? = some 0x30 → m = 0 ∧ decimal m = [0x30] := by
  intro hh
  cases hd : decimal m with
  | nil => exact absurd hd (isDigits_decimal m).1
  | cons c ds =>
    rw [hd] at hh
    cases hh
    have hdi := isDigits_decimal m
    have hse : stripLeadingZeros (decimal m) = decimal m := by
      rw [← decimal_number hdi, number_decimal]
    rw [hd] at hse hdi
    by_cases he : ds = []
    · subst ds
      have hvalue := number_decimal m
      rw [hd] at hvalue
      refine ⟨?_, rfl⟩
      rw [← hvalue]
      decide
    · have hn : ds.head?.any isAsciiDigit = true := by
        cases ds with
        | nil => exact absurd rfl he
        | cons d ds => exact hdi.2 d (mem_cons_of_mem _ mem_cons_self)
      have hs := length_strip_le false ds
      rw [stripLeadingZeros, stripLeadingZeros.strip, if_pos ⟨rfl, rfl, hn⟩] at hse
      rw [hse, length_cons] at hs
      omega

theorem plain_intText (n : ℤ) : Plain (intText n) := by
  rw [intText]
  split_ifs with hneg
  · refine Or.inr ⟨_, rfl, isDigits_decimal _, ?_⟩
    intro hh
    have hz := (decimal_head _ hh).1
    omega
  · exact Or.inl ⟨isDigits_decimal _, fun hh => (decimal_head _ hh).2⟩

/-- A text is read back as itself exactly when it is plain. -/
theorem strInt_eq_iff_plain (h : pyInt text = some n) : strInt n = some text ↔ Plain text := by
  constructor
  · intro hstr
    rw [strInt] at hstr
    split_ifs at hstr with hl
    cases hstr
    exact plain_intText n
  · intro hp
    rcases hp with ⟨hd, hh⟩ | ⟨ds, rfl, hd, hh⟩
    · rw [pyInt_isDigits hd] at h
      split_ifs at h with hle
      cases h
      have hl := (number_lt_pow hd.2).trans_le (Nat.pow_le_pow_right (by decide) hle)
      rw [strInt, Int.natAbs_natCast, if_pos hl, intText, if_neg (by omega),
        Int.natAbs_natCast, decimal_number_of_head hd hh]
    · rw [pyInt_minus hd] at h
      split_ifs at h with hle
      cases h
      have hl := (number_lt_pow hd.2).trans_le (Nat.pow_le_pow_right (by decide) hle)
      have hs := decimal_number_of_head hd fun hz => absurd hz hh
      have hpos : number ds ≠ 0 := by
        intro hz
        rw [hz] at hs
        exact hh (by rw [← hs]; decide)
      rw [strInt, Int.natAbs_neg, Int.natAbs_natCast, if_pos hl, intText, if_pos (by omega),
        Int.natAbs_neg, Int.natAbs_natCast, hs]

theorem mem_dropWhile {c : CodePoint} {p : CodePoint → Bool} (hc : c ∈ text) (hp : p c = false) :
    c ∈ text.dropWhile p := by
  rw [← takeWhile_append_dropWhile (p := p) (l := text), mem_append] at hc
  rcases hc with hf | hb
  · have ht := all_eq_true.mp all_takeWhile c hf
    rw [hp] at ht
    contradiction
  · exact hb

theorem readInt_dash {front rest : Text} (hf : front ≠ [])
    (hb : ∀ c ∈ front, isBlank c = false) (hsi : ∀ c ∈ front, c ≠ minus ∧ c ≠ plus) :
    readInt (front ++ minus :: rest) = none := by
  cases front with
  | nil => exact absurd rfl hf
  | cons c front =>
    have hc := hb c mem_cons_self
    obtain ⟨hm, hp⟩ := hsi c mem_cons_self
    have hd : (c :: front ++ minus :: rest).dropWhile isBlank = c :: front ++ minus :: rest :=
      dropWhile_cons_of_neg (by simp [hc])
    have hs : splitSign (c :: front ++ minus :: rest) =
        (false, c :: front ++ minus :: rest) := by
      rw [cons_append, splitSign, if_neg hm, if_neg hp]
    have hmem : minus ∈ (c :: front ++ minus :: rest).dropWhile isRunSymbol :=
      mem_dropWhile (by simp) (by decide)
    have ht : ¬((c :: front ++ minus :: rest).dropWhile isRunSymbol).all isBlank = true := by
      intro hall
      exact absurd (all_eq_true.mp hall minus hmem) (by decide)
    rw [readInt, hd, hs]
    exact if_neg fun h => ht h.2.2.2

theorem mapM_asciiOf_append {front : Text} (hf : ∀ c ∈ front, c.val < 127) (rest : Text) :
    (front ++ rest).mapM asciiOf = (rest.mapM asciiOf).map (front ++ ·) := by
  induction front with
  | nil => simp
  | cons c front ih =>
    rw [forall_mem_cons] at hf
    rw [cons_append, mapM_cons, ih hf.2, asciiOf, if_pos hf.1]
    cases rest.mapM asciiOf <;> rfl

/-- A minus past the first symbol ends every number. -/
theorem pyInt_dash {front : Text} (hf : front ≠ []) (ha : ∀ c ∈ front, c.val < 127)
    (hb : ∀ c ∈ front, isBlank c = false) (hs : ∀ c ∈ front, c ≠ minus ∧ c ≠ plus)
    (rest : Text) : pyInt (front ++ minus :: rest) = none := by
  have hm : asciiOf minus = some minus := rfl
  rw [pyInt, mapM_asciiOf_append ha, mapM_cons, hm]
  cases rest.mapM asciiOf with
  | none => rfl
  | some tail => exact readInt_dash hf hb hs

end Aizzak.IntText
