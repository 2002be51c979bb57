import Aizzak.IntText
import Aizzak.VectorCollections

/-!
The names of the knowledge collections read back. Behind the common start a name is an id, or an
id, the separator and a revision, and it is taken apart from the right. An id is what Python's
`uuid` writes again as it read it. It reads far more than it writes: an urn, braces, dashes
anywhere, and any number in hexadecimal that 32 symbols hold. All that it writes has one length, so
that a name has one reading.
-/
namespace Aizzak.CollectionNames

open PyText IntText List
open VectorCollections hiding isUuid

section Reading

def without (old : List Char) : ℕ → List Char → List Char
  | _, [] => []
  | skip + 1, _ :: text => without old skip text
  | 0, c :: text =>
    if old.isPrefixOf (c :: text) then without old (old.length - 1) text
    else c :: without old 0 text

def isBrace (c : Char) : Bool := c = '\x7b' || c = '\x7d'

def stripBraces (text : List Char) : List Char :=
  ((text.dropWhile isBrace).reverse.dropWhile isBrace).reverse

def hexValue (c : CodePoint) : Option ℕ :=
  if 0x30 ≤ c.val ∧ c.val ≤ 0x39 then some (c.val - 0x30)
  else if 0x41 ≤ c.val ∧ c.val ≤ 0x46 then some (c.val - 0x37)
  else if 0x61 ≤ c.val ∧ c.val ≤ 0x66 then some (c.val - 0x57)
  else none

def isHexSymbol (c : CodePoint) : Bool := (hexValue c).isSome || c = underscore

def underscoresBetween : Text → Bool
  | [] => true
  | c :: rest =>
    (c ≠ underscore || rest.head?.any fun d => (hexValue d).isSome) && underscoresBetween rest

/-- Behind the sign `0x` may stand, and one underscore behind it. -/
def withoutMark (text : Text) : Text :=
  if text.head? = some 0x30 ∧ (text[1]? = some 0x78 ∨ text[1]? = some 0x58) then
    if text[2]? = some underscore then text.drop 3 else text.drop 2
  else text

def hexNumber (digits : Text) : ℕ :=
  (digits.filterMap hexValue).foldl (fun value d => 16 * value + d) 0

def readHex (text : Text) : Option ℤ :=
  let (negative, signed) := splitSign (text.dropWhile isBlank)
  let body := withoutMark signed
  let run := body.takeWhile isHexSymbol
  if (run.head?.any fun c => (hexValue c).isSome) ∧ underscoresBetween run ∧
      (body.dropWhile isHexSymbol).all isBlank then
    some (if negative then -hexNumber run else hexNumber run)
  else none

def pyIntHex (text : Text) : Option ℤ := (text.mapM asciiOf).bind readHex

def hexOf (text : List Char) : List Char :=
  without ['-'] 0 (stripBraces (without "uuid:".toList 0 (without "urn:".toList 0 text)))

def uuidInt (text : String) : Option ℤ :=
  if (hexOf text.toList).length ≠ 32 then none
  else (pyIntHex (ofString (String.ofList (hexOf text.toList)))).filter fun n =>
    0 ≤ n ∧ n < 2 ^ 128

end Reading

section Writing

def hexSymbol (d : ℕ) : Char := "0123456789abcdef".toList.getD d '0'

def hexText : ℕ → ℕ → List Char
  | 0, _ => []
  | width + 1, n => hexText width (n / 16) ++ [hexSymbol (n % 16)]

def dashed (hex : List Char) : List Char :=
  hex.take 8 ++ '-' :: ((hex.drop 8).take 4 ++ '-' :: ((hex.drop 12).take 4 ++
    '-' :: ((hex.drop 16).take 4 ++ '-' :: hex.drop 20)))

def uuidStr (n : ℤ) : String := String.ofList (dashed (hexText 32 n.toNat))

end Writing

section Names

def isUuid (candidate : String) : Bool := (uuidInt candidate).any (uuidStr · = candidate)

def rpartition (sep : Char) (text : List Char) : Option (List Char × List Char) :=
  let behind := (text.reverse.takeWhile (· ≠ sep)).reverse
  match text.reverse.dropWhile (· ≠ sep) with
  | [] => none
  | _ :: before => some (before.reverse, behind)

def splitRest (rest : List Char) : Option (String × Option String) :=
  if isUuid (String.ofList rest) then some (String.ofList rest, none)
  else
    match rpartition '-' rest with
    | none => none
    | some (workspaceId, revision) =>
      if ¬ isRevision (String.ofList revision) ∨ ¬ isUuid (String.ofList workspaceId) then none
      else some (String.ofList workspaceId, some (String.ofList revision))

def splitKnowledgeCollection (name : String) : Option (String × Option String) :=
  if ¬ beginsWith "kn-" name then none else splitRest (name.toList.drop "kn-".toList.length)

def collectionName (ws : WorkspaceId) : Option Revision → String
  | none => knowledgeCollection ws
  | some revision => knowledgeCollectionRevision ws revision

end Names

variable {hex text : List Char} {c : Char}

section Digits

/-- One digit of a canonical text. -/
theorem lowerHex_cases (h : isLowerHex c = true) : ∃ d < 16, hexSymbol d = c ∧
    (c.toNat = d + 0x30 ∧ d < 10 ∨ c.toNat = d + 0x57 ∧ 10 ≤ d) := by
  have hall : ("0123456789abcdef".toList.all fun c => (List.range 16).any fun d =>
      decide (hexSymbol d = c ∧ (c.toNat = d + 0x30 ∧ d < 10 ∨ c.toNat = d + 0x57 ∧ 10 ≤ d)))
        = true := by
    decide +kernel
  obtain ⟨d, hd, hs⟩ := any_eq_true.mp
    (all_eq_true.mp hall c (by simpa [isLowerHex] using h))
  exact ⟨d, mem_range.mp hd, of_decide_eq_true hs⟩

theorem isLowerHex_hexSymbol {d : ℕ} (h : d < 16) : isLowerHex (hexSymbol d) = true := by
  have hall : ∀ d < 16, isLowerHex (hexSymbol d) = true := by decide +kernel
  exact hall d h

theorem isLowerHex_of_mem_hexText {width n : ℕ} (hc : c ∈ hexText width n) :
    isLowerHex c = true := by
  induction width generalizing n with
  | zero => cases hc
  | succ width ih =>
    rcases mem_append.mp hc with hf | hl
    · exact ih hf
    · rw [mem_singleton.mp hl]
      exact isLowerHex_hexSymbol (Nat.mod_lt n (by omega))

theorem length_hexText (width n : ℕ) : (hexText width n).length = width := by
  induction width generalizing n with
  | zero => rfl
  | succ width ih => rw [hexText, length_append, ih, length_singleton]

theorem mem_ofString {code : CodePoint} (h : code ∈ ofString (String.ofList hex)) :
    ∃ c ∈ hex, code.val = c.toNat := by
  obtain ⟨c, hc, rfl⟩ := mem_map.mp h
  exact ⟨c, by simpa using hc, rfl⟩

theorem code_of_lowerHex {code : CodePoint} (hc : isLowerHex c = true)
    (hco : code.val = c.toNat) : code.val < 127 ∧ isBlank code = false ∧ code ≠ minus ∧
      code ≠ plus ∧ code ≠ underscore ∧ code ≠ 0x78 ∧ code ≠ 0x58 ∧
        ∃ d < 16, hexValue code = some d ∧ hexSymbol d = c := by
  obtain ⟨d, hd, hs, hca⟩ := lowerHex_cases hc
  have hr : code.val = d + 0x30 ∧ d < 10 ∨ code.val = d + 0x57 ∧ 10 ≤ d := by
    rwa [hco]
  have hne : ∀ other : CodePoint, other.val < 0x30 ∨ 0x39 < other.val ∧ other.val < 0x61 ∨
      0x66 < other.val → code ≠ other := by
    rintro other ho rfl
    omega
  refine ⟨by omega, ?_, hne minus (by decide), hne plus (by decide), hne underscore (by decide),
    hne 0x78 (by decide), hne 0x58 (by decide), d, hd, ?_, hs⟩
  · simp only [isBlank, Bool.or_eq_false_iff, Bool.and_eq_false_iff, beq_eq_false_iff_ne,
      decide_eq_false_iff_not]
    omega
  · rw [hexValue]
    rcases hr with ⟨hval, hlt⟩ | ⟨hval, hle⟩
    · rw [if_pos (by omega), hval, Nat.add_sub_cancel]
    · rw [if_neg (by omega), if_neg (by omega), if_pos (by omega), hval, Nat.add_sub_cancel]

theorem hexText_hexNumber (h : ∀ c ∈ hex, isLowerHex c = true) :
    hexText hex.length (hexNumber (ofString (String.ofList hex))) = hex ∧
      hexNumber (ofString (String.ofList hex)) < 16 ^ hex.length := by
  induction hex using List.reverseRecOn with
  | nil => exact ⟨rfl, by decide⟩
  | append_singleton hex c ih =>
    rw [forall_mem_append, forall_mem_singleton] at h
    obtain ⟨htext, hlt⟩ := ih h.1
    obtain ⟨d, hd, hvalue, hs⟩ : ∃ d < 16,
        (ofString (String.ofList [c])).filterMap hexValue = [d] ∧ hexSymbol d = c := by
      obtain ⟨code, hc, hval⟩ : ∃ code, ofString (String.ofList [c]) = [code] ∧
          code.val = c.toNat := by
        rw [ofString, String.toList_ofList, map_singleton]
        exact ⟨_, rfl, rfl⟩
      obtain ⟨-, -, -, -, -, -, -, d, hd, hvalue, hs⟩ := code_of_lowerHex h.2 hval
      exact ⟨d, hd, by rw [hc, filterMap_cons_some hvalue, filterMap_nil], hs⟩
    have hn : hexNumber (ofString (String.ofList (hex ++ [c]))) =
        16 * hexNumber (ofString (String.ofList hex)) + d := by
      have hsp : ofString (String.ofList (hex ++ [c])) =
          ofString (String.ofList hex) ++ ofString (String.ofList [c]) := by
        simp [ofString]
      rw [hexNumber, hsp, filterMap_append, hvalue, foldl_append]
      rfl
    rw [hn, length_append, length_singleton, hexText, pow_succ]
    have hdiv : (16 * hexNumber (ofString (String.ofList hex)) + d) / 16 =
        hexNumber (ofString (String.ofList hex)) := by
      omega
    have hmod : (16 * hexNumber (ofString (String.ofList hex)) + d) % 16 = d := by
      omega
    rw [hdiv, hmod, htext, hs]
    exact ⟨rfl, by omega⟩

theorem dropWhile_of_forall {α : Type} {p : α → Bool} {l : List α} (h : ∀ a ∈ l, p a = false) :
    l.dropWhile p = l := by
  cases l with
  | nil => rfl
  | cons a l => rw [dropWhile_cons, h a mem_cons_self, if_neg Bool.false_ne_true]

/-- A text of digits alone is read as the number they write. -/
theorem pyIntHex_of_lowerHex (h : ∀ c ∈ hex, isLowerHex c = true) (hnil : hex ≠ []) :
    pyIntHex (ofString (String.ofList hex)) = some (hexNumber (ofString (String.ofList hex))) := by
  have hco : ∀ code ∈ ofString (String.ofList hex), code.val < 127 ∧ isBlank code = false ∧
      code ≠ minus ∧ code ≠ plus ∧ code ≠ underscore ∧ code ≠ 0x78 ∧ code ≠ 0x58 ∧
        (hexValue code).isSome = true := by
    intro code hcd
    obtain ⟨c, hc, hval⟩ := mem_ofString hcd
    obtain ⟨ha, hbl, hm, hp, hu, hx, hX, d, -, hvalue, -⟩ :=
      code_of_lowerHex (h c hc) hval
    exact ⟨ha, hbl, hm, hp, hu, hx, hX, by rw [hvalue]; rfl⟩
  have hle : (ofString (String.ofList hex)).length = hex.length := by
    simp [ofString]
  generalize ofString (String.ofList hex) = codes at hco hle ⊢
  obtain ⟨first, rest, rfl⟩ : ∃ first rest, codes = first :: rest := by
    cases codes with
    | nil => exact absurd (eq_nil_of_length_eq_zero hle.symm) hnil
    | cons first rest => exact ⟨first, rest, rfl⟩
  have hsi : splitSign (first :: rest) = (false, first :: rest) := by
    obtain ⟨-, -, hm, hp, -⟩ := hco first mem_cons_self
    rw [splitSign, if_neg hm, if_neg hp]
  have hma : withoutMark (first :: rest) = first :: rest := by
    have hs : ∀ code, (first :: rest)[1]? = some code → code ≠ 0x78 ∧ code ≠ 0x58 := by
      intro code hcd
      obtain ⟨-, -, -, -, -, hx, hX, -⟩ := hco code (mem_of_getElem? hcd)
      exact ⟨hx, hX⟩
    rw [withoutMark, if_neg]
    rintro ⟨-, hx | hX⟩
    · exact (hs 0x78 hx).1 rfl
    · exact (hs 0x58 hX).2 rfl
  have hsy : ∀ code ∈ first :: rest, isHexSymbol code = true := by
    intro code hcd
    rw [isHexSymbol, (hco code hcd).2.2.2.2.2.2.2, Bool.true_or]
  have hb : underscoresBetween (first :: rest) = true := by
    have hall : ∀ l : Text, (∀ code ∈ l, code ≠ underscore) → underscoresBetween l = true := by
      intro l hl
      induction l with
      | nil => rfl
      | cons code l ih =>
        rw [forall_mem_cons] at hl
        simp [underscoresBetween, hl.1, ih hl.2]
    exact hall _ fun code hcd => (hco code hcd).2.2.2.2.1
  rw [pyIntHex, mapM_asciiOf fun code hcd => (hco code hcd).1, Option.bind_some, readHex]
  simp only [dropWhile_of_forall fun code hcd => (hco code hcd).2.1, hsi, hma,
    takeWhile_eq_self_iff.mpr hsy, dropWhile_eq_nil_iff.mpr hsy]
  rw [if_pos ⟨(hco first mem_cons_self).2.2.2.2.2.2.2, hb, rfl⟩]
  rfl

end Digits

section Canonical

theorem matchesPattern_cons {p : Char} {pattern : List Char} :
    matchesPattern isLowerHex (p :: pattern) text = true ↔ ∃ c rest, text = c :: rest ∧
      (if p = 'h' then isLowerHex c else c == p) = true ∧
        matchesPattern isLowerHex pattern rest = true := by
  cases text with
  | nil => simp [matchesPattern]
  | cons c rest =>
    simp only [matchesPattern, length_cons, zip_cons_cons, all_cons,
      Bool.and_eq_true, beq_iff_eq, Nat.add_right_cancel_iff, List.cons.injEq]
    constructor
    · rintro ⟨hl, hc, hr⟩
      exact ⟨c, rest, ⟨rfl, rfl⟩, hc, hl, hr⟩
    · rintro ⟨c', rest', ⟨rfl, rfl⟩, hc, hl, hr⟩
      exact ⟨hl, hc, hr⟩

theorem matchesPattern_digits {k : ℕ} {pattern : List Char} :
    matchesPattern isLowerHex (List.replicate k 'h' ++ pattern) text = true ↔
      ∃ s t, text = s ++ t ∧ s.length = k ∧ (∀ c ∈ s, isLowerHex c = true) ∧
        matchesPattern isLowerHex pattern t = true := by
  induction k generalizing text with
  | zero =>
    constructor
    · intro h
      exact ⟨[], text, rfl, rfl, fun _ hc => absurd hc not_mem_nil, h⟩
    · rintro ⟨s, t, rfl, hs, -, h⟩
      rwa [eq_nil_of_length_eq_zero hs]
  | succ k ih =>
    rw [replicate_succ, cons_append, matchesPattern_cons]
    constructor
    · rintro ⟨c, rest, rfl, hc, hr⟩
      obtain ⟨s, t, rfl, hs, hl, h⟩ := ih.mp hr
      exact ⟨c :: s, t, rfl, congrArg Nat.succ hs, forall_mem_cons.mpr ⟨hc, hl⟩, h⟩
    · rintro ⟨s, t, rfl, hs, hl, h⟩
      obtain ⟨c, s, rfl⟩ := exists_cons_of_length_eq_add_one hs
      rw [forall_mem_cons] at hl
      exact ⟨c, s ++ t, rfl, hl.1, ih.mpr ⟨s, t, rfl, Nat.succ.inj hs, hl.2, h⟩⟩

theorem matchesPattern_dash {pattern : List Char} :
    matchesPattern isLowerHex ('-' :: pattern) text = true ↔
      ∃ t, text = '-' :: t ∧ matchesPattern isLowerHex pattern t = true := by
  rw [matchesPattern_cons]
  constructor
  · rintro ⟨c, t, rfl, hc, h⟩
    rw [if_neg (by decide), beq_iff_eq] at hc
    exact ⟨t, by rw [hc], h⟩
  · rintro ⟨t, rfl, h⟩
    exact ⟨'-', t, rfl, rfl, h⟩

theorem uuidPattern_eq : uuidPattern = List.replicate 8 'h' ++ '-' :: (List.replicate 4 'h' ++
    '-' :: (List.replicate 4 'h' ++ '-' :: (List.replicate 4 'h' ++ '-' ::
      (List.replicate 12 'h' ++ [])))) := by
  decide

theorem dashed_groups {a b c d e : List Char} (ha : a.length = 8) (hb : b.length = 4)
    (hc : c.length = 4) (hd : d.length = 4) : dashed (a ++ (b ++ (c ++ (d ++ e)))) =
      a ++ '-' :: (b ++ '-' :: (c ++ '-' :: (d ++ '-' :: e))) := by
  have hn : ∀ (k n : ℕ) (l front back : List Char), l.drop k = front ++ back →
      front.length = n → l.drop (k + n) = back := by
    intro k n l front back hdr hf
    rw [← drop_drop, hdr, drop_left' hf]
  have h8 : (a ++ (b ++ (c ++ (d ++ e)))).drop 8 = b ++ (c ++ (d ++ e)) := drop_left' ha
  have h12 := hn 8 4 _ _ _ h8 hb
  have h16 := hn 12 4 _ _ _ h12 hc
  have h20 := hn 16 4 _ _ _ h16 hd
  rw [dashed, h8, h12, h16, h20, take_left' ha, take_left' hb, take_left' hc,
    take_left' hd]

/-- A canonical id is 32 digits in five groups. -/
theorem isUuid_iff_dashed {id : String} : VectorCollections.isUuid id = true ↔
    ∃ hex, hex.length = 32 ∧ (∀ c ∈ hex, isLowerHex c = true) ∧ id.toList = dashed hex := by
  rw [VectorCollections.isUuid, uuidPattern_eq]
  simp only [matchesPattern_digits, matchesPattern_dash]
  constructor
  · rintro ⟨a, _, hid, ha, hlowerA, _, rfl, b, _, rfl, hb, hlowerB, _, rfl, c, _, rfl, hc, hlowerC,
      _, rfl, d, _, rfl, hd, hlowerD, _, rfl, e, t, rfl, he, hlowerE, hnil⟩
    have ht : t = [] := by
      simpa [matchesPattern] using hnil
    subst ht
    refine ⟨a ++ (b ++ (c ++ (d ++ e))), ?_, ?_, ?_⟩
    · simp only [length_append]
      omega
    · simp only [forall_mem_append]
      exact ⟨hlowerA, hlowerB, hlowerC, hlowerD, hlowerE⟩
    · rw [hid, append_nil, dashed_groups ha hb hc hd]
  · rintro ⟨hex, hle, hl, hid⟩
    have hg : ∀ k n, ∀ c ∈ (hex.drop k).take n, isLowerHex c = true :=
      fun k n c hc => hl c (mem_of_mem_drop (mem_of_mem_take hc))
    refine ⟨hex.take 8, _, hid, ?_, fun c hc => hl c (mem_of_mem_take hc), _, rfl,
      (hex.drop 8).take 4, _, rfl, ?_, hg 8 4, _, rfl, (hex.drop 12).take 4, _, rfl, ?_,
      hg 12 4, _, rfl, (hex.drop 16).take 4, _, rfl, ?_, hg 16 4, _, rfl, hex.drop 20, [],
      (append_nil _).symm, ?_, fun c hc => hl c (mem_of_mem_drop hc), rfl⟩
    all_goals
      simp only [length_take, length_drop]
      omega

theorem without_of_notMem {first : Char} {old : List Char} (h : first ∉ text) :
    without (first :: old) 0 text = text := by
  induction text with
  | nil => rfl
  | cons c text ih =>
    rw [mem_cons, not_or] at h
    have hne : (first :: old).isPrefixOf (c :: text) = false := by
      rw [isPrefixOf_cons_cons, beq_false_of_ne h.1, Bool.false_and]
    rw [without, hne, if_neg Bool.false_ne_true, ih h.2]

theorem without_singleton {sep : Char} : without [sep] 0 text = text.filter (· ≠ sep) := by
  induction text with
  | nil => rfl
  | cons c text ih =>
    rw [without, filter_cons]
    by_cases h : sep = c
    · subst h
      simp [List.isPrefixOf, ih]
    · simp [List.isPrefixOf, h, Ne.symm h, ih]

/-- The digits of a canonical text are left. -/
theorem hexOf_dashed (hlo : ∀ c ∈ hex, isLowerHex c = true) : hexOf (dashed hex) = hex := by
  have hd : ∀ c, isLowerHex c = true → c ≠ '-' ∧ c ≠ 'u' ∧ isBrace c = false := by
    have hall : ("0123456789abcdef".toList.all fun c =>
        decide (c ≠ '-' ∧ c ≠ 'u' ∧ isBrace c = false)) = true := by
      decide +kernel
    intro c hc
    exact of_decide_eq_true (all_eq_true.mp hall c (by simpa [isLowerHex] using hc))
  have hmem : ∀ c ∈ dashed hex, c ∈ hex ∨ c = '-' := by
    intro c hc
    simp only [dashed, mem_append, mem_cons] at hc
    rcases hc with hc | hc | hc | hc | hc | hc | hc | hc | hc
    all_goals first
      | exact Or.inr hc
      | exact Or.inl (mem_of_mem_take hc)
      | exact Or.inl (mem_of_mem_drop (mem_of_mem_take hc))
      | exact Or.inl (mem_of_mem_drop hc)
  have hu : 'u' ∉ dashed hex := by
    intro hc
    rcases hmem 'u' hc with h | h
    · exact (hd 'u' (hlo 'u' h)).2.1 rfl
    · exact absurd h (by decide)
  have hb : ∀ c ∈ dashed hex, isBrace c = false := by
    intro c hc
    rcases hmem c hc with h | rfl
    · exact (hd c (hlo c h)).2.2
    · decide
  have hse : ∀ l : List Char, (∀ c ∈ l, c ∈ hex) → l.filter (· ≠ '-') = l := by
    intro l hl
    rw [filter_eq_self]
    exact fun c hc => decide_eq_true (hd c (hlo c (hl c hc))).1
  have hs : stripBraces (dashed hex) = dashed hex := by
    rw [stripBraces, dropWhile_of_forall hb,
      dropWhile_of_forall fun c hc => hb c (mem_reverse.mp hc), reverse_reverse]
  have hj : ∀ k, (hex.drop k).take 4 ++ hex.drop (k + 4) = hex.drop k := by
    intro k
    rw [← drop_drop, take_append_drop]
  have hurn : without "urn:".toList 0 (dashed hex) = dashed hex := without_of_notMem hu
  have huu : without "uuid:".toList 0 (dashed hex) = dashed hex := without_of_notMem hu
  rw [hexOf, hurn, huu, hs, without_singleton, dashed]
  simp only [filter_append, filter_cons, ne_eq, not_true_eq_false, decide_false,
    Bool.false_eq_true, if_false]
  rw [hse _ fun c hc => mem_of_mem_take hc,
    hse _ fun c hc => mem_of_mem_drop (mem_of_mem_take hc),
    hse _ fun c hc => mem_of_mem_drop (mem_of_mem_take hc),
    hse _ fun c hc => mem_of_mem_drop (mem_of_mem_take hc),
    hse _ fun c hc => mem_of_mem_drop hc, hj 16, hj 12, hj 8,
    take_append_drop]

/-- `_is_uuid` accepts the canonical spellings and no other text. -/
theorem isUuid_eq (candidate : String) :
    isUuid candidate = VectorCollections.isUuid candidate := by
  rw [Bool.eq_iff_iff, isUuid_iff_dashed]
  constructor
  · intro h
    obtain ⟨n, -, hn⟩ := Option.any_eq_true _ _ |>.mp h
    rw [decide_eq_true_eq] at hn
    subst hn
    exact ⟨hexText 32 n.toNat, length_hexText _ _, fun c hc => isLowerHex_of_mem_hexText hc,
      String.toList_ofList⟩
  · rintro ⟨hex, hle, hl, hid⟩
    have hnil : hex ≠ [] := by
      rintro rfl
      cases hle
    obtain ⟨htext, hlt⟩ := hexText_hexNumber hl
    rw [hle] at htext hlt
    have hr : (0 : ℤ) ≤ hexNumber (ofString (String.ofList hex)) ∧
        (hexNumber (ofString (String.ofList hex)) : ℤ) < 2 ^ 128 := by
      refine ⟨Int.natCast_nonneg _, ?_⟩
      have hpow : (16 ^ 32 : ℕ) = 2 ^ 128 := by decide
      omega
    have hint : uuidInt candidate = some (hexNumber (ofString (String.ofList hex)) : ℤ) := by
      rw [uuidInt, hid, hexOf_dashed hl, if_neg (not_not.mpr hle),
        pyIntHex_of_lowerHex hl hnil]
      exact Option.filter_some_pos (decide_eq_true hr)
    have hstr : uuidStr (hexNumber (ofString (String.ofList hex))) = candidate := by
      rw [uuidStr, Int.toNat_natCast, htext, ← hid, String.ofList_toList]
    rw [isUuid, hint, Option.any_some, decide_eq_true_eq]
    exact hstr

end Canonical

section Parsing

theorem rpartition_append {sep : Char} {before behind : List Char} (h : sep ∉ behind) :
    rpartition sep (before ++ sep :: behind) = some (before, behind) := by
  have ho : ∀ c ∈ behind.reverse, decide (c ≠ sep) = true := by
    intro c hc
    rw [decide_eq_true_eq]
    rintro rfl
    exact h (mem_reverse.mp hc)
  have hs : (sep :: before.reverse).takeWhile (· ≠ sep) = [] := by
    rw [takeWhile_cons, decide_eq_false (not_not.mpr rfl), if_neg Bool.false_ne_true]
  have hk : (sep :: before.reverse).dropWhile (· ≠ sep) = sep :: before.reverse := by
    rw [dropWhile_cons, decide_eq_false (not_not.mpr rfl), if_neg Bool.false_ne_true]
  rw [rpartition, reverse_append, reverse_cons, append_assoc,
    singleton_append, takeWhile_append_of_pos ho, hs,
    dropWhile_append_of_pos ho, hk, append_nil, reverse_reverse]
  simp only [reverse_reverse]

theorem eq_append_of_rpartition {sep : Char} {before behind : List Char}
    (h : rpartition sep text = some (before, behind)) : text = before ++ sep :: behind := by
  have hs := takeWhile_append_dropWhile (p := (· ≠ sep)) (l := text.reverse)
  rw [rpartition] at h
  cases hre : text.reverse.dropWhile (· ≠ sep) with
  | nil =>
    rw [hre] at h
    cases h
  | cons c rest =>
    have hc : c = sep := by
      have hh := List.head?_dropWhile_not (· ≠ sep) text.reverse
      rw [hre] at hh
      simpa using hh
    rw [hre] at h hs
    cases h
    have hr := congrArg List.reverse hs
    rw [reverse_append, reverse_reverse, reverse_cons, append_assoc,
      singleton_append, hc] at hr
    exact hr.symm

theorem separator_notMem (revision : Revision) : '-' ∉ revision.val.toList := by
  intro hmem
  have hr := revision.property
  rw [isRevision, Bool.and_eq_true, all_eq_true] at hr
  exact absurd (hr.2 '-' hmem) (by decide)

theorem split_of_start {name : String} {rest : List Char}
    (hn : name.toList = 'k' :: 'n' :: '-' :: rest) :
    splitKnowledgeCollection name = splitRest rest := by
  have hs : beginsWith "kn-" name = true := by
    rw [beginsWith, hn]
    rfl
  rw [splitKnowledgeCollection, if_neg (not_not.mpr hs), hn]
  rfl

theorem split_knowledgeCollection (ws : WorkspaceId) :
    splitKnowledgeCollection (knowledgeCollection ws) = some (ws.val, none) := by
  rw [split_of_start (toList_knowledgeCollection ws), splitRest, String.ofList_toList, isUuid_eq,
    if_pos ws.property]

/-- Behind the start there are too many symbols for an id, and the last separator is the one
before the revision. -/
theorem split_knowledgeCollectionRevision (ws : WorkspaceId) (revision : Revision) :
    splitKnowledgeCollection (knowledgeCollectionRevision ws revision) =
      some (ws.val, some revision.val) := by
  have hl : ¬ isUuid (String.ofList (ws.val.toList ++ '-' :: revision.val.toList)) = true := by
    rw [isUuid_eq]
    intro hu
    have hle := length_workspaceId ⟨_, hu⟩
    rw [String.toList_ofList, length_append, length_workspaceId, length_cons] at hle
    omega
  rw [split_of_start (toList_knowledgeCollectionRevision ws revision), splitRest, if_neg hl,
    rpartition_append (separator_notMem revision)]
  simp only [String.ofList_toList, isUuid_eq, revision.property, ws.property, not_true_eq_false,
    or_self, if_false]

/-- A name that splits is the name of a collection. -/
theorem collectionName_of_split {name workspaceId : String} {revision : Option String}
    (h : splitKnowledgeCollection name = some (workspaceId, revision)) :
    ∃ (ws : WorkspaceId) (r : Option Revision), ws.val = workspaceId ∧
      r.map (·.val) = revision ∧ name = collectionName ws r := by
  obtain ⟨rest, hn⟩ : ∃ rest, name.toList = 'k' :: 'n' :: '-' :: rest := by
    by_cases hs : beginsWith "kn-" name = true
    · obtain ⟨rest, hr⟩ := isPrefixOf_iff_prefix.mp hs
      exact ⟨rest, hr.symm⟩
    · rw [splitKnowledgeCollection, if_pos hs] at h
      cases h
  rw [split_of_start hn, splitRest] at h
  by_cases hu : isUuid (String.ofList rest) = true
  · rw [if_pos hu] at h
    cases h
    rw [isUuid_eq] at hu
    refine ⟨⟨_, hu⟩, none, rfl, rfl, String.toList_inj.mp ?_⟩
    rw [hn, collectionName, toList_knowledgeCollection, String.toList_ofList]
  · rw [if_neg hu] at h
    cases hp : rpartition '-' rest with
    | none =>
      rw [hp] at h
      cases h
    | some parts =>
      rw [hp] at h
      dsimp only at h
      by_cases hbad : ¬ isRevision (String.ofList parts.2) = true ∨
          ¬ isUuid (String.ofList parts.1) = true
      · rw [if_pos hbad] at h
        cases h
      · rw [if_neg hbad] at h
        cases h
        rw [not_or, not_not, not_not, isUuid_eq] at hbad
        refine ⟨⟨_, hbad.2⟩, some ⟨_, hbad.1⟩, rfl, rfl, String.toList_inj.mp ?_⟩
        rw [hn, collectionName, toList_knowledgeCollectionRevision, String.toList_ofList,
          String.toList_ofList, eq_append_of_rpartition hp]

theorem split_collectionName (ws : WorkspaceId) (r : Option Revision) :
    splitKnowledgeCollection (collectionName ws r) = some (ws.val, r.map (·.val)) := by
  cases r with
  | none => exact split_knowledgeCollection ws
  | some revision => exact split_knowledgeCollectionRevision ws revision

end Parsing

/-- The names are read back, and what is read is rebuilt, so that no two of them agree. -/
theorem collection_names_decodable :
    (∀ ws, splitKnowledgeCollection (knowledgeCollection ws) = some (ws.val, none)) ∧
    (∀ ws revision, splitKnowledgeCollection (knowledgeCollectionRevision ws revision) =
      some (ws.val, some revision.val)) ∧
    (∀ name workspaceId revision,
      splitKnowledgeCollection name = some (workspaceId, revision) →
        ∃ (ws : WorkspaceId) (r : Option Revision), ws.val = workspaceId ∧
          r.map (·.val) = revision ∧ name = collectionName ws r) ∧
    (∀ a b r r', collectionName a r = collectionName b r' → a = b ∧ r = r') ∧
    ∀ a b revision, knowledgeCollection a ≠ knowledgeCollectionRevision b revision := by
  refine ⟨split_knowledgeCollection, split_knowledgeCollectionRevision,
    fun _ _ _ h => collectionName_of_split h, fun a b r r' h => ?_, fun a b revision h => ?_⟩
  · have hr := congrArg splitKnowledgeCollection h
    rw [split_collectionName, split_collectionName, Option.some_inj, Prod.mk.injEq] at hr
    exact ⟨Subtype.ext hr.1, Option.map_injective Subtype.val_injective hr.2⟩
  · exact revision_ne_knowledgeCollection b a revision h.symm

end Aizzak.CollectionNames
