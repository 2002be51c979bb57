import Mathlib

/-!
Python's `str` as the code compares, splits and encodes it: a list of code points
that, unlike a Lean string, may contain surrogates. The whitespace table is the one
`str.strip`, `str.split` and `str.isspace` use.
-/
namespace Aizzak.PyText

abbrev CodePoint := Fin 0x110000

abbrev Text := List CodePoint

instance neZero_codePoints : NeZero 0x110000 := ⟨by decide⟩

instance lawfulBEq_codePoint : LawfulBEq CodePoint := inferInstance

instance lawfulBEq_text : LawfulBEq Text := inferInstance

theorem lineFeed_lt : 0x0A < 0x110000 := by decide

theorem space_lt : 0x20 < 0x110000 := by decide

def isSpaceCode (n : ℕ) : Bool :=
  (0x09 ≤ n && n ≤ 0x0D) || (0x1C ≤ n && n ≤ 0x20) || n == 0x85 || n == 0xA0 || n == 0x1680 ||
    (0x2000 ≤ n && n ≤ 0x200A) || n == 0x2028 || n == 0x2029 || n == 0x202F || n == 0x205F ||
    n == 0x3000

def isSpace (c : CodePoint) : Bool := isSpaceCode c.val

def isSurrogate (c : CodePoint) : Bool := 0xD800 ≤ c.val && c.val ≤ 0xDFFF

/-- `text.encode("utf-8")` succeeds exactly on the texts without a surrogate. -/
def Encodable (text : Text) : Prop := ∀ c ∈ text, isSurrogate c = false

instance (text : Text) : Decidable (Encodable text) := List.decidableBAll _ text

def Blank (text : Text) : Prop := ∀ c ∈ text, isSpace c = true

instance (text : Text) : Decidable (Blank text) := List.decidableBAll _ text

def digitZeros : List ℕ :=
  [0x30, 0x660, 0x6F0, 0x7C0, 0x966, 0x9E6, 0xA66, 0xAE6, 0xB66, 0xBE6, 0xC66, 0xCE6, 0xD66,
    0xDE6, 0xE50, 0xED0, 0xF20, 0x1040, 0x1090, 0x17E0, 0x1810, 0x1946, 0x19D0, 0x1A80, 0x1A90,
    0x1B50, 0x1BB0, 0x1C40, 0x1C50, 0xA620, 0xA8D0, 0xA900, 0xA9D0, 0xA9F0, 0xAA50, 0xABF0,
    0xFF10, 0x104A0, 0x10D30, 0x11066, 0x110F0, 0x11136, 0x111D0, 0x112F0, 0x11450, 0x114D0,
    0x11650, 0x116C0, 0x11730, 0x118E0, 0x11950, 0x11C50, 0x11D50, 0x11DA0, 0x11F50, 0x16A60,
    0x16AC0, 0x16B50, 0x1D7CE, 0x1D7D8, 0x1D7E2, 0x1D7EC, 0x1D7F6, 0x1E140, 0x1E2F0, 0x1E4F0,
    0x1E950, 0x1FBF0]

def digit (c : CodePoint) : Option ℕ :=
  (digitZeros.find? fun start => start ≤ c.val ∧ c.val < start + 10).map (c.val - ·)

def number (digits : Text) : ℕ :=
  (digits.filterMap digit).foldl (fun value d => 10 * value + d) 0

def strip (text : Text) : Text :=
  ((text.dropWhile isSpace).reverse.dropWhile isSpace).reverse

theorem blank_of_strip_eq_nil {text : Text} (h : strip text = []) : Blank text := by
  rw [strip, List.reverse_eq_nil_iff, List.dropWhile_eq_nil_iff] at h
  intro c hc
  rw [← List.takeWhile_append_dropWhile (p := isSpace) (l := text), List.mem_append] at hc
  rcases hc with hf | hb
  · exact List.all_eq_true.mp List.all_takeWhile c hf
  · exact h c (List.mem_reverse.mpr hb)

def ofString (s : String) : Text :=
  s.toList.map fun c => ⟨c.toNat, by
    have h := c.valid
    simp only [Char.toNat, UInt32.isValidChar, Nat.isValidChar] at *
    omega⟩

theorem encodable_ofString (s : String) : Encodable (ofString s) := by
  intro c hc
  obtain ⟨d, -, rfl⟩ := List.mem_map.mp hc
  have h := d.valid
  simp only [UInt32.isValidChar, Nat.isValidChar] at h
  simp only [isSurrogate, Char.toNat, Bool.and_eq_false_iff, decide_eq_false_iff_not]
  omega

theorem encodable_append {s t : Text} : Encodable (s ++ t) ↔ Encodable s ∧ Encodable t :=
  List.forall_mem_append

structure UnicodeEncodeError where
  text : Text

/-- `text.encode("utf-8")`; the bytes determine the text and stand for it. -/
def encode (text : Text) : Except UnicodeEncodeError Text :=
  if Encodable text then .ok text else .error ⟨text⟩

/-- A comprehension that encodes a text for each element fails on the first it cannot. -/
theorem mapM_encode_eq_ok {α β : Type} {f : α → Text} {g : α → Text → β} {l : List α}
    {ys : List β} :
    l.mapM (fun a => (encode (f a)).map (g a)) = .ok ys ↔
      (∀ a ∈ l, Encodable (f a)) ∧ ys = l.map fun a => g a (f a) := by
  induction l generalizing ys with
  | nil => simp [pure, Except.pure, eq_comm]
  | cons a l ih =>
    rw [List.mapM_cons, List.forall_mem_cons]
    by_cases ha : Encodable (f a)
    · cases hr : l.mapM (fun a => (encode (f a)).map (g a)) with
      | error e =>
        have hfa : ¬ ∀ b ∈ l, Encodable (f b) := by
          intro hall
          have hok := ih.mpr ⟨hall, rfl⟩
          rw [hr] at hok
          cases hok
        simp only [encode, ha, Except.map, bind, Except.bind, hfa, if_true, false_and,
          and_false, reduceCtorEq]
      | ok rest =>
        obtain ⟨hall, rfl⟩ := ih.mp hr
        have hf := eq_true hall
        simp [encode, ha, Except.map, bind, Except.bind, pure, Except.pure, hf, eq_comm]
    · simp [encode, ha, Except.map, bind, Except.bind]

end Aizzak.PyText
