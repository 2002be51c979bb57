import Aizzak.IdentifierParsers

/-!
Runs of digits in a text. A text falls apart at the ends of its runs in one way only; leading
zeros go from every run on its own, and what stays of a run is the decimal form of the number
that it writes.
-/
namespace Aizzak.DigitRuns

open PyText Normalization IdentifierParsers List

/-- A run of ASCII digits, one at least. -/
def IsDigits (ds : Text) : Prop := ds ≠ [] ∧ ∀ c ∈ ds, isAsciiDigit c = true

def NoDigits (text : Text) : Prop := ∀ c ∈ text, isAsciiDigit c = false

def EndsRun (rest : Text) : Prop := ∀ c ∈ rest.head?, isAsciiDigit c = false

instance (ds : Text) : Decidable (IsDigits ds) := inferInstanceAs (Decidable (_ ∧ _))

instance (text : Text) : Decidable (NoDigits text) := List.decidableBAll _ text

section Splitting

variable {α : Type} {P : α → Bool} {s t s' t' : List α}

theorem takeWhile_append_of_head (hs : ∀ a ∈ s, P a = true) (ht : ∀ a ∈ t.head?, P a = false) :
    (s ++ t).takeWhile P = s := by
  rw [takeWhile_append_of_pos hs]
  cases t with
  | nil => simp
  | cons a t => simp [ht a rfl]

/-- A text is split in one way where a property of its symbols ends. -/
theorem append_inj_of_head (hs : ∀ a ∈ s, P a = true) (ht : ∀ a ∈ t.head?, P a = false)
    (hs' : ∀ a ∈ s', P a = true) (ht' : ∀ a ∈ t'.head?, P a = false) (h : s ++ t = s' ++ t') :
    s = s' ∧ t = t' := by
  have hf : s = s' := by
    rw [← takeWhile_append_of_head hs ht, h, takeWhile_append_of_head hs' ht']
  subst hf
  exact ⟨rfl, append_cancel_left h⟩

end Splitting

variable {ds ds' text rest rest' : Text} {c d : CodePoint} {n : ℕ}

theorem IsDigits.append_inj (h : IsDigits ds) (h' : IsDigits ds') (hre : EndsRun rest)
    (hr : EndsRun rest') (heq : ds ++ rest = ds' ++ rest') : ds = ds' ∧ rest = rest' :=
  append_inj_of_head h.2 hre h'.2 hr heq

theorem IsDigits.head (h : IsDigits ds) : ∀ c ∈ (ds ++ rest).head?, isAsciiDigit c = true := by
  cases ds with
  | nil => exact absurd rfl h.1
  | cons d ds =>
    rintro c ⟨⟩
    exact h.2 d mem_cons_self

theorem NoDigits.append_inj {text' : Text} (h : NoDigits text) (h' : NoDigits text')
    (hds : IsDigits ds) (hds' : IsDigits ds')
    (heq : text ++ (ds ++ rest) = text' ++ (ds' ++ rest')) :
    text = text' ∧ ds ++ rest = ds' ++ rest' := by
  have hnot : ∀ {s : Text}, NoDigits s → ∀ c ∈ s, (!isAsciiDigit c) = true := by
    intro s hs c hc
    rw [hs c hc]
    rfl
  have hn : ∀ {s t : Text}, IsDigits s → ∀ c ∈ (s ++ t).head?, (!isAsciiDigit c) = false := by
    intro s t hs c hc
    rw [hs.head c hc]
    rfl
  exact append_inj_of_head (hnot h) (hn hds) (hnot h') (hn hds') heq

section Numbers

theorem digit_of_isAsciiDigit (h : isAsciiDigit c = true) :
    PyText.digit c = some (c.val - 0x30) := by
  simp only [isAsciiDigit, Bool.and_eq_true, decide_eq_true_eq] at h
  have hf : 0x30 ≤ c.val ∧ c.val < 0x30 + 10 := by omega
  have hfi : digitZeros.find? (fun start => start ≤ c.val ∧ c.val < start + 10) = some 0x30 :=
    List.find?_cons_of_pos (decide_eq_true hf)
  rw [PyText.digit, hfi, Option.map_some]

theorem number_append_singleton (h : isAsciiDigit d = true) :
    number (ds ++ [d]) = 10 * number ds + (d.val - 0x30) := by
  have hl : [d].filterMap PyText.digit = [d.val - 0x30] := by
    rw [filterMap_cons_some (digit_of_isAsciiDigit h), filterMap_nil]
  rw [number, filterMap_append, hl, foldl_append]
  rfl

theorem le_foldl (l : List ℕ) (v : ℕ) : v ≤ l.foldl (fun value d => 10 * value + d) v := by
  induction l generalizing v with
  | nil => exact le_rfl
  | cons d l ih =>
    rw [foldl_cons]
    exact le_trans (by omega) (ih (10 * v + d))

theorem number_cons (h : isAsciiDigit c = true) :
    number (c :: ds) =
      (ds.filterMap PyText.digit).foldl (fun value d => 10 * value + d) (c.val - 0x30) := by
  rw [number, filterMap_cons_some (digit_of_isAsciiDigit h), foldl_cons, Nat.mul_zero,
    Nat.zero_add]

theorem number_zero_cons (h : c.val = 0x30) : number (c :: ds) = number ds := by
  have hd : isAsciiDigit c = true := by
    rw [isAsciiDigit, h]
    rfl
  rw [number_cons hd, h]
  rfl

theorem number_cons_pos (h : isAsciiDigit c = true) (hc : c.val ≠ 0x30) :
    0 < number (c :: ds) := by
  rw [number_cons h]
  simp only [isAsciiDigit, Bool.and_eq_true, decide_eq_true_eq] at h
  exact Nat.lt_of_lt_of_le (by omega) (le_foldl (ds.filterMap PyText.digit) (c.val - 0x30))

def digitPoint (d : ℕ) (h : d < 10) : CodePoint := ⟨0x30 + d, by omega⟩

theorem isAsciiDigit_digitPoint (h : n < 10) : isAsciiDigit (digitPoint n h) = true := by
  rw [isAsciiDigit, Bool.and_eq_true, decide_eq_true_eq, decide_eq_true_eq]
  change 0x30 ≤ 0x30 + n ∧ 0x30 + n ≤ 0x39
  omega

theorem decimal_eq (n : ℕ) :
    decimal n = (if n < 10 then [] else decimal (n / 10)) ++
      [digitPoint (n % 10) (Nat.mod_lt n (by omega))] := by
  have hp : ∀ {d : ℕ} (h : d < 10), (⟨d.digitChar.toNat, by
      rw [Nat.toNat_digitChar_of_lt_ten h]
      omega⟩ : CodePoint) = digitPoint d h := by
    intro d h
    exact Fin.ext (Nat.toNat_digitChar_of_lt_ten h)
  have htext : ∀ m, decimal m = (Nat.toDigits 10 m).map fun c => ⟨c.toNat, by
      have h := c.valid
      simp only [Char.toNat, UInt32.isValidChar, Nat.isValidChar] at *
      omega⟩ := by
    intro m
    rw [decimal, ofString, Nat.toString_eq_ofList_toDigits, String.toList_ofList]
  by_cases hn : n < 10
  · rw [if_pos hn, htext, Nat.toDigits_of_lt_base hn, map_singleton, nil_append,
      hp hn]
    simp only [Nat.mod_eq_of_lt hn]
  · rw [if_neg hn, htext, htext, Nat.toDigits_of_base_le (by omega) (Nat.not_lt.mp hn),
      map_append, map_singleton, hp (Nat.mod_lt n (by omega))]

theorem isDigits_decimal (n : ℕ) : IsDigits (decimal n) := by
  induction n using Nat.strong_induction_on with
  | _ n ih =>
    rw [decimal_eq]
    refine ⟨by simp, forall_mem_append.mpr ⟨?_, ?_⟩⟩
    · split_ifs with hn
      · exact fun c hc => absurd hc not_mem_nil
      · exact (ih (n / 10) (by omega)).2
    · rw [forall_mem_singleton]
      exact isAsciiDigit_digitPoint _

theorem number_decimal (n : ℕ) : number (decimal n) = n := by
  induction n using Nat.strong_induction_on with
  | _ n ih =>
    rw [decimal_eq, number_append_singleton (isAsciiDigit_digitPoint _)]
    change 10 * number _ + (0x30 + n % 10 - 0x30) = n
    split_ifs with hn
    · change 10 * 0 + _ = n
      omega
    · rw [ih (n / 10) (by omega)]
      omega

end Numbers

section LeadingZeros

theorem strip_of_noDigits (h : NoDigits text) :
    stripLeadingZeros (text ++ rest) = text ++ stripLeadingZeros rest := by
  unfold stripLeadingZeros
  induction text with
  | nil => rfl
  | cons c text ih =>
    obtain ⟨hc, htext⟩ := forall_mem_cons.mp h
    have hz : ¬ (c.val = 0x30 ∧ false = false ∧
        (text ++ rest).head?.any isAsciiDigit = true) := by
      rintro ⟨hval, -, -⟩
      rw [isAsciiDigit, hval] at hc
      cases hc
    rw [cons_append, stripLeadingZeros.strip, if_neg hz, hc, ih htext, cons_append]

theorem stripLeadingZeros_of_noDigits (h : NoDigits text) : stripLeadingZeros text = text := by
  have hall := @strip_of_noDigits text [] h
  have hnil : stripLeadingZeros [] = [] := rfl
  rwa [hnil, append_nil] at hall

/-- Where no digit comes next, leading zeros go on either side alone. -/
theorem strip_append (after : Bool) (text : Text) (hr : EndsRun rest) :
    stripLeadingZeros.strip after (text ++ rest) =
      stripLeadingZeros.strip after text ++ stripLeadingZeros rest := by
  induction text generalizing after with
  | nil =>
    rw [nil_append, stripLeadingZeros.strip, nil_append, stripLeadingZeros]
    cases rest with
    | nil => rfl
    | cons c rest =>
      have hc : isAsciiDigit c = false := hr c rfl
      have hz : c.val ≠ 0x30 := by
        rintro hval
        rw [isAsciiDigit, hval] at hc
        cases hc
      rw [stripLeadingZeros.strip, stripLeadingZeros.strip, if_neg fun h => hz h.1,
        if_neg fun h => hz h.1]
  | cons c text ih =>
    have hn : (text ++ rest).head?.any isAsciiDigit = text.head?.any isAsciiDigit := by
      cases text with
      | nil =>
        rw [nil_append, List.head?_nil, Option.any_none, Bool.eq_false_iff, ne_eq,
          Option.any_eq_true]
        rintro ⟨a, ha, hd⟩
        rw [hr a ha] at hd
        cases hd
      | cons d text => rfl
    rw [cons_append, stripLeadingZeros.strip, stripLeadingZeros.strip, hn]
    split_ifs
    · exact ih false
    · rw [ih, cons_append]

theorem stripLeadingZeros_append (text : Text) (hr : EndsRun rest) :
    stripLeadingZeros (text ++ rest) = stripLeadingZeros text ++ stripLeadingZeros rest :=
  strip_append false text hr

theorem stripLeadingZeros_append_of_last (rest : Text)
    (h : ∀ c ∈ text.getLast?, isAsciiDigit c = false) :
    stripLeadingZeros (text ++ rest) = stripLeadingZeros text ++ stripLeadingZeros rest := by
  induction text using List.reverseRecOn with
  | nil => rfl
  | append_singleton text c =>
    have hc : NoDigits [c] := forall_mem_singleton.mpr (h c List.getLast?_concat)
    have he : ∀ tail, EndsRun ([c] ++ tail) := by
      rintro tail d ⟨⟩
      exact hc c (mem_singleton_self c)
    have ha := stripLeadingZeros_append text (he [])
    rw [append_nil] at ha
    have hl := stripLeadingZeros_of_noDigits hc
    rw [append_assoc, stripLeadingZeros_append text (he rest), strip_of_noDigits hc, ha,
      hl, append_assoc]

/-- After a digit nothing goes until the run ends. -/
theorem strip_true (h : ∀ c ∈ ds, isAsciiDigit c = true) :
    stripLeadingZeros.strip true ds = ds := by
  induction ds with
  | nil => rfl
  | cons c ds ih =>
    obtain ⟨hc, hds⟩ := forall_mem_cons.mp h
    rw [stripLeadingZeros.strip, if_neg fun h => absurd h.2.1 nofun, hc, ih hds]

theorem head?_strip_true (text : Text) :
    (stripLeadingZeros.strip true text).head? = text.head? := by
  cases text with
  | nil => rfl
  | cons c text =>
    rw [stripLeadingZeros.strip, if_neg fun h => absurd h.2.1 nofun]
    rfl

theorem strip_strip (after : Bool) (text : Text) :
    stripLeadingZeros.strip after (stripLeadingZeros.strip after text) =
      stripLeadingZeros.strip after text := by
  induction text generalizing after with
  | nil => rfl
  | cons c text ih =>
    rw [stripLeadingZeros.strip]
    by_cases hz : c.val = 0x30 ∧ after = false ∧ text.head?.any isAsciiDigit = true
    · obtain ⟨-, rfl, -⟩ := id hz
      rw [if_pos hz, ih]
    · rw [if_neg hz, stripLeadingZeros.strip, if_neg, ih]
      rintro ⟨hval, ha, hn⟩
      have hd : isAsciiDigit c = true := by
        rw [isAsciiDigit, hval]
        rfl
      rw [hd, head?_strip_true] at hn
      exact hz ⟨hval, ha, hn⟩

theorem stripLeadingZeros_idem (text : Text) :
    stripLeadingZeros (stripLeadingZeros text) = stripLeadingZeros text :=
  strip_strip false text

theorem stripLeadingZeros_append_singleton (h : ∀ c ∈ ds, isAsciiDigit c = true)
    (hd : isAsciiDigit d = true) :
    stripLeadingZeros (ds ++ [d]) =
      if number ds = 0 then [d] else stripLeadingZeros ds ++ [d] := by
  induction ds with
  | nil =>
    rw [nil_append, stripLeadingZeros, stripLeadingZeros.strip, if_neg fun h => nomatch h.2.2]
    rfl
  | cons c ds ih =>
    obtain ⟨hc, hds⟩ := forall_mem_cons.mp h
    have hb : ∀ a ∈ ds ++ [d], isAsciiDigit a = true :=
      forall_mem_append.mpr ⟨hds, by rwa [forall_mem_singleton]⟩
    have hm : (ds ++ [d]).head?.any isAsciiDigit = true := by
      cases ds with
      | nil => exact hd
      | cons a ds => exact (forall_mem_cons.mp hds).1
    by_cases hval : c.val = 0x30
    · have hg : stripLeadingZeros (c :: ds ++ [d]) = stripLeadingZeros (ds ++ [d]) := by
        unfold stripLeadingZeros
        rw [cons_append, stripLeadingZeros.strip, if_pos ⟨hval, rfl, hm⟩]
      rw [hg, ih hds, number_zero_cons hval]
      split_ifs with hz
      · rfl
      · have hh : ds.head?.any isAsciiDigit = true := by
          cases ds with
          | nil => exact absurd rfl hz
          | cons a ds => exact (forall_mem_cons.mp hds).1
        have hf : stripLeadingZeros (c :: ds) = stripLeadingZeros ds := by
          unfold stripLeadingZeros
          rw [stripLeadingZeros.strip, if_pos ⟨hval, rfl, hh⟩]
        rw [hf]
    · rw [if_neg (Nat.pos_iff_ne_zero.mp (number_cons_pos hc hval))]
      unfold stripLeadingZeros
      rw [cons_append, stripLeadingZeros.strip, stripLeadingZeros.strip,
        if_neg fun h => hval h.1, if_neg fun h => hval h.1, hc, strip_true hb, strip_true hds,
        cons_append]

/-- A run of digits without its leading zeros is its number written out. -/
theorem decimal_number (h : IsDigits ds) : decimal (number ds) = stripLeadingZeros ds := by
  obtain ⟨hne, hall⟩ := h
  induction ds using List.reverseRecOn with
  | nil => exact absurd rfl hne
  | append_singleton ds d ih =>
    obtain ⟨hds, hd⟩ := forall_mem_append.mp hall
    rw [forall_mem_singleton] at hd
    have hl : ∀ m,
        digitPoint ((10 * m + (d.val - 0x30)) % 10) (Nat.mod_lt _ (by omega)) = d := by
      intro m
      have hr := hd
      simp only [isAsciiDigit, Bool.and_eq_true, decide_eq_true_eq] at hr
      refine Fin.ext ?_
      simp only [digitPoint]
      omega
    have hs : d.val - 0x30 < 10 := by
      simp only [isAsciiDigit, Bool.and_eq_true, decide_eq_true_eq] at hd
      omega
    rw [number_append_singleton hd, stripLeadingZeros_append_singleton hds hd, decimal_eq, hl]
    by_cases hz : number ds = 0
    · rw [if_pos hz, if_pos (by omega), nil_append]
    · have hso : ds ≠ [] := by
        rintro rfl
        exact hz rfl
      rw [if_neg hz, if_neg (by omega), ← ih hso hds]
      congr 2
      omega

theorem length_strip_le (after : Bool) (text : Text) :
    (stripLeadingZeros.strip after text).length ≤ text.length := by
  induction text generalizing after with
  | nil => exact le_rfl
  | cons c text ih =>
    rw [stripLeadingZeros.strip]
    split_ifs
    · exact (ih false).trans (Nat.le_succ _)
    · exact Nat.succ_le_succ (ih (isAsciiDigit c))

theorem length_decimal_le (h : IsDigits ds) : (decimal (number ds)).length ≤ ds.length := by
  rw [decimal_number h]
  exact length_strip_le false ds

end LeadingZeros

end Aizzak.DigitRuns
