import Aizzak.WordWindows

/-!
The windows of one segment for every parameter. A span slides over the words and moves
on by the step, so the windows are slices that overlap in a fixed number of words and
read back, each without the words it shares with the one before, as the segment. Folding
a last window of few characters into the one before it repeats the shared words and
passes the limit, so the windows tile the segment exactly where nothing is folded.
-/
namespace Aizzak.WindowTiling

open PyText SemanticCuts List
open WordWindows (windowsFrom)

def span (maxTokens : ℤ) : ℕ := (max maxTokens 1).toNat

def step (maxTokens overlapTokens : ℤ) : ℕ := (max (maxTokens - overlapTokens) 1).toNat

def wordWindows (maxTokens overlapTokens : ℤ) (words : List Text) : List (List Text) :=
  windowsFrom (span maxTokens) (step maxTokens overlapTokens) words.length words

def mergeShortTrailingWindow (minChars : ℤ) (windows : List (List Text)) : List (List Text) :=
  match windows.reverse with
  | last :: previous :: front =>
    if minChars ≤ (joinSpace last).length then windows
    else front.reverse ++ [previous ++ last]
  | _ => windows

def cutWords (maxTokens overlapTokens minChars : ℤ) (words : List Text) : List (List Text) :=
  mergeShortTrailingWindow minChars (wordWindows maxTokens overlapTokens words)

def firstOccurrences (overlap : ℕ) : List (List Text) → List Text
  | [] => []
  | window :: rest => window ++ rest.flatMap (List.drop overlap)

/-- Windows that tile a segment: slices within the limit, each starting the overlap before the
end of the one before it, whose words at first occurrence are the segment. -/
def Tiles (maxTokens overlap : ℕ) (words : List Text) (windows : List (List Text)) : Prop :=
  ∃ starts : List ℕ,
    List.Forall₂ (fun start window => window <+: words.drop start ∧ window.length ≤ maxTokens)
      starts windows ∧
    (starts.zip windows).IsChain (fun a b => b.1 + overlap = a.1 + a.2.length) ∧
    firstOccurrences overlap windows = words

def lastStart (span step count : ℕ) : ℕ := (count - span + step - 1) / step * step

section Sliding

variable {m o : ℕ} {rest : List Text} {fuel : ℕ}

theorem windowsFrom_short (hr : rest ≠ []) (hf : rest.length ≤ fuel)
    (hs : rest.length ≤ m) (s : ℕ) : windowsFrom m s fuel rest = [rest] := by
  have hpos := length_pos_iff.mpr hr
  cases fuel with
  | zero => omega
  | succ fuel =>
    cases rest with
    | nil => exact absurd rfl hr
    | cons word rest =>
      rw [windowsFrom, if_pos hs]
      exact fun hnil => cons_ne_nil _ _ hnil

theorem windowsFrom_long (hf : rest.length ≤ fuel) (hl : m < rest.length) (s : ℕ) :
    windowsFrom m s fuel rest = rest.take m :: windowsFrom m s (fuel - 1) (rest.drop s) := by
  cases fuel with
  | zero => omega
  | succ fuel =>
    cases rest with
    | nil => simp at hl
    | cons word rest =>
      rw [windowsFrom, if_neg (not_le.mpr hl), Nat.add_sub_cancel]
      exact fun hnil => cons_ne_nil _ _ hnil

/-- What a step leaves of the words is more than the overlap, and shorter than before. -/
theorem length_drop_step (hl : o < m) (hlo : m < rest.length) :
    o < (rest.drop (m - o)).length ∧ (rest.drop (m - o)).length < rest.length := by
  rw [length_drop]
  omega

theorem exists_first_window (hl : o < m) (hr : o < rest.length)
    (hf : rest.length ≤ fuel) :
    ∃ first later, windowsFrom m (m - o) fuel rest = first :: later ∧ o ≤ first.length := by
  have hne : rest ≠ [] := by
    rintro rfl
    simp at hr
  by_cases hs : rest.length ≤ m
  · exact ⟨rest, [], windowsFrom_short hne hf hs _, hr.le⟩
  · refine ⟨_, _, windowsFrom_long hf (not_le.mp hs) _, ?_⟩
    rw [length_take]
    omega

/-- The windows read back as the words they were cut from. -/
theorem firstOccurrences_windowsFrom (hl : o < m) (hfu : rest.length ≤ fuel) :
    firstOccurrences o (windowsFrom m (m - o) fuel rest) = rest := by
  induction fuel generalizing rest with
  | zero =>
    have hnil : rest = [] := eq_nil_of_length_eq_zero (by omega)
    subst hnil
    rfl
  | succ fuel ih =>
    by_cases hne : rest = []
    · subst hne
      rfl
    by_cases hs : rest.length ≤ m
    · rw [windowsFrom_short hne hfu hs]
      simp [firstOccurrences]
    · obtain ⟨hm, hfe⟩ := length_drop_step hl (not_le.mp hs)
      have hf : (rest.drop (m - o)).length ≤ fuel := by omega
      obtain ⟨first, later, hw, hfi⟩ := exists_first_window hl hm hf
      have hb := ih hf
      rw [hw, firstOccurrences] at hb
      have hd := congrArg (List.drop o) hb
      rw [drop_append_of_le_length hfi, drop_drop,
        show m - o + o = m by omega] at hd
      rw [windowsFrom_long hfu (not_le.mp hs), Nat.add_sub_cancel, hw,
        firstOccurrences, flatMap_cons, hd, take_append_drop]

theorem exists_starts (hle : o < m) {words : List Text} {start : ℕ}
    (hr : rest = words.drop start) (hne : rest ≠ []) (hfu : rest.length ≤ fuel) :
    ∃ starts : List ℕ,
      List.Forall₂ (fun start window => window <+: words.drop start ∧ window.length ≤ m)
        (start :: starts) (windowsFrom m (m - o) fuel rest) ∧
      ((start :: starts).zip (windowsFrom m (m - o) fuel rest)).IsChain
        (fun a b => b.1 + o = a.1 + a.2.length) := by
  induction fuel generalizing rest start with
  | zero =>
    exact absurd (eq_nil_of_length_eq_zero (by omega)) hne
  | succ fuel ih =>
    by_cases hsh : rest.length ≤ m
    · rw [windowsFrom_short hne hfu hsh]
      refine ⟨[], ?_, ?_⟩
      · exact .cons ⟨hr ▸ prefix_refl _, hsh⟩ .nil
      · exact List.IsChain.singleton _
    · have hlo := not_le.mp hsh
      obtain ⟨hm, hf⟩ := length_drop_step hle hlo
      have hl : rest.drop (m - o) = words.drop (start + (m - o)) := by
        rw [hr, drop_drop]
      have hne' : rest.drop (m - o) ≠ [] := length_pos_iff.mp (by omega)
      obtain ⟨starts, hs, hc⟩ := ih hl hne' (by omega)
      obtain ⟨first, later, hw, -⟩ := exists_first_window hle hm
        (show (rest.drop (m - o)).length ≤ fuel by omega)
      rw [windowsFrom_long hfu hlo, Nat.add_sub_cancel]
      refine ⟨(start + (m - o)) :: starts, ?_, ?_⟩
      · refine .cons ⟨?_, ?_⟩ hs
        · rw [← hr]
          exact take_prefix m rest
        · exact length_take_le m rest
      · rw [zip_cons_cons, hw, zip_cons_cons]
        rw [hw, zip_cons_cons] at hc
        refine isChain_cons_cons.mpr ⟨?_, hc⟩
        rw [length_take, Nat.min_eq_left hlo.le]
        omega

/-- Unfolded windows tile their segment. -/
theorem tiles_windowsFrom (hl : o < m) (words : List Text) :
    Tiles m o words (windowsFrom m (m - o) words.length words) := by
  by_cases hne : words = []
  · subst hne
    exact ⟨[], .nil, List.IsChain.nil, rfl⟩
  · have hw : words = words.drop 0 := rfl
    obtain ⟨starts, hs, hc⟩ := exists_starts hl hw hne le_rfl
    exact ⟨_, hs, hc, firstOccurrences_windowsFrom hl le_rfl⟩

theorem lastStart_long {s count : ℕ} (hs : 0 < s) (hl : m < count) :
    lastStart m s count = s + lastStart m s (count - s) := by
  have hq : (count - m + s - 1) / s = (count - s - m + s - 1) / s + 1 := by
    by_cases hm : s ≤ count - m
    · rw [show count - m + s - 1 = count - s - m + s - 1 + s by omega, Nat.add_div_right _ hs]
    · have hone : (count - m + s - 1) / s = 1 := by
        apply Nat.div_eq_of_lt_le
        · omega
        · omega
      have hz : (count - s - m + s - 1) / s = 0 := Nat.div_eq_of_lt (by omega)
      rw [hone, hz]
  rw [lastStart, lastStart, hq, Nat.add_mul, Nat.one_mul, Nat.add_comm]

theorem last_windowsFrom (hle : o < m) (hl : m < rest.length) (hfu : rest.length ≤ fuel) :
    ∃ front previous last, windowsFrom m (m - o) fuel rest = front ++ [previous, last] ∧
      previous.length = m ∧ last = rest.drop (lastStart m (m - o) rest.length) ∧ last ≠ [] := by
  induction fuel generalizing rest with
  | zero => omega
  | succ fuel ih =>
    obtain ⟨hm, hf⟩ := length_drop_step hle hl
    have hne' : rest.drop (m - o) ≠ [] := length_pos_iff.mp (by omega)
    rw [windowsFrom_long hfu hl, Nat.add_sub_cancel, lastStart_long (by omega) hl,
      ← drop_drop]
    by_cases hs : (rest.drop (m - o)).length ≤ m
    · rw [windowsFrom_short hne' (by omega) hs]
      have hz : lastStart m (m - o) (rest.length - (m - o)) = 0 := by
        rw [length_drop] at hs
        rw [lastStart, Nat.sub_eq_zero_of_le hs, Nat.div_eq_of_lt (by omega), Nat.zero_mul]
      refine ⟨[], _, _, rfl, ?_, ?_, hne'⟩
      · rw [length_take, Nat.min_eq_left hl.le]
      · rw [hz, drop_zero]
    · obtain ⟨front, previous, last, hw, hfl, hla, hlastNe⟩ :=
        ih (not_le.mp hs) (by omega)
      rw [length_drop] at hla
      exact ⟨rest.take m :: front, previous, last, by rw [hw, cons_append], hfl,
        hla, hlastNe⟩

end Sliding

def trailingWords (maxTokens overlapTokens : ℤ) (words : List Text) : List Text :=
  words.drop (lastStart maxTokens.toNat (maxTokens - overlapTokens).toNat words.length)

theorem mergeShortTrailingWindow_append {minChars : ℤ} (front : List (List Text))
    (previous last : List Text) :
    mergeShortTrailingWindow minChars (front ++ [previous, last]) =
      if minChars ≤ (joinSpace last).length then front ++ [previous, last]
      else front ++ [previous ++ last] := by
  have hr : (front ++ [previous, last]).reverse = last :: previous :: front.reverse := by
    simp
  rw [mergeShortTrailingWindow, hr]
  simp only [reverse_reverse]

theorem flatten_mergeShortTrailingWindow (minChars : ℤ) (windows : List (List Text)) :
    (mergeShortTrailingWindow minChars windows).flatten = windows.flatten := by
  rw [mergeShortTrailingWindow]
  split
  · rename_i last previous front hr
    have hw : windows = front.reverse ++ [previous, last] := by
      rw [← reverse_reverse windows, hr]
      simp
    split_ifs with hl
    · rfl
    · rw [hw]
      simp
  · rfl

theorem mem_words_of_mem_cutWords {maxTokens overlapTokens minChars : ℤ} {words window : List Text}
    (h : window ∈ cutWords maxTokens overlapTokens minChars words) :
    ∀ word ∈ window, word ∈ words := by
  intro word hw
  have hf := mem_flatten_of_mem h hw
  rw [cutWords, flatten_mergeShortTrailingWindow, wordWindows] at hf
  obtain ⟨part, hpart, hin⟩ := mem_flatten.mp hf
  exact (WordWindows.infix_of_mem_windowsFrom hpart).subset hin

theorem Tiles.length_le {m o : ℕ} {words : List Text} {windows : List (List Text)}
    (h : Tiles m o words windows) : ∀ window ∈ windows, window.length ≤ m := by
  obtain ⟨starts, hs, -, -⟩ := h
  clear * - hs
  induction hs with
  | nil => exact forall_mem_nil _
  | cons hh _ ih => exact forall_mem_cons.mpr ⟨hh.2, ih⟩

/-- The windows of a segment tile it exactly when it fits one window or the last window is not
folded. -/
theorem cutWords_tiles_iff (words : List Text) (maxTokens overlapTokens minChars : ℤ)
    (hmax : 1 ≤ maxTokens) (hoverlap : 0 ≤ overlapTokens) (hless : overlapTokens < maxTokens) :
    Tiles maxTokens.toNat overlapTokens.toNat words
        (cutWords maxTokens overlapTokens minChars words) ↔
      words.length ≤ maxTokens ∨
        minChars ≤ (joinSpace (trailingWords maxTokens overlapTokens words)).length := by
  obtain ⟨m, rfl⟩ := Int.eq_ofNat_of_zero_le (show 0 ≤ maxTokens by omega)
  obtain ⟨o, rfl⟩ := Int.eq_ofNat_of_zero_le hoverlap
  have hsp : span m = m := by
    rw [span]
    omega
  have hst : step m o = m - o := by
    rw [step]
    omega
  have htoNat : ((m : ℤ) - o).toNat = m - o := by omega
  rw [cutWords, wordWindows, hsp, hst, trailingWords, htoNat, Int.toNat_natCast,
    Int.toNat_natCast, Nat.cast_le]
  have ht := tiles_windowsFrom (show o < m by omega) words
  by_cases hs : words.length ≤ m
  · refine iff_of_true ?_ (.inl hs)
    by_cases hne : words = []
    · subst hne
      exact ht
    · rw [windowsFrom_short hne le_rfl hs] at ht ⊢
      exact ht
  · obtain ⟨front, previous, last, hw, hfu, hla, hlastNe⟩ :=
      last_windowsFrom (show o < m by omega) (not_le.mp hs) le_rfl
    rw [hw, mergeShortTrailingWindow_append, ← hla, or_iff_right hs]
    by_cases hl : minChars ≤ (joinSpace last).length
    · rw [if_pos hl, ← hw]
      exact iff_of_true ht hl
    · rw [if_neg hl]
      refine iff_of_false (fun hf => ?_) hl
      have hle := hf.length_le (previous ++ last) (mem_append_right _ (by simp))
      have hpos := length_pos_iff.mpr hlastNe
      rw [length_append] at hle
      omega

/-- Three short words by twos: the last two are folded onto the first two. -/
theorem short_remainder_is_folded :
    cutWords 2 1 24 [ofString "a", ofString "b", ofString "c"] =
      [[ofString "a", ofString "b", ofString "b", ofString "c"]] ∧
    ¬ Tiles 2 1 [ofString "a", ofString "b", ofString "c"]
      (cutWords 2 1 24 [ofString "a", ofString "b", ofString "c"]) := by
  have hcut : cutWords 2 1 24 [ofString "a", ofString "b", ofString "c"] =
      [[ofString "a", ofString "b", ofString "b", ofString "c"]] := by
    decide
  refine ⟨hcut, fun ht => ?_⟩
  rw [hcut] at ht
  have hle := ht.length_le _ mem_cons_self
  simp at hle

theorem cutWords_tiles_iff_three_words :
    ((1 : ℤ) ≤ 2 ∧ (0 : ℤ) ≤ 1 ∧ (1 : ℤ) < 2) ∧
      let words := [ofString "a", ofString "b", ofString "c"]
      (Tiles 2 1 words (cutWords 2 1 3 words) ↔
        (3 : ℤ) ≤ 2 ∨ (3 : ℤ) ≤ (joinSpace (trailingWords 2 1 words)).length) :=
  ⟨by decide, cutWords_tiles_iff _ 2 1 3 (by decide) (by decide) (by decide)⟩

end Aizzak.WindowTiling
