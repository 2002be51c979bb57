import Mathlib

/-!
A list cut into parts by a key, in the order the keys are first met, and parts dealt in turn over
a number of lanes. No element is lost or doubled on the way, and the elements that share a key
stay together in one lane, in the order they had in the list.
-/
namespace Aizzak.DealtLanes

open List

variable {α κ : Type*}

theorem eq_of_getElem?_range {n i j : ℕ} (h : (List.range n)[i]? = some j) : i = j := by
  obtain ⟨hi, hj⟩ := List.getElem?_eq_some_iff.mp h
  rwa [getElem_range] at hj

section Parts

variable [DecidableEq κ]

def place (key : κ) (a : α) : List (κ × List α) → List (κ × List α)
  | [] => [(key, [a])]
  | (other, part) :: parts =>
    if other = key then (other, part ++ [a]) :: parts else (other, part) :: place key a parts

def partsBy (key : α → κ) (items : List α) : List (κ × List α) :=
  items.foldl (fun parts a => place (key a) a parts) []

variable {key : α → κ} {items : List α} {parts : List (κ × List α)} {k : κ} {a : α}

theorem mem_keys_place {other : κ} (h : other ∈ (place k a parts).map Prod.fst) :
    other = k ∨ other ∈ parts.map Prod.fst := by
  induction parts with
  | nil => exact .inl (mem_singleton.mp h)
  | cons entry parts ih =>
    rw [place] at h
    split_ifs at h
    · exact .inr h
    · rcases mem_cons.mp h with h | h
      · exact .inr (mem_cons.mpr (.inl h))
      · exact (ih h).imp_right (mem_cons_of_mem _)

theorem nodup_place (h : (parts.map Prod.fst).Nodup) : ((place k a parts).map Prod.fst).Nodup := by
  induction parts with
  | nil => exact nodup_singleton k
  | cons entry parts ih =>
    obtain ⟨he, hp⟩ := nodup_cons.mp h
    rw [place]
    split_ifs with hkey
    · exact h
    · refine nodup_cons.mpr ⟨fun hmem => ?_, ih hp⟩
      rcases mem_keys_place hmem with heq | hmem
      · exact hkey heq
      · exact he hmem

theorem perm_place : ((place k a parts).map Prod.snd).flatten.Perm
    ((parts.map Prod.snd).flatten ++ [a]) := by
  induction parts with
  | nil => exact List.Perm.refl _
  | cons entry parts ih =>
    rw [place]
    split_ifs
    · rw [map_cons, map_cons, flatten_cons, flatten_cons, append_assoc,
        append_assoc]
      exact perm_append_comm.append_left entry.2
    · rw [map_cons, map_cons, flatten_cons, flatten_cons, append_assoc]
      exact ih.append_left entry.2

/-- The groups are what the keys filter out of the list. -/
theorem parts_place (hn : (parts.map Prod.fst).Nodup)
    (hp : ∀ entry ∈ parts, entry.2 = items.filter (key · = entry.1))
    (hnew : key a ∉ parts.map Prod.fst → items.filter (key · = key a) = []) :
    ∀ entry ∈ place (key a) a parts, entry.2 = (items ++ [a]).filter (key · = entry.1) := by
  have hk : ∀ other ≠ key a,
      (items ++ [a]).filter (key · = other) = items.filter (key · = other) := by
    intro other ho
    rw [filter_append, filter_cons_of_neg (by simpa using ho.symm), filter_nil,
      append_nil]
  have hta : (items ++ [a]).filter (key · = key a) = items.filter (key · = key a) ++ [a] := by
    rw [filter_append, filter_cons_of_pos (by simp), filter_nil]
  induction parts with
  | nil =>
    intro entry he
    obtain rfl := mem_singleton.mp he
    rw [hta, hnew not_mem_nil, nil_append]
  | cons first parts ih =>
    obtain ⟨hf, hr⟩ := nodup_cons.mp hn
    obtain ⟨hh, ht⟩ := forall_mem_cons.mp hp
    intro entry he
    rw [place] at he
    by_cases hkey : first.1 = key a
    · rw [if_pos hkey] at he
      rcases mem_cons.mp he with rfl | he
      · rw [hkey, hta, hh, hkey]
      · have ho : entry.1 ≠ key a := by
          intro heq
          exact hf (hkey.trans heq.symm ▸ mem_map_of_mem he)
        rw [hk _ ho]
        exact ht entry he
    · rw [if_neg hkey] at he
      rcases mem_cons.mp he with rfl | he
      · rw [hk _ hkey]
        exact hh
      · refine ih hr ht (fun hmem => hnew ?_) entry he
        rw [map_cons, mem_cons]
        exact not_or.mpr ⟨Ne.symm hkey, hmem⟩

theorem partsBy_spec (key : α → κ) (items : List α) :
    ((partsBy key items).map Prod.fst).Nodup ∧
      ((partsBy key items).map Prod.snd).flatten.Perm items ∧
      ∀ entry ∈ partsBy key items, entry.2 = items.filter (key · = entry.1) := by
  induction items using List.reverseRecOn with
  | nil => exact ⟨nodup_nil, List.Perm.refl _, nofun⟩
  | append_singleton items a ih =>
    obtain ⟨hn, hpe, hp⟩ := ih
    have hs : partsBy key (items ++ [a]) = place (key a) a (partsBy key items) := by
      rw [partsBy, foldl_append]
      rfl
    have hnew : key a ∉ (partsBy key items).map Prod.fst →
        items.filter (key · = key a) = [] := by
      intro hmem
      apply filter_eq_nil_iff.mpr
      intro b hb heq
      obtain ⟨part, hpart, hin⟩ := mem_flatten.mp (hpe.mem_iff.mpr hb)
      obtain ⟨entry, he, rfl⟩ := mem_map.mp hpart
      rw [hp entry he] at hin
      have hkey : key b = entry.1 := of_decide_eq_true (mem_filter.mp hin).2
      apply hmem
      rw [← of_decide_eq_true heq, hkey]
      exact mem_map_of_mem he
    rw [hs]
    exact ⟨nodup_place hn, perm_place.trans (hpe.append_right [a]),
      parts_place hn hp hnew⟩

/-- One part holds all elements of a class of one key. -/
theorem exists_part {p : α → Bool} (hp : ∀ a ∈ items, p a = true → key a = k)
    (hso : items.filter p ≠ []) :
    ∃ before part after, (partsBy key items).map Prod.snd = before ++ part :: after ∧
      part.filter p = items.filter p ∧ ∀ other ∈ before ++ after, other.filter p = [] := by
  obtain ⟨hn, hpe, hpa⟩ := partsBy_spec key items
  obtain ⟨a, ha⟩ := exists_mem_of_ne_nil _ hso
  obtain ⟨hai, hap⟩ := mem_filter.mp ha
  obtain ⟨part, hpart, hin⟩ := mem_flatten.mp (hpe.mem_iff.mpr hai)
  obtain ⟨entry, hen, rfl⟩ := mem_map.mp hpart
  have hcontent := hpa entry hen
  have hk : entry.1 = k := by
    rw [hcontent] at hin
    exact (of_decide_eq_true (mem_filter.mp hin).2).symm.trans (hp a hai hap)
  obtain ⟨before, after, hs⟩ := append_of_mem hen
  refine ⟨before.map Prod.snd, entry.2, after.map Prod.snd, ?_, ?_, ?_⟩
  · rw [hs, map_append, map_cons]
  · rw [hcontent, filter_filter]
    apply filter_congr
    intro b hb
    by_cases hpb : p b = true
    · rw [hpb, hp b hb hpb, hk]
      simp
    · rw [Bool.eq_false_iff.mpr hpb, Bool.false_and]
  · intro other ho
    rw [← map_append] at ho
    obtain ⟨entry', he, rfl⟩ := mem_map.mp ho
    rw [hs, map_append, map_cons] at hn
    have har : entry'.1 ≠ entry.1 := by
      intro heq
      rw [nodup_middle, nodup_cons] at hn
      rw [← map_append] at hn
      exact hn.1 (heq ▸ mem_map_of_mem he)
    have hin : entry' ∈ partsBy key items := by
      rw [hs]
      rcases mem_append.mp he with h | h
      · exact mem_append_left _ h
      · exact mem_append_right _ (mem_cons_of_mem _ h)
    rw [hpa entry' hin, filter_filter]
    apply filter_eq_nil_iff.mpr
    intro b hb hbo
    obtain ⟨hpb, hkey⟩ := Bool.and_eq_true_iff.mp hbo
    exact har ((of_decide_eq_true hkey).symm.trans ((hp b hb hpb).trans hk.symm))

end Parts

section Lanes

/-- The first parts open a lane each, the later ones are dealt over the lanes in turn. -/
def deal (width : ℕ) (parts : List (List α)) : List (List α) :=
  parts.zipIdx.foldl (fun lanes part =>
    if part.2 < width then lanes ++ [part.1]
    else lanes.modify (part.2 % width) (· ++ part.1)) []

def laneOf (width : ℕ) (parts : List (List α)) (j : ℕ) : List α :=
  (parts.zipIdx.filter (·.2 % width = j)).flatMap Prod.fst

variable {width j : ℕ} {parts before after : List (List α)} {part : List α}

theorem deal_concat : deal width (parts ++ [part]) =
    if parts.length < width then deal width parts ++ [part]
    else (deal width parts).modify (parts.length % width) (· ++ part) := by
  rw [deal, zipIdx_append, foldl_append, Nat.zero_add]
  rfl

theorem length_deal : (deal width parts).length = min width parts.length := by
  induction parts using List.reverseRecOn with
  | nil => rw [length_nil, Nat.min_zero]; rfl
  | append_singleton parts part ih =>
    rw [deal_concat, length_append, length_singleton]
    split_ifs
    · rw [length_append, ih, length_singleton]
      omega
    · rw [length_modify, ih]
      omega

theorem perm_modify {lanes : List (List α)} {i : ℕ} (hi : i < lanes.length) :
    (lanes.modify i (· ++ part)).flatten.Perm (lanes.flatten ++ part) := by
  induction lanes generalizing i with
  | nil => cases hi
  | cons lane lanes ih =>
    cases i with
    | zero =>
      rw [modify_zero_cons, flatten_cons, flatten_cons, append_assoc,
        append_assoc]
      exact perm_append_comm.append_left lane
    | succ i =>
      rw [modify_succ_cons, flatten_cons, flatten_cons, append_assoc]
      exact (ih (Nat.lt_of_succ_lt_succ hi)).append_left lane

/-- Dealing loses nothing and doubles nothing. -/
theorem perm_deal (hw : 0 < width) : (deal width parts).flatten.Perm parts.flatten := by
  induction parts using List.reverseRecOn with
  | nil => exact List.Perm.refl _
  | append_singleton parts part ih =>
    have hla : (parts ++ [part]).flatten = parts.flatten ++ part := by
      rw [flatten_append, flatten_singleton]
    rw [deal_concat, hla]
    split_ifs with hle
    · rw [flatten_append, flatten_singleton]
      exact ih.append_right part
    · have hl : parts.length % width < (deal width parts).length := by
        have hmod := Nat.mod_lt parts.length hw
        rw [length_deal]
        omega
      exact (perm_modify hl).trans (ih.append_right part)

theorem laneOf_concat : laneOf width (parts ++ [part]) j =
    if parts.length % width = j then laneOf width parts j ++ part else laneOf width parts j := by
  rw [laneOf, zipIdx_append, filter_append, flatMap_append, Nat.zero_add,
    zipIdx_singleton]
  split_ifs with h
  · rw [filter_cons_of_pos (by simpa using h), filter_nil, flatMap_singleton]
    rfl
  · rw [filter_cons_of_neg (by simpa using h), filter_nil, flatMap_nil,
      append_nil]
    rfl

theorem laneOf_eq_nil (hj : parts.length ≤ j) (hw : j < width) :
    laneOf width parts j = [] := by
  apply flatMap_eq_nil_iff.mpr
  intro entry he
  obtain ⟨hmem, hmod⟩ := mem_filter.mp he
  obtain ⟨-, hlt, -⟩ := mem_zipIdx hmem
  have hs : entry.2 % width = entry.2 := Nat.mod_eq_of_lt (by omega)
  have hl : entry.2 % width = j := of_decide_eq_true hmod
  omega

/-- The lanes are the parts dealt out in turn. -/
theorem deal_eq :
    deal width parts = (List.range (min width parts.length)).map (laneOf width parts) := by
  induction parts using List.reverseRecOn with
  | nil => rw [length_nil, Nat.min_zero]; rfl
  | append_singleton parts part ih =>
    rw [deal_concat, ih, length_append, length_singleton]
    split_ifs with hl
    · rw [Nat.min_eq_right (Nat.le_of_lt hl), Nat.min_eq_right hl, range_succ,
        map_append, map_singleton, laneOf_concat, if_pos (Nat.mod_eq_of_lt hl),
        laneOf_eq_nil (Nat.le_refl _) hl, nil_append]
      congr 1
      apply map_congr_left
      intro j hj
      rw [laneOf_concat, if_neg]
      rw [Nat.mod_eq_of_lt hl]
      exact Nat.ne_of_gt (mem_range.mp hj)
    · apply ext_getElem?
      intro j
      rw [List.getElem?_modify, List.getElem?_map, List.getElem?_map,
        Nat.min_eq_left (Nat.le_of_not_lt hl),
        Nat.min_eq_left (Nat.le_succ_of_le (Nat.le_of_not_lt hl))]
      cases h : (List.range width)[j]? with
      | none => rfl
      | some i =>
        obtain rfl := eq_of_getElem?_range h
        rw [Option.map_some, Option.map_some, laneOf_concat]
        split_ifs <;> rfl

theorem filter_laneOf {p : α → Bool} (h : ∀ other ∈ before ++ after, other.filter p = []) :
    (laneOf width (before ++ part :: after) j).filter p =
      if before.length % width = j then part.filter p else [] := by
  have hn : ∀ entries : List (List α × ℕ), (∀ entry ∈ entries, entry.1 ∈ before ++ after) →
      ((entries.filter (·.2 % width = j)).flatMap Prod.fst).filter p = [] := by
    intro entries hen
    rw [filter_flatMap]
    apply flatMap_eq_nil_iff.mpr
    intro entry he
    exact h entry.1 (hen entry (mem_filter.mp he).1)
  have hb := hn before.zipIdx fun entry he =>
    mem_append_left _ (fst_mem_of_mem_zipIdx he)
  have ha := hn (after.zipIdx (before.length + 1)) fun entry he =>
    mem_append_right _ (fst_mem_of_mem_zipIdx he)
  rw [laneOf, zipIdx_append, zipIdx_cons, Nat.zero_add, filter_append,
    flatMap_append, filter_append, hb, nil_append, filter_cons]
  split_ifs with hla hl hl
  · rw [flatMap_cons, filter_append, ha, append_nil]
  · exact absurd (of_decide_eq_true hla) hl
  · exact absurd (decide_eq_true hl) hla
  · exact ha

end Lanes

section Classes

variable [DecidableEq κ] {key : α → κ} {items : List α} {k : κ} {width : ℕ} {p : α → Bool}

theorem exists_lane (hw : 0 < width) (hp : ∀ a ∈ items, p a = true → key a = k) :
    ∃ i : ℕ, ∀ (j : ℕ) (lane : List α),
      (deal width ((partsBy key items).map Prod.snd))[j]? = some lane →
        lane.filter p = if j = i then items.filter p else [] := by
  by_cases hso : items.filter p = []
  · refine ⟨0, fun j lane hl => ?_⟩
    rw [hso, ite_self]
    apply filter_eq_nil_iff.mpr
    intro a ha
    have hmem : a ∈ items := by
      apply (partsBy_spec key items).2.1.mem_iff.mp
      apply (perm_deal hw).mem_iff.mp
      exact mem_flatten_of_mem (mem_of_getElem? hl) ha
    exact filter_eq_nil_iff.mp hso a hmem
  · obtain ⟨before, part, after, hs, hpart, ho⟩ := exists_part hp hso
    refine ⟨before.length % width, fun j lane hl => ?_⟩
    rw [hs, deal_eq, List.getElem?_map, Option.map_eq_some_iff] at hl
    obtain ⟨i, hi, rfl⟩ := hl
    obtain rfl := eq_of_getElem?_range hi
    rw [filter_laneOf ho, hpart]
    simp only [eq_comm]

end Classes

end Aizzak.DealtLanes
