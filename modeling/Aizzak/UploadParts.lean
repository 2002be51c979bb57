import Aizzak.KeyedTables

/-!
The parts of a multipart upload. A declared size is cut into parts of one length with a short
last one, and what storage holds is compared part by part with what that cut expects.
-/
namespace Aizzak.UploadParts

open KeyedTables List

structure PartError where
  count : ℕ
deriving DecidableEq

section Geometry

variable (partBytes sizeBytes : ℕ)

def partCount : ℕ := max 1 (-(-(sizeBytes : ℤ)).fdiv partBytes).toNat

def expectedSize (partNumber : ℕ) : Except PartError ℕ :=
  let count := partCount partBytes sizeBytes
  if 1 ≤ partNumber ∧ partNumber ≤ count then
    .ok (if partNumber < count then partBytes else sizeBytes - (count - 1) * partBytes)
  else .error ⟨count⟩

end Geometry

structure StoredPart where
  partNumber : ℕ
  sizeBytes : ℕ
  etag : ℕ
deriving DecidableEq

def sizesOf (held : List StoredPart) : AList fun _ : ℕ => ℕ :=
  held.foldl (fun sizes part => sizes.insert part.partNumber part.sizeBytes) ∅

structure PartsCheck where
  missing : List ℕ
  wrongSize : List ℕ
deriving DecidableEq

def PartsCheck.complete (check : PartsCheck) : Bool :=
  check.missing.isEmpty && check.wrongSize.isEmpty

def checkPart (partBytes sizeBytes : ℕ) (uploaded : AList fun _ : ℕ => ℕ) (check : PartsCheck)
    (number : ℕ) : PartsCheck :=
  match uploaded.lookup number with
  | none => { check with missing := check.missing ++ [number] }
  | some held =>
    if .ok held = expectedSize partBytes sizeBytes number then check
    else { check with wrongSize := check.wrongSize ++ [number] }

def checkParts (partBytes sizeBytes : ℕ) (uploaded : AList fun _ : ℕ => ℕ) : PartsCheck :=
  (List.range' 1 (partCount partBytes sizeBytes)).foldl (checkPart partBytes sizeBytes uploaded)
    ⟨[], []⟩

def heldSize (held : List StoredPart) (number : ℕ) : Option ℕ :=
  (held.filter (·.partNumber = number)).getLast?.map (·.sizeBytes)

section Facts

variable {partBytes sizeBytes : ℕ}

/-- All parts but the last are full, and the last one is not empty. -/
theorem partCount_bounds (hpart : 1 ≤ partBytes) (hsi : 1 ≤ sizeBytes) :
    1 ≤ partCount partBytes sizeBytes ∧
      (partCount partBytes sizeBytes - 1) * partBytes < sizeBytes ∧
      sizeBytes ≤ (partCount partBytes sizeBytes - 1) * partBytes + partBytes := by
  have hdiv : (-(sizeBytes : ℤ)).fdiv partBytes = -(sizeBytes : ℤ) / partBytes :=
    Int.fdiv_eq_ediv_of_nonneg _ (by omega)
  obtain ⟨quotient, hq⟩ : ∃ q : ℤ, q = -(-(sizeBytes : ℤ) / partBytes) := ⟨_, rfl⟩
  have hsp := Int.mul_ediv_add_emod (-(sizeBytes : ℤ)) partBytes
  have hn := Int.emod_nonneg (-(sizeBytes : ℤ)) (b := (partBytes : ℤ)) (by omega)
  have hlt := Int.emod_lt_of_pos (-(sizeBytes : ℤ)) (b := (partBytes : ℤ)) (by omega)
  have hs : (partBytes : ℤ) * quotient = sizeBytes + -(sizeBytes : ℤ) % partBytes := by
    rw [hq]
    linarith
  have hpos : 1 ≤ quotient := by
    by_contra hle
    have hneg : (partBytes : ℤ) * quotient ≤ 0 :=
      mul_nonpos_of_nonneg_of_nonpos (by omega) (by omega)
    omega
  obtain ⟨full, hf⟩ : ∃ n : ℕ, quotient = n + 1 := ⟨(quotient - 1).toNat, by omega⟩
  have hc : partCount partBytes sizeBytes = full + 1 := by
    rw [partCount, hdiv, ← hq, hf]
    omega
  rw [hc, Nat.add_sub_cancel]
  rw [hf, mul_add, mul_one, mul_comm] at hs
  refine ⟨by omega, ?_, ?_⟩ <;> · zify; linarith

theorem mapM_eq_ok {ε α β : Type} {f : α → Except ε β} {g : α → β} {l : List α}
    (h : ∀ a ∈ l, f a = .ok (g a)) : l.mapM f = .ok (l.map g) := by
  induction l with
  | nil => rfl
  | cons a l ih =>
    rw [forall_mem_cons] at h
    rw [mapM_cons, h.1, ih h.2]
    rfl

/-- The expected sizes of the parts are between one byte and a full part and add up to the
declared size. -/
theorem expectedSizes_sum (hpart : 1 ≤ partBytes) (hsi : 1 ≤ sizeBytes) :
    ∃ sizes, (List.range' 1 (partCount partBytes sizeBytes)).mapM
        (expectedSize partBytes sizeBytes) = .ok sizes ∧
      sizes.length = partCount partBytes sizeBytes ∧
      (∀ size ∈ sizes, 1 ≤ size ∧ size ≤ partBytes) ∧ sizes.sum = sizeBytes := by
  obtain ⟨hco, hlt, hle⟩ := partCount_bounds hpart hsi
  obtain ⟨full, hf⟩ : ∃ n, partCount partBytes sizeBytes = n + 1 :=
    ⟨partCount partBytes sizeBytes - 1, by omega⟩
  rw [hf, Nat.add_sub_cancel] at hlt hle
  have hs : ∀ number ∈ List.range' 1 (full + 1), expectedSize partBytes sizeBytes number =
      .ok (if number < full + 1 then partBytes else sizeBytes - full * partBytes) := by
    intro number hn
    rw [mem_range'_1] at hn
    have hr : 1 ≤ number ∧ number ≤ full + 1 := by omega
    simp only [expectedSize, hf, hr, and_self, if_true, Nat.add_sub_cancel]
  refine ⟨_, by rw [hf]; exact mapM_eq_ok hs, ?_, ?_, ?_⟩
  · rw [length_map, length_range', hf]
  · intro size hmem
    obtain ⟨number, -, rfl⟩ := mem_map.mp hmem
    split_ifs <;> omega
  · have hr : List.range' 1 (full + 1) = List.range' 1 full ++ [full + 1] := by
      rw [range'_1_concat, Nat.add_comm]
    have hc : ∀ number ∈ List.range' 1 full,
        (if number < full + 1 then partBytes else sizeBytes - full * partBytes) = partBytes := by
      intro number hn
      rw [mem_range'_1] at hn
      exact if_pos (by omega)
    rw [hr, map_append, sum_append, map_congr_left hc, map_const',
      sum_replicate, length_range', map_singleton, sum_singleton,
      if_neg (by omega), smul_eq_mul]
    omega

theorem lookup_sizesOf (held : List StoredPart) (number : ℕ) :
    (sizesOf held).lookup number = heldSize held number := by
  induction held using List.reverseRecOn with
  | nil => rfl
  | append_singleton held part ih =>
    have hf : sizesOf (held ++ [part]) =
        (sizesOf held).insert part.partNumber part.sizeBytes := by
      simp [sizesOf]
    rw [hf, heldSize, filter_append]
    by_cases hn : part.partNumber = number
    · subst hn
      simp
    · rw [AList.lookup_insert_ne (Ne.symm hn), ih, heldSize]
      simp [hn]

theorem complete_foldl_checkPart {uploaded : AList fun _ : ℕ => ℕ} {numbers : List ℕ}
    {check : PartsCheck} :
    (numbers.foldl (checkPart partBytes sizeBytes uploaded) check).complete = true ↔
      check.complete = true ∧ ∀ number ∈ numbers, ∃ size, uploaded.lookup number = some size ∧
        expectedSize partBytes sizeBytes number = .ok size := by
  induction numbers generalizing check with
  | nil => simp
  | cons number numbers ih =>
    rw [foldl_cons, ih, forall_mem_cons, ← and_assoc]
    refine and_congr_left fun _ => ?_
    unfold checkPart
    cases hh : uploaded.lookup number with
    | none => simp [PartsCheck.complete]
    | some size =>
      simp only [eq_comm (a := Except.ok size), Option.some.injEq, exists_eq_left']
      split_ifs with hs
      · simp [hs]
      · simp [hs, PartsCheck.complete]

theorem checkParts_complete_iff (held : List StoredPart) :
    (checkParts partBytes sizeBytes (sizesOf held)).complete = true ↔
      ∀ number, 1 ≤ number → number ≤ partCount partBytes sizeBytes →
        ∃ size, heldSize held number = some size ∧
          expectedSize partBytes sizeBytes number = .ok size := by
  rw [checkParts, complete_foldl_checkPart]
  simp only [PartsCheck.complete, isEmpty_nil, Bool.and_self, true_and, lookup_sizesOf,
    mem_range'_1]
  constructor
  · intro h number hone hc
    exact h number (by omega)
  · intro h number hn
    exact h number hn.1 (by omega)

end Facts

end Aizzak.UploadParts
