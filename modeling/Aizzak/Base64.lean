import Mathlib

/-!
Base64 over lists of codes. Three octets make four sextets, a shorter last group makes
two or three with the bits left over set to zero, and the decoder drops those bits
without a look. The strict decoder is the state machine of `binascii.a2b_base64`. On
codes without a pad, padded to whole groups, it is the regrouping of their sextets, and
what it gives encodes back to the codes exactly when the dropped bits are zero.
-/
namespace Aizzak.Base64

open List

def pad : ℕ := 61

def symbol (n : ℕ) : ℕ :=
  if n < 26 then n + 65
  else if n < 52 then n + 71
  else if n < 62 then n - 4
  else if n = 62 then 43
  else 47

def sextet (c : ℕ) : Option ℕ :=
  if 65 ≤ c ∧ c ≤ 90 then some (c - 65)
  else if 97 ≤ c ∧ c ≤ 122 then some (c - 71)
  else if 48 ≤ c ∧ c ≤ 57 then some (c + 4)
  else if c = 43 then some 62
  else if c = 47 then some 63
  else none

theorem sextet_eq_some {c n : ℕ} : sextet c = some n ↔ n < 64 ∧ symbol n = c := by
  simp only [sextet, symbol]
  split_ifs <;> grind

def sextets : List ℕ → List ℕ
  | b₀ :: b₁ :: b₂ :: rest =>
    b₀ / 4 :: (b₀ % 4 * 16 + b₁ / 16) :: (b₁ % 16 * 4 + b₂ / 64) :: b₂ % 64 :: sextets rest
  | [b₀, b₁] => [b₀ / 4, b₀ % 4 * 16 + b₁ / 16, b₁ % 16 * 4]
  | [b₀] => [b₀ / 4, b₀ % 4 * 16]
  | [] => []

def octets : List ℕ → List ℕ
  | s₀ :: s₁ :: s₂ :: s₃ :: rest =>
    (s₀ * 4 + s₁ / 16) :: (s₁ % 16 * 16 + s₂ / 4) :: (s₂ % 4 * 64 + s₃) :: octets rest
  | [s₀, s₁, s₂] => [s₀ * 4 + s₁ / 16, s₁ % 16 * 16 + s₂ / 4]
  | [s₀, s₁] => [s₀ * 4 + s₁ / 16]
  | [_] => []
  | [] => []

def leftover : List ℕ → ℕ
  | _ :: _ :: _ :: _ :: rest => leftover rest
  | [_, _, s₂] => s₂ % 4
  | [_, s₁] => s₁ % 16
  | _ => 0

def padCount (length : ℕ) : ℕ := (4 - length % 4) % 4

def encode (bytes : List ℕ) : List ℕ :=
  (sextets bytes).map symbol ++ List.replicate (padCount (sextets bytes).length) pad

/-- The loop of the strict decoder: the place in the group, the bits kept of the last
symbol, the pads seen since, and whether a pad came before. -/
def scan (quadPos left pads : ℕ) (paddingStarted : Bool) : List ℕ → Option (List ℕ)
  | [] => if quadPos = 0 then some [] else none
  | c :: rest =>
    if c = pad then
      if 2 ≤ quadPos ∧ 4 ≤ quadPos + (pads + 1) then
        if rest = [] then some [] else none
      else scan quadPos left (if 2 ≤ quadPos then pads + 1 else pads) true rest
    else
      match sextet c with
      | none => none
      | some s =>
        if paddingStarted then none
        else
          match quadPos with
          | 0 => scan 1 s 0 false rest
          | 1 => (scan 2 (s % 16) 0 false rest).map (List.cons (left * 4 + s / 16))
          | 2 => (scan 3 (s % 4) 0 false rest).map (List.cons (left * 16 + s / 4))
          | _ => (scan 0 0 0 false rest).map (List.cons (left * 64 + s))

def decode (codes : List ℕ) : Option (List ℕ) :=
  if codes.head? = some pad then none else scan 0 0 0 false codes

theorem octets_sextets (bytes : List ℕ) (hb : ∀ b ∈ bytes, b < 256) :
    octets (sextets bytes) = bytes := by
  induction bytes using sextets.induct with
  | case1 b₀ b₁ b₂ rest ih =>
    simp only [forall_mem_cons] at hb
    obtain ⟨h₀, h₁, h₂, hr⟩ := hb
    rw [sextets, octets, ih hr]
    congr 1
    · omega
    · congr 1
      · omega
      · congr 1
        omega
  | case2 b₀ b₁ =>
    simp only [forall_mem_cons] at hb
    obtain ⟨h₀, h₁, -⟩ := hb
    rw [sextets, octets]
    congr 1
    · omega
    · congr 1
      omega
  | case3 b₀ =>
    simp only [forall_mem_cons] at hb
    obtain ⟨h₀, -⟩ := hb
    rw [sextets, octets]
    congr 1
    omega
  | case4 => rfl

/-- Regrouped sextets come back exactly when the dropped bits were zero. -/
theorem sextets_octets (ss : List ℕ) (hss : ∀ s ∈ ss, s < 64) (hl : ss.length % 4 ≠ 1) :
    sextets (octets ss) = ss ↔ leftover ss = 0 := by
  induction ss using octets.induct with
  | case1 s₀ s₁ s₂ s₃ rest ih =>
    simp only [forall_mem_cons] at hss
    obtain ⟨h₀, h₁, h₂, h₃, hre⟩ := hss
    have hr : rest.length % 4 ≠ 1 := by
      simp only [length_cons] at hl
      omega
    rw [octets, sextets, leftover, ← ih hre hr]
    have e₀ : (s₀ * 4 + s₁ / 16) / 4 = s₀ := by omega
    have e₁ : (s₀ * 4 + s₁ / 16) % 4 * 16 + (s₁ % 16 * 16 + s₂ / 4) / 16 = s₁ := by omega
    have e₂ : (s₁ % 16 * 16 + s₂ / 4) % 16 * 4 + (s₂ % 4 * 64 + s₃) / 64 = s₂ := by omega
    have e₃ : (s₂ % 4 * 64 + s₃) % 64 = s₃ := by omega
    rw [e₀, e₁, e₂, e₃]
    simp only [List.cons.injEq, true_and]
  | case2 s₀ s₁ s₂ =>
    simp only [forall_mem_cons] at hss
    obtain ⟨h₀, h₁, h₂, -⟩ := hss
    simp only [octets, sextets, leftover, List.cons.injEq, and_true]
    omega
  | case3 s₀ s₁ =>
    simp only [forall_mem_cons] at hss
    obtain ⟨h₀, h₁, -⟩ := hss
    simp only [octets, sextets, leftover, List.cons.injEq, and_true]
    omega
  | case4 s => exact absurd rfl hl
  | case5 => simp [octets, sextets, leftover]

theorem sextets_lt (bytes : List ℕ) (hb : ∀ b ∈ bytes, b < 256) :
    ∀ s ∈ sextets bytes, s < 64 := by
  induction bytes using sextets.induct with
  | case1 b₀ b₁ b₂ rest ih =>
    simp only [forall_mem_cons] at hb
    obtain ⟨h₀, h₁, h₂, hr⟩ := hb
    simp only [sextets, forall_mem_cons]
    exact ⟨by omega, by omega, by omega, by omega, ih hr⟩
  | case2 b₀ b₁ =>
    simp only [forall_mem_cons] at hb
    obtain ⟨h₀, h₁, -⟩ := hb
    simp only [sextets, forall_mem_cons]
    exact ⟨by omega, by omega, by omega, forall_mem_nil _⟩
  | case3 b₀ =>
    simp only [forall_mem_cons] at hb
    simp only [sextets, forall_mem_cons]
    exact ⟨by omega, by omega, forall_mem_nil _⟩
  | case4 => exact forall_mem_nil _

theorem length_sextets (bytes : List ℕ) : (sextets bytes).length % 4 ≠ 1 := by
  induction bytes using sextets.induct with
  | case1 b₀ b₁ b₂ rest ih =>
    simp only [sextets, length_cons]
    omega
  | case2 b₀ b₁ => simp [sextets]
  | case3 b₀ => simp [sextets]
  | case4 => simp [sextets]

theorem scan_group {a b c d : ℕ} (rest : List ℕ) (ha : a ≠ pad) (hb : b ≠ pad) (hc : c ≠ pad)
    (hd : d ≠ pad) :
    scan 0 0 0 false (a :: b :: c :: d :: rest) =
      ([a, b, c, d].mapM sextet).bind fun ss =>
        (scan 0 0 0 false rest).map (octets ss ++ ·) := by
  simp only [scan, if_neg ha, if_neg hb, if_neg hc, if_neg hd, mapM_cons, mapM_nil]
  cases sextet a with
  | none => rfl
  | some sa =>
    cases sextet b with
    | none => simp
    | some sb =>
      cases sextet c with
      | none => simp
      | some sc =>
        cases sextet d with
        | none => simp
        | some sd => simp [octets, Function.comp_def]

/-- Padded to whole groups, a word is decoded unless one symbol is left over. -/
theorem scan_padded (codes : List ℕ) (hco : pad ∉ codes) :
    scan 0 0 0 false (codes ++ List.replicate (padCount codes.length) pad) =
      if codes.length % 4 = 1 then none else (codes.mapM sextet).map octets := by
  induction codes using octets.induct with
  | case1 a b c d rest ih =>
    simp only [mem_cons, not_or] at hco
    obtain ⟨ha, hb, hc, hd, hr⟩ := hco
    have hcn : padCount (a :: b :: c :: d :: rest).length = padCount rest.length := by
      simp only [padCount, length_cons]
      omega
    have hl : (a :: b :: c :: d :: rest).length % 4 = rest.length % 4 := by
      simp only [length_cons]
      omega
    rw [hcn, hl]
    simp only [cons_append]
    rw [scan_group _ (Ne.symm ha) (Ne.symm hb) (Ne.symm hc) (Ne.symm hd), ih hr]
    simp only [mapM_cons, mapM_nil]
    cases sextet a <;> cases sextet b <;> cases sextet c <;> cases sextet d <;>
      cases rest.mapM sextet <;> split_ifs <;> simp [octets]
  | case2 a b c =>
    simp only [mem_cons, not_or] at hco
    obtain ⟨ha, hb, hc, -⟩ := hco
    have hp : List.replicate (padCount [a, b, c].length) pad = [pad] := rfl
    rw [hp]
    simp only [cons_append, nil_append, scan, if_neg (Ne.symm ha), if_neg (Ne.symm hb),
      if_neg (Ne.symm hc), mapM_cons, mapM_nil]
    cases sextet a <;> cases sextet b <;> cases sextet c <;> simp [octets]
  | case3 a b =>
    simp only [mem_cons, not_or] at hco
    obtain ⟨ha, hb, -⟩ := hco
    have hp : List.replicate (padCount [a, b].length) pad = [pad, pad] := rfl
    rw [hp]
    simp only [cons_append, nil_append, scan, if_neg (Ne.symm ha), if_neg (Ne.symm hb),
      mapM_cons, mapM_nil]
    cases sextet a <;> cases sextet b <;> simp [octets]
  | case4 a =>
    simp only [mem_cons, not_or] at hco
    have hp : List.replicate (padCount [a].length) pad = [pad, pad, pad] := rfl
    rw [hp]
    simp only [cons_append, nil_append, scan, if_neg (Ne.symm hco.1)]
    cases sextet a <;> simp
  | case5 => rfl

theorem decode_padded (codes : List ℕ) (hc : pad ∉ codes) :
    decode (codes ++ List.replicate (padCount codes.length) pad) =
      if codes.length % 4 = 1 then none else (codes.mapM sextet).map octets := by
  have hh : (codes ++ List.replicate (padCount codes.length) pad).head? ≠ some pad := by
    cases codes with
    | nil => simp [padCount]
    | cons c codes =>
      intro h
      obtain rfl : c = pad := Option.some.inj h
      exact hc mem_cons_self
  rw [decode, if_neg hh, scan_padded codes hc]

end Aizzak.Base64
