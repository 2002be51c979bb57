import Aizzak.PyText

/-!
UTF-8 as Python's strict codec writes and reads it. A code point takes one to four
bytes; the decoder refuses a stray or missing continuation, a form longer than needed,
a surrogate and a number past the last code point, so it reads exactly what the encoder
writes.
-/
namespace Aizzak.Utf8

open PyText

def bytesOf (c : CodePoint) : List ℕ :=
  if c.val < 0x80 then [c.val]
  else if c.val < 0x800 then [0xC0 + c.val / 64, 0x80 + c.val % 64]
  else if c.val < 0x10000 then
    [0xE0 + c.val / 4096, 0x80 + c.val / 64 % 64, 0x80 + c.val % 64]
  else
    [0xF0 + c.val / 262144, 0x80 + c.val / 4096 % 64, 0x80 + c.val / 64 % 64,
      0x80 + c.val % 64]

def encode (text : Text) : Option (List ℕ) :=
  if Encodable text then some (text.flatMap bytesOf) else none

def isContinuation (b : ℕ) : Bool := 0x80 ≤ b && b < 0xC0

def pointOf (least value : ℕ) : Option CodePoint :=
  if h : value < 0x110000 then
    if least ≤ value ∧ isSurrogate ⟨value, h⟩ = false then some ⟨value, h⟩ else none
  else none

def decode : List ℕ → Option Text
  | [] => some []
  | b₀ :: rest =>
    if b₀ < 0x80 then (pointOf 0 b₀).bind fun c => (decode rest).map (List.cons c)
    else if b₀ < 0xC0 then none
    else if b₀ < 0xE0 then
      match rest with
      | b₁ :: rest =>
        if isContinuation b₁ then
          (pointOf 0x80 ((b₀ - 0xC0) * 64 + (b₁ - 0x80))).bind fun c =>
            (decode rest).map (List.cons c)
        else none
      | [] => none
    else if b₀ < 0xF0 then
      match rest with
      | b₁ :: b₂ :: rest =>
        if isContinuation b₁ && isContinuation b₂ then
          (pointOf 0x800 ((b₀ - 0xE0) * 4096 + (b₁ - 0x80) * 64 + (b₂ - 0x80))).bind fun c =>
            (decode rest).map (List.cons c)
        else none
      | _ => none
    else
      match rest with
      | b₁ :: b₂ :: b₃ :: rest =>
        if b₀ < 0xF8 && isContinuation b₁ && isContinuation b₂ && isContinuation b₃ then
          (pointOf 0x10000 ((b₀ - 0xF0) * 262144 + (b₁ - 0x80) * 4096 + (b₂ - 0x80) * 64 +
              (b₃ - 0x80))).bind fun c =>
            (decode rest).map (List.cons c)
        else none
      | _ => none

variable {bytes : List ℕ} {text : Text}

theorem pointOf_eq_some {least value : ℕ} {c : CodePoint} :
    pointOf least value = some c ↔ c.val = value ∧ least ≤ value ∧ isSurrogate c = false := by
  rw [pointOf]
  constructor
  · intro h
    split_ifs at h with hr hf
    cases h
    exact ⟨rfl, hf⟩
  · rintro ⟨rfl, hl, hs⟩
    rw [dif_pos c.isLt, if_pos ⟨hl, hs⟩]

theorem isContinuation_eq (b : ℕ) : isContinuation b = true ↔ 0x80 ≤ b ∧ b < 0xC0 := by
  simp [isContinuation]

/-- A code point is read back from its bytes. -/
theorem decode_bytesOf (c : CodePoint) (hc : isSurrogate c = false) (rest : List ℕ) :
    decode (bytesOf c ++ rest) = (decode rest).map (List.cons c) := by
  have hlt := c.isLt
  rw [bytesOf]
  split_ifs with h₁ h₂ h₃
  · have hp := pointOf_eq_some.mpr ⟨rfl, Nat.zero_le c.val, hc⟩
    rw [List.cons_append, List.nil_append, decode.eq_def]
    simp only [if_pos h₁, hp, Option.bind_some]
  · have hvalue : (0xC0 + c.val / 64 - 0xC0) * 64 + (0x80 + c.val % 64 - 0x80) = c.val := by omega
    have hp := pointOf_eq_some.mpr ⟨hvalue.symm, show 0x80 ≤ _ by omega, hc⟩
    have hco : isContinuation (0x80 + c.val % 64) = true := by
      rw [isContinuation_eq]
      omega
    simp only [List.cons_append, List.nil_append, decode]
    rw [if_neg (by omega), if_neg (by omega), if_pos (by omega), if_pos hco, hp,
      Option.bind_some]
  · have hvalue : (0xE0 + c.val / 4096 - 0xE0) * 4096 + (0x80 + c.val / 64 % 64 - 0x80) * 64 +
        (0x80 + c.val % 64 - 0x80) = c.val := by omega
    have hp := pointOf_eq_some.mpr ⟨hvalue.symm, show 0x800 ≤ _ by omega, hc⟩
    have hco : (isContinuation (0x80 + c.val / 64 % 64) &&
        isContinuation (0x80 + c.val % 64)) = true := by
      rw [Bool.and_eq_true, isContinuation_eq, isContinuation_eq]
      omega
    simp only [List.cons_append, List.nil_append, decode]
    rw [if_neg (by omega), if_neg (by omega), if_neg (by omega), if_pos (by omega), if_pos hco,
      hp, Option.bind_some]
  · have hvalue : (0xF0 + c.val / 262144 - 0xF0) * 262144 +
        (0x80 + c.val / 4096 % 64 - 0x80) * 4096 + (0x80 + c.val / 64 % 64 - 0x80) * 64 +
        (0x80 + c.val % 64 - 0x80) = c.val := by omega
    have hp := pointOf_eq_some.mpr ⟨hvalue.symm, show 0x10000 ≤ _ by omega, hc⟩
    have hco : (decide (0xF0 + c.val / 262144 < 0xF8) &&
        isContinuation (0x80 + c.val / 4096 % 64) && isContinuation (0x80 + c.val / 64 % 64) &&
        isContinuation (0x80 + c.val % 64)) = true := by
      simp only [Bool.and_eq_true, decide_eq_true_eq, isContinuation_eq]
      omega
    simp only [List.cons_append, List.nil_append, decode]
    rw [if_neg (by omega), if_neg (by omega), if_neg (by omega), if_neg (by omega), if_pos hco,
      hp, Option.bind_some]

theorem decode_flatMap (h : Encodable text) : decode (text.flatMap bytesOf) = some text := by
  induction text with
  | nil => rfl
  | cons c text ih =>
    obtain ⟨hc, htext⟩ := List.forall_mem_cons.mp h
    rw [List.flatMap_cons, decode_bytesOf c hc, ih htext]
    rfl

theorem bytesOf_lt (c : CodePoint) : ∀ b ∈ bytesOf c, b < 256 := by
  have hlt := c.isLt
  rw [bytesOf]
  split_ifs <;>
    simp only [List.mem_cons, List.not_mem_nil, or_false, forall_eq_or_imp, forall_eq] <;> omega

theorem encode_lt (h : encode text = some bytes) : ∀ b ∈ bytes, b < 256 := by
  rw [encode] at h
  split_ifs at h
  cases h
  intro b hb
  obtain ⟨c, -, hc⟩ := List.mem_flatMap.mp hb
  exact bytesOf_lt c b hc

theorem encode_cons {c : CodePoint} {form : List ℕ} (hc : isSurrogate c = false)
    (hf : bytesOf c = form) (h : encode text = some bytes) :
    encode (c :: text) = some (form ++ bytes) := by
  rw [encode] at h
  split_ifs at h with htext
  cases h
  have hall : Encodable (c :: text) := List.forall_mem_cons.mpr ⟨hc, htext⟩
  rw [encode, if_pos hall, List.flatMap_cons, hf]

theorem encode_of_read {least value : ℕ} (form : List ℕ) {rest : List ℕ}
    (hf : ∀ c : CodePoint, c.val = value → least ≤ value → bytesOf c = form)
    (ih : ∀ tail, decode rest = some tail → encode tail = some rest)
    (h : ((pointOf least value).bind fun c => (decode rest).map (List.cons c)) = some text) :
    encode text = some (form ++ rest) := by
  obtain ⟨c, hc, ht⟩ := Option.bind_eq_some_iff.mp h
  obtain ⟨tail, hd, rfl⟩ := Option.map_eq_some_iff.mp ht
  obtain ⟨hval, hl, hs⟩ := pointOf_eq_some.mp hc
  exact encode_cons hs (hf c hval hl) (ih tail hd)

theorem bytesOf_two {b₀ b₁ : ℕ} (h₀ : 0xC0 ≤ b₀) (h₀' : b₀ < 0xE0)
    (h₁ : isContinuation b₁ = true) (c : CodePoint)
    (hc : c.val = (b₀ - 0xC0) * 64 + (b₁ - 0x80)) (hl : 0x80 ≤ c.val) :
    bytesOf c = [b₀, b₁] := by
  rw [isContinuation_eq] at h₁
  rw [bytesOf, if_neg (by omega), if_pos (by omega)]
  congr 1
  · omega
  · congr 1
    omega

theorem bytesOf_three {b₀ b₁ b₂ : ℕ} (h₀ : 0xE0 ≤ b₀) (h₀' : b₀ < 0xF0)
    (h₁ : isContinuation b₁ = true) (h₂ : isContinuation b₂ = true) (c : CodePoint)
    (hc : c.val = (b₀ - 0xE0) * 4096 + (b₁ - 0x80) * 64 + (b₂ - 0x80)) (hl : 0x800 ≤ c.val) :
    bytesOf c = [b₀, b₁, b₂] := by
  rw [isContinuation_eq] at h₁ h₂
  rw [bytesOf, if_neg (by omega), if_neg (by omega), if_pos (by omega)]
  congr 1
  · omega
  · congr 1
    · omega
    · congr 1
      omega

theorem bytesOf_four {b₀ b₁ b₂ b₃ : ℕ} (h₀ : 0xF0 ≤ b₀) (h₁ : isContinuation b₁ = true)
    (h₂ : isContinuation b₂ = true) (h₃ : isContinuation b₃ = true) (c : CodePoint)
    (hc : c.val = (b₀ - 0xF0) * 262144 + (b₁ - 0x80) * 4096 + (b₂ - 0x80) * 64 + (b₃ - 0x80))
    (hl : 0x10000 ≤ c.val) : bytesOf c = [b₀, b₁, b₂, b₃] := by
  rw [isContinuation_eq] at h₁ h₂ h₃
  rw [bytesOf, if_neg (by omega), if_neg (by omega), if_neg (by omega)]
  congr 1
  · omega
  · congr 1
    · omega
    · congr 1
      · omega
      · congr 1
        omega

/-- The decoder reads a text from nothing but what the encoder writes for it. -/
theorem encode_of_decode (h : decode bytes = some text) : encode text = some bytes := by
  induction bytes using decode.induct generalizing text with
  | case1 =>
    cases h
    rfl
  | case2 b₀ rest h₁ ih =>
    rw [decode.eq_def] at h
    simp only [if_pos h₁] at h
    refine encode_of_read [b₀] (fun c hc _ => ?_) (fun tail => ih) h
    rw [bytesOf, if_pos (by omega), hc]
  | case3 b₀ rest h₁ h₂ =>
    rw [decode.eq_def] at h
    simp only [if_neg h₁, if_pos h₂] at h
    contradiction
  | case4 b₀ h₁ h₂ h₃ b₁ rest hco ih =>
    rw [decode.eq_def] at h
    simp only [if_neg h₁, if_neg h₂, if_pos h₃, if_pos hco] at h
    refine encode_of_read [b₀, b₁] (fun c hc hl => ?_) (fun tail => ih) h
    exact bytesOf_two (not_lt.mp h₂) h₃ hco c hc (hc ▸ hl)
  | case5 b₀ h₁ h₂ h₃ b₁ rest hco =>
    rw [decode.eq_def] at h
    simp only [if_neg h₁, if_neg h₂, if_pos h₃, if_neg hco] at h
    contradiction
  | case6 b₀ h₁ h₂ h₃ =>
    rw [decode.eq_def] at h
    simp only [if_neg h₁, if_neg h₂, if_pos h₃] at h
    contradiction
  | case7 b₀ h₁ h₂ h₃ h₄ b₁ b₂ rest hco ih =>
    rw [decode.eq_def] at h
    simp only [if_neg h₁, if_neg h₂, if_neg h₃, if_pos h₄, if_pos hco] at h
    rw [Bool.and_eq_true] at hco
    refine encode_of_read [b₀, b₁, b₂] (fun c hc hl => ?_) (fun tail => ih) h
    exact bytesOf_three (not_lt.mp h₃) h₄ hco.1 hco.2 c hc (hc ▸ hl)
  | case8 b₀ h₁ h₂ h₃ h₄ b₁ b₂ rest hco =>
    rw [decode.eq_def] at h
    simp only [if_neg h₁, if_neg h₂, if_neg h₃, if_pos h₄, if_neg hco] at h
    contradiction
  | case9 b₀ rest h₁ h₂ h₃ h₄ hs =>
    rw [decode.eq_def] at h
    simp only [if_neg h₁, if_neg h₂, if_neg h₃, if_pos h₄] at h
    contradiction
  | case10 b₀ h₁ h₂ h₃ h₄ b₁ b₂ b₃ rest hco ih =>
    rw [decode.eq_def] at h
    simp only [if_neg h₁, if_neg h₂, if_neg h₃, if_neg h₄, if_pos hco] at h
    simp only [Bool.and_eq_true] at hco
    refine encode_of_read [b₀, b₁, b₂, b₃] (fun c hc hl => ?_) (fun tail => ih) h
    exact bytesOf_four (not_lt.mp h₄) hco.1.1.2 hco.1.2 hco.2 c hc (hc ▸ hl)
  | case11 b₀ h₁ h₂ h₃ h₄ b₁ b₂ b₃ rest hco =>
    rw [decode.eq_def] at h
    simp only [if_neg h₁, if_neg h₂, if_neg h₃, if_neg h₄, if_neg hco] at h
    contradiction
  | case12 b₀ rest h₁ h₂ h₃ h₄ hs =>
    rw [decode.eq_def] at h
    simp only [if_neg h₁, if_neg h₂, if_neg h₃, if_neg h₄] at h
    contradiction

/-- The codec is a bijection between the texts without a surrogate and what it accepts. -/
theorem decode_eq_some_iff : decode bytes = some text ↔ encode text = some bytes := by
  refine ⟨encode_of_decode, fun h => ?_⟩
  rw [encode] at h
  split_ifs at h with htext
  cases h
  exact decode_flatMap htext

end Aizzak.Utf8
