import Aizzak.Base64
import Aizzak.IntText
import Aizzak.Utf8

/-!
Pagination cursors. A cursor is the unpadded base64url form of the UTF-8 bytes of a keyset
position, a UUID text or a decimal integer. The decoder repairs the padding and reads strictly, but
a strict read still passes pads behind whole groups, the two symbols of the other alphabet and bits
that no octet takes, and `int` reads more than `str` writes; each of these is a cursor that decodes
and is not the one its position encodes to.
-/
namespace Aizzak.CursorCodecs

open PyText IntText List

inductive Raised where
  | binasciiError
  | valueError
  | unicodeEncodeError
  | unicodeDecodeError
  | validationError (message code : String)
deriving DecidableEq, Repr

def isValueError : Raised → Bool
  | .validationError _ _ => false
  | _ => true

def isUnicodeDecodeError : Raised → Bool
  | .unicodeDecodeError => true
  | _ => false

def reject {α : Type} : Except Raised α :=
  .error (.validationError "malformed pagination cursor" "common.invalid_cursor")

theorem bind_eq_ok_iff {α β : Type} {x : Except Raised α} {f : α → Except Raised β} {b : β} :
    x.bind f = .ok b ↔ ∃ a, x = .ok a ∧ f a = .ok b := by
  cases x with
  | error e => simp [Except.bind]
  | ok a => simp [Except.bind]

def rejecting {α : Type} (handled : Raised → Bool) : Except Raised α → Except Raised α
  | .ok a => .ok a
  | .error e => if handled e then reject else .error e

section Base64Url

def padSign : CodePoint := 0x3D

def fromUrlsafe (code : ℕ) : ℕ := if code = 45 then 43 else if code = 95 then 47 else code

def toUrlsafe (code : ℕ) : ℕ := if code = 43 then 45 else if code = 47 then 95 else code

def asciiEncode (text : Text) : Except Raised (List ℕ) :=
  if text.all fun c => c.val < 128 then .ok (text.map Fin.val) else .error .valueError

def b64decode (text : Text) : Except Raised (List ℕ) :=
  (asciiEncode text).bind fun codes =>
    match Base64.decode (codes.map fromUrlsafe) with
    | none => .error .binasciiError
    | some raw => .ok raw

def urlsafeB64encode (bytes : List ℕ) : Text :=
  (Base64.encode bytes).map fun code => Fin.ofNat _ (toUrlsafe code)

end Base64Url

def encodeUtf8 (text : Text) : Except Raised (List ℕ) :=
  match Utf8.encode text with
  | none => .error .unicodeEncodeError
  | some bytes => .ok bytes

def decodeUtf8 (raw : List ℕ) : Except Raised Text :=
  match Utf8.decode raw with
  | none => .error .unicodeDecodeError
  | some text => .ok text

def int (text : Text) : Except Raised ℤ :=
  match pyInt text with
  | none => .error .valueError
  | some n => .ok n

def str (n : ℤ) : Except Raised Text :=
  match strInt n with
  | none => .error .valueError
  | some text => .ok text

def encodePayload (payload : Text) : Except Raised Text :=
  (encodeUtf8 payload).map fun bytes => (urlsafeB64encode bytes).rdropWhile (· = padSign)

def decodePayload (cursor : Text) : Except Raised Text :=
  let padding := List.replicate (Base64.padCount cursor.length) padSign
  (rejecting isValueError (b64decode (cursor ++ padding))).bind fun raw =>
    rejecting isUnicodeDecodeError (decodeUtf8 raw)

section UuidText

def isHex (c : CodePoint) : Bool :=
  (0x30 ≤ c.val && c.val ≤ 0x39) || (0x41 ≤ c.val && c.val ≤ 0x46) ||
    (0x61 ≤ c.val && c.val ≤ 0x66)

def uuidShape : List Bool :=
  List.replicate 8 false ++ true :: (List.replicate 4 false ++ true :: (List.replicate 4 false ++
    true :: (List.replicate 4 false ++ true :: List.replicate 12 false)))

def matchesShape : List Bool → Text → Bool
  | [], [] => true
  | dash :: shape, c :: text => (if dash then c = minus else isHex c) && matchesShape shape text
  | _, _ => false

def isUuidText (text : Text) : Bool := matchesShape uuidShape text

end UuidText

def encodeIdCursor (lastId : Text) : Except Raised Text := encodePayload lastId

def decodeIdCursor (cursor : Text) : Except Raised Text :=
  (decodePayload cursor).bind fun raw => if isUuidText raw then .ok raw else reject

def encodeSeqCursor (lastSeq : ℤ) : Except Raised Text := (str lastSeq).bind encodePayload

def decodeSeqCursor (maximum : Option ℤ) (cursor : Text) : Except Raised ℤ :=
  (decodePayload cursor).bind fun raw =>
    (rejecting isValueError (int raw)).bind fun value =>
      if maximum.any (fun bound => bound < (value.natAbs : ℤ)) then reject else .ok value

section Envelope

def symbolValue (c : CodePoint) : Option ℕ := Base64.sextet (fromUrlsafe c.val)

def urlSymbol (s : ℕ) : CodePoint := Fin.ofNat _ (toUrlsafe (Base64.symbol s))

def Clean (cursor : Text) : Prop :=
  (∀ c ∈ cursor, c.val ≠ 61 ∧ c.val ≠ 43 ∧ c.val ≠ 47) ∧
    Base64.leftover (cursor.filterMap symbolValue) = 0

variable {cursor payload : Text} {bytes ss : List ℕ}

theorem urlSymbol_facts {s : ℕ} (hs : s < 64) :
    (urlSymbol s).val < 128 ∧ (urlSymbol s).val ≠ 61 ∧ (urlSymbol s).val ≠ 43 ∧
      (urlSymbol s).val ≠ 47 ∧ fromUrlsafe (urlSymbol s).val = Base64.symbol s := by
  have ht : ∀ s < 64, (urlSymbol s).val < 128 ∧ (urlSymbol s).val ≠ 61 ∧
      (urlSymbol s).val ≠ 43 ∧ (urlSymbol s).val ≠ 47 ∧
      fromUrlsafe (urlSymbol s).val = Base64.symbol s := by decide
  exact ht s hs

theorem symbolValue_urlSymbol {s : ℕ} (hs : s < 64) : symbolValue (urlSymbol s) = some s := by
  rw [symbolValue, (urlSymbol_facts hs).2.2.2.2]
  exact Base64.sextet_eq_some.mpr ⟨hs, rfl⟩

/-- Of the characters a strict read takes, only two are not the cursor's own symbols. -/
theorem urlSymbol_of_symbolValue {c : CodePoint} {s : ℕ} (h : symbolValue c = some s)
    (hp : c.val ≠ 43) (hsl : c.val ≠ 47) : urlSymbol s = c := by
  obtain ⟨hs, hsy⟩ := Base64.sextet_eq_some.mp h
  apply Fin.ext
  have hb : ∀ s < 64, (urlSymbol s).val = toUrlsafe (Base64.symbol s) := by decide
  rw [hb s hs, hsy]
  simp only [fromUrlsafe, toUrlsafe]
  split_ifs <;> omega

theorem rdropWhile_pads {text : Text} (h : ∀ c ∈ text, c.val ≠ 61) (n : ℕ) :
    (text ++ List.replicate n padSign).rdropWhile (· = padSign) = text := by
  induction n with
  | zero =>
    rw [replicate_zero, append_nil, rdropWhile_eq_self_iff]
    intro hne hl
    have hpad : text.getLast hne = padSign := by simpa using hl
    exact h _ (getLast_mem hne) (by rw [hpad]; rfl)
  | succ n ih =>
    rw [replicate_succ', ← append_assoc, rdropWhile_concat_pos _ _ _ (by simp), ih]

theorem encodePayload_eq_ok (hlt : ∀ b ∈ bytes, b < 256) (h : Utf8.encode payload = some bytes) :
    encodePayload payload = .ok ((Base64.sextets bytes).map urlSymbol) := by
  have hp : (urlsafeB64encode bytes) = (Base64.sextets bytes).map urlSymbol ++
      List.replicate (Base64.padCount (Base64.sextets bytes).length) padSign := by
    rw [urlsafeB64encode, Base64.encode, map_append, map_map, map_replicate]
    rfl
  have hcl : ∀ c ∈ (Base64.sextets bytes).map urlSymbol, c.val ≠ 61 := by
    intro c hc
    obtain ⟨s, hs, rfl⟩ := mem_map.mp hc
    exact (urlSymbol_facts (Base64.sextets_lt bytes hlt s hs)).2.1
  rw [encodePayload, encodeUtf8, h]
  simp only [Except.map]
  rw [hp, rdropWhile_pads hcl]

theorem mapM_symbolValue (cursor : Text) :
    ((cursor.map Fin.val).map fromUrlsafe).mapM Base64.sextet = cursor.mapM symbolValue := by
  induction cursor with
  | nil => rfl
  | cons c cursor ih =>
    rw [map_cons, map_cons, mapM_cons, mapM_cons, ih]
    rfl

theorem mapM_urlSymbol (hss : ∀ s ∈ ss, s < 64) :
    (ss.map urlSymbol).mapM symbolValue = some ss := by
  induction ss with
  | nil => rfl
  | cons s ss ih =>
    rw [forall_mem_cons] at hss
    rw [map_cons, mapM_cons, ih hss.2, symbolValue_urlSymbol hss.1]
    rfl

theorem values_of_mapM (h : cursor.mapM symbolValue = some ss) :
    (∀ s ∈ ss, s < 64) ∧ (∀ c ∈ cursor, c.val < 128) ∧ ss.length = cursor.length ∧
      cursor.filterMap symbolValue = ss ∧
      ((∀ c ∈ cursor, c.val ≠ 43 ∧ c.val ≠ 47) → ss.map urlSymbol = cursor) := by
  induction cursor generalizing ss with
  | nil =>
    cases h
    simp
  | cons c cursor ih =>
    rw [mapM_cons] at h
    obtain ⟨s, hs, ht⟩ := Option.bind_eq_some_iff.mp h
    obtain ⟨tail, hmap, hc⟩ := Option.bind_eq_some_iff.mp ht
    cases hc
    obtain ⟨hlt, ha, hl, hf, hb⟩ := ih hmap
    obtain ⟨hs64, hsy⟩ := Base64.sextet_eq_some.mp hs
    have hco : c.val < 128 := by
      simp only [Base64.symbol, fromUrlsafe] at hsy
      split_ifs at hsy <;> omega
    refine ⟨forall_mem_cons.mpr ⟨hs64, hlt⟩, forall_mem_cons.mpr ⟨hco, ha⟩,
      congrArg (· + 1) hl, ?_, ?_⟩
    · rw [filterMap_cons_some hs, hf]
    · intro hown
      rw [forall_mem_cons] at hown
      rw [map_cons, hb hown.2, urlSymbol_of_symbolValue hs hown.1.1 hown.1.2]

/-- A strict read of a cursor without a pad is the regrouping of its values. -/
theorem b64decode_eq_ok (hpad : ∀ c ∈ cursor, c.val ≠ 61) :
    b64decode (cursor ++ List.replicate (Base64.padCount cursor.length) padSign) = .ok bytes ↔
      ∃ ss, cursor.mapM symbolValue = some ss ∧ cursor.length % 4 ≠ 1 ∧
        bytes = Base64.octets ss := by
  have hco : ((cursor ++ List.replicate (Base64.padCount cursor.length) padSign).map
        Fin.val).map fromUrlsafe = (cursor.map Fin.val).map fromUrlsafe ++
      List.replicate (Base64.padCount ((cursor.map Fin.val).map fromUrlsafe).length)
        Base64.pad := by
    simp only [map_append, map_replicate, length_map]
    rfl
  have hf : Base64.pad ∉ (cursor.map Fin.val).map fromUrlsafe := by
    intro hmem
    simp only [mem_map] at hmem
    obtain ⟨_, ⟨c, hc, rfl⟩, hcd⟩ := hmem
    have hne := hpad c hc
    simp only [fromUrlsafe, Base64.pad] at hcd
    split_ifs at hcd <;> omega
  have hr := Base64.decode_padded _ hf
  rw [← hco, mapM_symbolValue, length_map, length_map] at hr
  constructor
  · intro h
    rw [b64decode, asciiEncode] at h
    by_cases ha : (cursor ++ List.replicate (Base64.padCount cursor.length) padSign).all
        (fun c => decide (c.val < 128)) = true
    · rw [if_pos ha] at h
      simp only [Except.bind, hr] at h
      by_cases hl : cursor.length % 4 = 1
      · rw [if_pos hl] at h
        contradiction
      · rw [if_neg hl] at h
        cases hv : cursor.mapM symbolValue with
        | none =>
          rw [hv] at h
          contradiction
        | some ss =>
          rw [hv] at h
          exact ⟨ss, rfl, hl, (Except.ok.inj h).symm⟩
    · rw [if_neg ha] at h
      contradiction
  · rintro ⟨ss, hv, hl, rfl⟩
    have ha : (cursor ++ List.replicate (Base64.padCount cursor.length) padSign).all
        (fun c => decide (c.val < 128)) = true := by
      simp only [all_append, all_replicate, Bool.and_eq_true, all_eq_true,
        decide_eq_true_eq]
      refine ⟨(values_of_mapM hv).2.1, ?_⟩
      split_ifs <;> rfl
    rw [b64decode, asciiEncode, if_pos ha]
    simp only [Except.bind, hr, if_neg hl, hv, Option.map_some]

theorem rejecting_eq_ok {α : Type} {handled : Raised → Bool} {x : Except Raised α} {a : α} :
    rejecting handled x = .ok a ↔ x = .ok a := by
  cases x with
  | ok b => exact Iff.rfl
  | error e =>
    rw [rejecting]
    split_ifs <;> simp [reject]

theorem decodeUtf8_eq_ok : decodeUtf8 bytes = .ok payload ↔ Utf8.decode bytes = some payload := by
  rw [decodeUtf8]
  cases Utf8.decode bytes <;> simp

theorem decodePayload_eq_ok :
    decodePayload cursor = .ok payload ↔
      ∃ bytes, b64decode (cursor ++ List.replicate (Base64.padCount cursor.length) padSign) =
        .ok bytes ∧ Utf8.decode bytes = some payload := by
  rw [decodePayload]
  constructor
  · intro h
    obtain ⟨bytes, hr, htext⟩ := bind_eq_ok_iff.mp h
    exact ⟨bytes, rejecting_eq_ok.mp hr, decodeUtf8_eq_ok.mp (rejecting_eq_ok.mp htext)⟩
  · intro ⟨bytes, hr, htext⟩
    exact bind_eq_ok_iff.mpr ⟨bytes, rejecting_eq_ok.mpr hr,
      rejecting_eq_ok.mpr (decodeUtf8_eq_ok.mpr htext)⟩

/-- What an envelope carries is read back. -/
theorem decodePayload_encodePayload (h : encodePayload payload = .ok cursor) :
    decodePayload cursor = .ok payload := by
  cases hb : Utf8.encode payload with
  | none =>
    rw [encodePayload, encodeUtf8, hb] at h
    contradiction
  | some bytes =>
    have hlt := Utf8.encode_lt hb
    rw [encodePayload_eq_ok hlt hb] at h
    cases h
    have hss := Base64.sextets_lt bytes hlt
    have hpad : ∀ c ∈ (Base64.sextets bytes).map urlSymbol, c.val ≠ 61 := by
      intro c hc
      obtain ⟨s, hs, rfl⟩ := mem_map.mp hc
      exact (urlSymbol_facts (hss s hs)).2.1
    refine decodePayload_eq_ok.mpr ⟨bytes, ?_, Utf8.decode_eq_some_iff.mpr hb⟩
    rw [b64decode_eq_ok hpad]
    refine ⟨_, mapM_urlSymbol hss, ?_, (Base64.octets_sextets bytes hlt).symm⟩
    rw [length_map]
    exact Base64.length_sextets bytes

/-- A payload is encoded back to the cursor it came from exactly when that was clean. -/
theorem encodePayload_iff_clean (h : decodePayload cursor = .ok payload) :
    encodePayload payload = .ok cursor ↔ Clean cursor := by
  obtain ⟨bytes, hr, htext⟩ := decodePayload_eq_ok.mp h
  have he := Utf8.decode_eq_some_iff.mp htext
  have hlt := Utf8.encode_lt he
  rw [encodePayload_eq_ok hlt he, Except.ok.injEq]
  have hss := Base64.sextets_lt bytes hlt
  constructor
  · rintro rfl
    obtain ⟨-, -, -, hv, -⟩ := values_of_mapM (mapM_urlSymbol hss)
    refine ⟨?_, ?_⟩
    · intro c hc
      obtain ⟨s, hs, rfl⟩ := mem_map.mp hc
      obtain ⟨-, hpad, hp, hsh, -⟩ := urlSymbol_facts (hss s hs)
      exact ⟨hpad, hp, hsh⟩
    · rw [hv, ← Base64.sextets_octets _ hss (Base64.length_sextets bytes),
        Base64.octets_sextets bytes hlt]
  · intro ⟨hown, hl⟩
    obtain ⟨ss, hmap, hle, rfl⟩ := (b64decode_eq_ok fun c hc => (hown c hc).1).mp hr
    obtain ⟨hs6, -, hsl, hv, hb⟩ := values_of_mapM hmap
    rw [hv] at hl
    rw [← hsl] at hle
    rw [(Base64.sextets_octets ss hs6 hle).mpr hl]
    exact hb fun c hc => (hown c hc).2

end Envelope

section Totality

variable {α β : Type} {handled : Raised → Bool}

/-- A value, or the one rejection every malformed cursor leaves through. -/
def Total (x : Except Raised α) : Prop := (∃ a, x = .ok a) ∨ x = reject

theorem total_rejecting {x : Except Raised α} (h : ∀ e, x = .error e → handled e = true) :
    Total (rejecting handled x) := by
  cases x with
  | ok a => exact Or.inl ⟨a, rfl⟩
  | error e =>
    rw [rejecting, if_pos (h e rfl)]
    exact Or.inr rfl

theorem Total.bind {x : Except Raised α} {f : α → Except Raised β} (hx : Total x)
    (hf : ∀ a, Total (f a)) : Total (x.bind f) := by
  rcases hx with ⟨a, rfl⟩ | rfl
  · exact hf a
  · exact Or.inr rfl

theorem total_ok_or_reject {p : Prop} [Decidable p] (a : α) :
    Total (if p then .ok a else reject : Except Raised α) := by
  split_ifs
  · exact Or.inl ⟨a, rfl⟩
  · exact Or.inr rfl

theorem isValueError_of_b64decode {text : Text} {e : Raised} (h : b64decode text = .error e) :
    isValueError e = true := by
  rw [b64decode, asciiEncode] at h
  split_ifs at h
  · simp only [Except.bind] at h
    split at h
    · obtain rfl := Except.error.inj h
      rfl
    · contradiction
  · obtain rfl := Except.error.inj h
    rfl

theorem isUnicodeDecodeError_of_decodeUtf8 {raw : List ℕ} {e : Raised}
    (h : decodeUtf8 raw = .error e) : isUnicodeDecodeError e = true := by
  rw [decodeUtf8] at h
  split at h
  · obtain rfl := Except.error.inj h
    rfl
  · contradiction

theorem isValueError_of_int {text : Text} {e : Raised} (h : int text = .error e) :
    isValueError e = true := by
  rw [int] at h
  split at h
  · obtain rfl := Except.error.inj h
    rfl
  · contradiction

theorem total_decodePayload (cursor : Text) : Total (decodePayload cursor) := by
  apply Total.bind
  · exact total_rejecting fun e => isValueError_of_b64decode
  · intro raw
    exact total_rejecting fun e => isUnicodeDecodeError_of_decodeUtf8

theorem total_decodeIdCursor (cursor : Text) : Total (decodeIdCursor cursor) := by
  apply (total_decodePayload cursor).bind
  intro raw
  exact total_ok_or_reject raw

theorem total_decodeSeqCursor (maximum : Option ℤ) (cursor : Text) :
    Total (decodeSeqCursor maximum cursor) := by
  apply (total_decodePayload cursor).bind
  intro raw
  apply Total.bind
  · exact total_rejecting fun e => isValueError_of_int
  · intro value
    split_ifs
    · exact Or.inr rfl
    · exact Or.inl ⟨value, rfl⟩

end Totality

section Kinds

variable {cursor text : Text} {n : ℤ} {maximum : Option ℤ}

theorem split_of_matchesShape {shape : List Bool} (k : ℕ) (text : Text)
    (h : matchesShape (List.replicate k false ++ true :: shape) text = true) :
    ∃ front rest, text = front ++ minus :: rest ∧ front.length = k ∧
      ∀ c ∈ front, isHex c = true := by
  induction k generalizing text with
  | zero =>
    cases text with
    | nil => contradiction
    | cons c text =>
      rw [replicate_zero, nil_append, matchesShape, Bool.and_eq_true] at h
      have hc : c = minus := by simpa using h.1
      exact ⟨[], text, by rw [hc, nil_append], rfl, forall_mem_nil _⟩
  | succ k ih =>
    cases text with
    | nil => contradiction
    | cons c text =>
      rw [replicate_succ, cons_append, matchesShape, Bool.and_eq_true] at h
      obtain ⟨front, rest, rfl, hl, hhex⟩ := ih text h.2
      have hc : isHex c = true := by simpa using h.1
      exact ⟨c :: front, rest, rfl, congrArg (· + 1) hl, forall_mem_cons.mpr ⟨hc, hhex⟩⟩

theorem isHex_facts {c : CodePoint} (h : isHex c = true) :
    c.val < 127 ∧ isBlank c = false ∧ c ≠ minus ∧ c ≠ plus := by
  simp only [isHex, Bool.or_eq_true, Bool.and_eq_true, decide_eq_true_eq] at h
  refine ⟨by omega, ?_, ?_, ?_⟩
  · simp only [isBlank, Bool.or_eq_false_iff, Bool.and_eq_false_iff, beq_eq_false_iff_ne,
      decide_eq_false_iff_not]
    omega
  · rintro rfl
    exact absurd h (by decide)
  · rintro rfl
    exact absurd h (by decide)

theorem pyInt_of_isUuidText (h : isUuidText text = true) : pyInt text = none := by
  obtain ⟨front, rest, rfl, hl, hhex⟩ := split_of_matchesShape 8 text h
  have hf : front ≠ [] := by
    rintro rfl
    contradiction
  exact pyInt_dash hf (fun c hc => (isHex_facts (hhex c hc)).1)
    (fun c hc => (isHex_facts (hhex c hc)).2.1) (fun c hc => (isHex_facts (hhex c hc)).2.2) rest

theorem isHex_of_matchesShape {shape : List Bool} (text : Text)
    (h : matchesShape shape text = true) : ∀ c ∈ text, isHex c = true ∨ c = minus := by
  induction shape generalizing text with
  | nil =>
    cases text with
    | nil => exact forall_mem_nil _
    | cons c text => contradiction
  | cons dash shape ih =>
    cases text with
    | nil => contradiction
    | cons c text =>
      rw [matchesShape, Bool.and_eq_true] at h
      refine forall_mem_cons.mpr ⟨?_, ih text h.2⟩
      by_cases hd : dash = true
      · exact Or.inr (by simpa [hd] using h.1)
      · exact Or.inl (by simpa [hd] using h.1)

theorem decodeIdCursor_eq_ok {u : Text} :
    decodeIdCursor cursor = .ok u ↔ decodePayload cursor = .ok u ∧ isUuidText u = true := by
  rw [decodeIdCursor, bind_eq_ok_iff]
  constructor
  · rintro ⟨raw, hraw, hu⟩
    split_ifs at hu with huu
    · cases hu
      exact ⟨hraw, huu⟩
    · contradiction
  · intro ⟨hraw, huu⟩
    exact ⟨u, hraw, if_pos huu⟩

theorem int_eq_ok : int text = .ok n ↔ pyInt text = some n := by
  rw [int]
  generalize pyInt text = read
  cases read <;> simp

theorem str_eq_ok : str n = .ok text ↔ strInt n = some text := by
  unfold str
  generalize strInt n = written
  cases written <;> simp

/-- What the sequence decoder accepts. -/
theorem decodeSeqCursor_eq_ok :
    decodeSeqCursor maximum cursor = .ok n ↔
      ∃ raw, decodePayload cursor = .ok raw ∧ pyInt raw = some n ∧
        ∀ bound ∈ maximum, (n.natAbs : ℤ) ≤ bound := by
  rw [decodeSeqCursor, bind_eq_ok_iff]
  have hb : ∀ value : ℤ, (maximum.any fun bound => bound < (value.natAbs : ℤ)) = true ↔
      ¬∀ bound ∈ maximum, (value.natAbs : ℤ) ≤ bound := by
    intro value
    cases maximum <;> simp
  constructor
  · rintro ⟨raw, hraw, hvalue⟩
    obtain ⟨value, hint, hn⟩ := bind_eq_ok_iff.mp hvalue
    by_cases hmax : ∀ bound ∈ maximum, (value.natAbs : ℤ) ≤ bound
    · rw [if_neg fun hany => (hb value).mp hany hmax] at hn
      cases hn
      exact ⟨raw, hraw, int_eq_ok.mp (rejecting_eq_ok.mp hint), hmax⟩
    · rw [if_pos ((hb value).mpr hmax)] at hn
      contradiction
  · rintro ⟨raw, hraw, hint, hmax⟩
    refine ⟨raw, hraw, bind_eq_ok_iff.mpr ⟨n, rejecting_eq_ok.mpr (int_eq_ok.mpr hint), ?_⟩⟩
    exact if_neg fun hany => (hb n).mp hany hmax

theorem encodeSeqCursor_eq_ok :
    encodeSeqCursor n = .ok cursor ↔
      ∃ text, strInt n = some text ∧ encodePayload text = .ok cursor := by
  rw [encodeSeqCursor, bind_eq_ok_iff]
  simp only [str_eq_ok]

theorem decodeIdCursor_encodeIdCursor (h : isUuidText text = true) :
    ∃ cursor, encodeIdCursor text = .ok cursor ∧ decodeIdCursor cursor = .ok text := by
  have hen : Encodable text := by
    intro c hc
    have hval : c.val < 0xD800 := by
      rcases isHex_of_matchesShape text h c hc with hhex | rfl
      · have hf := isHex_facts hhex
        omega
      · decide
    simp only [isSurrogate, Bool.and_eq_false_iff, decide_eq_false_iff_not]
    omega
  have hb : Utf8.encode text = some (text.flatMap Utf8.bytesOf) := if_pos hen
  have he := encodePayload_eq_ok (Utf8.encode_lt hb) hb
  exact ⟨_, he,
    decodeIdCursor_eq_ok.mpr ⟨decodePayload_encodePayload he, h⟩⟩

theorem encodable_intText (n : ℤ) : Encodable (intText n) := by
  have hd : ∀ ds, DigitRuns.IsDigits ds → Encodable ds := by
    intro ds hds c hc
    have hr := val_lt_of_isAsciiDigit (hds.2 c hc)
    simp only [isSurrogate, Bool.and_eq_false_iff, decide_eq_false_iff_not]
    omega
  rcases plain_intText n with ⟨hds, -⟩ | ⟨ds, hds, hdi, -⟩
  · exact hd _ hds
  · rw [hds]
    exact forall_mem_cons.mpr ⟨by decide, hd ds hdi⟩

theorem decodeSeqCursor_encodeSeqCursor :
    (∃ cursor, encodeSeqCursor n = .ok cursor ∧ decodeSeqCursor maximum cursor = .ok n) ↔
      n.natAbs < 10 ^ maxStrDigits ∧ ∀ bound ∈ maximum, (n.natAbs : ℤ) ≤ bound := by
  constructor
  · rintro ⟨cursor, hen, hd⟩
    obtain ⟨text, hstr, -⟩ := encodeSeqCursor_eq_ok.mp hen
    obtain ⟨raw, -, -, hmax⟩ := decodeSeqCursor_eq_ok.mp hd
    refine ⟨?_, hmax⟩
    by_contra hl
    rw [strInt, if_neg hl] at hstr
    cases hstr
  · rintro ⟨hl, hmax⟩
    have hstr : strInt n = some (intText n) := if_pos hl
    have hb : Utf8.encode (intText n) = some ((intText n).flatMap Utf8.bytesOf) :=
      if_pos (encodable_intText n)
    have he := encodePayload_eq_ok (Utf8.encode_lt hb) hb
    refine ⟨_, encodeSeqCursor_eq_ok.mpr ⟨_, hstr, he⟩, ?_⟩
    exact decodeSeqCursor_eq_ok.mpr
      ⟨_, decodePayload_encodePayload he, pyInt_strInt hstr, hmax⟩

/-- No cursor is a position of both kinds. -/
theorem decodeSeqCursor_ne_of_id {u : Text} (h : decodeIdCursor cursor = .ok u) :
    decodeSeqCursor maximum cursor ≠ .ok n := by
  intro hseq
  obtain ⟨hp, hu⟩ := decodeIdCursor_eq_ok.mp h
  obtain ⟨raw, hraw, hint, -⟩ := decodeSeqCursor_eq_ok.mp hseq
  rw [hp] at hraw
  cases hraw
  rw [pyInt_of_isUuidText hu] at hint
  contradiction

theorem encodeIdCursor_iff_clean {u : Text} (h : decodeIdCursor cursor = .ok u) :
    encodeIdCursor u = .ok cursor ↔ Clean cursor :=
  encodePayload_iff_clean (decodeIdCursor_eq_ok.mp h).1

/-- A number is encoded back to its cursor exactly when both layers are canonical. -/
theorem encodeSeqCursor_iff_clean (h : decodeSeqCursor maximum cursor = .ok n) :
    encodeSeqCursor n = .ok cursor ↔
      Clean cursor ∧ ∃ raw, decodePayload cursor = .ok raw ∧ Plain raw := by
  obtain ⟨raw, hraw, hint, -⟩ := decodeSeqCursor_eq_ok.mp h
  rw [encodeSeqCursor_eq_ok]
  constructor
  · rintro ⟨text, hstr, he⟩
    have hb := decodePayload_encodePayload he
    rw [hraw] at hb
    cases hb
    exact ⟨(encodePayload_iff_clean hraw).mp he, raw, hraw,
      (strInt_eq_iff_plain hint).mp hstr⟩
  · rintro ⟨hc, text, htext, hp⟩
    rw [hraw] at htext
    cases htext
    exact ⟨raw, (strInt_eq_iff_plain hint).mpr hp, (encodePayload_iff_clean hraw).mpr hc⟩

/-- The cursor codecs. Each inverts its encoder, an integer's up to the digit limit; no cursor
decodes as both kinds and a malformed one is rejected in one way; an accepted cursor is the
one its position encodes to exactly when it is clean and, of an integer, plain. -/
theorem cursor_codec_law (cursor : Text) (maximum : Option ℤ) :
    (∀ text, isUuidText text = true →
      ∃ cursor, encodeIdCursor text = .ok cursor ∧ decodeIdCursor cursor = .ok text) ∧
    (∀ n : ℤ, (∃ cursor, encodeSeqCursor n = .ok cursor ∧ decodeSeqCursor maximum cursor = .ok n) ↔
      n.natAbs < 10 ^ maxStrDigits ∧ ∀ bound ∈ maximum, (n.natAbs : ℤ) ≤ bound) ∧
    (Total (decodeIdCursor cursor) ∧ Total (decodeSeqCursor maximum cursor) ∧
      ∀ u n, ¬(decodeIdCursor cursor = .ok u ∧ decodeSeqCursor maximum cursor = .ok n)) ∧
    (∀ u, decodeIdCursor cursor = .ok u → (encodeIdCursor u = .ok cursor ↔ Clean cursor)) ∧
    (∀ n, decodeSeqCursor maximum cursor = .ok n →
      (encodeSeqCursor n = .ok cursor ↔
        Clean cursor ∧ ∃ raw, decodePayload cursor = .ok raw ∧ Plain raw)) :=
  ⟨fun _ => decodeIdCursor_encodeIdCursor, fun _ => decodeSeqCursor_encodeSeqCursor,
    ⟨total_decodeIdCursor cursor, total_decodeSeqCursor maximum cursor,
      fun _ _ h => decodeSeqCursor_ne_of_id h.1 h.2⟩,
    fun _ => encodeIdCursor_iff_clean, fun _ => encodeSeqCursor_iff_clean⟩

end Kinds

/-- The first of two cursors read as 42 is not the one 42 encodes to: its last symbol keeps
two bits that no octet takes. -/
theorem leftover_bits_decode : decodeSeqCursor none (ofString "NDJ") = .ok 42 ∧
    encodeSeqCursor 42 = .ok (ofString "NDI") ∧ ofString "NDI" ≠ ofString "NDJ" := by
  decide +kernel

end Aizzak.CursorCodecs
