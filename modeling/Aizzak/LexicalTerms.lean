import Aizzak.Tokenization

/-!
The sparse vectors of the lexical leg: a stored chunk carries the weighted term ids of
its text, a query those of its own. Both sides tokenize by the language of their own
whole text, so a word of a chunk is found by a query for it just when the chunk's
tokenizer, run on that word alone, yields one of the query's ids. Whether it does
depends on the word and the chunk's language only.
-/
namespace Aizzak.LexicalTerms

open PyText SeparatedRuns Tokenization

/-- Parallel columns of a sparse vector, ascending and without repetition. -/
structure SparseTerms where
  indices : List ℕ
  values : List ℚ
  ascending : indices.Pairwise (· < ·)
  parallel : values.length = indices.length

/-- Okapi's parameters within their documented ranges; the arithmetic is exact here. -/
structure Bm25Params where
  k1 : ℚ
  b : ℚ
  avgLen : ℚ
  k1_nonneg : 0 ≤ k1
  b_nonneg : 0 ≤ b
  b_le_one : b ≤ 1

def Bm25Params.weight (params : Bm25Params) (tf : ℚ) (docLen : ℕ) : ℚ :=
  let anchor := if 0 < params.avgLen then params.avgLen else 1
  let norm := 1 - params.b + params.b * (docLen / anchor)
  tf * (params.k1 + 1) / (tf + params.k1 * norm)

section Builders

variable (db : UnicodeDatabase) (digest : Text → ℕ)

def termId (term : Text) : Except UnicodeEncodeError ℕ :=
  (encode term).map digest

def termIds (text : Text) (options : TokenizeOptions) : Except UnicodeEncodeError (List ℕ) :=
  (tokenize db text options).mapM (termId digest)

def orderedIds (ids : List ℕ) : List ℕ := ids.dedup.insertionSort (· ≤ ·)

theorem mem_orderedIds {ids : List ℕ} {i : ℕ} : i ∈ orderedIds ids ↔ i ∈ ids := by
  simp [orderedIds]

theorem orderedIds_pairwise (ids : List ℕ) : (orderedIds ids).Pairwise (· < ·) := by
  have hs := List.pairwise_insertionSort (· ≤ ·) ids.dedup
  have hn : (orderedIds ids).Nodup :=
    (List.perm_insertionSort (· ≤ ·) ids.dedup).nodup_iff.mpr ids.nodup_dedup
  exact hs.imp₂ (fun _ _ hle hne => lt_of_le_of_ne hle hne) hn

def sparseTerms (ids : List ℕ) (value : ℕ → ℚ) : SparseTerms where
  indices := orderedIds ids
  values := (orderedIds ids).map value
  ascending := orderedIds_pairwise ids
  parallel := by simp

def buildDocumentTerms (text : Text) (params : Bm25Params) (options : TokenizeOptions := {}) :
    Except UnicodeEncodeError SparseTerms :=
  (termIds db digest text options).map fun ids =>
    let docLen := ((orderedIds ids).map ids.count).sum
    sparseTerms ids fun i => params.weight (ids.count i) docLen

def buildQueryTerms (text : Text) (options : TokenizeOptions := {}) :
    Except UnicodeEncodeError SparseTerms :=
  (termIds db digest text options).map fun ids => sparseTerms ids fun _ => 1

variable {db digest}

/-- Every builder stores the ids of the text's tokens, or fails on one it cannot encode. -/
theorem termIds_map_eq_ok {text : Text} {options : TokenizeOptions}
    {value : List ℕ → ℕ → ℚ} {terms : SparseTerms} :
    (termIds db digest text options).map (fun ids => sparseTerms ids (value ids)) = .ok terms ↔
      (∀ token ∈ tokenize db text options, Encodable token) ∧
        terms = sparseTerms ((tokenize db text options).map digest)
          (value ((tokenize db text options).map digest)) := by
  have hids {ids : List ℕ} : termIds db digest text options = .ok ids ↔
      (∀ token ∈ tokenize db text options, Encodable token) ∧
        ids = (tokenize db text options).map digest :=
    mapM_encode_eq_ok (f := fun token => token)
  cases hc : termIds db digest text options with
  | error e =>
    have hfa : ¬ ∀ token ∈ tokenize db text options, Encodable token := by
      intro hall
      have hok := hids.mpr ⟨hall, rfl⟩
      rw [hc] at hok
      cases hok
    simp only [Except.map, hfa, false_and, reduceCtorEq]
  | ok ids =>
    obtain ⟨hall, rfl⟩ := hids.mp hc
    have hf := eq_true hall
    simp only [Except.map, hf, true_and, Except.ok.injEq, eq_comm]

theorem mem_sparseTerms_indices {ids : List ℕ} {value : ℕ → ℚ} {i : ℕ} :
    i ∈ (sparseTerms ids value).indices ↔ i ∈ ids :=
  mem_orderedIds

end Builders

section Agreement

variable (db : UnicodeDatabase) (digest : Text → ℕ)

def Yields (word : Text) : Prop :=
  ∃ query, buildQueryTerms db digest word = .ok query ∧ query.indices ≠ []

def Agrees (params : Bm25Params) (text word : Text) : Prop :=
  ∀ query, buildQueryTerms db digest word = .ok query → query.indices ≠ [] →
    ∃ terms, buildDocumentTerms db digest text params = .ok terms ∧
      ∃ i ∈ query.indices, i ∈ terms.indices

/-- No token the language's tokenizer keeps of the text holds a surrogate. -/
def Hashable (language : DetectedLanguage) (text : Text) : Prop :=
  ∀ token ∈ tokenizeAs db {} language text, Encodable token

/-- The language's tokenizer, run on the word alone, yields an index of the word's query. -/
def SharesIndex (language : DetectedLanguage) (word : Text) : Prop :=
  ∃ stored ∈ tokenizeAs db {} language word, ∃ asked ∈ tokenize db word,
    digest stored = digest asked

variable {db digest}

variable {word : Text}

theorem yields_iff :
    Yields db digest word ↔
      (∀ token ∈ tokenize db word, Encodable token) ∧ ∃ token, token ∈ tokenize db word := by
  constructor
  · intro hy
    obtain ⟨query, hq, hne⟩ := hy
    obtain ⟨hall, rfl⟩ := termIds_map_eq_ok.mp hq
    obtain ⟨i, hi⟩ := List.exists_mem_of_ne_nil _ hne
    obtain ⟨token, ht, -⟩ := List.mem_map.mp (mem_sparseTerms_indices.mp hi)
    exact ⟨hall, token, ht⟩
  · intro h
    obtain ⟨hall, token, ht⟩ := h
    refine ⟨_, termIds_map_eq_ok.mpr ⟨hall, rfl⟩, ?_⟩
    apply List.ne_nil_of_mem (a := digest token)
    exact mem_sparseTerms_indices.mpr (List.mem_map_of_mem ht)

variable {text : Text}

theorem hashable_iff_tokenize :
    Hashable db (detectLanguage text) text ↔ ∀ token ∈ tokenize db text, Encodable token := by
  simp only [Hashable, mem_tokenize_iff]

/-- Agreement, over the tokens of both sides. -/
theorem agrees_iff {params : Bm25Params} :
    Agrees db digest params text word ↔
      (Yields db digest word → Hashable db (detectLanguage text) text ∧
        ∃ stored ∈ tokenize db text, ∃ asked ∈ tokenize db word,
          digest stored = digest asked) := by
  constructor
  · intro ha hy
    obtain ⟨query, hq, hne⟩ := hy
    obtain ⟨terms, ht, i, hi, hmem⟩ := ha query hq hne
    obtain ⟨-, rfl⟩ := termIds_map_eq_ok.mp hq
    obtain ⟨hall, rfl⟩ := termIds_map_eq_ok.mp ht
    obtain ⟨asked, hak, rfl⟩ := List.mem_map.mp (mem_sparseTerms_indices.mp hi)
    obtain ⟨stored, hs, heq⟩ := List.mem_map.mp (mem_sparseTerms_indices.mp hmem)
    exact ⟨hashable_iff_tokenize.mpr hall, stored, hs, asked, hak, heq⟩
  · intro h query hq hne
    obtain ⟨hh, stored, hs, asked, hak, heq⟩ := h ⟨query, hq, hne⟩
    obtain ⟨-, rfl⟩ := termIds_map_eq_ok.mp hq
    refine ⟨_, termIds_map_eq_ok.mpr ⟨hashable_iff_tokenize.mp hh, rfl⟩, digest asked, ?_, ?_⟩
    · exact mem_sparseTerms_indices.mpr (List.mem_map_of_mem hak)
    · exact mem_sparseTerms_indices.mpr (List.mem_map.mpr ⟨stored, hs, heq⟩)

/-- A mixed text is tokenized both ways, so it keeps whatever a query asks for. -/
theorem sharesIndex_of_mixed {language : DetectedLanguage} (ha : language ≠ .arabic)
    (he : language ≠ .english) (hy : Yields db digest word) :
    SharesIndex db digest language word := by
  obtain ⟨-, token, ht⟩ := yields_iff.mp hy
  refine ⟨token, (mem_tokenizeAs_mixed ha he).mpr ?_, token, ht, rfl⟩
  rw [mem_tokenize_iff] at ht
  cases hl : detectLanguage word with
  | arabic => exact .inl (by simpa [hl, tokenizeAs] using ht)
  | english => exact .inr (by simpa [hl, tokenizeAs] using ht)
  | mixed =>
    rw [hl] at ht
    exact (mem_tokenizeAs_mixed (by decide) (by decide)).mp ht
  | unknown =>
    rw [hl] at ht
    exact (mem_tokenizeAs_mixed (by decide) (by decide)).mp ht

/-- What the document's tokenizer makes of the word is in the document's vector. -/
theorem agrees_of_sharesIndex (params : Bm25Params) (hmem : word ∈ words text)
    (hh : Hashable db (detectLanguage text) text)
    (hs : SharesIndex db digest (detectLanguage text) word) :
    Agrees db digest params text word := by
  rw [agrees_iff]
  intro _
  obtain ⟨stored, hst, asked, ha, heq⟩ := hs
  have hd : stored ∈ tokenize db text :=
    mem_tokenize_iff.mpr (mem_tokenizeAs_iff.mpr ⟨word, hmem, hst⟩)
  exact ⟨hh, stored, hd, asked, ha, heq⟩

def space : CodePoint := 0x20

def latinFiller : CodePoint := 0x78

def arabicFiller : CodePoint := 0x628

theorem tokenizeEnglish_latinFiller : tokenizeEnglish db {} [latinFiller] = [] := by
  have hl : db.lower [latinFiller] = [latinFiller] := db.lower_ascii latinFiller (by decide)
  have hf : englishForm db [latinFiller] = [latinFiller] := by
    unfold englishForm
    rw [hl]
    decide
  unfold tokenizeEnglish
  rw [hf]
  decide +kernel

theorem tokenizeArabic_arabicFiller : tokenizeArabic db {} [arabicFiller] = [] := by
  have hn : normalizeArabic [arabicFiller] = [arabicFiller] := by decide
  have hf : arabicForm db {} [arabicFiller] = [arabicFiller] := by
    unfold arabicForm
    rw [if_pos rfl, hn, db.lower_arabic arabicFiller (by decide)]
  have hrun : IsRun (breaksArabicToken db) [arabicFiller] := by
    refine ⟨by simp, ?_⟩
    intro c hc
    rw [List.mem_singleton.mp hc]
    rfl
  unfold tokenizeArabic
  rw [hf, hrun.runs]
  decide +kernel

theorem detectLanguage_padded_latin (word : Text) :
    detectLanguage (padded space latinFiller word (3 * word.length + 1)) = .english := by
  have hle := List.countP_le_length (p := isArabic) (l := word)
  have ha := countP_padded isArabic space latinFiller word (3 * word.length + 1)
  have he := countP_padded isEnglish space latinFiller word (3 * word.length + 1)
  have h1 : isArabic space = false := by decide
  have h2 : isArabic latinFiller = false := by decide
  have h3 : isEnglish space = false := by decide
  have h4 : isEnglish latinFiller = true := by decide
  simp only [h1, h2, h3, h4, if_true, if_false, Bool.false_eq_true] at ha he
  unfold detectLanguage
  simp only
  rw [if_neg (by omega), if_neg (by omega), if_pos (by omega)]

theorem detectLanguage_padded_arabic (word : Text) :
    detectLanguage (padded space arabicFiller word (2 * word.length + 1)) = .arabic := by
  have hle := List.countP_le_length (p := isEnglish) (l := word)
  have ha := countP_padded isArabic space arabicFiller word (2 * word.length + 1)
  have he := countP_padded isEnglish space arabicFiller word (2 * word.length + 1)
  have h1 : isArabic space = false := by decide
  have h2 : isArabic arabicFiller = true := by decide
  have h3 : isEnglish space = false := by decide
  have h4 : isEnglish arabicFiller = false := by decide
  simp only [h1, h2, h3, h4, if_true, if_false, Bool.false_eq_true] at ha he
  unfold detectLanguage
  simp only
  rw [if_neg (by omega), if_pos (by omega)]

theorem exists_text_around (db : UnicodeDatabase) (hwo : IsRun isSpace word)
    {language : DetectedLanguage} (hl : language = .arabic ∨ language = .english) :
    ∃ text, detectLanguage text = language ∧ word ∈ words text ∧
      ∀ token, token ∈ tokenizeAs db {} language text → token ∈ tokenizeAs db {} language word := by
  have ha : ∀ (filler : CodePoint) (n : ℕ), isSpace filler = false →
      tokenizeAs db {} language [filler] = [] →
      word ∈ words (padded space filler word n) ∧
        ∀ token, token ∈ tokenizeAs db {} language (padded space filler word n) →
          token ∈ tokenizeAs db {} language word := by
    intro filler n hf hn
    have hw : words (padded space filler word n) = word :: List.replicate n [filler] :=
      runs_padded (by decide) hf hwo n
    refine ⟨by simp [hw], ?_⟩
    intro token hp
    obtain ⟨v, hv, ht⟩ := mem_tokenizeAs_iff.mp hp
    rw [hw, List.mem_cons] at hv
    rcases hv with hv | hv
    · exact hv ▸ ht
    · rw [List.eq_of_mem_replicate hv, hn] at ht
      simp at ht
  rcases hl with rfl | rfl
  · exact ⟨_, detectLanguage_padded_arabic word,
      ha arabicFiller _ (by decide) tokenizeArabic_arabicFiller⟩
  · exact ⟨_, detectLanguage_padded_latin word,
      ha latinFiller _ (by decide) tokenizeEnglish_latinFiller⟩

/-- A query for a word meets every chunk of a language that holds the word just when the
language's tokenizer, run on the word alone, yields one of the query's indices. A chunk
with a token that cannot be encoded is met by no query. -/
theorem word_query_agrees_iff (db : UnicodeDatabase) (digest : Text → ℕ) (params : Bm25Params)
    (word : Text) (hword : IsRun isSpace word) (language : DetectedLanguage) :
    ((∀ text, detectLanguage text = language → word ∈ words text → Hashable db language text →
        Agrees db digest params text word) ↔
      (Yields db digest word → Hashable db language word → SharesIndex db digest language word)) ∧
    ∀ text, word ∈ words text → ¬ Hashable db (detectLanguage text) text →
      (Agrees db digest params text word ↔ ¬ Yields db digest word) := by
  refine ⟨⟨?_, ?_⟩, ?_⟩
  · intro hall hy hh
    by_cases hl : language = .arabic ∨ language = .english
    · obtain ⟨text, hd, hmem, ht⟩ := exists_text_around db hword hl
      have ha := hall text hd hmem fun token h => hh token (ht token h)
      obtain ⟨-, stored, hst, asked, hak, heq⟩ := agrees_iff.mp ha hy
      rw [mem_tokenize_iff, hd] at hst
      exact ⟨stored, ht stored hst, asked, hak, heq⟩
    · rw [not_or] at hl
      exact sharesIndex_of_mixed hl.1 hl.2 hy
  · intro hs text hd hmem hh
    subst hd
    rw [agrees_iff]
    intro hy
    have hword : Hashable db (detectLanguage text) word := by
      intro token hto
      exact hh token (mem_tokenizeAs_iff.mpr ⟨word, hmem, hto⟩)
    exact agrees_iff.mp
      (agrees_of_sharesIndex params hmem hh (hs hy hword)) hy
  · intro text _ hh
    rw [agrees_iff]
    exact ⟨fun h hy => hh (h hy).1, fun hno hy => absurd hy hno⟩

def isPlainWord (c : CodePoint) : Bool :=
  isEnglish c || (0x30 ≤ c.val && c.val ≤ 0x39) || c.val == 0x5F ||
    (0x620 ≤ c.val && c.val ≤ 0x64A)

theorem asciiLower_of_isSpace {c : CodePoint} (hc : isSpace c = true) : asciiLower c = c := by
  unfold asciiLower
  rw [if_neg]
  simp only [isSpace, isSpaceCode, Bool.or_eq_true, Bool.and_eq_true, decide_eq_true_eq,
    beq_iff_eq] at hc
  omega

theorem asciiLower_spaces : KeepsSeparators isSpace (List.map asciiLower) :=
  KeepsSeparators.map fun _ hc => asciiLower_of_isSpace hc

theorem asciiLower_singleton (c : CodePoint) (_ : c.val < 0x80) :
    List.map asciiLower [c] = [asciiLower c] := rfl

theorem asciiLower_arabic (c : CodePoint) (hc : isArabic c = true) :
    List.map asciiLower [c] = [c] := by
  unfold asciiLower
  rw [List.map_singleton, if_neg]
  simp only [isArabic, Bool.and_eq_true, decide_eq_true_eq] at hc
  omega

theorem isPlainWord_space (c : CodePoint) (hc : isSpace c = true) : isPlainWord c = false := by
  simp only [isPlainWord, isSpace, isSpaceCode, isEnglish, Bool.or_eq_true, Bool.and_eq_true,
    decide_eq_true_eq, beq_iff_eq, Bool.or_eq_false_iff, Bool.and_eq_false_iff,
    decide_eq_false_iff_not, beq_eq_false_iff_ne] at *
  omega

def plainTables : UnicodeDatabase where
  lower := List.map asciiLower
  isWord c := isEnglish c || (0x30 ≤ c.val && c.val ≤ 0x39) || c.val == 0x5F ||
    (0x620 ≤ c.val && c.val ≤ 0x64A)
  lower_spaces := asciiLower_spaces
  lower_ascii := asciiLower_singleton
  lower_arabic := asciiLower_arabic
  isWord_space := isPlainWord_space

private def blake2b (term : Text) : ℕ :=
  (([("please", 767720022), ("ask", 1380024304), ("أحمد", 1253457780), ("احمد", 738302741),
    ("about", 3401479550), ("annual", 2460578123), ("leave", 2556232202),
    ("policy", 3955836924)] : List (String × ℕ)).find? fun entry => ofString entry.1 = term).elim 0
      Prod.snd

private def okapi : Bm25Params := ⟨3 / 2, 3 / 4, 32, by norm_num, by norm_num, by norm_num⟩

private def leave : Text := ofString "leave"

private def ahmad : Text := ofString "أحمد"

private def note : Text := ofString "please ask أحمد about the annual leave policy"

/-- A plain English word is found in every Arabic chunk that holds it. -/
theorem latin_word_found_in_arabic_text :
    IsRun isSpace leave ∧ ∀ text, detectLanguage text = .arabic → leave ∈ words text →
      Hashable plainTables .arabic text → Agrees plainTables blake2b okapi text leave := by
  have hw : IsRun isSpace leave := by decide +kernel
  refine ⟨hw, (word_query_agrees_iff plainTables blake2b okapi leave hw .arabic).1.mpr ?_⟩
  intro _ _
  exact ⟨leave, by decide +kernel, leave, by decide +kernel, rfl⟩

/-- The Arabic query normalises the name; the English chunk stored it as written. -/
theorem arabic_name_missed_in_english_text :
    ahmad ∈ words note ∧ Yields plainTables blake2b ahmad ∧
      ¬ Agrees plainTables blake2b okapi note ahmad := by
  have hy : Yields plainTables blake2b ahmad :=
    yields_iff.mpr ⟨by decide +kernel, ofString "احمد", by decide +kernel⟩
  refine ⟨by decide +kernel, hy, ?_⟩
  intro ha
  obtain ⟨-, stored, hs, asked, hak, heq⟩ := agrees_iff.mp ha hy
  have hd : ∀ stored ∈ tokenize plainTables note, ∀ asked ∈ tokenize plainTables ahmad,
      blake2b stored ≠ blake2b asked := by decide +kernel
  exact hd stored hs asked hak heq

end Agreement

end Aizzak.LexicalTerms
