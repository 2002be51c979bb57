import Aizzak.LexicalTerms

/-!
Which stop words the tokenizer drops. The stop lists are written as words are typed, while the
Arabic tokenizer asks its list about normalised words, and each tokenizer of a mixed text knows
the list of its own language only. A listed word therefore stays out of the tokens of a text
where the English tokenizer runs alone, where its normal form is listed too, or where it is a
single letter.
-/
namespace Aizzak.StopWords

open PyText SeparatedRuns Tokenization
open LexicalTerms (plainTables)

structure PlainLetters (db : UnicodeDatabase) : Prop where
  lower_plain : ∀ text, (∀ c ∈ text, isArabic c = true ∨ c.val < 0x80) →
    db.lower text = text.map asciiLower
  isWord_english : ∀ c, isEnglish c = true → db.isWord c = true

/-- The text is in the language of a list that holds the word, or in both languages. -/
def ListedIn (word : Text) (language : DetectedLanguage) : Prop :=
  (word ∈ arabicStopWords ∧ (language = .arabic ∨ language = .mixed)) ∨
    (word ∈ englishStopWords ∧ (language = .english ∨ language = .mixed))

theorem keepsToken_iff {stopWords : List Text} {token : Text} :
    keepsToken {} stopWords token = true ↔ token ∉ stopWords ∧ 2 ≤ token.length := by
  rw [keepsToken, Bool.not_true, Bool.false_or, Bool.and_eq_true, decide_eq_true_iff,
    decide_eq_true_iff, minTokenLen]

section Lists

variable {word : Text}

theorem arabicStopWords_letters (h : word ∈ arabicStopWords) :
    word ≠ [] ∧ (∀ c ∈ word, isArabic c = true) ∧
      (∀ c ∈ normalizeArabic word, isArabic c = true) ∧
      (normalizeArabic word).length = word.length := by
  have hall : (arabicStopWords.all fun listed => !listed.isEmpty && listed.all isArabic &&
      (normalizeArabic listed).all isArabic &&
      (normalizeArabic listed).length == listed.length) = true := by
    decide +kernel
  have hw := List.all_eq_true.mp hall word h
  simpa [and_assoc] using hw

theorem englishStopWords_letters (h : word ∈ englishStopWords) :
    word ≠ [] ∧ (∀ c ∈ word, isEnglish c = true ∧ asciiLower c = c) ∧
      normalizeArabic word = word := by
  have hall : (englishStopWords.all fun listed => !listed.isEmpty &&
      (listed.all fun c => isEnglish c && asciiLower c == c) &&
      normalizeArabic listed == listed) = true := by
    decide +kernel
  have hw := List.all_eq_true.mp hall word h
  simpa [and_assoc] using hw

theorem not_mem_both (ha : word ∈ arabicStopWords) (he : word ∈ englishStopWords) :
    False := by
  obtain ⟨hne, hl, -⟩ := arabicStopWords_letters ha
  obtain ⟨-, hs, -⟩ := englishStopWords_letters he
  obtain ⟨c, hc⟩ := List.exists_mem_of_ne_nil word hne
  have hle := hl c hc
  have hr := (hs c hc).1
  simp only [isArabic, isEnglish, Bool.or_eq_true, Bool.and_eq_true, decide_eq_true_eq]
    at hle hr
  omega

end Lists

section Words

variable {db : UnicodeDatabase} {word : Text}

variable {c : CodePoint}

theorem asciiLower_arabic (hc : isArabic c = true) : asciiLower c = c := by
  rw [asciiLower, if_neg]
  simp only [isArabic, Bool.and_eq_true, decide_eq_true_eq] at hc
  omega

theorem isPunctuation_arabic (hc : isArabic c = true) :
    isPunctuation c = false := by
  simp only [isArabic, isPunctuation, Bool.and_eq_true, decide_eq_true_eq, Bool.or_eq_false_iff,
    Bool.and_eq_false_iff, decide_eq_false_iff_not] at *
  omega

theorem english_lt (hc : isEnglish c = true) : c.val < 0x80 := by
  simp only [isEnglish, Bool.or_eq_true, Bool.and_eq_true, decide_eq_true_eq] at hc
  omega

variable {token : Text}

/-- A word of a single run that the tokenizer makes of it is a token unless it is dropped. -/
theorem mem_tokenizeArabic_iff {form : Text} (hf : arabicForm db {} word = form)
    (hrun : IsRun (breaksArabicToken db) form) :
    token ∈ tokenizeArabic db {} word ↔
      token = form ∧ form ∉ arabicStopWords ∧ 2 ≤ form.length := by
  rw [tokenizeArabic, hf, hrun.runs, List.mem_filter, List.mem_singleton]
  constructor
  · intro h
    obtain ⟨rfl, hk⟩ := h
    exact ⟨rfl, keepsToken_iff.mp hk⟩
  · intro h
    obtain ⟨rfl, hk⟩ := h
    exact ⟨rfl, keepsToken_iff.mpr hk⟩

/-- An English word is indexed as its form, unless it is a stop word. -/
theorem mem_tokenizeEnglish_iff {form : Text} (hf : englishForm db word = form)
    (hrun : IsRun isSpace form) :
    token ∈ tokenizeEnglish db {} word ↔
      token = form ∧ form ∉ englishStopWords ∧ 2 ≤ form.length := by
  rw [tokenizeEnglish, hf, hrun.runs, List.mem_filter, List.mem_singleton]
  constructor
  · intro h
    obtain ⟨rfl, hk⟩ := h
    exact ⟨rfl, keepsToken_iff.mp hk⟩
  · intro h
    obtain ⟨rfl, hk⟩ := h
    exact ⟨rfl, keepsToken_iff.mpr hk⟩

variable (hdb : PlainLetters db)
include hdb

theorem lower_arabic {text : Text} (htext : ∀ c ∈ text, isArabic c = true) :
    db.lower text = text := by
  rw [hdb.lower_plain text fun c hc => Or.inl (htext c hc)]
  calc text.map asciiLower = text.map id := by
        apply List.map_congr_left
        intro c hc
        exact asciiLower_arabic (htext c hc)
    _ = text := List.map_id text

theorem lower_english {text : Text} (htext : ∀ c ∈ text, isEnglish c = true ∧ asciiLower c = c) :
    db.lower text = text := by
  rw [hdb.lower_plain text fun c hc => Or.inr (english_lt (htext c hc).1)]
  calc text.map asciiLower = text.map id := by
        apply List.map_congr_left
        intro c hc
        exact (htext c hc).2
    _ = text := List.map_id text

/-- The Arabic tokenizer asks its list about the normal form. -/
theorem arabic_in_tokenizeArabic (hw : word ∈ arabicStopWords) :
    token ∈ tokenizeArabic db {} word ↔ token = normalizeArabic word ∧
      normalizeArabic word ∉ arabicStopWords ∧ 2 ≤ word.length := by
  obtain ⟨hne, -, hl, hle⟩ := arabicStopWords_letters hw
  have hf : arabicForm db {} word = normalizeArabic word := by
    rw [arabicForm, if_pos rfl, lower_arabic hdb hl]
  have hrun : IsRun (breaksArabicToken db) (normalizeArabic word) := by
    refine ⟨?_, fun c hc => ?_⟩
    · intro hnil
      rw [hnil, List.length_nil] at hle
      exact hne (List.eq_nil_of_length_eq_zero hle.symm)
    · rw [breaksArabicToken, hl c hc, Bool.true_or, Bool.not_true]
  rw [mem_tokenizeArabic_iff hf hrun, hle]

/-- The English tokenizer does not know the Arabic stop words. -/
theorem arabic_in_tokenizeEnglish (hw : word ∈ arabicStopWords) :
    token ∈ tokenizeEnglish db {} word ↔ token = word ∧ 2 ≤ word.length := by
  obtain ⟨hne, hl, -⟩ := arabicStopWords_letters hw
  have hf : englishForm db word = word := by
    rw [englishForm, lower_arabic hdb hl, List.filter_eq_self]
    intro c hc
    rw [isPunctuation_arabic (hl c hc), Bool.not_false]
  have hrun : IsRun isSpace word := by
    refine ⟨hne, fun c hc => ?_⟩
    by_contra hs
    have hb := isArabic_of_isSpace c ((Bool.not_eq_false _).mp hs)
    rw [hl c hc] at hb
    cases hb
  rw [mem_tokenizeEnglish_iff hf hrun]
  exact ⟨fun h => ⟨h.1, h.2.2⟩, fun h => ⟨h.1, not_mem_both hw, h.2⟩⟩

theorem english_in_tokenizeArabic (hw : word ∈ englishStopWords) :
    token ∈ tokenizeArabic db {} word ↔ token = word ∧ 2 ≤ word.length := by
  obtain ⟨hne, hl, hn⟩ := englishStopWords_letters hw
  have hf : arabicForm db {} word = word := by
    rw [arabicForm, if_pos rfl, hn, lower_english hdb hl]
  have hrun : IsRun (breaksArabicToken db) word := by
    refine ⟨hne, fun c hc => ?_⟩
    rw [breaksArabicToken, hdb.isWord_english c (hl c hc).1, Bool.or_true, Bool.not_true]
  rw [mem_tokenizeArabic_iff hf hrun]
  refine ⟨fun h => ⟨h.1, h.2.2⟩, fun h => ⟨h.1, fun ha => ?_, h.2⟩⟩
  exact not_mem_both ha hw

end Words

section Texts

variable {db : UnicodeDatabase} {text word : Text}

/-- No token is the word or its normal form. -/
def Dropped (db : UnicodeDatabase) (text word : Text) : Prop :=
  ∀ token ∈ tokenize db text, token ≠ word ∧ token ≠ normalizeArabic word

theorem length_of_mem_tokenizeAs {language : DetectedLanguage} {token : Text}
    (h : token ∈ tokenizeAs db {} language text) : 2 ≤ token.length := by
  have ha : token ∈ tokenizeArabic db {} text → 2 ≤ token.length :=
    fun hmem => (keepsToken_iff.mp (List.mem_filter.mp hmem).2).2
  have he : token ∈ tokenizeEnglish db {} text → 2 ≤ token.length :=
    fun hmem => (keepsToken_iff.mp (List.mem_filter.mp hmem).2).2
  cases language with
  | arabic => exact ha h
  | english => exact he h
  | mixed => exact ((mem_tokenizeAs_mixed (by decide) (by decide)).mp h).elim ha he
  | unknown => exact ((mem_tokenizeAs_mixed (by decide) (by decide)).mp h).elim ha he

theorem not_dropped {token : Text} (hw : word ∈ words text)
    (ht : token ∈ tokenizeAs db {} (detectLanguage text) word)
    (hs : token = word ∨ token = normalizeArabic word) : ¬ Dropped db text word := by
  intro hd
  have hmem : token ∈ tokenize db text :=
    mem_tokenize_iff.mpr (mem_tokenizeAs_iff.mpr ⟨word, hw, ht⟩)
  obtain ⟨hne, hne'⟩ := hd token hmem
  rcases hs with heq | heq
  · exact hne heq
  · exact hne' heq

theorem dropped_of_short (hle : (normalizeArabic word).length = word.length)
    (hs : word.length < 2) : Dropped db text word := by
  intro token ht
  have hl := length_of_mem_tokenizeAs (mem_tokenize_iff.mp ht)
  constructor
  · intro heq
    rw [heq] at hl
    omega
  · intro heq
    rw [heq, hle] at hl
    omega

/-- An Arabic stop word is dropped exactly when its normal form is listed. -/
theorem dropped_in_arabic (hdb : PlainLetters db) (hw : word ∈ words text)
    (hli : word ∈ arabicStopWords) (hlo : 2 ≤ word.length)
    (hl : detectLanguage text = .arabic) :
    Dropped db text word ↔ normalizeArabic word ∈ arabicStopWords := by
  constructor
  · intro hd
    by_contra hn
    have ht : normalizeArabic word ∈ tokenizeAs db {} (detectLanguage text) word := by
      rw [hl]
      exact (arabic_in_tokenizeArabic hdb hli).mpr ⟨rfl, hn, hlo⟩
    exact not_dropped hw ht (Or.inr rfl) hd
  · intro hn token ht
    rw [mem_tokenize_iff, hl] at ht
    have ho := (keepsToken_iff.mp (List.mem_filter.mp ht).2).1
    exact ⟨fun heq => ho (heq ▸ hli), fun heq => ho (heq ▸ hn)⟩

theorem dropped_in_english (hl : word ∈ englishStopWords)
    (hla : detectLanguage text = .english) : Dropped db text word := by
  intro token ht
  rw [mem_tokenize_iff, hla] at ht
  have ho := (keepsToken_iff.mp (List.mem_filter.mp ht).2).1
  obtain ⟨-, -, hn⟩ := englishStopWords_letters hl
  rw [hn]
  exact ⟨fun heq => ho (heq ▸ hl), fun heq => ho (heq ▸ hl)⟩

theorem not_dropped_in_mixed (hdb : PlainLetters db) (hw : word ∈ words text)
    (hli : word ∈ arabicStopWords ∨ word ∈ englishStopWords) (hlo : 2 ≤ word.length)
    (hl : detectLanguage text = .mixed) : ¬ Dropped db text word := by
  have ht : word ∈ tokenizeAs db {} (detectLanguage text) word := by
    rw [hl, mem_tokenizeAs_mixed (by decide) (by decide)]
    rcases hli with ha | he
    · exact Or.inr ((arabic_in_tokenizeEnglish hdb ha).mpr ⟨rfl, hlo⟩)
    · exact Or.inl ((english_in_tokenizeArabic hdb he).mpr ⟨rfl, hlo⟩)
  exact not_dropped hw ht (Or.inl rfl)

/-- A stop word is dropped exactly where it is a single letter, the text is English, or the text
is Arabic and the list holds the normal form of the word. -/
theorem dropped_iff (hdb : PlainLetters db) (hword : word ∈ words text)
    (hlisted : ListedIn word (detectLanguage text)) :
    Dropped db text word ↔ word.length < 2 ∨ detectLanguage text = .english ∨
      (detectLanguage text = .arabic ∧ normalizeArabic word ∈ arabicStopWords) := by
  have hle : (normalizeArabic word).length = word.length := by
    rcases hlisted with ⟨ha, -⟩ | ⟨he, -⟩
    · exact (arabicStopWords_letters ha).2.2.2
    · rw [(englishStopWords_letters he).2.2]
  by_cases hs : word.length < 2
  · exact iff_of_true (dropped_of_short hle hs) (Or.inl hs)
  have hlo : 2 ≤ word.length := not_lt.mp hs
  have hm : detectLanguage text = .mixed →
      (Dropped db text word ↔ word.length < 2 ∨ detectLanguage text = .english ∨
        (detectLanguage text = .arabic ∧ normalizeArabic word ∈ arabicStopWords)) := by
    intro hl
    have hei := hlisted.imp And.left And.left
    refine iff_of_false (not_dropped_in_mixed hdb hword hei hlo hl) ?_
    rw [hl]
    simp [hs]
  rcases hlisted with ⟨ha, hl | hl⟩ | ⟨he, hl | hl⟩
  · rw [dropped_in_arabic hdb hword ha hlo hl, hl]
    simp [hs]
  · exact hm hl
  · exact iff_of_true (dropped_in_english he hl) (Or.inr (Or.inl hl))
  · exact hm hl

end Texts

section Leak

def ila : Text := ofString "إلى"

def directions : Text := ofString "اذهب إلى المحطة"

theorem plainLetters_plainTables : PlainLetters plainTables where
  lower_plain _ _ := rfl
  isWord_english := by
    intro c hc
    simp [plainTables, hc]

theorem preposition_leaks : ila ∈ words directions ∧ ListedIn ila (detectLanguage directions) ∧
    ¬ Dropped plainTables directions ila := by
  have hw : ila ∈ words directions := by decide +kernel
  refine ⟨hw, Or.inl ⟨by decide +kernel, Or.inl (by decide +kernel)⟩, fun hd => ?_⟩
  have hmem : normalizeArabic ila ∈ tokenize plainTables directions := by decide +kernel
  exact (hd _ hmem).2 rfl

theorem dropped_iff_directions : Dropped plainTables directions ila ↔ ila.length < 2 ∨
    detectLanguage directions = .english ∨
      (detectLanguage directions = .arabic ∧ normalizeArabic ila ∈ arabicStopWords) := by
  apply dropped_iff plainLetters_plainTables
  · decide +kernel
  · exact Or.inl ⟨by decide +kernel, Or.inl (by decide +kernel)⟩

end Leak

end Aizzak.StopWords
