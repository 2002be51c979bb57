import Aizzak.PyText
import Aizzak.SeparatedRuns

/-!
The multilingual tokenizer behind the sparse leg of retrieval. The language of a text
is read off the share of Arabic letters in the whole of it; the Arabic tokenizer
normalises and collects word-character runs, the English one deletes punctuation and
splits on whitespace, and a mixed text goes through both. Each tokenizer works word by
word: its tokens of a text are its tokens of the whitespace-delimited words.
-/
namespace Aizzak.Tokenization

open PyText SeparatedRuns

inductive TokenizerType where
  | arabic
  | english
  | multilingual
deriving DecidableEq

inductive DetectedLanguage where
  | arabic
  | english
  | mixed
  | unknown
deriving DecidableEq

def arabicStopWords : List Text :=
  ["أقل", "أكثر", "أم", "أن", "أنا", "أنت", "أنتم", "أنتن", "أو", "أي", "أيضا", "أين", "إلا",
    "إلى", "إليه", "إليها", "إليهم", "إن", "التي", "الذي", "الذين", "اللاتي", "اللتان", "اللذان",
    "اللواتي", "ب", "بدون", "بعد", "بعض", "به", "بها", "بهم", "بين", "تحت", "ثم", "جدا", "حول",
    "حيث", "خلال", "ذات", "ذلك", "سوى", "ضد", "ضمن", "عبر", "على", "عليه", "عليها", "عن", "عند",
    "غير", "ف", "فوق", "في", "فيه", "فيها", "فيهم", "قبل", "قد", "قليل", "ك", "كان", "كثير",
    "كذلك", "كل", "كيف", "ل", "لا", "لدى", "لكن", "لماذا", "له", "لها", "لهم", "لهن", "ليس", "ما",
    "متى", "مثل", "مع", "من", "منه", "منها", "منهم", "نحن", "نحو", "نعم", "نفس", "هذا", "هذه",
    "هم", "هن", "هنا", "هناك", "هو", "هي", "و", "ولكن"].map ofString

def englishStopWords : List Text :=
  ["a", "all", "an", "and", "are", "as", "at", "be", "both", "but", "by", "can", "each", "every",
    "few", "for", "from", "had", "has", "have", "he", "how", "in", "is", "it", "its", "just",
    "more", "most", "no", "nor", "not", "now", "of", "on", "only", "other", "own", "same",
    "should", "so", "some", "such", "than", "that", "the", "they", "this", "to", "too", "very",
    "was", "what", "when", "where", "which", "who", "why", "will", "with"].map ofString

def isArabic (c : CodePoint) : Bool := 0x600 ≤ c.val && c.val ≤ 0x6FF

def isEnglish (c : CodePoint) : Bool :=
  (0x41 ≤ c.val && c.val ≤ 0x5A) || (0x61 ≤ c.val && c.val ≤ 0x7A)

def isPunctuation (c : CodePoint) : Bool :=
  (0x21 ≤ c.val && c.val ≤ 0x2F) || (0x3A ≤ c.val && c.val ≤ 0x40) ||
    (0x5B ≤ c.val && c.val ≤ 0x60) || (0x7B ≤ c.val && c.val ≤ 0x7E)

def isTashkeel (c : CodePoint) : Bool := (0x64B ≤ c.val && c.val ≤ 0x65F) || c.val == 0x670

def asciiLower (c : CodePoint) : CodePoint :=
  if 0x41 ≤ c.val ∧ c.val ≤ 0x5A then c + 0x20 else c

/-- The interpreter's Unicode tables behind `str.lower` and the class `\w`, with what the
documentation says of them where the tokenizers depend on it. Lower-casing looks at the
neighbours of a letter but never across whitespace. -/
structure UnicodeDatabase where
  lower : Text → Text
  isWord : CodePoint → Bool
  lower_spaces : KeepsSeparators isSpace lower
  lower_ascii : ∀ c : CodePoint, c.val < 0x80 → lower [c] = [asciiLower c]
  lower_arabic : ∀ c, isArabic c = true → lower [c] = [c]
  isWord_space : ∀ c, isSpace c = true → isWord c = false

def replaceAll (variants : List CodePoint) (target : CodePoint) (text : Text) : Text :=
  text.map fun c => if c ∈ variants then target else c

def normalizeArabic (text : Text) : Text :=
  let text := replaceAll [0x625, 0x623, 0x622, 0x627] 0x627 text
  let text := replaceAll [0x624, 0x626] 0x621 text
  let text := text.filter (!isTashkeel ·)
  let text := replaceAll [0x629] 0x647 text
  replaceAll [0x649] 0x64A text

def detectLanguage (text : Text) : DetectedLanguage :=
  let arabicChars := text.countP isArabic
  let englishChars := text.countP isEnglish
  let totalChars := arabicChars + englishChars
  if totalChars = 0 then .unknown
  else if 3 * totalChars < 5 * arabicChars then .arabic
  else if 10 * arabicChars < 3 * totalChars then .english
  else .mixed

structure TokenizeOptions where
  tokenizerType : TokenizerType := .multilingual
  removeStopwords : Bool := true
  normalize : Bool := true

def minTokenLen : ℕ := 2

def keepsToken (options : TokenizeOptions) (stopWords : List Text) (token : Text) : Bool :=
  (!options.removeStopwords || decide (token ∉ stopWords)) && decide (minTokenLen ≤ token.length)

def arabicForm (db : UnicodeDatabase) (options : TokenizeOptions) (text : Text) : Text :=
  db.lower (if options.normalize then normalizeArabic text else text)

def englishForm (db : UnicodeDatabase) (text : Text) : Text :=
  (db.lower text).filter (!isPunctuation ·)

def breaksArabicToken (db : UnicodeDatabase) (c : CodePoint) : Bool :=
  !(isArabic c || db.isWord c)

def tokenizeArabic (db : UnicodeDatabase) (options : TokenizeOptions) (text : Text) :
    List Text :=
  (runs (breaksArabicToken db) (arabicForm db options text)).filter
    (keepsToken options arabicStopWords)

def tokenizeEnglish (db : UnicodeDatabase) (options : TokenizeOptions) (text : Text) :
    List Text :=
  (runs isSpace (englishForm db text)).filter (keepsToken options englishStopWords)

def tokenizeAs (db : UnicodeDatabase) (options : TokenizeOptions) (language : DetectedLanguage)
    (text : Text) : List Text :=
  match language with
  | .arabic => tokenizeArabic db options text
  | .english => tokenizeEnglish db options text
  | .mixed | .unknown =>
    (tokenizeArabic db options text ++ tokenizeEnglish db options text).eraseDups

def tokenizeMultilingual (db : UnicodeDatabase) (options : TokenizeOptions) (text : Text) :
    List Text :=
  tokenizeAs db options (detectLanguage text) text

def tokenize (db : UnicodeDatabase) (text : Text) (options : TokenizeOptions := {}) :
    List Text :=
  if Blank text then []
  else match options.tokenizerType with
    | .arabic => tokenizeArabic db options text
    | .english => tokenizeEnglish db options text
    | .multilingual => tokenizeMultilingual db options text

def words (text : Text) : List Text := runs isSpace text

theorem keepsSeparators_replaceAll (variants : List CodePoint) (target : CodePoint)
    (h : variants.all (!isSpace ·) = true) :
    KeepsSeparators isSpace (replaceAll variants target) := by
  apply KeepsSeparators.map
  intro c hc
  rw [if_neg]
  intro hmem
  have hnot := List.all_eq_true.mp h c hmem
  simp [hc] at hnot

theorem isTashkeel_of_isSpace (c : CodePoint) (hc : isSpace c = true) : isTashkeel c = false := by
  simp only [isSpace, isSpaceCode, isTashkeel, Bool.or_eq_true, Bool.and_eq_true,
    decide_eq_true_eq, beq_iff_eq, Bool.or_eq_false_iff, Bool.and_eq_false_iff,
    decide_eq_false_iff_not, beq_eq_false_iff_ne] at *
  omega

theorem isPunctuation_of_isSpace (c : CodePoint) (hc : isSpace c = true) :
    isPunctuation c = false := by
  simp only [isSpace, isSpaceCode, isPunctuation, Bool.or_eq_true, Bool.and_eq_true,
    decide_eq_true_eq, beq_iff_eq, Bool.or_eq_false_iff, Bool.and_eq_false_iff,
    decide_eq_false_iff_not] at *
  omega

theorem isArabic_of_isSpace (c : CodePoint) (hc : isSpace c = true) : isArabic c = false := by
  simp only [isSpace, isSpaceCode, isArabic, Bool.or_eq_true, Bool.and_eq_true,
    decide_eq_true_eq, beq_iff_eq, Bool.and_eq_false_iff, decide_eq_false_iff_not] at *
  omega

theorem keepsSeparators_normalizeArabic : KeepsSeparators isSpace normalizeArabic := by
  have ha := keepsSeparators_replaceAll [0x625, 0x623, 0x622, 0x627] 0x627 (by decide)
  have hh := keepsSeparators_replaceAll [0x624, 0x626] 0x621 (by decide)
  have ht : KeepsSeparators isSpace (List.filter (!isTashkeel ·)) := by
    apply KeepsSeparators.filter
    intro c hc
    simp [isTashkeel_of_isSpace c hc]
  have hteh := keepsSeparators_replaceAll [0x629] 0x647 (by decide)
  have hm := keepsSeparators_replaceAll [0x649] 0x64A (by decide)
  exact hm.comp (hteh.comp (ht.comp (hh.comp ha)))

theorem keepsSeparators_arabicForm (db : UnicodeDatabase) (options : TokenizeOptions) :
    KeepsSeparators isSpace (arabicForm db options) := by
  cases hn : options.normalize with
  | true =>
    have hf : arabicForm db options = db.lower ∘ normalizeArabic := by
      funext text
      simp [arabicForm, hn]
    rw [hf]
    exact db.lower_spaces.comp keepsSeparators_normalizeArabic
  | false =>
    have hf : arabicForm db options = db.lower := by
      funext text
      simp [arabicForm, hn]
    rw [hf]
    exact db.lower_spaces

theorem keepsSeparators_englishForm (db : UnicodeDatabase) :
    KeepsSeparators isSpace (englishForm db) := by
  have hf : KeepsSeparators isSpace (List.filter (!isPunctuation ·)) := by
    apply KeepsSeparators.filter
    intro c hc
    simp [isPunctuation_of_isSpace c hc]
  exact hf.comp db.lower_spaces

theorem tokenizeArabic_eq_flatMap (db : UnicodeDatabase) (options : TokenizeOptions)
    (text : Text) :
    tokenizeArabic db options text = (words text).flatMap (tokenizeArabic db options) := by
  have hb : ∀ c, isSpace c = true → breaksArabicToken db c = true := by
    intro c hc
    simp [breaksArabicToken, isArabic_of_isSpace c hc, db.isWord_space c hc]
  unfold tokenizeArabic
  rw [(keepsSeparators_arabicForm db options).runs_eq_flatMap hb, List.filter_flatMap]
  rfl

theorem tokenizeEnglish_eq_flatMap (db : UnicodeDatabase) (options : TokenizeOptions)
    (text : Text) :
    tokenizeEnglish db options text = (words text).flatMap (tokenizeEnglish db options) := by
  unfold tokenizeEnglish
  rw [(keepsSeparators_englishForm db).runs_eq_flatMap (fun _ hc => hc), List.filter_flatMap]
  rfl

variable {db : UnicodeDatabase} {text token : Text}

theorem mem_tokenizeAs_mixed {options : TokenizeOptions} {language : DetectedLanguage}
    (ha : language ≠ .arabic) (he : language ≠ .english) :
    token ∈ tokenizeAs db options language text ↔
      token ∈ tokenizeArabic db options text ∨ token ∈ tokenizeEnglish db options text := by
  cases language with
  | arabic => exact absurd rfl ha
  | english => exact absurd rfl he
  | mixed => simp [tokenizeAs]
  | unknown => simp [tokenizeAs]

/-- A text is tokenized word by word. -/
theorem mem_tokenizeAs_iff {options : TokenizeOptions} {language : DetectedLanguage} :
    token ∈ tokenizeAs db options language text ↔
      ∃ word ∈ words text, token ∈ tokenizeAs db options language word := by
  have har : token ∈ tokenizeArabic db options text ↔
      ∃ word ∈ words text, token ∈ tokenizeArabic db options word := by
    rw [tokenizeArabic_eq_flatMap, List.mem_flatMap]
  have hen : token ∈ tokenizeEnglish db options text ↔
      ∃ word ∈ words text, token ∈ tokenizeEnglish db options word := by
    rw [tokenizeEnglish_eq_flatMap, List.mem_flatMap]
  by_cases ha : language = .arabic
  · subst ha
    exact har
  by_cases he : language = .english
  · subst he
    exact hen
  simp only [mem_tokenizeAs_mixed ha he, har, hen]
  grind

theorem words_of_blank (h : Blank text) : words text = [] := by
  induction text with
  | nil => rfl
  | cons c text ih =>
    have hs := runs_append_cons (h c (by simp)) [] text
    rw [runs_nil, List.nil_append, List.nil_append] at hs
    rw [words, hs]
    exact ih fun d hd => h d (by simp [hd])

/-- By default a text goes to the tokenizer of its own language; the early return for a
blank text changes nothing. -/
theorem mem_tokenize_iff :
    token ∈ tokenize db text ↔ token ∈ tokenizeAs db {} (detectLanguage text) text := by
  unfold tokenize
  split_ifs with hb
  · rw [mem_tokenizeAs_iff, words_of_blank hb]
    simp
  · rfl

end Aizzak.Tokenization
