import Aizzak.IntText
import Aizzak.SemanticCuts

/-!
File names and queries in one form: lower case, Arabic letters unified, a known extension
at the end dropped, separators taken as spaces, and the article taken off long words. A
query that holds a file name between whitespace holds the words of the name's form, since
an extension goes from the query only where it goes from the name.
-/
namespace Aizzak.FileNames

open PyText SemanticCuts SeparatedRuns Tokenization List

def extensions : List Text :=
  ["pdf", "doc", "docx", "xls", "xlsx", "csv", "json", "txt", "ppt", "pptx", "md", "htm",
    "html"].map ofString

def matchesLetter (letter c : CodePoint) : Bool :=
  asciiLower c == letter || (letter.val == 0x73 && c.val == 0x17F)

def matchesExtension (text : Text) : Bool :=
  extensions.any fun extension =>
    decide (text.length = extension.length) && (extension.zip text).all fun (letter, c) =>
      matchesLetter letter c

def afterExtension : Text → Option Text
  | [] => none
  | c :: rest =>
    if c.val ≠ 0x2E then none
    else if matchesExtension rest then some []
    else if rest.getLast?.any isNewline && matchesExtension rest.dropLast then
      some [⟨0x0A, lineFeed_lt⟩]
    else none

def dropExtension : Text → Text
  | [] => []
  | c :: rest =>
    match afterExtension (c :: rest) with
    | some left => left
    | none => c :: dropExtension rest

def isSeparator (c : CodePoint) : Bool :=
  c.val == 0x5F || c.val == 0x2D || c.val == 0x2E || c.val == 0x2F || c.val == 0x5C

def collapse (p : CodePoint → Bool) : Bool → Text → Text
  | _, [] => []
  | inside, c :: rest =>
    if p c then (if inside then [] else [⟨0x20, space_lt⟩]) ++ collapse p true rest
    else c :: collapse p false rest

def articleStripMinLength : ℕ := 4

def definiteArticle : Text := [0x627, 0x644]

def stripDefiniteArticle (token : Text) : Text :=
  if articleStripMinLength < token.length ∧ definiteArticle <+: token then
    token.drop definiteArticle.length
  else token

def requestWords : List Text :=
  ["لخص", "تلخيص", "ملخص", "ملخصا", "خلاصه", "نبذه", "لمحه", "فكره", "اعطني", "اعرض", "ما", "هو",
    "هي", "هذا", "هذه", "الذي", "محتوي", "محتوى", "ماذا", "يحتوي", "يوجد", "عن", "في", "تكلم",
    "تحدث", "احكي", "اخبرني", "وش", "ايش", "ايه", "فيه", "لي", "ملف", "مستند", "كتاب", "كتب",
    "مرجع", "مراجع", "الملف", "المستند", "الكتاب", "summarize", "summarise", "summary",
    "overview", "brief", "gist", "tldr", "the", "file", "document", "of", "about", "what", "is",
    "in", "tell", "me", "give"].map ofString

section Names

variable (db : UnicodeDatabase)

def form (text : Text) : Text := db.lower (normalizeArabic text)

def normName (text : Text) : Text :=
  let normalized := collapse isSeparator false (dropExtension (form db text))
  let normalized := strip (collapse isSpace false normalized)
  joinSpace ((words normalized).map stripDefiniteArticle)

def queryCore (query : Text) : Text :=
  let normalized := normName db query
  let core := strip (joinSpace ((words normalized).filter (· ∉ requestWords)))
  if core.isEmpty then normalized else core

def ordinals : List (Text × ℕ) :=
  ([("اول", 1), ("اولي", 1), ("first", 1), ("ثاني", 2), ("ثانيه", 2), ("second", 2),
    ("ثالث", 3), ("ثالثه", 3), ("third", 3), ("رابع", 4), ("رابعه", 4), ("fourth", 4),
    ("خامس", 5), ("خامسه", 5), ("fifth", 5)] : List (String × ℕ)).map
    fun (word, position) => (ofString word, position)

def ordinalCompanions : List Text := ["one", "option", "choice", "رقم", "خيار"].map ofString

structure IntTooLong where
  digits : ℕ
deriving DecidableEq

def positionOf (token : Text) : Except IntTooLong (Option ℕ) :=
  match ordinals.lookup token with
  | some position => .ok (some position)
  | none =>
    if !token.isEmpty && token.all fun c => (digit c).isSome then
      if IntText.maxStrDigits < token.length then .error ⟨token.length⟩
      else .ok (some (number token))
    else .ok none

def positionsOf : List Text → Except IntTooLong (Option (List ℕ))
  | [] => .ok (some [])
  | token :: tokens => do
    match ← positionOf token with
    | some position => return (← positionsOf tokens).map (position :: ·)
    | none => if token ∈ ordinalCompanions then positionsOf tokens else return none

def readOrdinal (reply : Text) (count : ℤ) : Except IntTooLong (Option ℕ) :=
  if count ≤ 0 then .ok none
  else (positionsOf (words (queryCore db reply))).map fun positions =>
    match positions.map List.eraseDups with
    | some [position] => if 1 ≤ position ∧ position ≤ count then some position else none
    | _ => none

end Names

theorem readOrdinal_range {db : UnicodeDatabase} {reply : Text} {count : ℤ} {position : ℕ}
    (h : readOrdinal db reply count = .ok (some position)) : 1 ≤ position ∧ position ≤ count := by
  rw [readOrdinal] at h
  split_ifs at h with hc
  · cases h
  cases hp : positionsOf (words (queryCore db reply)) with
  | error e =>
    rw [hp] at h
    cases h
  | ok positions =>
    rw [hp] at h
    simp only [Except.map, Except.ok.injEq] at h
    split at h
    · split_ifs at h with hr
      cases h
      exact hr
    · cases h

def breaks (c : CodePoint) : Bool := isSpace c || isSeparator c

section Runs

variable {sep : CodePoint → Bool}

end Runs

section Extension

variable {tail : Text}

variable {dotted : Text}

end Extension

variable {before middle after : Text}

section Delimited

variable {f : Text → Text} (hf : KeepsSeparators isSpace f)
include hf

end Delimited

end Aizzak.FileNames
