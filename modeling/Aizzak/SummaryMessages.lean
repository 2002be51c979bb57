import Aizzak.PyText
import Aizzak.SummaryJobs

/-!
What a thread is told about a summary it asked for: the text that was built, under the name of
its file and over a notice when it covers only the beginning; or that the build failed, with the
reason where the reason was written for the reader. None of it is blank.
-/
namespace Aizzak.SummaryMessages

open PyText SummaryJobs

/-- A stored summary. Its text is what a provider answered, which is refused when empty. -/
structure Summary where
  lang : SummaryLanguage
  text : Text
  truncated : Bool
  htext : ¬ Blank text

def truncatedNoticeEn : Text :=
  ofString ("Note: this document is longer than one summary can read. " ++
    "The text above covers its beginning, not the whole file.")

def truncatedNoticeAr : Text :=
  ofString
    "تنبيه: هذا المستند أطول من أن يُقرأ كاملًا في ملخّصٍ واحد، وما سبق يغطّي أوّله لا الملفّ كلّه."

def deliveryHeaderEn (name : Text) : Text := ofString "Summary of \"" ++ name ++ ofString "\":"

def deliveryHeaderAr (name : Text) : Text := ofString "ملخّص «" ++ name ++ ofString "»:"

def failureNoticeEn : Text := ofString "The summary could not be prepared"

def failureNoticeAr : Text := ofString "تعذّر إعدادُ الملخّص"

def failureNoticeNamedEn (name : Text) : Text :=
  ofString "The summary of \"" ++ name ++ ofString "\" could not be prepared"

def failureNoticeNamedAr (name : Text) : Text :=
  ofString "تعذّر إعدادُ ملخّص «" ++ name ++ ofString "»"

def failureRetryEn : Text := ofString "You can ask for it again."

def failureRetryAr : Text := ofString "يمكنك طلبُه مرّةً أخرى."

def deliverableReasons : List Text :=
  ["this document has no indexed text to summarise",
    summaryCancelledReason,
    summaryAbandonedReason,
    "the summary build produced no text",
    "this workspace has used its token allowance for this period",
    "this workspace has reached its spending budget for this period"].map ofString

def isArabic (c : CodePoint) : Bool := 0x600 ≤ c.val && c.val ≤ 0x6FF

section Texts

variable (isAlpha : CodePoint → Bool)

def detectsArabic (text : Text) : Bool :=
  let letters := text.filter isAlpha
  letters ≠ [] && letters.length < letters.countP isArabic * 2

def isRtl (summary : Summary) : Bool :=
  match summary.lang with
  | .ar => true
  | .en => false
  | .auto => detectsArabic isAlpha summary.text

def deliveredSummaryBody (summary : Summary) : Text :=
  if summary.truncated then
    summary.text ++ ofString "\n\n" ++
      (if isRtl isAlpha summary then truncatedNoticeAr else truncatedNoticeEn)
  else summary.text

def deliveredSummaryText (summary : Summary) (fileName : Option Text) : Text :=
  match fileName with
  | none => deliveredSummaryBody isAlpha summary
  | some name =>
    if Blank name then deliveredSummaryBody isAlpha summary
    else
      (if isRtl isAlpha summary then deliveryHeaderAr (strip name)
        else deliveryHeaderEn (strip name)) ++
        ofString "\n\n" ++ deliveredSummaryBody isAlpha summary

def failureNotice (arabic : Bool) : Option Text → Text
  | none => if arabic then failureNoticeAr else failureNoticeEn
  | some name =>
    if Blank name then if arabic then failureNoticeAr else failureNoticeEn
    else if arabic then failureNoticeNamedAr (strip name) else failureNoticeNamedEn (strip name)

def deliveredFailureText (reason : Text) (fileName : Option Text) : Text :=
  if reason ∈ deliverableReasons then
    failureNotice (detectsArabic isAlpha reason) fileName ++ ofString ": " ++ reason ++ ofString "."
  else
    let arabic := detectsArabic isAlpha (fileName.getD [])
    failureNotice arabic fileName ++ ofString ". " ++
      (if arabic then failureRetryAr else failureRetryEn)

variable {isAlpha}

theorem not_blank_append_left {s t : Text} (h : ¬ Blank s) : ¬ Blank (s ++ t) :=
  fun hb => h fun c hc => hb c (List.mem_append_left _ hc)

theorem not_blank_append_right {s t : Text} (h : ¬ Blank t) : ¬ Blank (s ++ t) :=
  fun hb => h fun c hc => hb c (List.mem_append_right _ hc)

theorem deliveredSummaryBody_not_blank (summary : Summary) :
    ¬ Blank (deliveredSummaryBody isAlpha summary) := by
  unfold deliveredSummaryBody
  split
  · exact not_blank_append_left (not_blank_append_left summary.htext)
  · exact summary.htext

theorem deliveredSummaryText_not_blank (summary : Summary) (fileName : Option Text) :
    ¬ Blank (deliveredSummaryText isAlpha summary fileName) := by
  unfold deliveredSummaryText
  split
  · exact deliveredSummaryBody_not_blank summary
  · split
    · exact deliveredSummaryBody_not_blank summary
    · exact not_blank_append_right (deliveredSummaryBody_not_blank summary)

theorem failureNotice_not_blank (arabic : Bool) (fileName : Option Text) :
    ¬ Blank (failureNotice arabic fileName) := by
  have hen : ¬ Blank failureNoticeEn := by decide +kernel
  have har : ¬ Blank failureNoticeAr := by decide +kernel
  have hp : ¬ Blank (if arabic then failureNoticeAr else failureNoticeEn) := by
    cases arabic
    · exact hen
    · exact har
  unfold failureNotice
  split
  · exact hp
  · rename_i name
    split
    · exact hp
    · cases arabic
      · have hh : ¬ Blank (ofString "The summary of \"") := by decide +kernel
        exact not_blank_append_left (not_blank_append_left hh)
      · have hh : ¬ Blank (ofString "تعذّر إعدادُ ملخّص «") := by decide +kernel
        exact not_blank_append_left (not_blank_append_left hh)

theorem deliveredFailureText_not_blank (reason : Text) (fileName : Option Text) :
    ¬ Blank (deliveredFailureText isAlpha reason fileName) := by
  unfold deliveredFailureText
  split
  · exact not_blank_append_left (not_blank_append_left
      (not_blank_append_left (failureNotice_not_blank _ _)))
  · exact not_blank_append_left (not_blank_append_left (failureNotice_not_blank _ _))

end Texts

end Aizzak.SummaryMessages
