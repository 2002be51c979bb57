import Aizzak.Tokenization

/-!
The running header and footer of a PDF. Each page shows how deep its furniture reaches in from an
edge: lines that repeat on a quorum of pages, up to the last one with a gap behind it. The cut of
the document is the deepest that a quorum of pages reach, and it is redacted on all of them. The
gap spares the body of the pages that reach the cut; nothing spares that of the others.
Coordinates are exact rationals.
-/
namespace Aizzak.RunningBands

open PyText
open Tokenization (words)

section Ranks

variable {α : Type*} {r : α → α → Prop} {p : α → Bool} {l : List α}

/-- What holds of an element of a sorted list and of all before it holds at a position when it
holds of more elements than come before that position. -/
theorem sorted_getElem_iff (hs : l.Pairwise r) (hp : ∀ a b, r a b → p b = true → p a = true)
    {k : ℕ} (hk : k < l.length) : p l[k] = true ↔ k < l.countP p := by
  induction l generalizing k with
  | nil => exact absurd hk (Nat.not_lt_zero k)
  | cons a l ih =>
    obtain ⟨ha, hl⟩ := List.pairwise_cons.mp hs
    cases hpa : p a with
    | true =>
      rw [List.countP_cons_of_pos hpa]
      cases k with
      | zero => exact iff_of_true hpa (Nat.succ_pos _)
      | succ k =>
        rw [List.getElem_cons_succ, ih hl (Nat.lt_of_succ_lt_succ hk), Nat.succ_lt_succ_iff]
    | false =>
      have hn : ∀ b ∈ a :: l, ¬ p b = true := by
        intro b hb hpb
        rcases List.mem_cons.mp hb with rfl | hmem
        · rw [hpa] at hpb
          cases hpb
        · rw [hp a b (ha b hmem) hpb] at hpa
          cases hpa
      rw [List.countP_eq_zero.mpr hn]
      exact iff_of_false (hn _ (List.getElem_mem hk)) (Nat.not_lt_zero k)

theorem insertionSort_getElem_iff [DecidableRel r] [Std.Total r] [IsTrans α r]
    (hp : ∀ a b, r a b → p b = true → p a = true) {k : ℕ} (hk : k < (l.insertionSort r).length) :
    p (l.insertionSort r)[k] = true ↔ k < l.countP p := by
  rw [sorted_getElem_iff (List.pairwise_insertionSort r l) hp hk,
    (List.perm_insertionSort r l).countP_eq]

end Ranks

structure Line where
  y0 : ℚ
  y1 : ℚ
  text : Text
deriving DecidableEq

structure Page where
  width : ℚ
  height : ℚ
  lines : List Line
  height_nonneg : 0 ≤ height
  inside : ∀ line ∈ lines, 0 ≤ line.y0 ∧ line.y0 ≤ line.y1 ∧ line.y1 ≤ height

def bandMinPages : ℕ := 3

def bandMaxFraction : ℚ := 15 / 100

def bandMinGapPt : ℚ := 10

def pageSizeTolerancePt : ℚ := 1

def foldDigits (inRun : Bool) : Text → Text
  | [] => []
  | c :: text =>
    if (digit c).isSome then
      if inRun then foldDigits true text else ofString "#" ++ foldDigits true text
    else c :: foldDigits false text

def bandSignature (lower : Text → Text) (text : Text) : Text :=
  lower (foldDigits false (List.intercalate (ofString " ") (words text)))

def Line.le (a b : Line) : Prop :=
  a.y0 < b.y0 ∨ a.y0 = b.y0 ∧ (a.y1 < b.y1 ∨ a.y1 = b.y1 ∧ a.text ≤ b.text)

instance : DecidableRel Line.le := fun _ _ => instDecidableOr

def pageLines (page : Page) : List Line :=
  (page.lines.filter fun line => ¬ Blank line.text).insertionSort Line.le

section Cut

variable (running : Text → Bool)

/-- The walk in from an edge, with the cut found so far; the last line of the page ends nothing. -/
def edgeLoop (inside : ℚ → Bool) : List Line → Option ℚ → Option ℚ
  | line :: next :: rest, cut =>
    if !inside line.y1 || !running line.text then cut
    else edgeLoop inside (next :: rest)
      (if bandMinGapPt ≤ next.y0 - line.y1 then some line.y1 else cut)
  | _, cut => cut

def edgeCut (lines : List Line) (limit : ℚ) (fromTop : Bool) : Option ℚ :=
  let ordered := if fromTop then lines
    else lines.reverse.map fun line => ⟨-line.y1, -line.y0, line.text⟩
  let bound := if fromTop then limit else -limit
  edgeLoop running (fun y1 => if fromTop then y1 ≤ bound else y1 ≤ -bound) ordered none

end Cut

section Band

variable (lower : Text → Text) (pages : List Page)

def height : ℚ := (pages.head?.map Page.height).getD 0

def topLimit : ℚ := height pages * bandMaxFraction

def bottomLimit : ℚ := height pages * (1 - bandMaxFraction)

def quorum : ℕ := max 2 (pages.length / 2)

def marginSignatures (page : Page) : List Text :=
  ((pageLines page).filter fun line => line.y1 ≤ topLimit pages ∨ bottomLimit pages ≤ line.y0).map
    fun line => bandSignature lower line.text

def running : List Text :=
  ((pages.flatMap (marginSignatures lower pages)).dedup).filter fun key =>
    quorum pages ≤ pages.countP fun page => key ∈ marginSignatures lower pages page

def isRunning (text : Text) : Bool := bandSignature lower text ∈ running lower pages

/-- How deep the furniture of a page reaches in from the top; 0 if there is none. -/
def headerCut (page : Page) : ℚ :=
  (edgeCut (isRunning lower pages) (pageLines page) (topLimit pages) true).getD 0

def footerCut (page : Page) : ℚ :=
  match edgeCut (isRunning lower pages) (pageLines page) (bottomLimit pages) false with
  | some cut => if cut = 0 then height pages else -cut
  | none => height pages

def mixedSizes : Bool :=
  match pages with
  | [] => false
  | first :: _ => pages.any fun page => pageSizeTolerancePt < |page.width - first.width| ∨
      pageSizeTolerancePt < |page.height - first.height|

def runningBand : Option (ℚ × ℚ) :=
  if pages.length < bandMinPages ∨ mixedSizes pages ∨ (running lower pages).isEmpty then none
  else
    let headers := (pages.map (headerCut lower pages)).insertionSort (· ≥ ·)
    let footers := (pages.map (footerCut lower pages)).insertionSort (· ≤ ·)
    let header := headers.getD (quorum pages - 1) 0
    let footer := footers.getD (quorum pages - 1) 0
    if header ≤ 0 ∧ height pages ≤ footer then none else some (header, footer)

/-- A line of the page meets one of the rectangles that `_without_running_band` redacts. -/
def Redacts (band : ℚ × ℚ) (page : Page) (line : Line) : Prop :=
  0 < band.1 ∧ line.y0 ≤ band.1 ∨ band.2 < page.height ∧ band.2 ≤ line.y1

instance decidableRedacts (band : ℚ × ℚ) (page : Page) (line : Line) :
    Decidable (Redacts band page line) := instDecidableOr

/-- The cuts stay in the margins and touch no line but the running ones. -/
def SparesBody (band : ℚ × ℚ) : Prop :=
  band.1 ≤ topLimit pages ∧ bottomLimit pages ≤ band.2 ∧
    ∀ page ∈ pages, ∀ line ∈ pageLines page, isRunning lower pages line.text = false →
      ¬ Redacts band page line

instance decidableSparesBody (band : ℚ × ℚ) : Decidable (SparesBody lower pages band) :=
  instDecidableAnd

/-- The first lines of the page are running ones in the top margin, the last of which ends at `c`
with a gap below it. -/
def HeaderEnds (page : Page) (c : ℚ) : Prop :=
  ∃ front line next rest, pageLines page = front ++ line :: next :: rest ∧
    (∀ other ∈ line :: front, isRunning lower pages other.text = true ∧
      other.y1 ≤ topLimit pages) ∧ line.y1 = c ∧ c + bandMinGapPt ≤ next.y0

/-- The last lines of the page are running ones, the first of which begins at `c` with a gap above
it. -/
def FooterBegins (page : Page) (c : ℚ) : Prop :=
  ∃ front line next rest, (pageLines page).reverse = front ++ line :: next :: rest ∧
    (∀ other ∈ line :: front, isRunning lower pages other.text = true) ∧
    line.y0 = c ∧ next.y1 + bandMinGapPt ≤ c

def HeaderReaches (y : ℚ) (page : Page) : Prop := ∃ c, y ≤ c ∧ HeaderEnds lower pages page c

def FooterReaches (y : ℚ) (page : Page) : Prop := ∃ c, c ≤ y ∧ FooterBegins lower pages page c

def QuorumOf (p : Page → Prop) : Prop :=
  ∃ group, List.Sublist group pages ∧ quorum pages ≤ group.length ∧ ∀ page ∈ group, p page

/-- The line begins above another one and ends below it. -/
def Overhangs (page : Page) (line : Line) : Prop :=
  ∃ other ∈ pageLines page, line.y0 ≤ other.y0 ∧ other.y1 < line.y1

/-- No quorum has footers from above the bottom margin on, and what a quorum has of header or
footer is clear of body lines on the pages that have less of it. Under a line that another one
overhangs the gap tells nothing. -/
structure BandClear : Prop where
  margin : ¬ QuorumOf pages fun page =>
    ∃ c, c < bottomLimit pages ∧ FooterBegins lower pages page c
  headers : ∀ page ∈ pages, ∀ y, 0 < y → QuorumOf pages (HeaderReaches lower pages y) →
    ¬ HeaderReaches lower pages y page →
      ∀ line ∈ pageLines page, isRunning lower pages line.text = false → y < line.y0
  footers : ∀ page ∈ pages, ∀ y, y < height pages → QuorumOf pages (FooterReaches lower pages y) →
    ∀ line ∈ pageLines page, isRunning lower pages line.text = false →
      ¬ FooterReaches lower pages y page ∨ Overhangs page line → line.y1 < y

end Band

section Spared

variable {lower : Text → Text} {pages : List Page} {band : ℚ × ℚ}

theorem edgeLoop_le {running : Text → Bool} {limit c : ℚ} {lines : List Line} {cut : Option ℚ}
    (hcut : ∀ c ∈ cut, c ≤ limit)
    (h : edgeLoop running (fun y1 => y1 ≤ limit) lines cut = some c) : c ≤ limit := by
  induction lines generalizing cut with
  | nil => exact hcut c h
  | cons line rest ih =>
    cases rest with
    | nil => exact hcut c h
    | cons next rest =>
      rw [edgeLoop] at h
      split_ifs at h with hs hgap
      · exact hcut c h
      · refine ih (fun c hc => ?_) h
        cases hc
        by_contra hout
        simp [hout] at hs
      · exact ih hcut h

theorem topLimit_nonneg : 0 ≤ topLimit pages := by
  unfold topLimit height bandMaxFraction
  cases pages with
  | nil => simp
  | cons page pages =>
    have hh := page.height_nonneg
    simp only [List.head?_cons, Option.map_some, Option.getD_some]
    linarith

theorem headerCut_le (page : Page) : headerCut lower pages page ≤ topLimit pages := by
  unfold headerCut
  cases hcut : edgeCut (isRunning lower pages) (pageLines page) (topLimit pages) true with
  | none => exact topLimit_nonneg
  | some c =>
    have hl : edgeLoop (isRunning lower pages) (fun y1 => y1 ≤ topLimit pages)
        (pageLines page) none = some c := by
      simpa [edgeCut] using hcut
    have hle : c ≤ topLimit pages := edgeLoop_le (fun c hc => by cases hc) hl
    exact hle

theorem quorum_le (h : ¬ pages.length < bandMinPages) :
    0 < quorum pages ∧ quorum pages - 1 < pages.length := by
  unfold quorum bandMinPages at *
  omega

/-- The cut that a quorum of pages support satisfies what a quorum of their cuts satisfy, if that
passes on to the cuts sorted before. -/
theorem supported_iff {f : Page → ℚ} {r : ℚ → ℚ → Prop} [DecidableRel r] [Std.Total r]
    [IsTrans ℚ r] {p : ℚ → Bool} (hp : ∀ a b, r a b → p b = true → p a = true)
    (h : ¬ pages.length < bandMinPages) :
    p (((pages.map f).insertionSort r).getD (quorum pages - 1) 0) = true ↔
      quorum pages ≤ pages.countP fun page => p (f page) := by
  obtain ⟨hpos, hlt⟩ := quorum_le h
  have hk : quorum pages - 1 < ((pages.map f).insertionSort r).length := by
    rwa [List.length_insertionSort, List.length_map]
  rw [List.getD_eq_getElem?_getD, List.getElem?_eq_getElem hk, Option.getD_some,
    insertionSort_getElem_iff hp hk, List.countP_map]
  change quorum pages - 1 < pages.countP (fun page => p (f page)) ↔ _
  omega

theorem runningBand_eq_some (h : runningBand lower pages = some band) :
    ¬ pages.length < bandMinPages ∧
      band.1 = ((pages.map (headerCut lower pages)).insertionSort (· ≥ ·)).getD
        (quorum pages - 1) 0 ∧
      band.2 = ((pages.map (footerCut lower pages)).insertionSort (· ≤ ·)).getD
        (quorum pages - 1) 0 := by
  simp only [runningBand] at h
  split_ifs at h with hno hn
  cases h
  exact ⟨fun hlt => hno (.inl hlt), rfl, rfl⟩

section Walk

variable {isRun : Text → Bool} {inside : ℚ → Bool} {lines : List Line} {c : ℚ}

def Ends (isRun : Text → Bool) (inside : ℚ → Bool) (lines : List Line) (c : ℚ) : Prop :=
  ∃ front line next rest, lines = front ++ line :: next :: rest ∧
    (∀ other ∈ line :: front, isRun other.text = true ∧ inside other.y1 = true) ∧
    line.y1 = c ∧ c + bandMinGapPt ≤ next.y0

theorem ends_cons_iff {line next : Line} {rest : List Line} :
    Ends isRun inside (line :: next :: rest) c ↔
      (isRun line.text = true ∧ inside line.y1 = true) ∧
        (line.y1 = c ∧ c + bandMinGapPt ≤ next.y0 ∨ Ends isRun inside (next :: rest) c) := by
  constructor
  · rintro ⟨front, last, after, others, heq, hall, hc, hgap⟩
    cases front with
    | nil =>
      obtain ⟨rfl, rfl, rfl⟩ : line = last ∧ next = after ∧ rest = others := by simpa using heq
      exact ⟨hall line List.mem_cons_self, .inl ⟨hc, hgap⟩⟩
    | cons first front =>
      obtain ⟨rfl, hre⟩ := List.cons.inj heq
      refine ⟨hall line (by simp), .inr ⟨front, last, after, others, hre, ?_, hc, hgap⟩⟩
      exact fun other ho => hall other (by
        rcases List.mem_cons.mp ho with rfl | ho
        · simp
        · simp [ho])
  · rintro ⟨hli, ⟨hc, hgap⟩ | ⟨front, last, after, others, heq, hall, hc, hgap⟩⟩
    · exact ⟨[], line, next, rest, rfl, by simpa using hli, hc, hgap⟩
    · refine ⟨line :: front, last, after, others, by rw [heq, List.cons_append],
        fun other ho => ?_, hc, hgap⟩
      rcases List.mem_cons.mp ho with rfl | ho
      · exact hall other List.mem_cons_self
      · rcases List.mem_cons.mp ho with rfl | ho
        · exact hli
        · exact hall other (List.mem_cons_of_mem _ ho)

theorem enters {line : Line} (hs : ¬(!inside line.y1 || !isRun line.text) = true) :
    isRun line.text = true ∧ inside line.y1 = true := by
  simpa [and_comm] using hs

/-- A cut ends the furniture. -/
theorem ends_of_edgeLoop {cut : Option ℚ} (h : edgeLoop isRun inside lines cut = some c) :
    cut = some c ∨ Ends isRun inside lines c := by
  induction lines generalizing cut with
  | nil => exact .inl h
  | cons line rest ih =>
    cases rest with
    | nil => exact .inl h
    | cons next rest =>
      rw [edgeLoop] at h
      split_ifs at h with hs hgap
      · exact .inl h
      · have hli := enters hs
        rcases ih h with hc | he
        · cases hc
          exact .inr (ends_cons_iff.mpr ⟨hli, .inl ⟨rfl, by linarith⟩⟩)
        · exact .inr (ends_cons_iff.mpr ⟨hli, .inr he⟩)
      · have hli := enters hs
        exact (ih h).imp_right fun he => ends_cons_iff.mpr ⟨hli, .inr he⟩

def Ordered (lines : List Line) : Prop :=
  (∀ line ∈ lines, line.y0 ≤ line.y1) ∧
    lines.Pairwise fun line next => line.y0 ≤ next.y0 ∨ line.y1 ≤ next.y1

/-- Of two ends of the furniture the later one reaches deeper, so the walk finds the deepest. -/
theorem edgeLoop_of_ends (cut : Option ℚ) (ho : Ordered lines)
    (h : Ends isRun inside lines c ∨
      cut = some c ∧ ∀ d, Ends isRun inside lines d → c ≤ d) :
    ∃ d, edgeLoop isRun inside lines cut = some d ∧ c ≤ d := by
  induction lines generalizing cut c with
  | nil =>
    rcases h with ⟨front, line, next, rest, heq, -⟩ | ⟨rfl, -⟩
    · simp at heq
    · exact ⟨c, rfl, le_rfl⟩
  | cons line rest ih =>
    cases rest with
    | nil =>
      rcases h with ⟨front, last, next, rest, heq, -⟩ | ⟨rfl, -⟩
      · rcases front with _ | ⟨first, _ | ⟨second, front⟩⟩ <;> simp at heq
      · exact ⟨c, rfl, le_rfl⟩
    | cons next rest =>
      obtain ⟨hup, hpa⟩ := ho
      obtain ⟨hl, hpr⟩ := List.pairwise_cons.mp hpa
      have hor : Ordered (next :: rest) :=
        ⟨fun other hother => hup other (List.mem_cons_of_mem _ hother), hpr⟩
      -- behind a gap every line ends deeper than the line in front of it
      have hdeep : line.y1 + bandMinGapPt ≤ next.y0 → ∀ d, Ends isRun inside (next :: rest) d →
          line.y1 ≤ d := by
        rintro hgap d ⟨front, last, after, others, heq, -, rfl, -⟩
        have hmem : last ∈ next :: rest := by rw [heq]; simp
        have hpos : (0 : ℚ) ≤ bandMinGapPt := by norm_num [bandMinGapPt]
        have hne := hup next (by simp)
        have hla := hup last (List.mem_cons_of_mem _ hmem)
        rcases List.mem_cons.mp hmem with rfl | hmem
        · linarith
        · rcases (List.pairwise_cons.mp hpr).1 last hmem with hle | hle <;> linarith
      rw [edgeLoop]
      split_ifs with hs hgap
      · rcases h with he | ⟨rfl, -⟩
        · obtain ⟨⟨hr, hi⟩, -⟩ := ends_cons_iff.mp he
          simp [hr, hi] at hs
        · exact ⟨c, rfl, le_rfl⟩
      · have hg : line.y1 + bandMinGapPt ≤ next.y0 := by linarith
        have hli := enters hs
        rcases h with he | ⟨-, hle⟩
        · rcases (ends_cons_iff.mp he).2 with ⟨rfl, -⟩ | he
          · exact ih _ hor (.inr ⟨rfl, hdeep hg⟩)
          · exact ih _ hor (.inl he)
        · obtain ⟨d, hd, hle'⟩ := ih (c := line.y1) _ hor (.inr ⟨rfl, hdeep hg⟩)
          exact ⟨d, hd, (hle _ (ends_cons_iff.mpr ⟨hli, .inl ⟨rfl, hg⟩⟩)).trans hle'⟩
      · have hli := enters hs
        rcases h with he | ⟨rfl, hle⟩
        · rcases (ends_cons_iff.mp he).2 with ⟨rfl, hg⟩ | he
          · exact absurd (by linarith : bandMinGapPt ≤ next.y0 - line.y1) hgap
          · exact ih _ hor (.inl he)
        · exact ih _ hor (.inr ⟨rfl, fun d hd => hle d (ends_cons_iff.mpr ⟨hli, .inr hd⟩)⟩)

end Walk

section Order

variable {page : Page}

theorem line_le_iff {a b : Line} :
    a.le b ↔ toLex (a.y0, toLex (a.y1, a.text)) ≤ toLex (b.y0, toLex (b.y1, b.text)) := by
  simp only [Line.le, Prod.Lex.toLex_le_toLex]

instance lineTotal : Std.Total Line.le :=
  ⟨fun a b => by
    rw [line_le_iff, line_le_iff]
    exact le_total _ _⟩

instance lineTrans : IsTrans Line Line.le :=
  ⟨fun a b c hab hbc => by
    rw [line_le_iff] at hab hbc ⊢
    exact hab.trans hbc⟩

theorem pageLines_sorted : (pageLines page).Pairwise fun a b => a.y0 ≤ b.y0 := by
  refine (List.pairwise_insertionSort Line.le _).imp fun {a b} hle => ?_
  rcases hle with hlt | ⟨heq, -⟩
  · exact hlt.le
  · exact heq.le

theorem pageLines_inside {line : Line} (h : line ∈ pageLines page) :
    0 ≤ line.y0 ∧ line.y0 ≤ line.y1 ∧ line.y1 ≤ page.height := by
  rw [pageLines, List.mem_insertionSort] at h
  exact page.inside line (List.mem_filter.mp h).1

theorem pageLines_ordered : Ordered (pageLines page) :=
  ⟨fun _ hline => (pageLines_inside hline).2.1, pageLines_sorted.imp fun h => .inl h⟩

def flip (line : Line) : Line := ⟨-line.y1, -line.y0, line.text⟩

theorem flipped_ordered : Ordered ((pageLines page).reverse.map flip) := by
  refine ⟨?_, ?_⟩
  · intro line hline
    obtain ⟨other, ho, rfl⟩ := List.mem_map.mp hline
    exact neg_le_neg (pageLines_inside (List.mem_reverse.mp ho)).2.1
  · rw [List.pairwise_map, List.pairwise_reverse]
    exact pageLines_sorted.imp fun h => .inr (neg_le_neg h)

end Order

section Furniture

variable {page : Page} {c y : ℚ}

theorem headerReaches_iff (hy : 0 < y) :
    y ≤ headerCut lower pages page ↔ HeaderReaches lower pages y page := by
  have he : ∀ c, HeaderEnds lower pages page c ↔ Ends (isRunning lower pages)
      (fun y1 => y1 ≤ topLimit pages) (pageLines page) c := by
    intro c
    simp only [HeaderEnds, Ends, decide_eq_true_eq]
  have hcut : edgeCut (isRunning lower pages) (pageLines page) (topLimit pages) true =
      edgeLoop (isRunning lower pages) (fun y1 => y1 ≤ topLimit pages) (pageLines page) none := by
    simp [edgeCut]
  rw [headerCut, hcut]
  constructor
  · intro hle
    cases hl : edgeLoop (isRunning lower pages) (fun y1 => y1 ≤ topLimit pages)
        (pageLines page) none with
    | none =>
      rw [hl] at hle
      exact absurd hle (by simpa using hy)
    | some c =>
      rw [hl] at hle
      rcases ends_of_edgeLoop hl with hn | hends
      · cases hn
      · exact ⟨c, hle, (he c).mpr hends⟩
  · rintro ⟨c, hle, hends⟩
    obtain ⟨d, hd, hcd⟩ := edgeLoop_of_ends none pageLines_ordered
      (.inl ((he c).mp hends))
    rw [hd]
    exact hle.trans hcd

theorem bottomLimit_nonneg : 0 ≤ bottomLimit pages := by
  have ht : bottomLimit pages = height pages * (1 - bandMaxFraction) := rfl
  have hh : 0 ≤ height pages * bandMaxFraction := topLimit_nonneg
  rw [ht]
  unfold bandMaxFraction at *
  linarith

/-- The walk from the bottom is bounded by no margin: its bound is negated twice. -/
theorem footerBegins_iff : FooterBegins lower pages page c ↔
    Ends (isRunning lower pages) (fun y1 => y1 ≤ bottomLimit pages)
      ((pageLines page).reverse.map flip) (-c) := by
  constructor
  · rintro ⟨front, line, next, rest, heq, hall, hc, hgap⟩
    refine ⟨front.map flip, flip line, flip next, rest.map flip, by simp [heq], ?_, ?_, ?_⟩
    · rw [← List.map_cons]
      refine List.forall_mem_map.mpr fun other ho => ⟨hall other ho, decide_eq_true ?_⟩
      have hmem : other ∈ pageLines page := by
        rw [← List.mem_reverse, heq]
        rcases List.mem_cons.mp ho with rfl | ho <;> simp [*]
      have hy := (pageLines_inside hmem).1
      have hb : 0 ≤ bottomLimit pages := bottomLimit_nonneg
      change -other.y0 ≤ bottomLimit pages
      linarith
    · rw [← hc]
      rfl
    · change -c + bandMinGapPt ≤ -next.y1
      linarith
  · rintro ⟨front, line, next, rest, heq, hall, hc, hgap⟩
    obtain ⟨first, others, hr, rfl, hm⟩ := List.map_eq_append_iff.mp heq
    obtain ⟨last, others, rfl, rfl, hnext⟩ := List.map_eq_cons_iff.mp hm
    obtain ⟨after, behind, rfl, rfl, -⟩ := List.map_eq_cons_iff.mp hnext
    refine ⟨first, last, after, behind, hr, fun other ho => ?_, ?_, ?_⟩
    · rw [← List.map_cons] at hall
      exact (hall (flip other) (List.mem_map_of_mem ho)).1
    · exact neg_inj.mp hc
    · have hg : -c + bandMinGapPt ≤ -after.y1 := hgap
      linarith

theorem footer_pos (h : FooterBegins lower pages page c) : 0 < c := by
  obtain ⟨front, line, next, rest, heq, -, -, hgap⟩ := h
  have hmem : next ∈ pageLines page := by
    rw [← List.mem_reverse, heq]
    simp
  obtain ⟨hy, hle, -⟩ := pageLines_inside hmem
  have hpos : (0 : ℚ) < bandMinGapPt := by norm_num [bandMinGapPt]
  linarith

theorem footerReaches_iff (hy : y < height pages) :
    footerCut lower pages page ≤ y ↔ FooterReaches lower pages y page := by
  have hcut : edgeCut (isRunning lower pages) (pageLines page) (bottomLimit pages) false =
      edgeLoop (isRunning lower pages) (fun y1 => y1 ≤ bottomLimit pages)
        ((pageLines page).reverse.map flip) none := by
    simp only [edgeCut, Bool.false_eq_true, if_false, neg_neg]
    rfl
  rw [footerCut, hcut]
  constructor
  · intro hle
    split at hle
    · rename_i cut hl
      split_ifs at hle
      · exact absurd hle (not_le.mpr hy)
      · rcases ends_of_edgeLoop hl with hn | he
        · cases hn
        · exact ⟨-cut, hle, footerBegins_iff.mpr (by rwa [neg_neg])⟩
    · exact absurd hle (not_le.mpr hy)
  · rintro ⟨c, hle, hf⟩
    obtain ⟨d, hd, hcd⟩ := edgeLoop_of_ends none flipped_ordered
      (.inl (footerBegins_iff.mp hf))
    have hbe : FooterBegins lower pages page (-d) := by
      rcases ends_of_edgeLoop hd with hn | he
      · cases hn
      · exact footerBegins_iff.mpr (by rwa [neg_neg])
    have hpos := footer_pos hbe
    rw [hd]
    simp only
    rw [if_neg (by linarith)]
    linarith

/-- A body line lies behind the furniture, at the line that ends it or further in. -/
theorem eq_or_behind {r : Line → Line → Prop} {lines front rest : List Line}
    {last next line : Line} (heq : lines = front ++ last :: next :: rest) (hs : lines.Pairwise r)
    (hall : ∀ other ∈ last :: front, isRunning lower pages other.text = true)
    (hline : line ∈ lines) (hbody : isRunning lower pages line.text = false) :
    line = next ∨ r next line := by
  have hnot : line ∉ last :: front := by
    intro hmem
    rw [hall line hmem] at hbody
    cases hbody
  rw [heq] at hline hs
  have hnext : line ∈ next :: rest := by
    simp only [List.mem_append, List.mem_cons, not_or] at hline hnot ⊢
    tauto
  rcases List.mem_cons.mp hnext with rfl | hmem
  · exact .inl rfl
  · have hre := (List.pairwise_append.mp hs).2.1
    exact .inr ((List.pairwise_cons.mp (List.pairwise_cons.mp hre).2).1 line hmem)

/-- The gap below a header spares the body of its own page. -/
theorem header_spares {line : Line} (h : HeaderEnds lower pages page c)
    (hline : line ∈ pageLines page) (hbody : isRunning lower pages line.text = false) :
    c < line.y0 := by
  obtain ⟨front, last, next, rest, heq, hall, -, hgap⟩ := h
  have hpos : (0 : ℚ) < bandMinGapPt := by norm_num [bandMinGapPt]
  have hle : next.y0 ≤ line.y0 := by
    rcases eq_or_behind heq pageLines_sorted (fun other ho => (hall other ho).1) hline hbody
      with rfl | hle
    · exact le_rfl
    · exact hle
  linarith

/-- The gap above a footer spares the body of its own page, but for lines that overhang. -/
theorem footer_spares {line : Line} (h : FooterBegins lower pages page c)
    (hline : line ∈ pageLines page) (hbody : isRunning lower pages line.text = false)
    (hstands : ¬ Overhangs page line) : line.y1 < c := by
  obtain ⟨front, last, next, rest, heq, hall, -, hgap⟩ := h
  have hpos : (0 : ℚ) < bandMinGapPt := by norm_num [bandMinGapPt]
  have hmem : next ∈ pageLines page := by
    rw [← List.mem_reverse, heq]
    simp
  have hle : line.y0 ≤ next.y0 := by
    rcases eq_or_behind heq (List.pairwise_reverse.mpr pageLines_sorted) hall
      (List.mem_reverse.mpr hline) hbody with rfl | hle
    · exact le_rfl
    · exact hle
  by_contra hlt
  exact hstands ⟨next, hmem, hle, by linarith⟩

end Furniture

theorem quorumOf_iff {p : Page → Prop} {test : Page → Bool}
    (h : ∀ page ∈ pages, test page = true ↔ p page) :
    QuorumOf pages p ↔ quorum pages ≤ pages.countP test := by
  constructor
  · rintro ⟨group, hsub, hlen, hall⟩
    have hc : group.countP test = group.length :=
      List.countP_eq_length.mpr fun page hp => (h page (hsub.subset hp)).mpr (hall page hp)
    rw [← hc] at hlen
    exact hlen.trans hsub.countP_le
  · intro hc
    rw [List.countP_eq_length_filter] at hc
    refine ⟨pages.filter test, List.filter_sublist, hc, fun page hp => ?_⟩
    obtain ⟨hmem, ht⟩ := List.mem_filter.mp hp
    exact (h page hmem).mp ht

/-- The header cut is the deepest that a quorum of headers reach. -/
theorem header_iff {y : ℚ} (h : runningBand lower pages = some band) (hy : 0 < y) :
    y ≤ band.1 ↔ QuorumOf pages (HeaderReaches lower pages y) := by
  obtain ⟨hpa, hhe, -⟩ := runningBand_eq_some h
  have hiff := supported_iff (f := headerCut lower pages) (r := (· ≥ ·))
    (p := fun c => decide (y ≤ c))
    (fun a b hab hb => decide_eq_true (le_trans (of_decide_eq_true hb) hab)) hpa
  simp only [decide_eq_true_eq] at hiff
  rw [hhe, hiff]
  refine (quorumOf_iff fun page _ => ?_).symm
  rw [decide_eq_true_iff]
  exact headerReaches_iff hy

/-- The footer cut is the first from which on a quorum of pages have their footer. -/
theorem footer_iff {y : ℚ} (h : runningBand lower pages = some band) (hy : y < height pages) :
    band.2 ≤ y ↔ QuorumOf pages (FooterReaches lower pages y) := by
  obtain ⟨hpa, -, hf⟩ := runningBand_eq_some h
  have hiff := supported_iff (f := footerCut lower pages) (r := (· ≤ ·))
    (p := fun c => decide (c ≤ y))
    (fun a b hab hb => decide_eq_true (le_trans hab (of_decide_eq_true hb))) hpa
  simp only [decide_eq_true_eq] at hiff
  rw [hf, hiff]
  refine (quorumOf_iff fun page _ => ?_).symm
  rw [decide_eq_true_iff]
  exact footerReaches_iff hy

theorem header_le_topLimit (h : runningBand lower pages = some band) :
    band.1 ≤ topLimit pages := by
  obtain ⟨hpa, hhe, -⟩ := runningBand_eq_some h
  by_contra hd
  rw [not_le] at hd
  have hq := (header_iff h (topLimit_nonneg.trans_lt hd)).mp le_rfl
  obtain ⟨group, -, hlen, hall⟩ := hq
  obtain ⟨page, hpage⟩ := List.exists_mem_of_length_pos ((quorum_le hpa).1.trans_le hlen)
  have hle := (headerReaches_iff (topLimit_nonneg.trans_lt hd)).mpr (hall page hpage)
  exact absurd (hle.trans (headerCut_le page)) (not_le.mpr hd)

theorem bottomLimit_le_iff (h : runningBand lower pages = some band) :
    bottomLimit pages ≤ band.2 ↔ ¬ QuorumOf pages fun page =>
      ∃ c, c < bottomLimit pages ∧ FooterBegins lower pages page c := by
  have hlim : bottomLimit pages ≤ height pages := by
    have ht : 0 ≤ height pages * bandMaxFraction := topLimit_nonneg
    unfold bottomLimit
    linarith
  obtain ⟨hpa, -, hf⟩ := runningBand_eq_some h
  have hiff := supported_iff (f := footerCut lower pages) (r := (· ≤ ·))
    (p := fun c => decide (c < bottomLimit pages))
    (fun a b hab hb => decide_eq_true (lt_of_le_of_lt hab (of_decide_eq_true hb))) hpa
  simp only [decide_eq_true_eq] at hiff
  rw [← not_lt, not_iff_not, hf, hiff]
  refine (quorumOf_iff fun page _ => ?_).symm
  rw [decide_eq_true_iff]
  constructor
  · intro hlt
    obtain ⟨c, hc, hb⟩ := (footerReaches_iff (hlt.trans_le hlim)).mp le_rfl
    exact ⟨c, hc.trans_lt hlt, hb⟩
  · rintro ⟨c, hc, hb⟩
    exact ((footerReaches_iff (hc.trans_le hlim)).mpr ⟨c, le_rfl, hb⟩).trans_lt hc

/-- For all pages of one height: the band that is found spares the body exactly when what a quorum
of pages have of header and footer is clear of the body of the other pages. -/
theorem running_band_spares_iff (hequal : ∀ page ∈ pages, page.height = height pages)
    (h : runningBand lower pages = some band) :
    SparesBody lower pages band ↔ BandClear lower pages := by
  constructor
  · rintro ⟨-, hbottom, hspares⟩
    refine ⟨(bottomLimit_le_iff h).mp hbottom, ?_, ?_⟩
    · intro page hp y hy hq _ line hline hbody
      have hle := (header_iff h hy).mpr hq
      have hn := hspares page hp line hline hbody
      rw [Redacts, not_or] at hn
      by_contra hlt
      exact hn.1 ⟨hy.trans_le hle, (not_lt.mp hlt).trans hle⟩
    · intro page hp y hy hq line hline hbody _
      have hle := (footer_iff h hy).mpr hq
      have hn := hspares page hp line hline hbody
      rw [Redacts, not_or, hequal page hp] at hn
      by_contra hlt
      exact hn.2 ⟨hle.trans_lt hy, hle.trans (not_lt.mp hlt)⟩
  · rintro ⟨hm, hhe, hfo⟩
    refine ⟨header_le_topLimit h, (bottomLimit_le_iff h).mpr hm, ?_⟩
    rintro page hp line hline hbody (⟨hy, hle⟩ | ⟨hy, hle⟩)
    · have hq := (header_iff h hy).mp le_rfl
      by_cases hr : HeaderReaches lower pages band.1 page
      · obtain ⟨c, hc, hends⟩ := hr
        exact absurd (hc.trans_lt (header_spares hends hline hbody)) (not_lt.mpr hle)
      · exact absurd (hhe page hp band.1 hy hq hr line hline hbody) (not_lt.mpr hle)
    · rw [hequal page hp] at hy
      have hq := (footer_iff h hy).mp le_rfl
      by_cases hr : FooterReaches lower pages band.2 page ∧ ¬ Overhangs page line
      · obtain ⟨⟨c, hc, hb⟩, hst⟩ := hr
        exact absurd ((footer_spares hb hline hbody hst).trans_le hc) (not_lt.mpr hle)
      · rw [not_and_or, not_not] at hr
        exact absurd (hfo page hp band.2 hy hq line hline hbody hr) (not_lt.mpr hle)

end Spared

section Examples

private def line (top : ℚ) (text : String) : Line := ⟨top, top + 10, ofString text⟩

private def page (lines : List Line)
    (h : ∀ line ∈ lines, 0 ≤ line.y0 ∧ line.y0 ≤ line.y1 ∧ line.y1 ≤ 842) : Page :=
  ⟨595, 842, lines, by norm_num, h⟩

private theorem two_inside {first second : ℚ} {a b : String} (hf : 0 ≤ first ∧ first ≤ 832)
    (hs : 0 ≤ second ∧ second ≤ 832) :
    ∀ l ∈ [line first a, line second b], 0 ≤ l.y0 ∧ l.y0 ≤ l.y1 ∧ l.y1 ≤ 842 := by
  intro l hl
  simp only [List.mem_cons, List.not_mem_nil, or_false] at hl
  rcases hl with rfl | rfl <;> simp only [line] <;> exact ⟨by linarith, by linarith, by linarith⟩

private def entry (top : ℚ) (first second : String) (htop : 0 ≤ top ∧ top ≤ 832)
    (hbody : (0 : ℚ) ≤ 60 ∧ (60 : ℚ) ≤ 832) : Page :=
  page [line top first, line 60 second] (two_inside htop hbody)

private theorem header_inside : (0 : ℚ) ≤ 20 ∧ (20 : ℚ) ≤ 832 := by norm_num

private theorem plate_inside : (0 : ℚ) ≤ 15 ∧ (15 : ℚ) ≤ 832 := by norm_num

private theorem body_inside : (0 : ℚ) ≤ 60 ∧ (60 : ℚ) ≤ 832 := by norm_num

private def report : List Page :=
  [entry 20 "Report 1" "Totals" header_inside body_inside,
    entry 20 "Report 2" "Stock" header_inside body_inside,
    entry 20 "Report 3" "Ends" header_inside body_inside]

/-- Three pages with one header are left whole below it. -/
theorem running_band_spares_report :
    ∃ band, runningBand id report = some band ∧ SparesBody id report band ∧
      BandClear id report := by
  have hb : runningBand id report = some (30, 842) := by decide +kernel
  have hs : SparesBody id report (30, 842) := by decide +kernel
  have he : ∀ page ∈ report, page.height = height report := by decide +kernel
  exact ⟨_, hb, hs, (running_band_spares_iff he hb).mp hs⟩

private def plate : List Page :=
  [entry 20 "Report 1" "Totals" header_inside body_inside,
    entry 20 "Report 2" "Stock" header_inside body_inside,
    entry 15 "Plate" "Ends" plate_inside body_inside]

theorem running_band_cuts_plate :
    ∃ band, runningBand id plate = some band ∧ ¬ SparesBody id plate band := by
  obtain ⟨band, hb⟩ := Option.isSome_iff_exists.mp
    (show (runningBand id plate).isSome = true by decide +kernel)
  obtain ⟨hcut, hbo⟩ : (runningBand id plate).any (fun band => 0 < band.1 ∧ 15 ≤ band.1) = true ∧
      line 15 "Plate" ∈ pageLines (entry 15 "Plate" "Ends" plate_inside body_inside) ∧
      isRunning id plate (ofString "Plate") = false := by
    decide +kernel
  rw [hb, Option.any_some, decide_eq_true_iff] at hcut
  refine ⟨band, hb, fun hs => ?_⟩
  exact hs.2.2 _ (by simp [plate]) _ hbo.1 hbo.2 (.inl hcut)

end Examples

end Aizzak.RunningBands
