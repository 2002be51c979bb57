import Aizzak.GreedyBatches
import Aizzak.PyText

/-!
The full summary of a document. The first chunks with text go into map calls by batches,
or into one call when they fit it; the answers are notes, and notes that do not fit one
call are folded into fewer, at most twice, before the call that writes the summary. A
blank answer ends the build, as does a stop or a failure.
-/
namespace Aizzak.SummaryLadder

open GreedyBatches PyText List

def mapBatch : ℕ := 20

def maxMapChunks : ℕ := 240

def maxBatchChars : ℕ := 24000

def maxReduceChars : ℕ := 16000

def maxFoldDepth : ℕ := 3

def chars (texts : List Text) : ℕ := (texts.map List.length).sum

def batched (maxChars : ℕ) (chunks : List Text) : List (List Text) :=
  batches (fun current chunk =>
    decide (current.length < mapBatch) && decide (chars current + chunk.length ≤ maxChars)) chunks

inductive Call where
  | fullSingleBatch (batch : List Text)
  | map (index total : ℕ) (batch : List Text)
  | fold (group : List Text)
  | reduce (notes : List Text)
deriving DecidableEq

namespace Call

def texts : Call → List Text
  | fullSingleBatch batch => batch
  | map _ _ batch => batch
  | fold group => group
  | reduce notes => notes

def step : Call → String
  | fullSingleBatch _ => "full_single_batch"
  | map _ _ _ => "map"
  | fold _ => "fold"
  | reduce _ => "reduce"

def budget : Call → ℕ
  | map _ _ _ => maxBatchChars
  | _ => maxReduceChars

def note (answer : Text) : Call → Text
  | map index _ _ => ofString ("## Part " ++ toString index ++ "\n") ++ answer
  | _ => answer

end Call

inductive Ended where
  | noIndexedText
  | emptyResponse (step : String)
  | cancelled
  | raised
deriving DecidableEq

structure SummaryDraft where
  text : Text
  sourceChunks : ℕ
  truncated : Bool
deriving DecidableEq

/-- What the provider and the caller do, given the calls so far: the text a call streams, `none`
where the call raises or is stopped, and whether a stop is seen before a call. -/
structure World where
  answer : List Call → Call → Option Text
  stopped : List Call → Bool

section Build

variable (world : World)

def call (c : Call) (before : List Call) : Except Ended Text × List Call :=
  match world.answer before c with
  | none => (.error .raised, before ++ [c])
  | some streamed =>
    if (strip streamed).isEmpty then (.error (.emptyResponse c.step), before ++ [c])
    else (.ok (strip streamed), before ++ [c])

def callUnlessStopped (c : Call) (before : List Call) : Except Ended Text × List Call :=
  if world.stopped before then (.error .cancelled, before) else call world c before

def notesOf : List Call → List Call → Except Ended (List Text) × List Call
  | [], before => (.ok [], before)
  | c :: calls, before =>
    match callUnlessStopped world c before with
    | (.error e, after) => (.error e, after)
    | (.ok answer, after) =>
      let (notes, after) := notesOf calls after
      (notes.map (c.note answer :: ·), after)

def fold : ℕ → List Text → List Call → Except Ended Text × List Call
  | 0, notes, before => callUnlessStopped world (.reduce notes) before
  | levels + 1, notes, before =>
    if (batched maxReduceChars notes).length = 1 then
      callUnlessStopped world (.reduce notes) before
    else
      match notesOf world ((batched maxReduceChars notes).map .fold) before with
      | (.error e, after) => (.error e, after)
      | (.ok folded, after) => fold levels folded after

def readable (chunks : List Text) : List Text := chunks.filter fun chunk => !(strip chunk).isEmpty

def window (chunks : List Text) : List Text := (readable chunks).take maxMapChunks

def mapCalls (window : List Text) : List Call :=
  (batched maxBatchChars window).zipIdx.map fun (batch, index) =>
    .map (index + 1) (batched maxBatchChars window).length batch

def summaryText (window : List Text) : Except Ended Text × List Call :=
  if (batched maxReduceChars window).length = 1 then
    call world (.fullSingleBatch ((batched maxBatchChars window).headD [])) []
  else
    match notesOf world (mapCalls window) [] with
    | (.error e, after) => (.error e, after)
    | (.ok notes, after) => fold world (maxFoldDepth - 1) notes after

def execute (chunks : List Text) : Except Ended SummaryDraft × List Call :=
  if readable chunks = [] then (.error .noIndexedText, [])
  else
    let (text, calls) := summaryText world (window chunks)
    (text.map fun text => ⟨text, (window chunks).length,
      decide ((window chunks).length < (readable chunks).length)⟩, calls)

end Build

section Batched

theorem flatten_batched (maxChars : ℕ) (chunks : List Text) :
    (batched maxChars chunks).flatten = chunks :=
  flatten_batches _ chunks

/-- A batch is within the bounds, or a single chunk. -/
def Fits (maxChars : ℕ) (batch : List Text) : Prop :=
  batch.length ≤ mapBatch ∧ (batch.length = 1 ∨ chars batch ≤ maxChars)

theorem fits_batched (maxChars : ℕ) (chunks : List Text) :
    ∀ batch ∈ batched maxChars chunks, Fits maxChars batch := by
  apply forall_batches
  · intro chunk
    rw [Fits, mapBatch]
    simp
  · intro current chunk _ _ hr
    rw [Bool.and_eq_true, decide_eq_true_iff, decide_eq_true_iff] at hr
    refine ⟨?_, .inr ?_⟩
    · rw [length_append, length_singleton]
      omega
    · rw [chars, map_append, sum_append, ← chars]
      simpa using hr.2

theorem batched_of_single {chunks : List Text} (h : (batched maxReduceChars chunks).length = 1) :
    batched maxBatchChars chunks = [chunks] := by
  refine batches_of_wider _ (fun current chunk hr => ?_) h
  rw [Bool.and_eq_true, decide_eq_true_iff, decide_eq_true_iff] at hr ⊢
  refine ⟨hr.1, hr.2.trans ?_⟩
  rw [maxReduceChars, maxBatchChars]
  omega

theorem fits_of_single {chunks : List Text} (h : (batched maxReduceChars chunks).length = 1) :
    Fits maxReduceChars chunks := by
  apply fits_batched maxReduceChars chunks
  obtain ⟨batch, hb⟩ := length_eq_one_iff.mp h
  have hf := flatten_batched maxReduceChars chunks
  rw [hb, flatten_singleton] at hf
  rw [hb, hf]
  exact mem_singleton_self _

end Batched

def Answered (world : World) : List Call → List (Call × Text) → Prop
  | _, [] => True
  | before, (c, answer) :: rest =>
    (∃ streamed, world.answer before c = some streamed ∧ strip streamed = answer ∧ answer ≠ []) ∧
      Answered world (before ++ [c]) rest

def notes (level : List (Call × Text)) : List Text := level.map fun c => c.1.note c.2

/-- The levels of calls that notes go through: each note enters one call of its level, in order. -/
inductive Folds : ℕ → List Text → List (List (Call × Text)) → Prop
  | reduce {levels : ℕ} {entering : List Text} {answer : Text} :
    Folds levels entering [[(.reduce entering, answer)]]
  | fold {levels : ℕ} {entering : List Text} {level : List (Call × Text)}
    {above : List (List (Call × Text))} (hlevel : level.flatMap (·.1.texts) = entering)
    (habove : Folds levels (notes level) above) : Folds (levels + 1) entering (level :: above)

theorem Folds.length_le {levels : ℕ} {entering : List Text} {ladder : List (List (Call × Text))}
    (h : Folds levels entering ladder) : ladder.length ≤ levels + 1 := by
  induction h with
  | reduce =>
    rw [length_singleton]
    omega
  | fold _ _ ih =>
    rw [length_cons]
    omega

section Runs

variable {world : World} {before after : List Call}

theorem Answered.append {front back : List (Call × Text)} (hf : Answered world before front)
    (hb : Answered world (before ++ front.map Prod.fst) back) :
    Answered world before (front ++ back) := by
  induction front generalizing before with
  | nil =>
    rw [map_nil, append_nil] at hb
    exact hb
  | cons c front ih =>
    refine ⟨hf.1, ih hf.2 ?_⟩
    rw [map_cons, append_cons] at hb
    exact hb

theorem call_ok {c : Call} {answer : Text} (h : call world c before = (.ok answer, after)) :
    Answered world before [(c, answer)] ∧ after = before ++ [c] := by
  rw [call] at h
  cases ha : world.answer before c with
  | none =>
    rw [ha] at h
    cases h
  | some streamed =>
    rw [ha] at h
    simp only at h
    split_ifs at h with hb
    · cases h
    · cases h
      exact ⟨⟨⟨streamed, ha, rfl, by simpa using hb⟩, trivial⟩, rfl⟩

theorem callUnlessStopped_ok {c : Call} {answer : Text}
    (h : callUnlessStopped world c before = (.ok answer, after)) :
    Answered world before [(c, answer)] ∧ after = before ++ [c] := by
  rw [callUnlessStopped] at h
  split_ifs at h with hs
  · cases h
  · exact call_ok h

/-- Notes are the answers to the calls, one each. -/
theorem notesOf_ok {calls : List Call} {folded : List Text}
    (h : notesOf world calls before = (.ok folded, after)) :
    ∃ level : List (Call × Text), level.map Prod.fst = calls ∧ notes level = folded ∧
      Answered world before level ∧ after = before ++ calls := by
  induction calls generalizing before folded with
  | nil =>
    cases h
    exact ⟨[], rfl, rfl, trivial, (append_nil _).symm⟩
  | cons c calls ih =>
    rw [notesOf] at h
    cases hca : callUnlessStopped world c before with
    | mk result next =>
      rw [hca] at h
      cases result with
      | error e => cases h
      | ok answer =>
        obtain ⟨ha, rfl⟩ := callUnlessStopped_ok hca
        cases hr : notesOf world calls (before ++ [c]) with
        | mk rest last =>
          simp only [hr] at h
          cases rest with
          | error e => cases h
          | ok more =>
            cases h
            obtain ⟨level, hc, hn, hl, rfl⟩ := ih hr
            refine ⟨(c, answer) :: level, ?_, ?_, ⟨ha.1, hl⟩, ?_⟩
            · rw [map_cons, hc]
            · rw [notes, map_cons, ← notes, hn]
            · rw [append_assoc, singleton_append]

theorem flatMap_texts_fold (groups : List (List Text)) :
    (groups.map Call.fold).flatMap Call.texts = groups.flatten := by
  rw [flatMap_map, flatMap_def]
  exact congrArg List.flatten (map_id groups)

theorem reduce_ok {levels : ℕ} {entering : List Text} {text : Text}
    (h : callUnlessStopped world (.reduce entering) before = (.ok text, after)) :
    ∃ ladder, Folds levels entering ladder ∧ Answered world before ladder.flatten ∧
      after = before ++ ladder.flatten.map Prod.fst := by
  obtain ⟨ha, haf⟩ := callUnlessStopped_ok h
  exact ⟨[[(.reduce entering, text)]], .reduce, ha, haf⟩

/-- A fold that succeeds has taken every note up the ladder. -/
theorem fold_ok {levels : ℕ} {entering : List Text} {text : Text}
    (h : fold world levels entering before = (.ok text, after)) :
    ∃ ladder, Folds levels entering ladder ∧ Answered world before ladder.flatten ∧
      after = before ++ ladder.flatten.map Prod.fst := by
  induction levels generalizing entering before with
  | zero => exact reduce_ok h
  | succ levels ih =>
    rw [fold] at h
    split_ifs at h with hs
    · exact reduce_ok h
    · cases hl : notesOf world ((batched maxReduceChars entering).map .fold) before with
      | mk result next =>
        rw [hl] at h
        cases result with
        | error e => cases h
        | ok folded =>
          obtain ⟨level, hc, rfl, ha, rfl⟩ := notesOf_ok hl
          obtain ⟨above, hav, hm, haf⟩ := ih h
          have ht : level.flatMap (·.1.texts) = entering := by
            rw [← flatMap_map Prod.fst Call.texts, hc, flatMap_texts_fold, flatten_batched]
          refine ⟨level :: above, .fold ht hav, ?_, ?_⟩
          · rw [flatten_cons]
            exact ha.append (hc ▸ hm)
          · rw [haf, flatten_cons, map_append, hc, append_assoc]

/-- A full build that reads its window: the first calls hold it in order, and their notes go
through the ladder. -/
structure Reads (world : World) (window : List Text) (first : List (Call × Text))
    (ladder : List (List (Call × Text))) (calls : List Call) : Prop where
  calls : calls = (first ++ ladder.flatten).map Prod.fst
  answered : Answered world [] (first ++ ladder.flatten)
  whole : first.flatMap (·.1.texts) = window
  bounded : ∀ c ∈ first, Fits c.1.budget c.1.texts
  folded : ladder = [] ∧ first.length = 1 ∨ Folds (maxFoldDepth - 1) (notes first) ladder
  levels : ladder.length ≤ maxFoldDepth

theorem flatMap_texts_mapCalls (window : List Text) :
    (mapCalls window).flatMap Call.texts = window := by
  rw [mapCalls, flatMap_map]
  change (batched maxBatchChars window).zipIdx.flatMap Prod.fst = window
  rw [flatMap_def, zipIdx_map_fst, flatten_batched]

theorem fits_mapCalls (window : List Text) :
    ∀ c ∈ mapCalls window, Fits c.budget c.texts := by
  intro c hc
  obtain ⟨⟨batch, index⟩, hb, rfl⟩ := mem_map.mp hc
  exact fits_batched maxBatchChars window batch (fst_mem_of_mem_zipIdx hb)

/-- A summary that succeeds has read its window. -/
theorem summaryText_ok {window : List Text} {text : Text}
    (h : summaryText world window = (.ok text, after)) :
    ∃ first ladder, Reads world window first ladder after := by
  rw [summaryText] at h
  split_ifs at h with hs
  · rw [batched_of_single hs, headD_cons] at h
    obtain ⟨ha, haf⟩ := call_ok h
    refine ⟨[(.fullSingleBatch window, text)], [], haf, ha, ?_, ?_, .inl ⟨rfl, rfl⟩, ?_⟩
    · exact append_nil _
    · intro c hc
      rw [mem_singleton.mp hc]
      exact fits_of_single hs
    · exact Nat.zero_le _
  · cases hf : notesOf world (mapCalls window) [] with
    | mk result next =>
      rw [hf] at h
      cases result with
      | error e => cases h
      | ok folded =>
        obtain ⟨first, hca, rfl, ha, rfl⟩ := notesOf_ok hf
        obtain ⟨ladder, hfo, hm, haf⟩ := fold_ok h
        rw [nil_append] at hm haf
        refine ⟨first, ladder, ?_, ?_, ?_, ?_, .inr hfo, hfo.length_le⟩
        · rw [haf, map_append, hca]
        · apply ha.append
          rw [hca]
          exact hm
        · rw [← flatMap_map Prod.fst Call.texts, hca, flatMap_texts_mapCalls]
        · intro c hc
          apply fits_mapCalls window
          rw [← hca]
          exact mem_map_of_mem hc

/-- Every call is answered with text, and nobody stops the build. -/
structure Willing (world : World) : Prop where
  answers : ∀ before c, ∃ streamed, world.answer before c = some streamed ∧ strip streamed ≠ []
  goes_on : ∀ before, world.stopped before = false

namespace Willing

variable (h : Willing world)
include h

theorem call_ok (c : Call) (before : List Call) :
    ∃ answer, (call world c before).1 = .ok answer := by
  obtain ⟨streamed, ha, htext⟩ := h.answers before c
  rw [call, ha]
  simp only
  rw [if_neg (by simpa using htext)]
  exact ⟨_, rfl⟩

theorem callUnlessStopped_ok (c : Call) (before : List Call) :
    ∃ answer, (callUnlessStopped world c before).1 = .ok answer := by
  rw [callUnlessStopped, h.goes_on before]
  exact h.call_ok c before

theorem notesOf_ok (calls before : List Call) :
    ∃ folded, (notesOf world calls before).1 = .ok folded := by
  induction calls generalizing before with
  | nil => exact ⟨[], rfl⟩
  | cons c calls ih =>
    obtain ⟨answer, hc⟩ := h.callUnlessStopped_ok c before
    rw [notesOf]
    cases hr : callUnlessStopped world c before with
    | mk result next =>
      rw [hr] at hc
      obtain rfl : result = .ok answer := hc
      obtain ⟨more, hm⟩ := ih next
      refine ⟨c.note answer :: more, ?_⟩
      simp only [hm]
      rfl

theorem fold_ok (levels : ℕ) (entering : List Text) (before : List Call) :
    ∃ text, (fold world levels entering before).1 = .ok text := by
  induction levels generalizing entering before with
  | zero => exact h.callUnlessStopped_ok _ before
  | succ levels ih =>
    rw [fold]
    split_ifs with hs
    · exact h.callUnlessStopped_ok _ before
    · obtain ⟨folded, hf⟩ :=
        h.notesOf_ok ((batched maxReduceChars entering).map .fold) before
      cases hr : notesOf world ((batched maxReduceChars entering).map .fold) before with
      | mk result next =>
        rw [hr] at hf
        obtain rfl : result = .ok folded := hf
        exact ih folded next

theorem summaryText_ok (window : List Text) :
    ∃ text, (summaryText world window).1 = .ok text := by
  rw [summaryText]
  split_ifs with hs
  · exact h.call_ok _ []
  · obtain ⟨folded, hf⟩ := h.notesOf_ok (mapCalls window) []
    cases hr : notesOf world (mapCalls window) [] with
    | mk result next =>
      rw [hr] at hf
      obtain rfl : result = .ok folded := hf
      exact h.fold_ok _ folded next

end Willing

def firstCalls (window : List Text) : List Call :=
  if (batched maxReduceChars window).length = 1 then [.fullSingleBatch window]
  else mapCalls window

theorem call_calls (c : Call) (before : List Call) :
    (call world c before).2 = before ++ [c] := by
  rw [call]
  cases world.answer before c with
  | none => rfl
  | some streamed =>
    simp only
    split_ifs <;> rfl

theorem prefix_callUnlessStopped (c : Call) (before : List Call) :
    before <+: (callUnlessStopped world c before).2 ∧
      (callUnlessStopped world c before).2 <+: before ++ [c] := by
  rw [callUnlessStopped]
  split_ifs
  · exact ⟨prefix_refl _, prefix_append _ _⟩
  · rw [call_calls]
    exact ⟨prefix_append _ _, prefix_refl _⟩

/-- Calls are made in their order, from the first, up to the one that ends the build. -/
theorem prefix_notesOf (calls before : List Call) :
    before <+: (notesOf world calls before).2 ∧
      (notesOf world calls before).2 <+: before ++ calls := by
  induction calls generalizing before with
  | nil => exact ⟨prefix_refl _, prefix_append _ _⟩
  | cons c calls ih =>
    obtain ⟨hb, hm⟩ := @prefix_callUnlessStopped world c before
    rw [notesOf]
    cases hc : callUnlessStopped world c before with
    | mk result next =>
      rw [hc] at hb hm
      cases result with
      | error e =>
        refine ⟨hb, hm.trans ?_⟩
        rw [append_cons before c calls]
        exact prefix_append _ _
      | ok answer =>
        obtain ⟨-, rfl⟩ := callUnlessStopped_ok hc
        obtain ⟨hn, hl⟩ := ih (before ++ [c])
        refine ⟨hb.trans hn, ?_⟩
        rw [append_cons before c calls]
        exact hl

/-- A fold adds to the calls made before. -/
theorem prefix_fold (levels : ℕ) (entering : List Text) (before : List Call) :
    before <+: (fold world levels entering before).2 := by
  induction levels generalizing entering before with
  | zero => exact (prefix_callUnlessStopped _ before).1
  | succ levels ih =>
    rw [fold]
    split_ifs with hs
    · exact (prefix_callUnlessStopped _ before).1
    · have hl := (@prefix_notesOf world
        ((batched maxReduceChars entering).map .fold) before).1
      cases hr : notesOf world ((batched maxReduceChars entering).map .fold) before with
      | mk result next =>
        rw [hr] at hl
        cases result with
        | error e => exact hl
        | ok folded => exact hl.trans (ih folded next)

/-- However a build ends, its first calls are those the window asks for, from the front. -/
theorem firstCalls_comparable (world : World) (window : List Text) :
    (summaryText world window).2 <+: firstCalls window ∨
      firstCalls window <+: (summaryText world window).2 := by
  rw [summaryText, firstCalls]
  split_ifs with hs
  · rw [batched_of_single hs, headD_cons, call_calls]
    exact .inl (prefix_refl _)
  · have hm := (@prefix_notesOf world (mapCalls window) []).2
    cases hr : notesOf world (mapCalls window) [] with
    | mk result next =>
      rw [hr] at hm
      cases result with
      | error e => exact .inl hm
      | ok folded =>
        obtain ⟨-, -, -, -, rfl⟩ := notesOf_ok hr
        exact .inr (prefix_fold _ _ _)

theorem execute_eq {chunks : List Text} (h : readable chunks ≠ []) :
    execute world chunks = ((summaryText world (window chunks)).1.map fun text =>
      ⟨text, (window chunks).length, decide ((window chunks).length < (readable chunks).length)⟩,
      (summaryText world (window chunks)).2) := by
  rw [execute, if_neg h]

/-- A build that is answered and not stopped gives a draft; a draft's window is read whole, once
and in order, at every level; and a build that ends early has asked for its window in order. -/
theorem full_summary (world : World) (chunks : List Text) :
    (∀ draft calls, execute world chunks = (.ok draft, calls) →
      (∃ first ladder, Reads world (window chunks) first ladder calls) ∧
        draft.sourceChunks = min maxMapChunks (readable chunks).length ∧
        (draft.truncated = true ↔ draft.sourceChunks < (readable chunks).length)) ∧
    (readable chunks ≠ [] → Willing world → ∃ draft, (execute world chunks).1 = .ok draft) ∧
    ((execute world chunks).2 <+: firstCalls (window chunks) ∨
      firstCalls (window chunks) <+: (execute world chunks).2) := by
  by_cases hr : readable chunks = []
  · rw [execute, if_pos hr]
    refine ⟨fun draft calls h => ?_, fun h => absurd hr h, .inl ( nil_prefix)⟩
    cases h
  · have hl : (window chunks).length = min maxMapChunks (readable chunks).length :=
      length_take
    rw [execute_eq hr]
    refine ⟨fun draft calls h => ?_, fun _ hw => ?_, firstCalls_comparable world _⟩
    · cases hre : summaryText world (window chunks) with
      | mk result after =>
        rw [hre] at h
        cases result with
        | error e => cases h
        | ok text =>
          cases h
          refine ⟨summaryText_ok hre, hl, ?_⟩
          exact decide_eq_true_iff
    · obtain ⟨text, htext⟩ := hw.summaryText_ok (window chunks)
      rw [htext]
      exact ⟨_, rfl⟩

def constantWorld (answer : Text) : World := ⟨fun _ _ => some answer, fun _ => false⟩

/-- A blank answer to the first of two map calls: the last chunk is sent in no call. -/
theorem blank_answer_ends_build :
    let chunks := (List.range 21).map fun _ => ofString "a"
    (execute (constantWorld []) chunks).1 = .error (.emptyResponse "map") ∧
      (execute (constantWorld []) chunks).2.flatMap Call.texts ≠ window chunks := by
  decide

theorem full_summary_of_one_chunk :
    Willing (constantWorld (ofString "b")) ∧ readable [ofString "a"] ≠ [] ∧
      ∃ draft, (execute (constantWorld (ofString "b")) [ofString "a"]).1 = .ok draft := by
  have hw : Willing (constantWorld (ofString "b")) :=
    ⟨fun _ _ => ⟨ofString "b", rfl, by decide⟩, fun _ => rfl⟩
  exact ⟨hw, by decide, (full_summary _ [ofString "a"]).2.1 (by decide) hw⟩

end Runs

end Aizzak.SummaryLadder
