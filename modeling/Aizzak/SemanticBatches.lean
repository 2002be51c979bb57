import Aizzak.TableRows

/-!
The semantic pass against a provider that answers each text on its own. Whole chunks are
packed into groups that fit one call, a chunk of more sentences gets calls of its own, and
the chunks of a group whose call fails are asked one at a time. A provider fails only on
calls with a poisoned text, so every slot ends as asking for its chunk alone leaves it.
-/
namespace Aizzak.SemanticBatches

open PyText SemanticCuts List

variable {K : Type}

/-- What a provider answers to a call, given the calls before it; `none` is a failure. -/
abbrev Provider (K : Type) := List (List Text) → List Text → Option (List (List K))

/-- A provider that has a vector for each text, and may fail on calls with a poisoned text. -/
structure PerText (provider : Provider K) (vector : Text → List K) (poisoned : Text → Prop) :
    Prop where
  answers : ∀ before call vectors, provider before call = some vectors → vectors = call.map vector
  fails : ∀ before call, provider before call = none → ∃ text ∈ call, poisoned text

def callsFrom : ℕ → List Text → List (List Text)
  | 0, _ => []
  | calls + 1, texts => texts.take embedBatch :: callsFrom calls (texts.drop embedBatch)

def callsOf (texts : List Text) : List (List Text) := callsFrom (callsFor texts.length) texts

def embedCalls (provider : Provider K) :
    List (List Text) → List (List Text) → Option (List (List K)) × List (List Text)
  | [], before => (some [], before)
  | call :: calls, before =>
    match provider before call with
    | none => (none, before ++ [call])
    | some vectors =>
      let (more, after) := embedCalls provider calls (before ++ [call])
      (more.map (vectors ++ ·), after)

section Pass

variable [Field K] [LinearOrder K] (sqrt : K → K) (provider : Provider K)

def semanticSplitGroup (group : List SentenceRequest) (before : List (List Text)) :
    Option (List (Option (List SourceSegment))) × List (List Text) :=
  match embedCalls provider (callsOf (textsOf group)) before with
  | (none, after) => (none, after)
  | (some vectors, after) =>
    if vectors.length ≠ (textsOf group).length then (none, after)
    else (replacementsOf sqrt group vectors, after)

def tryGroup (group : List SentenceRequest) (slots : Slots) (before : List (List Text)) :
    Option Slots × List (List Text) :=
  match semanticSplitGroup sqrt provider group before with
  | (some replacements, after) => (some (installSemanticSplits slots group replacements), after)
  | (none, after) => (none, after)

def applyAlone (done : Slots × List (List Text)) (request : SentenceRequest) :
    Slots × List (List Text) :=
  let (slots, after) := tryGroup sqrt provider [request] done.1 done.2
  (slots.getD done.1, after)

def applyGroup (done : Slots × List (List Text)) (group : List SentenceRequest) :
    Slots × List (List Text) :=
  match tryGroup sqrt provider group done.1 done.2 with
  | (some slots, after) => (slots, after)
  | (none, after) =>
    if group.length = 1 then (done.1, after)
    else group.foldl (applyAlone sqrt provider) (done.1, after)

def applySemanticSplits (pending : List SentenceRequest) (slots : Slots) :
    Slots × List (List Text) :=
  (packSentenceRequests pending).foldl (applyGroup sqrt provider) (slots, [])

end Pass

/-- What a chunk's slot becomes by the answer to its request; `none` is a failure. -/
def installAnswer (slots : Slots) (request : SentenceRequest) :
    Option (Option (List SourceSegment)) → Slots
  | some (some parts) => slots.set request.slot parts
  | _ => slots

def installAnswers (slots : Slots) (pending : List SentenceRequest)
    (answers : List (Option (Option (List SourceSegment)))) : Slots :=
  (pending.zip answers).foldl (fun slots (request, answer) => installAnswer slots request answer)
    slots

theorem flatten_callsFrom {calls : ℕ} {texts : List Text}
    (h : texts.length ≤ calls * embedBatch) : (callsFrom calls texts).flatten = texts := by
  induction calls generalizing texts with
  | zero =>
    rw [Nat.zero_mul, Nat.le_zero, length_eq_zero_iff] at h
    rw [h]
    rfl
  | succ calls ih =>
    have hr : (texts.drop embedBatch).length ≤ calls * embedBatch := by
      rw [length_drop]
      rw [Nat.add_mul] at h
      omega
    rw [callsFrom, flatten_cons, ih hr, take_append_drop]

theorem flatten_callsOf (texts : List Text) : (callsOf texts).flatten = texts := by
  apply flatten_callsFrom
  rw [callsFor, embedBatch]
  omega

theorem length_le_of_mem_callsOf {texts call : List Text} (h : call ∈ callsOf texts) :
    call.length ≤ embedBatch := by
  rw [callsOf] at h
  generalize callsFor texts.length = calls at h
  induction calls generalizing texts with
  | zero => cases h
  | succ calls ih =>
    rcases mem_cons.mp h with rfl | hl
    · exact length_take_le _ _
    · exact ih hl

section Answers

variable {provider : Provider K} {vector : Text → List K} {poisoned : Text → Prop}

theorem embedCalls_cases (h : PerText provider vector poisoned) (calls before : List (List Text)) :
    (embedCalls provider calls before).1 = some (calls.flatten.map vector) ∨
      (embedCalls provider calls before).1 = none ∧ ∃ text ∈ calls.flatten, poisoned text := by
  induction calls generalizing before with
  | nil => exact .inl rfl
  | cons call calls ih =>
    rw [embedCalls]
    cases ha : provider before call with
    | none =>
      obtain ⟨text, htext, hp⟩ := h.fails before call ha
      exact .inr ⟨rfl, text, mem_append_left _ htext, hp⟩
    | some vectors =>
      obtain rfl := h.answers before call vectors ha
      rcases ih (before ++ [call]) with hm | ⟨hn, text, htext, hp⟩
      · left
        simp only [hm, Option.map_some, flatten_cons, map_append]
      · refine .inr ⟨?_, text, mem_append_right _ htext, hp⟩
        simp only [hn, Option.map_none]

/-- A call with a poisoned text fails its whole group. -/
theorem embedCalls_none_of_poisoned
    (hf : ∀ before call, (∃ text ∈ call, poisoned text) → provider before call = none)
    {calls : List (List Text)} (h : ∃ text ∈ calls.flatten, poisoned text)
    (before : List (List Text)) : (embedCalls provider calls before).1 = none := by
  induction calls generalizing before with
  | nil =>
    obtain ⟨text, htext, -⟩ := h
    cases htext
  | cons call calls ih =>
    obtain ⟨text, htext, hp⟩ := h
    rw [embedCalls]
    cases ha : provider before call with
    | none => rfl
    | some vectors =>
      have hl : text ∈ calls.flatten := by
        rcases mem_append.mp htext with hh | hl
        · have hn := hf before call ⟨text, hh, hp⟩
          rw [ha] at hn
          cases hn
        · exact hl
      simp only [ih ⟨text, hl, hp⟩ (before ++ [call]), Option.map_none]

theorem embedCalls_calls (provider : Provider K) (calls before : List (List Text)) :
    ∃ made, made <+: calls ∧ (embedCalls provider calls before).2 = before ++ made := by
  induction calls generalizing before with
  | nil => exact ⟨[], prefix_refl _, (append_nil _).symm⟩
  | cons call calls ih =>
    rw [embedCalls]
    cases ha : provider before call with
    | none => exact ⟨[call], ⟨calls, rfl⟩, rfl⟩
    | some vectors =>
      obtain ⟨made, hm, haf⟩ := ih (before ++ [call])
      refine ⟨call :: made, cons_prefix_cons.mpr ⟨rfl, hm⟩, ?_⟩
      simp only [haf, append_assoc, singleton_append]

def Provider.after (provider : Provider K) (before : List (List Text)) : Provider K :=
  fun calls call => provider (before ++ calls) call

theorem PerText.after (h : PerText provider vector poisoned) (before : List (List Text)) :
    PerText (provider.after before) vector poisoned :=
  ⟨fun _ _ _ ha => h.answers _ _ _ ha, fun _ _ hf => h.fails _ _ hf⟩

theorem embedCalls_after (provider : Provider K) (calls before more : List (List Text)) :
    (embedCalls provider calls (before ++ more)).1 =
      (embedCalls (provider.after before) calls more).1 := by
  induction calls generalizing more with
  | nil => rfl
  | cons call calls ih =>
    rw [embedCalls, embedCalls, Provider.after]
    cases provider (before ++ more) call with
    | none => rfl
    | some vectors =>
      simp only
      rw [append_assoc, ih]

def answering (vector : Text → List K) : Provider K := fun _ call => some (call.map vector)

theorem perText_answering (vector : Text → List K) (poisoned : Text → Prop) :
    PerText (answering vector) vector poisoned :=
  ⟨fun _ _ _ ha => (Option.some.inj ha).symm, fun _ _ hf => nomatch hf⟩

variable [Field K] [LinearOrder K]

/-- Where a group ends, the vectors of its chunks are cut off at the right places. -/
theorem replacementsOf_map (sqrt : K → K) (vector : Text → List K) (group : List SentenceRequest) :
    replacementsOf sqrt group ((textsOf group).map vector) =
      group.mapM fun request => semanticParts sqrt request (request.sentences.map vector) := by
  induction group with
  | nil => rfl
  | cons request group ih =>
    have ht : (textsOf (request :: group)).map vector =
        request.sentences.map vector ++ (textsOf group).map vector := by
      rw [textsOf, flatMap_cons, map_append, ← textsOf]
    rw [replacementsOf, ht, take_left' (length_map _),
      drop_left' (length_map _), ih, mapM_cons]

/-- A group is answered with the splits its texts' vectors give, or fails with a poisoned text
or with vectors that cannot be compared. -/
theorem semanticSplitGroup_cases (h : PerText provider vector poisoned) (sqrt : K → K)
    (group : List SentenceRequest) (before : List (List Text)) :
    (semanticSplitGroup sqrt provider group before).1 =
        group.mapM (fun request => semanticParts sqrt request (request.sentences.map vector)) ∨
      (semanticSplitGroup sqrt provider group before).1 = none ∧
        ∃ text ∈ textsOf group, poisoned text := by
  have hc := embedCalls_cases h (callsOf (textsOf group)) before
  rw [flatten_callsOf] at hc
  rw [semanticSplitGroup]
  cases he : embedCalls provider (callsOf (textsOf group)) before with
  | mk vectors after =>
    rw [he] at hc
    rcases hc with ha | ⟨hn, hp⟩
    · left
      obtain rfl : vectors = some ((textsOf group).map vector) := ha
      simp only [length_map, ne_eq, not_true_eq_false, if_false, replacementsOf_map]
    · right
      obtain rfl : vectors = none := hn
      exact ⟨rfl, hp⟩

theorem semanticSplitGroup_none_of_poisoned (sqrt : K → K)
    (hf : ∀ before call, (∃ text ∈ call, poisoned text) → provider before call = none)
    {group : List SentenceRequest} (h : ∃ text ∈ textsOf group, poisoned text)
    (before : List (List Text)) : (semanticSplitGroup sqrt provider group before).1 = none := by
  have hn := @embedCalls_none_of_poisoned K provider poisoned hf
    (callsOf (textsOf group)) (by rwa [flatten_callsOf]) before
  rw [semanticSplitGroup]
  cases he : embedCalls provider (callsOf (textsOf group)) before with
  | mk vectors after =>
    rw [he] at hn
    obtain rfl : vectors = none := hn
    rfl

end Answers

section Run

variable [Field K] [LinearOrder K] {sqrt : K → K} {provider : Provider K}

def aloneAnswer (sqrt : K → K) (provider : Provider K) (request : SentenceRequest)
    (before : List (List Text)) : Option (Option (List SourceSegment)) :=
  (semanticSplitGroup sqrt provider [request] before).1.bind List.head?

theorem installAnswers_cons (slots : Slots) (request : SentenceRequest)
    (pending : List SentenceRequest) (answer : Option (Option (List SourceSegment)))
    (answers : List (Option (Option (List SourceSegment)))) :
    installAnswers slots (request :: pending) (answer :: answers) =
      installAnswers (installAnswer slots request answer) pending answers := rfl

theorem installAnswers_append {slots : Slots} {pending more : List SentenceRequest}
    {answers rest : List (Option (Option (List SourceSegment)))}
    (h : pending.length = answers.length) :
    installAnswers slots (pending ++ more) (answers ++ rest) =
      installAnswers (installAnswers slots pending answers) more rest := by
  rw [installAnswers, zip_append h, foldl_append]
  rfl

theorem installAnswers_map (slots : Slots) (pending : List SentenceRequest)
    (answer : SentenceRequest → Option (Option (List SourceSegment))) :
    installAnswers slots pending (pending.map answer) =
      pending.foldl (fun slots request => installAnswer slots request (answer request)) slots := by
  induction pending generalizing slots with
  | nil => rfl
  | cons request pending ih => rw [map_cons, installAnswers_cons, ih, foldl_cons]

/-- A group's splits are put into their slots like those of its chunks one after another. -/
theorem installSemanticSplits_eq (slots : Slots) (group : List SentenceRequest)
    (replacements : List (Option (List SourceSegment))) :
    installSemanticSplits slots group replacements =
      installAnswers slots group (replacements.map some) := by
  rw [installSemanticSplits, installAnswers]
  induction group generalizing slots replacements with
  | nil => rfl
  | cons request group ih =>
    cases replacements with
    | nil => rfl
    | cons replacement replacements =>
      rw [map_cons, zip_cons_cons, zip_cons_cons, foldl_cons, foldl_cons,
        ih]
      cases replacement <;> rfl

theorem tryGroup_eq (group : List SentenceRequest) (slots : Slots) (before : List (List Text)) :
    (tryGroup sqrt provider group slots before).1 =
      (semanticSplitGroup sqrt provider group before).1.map
        (installSemanticSplits slots group) := by
  rw [tryGroup]
  cases hgroup : semanticSplitGroup sqrt provider group before with
  | mk replacements after => cases replacements <;> rfl

theorem semanticSplitGroup_singleton (request : SentenceRequest) (before : List (List Text)) :
    (semanticSplitGroup sqrt provider [request] before).1 =
      (aloneAnswer sqrt provider request before).map fun replacement => [replacement] := by
  have hone : ∀ vectors : List (List K), replacementsOf sqrt [request] vectors =
      ((replacementsOf sqrt [request] vectors).bind List.head?).map fun replacement =>
        [replacement] := by
    intro vectors
    rw [replacementsOf]
    cases semanticParts sqrt request (vectors.take request.sentences.length) <;> rfl
  rw [aloneAnswer, semanticSplitGroup]
  cases embedCalls provider (callsOf (textsOf [request])) before with
  | mk vectors after =>
    cases vectors with
    | none => rfl
    | some vectors =>
      by_cases hl : vectors.length = (textsOf [request]).length
      · simp only [hl, ne_eq, not_true_eq_false, if_false]
        exact hone vectors
      · simp only [hl, ne_eq, not_false_eq_true, if_true]
        rfl

theorem applyAlone_eq (done : Slots × List (List Text)) (request : SentenceRequest) :
    (applyAlone sqrt provider done request).1 =
      installAnswer done.1 request (aloneAnswer sqrt provider request done.2) := by
  rw [applyAlone]
  simp only
  rw [tryGroup_eq, semanticSplitGroup_singleton]
  cases aloneAnswer sqrt provider request done.2 with
  | none => rfl
  | some replacement => cases replacement <;> rfl

section Answered

variable {P : SentenceRequest → Option (Option (List SourceSegment)) → Prop}
  (halone : ∀ request before, P request (aloneAnswer sqrt provider request before))
include halone

theorem exists_answers_alone (group : List SentenceRequest) (done : Slots × List (List Text)) :
    ∃ answers, List.Forall₂ P group answers ∧
      (group.foldl (applyAlone sqrt provider) done).1 = installAnswers done.1 group answers := by
  induction group generalizing done with
  | nil => exact ⟨[], .nil, rfl⟩
  | cons request group ih =>
    obtain ⟨answers, ha, hs⟩ := ih (applyAlone sqrt provider done request)
    refine ⟨_ :: answers, .cons (halone request done.2) ha, ?_⟩
    rw [foldl_cons, hs, installAnswers_cons, applyAlone_eq]

variable (hgroup : ∀ group before replacements,
  (semanticSplitGroup sqrt provider group before).1 = some replacements →
    List.Forall₂ P group (replacements.map some))
include hgroup

/-- A group's slots take an answer each, together or alone. -/
theorem exists_answers_group (group : List SentenceRequest) (done : Slots × List (List Text)) :
    ∃ answers, List.Forall₂ P group answers ∧
      (applyGroup sqrt provider done group).1 = installAnswers done.1 group answers := by
  have htry := @tryGroup_eq K _ _ sqrt provider group done.1 done.2
  rw [applyGroup]
  cases hr : tryGroup sqrt provider group done.1 done.2 with
  | mk slots after =>
    rw [hr] at htry
    cases hsp : (semanticSplitGroup sqrt provider group done.2).1 with
    | some replacements =>
      rw [hsp, Option.map_some] at htry
      obtain rfl : slots = _ := htry
      exact ⟨_, hgroup group done.2 replacements hsp, installSemanticSplits_eq _ _ _⟩
    | none =>
      rw [hsp, Option.map_none] at htry
      obtain rfl : slots = none := htry
      by_cases hs : group.length = 1
      · simp only [if_pos hs]
        obtain ⟨request, rfl⟩ := length_eq_one_iff.mp hs
        refine ⟨_, .cons (halone request done.2) .nil, ?_⟩
        rw [aloneAnswer, hsp]
        rfl
      · simp only [if_neg hs]
        exact exists_answers_alone halone group (done.1, after)

/-- Every request is answered, whatever the grouping. -/
theorem exists_answers (pending : List SentenceRequest) (slots : Slots) :
    ∃ answers, List.Forall₂ P pending answers ∧
      (applySemanticSplits sqrt provider pending slots).1 =
        installAnswers slots pending answers := by
  have hg : ∀ (groups : List (List SentenceRequest)) (done : Slots × List (List Text)),
      ∃ answers, List.Forall₂ P groups.flatten answers ∧
        (groups.foldl (applyGroup sqrt provider) done).1 =
          installAnswers done.1 groups.flatten answers := by
    intro groups
    induction groups with
    | nil => exact fun done => ⟨[], .nil, rfl⟩
    | cons group groups ih =>
      intro done
      obtain ⟨first, hf, hs⟩ := exists_answers_group halone hgroup group done
      obtain ⟨rest, hr, hl⟩ := ih (applyGroup sqrt provider done group)
      refine ⟨first ++ rest, rel_append hf hr, ?_⟩
      rw [foldl_cons, hl, hs, flatten_cons,
        installAnswers_append hf.length_eq]
  have hp := hg (packSentenceRequests pending) (slots, [])
  rw [flatten_packSentenceRequests] at hp
  exact hp

end Answered

theorem tryGroup_calls (group : List SentenceRequest) (slots : Slots) (before : List (List Text)) :
    ∃ made, (∀ call ∈ made, call.length ≤ embedBatch) ∧
      (tryGroup sqrt provider group slots before).2 = before ++ made := by
  obtain ⟨made, hm, ha⟩ := embedCalls_calls provider (callsOf (textsOf group)) before
  refine ⟨made, fun call hc => length_le_of_mem_callsOf (hm.subset hc), ?_⟩
  rw [← ha, tryGroup, semanticSplitGroup]
  cases embedCalls provider (callsOf (textsOf group)) before with
  | mk vectors after =>
    cases vectors with
    | none => rfl
    | some vectors =>
      simp only
      by_cases hl : vectors.length ≠ (textsOf group).length
      · rw [if_pos hl]
      · rw [if_neg hl]
        cases replacementsOf sqrt group vectors <;> rfl

def Fits (calls : List (List Text)) : Prop := ∀ call ∈ calls, call.length ≤ embedBatch

theorem fits_tryGroup {before : List (List Text)} (h : Fits before)
    (group : List SentenceRequest) (slots : Slots) :
    Fits (tryGroup sqrt provider group slots before).2 := by
  obtain ⟨made, hm, ha⟩ :=
    @tryGroup_calls K _ _ sqrt provider group slots before
  rw [ha]
  exact forall_mem_append.mpr ⟨h, hm⟩

theorem fits_applyGroup {done : Slots × List (List Text)} (h : Fits done.2)
    (group : List SentenceRequest) : Fits (applyGroup sqrt provider done group).2 := by
  have htry := @fits_tryGroup K _ _ sqrt provider _ h group done.1
  have halone : ∀ (group : List SentenceRequest) (done : Slots × List (List Text)), Fits done.2 →
      Fits (group.foldl (applyAlone sqrt provider) done).2 := by
    intro group
    induction group with
    | nil => exact fun _ hd => hd
    | cons request group ih => exact fun done hd => ih _ (fits_tryGroup hd [request] done.1)
  rw [applyGroup]
  cases hr : tryGroup sqrt provider group done.1 done.2 with
  | mk slots after =>
    rw [hr] at htry
    cases slots with
    | some slots => exact htry
    | none =>
      simp only
      split_ifs
      · exact htry
      · exact halone group _ htry

theorem fits_applySemanticSplits (pending : List SentenceRequest) (slots : Slots) :
    Fits (applySemanticSplits sqrt provider pending slots).2 := by
  have hg : ∀ (groups : List (List SentenceRequest)) (done : Slots × List (List Text)),
      Fits done.2 → Fits (groups.foldl (applyGroup sqrt provider) done).2 := by
    intro groups
    induction groups with
    | nil => exact fun _ hd => hd
    | cons group groups ih => exact fun done hd => ih _ (fits_applyGroup hd group)
  exact hg _ _ (forall_mem_nil _)

variable {vector : Text → List K} {poisoned : Text → Prop}

/-- A chunk asked after some calls is a chunk asked first of the provider as it then stands. -/
theorem aloneAnswer_after (request : SentenceRequest) (before : List (List Text)) :
    aloneAnswer sqrt provider request before =
      aloneAnswer sqrt (provider.after before) request [] := by
  have hc := embedCalls_after provider (callsOf (textsOf [request])) before []
  rw [append_nil] at hc
  have hgroup : (semanticSplitGroup sqrt provider [request] before).1 =
      (semanticSplitGroup sqrt (provider.after before) [request] []).1 := by
    rw [semanticSplitGroup, semanticSplitGroup]
    cases hown : embedCalls (provider.after before) (callsOf (textsOf [request])) [] with
    | mk vectors after =>
      cases hrun : embedCalls provider (callsOf (textsOf [request])) before with
      | mk answered calls =>
        rw [hrun, hown] at hc
        obtain rfl : answered = vectors := hc
        cases answered with
        | none => rfl
        | some vectors =>
          simp only
          split_ifs <;> rfl
  rw [aloneAnswer, aloneAnswer, hgroup]

theorem textsOf_singleton (request : SentenceRequest) : textsOf [request] = request.sentences := by
  rw [textsOf, flatMap_singleton]

theorem aloneAnswer_cases (sqrt : K → K) (h : PerText provider vector poisoned)
    (request : SentenceRequest) (before : List (List Text)) :
    aloneAnswer sqrt provider request before =
        semanticParts sqrt request (request.sentences.map vector) ∨
      aloneAnswer sqrt provider request before = none ∧
        ∃ text ∈ request.sentences, poisoned text := by
  rcases semanticSplitGroup_cases h sqrt [request] before with hs | ⟨hn, hp⟩
  · left
    rw [aloneAnswer, hs, mapM_cons]
    cases semanticParts sqrt request (request.sentences.map vector) <;> rfl
  · right
    rw [textsOf_singleton] at hp
    rw [aloneAnswer, hn]
    exact ⟨rfl, hp⟩

theorem forall₂_splits (h : PerText provider vector poisoned) {group : List SentenceRequest}
    {before : List (List Text)} {replacements : List (Option (List SourceSegment))}
    (hso : (semanticSplitGroup sqrt provider group before).1 = some replacements) :
    List.Forall₂ (fun request replacement =>
        semanticParts sqrt request (request.sentences.map vector) = some replacement)
      group replacements := by
  rcases semanticSplitGroup_cases h sqrt group before with hs | ⟨hn, -⟩
  · exact TableRows.forall₂_of_mapM (hs.symm.trans hso)
  · rw [hso] at hn
    cases hn

theorem aloneAnswer_answering (request : SentenceRequest) :
    aloneAnswer sqrt (answering vector) request [] =
      semanticParts sqrt request (request.sentences.map vector) := by
  rcases aloneAnswer_cases sqrt (perText_answering vector fun _ => False) request [] with
    heq | ⟨-, text, -, hf⟩
  · exact heq
  · exact hf.elim

/-- Every slot is left as some provider that answers alike, but for its failures on poisoned
calls, leaves it when the chunk is asked alone. -/
theorem exists_own_answers (h : PerText provider vector poisoned) (pending : List SentenceRequest)
    (slots : Slots) :
    ∃ answers, List.Forall₂ (fun request answer => ∃ own, PerText own vector poisoned ∧
        answer = aloneAnswer sqrt own request []) pending answers ∧
      (applySemanticSplits sqrt provider pending slots).1 =
        installAnswers slots pending answers := by
  apply exists_answers
  · intro request before
    exact ⟨provider.after before, h.after before, aloneAnswer_after request before⟩
  · intro group before replacements hso
    apply forall₂_map_right_iff.mpr
    refine (forall₂_splits h hso).imp fun request replacement hs => ?_
    refine ⟨answering vector, perText_answering vector poisoned, ?_⟩
    rw [aloneAnswer_answering, hs]

/-- Where every call with a poisoned text fails, the pass asks as if for one chunk at a time. -/
theorem applySemanticSplits_eq_foldl (h : PerText provider vector poisoned)
    (hf : ∀ before call, (∃ text ∈ call, poisoned text) → provider before call = none)
    (pending : List SentenceRequest) (slots : Slots) :
    (applySemanticSplits sqrt provider pending slots).1 =
      pending.foldl (fun slots request =>
        installAnswer slots request (aloneAnswer sqrt provider request [])) slots := by
  have hpo : ∀ request before, (∃ text ∈ request.sentences, poisoned text) →
      aloneAnswer sqrt provider request before = none := by
    intro request before hp
    rw [aloneAnswer, semanticSplitGroup_none_of_poisoned sqrt hf
      (by rwa [textsOf_singleton]) before]
    rfl
  have hs : ∀ request before,
      aloneAnswer sqrt provider request before = aloneAnswer sqrt provider request [] := by
    intro request before
    by_cases hp : ∃ text ∈ request.sentences, poisoned text
    · rw [hpo request before hp, hpo request [] hp]
    · rcases aloneAnswer_cases sqrt h request before with heq | ⟨-, hbad⟩
      · rcases aloneAnswer_cases sqrt h request [] with hfi | ⟨-, hbad⟩
        · rw [heq, hfi]
        · exact absurd hbad hp
      · exact absurd hbad hp
  have hgroup : ∀ group before replacements,
      (semanticSplitGroup sqrt provider group before).1 = some replacements →
        List.Forall₂ (fun request answer => answer = aloneAnswer sqrt provider request []) group
          (replacements.map some) := by
    intro group before replacements hso
    have hc : ∀ request ∈ group, ¬ ∃ text ∈ request.sentences, poisoned text := by
      rintro request hr ⟨text, htext, hp⟩
      have hn := semanticSplitGroup_none_of_poisoned sqrt hf
        ⟨text, mem_flatMap.mpr ⟨request, hr, htext⟩, hp⟩ before
      rw [hso] at hn
      cases hn
    have hsp := (forall₂_and_left _ _).mpr ⟨hc, forall₂_splits h hso⟩
    apply forall₂_map_right_iff.mpr
    refine hsp.imp fun request replacement hr => ?_
    rcases aloneAnswer_cases sqrt h request [] with heq | ⟨-, hbad⟩
    · rw [heq, hr.2]
    · exact absurd hbad hr.1
  obtain ⟨answers, ha, hsl⟩ := exists_answers
    (P := fun request answer => answer = aloneAnswer sqrt provider request []) hs hgroup
    pending slots
  have hown : pending.map (aloneAnswer sqrt provider · []) = answers := by
    rw [← forall₂_eq_eq_eq, forall₂_map_left_iff]
    exact ha.imp fun _ _ heq => heq.symm
  rw [hsl, ← hown, installAnswers_map]

/-- Every slot is left as some provider of the kind leaves it for its chunk asked alone, the
provider itself where each poisoned call fails, and no call is over the limit. -/
theorem batched_pass (sqrt : K → K) (h : PerText provider vector poisoned)
    (pending : List SentenceRequest) (slots : Slots) :
    (∃ answers, List.Forall₂ (fun request answer => ∃ own, PerText own vector poisoned ∧
        answer = aloneAnswer sqrt own request []) pending answers ∧
      (applySemanticSplits sqrt provider pending slots).1 =
        installAnswers slots pending answers) ∧
    ((∀ before call, (∃ text ∈ call, poisoned text) → provider before call = none) →
      (applySemanticSplits sqrt provider pending slots).1 =
        pending.foldl (fun slots request =>
          installAnswer slots request (aloneAnswer sqrt provider request [])) slots) ∧
    ∀ call ∈ (applySemanticSplits sqrt provider pending slots).2, call.length ≤ embedBatch :=
  ⟨exists_own_answers h pending slots, fun hf => applySemanticSplits_eq_foldl h hf pending
    slots, fits_applySemanticSplits pending slots⟩

def bitter : Text := ofString "bitter"

def fastidious : Provider ℚ := fun _ call =>
  if bitter ∈ call then none else some (call.map fun _ => [1])

def sentenceRequest (sentences : List Text) (slot : ℕ) : SentenceRequest :=
  ⟨⟨joinSpace sentences, .text, slot, ∅⟩, sentences, slot⟩

theorem batched_pass_fastidious :
    let pending := [sentenceRequest [ofString "sweet", bitter] 0,
      sentenceRequest [ofString "sweet", ofString "sour"] 1]
    PerText fastidious (fun _ => [1]) (· = bitter) ∧
      (applySemanticSplits Rat.sqrt fastidious pending [[], []]).1 =
        pending.foldl (fun slots request => installAnswer slots request
          (aloneAnswer Rat.sqrt fastidious request [])) [[], []] := by
  have hper : PerText fastidious (fun _ => [1]) (· = bitter) := by
    constructor
    · intro before call vectors ha
      rw [fastidious] at ha
      split_ifs at ha
      exact (Option.some.inj ha).symm
    · intro before call hf
      rw [fastidious] at hf
      split_ifs at hf with hb
      exact ⟨bitter, hb, rfl⟩
  refine ⟨hper, (batched_pass Rat.sqrt hper _ [[], []]).2.1 ?_⟩
  rintro before call ⟨text, htext, rfl⟩
  exact if_pos htext

end Run

end Aizzak.SemanticBatches
