import Aizzak.MeteredTurns

/-!
The question a turn leaves open. It is written in every way a turn ends, and not at all where it
equals what the turn read before it began. So it is the one of the last `final` event as long as
no cut follows that event, and no other write of the turn stands between.
-/
namespace Aizzak.OpenQuestions

open EventRuns PyText MeteredTurns

def declared (t : Turn) : List Text :=
  match t.pulled.find? fun event => event.type = .final with
  | some event => pendingOptions event.data.pending
  | none => []

/-- After a turn the open question is the one it declared, and no event with the key went out. -/
def Settled (s : State) : Prop :=
  (s.turn.ended = true → s.pending = declared s.turn) ∧
    ∀ event ∈ s.turn.forwarded, event.data.pending = none

/-- A cut is no loss: nothing was declared before it, or it is skipped because the turn found no
question. -/
def Forgets (t : Turn) : Prop := t.read = [] ∨ declared t = []

/-- The store takes the question. A `final` event declares what was not read before, or no write
came before it; its key is not null, and no other event has the key. A cut may be forgotten. -/
def Prompt (s : State) : Event → Prop
  | .begin => True
  | .pulled event switched stays works =>
    let t := receive s.turn event switched
    works.note = true ∧ (event.type = .error → Forgets t) ∧
    if noticeDue t && !stays then
      event.type = .final → t.terminal = false ∧ declared t = []
    else if event.type = .final then
      event.data.pending ≠ some .null ∧ (declared t = t.read → s.pending = t.read)
    else event.data.pending = none
  | .left works => works.note = true
  | .deadline works => works.note = true ∧ Forgets s.turn
  | .raised works => works.note = true ∧ Forgets s.turn

instance (t : Turn) : Decidable (Forgets t) := instDecidableOr

instance (s : State) : ∀ e, Decidable (Prompt s e)
  | .begin => isTrue trivial
  | .pulled _ _ _ _ => by
    unfold Prompt
    infer_instance
  | .left works => inferInstanceAs (Decidable (works.note = true))
  | .deadline works => inferInstanceAs (Decidable (works.note = true ∧ _))
  | .raised works => inferInstanceAs (Decidable (works.note = true ∧ _))

section Writes

variable {cfg : Config} {s t : State} {u : Turn} {event : AgentEvent} {works : Answers}
  {append : Bool}

def Alike (t u : Turn) : Prop :=
  t.read = u.read ∧ t.pulled = u.pulled ∧ t.terminal = u.terminal ∧
    t.forwarded = u.forwarded ∧ t.ended = u.ended

theorem alike_persistPartial : Alike (persistPartial cfg u append) u := by
  unfold persistPartial
  split <;> exact ⟨rfl, rfl, rfl, rfl, rfl⟩

theorem alike_persistReply {data : Data} : Alike (persistReply cfg u data append) u := by
  unfold persistReply
  split <;> exact ⟨rfl, rfl, rfl, rfl, rfl⟩

def Opens (s : State) : Prop :=
  s.pending = declared s.turn ∨ s.pending = s.turn.read ∧ declared s.turn = []

/-- What is open after a cut is what the turn declared. -/
theorem settleCut_pending (hw : cfg.wired = true) (ho : Opens s)
    (hf : Forgets s.turn) : (settleCut cfg s append true).pending = declared s.turn := by
  have hr : (persistPartial cfg s.turn append).read = s.turn.read := alike_persistPartial.1
  unfold settleCut writePending
  simp only [hw, hr, Bool.not_true, Bool.false_or, Bool.or_false, decide_eq_true_eq]
  split
  · rename_i hnil
    rcases ho with hd | ⟨hold, hd⟩
    · exact hd
    · rw [hd, hold, ← hnil]
  · rename_i hne
    exact (hf.resolve_left (Ne.symm hne)).symm

theorem settleCut_alike (note : Bool) : Alike (settleCut cfg s append note).turn s.turn := by
  rw [settleCut, writePending_turn]
  exact alike_persistPartial

/-- While a turn goes on, its question is the declared one after a terminal event, and until then
the one that was read or none. -/
def Going (s : State) : Prop :=
  Opens s ∧ (s.turn.terminal = false → declared s.turn = []) ∧
    (s.turn.terminal = true → s.pending = declared s.turn)

def Known (s : State) : Prop :=
  (if s.turn.ended then s.pending = declared s.turn else Going s) ∧
    ∀ event ∈ s.turn.forwarded, event.data.pending = none

theorem going_of_pending (h : t.pending = declared t.turn) (ht : t.turn.terminal = true) :
    Going t :=
  ⟨.inl h, fun ho => absurd ht (by simp [ho]), fun _ => h⟩

theorem declared_receive (switched : Bool) (h : event.type ≠ .final) :
    declared (receive u event switched) = declared u := by
  rw [declared, declared, receive, List.find?_cons_of_neg (by simpa using h)]

/-- The end of a turn, whose question is settled already or is settled now. -/
theorem finish_known (hw : cfg.wired = true)
    (h : if s.turn.terminal then s.pending = declared s.turn else Opens s ∧ Forgets s.turn)
    (hk : ∀ event ∈ s.turn.forwarded, event.data.pending = none) :
    Known (finish cfg s append true) := by
  unfold finish
  split at h
  · rename_i ht
    rw [if_pos ht]
    exact ⟨h, hk⟩
  · rename_i ht
    obtain ⟨-, hp, -, hf, -⟩ : Alike (settleCut cfg s append true).turn s.turn :=
      settleCut_alike true
    rw [if_neg ht]
    refine ⟨?_, by simpa only [hf] using hk⟩
    simp only [if_true, declared, hp]
    exact settleCut_pending hw h.1 h.2

theorem Going.finish (h : Going s) (hw : cfg.wired = true)
    (hk : ∀ event ∈ s.turn.forwarded, event.data.pending = none) :
    Known (finish cfg s append true) := by
  refine finish_known hw ?_ hk
  split
  · exact h.2.2 ‹_›
  · exact ⟨h.1, .inr (h.2.1 (Bool.eq_false_iff.mpr ‹_›))⟩

theorem Going.pull (h : Going s) (hw : cfg.wired = true) (hn : works.note = true)
    (switched : Bool) (hf : event.type ≠ .final)
    (her : event.type = .error → Forgets (receive s.turn event switched)) :
    Going (pull cfg s event switched works) := by
  have hd : declared (receive s.turn event switched) = declared s.turn :=
    declared_receive switched hf
  have ho : Opens { s with turn := receive s.turn event switched } := by
    rw [Opens, hd]
    exact h.1
  unfold MeteredTurns.pull
  split
  · rename_i he
    obtain ⟨-, hp, ht, -⟩ :
      Alike (settleCut cfg { s with turn := receive s.turn event switched } works.append
        works.note).turn _ := settleCut_alike works.note
    refine going_of_pending ?_ ?_
    · rw [declared, hp, hn]
      exact settleCut_pending hw ho (her he)
    · rw [ht, receive, he]
      exact Bool.or_true _
  · rename_i he
    refine ⟨ho, ?_⟩
    rw [hd]
    simpa [receive, he] using h.2

theorem pull_alike (switched : Bool) : Alike (pull cfg s event switched works).turn
    (receive s.turn event switched) := by
  unfold MeteredTurns.pull
  split
  · exact settleCut_alike works.note
  · exact ⟨rfl, rfl, rfl, rfl, rfl⟩

theorem Going.deliver (h : Going s) (ho : s.turn.ended = false) (hf : event.type ≠ .final)
    (hkey : event.data.pending = none)
    (hk : ∀ event ∈ s.turn.forwarded, event.data.pending = none) :
    Known (deliver cfg s event works) := by
  rw [MeteredTurns.deliver, if_neg hf]
  refine ⟨?_, ?_⟩
  · rw [Turn.forward, ho]
    exact h
  · exact List.forall_mem_append.mpr ⟨hk, by simpa using hkey⟩

/-- A final event settles the question it declares. -/
theorem deliver_final (hw : cfg.wired = true) (hn : works.note = true)
    (hfi : event.type = .final)
    (hd : declared s.turn = pendingOptions event.data.pending)
    (hnu : event.data.pending ≠ some .null)
    (hs : declared s.turn = s.turn.read → s.pending = s.turn.read)
    (hk : ∀ event ∈ s.turn.forwarded, event.data.pending = none) :
    Known (deliver cfg s event works) := by
  have hpe : (writePending cfg s (pendingOptions event.data.pending) works.note).pending =
      declared s.turn := by
    rw [← hd, writePending, hw, hn]
    simp only [Bool.not_true, Bool.false_or, Bool.or_false, decide_eq_true_eq]
    split
    · rename_i heq
      exact (hs heq).trans heq.symm
    · rfl
  obtain ⟨-, hp, ht, hf, -⟩ :
    Alike (persistReply cfg { s.turn with terminal := true } (finalData s.turn event.data)
      works.append) _ := alike_persistReply
  rw [MeteredTurns.deliver, if_pos hfi]
  simp only [writePending_turn]
  refine ⟨?_, ?_⟩
  · have hg := going_of_pending (t := ⟨declared s.turn, (persistReply cfg
      { s.turn with terminal := true } (finalData s.turn event.data) works.append).forward
        ⟨.final, finalData s.turn event.data⟩⟩) (by rw [Turn.forward, declared, declared, hp])
      ht
    rw [hpe]
    split
    · rw [declared, declared, Turn.forward, hp]
    · exact hg
  · rw [Turn.forward, hf]
    refine List.forall_mem_append.mpr ⟨hk, List.forall_mem_singleton.mpr ?_⟩
    rw [finalData, stripPending, if_neg hnu]

end Writes

/-- While the store is prompt, the open question is the declared one. -/
theorem step_known {cfg : Config} (hw : cfg.wired = true) (s : State) (e : Event) (t : State)
    (hs : Known s) (hok : Prompt s e) (ht : step cfg s e = some t) : Known t := by
  obtain ⟨hg, hk⟩ := hs
  cases e with
  | begin =>
    simp only [step] at ht
    split_ifs at ht
    cases ht
    refine ⟨?_, fun event hmem => absurd hmem List.not_mem_nil⟩
    exact ⟨.inr ⟨rfl, rfl⟩, fun _ => rfl, fun hte => by cases hte⟩
  | pulled event switched stays works =>
    have ho : s.turn.ended = false := by
      by_contra ho
      rw [Bool.not_eq_false] at ho
      simp [step, ho] at ht
    rw [ho, if_neg Bool.false_ne_true] at hg
    obtain ⟨hn, he, hl⟩ := hok
    obtain ⟨-, -, -, hfo, hsl⟩ : Alike (pull cfg s event switched works).turn
      (receive s.turn event switched) := pull_alike switched
    have hp : ∀ other ∈ (pull cfg s event switched works).turn.forwarded,
        other.data.pending = none := by
      rw [hfo]
      exact hk
    have hq : ∀ other ∈ (announce (pull cfg s event switched works)).turn.forwarded,
        other.data.pending = none :=
      List.forall_mem_append.mpr ⟨hp, List.forall_mem_singleton.mpr rfl⟩
    rw [step, ho, if_neg Bool.false_ne_true] at ht
    simp only [(pull_spec cfg s event switched works).2] at ht
    by_cases hf : event.type = .final
    · have hpl : pull cfg s event switched works =
          { s with turn := receive s.turn event switched } := by
        rw [pull, if_neg (by rw [hf]; decide)]
      have hde : declared (receive s.turn event switched) =
          pendingOptions event.data.pending := by
        rw [declared, receive, List.find?_cons_of_pos (by simpa using hf)]
      rw [hpl] at ht hp hq
      split_ifs at ht with hnow hst
      · cases ht
        rw [hnow, hst, if_neg (by simp), if_pos hf] at hl
        exact deliver_final hw hn hf hde hl.1 hl.2 hq
      · cases ht
        rw [hnow, Bool.eq_false_iff.mpr hst, if_pos (by simp)] at hl
        obtain ⟨hop, hnil⟩ := hl hf
        rw [hn]
        refine finish_known hw ?_ hq
        have hlo : (announce { s with turn := receive s.turn event switched }).turn.terminal =
          false := hop
        have hsr : s.turn.terminal = false := (Bool.or_eq_false_iff.mp hop).1
        have hb := hg.2.1 hsr
        rw [hlo, if_neg Bool.false_ne_true]
        refine ⟨?_, .inr hnil⟩
        rcases hg.1 with hd | hd
        · exact .inl (hd.trans (hb.trans hnil.symm))
        · exact .inr ⟨hd.1, hnil⟩
      · cases ht
        rw [Bool.eq_false_iff.mpr hnow, if_neg (by simp), if_pos hf] at hl
        exact deliver_final hw hn hf hde hl.1 hl.2 hp
    · have hpl := hg.pull hw hn switched hf he
      rw [if_neg hf] at hl
      split_ifs at ht with hnow hst
      · cases ht
        rw [hnow, hst, if_neg (by simp)] at hl
        exact Going.deliver hpl (hsl.trans ho) hf hl hq
      · cases ht
        rw [hn]
        exact Going.finish hpl hw hq
      · cases ht
        rw [Bool.eq_false_iff.mpr hnow, if_neg (by simp)] at hl
        exact hpl.deliver (hsl.trans ho) hf hl hp
  | left works =>
    simp only [step] at ht
    split_ifs at ht with ho
    cases ht
    rw [if_neg ho] at hg
    rw [show works.note = true from hok]
    exact hg.finish hw hk
  | deadline works =>
    simp only [step] at ht
    split_ifs at ht with ho
    cases ht
    rw [if_neg ho] at hg
    obtain ⟨hn, hfr⟩ := hok
    obtain ⟨-, hpu, -, hfo, -⟩ : Alike (settleCut cfg s works.append works.note).turn
      s.turn := settleCut_alike works.note
    refine ⟨?_, ?_⟩
    · simp only [Turn.forward, if_true, declared, hpu]
      rw [hn]
      exact settleCut_pending hw hg.1 hfr
    · rw [Turn.forward, hfo]
      exact List.forall_mem_append.mpr ⟨hk, List.forall_mem_singleton.mpr rfl⟩
  | raised works =>
    simp only [step] at ht
    split_ifs at ht with ho
    cases ht
    rw [if_neg ho] at hg
    obtain ⟨hn, hfr⟩ := hok
    rw [hn]
    obtain ⟨hr, hpu, -, hfo, -⟩ : Alike (settleCut cfg s works.append true).turn
      s.turn := settleCut_alike true
    have hde : declared (settleCut cfg s works.append true).turn = declared s.turn := by
      rw [declared, declared, hpu]
    have hpe : (settleCut cfg s works.append true).pending = declared s.turn :=
      settleCut_pending hw hg.1 hfr
    rw [← hde] at hpe
    refine finish_known hw ?_ (by rwa [hfo])
    split
    · exact hpe
    · exact ⟨.inl hpe, by rwa [Forgets, hr, hde]⟩

/-- In every run whose steps are prompt, the question that is open after a turn is the one its last
`final` event declared, and none when there was no such event. -/
theorem question_open_for_one_turn {cfg : Config} (hw : cfg.wired = true)
    {events : List Event} {s : State} (hok : Guarded (step cfg) Prompt State.init events)
    (hrun : run (step cfg) State.init events = some s) : Settled s := by
  have hi : Known State.init := ⟨rfl, fun event hmem => absurd hmem List.not_mem_nil⟩
  obtain ⟨hop, hk⟩ := run_invariant (step_known hw) hok hrun hi
  exact ⟨fun ho => by rwa [if_pos ho] at hop, hk⟩

private def linked : Config := ⟨true, ofString "local", fun _ => []⟩

private def kept : Answers := ⟨true, true, true⟩

private def asks (names : List String) : AgentEvent :=
  ⟨.final, { plainData with
    text := some (.str (ofString "Which?"))
    pending := some (.list (names.map fun name => some (ofString name))) }⟩

private def cutAnswer : List Event :=
  [.begin, .pulled (asks ["a.pdf", " ", "b.pdf"]) false true kept, .left kept, .begin,
    .deadline kept]

theorem question_open_for_one_turn_when_cut :
    ∃ s, run (step linked) State.init cutAnswer = some s ∧ Settled s := by
  obtain ⟨s, hrun⟩ := Option.isSome_iff_exists.mp
    (show (run (step linked) State.init cutAnswer).isSome = true by decide +kernel)
  have hok : Guarded (step linked) Prompt State.init cutAnswer := by
    decide +kernel
  exact ⟨s, hrun, question_open_for_one_turn rfl hok hrun⟩

private def lateCut : List Event :=
  [.begin, .pulled (asks ["a.pdf"]) false true kept, .left kept, .begin,
    .pulled (asks ["b.pdf"]) false true kept, .deadline kept]

theorem question_forgotten_after_final :
    ∃ s, run (step linked) State.init lateCut = some s ∧ ¬ Settled s := by
  obtain ⟨s, hrun, hl⟩ := exists_run_of_any
    (p := fun s => s.turn.ended && s.pending.isEmpty && !(declared s.turn).isEmpty)
    (show (run (step linked) State.init lateCut).any _ = true by decide +kernel)
  refine ⟨s, hrun, fun hs => ?_⟩
  simp only [Bool.and_eq_true, Bool.not_eq_true'] at hl
  rw [hs.1 hl.1.1, hl.2] at hl
  cases hl.1.2

end Aizzak.OpenQuestions
