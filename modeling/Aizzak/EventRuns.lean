import Mathlib

/-!
Finite runs of an event-driven system. A step function answers `none` when an
event is not enabled in a state, so the event carries every choice the
environment makes and a run is evaluated by feeding the events in order. A
guarded run is one in which each event also meets a condition on the state it
is taken from. The invariant rules below are the only induction over runs.
-/
namespace Aizzak.EventRuns

variable {S E : Type*}

def run (step : S → E → Option S) : S → List E → Option S
  | s, [] => some s
  | s, e :: es => (step s e).bind fun t => run step t es

/-- Every event of the run meets `ok` in the state it is taken from. -/
def Guarded (step : S → E → Option S) (ok : S → E → Prop) : S → List E → Prop
  | _, [] => True
  | s, e :: es => ok s e ∧
      match step s e with
      | none => True
      | some t => Guarded step ok t es

instance decidableGuarded (step : S → E → Option S) (ok : S → E → Prop)
    [∀ s e, Decidable (ok s e)] : ∀ s es, Decidable (Guarded step ok s es)
  | _, [] => isTrue trivial
  | s, e :: es =>
    match h : step s e with
    | none => decidable_of_iff (ok s e) (by simp [Guarded, h])
    | some t =>
      have := decidableGuarded step ok t es
      decidable_of_iff (ok s e ∧ Guarded step ok t es) (by simp [Guarded, h])

variable {step : S → E → Option S} {ok : S → E → Prop}

theorem run_cons_eq_some {s u : S} {e : E} {es : List E}
    (h : run step s (e :: es) = some u) :
    ∃ t, step s e = some t ∧ run step t es = some u := by
  simpa only [run, Option.bind_eq_some_iff] using h

theorem run_append {s t : S} {es : List E} (h : run step s es = some t) (fs : List E) :
    run step s (es ++ fs) = run step t fs := by
  induction es generalizing s with
  | nil =>
    cases h
    rfl
  | cons e es ih =>
    obtain ⟨u, hu, hr⟩ := run_cons_eq_some h
    rw [List.cons_append, run, hu, Option.bind_some]
    exact ih hr

/-- Evaluating a run against a test of its last state. -/
theorem exists_run_of_any {s : S} {es : List E} {p : S → Bool}
    (h : (run step s es).any p = true) : ∃ t, run step s es = some t ∧ p t = true := by
  simpa only [Option.any_eq_true] using h

theorem Guarded.of_cons {s t : S} {e : E} {es : List E}
    (h : Guarded step ok s (e :: es)) (ht : step s e = some t) :
    ok s e ∧ Guarded step ok t es := by
  simpa only [Guarded, ht] using h

theorem Guarded.append {s t : S} {es fs : List E} (h : Guarded step ok s es)
    (hrun : run step s es = some t) (h' : Guarded step ok t fs) :
    Guarded step ok s (es ++ fs) := by
  induction es generalizing s with
  | nil =>
    cases hrun
    exact h'
  | cons e es ih =>
    obtain ⟨u, hu, hr⟩ := run_cons_eq_some hrun
    obtain ⟨hok, hes⟩ := h.of_cons hu
    refine ⟨hok, ?_⟩
    rw [hu]
    exact ih hes hr

theorem Guarded.of_append {s : S} {es fs : List E} (h : Guarded step ok s (es ++ fs)) :
    Guarded step ok s es := by
  induction es generalizing s with
  | nil => trivial
  | cons e es ih =>
    refine ⟨h.1, ?_⟩
    split
    · trivial
    · rename_i t ht
      exact ih (h.of_cons ht).2

theorem Guarded.after {s t : S} {es fs : List E} (h : Guarded step ok s (es ++ fs))
    (hrun : run step s es = some t) : Guarded step ok t fs := by
  induction es generalizing s with
  | nil =>
    cases hrun
    exact h
  | cons e es ih =>
    obtain ⟨u, hu, hr⟩ := run_cons_eq_some hrun
    exact ih (h.of_cons hu).2 hr

theorem run_invariant {Inv : S → Prop}
    (hst : ∀ s e t, Inv s → ok s e → step s e = some t → Inv t)
    {s u : S} {es : List E} (hg : Guarded step ok s es)
    (hrun : run step s es = some u) (hs : Inv s) : Inv u := by
  induction es generalizing s with
  | nil =>
    have heq : s = u := by simpa only [run, Option.some.injEq] using hrun
    exact heq ▸ hs
  | cons e es ih =>
    obtain ⟨t, ht, hre⟩ := run_cons_eq_some hrun
    obtain ⟨hok, hr⟩ := hg.of_cons ht
    exact ih hr hre (hst s e t hs hok ht)

theorem guarded_of_forall {s : S} {es : List E} (h : ∀ e ∈ es, ∀ t, ok t e) :
    Guarded step ok s es := by
  induction es generalizing s with
  | nil => trivial
  | cons e es ih =>
    rw [List.forall_mem_cons] at h
    refine ⟨h.1 s, ?_⟩
    split
    · trivial
    · exact ih h.2

theorem Guarded.and_of_forall {p : E → Prop} {s : S} {es : List E}
    (h : Guarded step ok s es) (hp : ∀ e ∈ es, p e) :
    Guarded step (fun s e => p e ∧ ok s e) s es := by
  induction es generalizing s with
  | nil => trivial
  | cons e es ih =>
    rw [List.forall_mem_cons] at hp
    refine ⟨⟨hp.1, h.1⟩, ?_⟩
    split
    · trivial
    · rename_i t ht
      exact ih (h.of_cons ht).2 hp.2

/-- The unguarded case: an invariant of every step holds in every reachable state. -/
theorem run_invariant_of_step {Inv : S → Prop}
    (hst : ∀ s e t, Inv s → step s e = some t → Inv t)
    {s u : S} {es : List E} (hrun : run step s es = some u) (hs : Inv s) : Inv u := by
  have hg : Guarded step (fun _ _ => True) s es := guarded_of_forall fun _ _ _ => trivial
  exact run_invariant (fun s e t hi _ ht => hst s e t hi ht) hg hrun hs

/-- The states a run goes through. -/
def Visits (step : S → E → Option S) (s : S) (es : List E) (u : S) : Prop :=
  ∃ before after, es = before ++ after ∧ run step s before = some u

/-- A condition that holds along the visited states guards the run. -/
theorem guarded_of_visits {s u : S} {es : List E} (hrun : run step s es = some u)
    (h : ∀ v e t, Visits step s es v → Visits step s es t → step v e = some t → ok v e) :
    Guarded step ok s es := by
  induction es generalizing s with
  | nil => trivial
  | cons e es ih =>
    obtain ⟨t, ht, hr⟩ := run_cons_eq_some hrun
    have hl : ∀ v, Visits step t es v → Visits step s (e :: es) v := by
      rintro v ⟨before, after, rfl, hb⟩
      refine ⟨e :: before, after, rfl, ?_⟩
      rw [run, ht]
      exact hb
    refine ⟨h s e t ⟨[], e :: es, rfl, rfl⟩ (hl t ⟨[], es, rfl, rfl⟩) ht, ?_⟩
    rw [ht]
    exact ih hr fun v f w hv hw => h v f w (hl v hv) (hl w hw)

theorem exists_take_of_visits {s u : S} {es : List E} (h : Visits step s es u) :
    ∃ k ≤ es.length, run step s (es.take k) = some u := by
  obtain ⟨before, after, rfl, hrun⟩ := h
  refine ⟨before.length, ?_, ?_⟩
  · rw [List.length_append]
    omega
  · rwa [List.take_left]

theorem Visits.append {s t u : S} {es fs : List E} (hrun : run step s es = some t)
    (h : Visits step t fs u) : Visits step s (es ++ fs) u := by
  obtain ⟨before, after, rfl, hb⟩ := h
  refine ⟨es ++ before, after, by rw [List.append_assoc], ?_⟩
  rw [run_append hrun]
  exact hb

theorem Visits.of_append {s u : S} {es : List E} (h : Visits step s es u) (fs : List E) :
    Visits step s (es ++ fs) u := by
  obtain ⟨before, after, rfl, hb⟩ := h
  exact ⟨before, after ++ fs, by rw [List.append_assoc], hb⟩

/-- The invariant rule for what may speak of the states the run has gone through. -/
theorem run_invariant_of_visits {Inv : S → Prop} {s u : S} {es : List E}
    (hst : ∀ v e t, Visits step s es v → Visits step s es t → Inv v → ok v e →
      step v e = some t → Inv t)
    (hg : Guarded step ok s es) (hrun : run step s es = some u) (hs : Inv s) : Inv u := by
  have hr : ∀ after before v, es = before ++ after → run step s before = some v →
      Guarded step ok v after → run step v after = some u → Inv v → Inv u := by
    intro after
    induction after with
    | nil =>
      intro before v _ _ _ hv hinv
      cases hv
      exact hinv
    | cons e after ih =>
      intro before v heq hb hgu hv hinv
      obtain ⟨t, ht, ha⟩ := run_cons_eq_some hv
      obtain ⟨hok, hgu⟩ := hgu.of_cons ht
      have hn : run step s (before ++ [e]) = some t := by
        rw [run_append hb, run, ht]
        rfl
      refine ih (before ++ [e]) t (by simp [heq]) hn hgu ha ?_
      exact hst v e t ⟨before, e :: after, heq, hb⟩
        ⟨before ++ [e], after, by simp [heq], hn⟩ hinv hok ht
  exact hr es [] s rfl rfl hg hrun hs

/-- Two runs whose events differ only in ones that leave a view of the state alone give the
same view. -/
theorem run_view_eq {V : Type*} {Inv : S → Prop} (view : S → V) (heard : E → Bool)
    (hinv : ∀ s e t, Inv s → step s e = some t → Inv t)
    (hq : ∀ s e t, Inv s → heard e = false → step s e = some t → view t = view s)
    (hh : ∀ s s' e t t', Inv s → Inv s' → view s = view s' → step s e = some t →
      step s' e = some t' → view t = view t')
    {s s' t t' : S} {es fs : List E} (hs : Inv s) (hs' : Inv s') (hv : view s = view s')
    (hrun : run step s es = some t) (hru : run step s' fs = some t')
    (hsa : es.filter heard = fs.filter heard) : view t = view t' := by
  induction es generalizing s s' fs with
  | nil =>
    obtain rfl := Option.some.inj hrun
    rw [List.filter_nil] at hsa
    induction fs generalizing s' with
    | nil =>
      obtain rfl := Option.some.inj hru
      exact hv
    | cons f fs ih =>
      obtain ⟨u, hu, hre⟩ := run_cons_eq_some hru
      have hf : heard f = false := by
        cases hf : heard f with
        | false => rfl
        | true => simp [hf] at hsa
      have hsk := hq _ _ _ hs' hf hu
      refine ih (hinv _ _ _ hs' hu) (hv.trans hsk.symm) hre ?_
      simpa [List.filter_cons, hf] using hsa
  | cons e es ih =>
    obtain ⟨u, hu, hre⟩ := run_cons_eq_some hrun
    by_cases he : heard e = true
    · rw [List.filter_cons_of_pos he] at hsa
      induction fs generalizing s' with
      | nil => simp at hsa
      | cons f fs ih' =>
        obtain ⟨u', hu', hr⟩ := run_cons_eq_some hru
        by_cases hf : heard f = true
        · rw [List.filter_cons_of_pos hf, List.cons.injEq] at hsa
          obtain ⟨rfl, hsa⟩ := hsa
          exact ih (hinv _ _ _ hs hu) (hinv _ _ _ hs' hu')
            (hh _ _ _ _ _ hs hs' hv hu hu') hre hr hsa
        · rw [List.filter_cons_of_neg hf] at hsa
          have hsk := hq _ _ _ hs' (by simpa using hf) hu'
          exact ih' (hinv _ _ _ hs' hu') (hv.trans hsk.symm) hr hsa
    · rw [List.filter_cons_of_neg he] at hsa
      have hsk := hq _ _ _ hs (by simpa using he) hu
      exact ih (hinv _ _ _ hs hu) hs' (hsk.trans hv) hre hru hsa

end Aizzak.EventRuns
