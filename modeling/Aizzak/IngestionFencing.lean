import Aizzak.IngestionCoherence
import Aizzak.IngestionPages

/-!
What the attempt of a job protects. Every take of a job has a larger attempt than all earlier
ones, so at most one run owns it, and what a run writes after its take it writes as the owner.
-/
namespace Aizzak.IngestionFencing

open EventRuns KeyedTables VersionedRows IngestionJobs IngestionRuns IngestionWrites Option
open IngestionCoherence IngestionPages

section Machine

variable {Sig P E C Q : Type} {cfg : Settings} {ins : Inspector Sig P E C Q}
  {s t : State P E C Q} {e : Event Sig P} {r : ℕ} {run : Run P E C Q}

def Took (s : State P E C Q) (r : ℕ) (job : String) (attempt : ℕ) : Prop :=
  ∃ run, s.runs.lookup r = some run ∧ run.phase.isTaken = true ∧ run.job = job ∧
    run.taken.attempt = attempt

theorem took_rephase {phase : Phase P E C Q} (hrun : s.runs.lookup r = some run)
    (ht : run.phase.isTaken = true) (hp : phase.isTaken = true)
    (hru : t.runs = s.runs.insert r { run with phase := phase }) {i : ℕ} {job : String}
    {attempt : ℕ} : Took t i job attempt ↔ Took s i job attempt := by
  rw [Took, Took, hru]
  constructor
  · rintro ⟨a, ha, hr⟩
    rcases lookup_insert_iff.mp ha with ⟨rfl, rfl⟩ | ⟨-, hold⟩
    · exact ⟨run, hrun, ht, hr.2⟩
    · exact ⟨a, hold, hr⟩
  · rintro ⟨a, ha, hr⟩
    by_cases hi : i = r
    · subst hi
      obtain rfl : run = a := mem_unique hrun ha
      exact ⟨{ run with phase := phase }, by simp, hp, hr.2⟩
    · exact ⟨a, by rwa [AList.lookup_insert_ne hi], hr⟩

/-- No take is forgotten, and a new one exceeds all earlier ones of its job. -/
theorem step_took (hs : Coherent s) (ht : step cfg ins s e = some t) :
    (∀ i job attempt, Took s i job attempt → Took t i job attempt) ∧
    ∀ r job attempt, Took t r job attempt →
      Took s r job attempt ∨ ∀ i other, Took s i job other → other < attempt := by
  cases step_runs hs ht with
  | same hr =>
    have hsa : ∀ i job attempt, Took t i job attempt ↔ Took s i job attempt := by
      intro i job attempt
      rw [Took, Took, hr]
    exact ⟨fun i job attempt => (hsa i job attempt).mpr,
      fun i job attempt h => .inl ((hsa i job attempt).mp h)⟩
  | started r run hnew hst hj hr =>
    constructor
    · rintro i job attempt ⟨a, ha, hre⟩
      have hne : i ≠ r := fun h => hnew (h ▸ mem_of_lookup ha)
      exact ⟨a, by rwa [hr, AList.lookup_insert_ne hne], hre⟩
    · rintro i job attempt ⟨a, ha, hisTaken, hre⟩
      rw [hr] at ha
      rcases lookup_insert_iff.mp ha with ⟨-, rfl⟩ | ⟨-, hold⟩
      · simp [hst.taken] at hisTaken
      · exact .inl ⟨a, hold, hisTaken, hre⟩
  | dropped r run hrun hta hr =>
    constructor
    · rintro i job attempt ⟨a, ha, hisTaken, hre⟩
      refine ⟨a, hr ▸ lookup_erase_iff.mpr ⟨?_, ha⟩, hisTaken, hre⟩
      rintro rfl
      obtain rfl : run = a := mem_unique hrun ha
      simp [hta] at hisTaken
    · rintro i job attempt ⟨a, ha, hre⟩
      rw [hr] at ha
      exact .inl ⟨a, (lookup_erase_iff.mp ha).2, hre⟩
  | took r run hrun hta read hrd hl haf hr =>
    constructor
    · rintro i job attempt ⟨a, ha, hisTaken, hre⟩
      refine ⟨a, hr ▸ lookup_insert_iff.mpr (.inr ⟨?_, ha⟩), hisTaken, hre⟩
      rintro rfl
      obtain rfl : run = a := mem_unique hrun ha
      simp [hta] at hisTaken
    · rintro i job attempt ⟨a, ha, hisTaken, hjob, hat⟩
      rw [hr] at ha
      rcases lookup_insert_iff.mp ha with ⟨-, rfl⟩ | ⟨-, hold⟩
      · right
        rintro j other ⟨b, hb, hbTaken, hbJob, rfl⟩
        exact hat ▸ hs.take_exceeds hrd hl j b hb hbTaken (hbJob.trans hjob.symm)
      · exact .inl ⟨a, hold, hisTaken, hjob, hat⟩
  | proceeded r run input phase he hrun hta _ ho heq =>
    subst heq
    exact ⟨fun i job attempt => (took_rephase hrun hta ho.isTaken rfl).mpr,
      fun i job attempt h => .inl ((took_rephase hrun hta ho.isTaken rfl).mp h)⟩
  | committed r run write next stale he hrun hp hap hr =>
    have hso := hs.sound r run hrun
    simp only [hp] at hso
    have hta : run.phase.isTaken = true := by simp [hp, Phase.isTaken]
    have hn := isTaken_of_plain hso.2.1
    exact ⟨fun i job attempt => (took_rephase hrun hta hn hr).mpr,
      fun i job attempt h => .inl ((took_rephase hrun hta hn hr).mp h)⟩
  | conflicted r run write next stale found hrun hp hpl hne heq =>
    subst heq
    have hta : run.phase.isTaken = true := by simp [hp, Phase.isTaken]
    have hn := isTaken_of_plain hpl
    exact ⟨fun i job attempt => (took_rephase hrun hta hn rfl).mpr,
      fun i job attempt h => .inl ((took_rephase hrun hta hn rfl).mp h)⟩

structure Since (old : State P E C Q) (i : ℕ) (job : String) (attempt : ℕ)
    (s : State P E C Q) : Prop where
  coherent : Coherent s
  took : Took s i job attempt
  newer : ∀ r other, Took s r job other → Took old r job other ∨ attempt < other

theorem step_since {old : State P E C Q} {i : ℕ} {job : String} {attempt : ℕ}
    (s : State P E C Q) (e : Event Sig P) (t : State P E C Q) (hs : Since old i job attempt s)
    (ht : step cfg ins s e = some t) : Since old i job attempt t := by
  obtain ⟨hk, hnew⟩ := step_took hs.coherent ht
  refine ⟨step_coherent s e t hs.coherent ht, hk i job attempt hs.took, ?_⟩
  intro r other hto
  rcases hnew r job other hto with hold | hl
  · exact hs.newer r other hold
  · exact .inr (hl i attempt hs.took)

def actor : Event Sig P → Option ℕ
  | .deliver r _ _ _ | .takeCommit r | .takeFails r | .proceed r _ | .commit r => some r
  | _ => none

/-- What a run that has taken its job changes of the stored rows, it changes as their owner. -/
theorem step_owns (hs : Coherent s) (ht : step cfg ins s e = some t) (hac : actor e = some r)
    (hrun : s.runs.lookup r = some run) (hta : run.phase.isTaken = true) :
    (∀ id, t.jobs.lookup id ≠ s.jobs.lookup id → id = run.job ∧ s.ownedJob run ≠ none) ∧
    ∀ key, t.pages.lookup key ≠ s.pages.lookup key → s.ownedJob run ≠ none ∨
      s.pages.lookup key = none ∧ t.pages.lookup key = some ⟨.pending, none, 0, none⟩ := by
  cases e with
  | deliver i job event now =>
    obtain rfl : i = r := some.inj hac
    simp [step, mem_of_lookup hrun] at ht
  | takeCommit i =>
    obtain rfl : i = r := some.inj hac
    obtain ⟨found, hf, ht⟩ := bind_eq_some_iff.mp ht
    obtain rfl : run = found := mem_unique hrun hf
    simp [(takeCommit_eq_some (hs.sound _ run hrun) ht).1] at hta
  | takeFails i =>
    obtain rfl : i = r := some.inj hac
    simp [step, hrun, hta] at ht
  | proceed i input =>
    obtain ⟨found, hf, ht⟩ := bind_eq_some_iff.mp ht
    obtain ⟨phase, -, rfl⟩ := map_eq_some_iff.mp ht
    exact ⟨fun id h => absurd rfl h, fun key h => absurd rfl h⟩
  | commit i =>
    obtain rfl : i = r := some.inj hac
    obtain ⟨found, hf, ht⟩ := bind_eq_some_iff.mp ht
    obtain rfl : run = found := mem_unique hrun hf
    have hso := hs.sound _ run hrun
    obtain ⟨-, -, -, hc⟩ := commitRun_eq_some hso ht
    cases hc with
    | conflict _ _ _ _ _ _ _ heq =>
      subst heq
      exact ⟨fun id h => absurd rfl h, fun key h => absurd rfl h⟩
    | wrote write next stale hph hap _ =>
      simp only [hph] at hso
      rcases hap.jobs with ⟨hn, hsa⟩ | ⟨read, saved, hjob, hsv⟩
      · refine ⟨fun id h => absurd (by rw [hsa]) h, fun key h => .inr ?_⟩
        have hp := hap.pages
        rw [hso.1.results hn] at hp
        rcases lookup_seed s.pages run.document write.seeds key with hse | ⟨hnew, hse, -⟩
        · exact absurd (hp ▸ hse) h
        · exact ⟨hnew, hp ▸ hse⟩
      · obtain ⟨hcu, ha, hown⟩ := hso.1.own read saved hjob
        obtain ⟨hr, hj⟩ := saveJob_eq_ok hcu hsv
        have ho : s.ownedJob run ≠ none := by
          have hm : read.value.owned run.taken.attempt = true :=
            IngestionJob.owned_iff.mpr ⟨hown.running, ha⟩
          simp [State.ownedJob, hr, hm]
        refine ⟨fun id h => ⟨?_, ho⟩, fun _ _ => .inl ho⟩
        by_contra hne
        exact h (by rw [hj, AList.lookup_insert_ne hne])
  | _ => cases hac

/-- However runs, faults, takeovers and requests interleave: a take has a larger attempt than
every earlier take of the job, at most one run owns a job, and what a run that has taken its
job changes of a job row or of a page's result, it changes while it owns the job. The only
other rows it writes are the pending ones of pages that had none. -/
theorem ingestion_runs_are_fenced (cfg : Settings) (ins : Inspector Sig P E C Q)
    (before after : List (Event Sig P)) (s t : State P E C Q)
    (hs : EventRuns.run (step cfg ins) State.init before = some s)
    (ht : EventRuns.run (step cfg ins) s after = some t) :
    (∀ i job attempt, Took s i job attempt → ∀ r other, Took t r job other →
      ¬ Took s r job other → attempt < other) ∧
    (∀ job row, t.jobs.lookup job = some row → ∀ i j a b, Took t i job a → Took t j job b →
      row.value.owned a = true → row.value.owned b = true → i = j) ∧
    ∀ e u, step cfg ins t e = some u → ∀ r run, actor e = some r → t.runs.lookup r = some run →
      run.phase.isTaken = true →
        (∀ id, u.jobs.lookup id ≠ t.jobs.lookup id → id = run.job ∧ t.ownedJob run ≠ none) ∧
        ∀ key, u.pages.lookup key ≠ t.pages.lookup key → t.ownedJob run ≠ none ∨
          t.pages.lookup key = none ∧ u.pages.lookup key = some ⟨.pending, none, 0, none⟩ := by
  have hc : Coherent s := run_invariant_of_step step_coherent hs coherent_init
  have hla : Coherent t := run_invariant_of_step step_coherent ht hc
  refine ⟨?_, ?_, ?_⟩
  · intro i job attempt hto r other hl hnew
    have hsi : Since s i job attempt s := ⟨hc, hto, fun _ _ h => .inl h⟩
    have hend := run_invariant_of_step step_since ht hsi
    exact (hend.newer r other hl).resolve_left hnew
  · intro job row hrow i j a b hf hse ha hb
    obtain ⟨first, hi, hiTaken, rfl, rfl⟩ := hf
    obtain ⟨second, hj, hjTaken, hjob, rfl⟩ := hse
    have hsa : first.taken.attempt = second.taken.attempt :=
      (IngestionJob.owned_iff.mp ha).2.symm.trans (IngestionJob.owned_iff.mp hb).2
    exact hla.distinct i j first second hi hj hiTaken hjTaken hjob.symm hsa
  · intro e u hu r run hac hrun hta
    exact step_owns hla hu hac hrun hta

end Machine

private def taken : List (Event ℕ Unit) :=
  [.register "d" "j" "p" "f" [] [], .deliver 0 "j" "e" 0, .takeCommit 0]

private def takenOver : List (Event ℕ Unit) := [.deliver 1 "j" "e" 20000000, .takeCommit 1]

instance (s : State Unit Unit ℕ ℕ) (r : ℕ) (job : String) (attempt : ℕ) :
    Decidable (Took s r job attempt) :=
  decidable_of_iff ((s.runs.lookup r).any fun run =>
    run.phase.isTaken && run.job == job && run.taken.attempt == attempt) (by
      simp [Took, Option.any_eq_true, and_assoc])

theorem takeover_has_larger_attempt :
    ∃ s t, EventRuns.run (step sampleSettings pageCounter) State.init taken = some s ∧
      EventRuns.run (step sampleSettings pageCounter) s takenOver = some t ∧
      Took s 0 "j" 1 ∧ Took t 1 "j" 2 ∧ ¬ Took s 1 "j" 2 ∧ 1 < 2 := by
  obtain ⟨s, hs, hte⟩ := exists_run_of_any
    (p := fun s : State Unit Unit ℕ ℕ => decide (Took s 0 "j" 1) && !decide (Took s 1 "j" 2) &&
      (EventRuns.run (step sampleSettings pageCounter) s takenOver).any fun t =>
        decide (Took t 1 "j" 2))
    (show (EventRuns.run (step sampleSettings pageCounter) State.init taken).any _ = true by
      decide +kernel)
  simp only [Bool.and_eq_true, Bool.not_eq_true', decide_eq_true_eq, decide_eq_false_iff_not,
    any_eq_true] at hte
  obtain ⟨⟨hfi, hnew⟩, t, ht, hse⟩ := hte
  have hf := ingestion_runs_are_fenced sampleSettings pageCounter taken takenOver s t hs ht
  have hl := hf.1 0 "j" 1 hfi 1 2 hse hnew
  exact ⟨s, t, hs, ht, hfi, hse, hnew, hl⟩

end Aizzak.IngestionFencing
