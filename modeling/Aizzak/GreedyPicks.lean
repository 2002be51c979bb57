import Mathlib

/-!
Positions below a bound picked one after another, each the earliest of greatest score among
those not yet picked, where a score may depend on the earlier picks. There is only one such
sequence of each length. Where the scores do not depend on the earlier picks, it is the stable
order by descending score, cut to the length.
-/
namespace Aizzak.GreedyPicks

open List

variable {β : Type*} [LinearOrder β]

section Stable

variable {α : Type*} {f : α → β} {S : α → α → Prop}

theorem pairwise_orderedInsert_desc {a : α} {l : List α}
    (h : l.Pairwise fun a b => f b < f a ∨ (f a = f b ∧ S a b)) (hbe : ∀ b ∈ l, S a b) :
    (l.orderedInsert (fun a b => f b ≤ f a) a).Pairwise
      fun a b => f b < f a ∨ (f a = f b ∧ S a b) := by
  induction l with
  | nil => exact pairwise_singleton _ a
  | cons b l ih =>
    obtain ⟨hb, hl⟩ := pairwise_cons.mp h
    rw [List.orderedInsert]
    by_cases hle : f b ≤ f a
    · rw [if_pos hle]
      refine List.Pairwise.cons (fun c hc => ?_) h
      have hcle : f c ≤ f a := by
        rcases mem_cons.mp hc with rfl | hla
        · exact hle
        · rcases hb c hla with hlt | ⟨heq, -⟩
          · exact hlt.le.trans hle
          · exact heq ▸ hle
      rcases hcle.lt_or_eq with hlt | heq
      · exact Or.inl hlt
      · exact Or.inr ⟨heq.symm, hbe c hc⟩
    · rw [if_neg hle]
      refine List.Pairwise.cons (fun c hc => ?_) ?_
      · rcases (mem_orderedInsert _).mp hc with rfl | hla
        · exact Or.inl (not_le.mp hle)
        · exact hb c hla
      · exact ih hl fun c hc => hbe c (mem_cons_of_mem b hc)

/-- A stable descending sort puts ties in the order they had. -/
theorem pairwise_insertionSort_desc {l : List α} (h : l.Pairwise S) :
    (l.insertionSort fun a b => f b ≤ f a).Pairwise
      fun a b => f b < f a ∨ (f a = f b ∧ S a b) := by
  induction l with
  | nil => exact List.Pairwise.nil
  | cons a l ih =>
    obtain ⟨hbe, hl⟩ := pairwise_cons.mp h
    rw [insertionSort_cons]
    refine pairwise_orderedInsert_desc (ih hl) fun b hb => ?_
    exact hbe b ((mem_insertionSort _).mp hb)

end Stable

variable (score : List ℕ → ℕ → β) (total : ℕ)

structure IsPick (earlier : List ℕ) (pick : ℕ) : Prop where
  lt_total : pick < total
  fresh : pick ∉ earlier
  best : ∀ i < total, i ∉ earlier → score earlier i ≤ score earlier pick
  first : ∀ i < total, i ∉ earlier → score earlier i = score earlier pick → pick ≤ i

/-- Each position is picked after those before it and the given ones. -/
def GreedyAfter (earlier positions : List ℕ) : Prop :=
  ∀ front pick back, positions = front ++ pick :: back → IsPick score total (earlier ++ front) pick

def Greedy (positions : List ℕ) : Prop := GreedyAfter score total [] positions

variable {score total} {earlier positions : List ℕ} {pick : ℕ}

theorem greedyAfter_nil : GreedyAfter score total earlier [] := by
  intro front pick back h
  exact absurd h (by simp)

theorem GreedyAfter.cons (hp : IsPick score total earlier pick)
    (h : GreedyAfter score total (earlier ++ [pick]) positions) :
    GreedyAfter score total earlier (pick :: positions) := by
  intro front next back hs
  cases front with
  | nil =>
    obtain ⟨rfl, -⟩ := List.cons.inj hs
    rwa [append_nil]
  | cons head front =>
    obtain ⟨rfl, hr⟩ := List.cons.inj hs
    have hn := h front next back hr
    rwa [append_assoc] at hn

theorem IsPick.unique {other : ℕ} (h : IsPick score total earlier pick)
    (ho : IsPick score total earlier other) : pick = other := by
  have heq : score earlier other = score earlier pick :=
    le_antisymm (h.best other ho.lt_total ho.fresh)
      (ho.best pick h.lt_total h.fresh)
  exact le_antisymm (h.first other ho.lt_total ho.fresh heq)
    (ho.first pick h.lt_total h.fresh heq.symm)

/-- The first maximum of what remains is the next pick. -/
theorem isPick_of_argmax
    (h : ((List.range total).filter (· ∉ earlier)).argmax (score earlier) = some pick) :
    IsPick score total earlier pick := by
  have hmem : ∀ i, i ∈ (List.range total).filter (· ∉ earlier) ↔ i < total ∧ i ∉ earlier := by
    intro i
    rw [mem_filter, mem_range, decide_eq_true_iff]
  obtain ⟨hlt, hf⟩ := (hmem pick).mp (argmax_mem h)
  refine ⟨hlt, hf, fun i hi ho => ?_, fun i hi ho heq => ?_⟩
  · exact le_of_mem_argmax ((hmem i).mpr ⟨hi, ho⟩) h
  · have hin := index_of_argmax h ((hmem i).mpr ⟨hi, ho⟩) heq.ge
    have hs : ((List.range total).filter (· ∉ earlier)).Pairwise (· < ·) :=
      pairwise_lt_range.filter _
    have hat : ∀ j ∈ (List.range total).filter (· ∉ earlier),
        ((List.range total).filter (· ∉ earlier)).idxOf j <
          ((List.range total).filter (· ∉ earlier)).length :=
      fun j hj => idxOf_lt_length_of_mem hj
    have hp := hat pick (argmax_mem h)
    have hiat := hat i ((hmem i).mpr ⟨hi, ho⟩)
    rcases hin.lt_or_eq with hlt' | heq'
    · have hl := pairwise_iff_getElem.mp hs _ _ hp hiat hlt'
      rw [getElem_idxOf, getElem_idxOf] at hl
      exact hl.le
    · exact ((idxOf_inj (argmax_mem h)).mp heq').le

theorem Greedy.of_append {later : List ℕ} (h : Greedy score total (positions ++ later)) :
    Greedy score total positions := by
  intro front pick back hs
  apply h front pick (back ++ later)
  rw [hs, append_assoc, cons_append]

theorem Greedy.nodup (h : Greedy score total positions) : positions.Nodup := by
  induction positions using List.reverseRecOn with
  | nil => exact nodup_nil
  | append_singleton front last ih =>
    have hl := h front last [] rfl
    refine nodup_append.mpr ⟨ih h.of_append, nodup_singleton last, ?_⟩
    intro a ha b hb heq
    rw [mem_singleton] at hb
    exact hl.fresh (hb ▸ heq ▸ ha)

theorem Greedy.of_le_iff {γ : Type*} [LinearOrder γ] {other : List ℕ → ℕ → γ}
    (hs : ∀ earlier i j, score earlier i ≤ score earlier j ↔
      other earlier i ≤ other earlier j)
    (h : Greedy score total positions) : Greedy other total positions := by
  intro front pick back hsp
  obtain ⟨hlt, hfr, hb, hf⟩ := h front pick back hsp
  refine ⟨hlt, hfr, fun i hi ho => ?_, fun i hi ho heq => ?_⟩
  · exact (hs _ _ _).mp (hb i hi ho)
  · apply hf i hi ho
    exact le_antisymm ((hs _ _ _).mpr heq.le) ((hs _ _ _).mpr heq.ge)

theorem Greedy.eq_of_length {other : List ℕ} (h : Greedy score total positions)
    (ho : Greedy score total other) (hl : positions.length = other.length) :
    positions = other := by
  induction positions using List.reverseRecOn generalizing other with
  | nil => exact (eq_nil_of_length_eq_zero hl.symm).symm
  | append_singleton front last ih =>
    rcases eq_nil_or_concat other with rfl | ⟨front', last', rfl⟩
    · simp at hl
    · rw [concat_eq_append] at ho hl ⊢
      rw [length_append, length_append, length_singleton, length_singleton]
        at hl
      obtain rfl := ih h.of_append ho.of_append (Nat.add_right_cancel hl)
      rw [(h front last [] rfl).unique (ho front last' [] rfl)]

/-- Where the scores do not depend on earlier picks the stable descending order is greedy. -/
theorem greedy_insertionSort (f : ℕ → β) (n : ℕ) :
    Greedy (fun _ => f) total
      (((List.range total).insertionSort fun i j => f j ≤ f i).take n) := by
  have hp := perm_insertionSort (fun i j => f j ≤ f i) (List.range total)
  have hs : ((List.range total).insertionSort fun i j => f j ≤ f i).Pairwise
      fun i j => f j < f i ∨ (f i = f j ∧ i < j) :=
    pairwise_insertionSort_desc pairwise_lt_range
  rw [← take_append_drop n ((List.range total).insertionSort fun i j => f j ≤ f i)]
    at hp hs
  intro front pick back hsp
  rw [hsp, append_assoc, cons_append] at hp hs
  have hmem : ∀ i, i < total ↔ i ∈ front ∨ i = pick ∨ i ∈ back ++
      ((List.range total).insertionSort fun i j => f j ≤ f i).drop n := by
    intro i
    rw [← mem_range, ← hp.mem_iff, mem_append, mem_cons]
  have hn := hp.nodup_iff.mpr nodup_range
  have ha := (pairwise_cons.mp (pairwise_append.mp hs).2.1).1
  refine ⟨(hmem pick).mpr (Or.inr (Or.inl rfl)), fun he => ?_, fun i hi ho => ?_,
    fun i hi ho heq => ?_⟩
  · exact (nodup_append.mp hn).2.2 pick he pick mem_cons_self rfl
  · rcases (hmem i).mp hi with he | rfl | hl
    · exact absurd he ho
    · exact le_rfl
    · rcases ha i hl with hlt | ⟨heq, -⟩
      · exact hlt.le
      · exact heq.ge
  · rcases (hmem i).mp hi with he | rfl | hl
    · exact absurd he ho
    · exact le_rfl
    · rcases ha i hl with hlt | ⟨-, hle⟩
      · exact absurd heq hlt.ne
      · exact hle.le

end Aizzak.GreedyPicks
