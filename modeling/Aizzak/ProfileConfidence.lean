import Aizzak.ProfileDetection

/-!
Which thresholds a proposal can reach. The symbols are never surer than four fifths of the
convention they are inferred from, whatever the producers say, and a drawing of one convention
without other evidence reaches this.
-/
namespace Aizzak.ProfileConfidence

open PyText Normalization IdentifierParsers RuleNarrowing DrawingProfiles ProfileDetection List

/-- The test of `_settle`: a proposal that reaches the base's threshold is accepted. -/
def Accepted (base : DrawingProfile) (proposal : ProfileProposal) : Prop :=
  base.autoAcceptConfidence.value ≤ proposal.confidence

section Bound

theorem sampleFactor_le_one (identifiers : ℕ) : sampleFactor identifiers ≤ 1 := by
  unfold sampleFactor
  split_ifs
  · exact zero_le_one
  · exact min_le_left _ _

theorem sampleFactor_nonneg (identifiers : ℕ) : 0 ≤ sampleFactor identifiers := by
  unfold sampleFactor
  split_ifs
  · exact le_rfl
  · exact le_min zero_le_one (div_nonneg (Nat.cast_nonneg _) (Nat.cast_nonneg _))

theorem margin_le_one (counts : List ℕ) : margin counts ≤ 1 := by
  unfold margin
  dsimp only
  split_ifs with hsum
  · exact zero_le_one
  · have hf : counts.head?.getD 0 ≤ counts.sum := by
      cases counts with
      | nil => exact Nat.le_refl 0
      | cons first rest =>
        rw [sum_cons]
        exact Nat.le_add_right first rest.sum
    have hpos : (0 : ℚ) < counts.sum := Nat.cast_pos.mpr (Nat.pos_of_ne_zero hsum)
    rw [div_le_one hpos]
    have hle : ((counts.head?.getD 0 : ℕ) : ℚ) ≤ counts.sum := by exact_mod_cast hf
    have hs : (0 : ℚ) ≤ (counts.tail.head?.getD 0 : ℕ) := Nat.cast_nonneg _
    linarith

theorem conventionOf_le_one (base : DrawingProfile) (tally : ConventionTally) :
    (conventionOf base tally).2 ≤ 1 := by
  unfold conventionOf
  split
  · exact zero_le_one
  · calc margin _ * sampleFactor tally.identifiers
        ≤ 1 * sampleFactor tally.identifiers :=
          mul_le_mul_of_nonneg_right (margin_le_one _) (sampleFactor_nonneg _)
      _ ≤ 1 := by
          rw [one_mul]
          exact sampleFactor_le_one _

theorem score_le_sum {votes : List (SymbolStandard × ℚ)} (hvo : ∀ v ∈ votes, 0 ≤ v.2)
    (standard : SymbolStandard) :
    0 ≤ score votes standard ∧ score votes standard ≤ (votes.map Prod.snd).sum := by
  induction votes with
  | nil => exact ⟨le_rfl, le_rfl⟩
  | cons v votes ih =>
    obtain ⟨hv, hr⟩ := forall_mem_cons.mp hvo
    obtain ⟨hn, hle⟩ := ih hr
    unfold score at hn hle ⊢
    rw [map_cons, sum_cons]
    by_cases hs : v.1 = standard
    · rw [filter_cons, if_pos (decide_eq_true hs), map_cons, sum_cons]
      exact ⟨add_nonneg hv hn, add_le_add le_rfl hle⟩
    · rw [filter_cons, if_neg (by simpa using hs)]
      exact ⟨hn, hle.trans (le_add_of_nonneg_left hv)⟩

theorem votes_nonneg (convention : Convention) (hits : List ProducerSignature) (zhShare : ℚ) :
    ∀ v ∈ votes convention hits zhShare, 0 ≤ v.2 := by
  intro v hv
  unfold votes at hv
  rw [cons_append, mem_cons, mem_append] at hv
  rcases hv with rfl | hhit | hzh
  · exact zero_le_one
  · obtain ⟨hit, -, hh⟩ := mem_filterMap.mp hhit
    obtain ⟨standard, -, rfl⟩ := Option.map_eq_some_iff.mp hh
    exact hit.weight_pos.le
  · split_ifs at hzh
    · rw [mem_singleton.mp hzh]
      unfold zhSymbolWeight
      positivity
    · exact absurd hzh not_mem_nil

theorem symbol_le (convention : Convention) {confidence : ℚ} (hc : confidence ≤ 1)
    (hits : List ProducerSignature) (zhShare : ℚ) :
    (symbol convention confidence hits zhShare).2 ≤ symbolConfidenceFactor := by
  unfold symbol
  dsimp only
  set chosen := (rankedStandards (votes convention hits zhShare)).head?.getD (symbolOf convention)
  obtain ⟨hn, hle⟩ := score_le_sum (votes_nonneg convention hits zhShare) chosen
  have hf : (0 : ℚ) ≤ symbolConfidenceFactor := by
    unfold symbolConfidenceFactor
    positivity
  have hs : score (votes convention hits zhShare) chosen /
      ((votes convention hits zhShare).map Prod.snd).sum ≤ 1 :=
    div_le_one_of_le₀ hle (hn.trans hle)
  have hpos : 0 ≤ score (votes convention hits zhShare) chosen /
      ((votes convention hits zhShare).map Prod.snd).sum := div_nonneg hn (hn.trans hle)
  calc confidence * symbolConfidenceFactor * _
      ≤ 1 * symbolConfidenceFactor * _ :=
        mul_le_mul_of_nonneg_right (mul_le_mul_of_nonneg_right hc hf) hpos
    _ ≤ symbolConfidenceFactor := by
        rw [one_mul]
        exact mul_le_of_le_one_right hf hs

private theorem eplan_weight_pos : (0 : ℚ) < 1 / 2 := by norm_num

def eplan : ProducerSignature :=
  ⟨ofString "EPLAN", ofString "eplan", some .iec60617, 1 / 2, eplan_weight_pos⟩

-- A producer that votes as the convention does leaves the bound reached.
example : symbol .iec81346 1 (matchingProducers asciiUnicode
    ⟨some (ofString "eplan electric P8"), some (ofString "Cairo 1.16")⟩ [eplan]) 0 =
      (.iec60617, symbolConfidenceFactor) := by
  decide +kernel

theorem confidence_le (u : Unicode) (base : DrawingProfile) (evidence : Evidence) :
    (detectProfile u base evidence).confidence ≤ symbolConfidenceFactor := by
  have hs : (detectProfile u base evidence).confidence ≤
      (detectProfile u base evidence).fieldConfidence.symbolStandard :=
    (min_le_right _ _).trans (min_le_left _ _)
  exact hs.trans (symbol_le _ (conventionOf_le_one base evidence.tally) _ _)

end Bound

section Reached

def contactor : Text := ofString "-K1"

theorem parse_contactor (u : Unicode) :
    parse u packaged contactor none = parse asciiUnicode packaged contactor none := by
  have hp : contactor.all (IsPlain ·) = true := by decide +kernel
  exact parse_of_isPlain fun c hc => of_decide_eq_true (all_eq_true.mp hp c hc)

def contactors (u : Unicode) : Evidence :=
  ⟨⟨none, none⟩, [.en], tally u packaged (List.replicate 100 contactor), []⟩

theorem tally_contactors (u : Unicode) : (contactors u).tally =
    ⟨fun c => if c = .iec81346 then 100 else 0, fun _ => 0, [], 100, 100⟩ := by
  have hr : (parse asciiUnicode packaged contactor none).any fun found =>
      found.kind = .referenceDesignation ∧ found.convention = some .iec81346 ∧
        found.plc = none ∧ found.issues = [] := by
    decide +kernel
  obtain ⟨found, hfo, hr⟩ := (Option.any_eq_true _ _).mp hr
  obtain ⟨hk, hc, hplc, hi⟩ := of_decide_eq_true hr
  have hp : (List.replicate 100 contactor).filterMap
      (fun token => parse u packaged token none) = List.replicate 100 found :=
    filterMap_replicate_of_some (parse_contactor u ▸ hfo)
  have hke : (List.replicate 100 found).filter (issueNonAscii ∉ ·.issues) =
      List.replicate 100 found := by
    rw [filter_replicate_of_pos]
    rw [hi]
    rfl
  have hf : ((List.replicate 100 found).filter (·.kind = .crossReference)).filterMap
      (·.variant) = [] := by
    rw [filter_replicate_of_neg (by simp [hk]), filterMap_nil]
  unfold contactors tally
  simp only [hp, hke, hf, length_replicate, countP_replicate, hc,
    hplc]
  congr 1
  funext c
  cases c <;> rfl

/-- Four fifths are reached by a drawing of one convention. -/
theorem confidence_contactors (u : Unicode) (base : DrawingProfile) :
    (detectProfile u base (contactors u)).confidence = symbolConfidenceFactor := by
  have hm : margin [100] = 1 := by
    unfold margin
    norm_num
  have hs : sampleFactor 100 = 1 := by
    unfold sampleFactor minIdentifiers fullConfidenceIdentifiers
    norm_num
  have hc : conventionOf base (contactors u).tally = (.iec81346, 1) := by
    rw [tally_contactors]
    unfold conventionOf
    have hr : rankedConventions ⟨fun c => if c = .iec81346 then 100 else 0, fun _ => 0, [],
      100, 100⟩ = [.iec81346] := by decide
    rw [hr]
    change (Convention.iec81346, margin [100] * sampleFactor 100) = _
    rw [hm, hs, one_mul]
  have hcr : crossReference base (contactors u).tally = (base.crossReferenceFormat, 1) := by
    rw [tally_contactors]
    rfl
  have hh : matchingProducers u (contactors u).summary (contactors u).producers = [] := rfl
  have hzh : (languageShares (contactors u).pages).2 = 0 := by
    change (languageShares [.en]).2 = 0
    decide +kernel
  have hsy : symbol .iec81346 1 [] 0 = (.iec60617, symbolConfidenceFactor) := by
    decide +kernel
  unfold detectProfile
  simp only [hc, hcr, hh, hzh, hsy, FieldConfidence.least]
  decide +kernel

/-- A threshold is within reach of some drawing exactly when it is at most four fifths. -/
theorem auto_acceptance_attainable (u : Unicode) (base : DrawingProfile) :
    (∀ evidence, Accepted base (detectProfile u base evidence) →
      base.autoAcceptConfidence.value ≤ 4 / 5) ∧
      (base.autoAcceptConfidence.value ≤ 4 / 5 → ∃ tokens summary pages producers,
        Accepted base
          (detectProfile u base ⟨summary, pages, tally u packaged tokens, producers⟩)) := by
  refine ⟨fun evidence ha => ha.trans (confidence_le u base evidence), fun hle => ?_⟩
  exact ⟨List.replicate 100 contactor, ⟨none, none⟩, [.en], [],
    hle.trans (confidence_contactors u base).ge⟩

/-- No evidence reaches the default threshold. -/
theorem default_threshold_out_of_reach :
    1 / 2 ≤ ({} : DrawingProfile).autoAcceptConfidence.value ∧
      ({} : DrawingProfile).autoAcceptConfidence.value ≤ 1 ∧
      ∀ evidence, ¬ Accepted {} (detectProfile asciiUnicode {} evidence) := by
  refine ⟨?_, ?_, fun evidence ha => ?_⟩
  · change (1 / 2 : ℚ) ≤ 9 / 10
    norm_num
  · change (9 / 10 : ℚ) ≤ 1
    norm_num
  · have hle : (9 / 10 : ℚ) ≤ 4 / 5 := ha.trans (confidence_le asciiUnicode {} evidence)
    norm_num at hle

end Reached

end Aizzak.ProfileConfidence
