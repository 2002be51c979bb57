import Aizzak.CountTables
import Aizzak.DrawingProfiles

/-!
The tally of a page as it is counted, stored as JSON under the values of its enumerations, read
back in the order of the enumerations, and summed over the pages of a document. The storage
keeps no order of keys.
-/
namespace Aizzak.TallyStorage

open CountTables DrawingProfiles IdentifierParsers Normalization PyText List

def valueOf {β : Type} [DecidableEq β] (members : List (String × β)) (value : β) : Text :=
  ((members.find? (·.2 = value)).map fun member => ofString member.1).getD []

def Convention.value : Convention → Text := valueOf conventionNames

def PlcFamily.value : PlcFamily → Text := valueOf familyNames

def conventions : List Convention := conventionNames.map Prod.snd

def families : List PlcFamily := familyNames.map Prod.snd

theorem nodup_conventions : conventions.Nodup := by
  decide

theorem nodup_families : families.Nodup := by
  decide

theorem mem_conventions (c : Convention) : c ∈ conventions := by
  cases c <;> decide

theorem mem_families (f : PlcFamily) : f ∈ families := by
  cases f <;> decide

theorem convention_value_injective : Function.Injective Convention.value := by
  intro c d
  cases c <;> cases d <;> decide

theorem family_value_injective : Function.Injective PlcFamily.value := by
  intro f g
  cases f <;> cases g <;> decide

structure TallyTables where
  conventions : CountTable Convention
  plcFamilies : CountTable PlcFamily
  crossReferenceFormats : CountTable Text
  identifiers : ℕ
  tokens : ℕ

def TallyTables.empty : TallyTables := ⟨.empty, .empty, .empty, 0, 0⟩

section Counting

variable (u : Unicode) (rules : IdentifierRules)

def tallyToken (t : TallyTables) (token : Text) : TallyTables :=
  match parse u rules token none with
  | none => { t with tokens := t.tokens + 1 }
  | some found =>
    if issueNonAscii ∈ found.issues then
      { t with tokens := t.tokens + 1, identifiers := t.identifiers + 1 }
    else
      { conventions := t.conventions.addSome found.convention
        plcFamilies := t.plcFamilies.addSome (found.plc.map (·.family))
        crossReferenceFormats :=
          if found.kind = .crossReference then t.crossReferenceFormats.addSome found.variant
          else t.crossReferenceFormats
        identifiers := t.identifiers + 1
        tokens := t.tokens + 1 }

def tallyTables (tokens : List Text) : TallyTables :=
  let t := tokens.foldl (tallyToken u rules) .empty
  { t with
    conventions := t.conventions.sortedBy Convention.value
    plcFamilies := t.plcFamilies.sortedBy PlcFamily.value
    crossReferenceFormats := t.crossReferenceFormats.sortedBy id }

end Counting

section Combining

def addTally (total : TallyTables) : Option TallyTables → TallyTables
  | none => total
  | some t =>
    { conventions := total.conventions.update t.conventions
      plcFamilies := total.plcFamilies.update t.plcFamilies
      crossReferenceFormats := total.crossReferenceFormats.update t.crossReferenceFormats
      identifiers := total.identifiers + t.identifiers
      tokens := total.tokens + t.tokens }

def combineTallies (tallies : List (Option TallyTables)) : TallyTables :=
  let total := tallies.foldl addTally .empty
  { total with
    conventions := total.conventions.along conventions nodup_conventions
    plcFamilies := total.plcFamilies.along families nodup_families
    crossReferenceFormats := total.crossReferenceFormats.positive.sortedBy id }

end Combining

section Storage

structure StoredTally where
  conventions : CountTable Text
  plcFamilies : CountTable Text
  crossReferenceFormats : CountTable Text
  identifiers : ℕ
  tokens : ℕ

def tallyJson (t : TallyTables) : StoredTally where
  conventions := t.conventions.renamed Convention.value convention_value_injective
  plcFamilies := t.plcFamilies.renamed PlcFamily.value family_value_injective
  crossReferenceFormats := t.crossReferenceFormats
  identifiers := t.identifiers
  tokens := t.tokens

def tallyOf (stored : StoredTally) : TallyTables where
  conventions := stored.conventions.readAlong conventions nodup_conventions Convention.value
  plcFamilies := stored.plcFamilies.readAlong families nodup_families PlcFamily.value
  crossReferenceFormats := stored.crossReferenceFormats.sortedBy id
  identifiers := stored.identifiers
  tokens := stored.tokens

/-- What the storage gives back: the same entries in whatever order. -/
structure StoredTally.Keeps (written kept : StoredTally) : Prop where
  conventions : kept.conventions.items.Perm written.conventions.items
  plcFamilies : kept.plcFamilies.items.Perm written.plcFamilies.items
  crossReferenceFormats :
    kept.crossReferenceFormats.items.Perm written.crossReferenceFormats.items
  identifiers : kept.identifiers = written.identifiers
  tokens : kept.tokens = written.tokens

def ReadBack (t read : TallyTables) : Prop :=
  ∃ kept, (tallyJson t).Keeps kept ∧ read = tallyOf kept

end Storage

section Counts

inductive TallyKey where
  | convention (c : Convention)
  | family (f : PlcFamily)
  | format (name : Text)
  | identifiers
  | tokens

def TallyTables.at (t : TallyTables) : TallyKey → ℕ
  | .convention c => t.conventions.count c
  | .family f => t.plcFamilies.count f
  | .format name => t.crossReferenceFormats.count name
  | .identifiers => t.identifiers
  | .tokens => t.tokens

def countAt (t : ConventionTally) : TallyKey → ℕ
  | .convention c => t.conventions c
  | .family f => t.plcFamilies f
  | .format name => countIn t.crossReferenceFormats name
  | .identifiers => t.identifiers
  | .tokens => t.tokens

variable {u : Unicode} {rules : IdentifierRules}

def counted (u : Unicode) (rules : IdentifierRules) (key : TallyKey) (token : Text) : Bool :=
  match key, parse u rules token none with
  | .tokens, _ => true
  | _, none => false
  | .identifiers, some _ => true
  | .convention c, some found => issueNonAscii ∉ found.issues ∧ found.convention = some c
  | .family f, some found => issueNonAscii ∉ found.issues ∧ found.plc.any (·.family = f)
  | .format name, some found => issueNonAscii ∉ found.issues ∧
      found.kind = .crossReference ∧ found.variant = some name

/-- A token adds one to each entry it counts for. -/
theorem at_tallyToken (t : TallyTables) (token : Text) (key : TallyKey) :
    (tallyToken u rules t token).at key =
      t.at key + if counted u rules key token then 1 else 0 := by
  unfold tallyToken counted
  cases hp : parse u rules token none with
  | none => cases key <;> rfl
  | some found =>
    dsimp only
    by_cases hi : issueNonAscii ∈ found.issues
    · rw [if_pos hi]
      cases key <;> simp [TallyTables.at, hi]
    · rw [if_neg hi]
      cases key with
      | convention c => simp [TallyTables.at, hi]
      | family f => simp [TallyTables.at, hi, Option.any_eq_true, Option.map_eq_some_iff]
      | format name =>
        by_cases hk : found.kind = .crossReference
        · simp [TallyTables.at, hi, hk]
        · simp [TallyTables.at, hk]
      | identifiers => rfl
      | tokens => rfl

theorem at_tallyTables (tokens : List Text) (key : TallyKey) :
    (tallyTables u rules tokens).at key = tokens.countP (counted u rules key) := by
  have hrun : ∀ t : TallyTables, (tokens.foldl (tallyToken u rules) t).at key =
      t.at key + tokens.countP (counted u rules key) := by
    induction tokens with
    | nil => exact fun _ => rfl
    | cons token tokens ih =>
      intro t
      rw [foldl_cons, ih, at_tallyToken, countP_cons]
      omega
  have hi : TallyTables.empty.at key = 0 := by
    cases key <;> rfl
  have ht := hrun .empty
  rw [hi, Nat.zero_add] at ht
  rw [← ht, tallyTables]
  cases key <;> simp [TallyTables.at]

/-- An entry counts its tokens. -/
theorem countAt_tally (tokens : List Text) (key : TallyKey) :
    countAt (tally u rules tokens) key = tokens.countP (counted u rules key) := by
  have hc : ∀ (p : ParsedIdentifier → Bool) (q : Text → Bool),
      (∀ token, q token = ((parse u rules token none).map p).getD false) →
        (tokens.filterMap fun token => parse u rules token none).countP p = tokens.countP q := by
    intro p q hpq
    rw [countP_filterMap]
    exact countP_congr fun token _ => by rw [hpq]
  cases key with
  | convention c =>
    simp only [countAt, tally, countP_filter]
    refine hc _ _ fun token => ?_
    unfold counted
    cases parse u rules token none with
    | none => rfl
    | some found => simp [Bool.and_comm]
  | family f =>
    simp only [countAt, tally, countP_filter]
    refine hc _ _ fun token => ?_
    unfold counted
    cases parse u rules token none with
    | none => rfl
    | some found => simp [Bool.and_comm]
  | format name =>
    simp only [countAt, tally, countIn_occurrences]
    rw [count_filterMap, countP_filter, countP_filter]
    refine hc _ _ fun token => ?_
    unfold counted
    cases parse u rules token none with
    | none => rfl
    | some found =>
      rw [Bool.eq_iff_iff]
      simp only [decide_eq_true_eq, Option.map_some, Option.getD_some, Bool.and_eq_true,
        beq_iff_eq]
      tauto
  | identifiers =>
    rw [countAt, tally, length_filterMap_eq_countP]
    refine countP_congr fun token _ => ?_
    unfold counted
    cases parse u rules token none <;> rfl
  | tokens =>
    refine (countP_eq_length.mpr fun token _ => ?_).symm
    unfold counted
    rfl

theorem at_readBack {t read : TallyTables} (h : ReadBack t read) (key : TallyKey) :
    read.at key = t.at key := by
  obtain ⟨kept, hk, rfl⟩ := h
  cases key with
  | convention c =>
    have hc := CountTable.count_of_perm hk.conventions (Convention.value c)
    rw [TallyTables.at, tallyOf, CountTable.count_readAlong _ _ (mem_conventions c), hc]
    exact CountTable.count_renamed convention_value_injective _ _
  | family f =>
    have hc := CountTable.count_of_perm hk.plcFamilies (PlcFamily.value f)
    rw [TallyTables.at, tallyOf, CountTable.count_readAlong _ _ (mem_families f), hc]
    exact CountTable.count_renamed family_value_injective _ _
  | format name =>
    rw [TallyTables.at, tallyOf, CountTable.count_sortedBy]
    exact CountTable.count_of_perm hk.crossReferenceFormats name
  | identifiers => exact hk.identifiers
  | tokens => exact hk.tokens

theorem at_addTally (total : TallyTables) (t : Option TallyTables) (key : TallyKey) :
    (addTally total t).at key = total.at key + t.elim 0 (·.at key) := by
  cases t with
  | none => rfl
  | some t => cases key <;> simp [addTally, TallyTables.at]

theorem at_total (tallies : List (Option TallyTables)) (key : TallyKey) :
    (tallies.foldl addTally .empty).at key =
      (tallies.map fun t => t.elim 0 (·.at key)).sum := by
  have hrun : ∀ total : TallyTables, (tallies.foldl addTally total).at key =
      total.at key + (tallies.map fun t => t.elim 0 (·.at key)).sum := by
    induction tallies with
    | nil => exact fun _ => rfl
    | cons t tallies ih =>
      intro total
      rw [foldl_cons, ih, at_addTally, map_cons, sum_cons, Nat.add_assoc]
  have hi : TallyTables.empty.at key = 0 := by
    cases key <;> rfl
  rw [hrun, hi, Nat.zero_add]

theorem at_combineTallies (tallies : List (Option TallyTables)) (key : TallyKey) :
    (combineTallies tallies).at key = (tallies.map fun t => t.elim 0 (·.at key)).sum := by
  rw [← at_total]
  cases key with
  | convention c => exact CountTable.count_along nodup_conventions _ (mem_conventions c)
  | family f => exact CountTable.count_along nodup_families _ (mem_families f)
  | format name =>
    rw [TallyTables.at, combineTallies, CountTable.count_sortedBy, CountTable.count_positive]
    rfl
  | identifiers => rfl
  | tokens => rfl

/-- The combined tally is determined by its counts. -/
theorem combineTallies_congr {tallies others : List (Option TallyTables)}
    (h : ∀ key, (combineTallies tallies).at key = (combineTallies others).at key) :
    combineTallies tallies = combineTallies others := by
  have ht : ∀ key, (tallies.foldl addTally .empty).at key =
      (others.foldl addTally .empty).at key := by
    intro key
    rw [at_total, at_total, ← at_combineTallies, ← at_combineTallies, h]
  unfold combineTallies
  dsimp only
  congr 1
  · exact CountTable.along_congr nodup_conventions fun c => ht (.convention c)
  · exact CountTable.along_congr nodup_families fun f => ht (.family f)
  · exact CountTable.sortedBy_positive_congr Function.injective_id fun name => ht (.format name)
  · exact ht .identifiers
  · exact ht .tokens

theorem sum_at_reads {pages : List (Option (List Text))} {reads : List (Option TallyTables)}
    (h : List.Forall₂ (Option.Rel fun page read => ReadBack (tallyTables u rules page) read) pages
      reads) (key : TallyKey) :
    (reads.map fun t => t.elim 0 (·.at key)).sum =
      pages.reduceOption.flatten.countP (counted u rules key) := by
  induction h with
  | nil => rfl
  | @cons page read pages reads hr _ ih =>
    rw [map_cons, sum_cons, ih]
    cases hr with
    | none => exact Nat.zero_add _
    | some hr =>
      rw [reduceOption_cons_of_some, flatten_cons, countP_append, Option.elim_some,
        at_readBack hr, at_tallyTables]

/-- However the tokens stand on the pages, and whatever order the pages and the stored keys come
in, the stored tallies of the pages sum to the tally of the tokens. -/
theorem combined_tally_spec {pages : List (Option (List Text))}
    {reads : List (Option TallyTables)} {tokens : List Text}
    (hreads : List.Forall₂
      (Option.Rel fun page read => ReadBack (tallyTables u rules page) read) pages reads)
    (htokens : tokens.Perm pages.reduceOption.flatten) :
    (∀ key, (combineTallies reads).at key = countAt (tally u rules tokens) key) ∧
      combineTallies reads = combineTallies [some (tallyTables u rules tokens)] ∧
      ∀ others : List (Option TallyTables), others.Perm reads →
        combineTallies others = combineTallies reads := by
  have hc : ∀ key, (combineTallies reads).at key = tokens.countP (counted u rules key) := by
    intro key
    rw [at_combineTallies, sum_at_reads hreads, htokens.countP_eq]
  refine ⟨fun key => ?_, combineTallies_congr fun key => ?_, fun others ho =>
    combineTallies_congr fun key => ?_⟩
  · rw [hc, countAt_tally]
  · rw [hc, at_combineTallies, map_singleton, sum_singleton, Option.elim_some,
      at_tallyTables]
  · rw [at_combineTallies, at_combineTallies]
    exact (ho.map _).sum_eq

theorem readBack_self (t : TallyTables) : ReadBack t (tallyOf (tallyJson t)) :=
  ⟨tallyJson t, ⟨.refl _, .refl _, .refl _, rfl, rfl⟩, rfl⟩

/-- Three pages, the second of which could not be read. -/
theorem stored_pages_combined :
    combineTallies [some (tallyOf (tallyJson (tallyTables asciiUnicode RuleNarrowing.packaged
      [ofString "I0.0"]))), none, some (tallyOf (tallyJson
        (tallyTables asciiUnicode RuleNarrowing.packaged
          [ofString "-K1", ofString "I0.0"])))] =
      combineTallies [some (tallyTables asciiUnicode RuleNarrowing.packaged
        [ofString "-K1", ofString "I0.0", ofString "I0.0"])] :=
  (combined_tally_spec (.cons (.some (readBack_self _)) (.cons .none
    (.cons (.some (readBack_self _)) .nil))) (by decide)).2.1

end Counts

end Aizzak.TallyStorage
