import Aizzak.IngestionCoherence

/-!
What an event does to the contents of the store: the documents, the pages, the
characterizations and the proposals. A commit saves what its transaction was about to write;
beside it only a registration, a reprocessing, a purge and a sweep change anything.
-/
namespace Aizzak.IngestionContents

open EventRuns KeyedTables VersionedRows IngestionJobs IngestionRuns IngestionWrites
open IngestionCoherence

section Machine

variable {Sig P E C Q : Type} {cfg : Settings} {ins : Inspector Sig P E C Q}
  {s t : State P E C Q} {e : Event Sig P}

inductive ContentStep (s : State P E C Q) (e : Event Sig P) (t : State P E C Q) : Prop where
  | same (h : SameContents s t)
  | wrote (r : ℕ) (run : Run P E C Q) (write : Write E C Q) (next stale : Phase P E C Q)
      (hrun : s.runs.lookup r = some run) (hphase : run.phase = .writing write next stale)
      (happlied : Applied s run.document run.job write t)
  | asked (q : ℕ) (request : Request E C Q) (hrequest : s.requests.lookup q = some request)
      (happlied : Applied s request.document request.job request.write t)
  | registered (document project file : String) (excluded : List String)
      (hnew : document ∉ s.issued) (hissued : document ∈ t.issued)
      (hdocuments : t.documents = (excluded.foldl excludeOrphan s.documents).insert document
        ⟨newDocument project file, 1⟩)
      (hpages : t.pages = s.pages) (hrecords : t.characterizations = s.characterizations)
      (hproposals : t.proposals = s.proposals)
  | reset (document job : String) (numbers subset : Option (List ℕ))
      (he : e = .reprocess document job numbers) (hdocuments : t.documents = s.documents)
      (hpages : t.pages = resetPages s.pages document subset)
      (hrecords : t.characterizations = s.characterizations)
      (hproposals : t.proposals = s.proposals)
  | purged (documents : List String) (now : ℤ) (ht : t = documents.foldl (markPurging now) s)
  | swept (document : String) (ht : t = sweep s document)

/-- No event does anything else to the contents. -/
theorem step_contents (hs : Coherent s) (ht : step cfg ins s e = some t) : ContentStep s e t := by
  cases e with
  | deliver r job event now =>
    simp only [step] at ht
    split_ifs at ht
    exact .same (deliver_eq_some ht).2.1
  | takeCommit r =>
    obtain ⟨run, hrun, ht⟩ := Option.bind_eq_some_iff.mp ht
    exact .same (takeCommit_eq_some (hs.sound r run hrun) ht).2.1
  | takeFails r =>
    obtain ⟨run, hrun, ht⟩ := Option.bind_eq_some_iff.mp ht
    split_ifs at ht
    cases ht
    exact .same ⟨rfl, rfl, rfl, rfl⟩
  | proceed r input =>
    obtain ⟨run, hrun, ht⟩ := Option.bind_eq_some_iff.mp ht
    obtain ⟨phase, -, rfl⟩ := Option.map_eq_some_iff.mp ht
    exact .same ⟨rfl, rfl, rfl, rfl⟩
  | commit r =>
    obtain ⟨run, hrun, ht⟩ := Option.bind_eq_some_iff.mp ht
    obtain ⟨-, -, -, hc⟩ := commitRun_eq_some (hs.sound r run hrun) ht
    cases hc with
    | wrote write next stale hp ha _ =>
      exact .wrote r run write next stale hrun hp ha
    | conflict _ _ _ _ _ _ _ heq =>
      subst heq
      exact .same ⟨rfl, rfl, rfl, rfl⟩
  | cancel q job now =>
    simp only [step] at ht
    split_ifs at ht
    exact .same (Option.some.inj ht ▸ (cancelRequest_asked q job now).contents)
  | resume q job now =>
    simp only [step] at ht
    split_ifs at ht
    exact .same (Option.some.inj ht ▸ (resumeRequest_asked q job now).contents)
  | confirm q document now =>
    simp only [step] at ht
    split_ifs at ht
    exact .same (Option.some.inj ht ▸ (confirmRequest_asked q document now).contents)
  | replaceProfile q document =>
    simp only [step] at ht
    split_ifs at ht
    exact .same (Option.some.inj ht ▸ (replaceProfileRequest_asked q document).contents)
  | requestCommit q =>
    obtain ⟨request, hre, ht⟩ := Option.bind_eq_some_iff.mp ht
    obtain ⟨-, -, -, rfl | ha⟩ := requestCommit_eq_some ht
    · exact .same ⟨rfl, rfl, rfl, rfl⟩
    · exact .asked q request hre ha
  | requestFails q =>
    cases ht
    exact .same ⟨rfl, rfl, rfl, rfl⟩
  | register document job project file active readable =>
    simp only [step, register] at ht
    split_ifs at ht with hr
    cases ht
    simp only [Bool.or_eq_true, not_or, decide_eq_true_eq] at hr
    exact .registered document project file _ hr.1.1.1.1 (by simp) rfl rfl rfl rfl
  | reprocess document job numbers =>
    simp only [step, reprocess] at ht
    split at ht
    · cases ht
    · split at ht
      · cases ht
      · rename_i subset _
        split_ifs at ht
        cases ht
        exact .reset document job numbers subset rfl rfl rfl rfl rfl
  | purge documents now =>
    simp only [step] at ht
    split_ifs at ht
    exact .purged documents now (Option.some.inj ht).symm
  | sweep document => exact .swept document (Option.some.inj ht).symm

theorem saveDocument_eq_ok {documents after : Documents} {id : String} {read : Versioned Document}
    {document : Document} (hc : Current documents id read)
    (h : saveDocument documents id read document = .ok after) :
    documents.lookup id = some read ∧ after = documents.insert id ⟨document, read.version + 1⟩ := by
  unfold saveDocument at h
  split at h
  · cases h
  · rename_i saved hs
    split_ifs at h
    cases h
    exact hc.save_eq_some hs

section Documents

variable {R : String → Document → Document → Prop}

/-- Excluding orphans makes the moves of an exclusion. -/
theorem excludeOrphans_advances
    (hm : ∀ id doc after, doc.exclude .fileUnreadable = .ok after → R id doc after)
    (ids : List String) (documents : Documents) :
    Advances R (fun _ _ => False) documents (ids.foldl excludeOrphan documents) := by
  induction ids generalizing documents with
  | nil => exact .refl _
  | cons id rest ih =>
    refine Advances.trans ?_ (ih (excludeOrphan documents id))
    unfold excludeOrphan
    split
    · rename_i row hrow
      split
      · rename_i after hexclude
        exact .saved hrow (hm id row.value after hexclude)
      · exact .refl _
    · exact .refl _

theorem markPurging_documents
    (hm : ∀ id doc after, doc.markPurging = some after → R id doc after) (now : ℤ)
    (documents : List String) (s : State P E C Q) :
    Advances R (fun _ _ => False) s.documents (documents.foldl (markPurging now) s).documents := by
  induction documents generalizing s with
  | nil => exact .refl _
  | cons id rest ih =>
    refine Advances.trans ?_ (ih (markPurging now s id))
    unfold markPurging
    split
    · exact .refl _
    · rename_i row hrow
      split
      · exact .refl _
      · rename_i purging hp
        exact .saved hrow (hm id row.value purging hp)

theorem markPurging_contents (now : ℤ) (documents : List String) (s : State P E C Q) :
    (documents.foldl (markPurging now) s).pages = s.pages ∧
      (documents.foldl (markPurging now) s).characterizations = s.characterizations ∧
      (documents.foldl (markPurging now) s).proposals = s.proposals := by
  induction documents generalizing s with
  | nil => exact ⟨rfl, rfl, rfl⟩
  | cons id rest ih =>
    have hone : (markPurging now s id).pages = s.pages ∧
        (markPurging now s id).characterizations = s.characterizations ∧
        (markPurging now s id).proposals = s.proposals := by
      unfold markPurging
      split
      · exact ⟨rfl, rfl, rfl⟩
      · split
        · exact ⟨rfl, rfl, rfl⟩
        · exact ⟨rfl, rfl, rfl⟩
    obtain ⟨hpa, hr, hp⟩ := ih (markPurging now s id)
    exact ⟨hpa.trans hone.1, hr.trans hone.2.1, hp.trans hone.2.2⟩

end Documents

theorem sweep_contents (s : State P E C Q) (document : String) :
    (∀ id row, (sweep s document).documents.lookup id = some row →
      s.documents.lookup id = some row) ∧
    (∀ key row, (sweep s document).pages.lookup key = some row →
      s.pages.lookup key = some row) ∧
    (∀ key, key.1 ≠ document → (sweep s document).pages.lookup key = s.pages.lookup key) ∧
    (∀ id record, (sweep s document).characterizations.lookup id = some record →
      s.characterizations.lookup id = some record) ∧
    ∀ entry ∈ (sweep s document).proposals, entry ∈ s.proposals := by
  unfold sweep
  split_ifs
  · refine ⟨fun id row h => (lookup_erase_iff.mp h).2,
      fun key row h => (lookup_eraseAll_eq_some_iff.mp h).2, fun key hne => ?_,
      fun id record h => (lookup_erase_iff.mp h).2,
      fun entry h => List.mem_of_mem_filter h⟩
    refine Option.ext fun row => ?_
    have hkey : key ∉ s.pages.keys.filter (·.1 = document) := by simp [hne]
    exact lookup_eraseAll_eq_some_iff.trans (and_iff_right hkey)
  · exact ⟨fun _ _ h => h, fun _ _ h => h, fun _ _ => rfl, fun _ _ h => h, fun _ h => h⟩

theorem sweep_eq_or_erased (s : State P E C Q) (document : String) :
    sweep s document = s ∨ (sweep s document).documents.lookup document = none := by
  unfold sweep
  split_ifs
  · exact .inr (AList.lookup_erase _ _)
  · exact .inl rfl

end Machine

end Aizzak.IngestionContents
