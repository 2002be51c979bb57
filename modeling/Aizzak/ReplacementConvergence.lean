import Aizzak.FileReplacement

/-!
Uploads of one name that are completed in any order. Every completion that commits starts a
sweep, and until the sweep is over each live older file is still ahead of it; a file is only
ever deleted for a newer one that is complete. A sweep that has read an older file gives it up
when the version has moved on, which is harmless when the other writer deleted the file and
leaves two live files when it completed it.
-/
namespace Aizzak.ReplacementConvergence

open EventRuns KeyedTables VersionedRows PyText StoredFiles FileReplacement

variable {nameKey lower : Text → Text}

def Alike (nameKey : Text → Text) (files : Files) : Prop :=
  ∀ id row id' row', files.lookup id = some row → files.lookup id' = some row' →
    row'.value.spaceId = row.value.spaceId ∧
      nameKey row'.value.name.value = nameKey row.value.name.value ∧
      row'.value.tags = row.value.tags

structure Uploads (nameKey : Text → Text) (files : Files) : Prop where
  uploaded : ∀ id row, files.lookup id = some row →
    row.value.status = .uploaded ∧ row.value.isLive = true
  alike : Alike nameKey files

def isCompletion : Event → Bool
  | .store _ _ | .request _ _ _ (.complete _) | .next _ _ | .listed _ _ => true
  | _ => false

def marked : Phase → Option ℕ
  | .erasing older _ (.marking _) => some older
  | _ => none

def isMarked (s : State) (file : ℕ) : Bool :=
  anyRow s.tasks fun _ task => marked task.phase = some file

/-- No completion commits between a sweep's read of the file and the write that deletes it. -/
def Unread (s : State) (e : Event) : Prop :=
  ∀ write ∈ s.writes e, (save s.files write.1 write.2.1 write.2.2).isSome = true →
    write.2.2.isLive = true → isMarked s write.1 = false

instance (s : State) (e : Event) : Decidable (Unread s e) := Option.decidableForallMem _

def isCompleting : Phase → Bool
  | .assembling _ | .reading (.complete _) | .saving (.complete _) _ _ => true
  | .sweeping | .listing _ | .erasing _ _ _ => true
  | _ => false

/-- A sweep that has yet to come to the file, which it found as it is if it has read it. -/
def Covers (older : ℕ) (row : Versioned File) : Phase → Prop
  | .sweeping | .listing _ => True
  | .erasing current rest deletion =>
    older ∈ rest ∨ (older = current ∧ (deletion = .reading ∨ deletion = .marking row))
  | _ => False

def Swept (nameKey : Text → Text) (files : Files) (task : Task) : Prop :=
  task.phase.isPlain = false → ∃ new, files.lookup task.file = some new ∧
    new.value.status = .ready ∧
    (∀ newcomer, task.phase = .listing newcomer → SameLabel nameKey newcomer.value new.value) ∧
    ∀ current rest deletion, task.phase = .erasing current rest deletion →
      ∀ older ∈ current :: rest, ∃ row, files.lookup older = some row ∧
        Older older row.value task.file new.value

structure Converging (nameKey lower : Text → Text) (s : State) : Prop where
  reads : Reads lower s
  alike : Alike nameKey s.files
  completing : ∀ id task, s.tasks.lookup id = some task → isCompleting task.phase = true
  swept : ∀ id task, s.tasks.lookup id = some task → Swept nameKey s.files task
  deleted : ∀ id row, s.files.lookup id = some row → row.value.isLive = false →
    ∃ newer new, s.files.lookup newer = some new ∧ new.value.status = .ready ∧
      Older id row.value newer new.value
  covered : ∀ newer new older row, s.files.lookup newer = some new →
    new.value.status = .ready → s.files.lookup older = some row → row.value.isLive = true →
    Older older row.value newer new.value →
    ∃ id task, s.tasks.lookup id = some task ∧ task.file = newer ∧ Covers older row task.phase

section Steps

variable {s t : State} {e : Event} {task : Task}

variable {files : Files}

theorem init_converging {objects : AList fun _ : ℕ => ℕ} (h : Uploads nameKey files) :
    Converging nameKey lower ⟨files, objects, ∅⟩ where
  reads := fun _ _ h => by cases h
  alike := h.alike
  completing := fun _ _ h => by cases h
  swept := fun _ _ h => by cases h
  deleted := by
    intro id row hrow hd
    rw [(h.uploaded id row hrow).2] at hd
    cases hd
  covered := by
    intro newer new older row hnew hready
    rw [(h.uploaded newer new hnew).1] at hready
    cases hready

variable {id other : ℕ}

theorem older_of_sameLabel {old old' new new' : File} (h : Older id old other new)
    (hold : SameLabel nameKey old old') (hnew : SameLabel nameKey new new') :
    Older id old' other new' := by
  unfold Older at h ⊢
  rwa [hold.created, hnew.created]

variable {older : ℕ} {row : Versioned File} {phase : Phase}

theorem isPlain_of_covers (h : Covers older row phase) : phase.isPlain = false := by
  cases phase with
  | sweeping | listing | erasing => rfl
  | assembling | reading | saving | deleting => cases h

variable {rest : List ℕ}

theorem covers_eraseNext (h : older ∈ rest) :
    ∃ phase, eraseNext rest = some phase ∧ Covers older row phase := by
  cases rest with
  | nil => cases h
  | cons next rest =>
    refine ⟨_, rfl, ?_⟩
    rcases List.mem_cons.mp h with rfl | hr
    · exact .inr ⟨rfl, .inl rfl⟩
    · exact .inl hr

theorem save_isSome_of_lookup (file : File) (h : files.lookup id = some row) :
    save files id row file ≠ none := by
  simp [save, h]

variable {next : Option Phase}

/-- A sweep covers the older file until it has come to it. -/
theorem turn_covers {new : Versioned File} (ha : Alike nameKey s.files)
    (hsw : Swept nameKey s.files task) (htu : Turn nameKey lower s e task next)
    (he : e.isFailure = false) (hnew : s.files.lookup task.file = some new)
    (hrow : s.files.lookup older = some row) (hli : row.value.isLive = true)
    (holder : Older older row.value task.file new.value) (hc : Covers older row task.phase) :
    ∃ phase, next = some phase ∧ Covers older row phase := by
  have hp := isPlain_of_covers hc
  cases htu with
  | crashed h =>
    rw [he] at h
    cases h
  | refused h =>
    rw [hp] at h
    cases h
  | completing h | saving h _ _ | unchanged h _ _ _ _ | deleting h _ | deleted h =>
    rw [h] at hp
    cases hp
  | lost _ hlo =>
    rw [hnew] at hlo
    cases hlo
  | listing _ _ => exact ⟨_, rfl, trivial⟩
  | listed h hfo =>
    obtain ⟨found, hsa, -, hl, -⟩ := hsw hp
    obtain rfl : new = found := Option.mem_unique hnew hsa
    have hlabel := hl _ h
    obtain ⟨hsp, hn, ht⟩ := ha task.file new older row hnew hrow
    refine covers_eraseNext (hfo.mem_iff.mpr (mem_liveNamesakes.mpr ⟨row, hrow, hli, ?_⟩))
    refine ⟨?_, hsp.trans hlabel.space, hn.trans hlabel.name, ht.trans hlabel.tags⟩
    unfold Older at holder ⊢
    rwa [← hlabel.created]
  | marking h hfo =>
    rw [h] at hc
    refine ⟨_, rfl, ?_⟩
    rcases hc with hre | ⟨rfl, -⟩
    · exact .inl hre
    · obtain rfl := Option.mem_unique hrow hfo
      exact .inr ⟨rfl, .inr rfl⟩
  | purging h =>
    rw [h] at hc
    refine ⟨_, rfl, ?_⟩
    rcases hc with hre | ⟨-, hr | hm⟩
    · exact .inl hre
    · cases hr
    · cases hm
  | following h hpa =>
    rw [h] at hc
    rcases hc with hre | ⟨rfl, rfl | rfl⟩
    · exact covers_eraseNext hre
    · rcases hpa with hf | hg
      · rw [he] at hf
        cases hf
      · rw [Past, hrow] at hg
        cases hg
    · rcases hpa with hf | ⟨now, hco⟩
      · rw [he] at hf
        cases hf
      · exact absurd hco (save_isSome_of_lookup _ hrow)

theorem isCompleting_eraseNext (h : eraseNext rest = some phase) : isCompleting phase = true := by
  cases rest with
  | nil => cases h
  | cons older rest =>
    cases h
    rfl

theorem eq_complete_of_isCompleting {operation : Operation}
    (h : isCompleting (.reading operation) = true) :
    ∃ checksum, operation = .complete checksum := by
  cases operation with
  | complete checksum => exact ⟨checksum, rfl⟩
  | rename | retag => cases h

theorem turn_isCompleting (h : isCompleting task.phase = true)
    (ht : Turn nameKey lower s e task next) (hn : next = some phase) :
    isCompleting phase = true := by
  cases ht with
  | crashed | refused | lost => cases hn
  | completing | unchanged | listing | marking | purging =>
    cases hn
    rfl
  | listed | following => exact isCompleting_eraseNext hn
  | saving hp _ _ =>
    cases hn
    rw [hp] at h
    obtain ⟨checksum, rfl⟩ := eq_complete_of_isCompleting h
    rfl
  | deleting hp _ | deleted hp =>
    rw [hp] at h
    cases h

theorem Swept.sub {current : ℕ} {deletion : Deletion} {after : List ℕ} {next : Deletion}
    (h : Swept nameKey files task) (hp : task.phase = .erasing current rest deletion)
    (hsub : older :: after ⊆ current :: rest) :
    Swept nameKey files { task with phase := .erasing older after next } := by
  intro _
  obtain ⟨new, hnew, hready, -, holder⟩ := h (by rw [hp]; rfl)
  refine ⟨new, hnew, hready, fun newcomer hl => ?_, fun _ _ _ he key hkey => ?_⟩
  · cases hl
  · cases he
    exact holder _ _ _ hp key (hsub hkey)

theorem swept_of_plain (h : task.phase.isPlain = true) :
    Swept nameKey files task := by
  intro hp
  rw [h] at hp
  cases hp

/-- What a sweep has read stays true as it goes on. -/
theorem Swept.turn (h : Swept nameKey s.files task) (hc : isCompleting task.phase = true)
    (ht : Turn nameKey lower s e task next) (hn : next = some phase) :
    Swept nameKey s.files { task with phase := phase } := by
  cases ht with
  | crashed | refused | lost => cases hn
  | completing | saving | deleting | deleted =>
    cases hn
    exact swept_of_plain rfl
  | unchanged hp _ _ hsa _ =>
    rw [hp] at hc
    obtain ⟨checksum, rfl⟩ := eq_complete_of_isCompleting hc
    cases hsa
  | listing hp hrow =>
    cases hn
    intro _
    obtain ⟨new, hnew, hready, -, -⟩ := h (by rw [hp]; rfl)
    obtain rfl := Option.mem_unique hnew hrow
    refine ⟨new, hnew, hready, fun newcomer hl => ?_, fun _ _ _ he => ?_⟩
    · cases hl
      exact .refl _
    · cases he
  | listed hp hf =>
    rename_i newcomer found
    cases found with
    | nil => cases hn
    | cons older rest =>
      cases hn
      intro _
      obtain ⟨new, hnew, hready, hli, -⟩ := h (by rw [hp]; rfl)
      refine ⟨new, hnew, hready, fun newcomer hl => ?_, fun _ _ _ he key hkey => ?_⟩
      · cases hl
      · cases he
        obtain ⟨row, hrow, -, hr⟩ := mem_liveNamesakes.mp (hf.subset hkey)
        exact ⟨row, hrow, older_of_sameLabel hr.before (.refl _) (hli _ hp)⟩
  | marking hp _ | purging hp =>
    cases hn
    exact h.sub hp (List.Subset.refl _)
  | following hp _ =>
    rename_i older rest deletion _
    cases rest with
    | nil => cases hn
    | cons next rest =>
      cases hn
      exact h.sub hp (List.subset_cons_self _ _)

variable {key : ℕ} {read : Versioned File} {file : File}

/-- A completion or the deletion of a sweep. -/
theorem write_cases {now : ℕ} (hso : task.phase.Sound lower s.files task.file)
    (hc : isCompleting task.phase = true)
    (hw : task.write now = some (key, read, file)) :
    (∃ checksum, task.phase = .saving (.complete checksum) read file ∧ key = task.file ∧
      read.value.isLive = true ∧
      file = { read.value with status := .ready, checksum := checksum }) ∨
    ∃ rest, task.phase = .erasing key rest (.marking read) ∧ file = read.value.softDelete now := by
  unfold Task.write at hw
  split at hw
  · rename_i operation found after hp
    obtain ⟨rfl, rfl, rfl⟩ := by simpa using hw
    rw [hp] at hso hc
    cases operation with
    | complete checksum =>
      obtain ⟨hl, -, hf⟩ := File.complete_eq_ok hso.2
      exact .inl ⟨checksum, hp, rfl, hl, hf⟩
    | rename | retag => cases hc
  · rename_i older rest found hp
    obtain ⟨rfl, rfl, rfl⟩ := by simpa using hw
    exact .inr ⟨rest, hp, rfl⟩
  · rename_i found hp
    rw [hp] at hc
    cases hc
  · cases hw

theorem sameLabel_softDelete (file : File) (now : ℕ) :
    SameLabel nameKey file (file.softDelete now) := by
  unfold File.softDelete
  split_ifs
  · exact .refl _
  · exact ⟨rfl, rfl, rfl, rfl⟩

theorem softDelete_status (file : File) (now : ℕ) : (file.softDelete now).status = file.status := by
  unfold File.softDelete
  split_ifs <;> rfl

theorem row_after (hread : files.lookup key = some read)
    (hlabel : SameLabel nameKey read.value file)
    (hready : read.value.status = .ready → file.status = .ready)
    (hrow : files.lookup other = some row) :
    ∃ after, (files.insert key ⟨file, read.version + 1⟩).lookup other = some after ∧
      SameLabel nameKey row.value after.value ∧
      (row.value.status = .ready → after.value.status = .ready) := by
  rcases same_or_ne hread hrow with ⟨rfl, rfl⟩ | ho
  · exact ⟨_, AList.lookup_insert _, hlabel, hready⟩
  · exact ⟨row, (AList.lookup_insert_ne ho).trans hrow, .refl _, id⟩

theorem row_before {after : Versioned File} (hread : files.lookup key = some read)
    (hlabel : SameLabel nameKey read.value file)
    (ha : (files.insert key ⟨file, read.version + 1⟩).lookup other = some after) :
    ∃ row, files.lookup other = some row ∧ SameLabel nameKey row.value after.value := by
  rcases lookup_insert_iff.mp ha with ⟨rfl, rfl⟩ | ⟨-, hrow⟩
  · exact ⟨read, hread, hlabel⟩
  · exact ⟨after, hrow, .refl _⟩

theorem Swept.write (h : Swept nameKey files task) (hread : files.lookup key = some read)
    (hlabel : SameLabel nameKey read.value file)
    (hready : read.value.status = .ready → file.status = .ready) :
    Swept nameKey (files.insert key ⟨file, read.version + 1⟩) task := by
  intro hpl
  obtain ⟨new, hnew, hn, hl, holder⟩ := h hpl
  obtain ⟨after, ha, hsa, hst⟩ := row_after hread hlabel hready hnew
  refine ⟨after, ha, hst hn, fun newcomer hp => ?_, ?_⟩
  · exact (hl newcomer hp).trans hsa
  · intro current rest deletion hp older hmem
    obtain ⟨row, hrow, hb⟩ := holder current rest deletion hp older hmem
    obtain ⟨found, hf, hk, -⟩ := row_after hread hlabel hready hrow
    exact ⟨found, hf, older_of_sameLabel hb hk hsa⟩

theorem requested_converging (hs : Converging nameKey lower s) {file : ℕ} {user : Option ℕ}
    {checksum : Option Text} (hid : id ∉ s.tasks) : Converging nameKey lower
      { s with tasks := s.tasks.insert id ⟨user, file, .assembling checksum⟩ } where
  reads := forall_insert (P := fun _ (u : Task) => u.phase.Sound lower s.files u.file)
    trivial hs.reads
  alike := hs.alike
  completing := forall_insert (P := fun _ (u : Task) => isCompleting u.phase = true)
    rfl hs.completing
  swept := forall_insert (swept_of_plain rfl) hs.swept
  deleted := hs.deleted
  covered := by
    intro newer new older row hnew hready hrow hl holder
    obtain ⟨other, task, ht, hf, hc⟩ :=
      hs.covered newer new older row hnew hready hrow hl holder
    refine ⟨other, task, (AList.lookup_insert_ne ?_).trans ht, hf, hc⟩
    rintro rfl
    exact hid (mem_of_lookup ht)

theorem turned_converging (hs : Converging nameKey lower s) (he : e.isFailure = false)
    (ht : s.tasks.lookup id = some task) (htu : Turn nameKey lower s e task next) :
    Converging nameKey lower (s.withPhase id task next) where
  reads := step_reads hs.reads (.turned ht htu)
  alike := by
    rw [withPhase_files]
    exact hs.alike
  completing := forall_tasks_withPhase (P := fun u => isCompleting u.phase = true)
    (fun _ hp => turn_isCompleting (hs.completing id task ht) htu hp) hs.completing
  swept := by
    rw [withPhase_files]
    exact forall_tasks_withPhase (fun _ hp =>
      (hs.swept id task ht).turn (hs.completing id task ht) htu hp) hs.swept
  deleted := by
    rw [withPhase_files]
    exact hs.deleted
  covered := by
    rw [withPhase_files]
    intro newer new older row hnew hready hrow hl holder
    obtain ⟨other, found, hf, rfl, hc⟩ :=
      hs.covered newer new older row hnew hready hrow hl holder
    rcases same_or_ne ht hf with ⟨rfl, rfl⟩ | ho
    · obtain ⟨phase, rfl, hp⟩ := turn_covers hs.alike (hs.swept _ _ ht) htu he hnew hrow
        hl holder hc
      exact ⟨other, _, lookup_withPhase_self _ _ _, rfl, hp⟩
    · exact ⟨other, found, (lookup_withPhase_ne ho _ _).trans hf, rfl, hc⟩

section

variable (hs : Converging nameKey lower s) (hread : s.files.lookup key = some read)
    (hlabel : SameLabel nameKey read.value file)
    (hready : read.value.status = .ready → file.status = .ready)
include hs hread hlabel hready

theorem write_keeps :
    Alike nameKey (s.files.insert key ⟨file, read.version + 1⟩) ∧
      ∀ id u, s.tasks.lookup id = some u →
        Swept nameKey (s.files.insert key ⟨file, read.version + 1⟩) u := by
  refine ⟨?_, fun id u hu => (hs.swept id u hu).write hread hlabel hready⟩
  intro id row id' row' hrow hr
  obtain ⟨old, hold, hsm⟩ := row_before hread hlabel hrow
  obtain ⟨old', hold', hsa⟩ := row_before hread hlabel hr
  obtain ⟨hsp, hn, ht⟩ := hs.alike id old id' old' hold hold'
  refine ⟨?_, ?_, ?_⟩
  · rw [hsa.space, hsp, hsm.space]
  · rw [hsa.name, hn, hsm.name]
  · rw [hsa.tags, ht, hsm.tags]

theorem write_deleted (hrow : s.files.lookup id = some row) (hd : row.value.isLive = false) :
    ∃ newer new, (s.files.insert key ⟨file, read.version + 1⟩).lookup newer = some new ∧
      new.value.status = .ready ∧ Older id row.value newer new.value := by
  obtain ⟨newer, new, hnew, hn, holder⟩ := hs.deleted id row hrow hd
  obtain ⟨after, ha, hsa, hst⟩ := row_after hread hlabel hready hnew
  exact ⟨newer, after, ha, hst hn, older_of_sameLabel holder (.refl _) hsa⟩

end

def saved (s : State) (key : ℕ) (read : Versioned File) (file : File) : State :=
  { s with files := s.files.insert key ⟨file, read.version + 1⟩ }

/-- A completion commits, and its sweep begins. -/
theorem completed_converging (hs : Converging nameKey lower s) {checksum : Option Text}
    (ht : s.tasks.lookup id = some task)
    (hp : task.phase = .saving (.complete checksum) read file)
    (hread : s.files.lookup task.file = some read) (hl : read.value.isLive = true)
    (hfi : file = { read.value with status := .ready, checksum := checksum })
    (hun : isMarked s task.file = false)
    (hrd : Reads lower ((saved s task.file read file).withPhase id task (some .sweeping))) :
    Converging nameKey lower
      ((saved s task.file read file).withPhase id task (some .sweeping)) := by
  have hlabel : SameLabel nameKey read.value file := by
    rw [hfi]
    exact ⟨rfl, rfl, rfl, rfl⟩
  have hready : file.status = .ready := by rw [hfi]
  have hf : file.isLive = true := by
    rw [hfi]
    exact hl
  obtain ⟨ha, hsw⟩ := write_keeps hs hread hlabel fun _ => hready
  refine ⟨hrd, ha, ?_, ?_, ?_, ?_⟩
  · exact forall_tasks_withPhase (P := fun u => isCompleting u.phase = true)
      (fun _ hnx => by obtain rfl := Option.some.inj hnx; rfl) hs.completing
  · refine forall_tasks_withPhase (fun phase hnx => ?_) hsw
    cases hnx
    intro _
    refine ⟨_, AList.lookup_insert _, hready, fun _ h => ?_, fun _ _ _ h => ?_⟩ <;> cases h
  · intro other row hrow hd
    rcases lookup_insert_iff.mp hrow with ⟨rfl, rfl⟩ | ⟨-, hold⟩
    · rw [hf] at hd
      cases hd
    · exact write_deleted hs hread hlabel (fun _ => hready) hold hd
  · intro newer new older row hnew hn hrow hr holder
    rcases lookup_insert_iff.mp hnew with ⟨rfl, -⟩ | ⟨-, hne⟩
    · exact ⟨id, _, lookup_withPhase_self _ _ _, rfl, trivial⟩
    have hco : ∃ other u, s.tasks.lookup other = some u ∧ u.file = newer ∧
        Covers older row u.phase := by
      rcases lookup_insert_iff.mp hrow with ⟨rfl, rfl⟩ | ⟨-, hro⟩
      · obtain ⟨other, u, hu, huf, hc⟩ := hs.covered newer new task.file read hne
          hn hread hl (older_of_sameLabel holder
            ⟨hlabel.space.symm, hlabel.created.symm, hlabel.name.symm, hlabel.tags.symm⟩
            (.refl _))
        refine ⟨other, u, hu, huf, ?_⟩
        cases hup : u.phase with
        | erasing current rest deletion =>
          rw [hup] at hc
          rcases hc with hrs | ⟨rfl, hre | hm⟩
          · exact .inl hrs
          · exact .inr ⟨rfl, .inl hre⟩
          · have hma : isMarked s task.file = true :=
              anyRow_eq_true_iff.mpr ⟨other, u, hu, by simp [hup, hm, marked]⟩
            rw [hun] at hma
            cases hma
        | sweeping | listing => trivial
        | assembling | reading | saving | deleting =>
          rw [hup] at hc
          cases hc
      · exact hs.covered newer new older row hne hn hro hr holder
    obtain ⟨other, u, hu, huf, hc⟩ := hco
    have ho : other ≠ id := by
      rintro rfl
      obtain rfl := Option.mem_unique ht hu
      rw [hp] at hc
      cases hc
    exact ⟨other, u, (lookup_withPhase_ne ho _ _).trans hu, huf, hc⟩

/-- A sweep deletes a file. -/
theorem erased_converging (hs : Converging nameKey lower s) {now : ℕ}
    (ht : s.tasks.lookup id = some task)
    (hp : task.phase = .erasing key rest (.marking read))
    (hread : s.files.lookup key = some read)
    (hre : Reads lower ((saved s key read (read.value.softDelete now)).withPhase id task
      (some (.erasing key rest .purgingKnowledge)))) :
    Converging nameKey lower ((saved s key read (read.value.softDelete now)).withPhase id task
      (some (.erasing key rest .purgingKnowledge))) := by
  have hlabel : SameLabel nameKey read.value (read.value.softDelete now) :=
    sameLabel_softDelete _ _
  have hready : read.value.status = .ready → (read.value.softDelete now).status = .ready :=
    fun h => (softDelete_status _ _).trans h
  obtain ⟨ha, hsw⟩ := write_keeps hs hread hlabel hready
  refine ⟨hre, ha, ?_, ?_, ?_, ?_⟩
  · exact forall_tasks_withPhase (P := fun u => isCompleting u.phase = true)
      (fun _ hnx => by obtain rfl := Option.some.inj hnx; rfl) hs.completing
  · refine forall_tasks_withPhase (fun phase hnx => ?_) hsw
    cases hnx
    exact (hsw id task ht).sub hp (List.Subset.refl _)
  · intro other row hrow hd
    rcases lookup_insert_iff.mp hrow with ⟨rfl, rfl⟩ | ⟨-, hold⟩
    · obtain ⟨new, hnew, hn, -, holder⟩ := hsw id task ht (by rw [hp]; rfl)
      obtain ⟨found, hf, hb⟩ := holder _ _ _ hp other List.mem_cons_self
      obtain rfl := Option.mem_unique hf hrow
      exact ⟨task.file, new, hnew, hn, hb⟩
    · exact write_deleted hs hread hlabel hready hold hd
  · intro newer new older row hnew hn hrow hr holder
    rcases lookup_insert_iff.mp hrow with ⟨rfl, rfl⟩ | ⟨hne, hro⟩
    · rw [File.softDelete_isLive] at hr
      cases hr
    obtain ⟨old, hold, hsa⟩ := row_before hread hlabel hnew
    have holdready : old.value.status = .ready := by
      rcases lookup_insert_iff.mp hnew with ⟨rfl, rfl⟩ | ⟨-, hnw⟩
      · obtain rfl := Option.mem_unique hread hold
        rwa [softDelete_status] at hn
      · obtain rfl := Option.mem_unique hnw hold
        exact hn
    obtain ⟨other, u, hu, rfl, hc⟩ := hs.covered newer old older row hold holdready hro
      hr (older_of_sameLabel holder (.refl _)
        ⟨hsa.space.symm, hsa.created.symm, hsa.name.symm, hsa.tags.symm⟩)
    rcases same_or_ne ht hu with ⟨rfl, rfl⟩ | ho
    · rw [hp] at hc
      refine ⟨other, _, lookup_withPhase_self _ _ _, rfl, .inl ?_⟩
      exact hc.resolve_right fun h => hne h.1
    · exact ⟨other, u, (lookup_withPhase_ne ho _ _).trans hu, rfl, hc⟩

/-- Completions and their sweeps keep converging. -/
theorem step_converging (hs : Converging nameKey lower s) (he : isCompletion e = true)
    (hu : Unread s e) (h : step nameKey lower s e = some t) :
    Converging nameKey lower t := by
  have hst := step_cases h
  have hr := step_reads hs.reads hst
  cases hst with
  | registered hev | dismissed hev =>
    rw [hev] at he
    cases he
  | stored => exact ⟨hr, hs.alike, hs.completing, hs.swept, hs.deleted, hs.covered⟩
  | requested hev hid =>
    rename_i operation
    rw [hev] at he
    cases operation with
    | complete checksum => exact requested_converging hs hid
    | rename | retag => cases he
  | turned ht htu =>
    refine turned_converging hs ?_ ht htu
    cases e <;> simp_all [isCompletion, Event.isFailure]
  | wrote hev ht hw hsa =>
    rename_i id now key task read file files
    obtain ⟨hread, rfl, -⟩ := write_saved (hs.reads _ _ ht) hw hsa
    have hfr := hu _ (by rw [hev, State.writes, ht]; exact hw)
      (by rw [hsa]; rfl)
    obtain ⟨checksum, hp, rfl, hl, hf⟩ | ⟨rest, hp, rfl⟩ :=
      write_cases (hs.reads _ _ ht) (hs.completing _ _ ht) hw
    · have ha : task.afterWrite = some .sweeping := by simp [Task.afterWrite, hp,
        Operation.sweeps]
      rw [ha] at hr ⊢
      refine completed_converging hs ht hp hread hl hf (hfr ?_) hr
      rw [hf]
      exact hl
    · have ha : task.afterWrite = some (.erasing key rest .purgingKnowledge) := by
        simp [Task.afterWrite, hp]
      rw [ha] at hr ⊢
      exact erased_converging hs ht hp hread hr

end Steps

theorem exists_newest {files : Files}
    (h : ∃ id row, files.lookup id = some row ∧ row.value.status = .ready) :
    ∃ newest new, files.lookup newest = some new ∧ new.value.status = .ready ∧
      ∀ id row, files.lookup id = some row → row.value.status = .ready → id ≠ newest →
        Older id row.value newest new.value := by
  let ready := files.keys.toFinset.filter fun id =>
    (files.lookup id).any fun row => row.value.status = .ready
  let place : ℕ → ℕ ×ₗ ℕ := fun id =>
    toLex ((files.lookup id).elim 0 fun row => row.value.createdAt, id)
  have hmem : ∀ id row, files.lookup id = some row → row.value.status = .ready → id ∈ ready := by
    intro id row hrow hready
    have hkey : id ∈ files.keys := AList.mem_keys.mp (mem_of_lookup hrow)
    simp [ready, hkey, hrow, hready]
  obtain ⟨id, row, hrow, hready⟩ := h
  obtain ⟨newest, hnw, hmax⟩ := ready.exists_max_image place ⟨id, hmem id row hrow hready⟩
  obtain ⟨new, hnew, hn⟩ : ∃ new, files.lookup newest = some new ∧
      new.value.status = .ready := by
    simpa [ready, Option.any_eq_true] using (Finset.mem_filter.mp hnw).2
  refine ⟨newest, new, hnew, hn, ?_⟩
  intro other found hfo hf hne
  have hle := hmax other (hmem other found hfo hf)
  simp only [place, hfo, hnew, Option.elim_some, Prod.Lex.toLex_le_toLex] at hle
  unfold Older
  omega

section Runs

variable {files : Files} {objects : AList fun _ : ℕ => ℕ} {s : State} {events : List Event}

theorem run_converging (hu : Uploads nameKey files)
    (he : ∀ e ∈ events, isCompletion e = true)
    (hg : Guarded (step nameKey lower) Unread ⟨files, objects, ∅⟩ events)
    (hrun : run (step nameKey lower) ⟨files, objects, ∅⟩ events = some s) :
    Converging nameKey lower s :=
  run_invariant (fun _ _ _ hs hok hst => step_converging hs hok.1 hok.2 hst)
    (hg.and_of_forall he) hrun (init_converging hu)

/-- Once every completion and every sweep is over, the newest completed file is live and every
other completed one is deleted. -/
theorem newest_completed_file_stays (huploads : Uploads nameKey files)
    (hevents : ∀ e ∈ events, isCompletion e = true)
    (hguarded : Guarded (step nameKey lower) Unread ⟨files, objects, ∅⟩ events)
    (hrun : run (step nameKey lower) ⟨files, objects, ∅⟩ events = some s)
    (hdone : s.tasks = ∅)
    (hcompleted : ∃ id row, s.files.lookup id = some row ∧ row.value.status = .ready) :
    ∃ newest new, s.files.lookup newest = some new ∧ new.value.status = .ready ∧
      new.value.isLive = true ∧
      ∀ id row, s.files.lookup id = some row → row.value.status = .ready → id ≠ newest →
        Older id row.value newest new.value ∧ row.value.isLive = false := by
  have hs := run_converging huploads hevents hguarded hrun
  obtain ⟨newest, new, hnew, hready, hn⟩ := exists_newest hcompleted
  refine ⟨newest, new, hnew, hready, ?_, ?_⟩
  · by_contra hd
    rw [Bool.not_eq_true] at hd
    obtain ⟨newer, found, hfo, hf, hb⟩ := hs.deleted newest new hnew hd
    have hne : newer ≠ newest := by
      rintro rfl
      obtain rfl := Option.mem_unique hnew hfo
      unfold Older at hb
      omega
    have ha := hn newer found hfo hf hne
    unfold Older at hb ha
    omega
  · intro id row hrow hr hne
    have holder := hn id row hrow hr hne
    refine ⟨holder, ?_⟩
    by_contra hl
    rw [Bool.not_eq_false] at hl
    obtain ⟨other, task, ht, -, -⟩ := hs.covered newest new id row hnew hready hrow hl holder
    rw [hdone] at ht
    cases ht

end Runs

def twoReports : Files := (AList.insert 1 ⟨report 100, 1⟩ ∅).insert 2 ⟨report 200, 1⟩

theorem uploads_twoReports : Uploads id twoReports := by
  have hrow : ∀ key row, twoReports.lookup key = some row →
      ∃ createdAt, row.value = report createdAt := by
    refine forall_insert ⟨200, rfl⟩ (forall_insert ⟨100, rfl⟩ ?_)
    intro key row h
    cases h
  constructor
  · intro key row h
    obtain ⟨createdAt, hvalue⟩ := hrow key row h
    rw [hvalue]
    exact ⟨rfl, rfl⟩
  · intro key row key' row' h h'
    obtain ⟨createdAt, hvalue⟩ := hrow key row h
    obtain ⟨createdAt', hv⟩ := hrow key' row' h'
    rw [hvalue, hv]
    exact ⟨rfl, rfl, rfl⟩

def sweepHasRead : List Event :=
  [.request 2 (some 7) 2 (.complete none), .next 2 0, .next 2 0, .next 2 0, .next 2 0,
    .listed 2 [1], .next 2 0]

def firstCompletes : List Event :=
  [.request 1 (some 7) 1 (.complete none), .next 1 0, .next 1 0, .next 1 0, .next 1 0,
    .listed 1 []]

def liveReady (s : State) (id : ℕ) : Bool := (s.files.lookup id).any (·.value.isReady)

theorem second_report_stays :
    ∃ s, run (step id id) ⟨twoReports, ∅, ∅⟩ (firstCompletes ++ sweepHasRead ++
        [.next 2 300, .next 2 0, .next 2 0]) = some s ∧
      ∃ newest new, s.files.lookup newest = some new ∧ new.value.status = .ready ∧
        new.value.isLive = true ∧
        ∀ id row, s.files.lookup id = some row → row.value.status = .ready → id ≠ newest →
          Older id row.value newest new.value ∧ row.value.isLive = false := by
  obtain ⟨s, hrun, ht⟩ := exists_run_of_any
    (p := fun s : State => s.tasks.keys.isEmpty && liveReady s 2)
    (show (run (step id id) ⟨twoReports, ∅, ∅⟩ (firstCompletes ++ sweepHasRead ++
        [.next 2 300, .next 2 0, .next 2 0])).any _ = true by decide +kernel)
  rw [Bool.and_eq_true, List.isEmpty_iff] at ht
  obtain ⟨row, hrow, hready⟩ := (Option.any_eq_true _ _).mp ht.2
  rw [File.isReady, Bool.and_eq_true, decide_eq_true_eq] at hready
  refine ⟨s, hrun, newest_completed_file_stays uploads_twoReports (by decide +kernel)
    (by decide +kernel) hrun ?_ ⟨2, row, hrow, hready.1⟩⟩
  exact AList.ext (List.map_eq_nil_iff.mp ht.1)

/-- The older upload completes between the read and the write of the sweep that deletes it; the
conflict is swallowed and both stay. -/
theorem both_reports_stay :
    ∃ s, run (step id id) ⟨twoReports, ∅, ∅⟩ (sweepHasRead ++ firstCompletes ++
        [.next 2 300]) = some s ∧ s.tasks.keys = [] ∧
      (∀ e ∈ sweepHasRead ++ firstCompletes ++ [.next 2 300], isCompletion e = true) ∧
      liveReady s 1 = true ∧ liveReady s 2 = true := by
  obtain ⟨s, hrun, ht⟩ := exists_run_of_any
    (p := fun s : State => s.tasks.keys.isEmpty && (liveReady s 1 && liveReady s 2))
    (show (run (step id id) ⟨twoReports, ∅, ∅⟩ (sweepHasRead ++ firstCompletes ++
        [.next 2 300])).any _ = true by decide +kernel)
  rw [Bool.and_eq_true, Bool.and_eq_true, List.isEmpty_iff] at ht
  exact ⟨s, hrun, ht.1, by decide +kernel, ht.2.1, ht.2.2⟩

end Aizzak.ReplacementConvergence
