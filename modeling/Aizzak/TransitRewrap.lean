import Aizzak.EventRuns
import Aizzak.KeyedTables
import Aizzak.PyText

/-!
The sweep that brings stored ciphertexts to the current version of their key: each row is read,
rewrapped by the vault and written back if it still holds what was read. Sweeps race with each
other, with the writers of the rows and with rotations of the keys, and may be cut off anywhere.
-/
namespace Aizzak.TransitRewrap

open EventRuns KeyedTables PyText Option List

def keyVersion (ciphertext : Text) : Option ℕ :=
  if ciphertext.take 7 = ofString "vault:v" then
    let rest := ciphertext.drop 7
    let digits := rest.takeWhile fun c => (digit c).isSome
    if digits ≠ [] ∧ (rest.drop digits.length).head? = some 0x3A then some (number digits)
    else none
  else none

/-- What a ciphertext is: the name of the key that made it and the plaintext in it. -/
structure Vault (Plain : Type) where
  keyOf : Text → Text
  decrypt : Text → Plain

inductive Table
  | credentials
  | connections
  | mcpServers
deriving DecidableEq

def tableSpecs : List Table := [.credentials, .connections, .mcpServers]

structure Row where
  cipher : Option Text
  key : Text
deriving DecidableEq

abbrev Place := Table × ℕ

structure Found where
  id : ℕ
  cipher : Text
  key : Text
deriving DecidableEq

structure RewrapResult where
  table : Table
  scanned : ℕ
  rewrapped : ℕ
  dryRun : Bool
deriving DecidableEq

inductive Phase
  | selecting (spec : Table) (specs : List Table)
  | rewrapping (spec : Table) (specs : List Table) (rest : List Found)
  | updating (spec : Table) (specs : List Table) (found : Found) (new : Text) (rest : List Found)
  | finished
deriving DecidableEq

structure Sweep where
  dryRun : Bool
  scanned : ℕ
  rewrapped : ℕ
  results : List RewrapResult
  phase : Phase

/-- The rows, the latest version of every key, the sweeps under way, and what the writers stored
last at each place. -/
structure State (Plain : Type) where
  rows : AList fun _ : Place => Row
  latest : Text → ℕ
  sweeps : AList fun _ : ℕ => Sweep
  stored : Place → Option Plain

inductive Event
  | begin (id : ℕ) (dryRun : Bool)
  | select (id : ℕ) (listed : List Found)
  | rewrap (id : ℕ) (new : Text)
  | update (id : ℕ)
  | next (id : ℕ)
  | cut (id : ℕ)
  | write (place : Place) (key cipher : Text)
  | clear (place : Place)
  | delete (place : Place)
  | rotate (key : Text)

variable {Plain : Type}

def selected (rows : AList fun _ : Place => Row) (spec : Table) : List Found :=
  rows.keys.filterMap fun place =>
    if place.1 = spec then
      (rows.lookup place).bind fun row => row.cipher.map fun cipher => ⟨place.2, cipher, row.key⟩
    else none

def State.put (s : State Plain) (id : ℕ) (sweep : Sweep) : State Plain :=
  { s with sweeps := s.sweeps.insert id sweep }

/-- What the vault may answer: the same plaintext under the latest version of the key. -/
def Rewraps [DecidableEq Plain] (vault : Vault Plain) (latest : Text → ℕ) (found : Found)
    (new : Text) : Bool :=
  vault.keyOf new = found.key ∧ vault.decrypt new = vault.decrypt found.cipher ∧
    keyVersion new = some (latest found.key)

def compare (s : State Plain) (id : ℕ) (sweep : Sweep) (spec : Table) (specs : List Table)
    (found : Found) (new : Text) (rest : List Found) : State Plain :=
  match keyVersion new, keyVersion found.cipher with
  | some after, some before =>
    if after ≤ before then s.put id { sweep with phase := .rewrapping spec specs rest }
    else if sweep.dryRun then
      s.put id
        { sweep with rewrapped := sweep.rewrapped + 1, phase := .rewrapping spec specs rest }
    else s.put id { sweep with phase := .updating spec specs found new rest }
  | _, _ => { s with sweeps := s.sweeps.erase id }

def compareAndSet (s : State Plain) (id : ℕ) (sweep : Sweep) (spec : Table) (specs : List Table)
    (found : Found) (new : Text) (rest : List Found) : State Plain :=
  match s.rows.lookup (spec, found.id) with
  | some row =>
    if row.cipher = some found.cipher then
      { s.put id
          { sweep with rewrapped := sweep.rewrapped + 1, phase := .rewrapping spec specs rest }
        with
        rows := s.rows.insert (spec, found.id) { row with cipher := some new } }
    else s.put id { sweep with phase := .rewrapping spec specs rest }
  | none => s.put id { sweep with phase := .rewrapping spec specs rest }

def nextTable : List Table → Phase
  | [] => .finished
  | spec :: specs => .selecting spec specs

def step [DecidableEq Plain] (vault : Vault Plain) (s : State Plain) :
    Event → Option (State Plain)
  | .begin id dryRun =>
    if id ∈ s.sweeps then none else some (s.put id ⟨dryRun, 0, 0, [], nextTable tableSpecs⟩)
  | .select id listed =>
    match s.sweeps.lookup id with
    | none => none
    | some sweep =>
      match sweep.phase with
      | .selecting spec specs =>
        if listed.isPerm (selected s.rows spec) then
          some (s.put id
            { sweep with
              scanned := listed.length
              rewrapped := 0
              phase := .rewrapping spec specs listed })
        else none
      | _ => none
  | .rewrap id new =>
    match s.sweeps.lookup id with
    | none => none
    | some sweep =>
      match sweep.phase with
      | .rewrapping spec specs (found :: rest) =>
        if Rewraps vault s.latest found new then
          some (compare s id sweep spec specs found new rest)
        else none
      | _ => none
  | .update id =>
    match s.sweeps.lookup id with
    | none => none
    | some sweep =>
      match sweep.phase with
      | .updating spec specs found new rest =>
        some (compareAndSet s id sweep spec specs found new rest)
      | _ => none
  | .next id =>
    match s.sweeps.lookup id with
    | none => none
    | some sweep =>
      match sweep.phase with
      | .rewrapping spec specs [] =>
        some (s.put id
          { sweep with
            results := sweep.results ++ [⟨spec, sweep.scanned, sweep.rewrapped, sweep.dryRun⟩]
            phase := nextTable specs })
      | _ => none
  | .cut id => some { s with sweeps := s.sweeps.erase id }
  | .write place key cipher =>
    if vault.keyOf cipher = key ∧ (keyVersion cipher).any (· ≤ s.latest key) then
      some { s with
        rows := s.rows.insert place ⟨some cipher, key⟩
        stored := Function.update s.stored place (some (vault.decrypt cipher)) }
    else none
  | .clear place =>
    match s.rows.lookup place with
    | none => none
    | some row =>
      some { s with
        rows := s.rows.insert place { row with cipher := none }
        stored := Function.update s.stored place none }
  | .delete place =>
    some { s with
      rows := s.rows.erase place
      stored := Function.update s.stored place none }
  | .rotate key => some { s with latest := Function.update s.latest key (s.latest key + 1) }

def start (latest : Text → ℕ) : State Plain := ⟨∅, latest, ∅, fun _ => none⟩

inductive Moves [DecidableEq Plain] (vault : Vault Plain) (s : State Plain) :
    Event → State Plain → Prop where
  | began {id : ℕ} {dryRun : Bool} (hnew : id ∉ s.sweeps) :
      Moves vault s (.begin id dryRun) (s.put id ⟨dryRun, 0, 0, [], nextTable tableSpecs⟩)
  | listed {id : ℕ} {listed : List Found} {sweep : Sweep} {spec : Table} {specs : List Table}
      (hsweep : s.sweeps.lookup id = some sweep) (hphase : sweep.phase = .selecting spec specs)
      (hperm : listed.Perm (selected s.rows spec)) :
      Moves vault s (.select id listed)
        (s.put id
          { sweep with
            scanned := listed.length
            rewrapped := 0
            phase := .rewrapping spec specs listed })
  | current {id after before : ℕ} {new : Text} {sweep : Sweep} {spec : Table}
      {specs : List Table} {found : Found} {rest : List Found}
      (hsweep : s.sweeps.lookup id = some sweep)
      (hphase : sweep.phase = .rewrapping spec specs (found :: rest))
      (hnew : Rewraps vault s.latest found new = true) (hafter : keyVersion new = some after)
      (hbefore : keyVersion found.cipher = some before) (hle : after ≤ before) :
      Moves vault s (.rewrap id new)
        (s.put id { sweep with phase := .rewrapping spec specs rest })
  | counted {id after before : ℕ} {new : Text} {sweep : Sweep} {spec : Table}
      {specs : List Table} {found : Found} {rest : List Found}
      (hsweep : s.sweeps.lookup id = some sweep)
      (hphase : sweep.phase = .rewrapping spec specs (found :: rest))
      (hnew : Rewraps vault s.latest found new = true) (hafter : keyVersion new = some after)
      (hbefore : keyVersion found.cipher = some before) (hlt : before < after)
      (hdry : sweep.dryRun = true) :
      Moves vault s (.rewrap id new)
        (s.put id
          { sweep with rewrapped := sweep.rewrapped + 1, phase := .rewrapping spec specs rest })
  | held {id after before : ℕ} {new : Text} {sweep : Sweep} {spec : Table}
      {specs : List Table} {found : Found} {rest : List Found}
      (hsweep : s.sweeps.lookup id = some sweep)
      (hphase : sweep.phase = .rewrapping spec specs (found :: rest))
      (hnew : Rewraps vault s.latest found new = true) (hafter : keyVersion new = some after)
      (hbefore : keyVersion found.cipher = some before) (hlt : before < after)
      (hdry : sweep.dryRun = false) :
      Moves vault s (.rewrap id new)
        (s.put id { sweep with phase := .updating spec specs found new rest })
  | crashed {id : ℕ} {new : Text} {sweep : Sweep} {spec : Table} {specs : List Table}
      {found : Found} {rest : List Found} (hsweep : s.sweeps.lookup id = some sweep)
      (hphase : sweep.phase = .rewrapping spec specs (found :: rest))
      (hnew : Rewraps vault s.latest found new = true)
      (hbad : ∀ after before, keyVersion new = some after →
        keyVersion found.cipher ≠ some before) :
      Moves vault s (.rewrap id new) { s with sweeps := s.sweeps.erase id }
  | replaced {id : ℕ} {sweep : Sweep} {spec : Table} {specs : List Table} {found : Found}
      {new : Text} {rest : List Found} {row : Row} (hsweep : s.sweeps.lookup id = some sweep)
      (hphase : sweep.phase = .updating spec specs found new rest)
      (hrow : s.rows.lookup (spec, found.id) = some row)
      (hold : row.cipher = some found.cipher) :
      Moves vault s (.update id)
        { s.put id
            { sweep with rewrapped := sweep.rewrapped + 1, phase := .rewrapping spec specs rest }
          with
          rows := s.rows.insert (spec, found.id) { row with cipher := some new } }
  | missed {id : ℕ} {sweep : Sweep} {spec : Table} {specs : List Table} {found : Found}
      {new : Text} {rest : List Found} (hsweep : s.sweeps.lookup id = some sweep)
      (hphase : sweep.phase = .updating spec specs found new rest)
      (hgone : ∀ row, s.rows.lookup (spec, found.id) = some row →
        row.cipher ≠ some found.cipher) :
      Moves vault s (.update id)
        (s.put id { sweep with phase := .rewrapping spec specs rest })
  | ended {id : ℕ} {sweep : Sweep} {spec : Table} {specs : List Table}
      (hsweep : s.sweeps.lookup id = some sweep)
      (hphase : sweep.phase = .rewrapping spec specs []) :
      Moves vault s (.next id)
        (s.put id
          { sweep with
            results := sweep.results ++ [⟨spec, sweep.scanned, sweep.rewrapped, sweep.dryRun⟩]
            phase := nextTable specs })
  | cut {id : ℕ} : Moves vault s (.cut id) { s with sweeps := s.sweeps.erase id }
  | written {place : Place} {key cipher : Text} {v : ℕ} (hkey : vault.keyOf cipher = key)
      (hversion : keyVersion cipher = some v) (hle : v ≤ s.latest key) :
      Moves vault s (.write place key cipher)
        { s with
          rows := s.rows.insert place ⟨some cipher, key⟩
          stored := Function.update s.stored place (some (vault.decrypt cipher)) }
  | cleared {place : Place} {row : Row} (hrow : s.rows.lookup place = some row) :
      Moves vault s (.clear place)
        { s with
          rows := s.rows.insert place { row with cipher := none }
          stored := Function.update s.stored place none }
  | deleted {place : Place} :
      Moves vault s (.delete place)
        { s with
          rows := s.rows.erase place
          stored := Function.update s.stored place none }
  | rotated {key : Text} :
      Moves vault s (.rotate key)
        { s with latest := Function.update s.latest key (s.latest key + 1) }

section Facts

variable {vault : Vault Plain} {s : State Plain}

/-- A ciphertext was made by the key beside it, at a version that key has had. -/
structure Known (vault : Vault Plain) (latest : Text → ℕ) (found : Found) : Prop where
  key : vault.keyOf found.cipher = found.key
  version : ∃ v ≤ latest found.key, keyVersion found.cipher = some v

structure Newer (vault : Vault Plain) (latest : Text → ℕ) (found : Found) (new : Text) :
    Prop where
  key : vault.keyOf new = found.key
  plain : vault.decrypt new = vault.decrypt found.cipher
  version : ∃ v w, keyVersion found.cipher = some v ∧ keyVersion new = some w ∧ v < w ∧
    w ≤ latest found.key

def PhaseSound (vault : Vault Plain) (latest : Text → ℕ) : Phase → Prop
  | .selecting _ _ | .finished => True
  | .rewrapping _ _ rest => ∀ found ∈ rest, Known vault latest found
  | .updating _ _ found new rest =>
    (∀ found ∈ rest, Known vault latest found) ∧ Known vault latest found ∧
      Newer vault latest found new

structure Sound (vault : Vault Plain) (s : State Plain) : Prop where
  rows : ∀ place row, s.rows.lookup place = some row → ∀ cipher, row.cipher = some cipher →
    Known vault s.latest ⟨place.2, cipher, row.key⟩
  stored : ∀ place, ((s.rows.lookup place).bind (·.cipher)).map vault.decrypt = s.stored place
  sweeps : ∀ id sweep, s.sweeps.lookup id = some sweep → PhaseSound vault s.latest sweep.phase

variable {latest latest' : Text → ℕ} {found : Found}

theorem Known.mono (h : Known vault latest found) (hle : ∀ key, latest key ≤ latest' key) :
    Known vault latest' found := by
  obtain ⟨v, hv, hve⟩ := h.version
  exact ⟨h.key, v, le_trans hv (hle _), hve⟩

theorem Newer.mono {new : Text} (h : Newer vault latest found new)
    (hle : ∀ key, latest key ≤ latest' key) :
    Newer vault latest' found new := by
  obtain ⟨v, w, hv, hw, hlt, hb⟩ := h.version
  exact ⟨h.key, h.plain, v, w, hv, hw, hlt, le_trans hb (hle _)⟩

theorem PhaseSound.mono {phase : Phase} (h : PhaseSound vault latest phase)
    (hle : ∀ key, latest key ≤ latest' key) :
    PhaseSound vault latest' phase := by
  cases phase with
  | selecting | finished => trivial
  | rewrapping => exact fun found hf => (h found hf).mono hle
  | updating =>
    exact ⟨fun found hf => (h.1 found hf).mono hle, h.2.1.mono hle, h.2.2.mono hle⟩

theorem phaseSound_nextTable (specs : List Table) :
    PhaseSound vault latest (nextTable specs) := by
  cases specs <;> trivial

theorem Sound.put (h : Sound vault s) (id : ℕ) {sweep : Sweep}
    (hp : PhaseSound vault s.latest sweep.phase) : Sound vault (s.put id sweep) where
  rows := h.rows
  stored := h.stored
  sweeps := forall_insert hp h.sweeps

theorem Sound.drop (h : Sound vault s) (id : ℕ) :
    Sound vault { s with sweeps := s.sweeps.erase id } where
  rows := h.rows
  stored := h.stored
  sweeps := fun other sweep ho =>
    h.sweeps other sweep (lookup_erase_iff.mp ho).2

theorem mem_selected {rows : AList fun _ : Place => Row} {spec : Table} :
    found ∈ selected rows spec ↔ ∃ row, rows.lookup (spec, found.id) = some row ∧
      row.cipher = some found.cipher ∧ row.key = found.key := by
  rw [selected, mem_filterMap]
  constructor
  · rintro ⟨place, -, hs⟩
    split_ifs at hs with hsp
    obtain ⟨row, hrow, hc⟩ := bind_eq_some_iff.mp hs
    obtain ⟨cipher, hh, rfl⟩ := map_eq_some_iff.mp hc
    subst hsp
    exact ⟨row, hrow, hh, rfl⟩
  · rintro ⟨row, hrow, hc, hkey⟩
    refine ⟨(spec, found.id), AList.mem_keys.mp (mem_of_lookup hrow), ?_⟩
    simp [hrow, hc, hkey]

theorem Sound.phase (h : Sound vault s) {id : ℕ} {sweep : Sweep} {phase : Phase}
    (hs : s.sweeps.lookup id = some sweep) (hp : sweep.phase = phase) :
    PhaseSound vault s.latest phase := hp ▸ h.sweeps id sweep hs

end Facts

section Steps

variable [DecidableEq Plain] {vault : Vault Plain} {s t : State Plain} {e : Event}

theorem moves_of_step (h : step vault s e = some t) : Moves vault s e t := by
  cases e with
  | begin id dryRun =>
    simp only [step] at h
    split_ifs at h with hnew
    cases h
    exact .began hnew
  | select id listed =>
    simp only [step] at h
    split at h
    · cases h
    · rename_i sweep hs
      split at h
      · rename_i spec specs hp
        split_ifs at h with hpe
        cases h
        exact .listed hs hp (isPerm_iff.mp hpe)
      · cases h
  | rewrap id new =>
    simp only [step] at h
    split at h
    · cases h
    · rename_i sweep hs
      split at h
      · rename_i spec specs found rest hp
        split_ifs at h with hnew
        cases h
        unfold compare
        split
        · rename_i after before ha hb
          split_ifs with hle hdry
          · exact .current hs hp hnew ha hb hle
          · exact .counted hs hp hnew ha hb (by omega) hdry
          · exact .held hs hp hnew ha hb (by omega) (by simpa using hdry)
        · rename_i hbad
          exact .crashed hs hp hnew fun after before ha hb =>
            hbad after before ha hb
      · cases h
  | update id =>
    simp only [step] at h
    split at h
    · cases h
    · rename_i sweep hs
      split at h
      · rename_i spec specs found new rest hp
        cases h
        unfold compareAndSet
        split
        · rename_i row hrow
          split_ifs with hold
          · exact .replaced hs hp hrow hold
          · refine .missed hs hp ?_
            intro other ho
            rw [hrow, some.injEq] at ho
            rwa [← ho]
        · rename_i hn
          refine .missed hs hp ?_
          intro other ho
          rw [hn] at ho
          cases ho
      · cases h
  | next id =>
    simp only [step] at h
    split at h
    · cases h
    · rename_i sweep hs
      split at h
      · rename_i spec specs hp
        cases h
        exact .ended hs hp
      · cases h
  | cut id =>
    cases h
    exact .cut
  | write place key cipher =>
    simp only [step] at h
    split_ifs at h with hw
    cases h
    obtain ⟨v, hv, hle⟩ := (any_eq_true _ _).mp hw.2
    exact .written hw.1 hv (of_decide_eq_true hle)
  | clear place =>
    simp only [step] at h
    split at h
    · cases h
    · rename_i row hrow
      cases h
      exact .cleared hrow
  | delete place =>
    cases h
    exact .deleted
  | rotate key =>
    cases h
    exact .rotated

theorem newer_of_rewraps {found : Found} {new : Text} {after before : ℕ}
    (hnew : Rewraps vault s.latest found new = true) (ha : keyVersion new = some after)
    (hb : keyVersion found.cipher = some before) (hlt : before < after) :
    Newer vault s.latest found new := by
  rw [Rewraps, decide_eq_true_eq] at hnew
  obtain ⟨hkey, hp, hl⟩ := hnew
  rw [ha, some.injEq] at hl
  exact ⟨hkey, hp, before, after, hb, ha, hlt, hl.le⟩

/-- No step loses a ciphertext's key or plaintext. -/
theorem sound_step (hs : Sound vault s) (h : step vault s e = some t) : Sound vault t := by
  cases moves_of_step h with
  | began => exact hs.put _ (phaseSound_nextTable tableSpecs)
  | listed hsw hph hpe =>
    apply hs.put
    intro found hf
    obtain ⟨row, hrow, hc, hkey⟩ := mem_selected.mp (hpe.mem_iff.mp hf)
    have hk := hs.rows _ row hrow found.cipher hc
    rwa [hkey] at hk
  | current hsw hph | counted hsw hph =>
    have hr := hs.phase hsw hph
    exact hs.put _ fun found hf => hr found (mem_cons_of_mem _ hf)
  | held hsw hph hnew ha hbe hlt =>
    have hr := hs.phase hsw hph
    exact hs.put _ ⟨fun found hf => hr found (mem_cons_of_mem _ hf),
      hr _ mem_cons_self, newer_of_rewraps hnew ha hbe hlt⟩
  | crashed => exact hs.drop _
  | @replaced id sweep spec specs found new rest row hsw hph hrow hold =>
    obtain ⟨hr, hk, hn⟩ := hs.phase hsw hph
    have hkey : row.key = found.key :=
      (hs.rows _ row hrow found.cipher hold).key.symm.trans hk.key
    have hput : Sound vault (s.put id
        { sweep with rewrapped := sweep.rewrapped + 1, phase := .rewrapping spec specs rest }) :=
      hs.put id hr
    refine ⟨?_, ?_, hput.sweeps⟩
    · apply forall_insert _ hs.rows
      intro cipher hc
      obtain rfl : new = cipher := some.inj hc
      obtain ⟨v, w, -, hw, -, hb⟩ := hn.version
      rw [hkey]
      exact ⟨hn.key, w, hb, hw⟩
    · intro place
      rw [← hput.stored place]
      by_cases hp : place = (spec, found.id)
      · subst hp
        simp [State.put, hrow, hold, hn.plain]
      · simp [State.put, AList.lookup_insert_ne hp]
  | missed hsw hph => exact hs.put _ (hs.phase hsw hph).1
  | ended => exact hs.put _ (phaseSound_nextTable _)
  | cut => exact hs.drop _
  | @written place key cipher v hkey hv hle =>
    refine ⟨?_, ?_, hs.sweeps⟩
    · apply forall_insert _ hs.rows
      intro other ho
      obtain rfl : cipher = other := some.inj ho
      exact ⟨hkey, v, hle, hv⟩
    · intro other
      by_cases hp : other = place
      · subst hp
        simp
      · simp [AList.lookup_insert_ne hp, Function.update_of_ne hp, hs.stored other]
  | @cleared place row hrow =>
    refine ⟨?_, ?_, hs.sweeps⟩
    · apply forall_insert _ hs.rows
      intro other ho
      cases ho
    · intro other
      by_cases hp : other = place
      · subst hp
        simp
      · simp [AList.lookup_insert_ne hp, Function.update_of_ne hp, hs.stored other]
  | @deleted place =>
    refine ⟨?_, ?_, hs.sweeps⟩
    · intro other row hrow
      exact hs.rows other row (lookup_erase_iff.mp hrow).2
    · intro other
      by_cases hp : other = place
      · subst hp
        simp
      · simp [AList.lookup_erase_ne hp, Function.update_of_ne hp, hs.stored other]
  | @rotated key =>
    have hg : ∀ other, s.latest other ≤
        Function.update s.latest key (s.latest key + 1) other := by
      intro other
      by_cases ho : other = key
      · subst ho
        simp
      · rw [Function.update_of_ne ho]
    exact ⟨fun place row hrow cipher hc => (hs.rows place row hrow cipher hc).mono hg,
      hs.stored, fun id sweep hsw => (hs.sweeps id sweep hsw).mono hg⟩

theorem sound_run {latest : Text → ℕ} {es : List Event}
    (hrun : run (step vault) (start latest) es = some s) : Sound vault s := by
  apply run_invariant_of_step (fun _ _ _ hs h => sound_step hs h) hrun
  exact ⟨fun place row hrow => (some_ne_none row hrow.symm).elim, fun _ => rfl,
    fun id sweep hsw => (some_ne_none sweep hsw.symm).elim⟩

def cipherAt (s : State Plain) (place : Place) : Option Text :=
  (s.rows.lookup place).bind (·.cipher)

/-- No ciphertext is gone, none has come, and none is under an earlier version. -/
def NeverLowers (s t : State Plain) : Prop :=
  ∀ place,
    match cipherAt s place with
    | none => cipherAt t place = none
    | some before => ∃ after v w, cipherAt t place = some after ∧
        keyVersion before = some v ∧ keyVersion after = some w ∧ v ≤ w

theorem neverLowers_of_update (hs : Sound vault s) {id : ℕ}
    (h : step vault s (.update id) = some t) : NeverLowers s t := by
  have hsa : ∀ place before, cipherAt s place = some before →
      ∃ v, keyVersion before = some v := by
    intro place before hb
    obtain ⟨row, hrow, hc⟩ := bind_eq_some_iff.mp hb
    obtain ⟨v, -, hv⟩ := (hs.rows place row hrow before hc).version
    exact ⟨v, hv⟩
  intro place
  cases moves_of_step h with
  | @replaced id sweep spec specs found new rest row hsw hph hrow hold =>
    obtain ⟨-, -, hn⟩ := hs.phase hsw hph
    by_cases hp : place = (spec, found.id)
    · subst hp
      have hb : cipherAt s (spec, found.id) = some found.cipher := by
        rw [cipherAt, hrow, bind_some, hold]
      have ha : cipherAt
          { s.put id
              { sweep with
                rewrapped := sweep.rewrapped + 1
                phase := .rewrapping spec specs rest }
            with
            rows := s.rows.insert (spec, found.id) { row with cipher := some new } }
          (spec, found.id) = some new := by
        simp [cipherAt]
      obtain ⟨v, w, hv, hw, hlt, -⟩ := hn.version
      rw [hb]
      exact ⟨new, v, w, ha, hv, hw, hlt.le⟩
    · have ha : cipherAt
          { s.put id
              { sweep with
                rewrapped := sweep.rewrapped + 1
                phase := .rewrapping spec specs rest }
            with
            rows := s.rows.insert (spec, found.id) { row with cipher := some new } } place =
          cipherAt s place := by
        simp [cipherAt, AList.lookup_insert_ne hp]
      rw [ha]
      split
      · assumption
      · rename_i before hb
        obtain ⟨v, hv⟩ := hsa place before hb
        exact ⟨before, v, v, hb, hv, hv, le_rfl⟩
  | missed =>
    split
    · assumption
    · rename_i before hb
      obtain ⟨v, hv⟩ := hsa place before hb
      exact ⟨before, v, v, hb, hv, hv, le_rfl⟩

end Steps

section Quiet

/-- What may happen beside a sweep that is alone with the rows and the keys. -/
def quiet (id : ℕ) : Event → Bool
  | .begin other _ | .cut other => other ≠ id
  | .update other => other = id
  | .write _ _ _ | .clear _ | .delete _ | .rotate _ => false
  | .select _ _ | .rewrap _ _ | .next _ => true

def AtLatest (latest : Text → ℕ) (key cipher : Text) : Prop :=
  keyVersion cipher = some (latest key)

def AllLatest (s : State Plain) : Prop :=
  ∀ place row, s.rows.lookup place = some row → ∀ cipher, row.cipher = some cipher →
    AtLatest s.latest row.key cipher

def Owes (place : Place) (key cipher : Text) : Phase → Prop
  | .selecting spec specs => place.1 = spec ∨ place.1 ∈ specs
  | .rewrapping spec specs rest =>
    (place.1 = spec ∧ ⟨place.2, cipher, key⟩ ∈ rest) ∨ place.1 ∈ specs
  | .updating spec specs found _ rest =>
    (place.1 = spec ∧ ⟨place.2, cipher, key⟩ ∈ found :: rest) ∨ place.1 ∈ specs
  | .finished => False

variable [DecidableEq Plain] {vault : Vault Plain} {s t : State Plain} {e : Event} {id : ℕ}

variable {found : Found} {new : Text}

theorem latest_of_rewraps (hnew : Rewraps vault s.latest found new = true) :
    AtLatest s.latest found.key new := by
  rw [Rewraps, decide_eq_true_eq] at hnew
  exact hnew.2.2

theorem latest_of_le {after before : ℕ} (hk : Known vault s.latest found)
    (hnew : Rewraps vault s.latest found new = true) (ha : keyVersion new = some after)
    (hb : keyVersion found.cipher = some before) (hle : after ≤ before) :
    AtLatest s.latest found.key found.cipher := by
  obtain ⟨v, hv, hve⟩ := hk.version
  have hl := latest_of_rewraps hnew
  rw [AtLatest, ha, some.injEq] at hl
  rw [hb, some.injEq] at hve
  rw [AtLatest, hb, some.injEq]
  omega

theorem not_crashed (hk : Known vault s.latest found)
    (hnew : Rewraps vault s.latest found new = true)
    (hbad : ∀ after before, keyVersion new = some after → keyVersion found.cipher ≠ some before) :
    False := by
  obtain ⟨v, -, hv⟩ := hk.version
  exact hbad _ v (latest_of_rewraps hnew) hv

/-- A sweep that writes: every row is current or still to come. -/
structure Sweeping (s : State Plain) (sweep : Sweep) : Prop where
  writes : sweep.dryRun = false
  owes : ∀ place row, s.rows.lookup place = some row → ∀ cipher, row.cipher = some cipher →
    AtLatest s.latest row.key cipher ∨ Owes place row.key cipher sweep.phase
  holds : ∀ spec specs found new rest, sweep.phase = .updating spec specs found new rest →
    AtLatest s.latest found.key new

/-- A sweep that is alone leaves no row behind it. -/
theorem sweeping_step (hs : Sound vault s) {sweep : Sweep}
    (hlo : s.sweeps.lookup id = some sweep) (h : Sweeping s sweep)
    (hq : quiet id e = true) (hst : step vault s e = some t) :
    ∃ later, t.sweeps.lookup id = some later ∧ Sweeping t later := by
  have hot : ∀ other later, other ≠ id → ∃ found,
      (s.put other later).sweeps.lookup id = some found ∧ Sweeping (s.put other later) found := by
    intro other later hne
    refine ⟨sweep, ?_, h.writes, h.owes, h.holds⟩
    rwa [State.put, AList.lookup_insert_ne (Ne.symm hne)]
  cases moves_of_step hst with
  | @began other dryRun hnew => exact hot other _ (by simpa [quiet] using hq)
  | @listed other listed found spec specs hsw hp hpe =>
    rcases same_or_ne hlo hsw with ⟨rfl, rfl⟩ | hid
    · refine ⟨_, AList.lookup_insert _, h.writes, ?_, fun _ _ _ _ _ hh => by cases hh⟩
      intro place row hrow cipher hc
      rcases h.owes place row hrow cipher hc with hl | ho
      · exact Or.inl hl
      · right
        rw [hp] at ho
        rcases ho with hsc | hsp
        · refine Or.inl ⟨hsc, hpe.mem_iff.mpr (mem_selected.mpr ⟨row, ?_, hc, rfl⟩)⟩
          rwa [← hsc]
        · exact Or.inr hsp
    · exact hot other _ hid
  | @current other after before new found spec specs first rest hsw hp hnew ha hb
      hle =>
    rcases same_or_ne hlo hsw with ⟨rfl, rfl⟩ | hid
    · have hk := hs.phase hsw hp first mem_cons_self
      refine ⟨_, AList.lookup_insert _, h.writes, ?_, fun _ _ _ _ _ hh => by cases hh⟩
      intro place row hrow cipher hc
      rcases h.owes place row hrow cipher hc with hl | ho
      · exact Or.inl hl
      · rw [hp] at ho
        rcases ho with ⟨hsc, hin⟩ | hsp
        · rcases mem_cons.mp hin with rfl | hin
          · exact Or.inl (latest_of_le hk hnew ha hb hle)
          · exact Or.inr (Or.inl ⟨hsc, hin⟩)
        · exact Or.inr (Or.inr hsp)
    · exact hot other _ hid
  | @counted other after before new found spec specs first rest hsw hp hnew ha hb
      hlt hdry =>
    rcases same_or_ne hlo hsw with ⟨rfl, rfl⟩ | hid
    · rw [h.writes] at hdry
      cases hdry
    · exact hot other _ hid
  | @held other after before new found spec specs first rest hsw hp hnew =>
    rcases same_or_ne hlo hsw with ⟨rfl, rfl⟩ | hid
    · refine ⟨_, AList.lookup_insert _, h.writes, ?_, ?_⟩
      · intro place row hrow cipher hc
        have ho := h.owes place row hrow cipher hc
        rwa [hp] at ho
      · intro spec specs found new rest hh
        cases hh
        exact latest_of_rewraps hnew
    · exact hot other _ hid
  | @crashed other new found spec specs first rest hsw hp hnew hbad =>
    exact (not_crashed (hs.phase hsw hp first mem_cons_self) hnew hbad).elim
  | @replaced other found spec specs first new rest row hsw hp hrow hold =>
    obtain rfl : other = id := by simpa [quiet] using hq
    obtain rfl := mem_unique hlo hsw
    obtain ⟨-, hk, -⟩ := hs.phase hsw hp
    have hkey : row.key = first.key :=
      (hs.rows _ row hrow first.cipher hold).key.symm.trans hk.key
    refine ⟨_, AList.lookup_insert _, h.writes, ?_, fun _ _ _ _ _ hh => by cases hh⟩
    intro place found hf cipher hc
    rcases lookup_insert_iff.mp hf with ⟨-, rfl⟩ | ⟨hne, hf⟩
    · left
      obtain rfl : new = cipher := some.inj hc
      rw [show ({ row with cipher := some new } : Row).key = first.key from hkey]
      exact h.holds _ _ _ _ _ hp
    · rcases h.owes place found hf cipher hc with hl | ho
      · exact Or.inl hl
      · right
        rw [hp] at ho
        rcases ho with ⟨hsc, hin⟩ | hsp
        · rcases mem_cons.mp hin with rfl | hin
          · exact (hne (Prod.ext hsc rfl)).elim
          · exact Or.inl ⟨hsc, hin⟩
        · exact Or.inr hsp
  | @missed other found spec specs first new rest hsw hp hg =>
    obtain rfl : other = id := by simpa [quiet] using hq
    obtain rfl := mem_unique hlo hsw
    refine ⟨_, AList.lookup_insert _, h.writes, ?_, fun _ _ _ _ _ hh => by cases hh⟩
    intro place row hrow cipher hc
    rcases h.owes place row hrow cipher hc with hl | ho
    · exact Or.inl hl
    · right
      rw [hp] at ho
      rcases ho with ⟨hsc, hin⟩ | hsp
      · rcases mem_cons.mp hin with rfl | hin
        · subst hsc
          exact absurd hc (hg row hrow)
        · exact Or.inl ⟨hsc, hin⟩
      · exact Or.inr hsp
  | @ended other found spec specs hsw hp =>
    rcases same_or_ne hlo hsw with ⟨rfl, rfl⟩ | hid
    · refine ⟨_, AList.lookup_insert _, h.writes, ?_, ?_⟩
      · intro place row hrow cipher hc
        rcases h.owes place row hrow cipher hc with hl | ho
        · exact Or.inl hl
        · right
          rw [hp] at ho
          rcases ho with ⟨-, hin⟩ | hsp
          · exact absurd hin not_mem_nil
          · cases specs with
            | nil => exact absurd hsp not_mem_nil
            | cons following specs => exact mem_cons.mp hsp
      · intro _ _ _ _ _ hh
        cases specs <;> cases hh
    · exact hot other _ hid
  | @cut other =>
    have hne : other ≠ id := by simpa [quiet] using hq
    exact ⟨sweep, by rwa [AList.lookup_erase_ne (Ne.symm hne)], h.writes, h.owes, h.holds⟩
  | written | cleared | deleted | rotated => exact Bool.noConfusion hq

/-- A sweep over rows that are all current: nothing rewrapped, nothing to write. -/
structure Spared (s : State Plain) (sweep : Sweep) : Prop where
  rewrapped : sweep.rewrapped = 0
  results : ∀ result ∈ sweep.results, result.rewrapped = 0
  rest : ∀ spec specs rest, sweep.phase = .rewrapping spec specs rest →
    ∀ found ∈ rest, AtLatest s.latest found.key found.cipher
  writes : ∀ spec specs found new rest, sweep.phase ≠ .updating spec specs found new rest

/-- A second sweep finds nothing to do. -/
theorem spared_step (hs : Sound vault s) (hall : AllLatest s) {sweep : Sweep}
    (hl : s.sweeps.lookup id = some sweep) (h : Spared s sweep)
    (hq : quiet id e = true) (hst : step vault s e = some t) :
    AllLatest t ∧ ∃ later, t.sweeps.lookup id = some later ∧ Spared t later := by
  have ho : ∀ other later, other ≠ id → AllLatest (s.put other later) ∧ ∃ found,
      (s.put other later).sweeps.lookup id = some found ∧ Spared (s.put other later) found := by
    intro other later hne
    refine ⟨hall, sweep, ?_, h.rewrapped, h.results, h.rest, h.writes⟩
    rwa [State.put, AList.lookup_insert_ne (Ne.symm hne)]
  have hc : ∀ found new after before, Rewraps vault s.latest found new = true →
      keyVersion new = some after → keyVersion found.cipher = some before →
      AtLatest s.latest found.key found.cipher → ¬ before < after := by
    intro found new after before hnew ha hb hla
    have hn := latest_of_rewraps hnew
    rw [AtLatest, ha, some.injEq] at hn
    rw [AtLatest, hb, some.injEq] at hla
    omega
  cases moves_of_step hst with
  | @began other dryRun hnew => exact ho other _ (by simpa [quiet] using hq)
  | @listed other listed found spec specs hsw hp hpe =>
    rcases same_or_ne hl hsw with ⟨rfl, rfl⟩ | hid
    · refine ⟨hall, _, AList.lookup_insert _, rfl, h.results, ?_, fun _ _ _ _ _ hh => by
        cases hh⟩
      intro _ _ _ hre found hf
      cases hre
      obtain ⟨row, hrow, hci, hkey⟩ := mem_selected.mp (hpe.mem_iff.mp hf)
      rw [← hkey]
      exact hall _ row hrow found.cipher hci
    · exact ho other _ hid
  | @current other after before new found spec specs first rest hsw hp hnew =>
    rcases same_or_ne hl hsw with ⟨rfl, rfl⟩ | hid
    · refine ⟨hall, _, AList.lookup_insert _, h.rewrapped, h.results, ?_, fun _ _ _ _ _ hh => by
        cases hh⟩
      intro _ _ _ hre found hf
      cases hre
      exact h.rest _ _ _ hp found (mem_cons_of_mem _ hf)
    · exact ho other _ hid
  | @counted other after before new found spec specs first rest hsw hp hnew ha hb
      hlt hdry =>
    rcases same_or_ne hl hsw with ⟨rfl, rfl⟩ | hid
    · exact absurd hlt (hc first new after before hnew ha hb
        (h.rest _ _ _ hp first mem_cons_self))
    · exact ho other _ hid
  | @held other after before new found spec specs first rest hsw hp hnew ha hb
      hlt hdry =>
    rcases same_or_ne hl hsw with ⟨rfl, rfl⟩ | hid
    · exact absurd hlt (hc first new after before hnew ha hb
        (h.rest _ _ _ hp first mem_cons_self))
    · exact ho other _ hid
  | @crashed other new found spec specs first rest hsw hp hnew hbad =>
    exact (not_crashed (hs.phase hsw hp first mem_cons_self) hnew hbad).elim
  | @replaced other found spec specs first new rest row hsw hp =>
    obtain rfl : other = id := by simpa [quiet] using hq
    obtain rfl := mem_unique hl hsw
    exact absurd hp (h.writes _ _ _ _ _)
  | @missed other found spec specs first new rest hsw hp =>
    obtain rfl : other = id := by simpa [quiet] using hq
    obtain rfl := mem_unique hl hsw
    exact absurd hp (h.writes _ _ _ _ _)
  | @ended other found spec specs hsw hp =>
    rcases same_or_ne hl hsw with ⟨rfl, rfl⟩ | hid
    · refine ⟨hall, _, AList.lookup_insert _, h.rewrapped, ?_, ?_, ?_⟩
      · intro result hr
        rcases mem_append.mp hr with hr | hr
        · exact h.results result hr
        · rw [mem_singleton.mp hr]
          exact h.rewrapped
      · intro _ _ _ hre
        cases specs <;> cases hre
      · intro _ _ _ _ _ hh
        cases specs <;> cases hh
    · exact ho other _ hid
  | @cut other =>
    have hne : other ≠ id := by simpa [quiet] using hq
    refine ⟨hall, sweep, ?_, h.rewrapped, h.results, h.rest, h.writes⟩
    rwa [AList.lookup_erase_ne (Ne.symm hne)]
  | written | cleared | deleted | rotated => exact Bool.noConfusion hq

def Underway (vault : Vault Plain) (s : State Plain) (id : ℕ) : Prop :=
  Sound vault s ∧ ∃ sweep, s.sweeps.lookup id = some sweep ∧ Sweeping s sweep

def Settled (vault : Vault Plain) (s : State Plain) (id : ℕ) : Prop :=
  Sound vault s ∧ AllLatest s ∧ ∃ sweep, s.sweeps.lookup id = some sweep ∧ Spared s sweep

def Ended (s : State Plain) (id : ℕ) (results : List RewrapResult) : Prop :=
  ∃ sweep, s.sweeps.lookup id = some sweep ∧ sweep.phase = .finished ∧ sweep.results = results

instance (s : State Plain) (id : ℕ) (results : List RewrapResult) :
    Decidable (Ended s id results) :=
  decidable_of_iff ((s.sweeps.lookup id).any fun sweep =>
    sweep.phase = .finished ∧ sweep.results = results) (by
      rw [Option.any_eq_true]
      simp [Ended])

theorem allLatest_of_quiet_sweep (hs : Sound vault s) {during : List Event}
    {results : List RewrapResult}
    (hrun : run (step vault) s (.begin id false :: during) = some t)
    (hq : ∀ e ∈ during, quiet id e = true) (hen : Ended t id results) :
    Sound vault t ∧ AllLatest t := by
  obtain ⟨u, hb, hr⟩ := run_cons_eq_some hrun
  have hbe : ∃ sweep, u.sweeps.lookup id = some sweep ∧ Sweeping u sweep := by
    simp only [step] at hb
    split_ifs at hb
    cases hb
    refine ⟨_, AList.lookup_insert _, rfl, ?_, fun _ _ _ _ _ hh => by cases hh⟩
    intro place row hrow cipher hc
    right
    rcases place with ⟨table, n⟩
    cases table <;> simp [nextTable, tableSpecs, Owes]
  have hg : Guarded (step vault) (fun _ e => quiet id e = true) u during :=
    guarded_of_forall fun e he _ => hq e he
  have hk : ∀ s e t, Underway vault s id → quiet id e = true → step vault s e = some t →
      Underway vault t id := by
    rintro s e t ⟨hso, sweep, hl, hsw⟩ hok h
    exact ⟨sound_step hso h, sweeping_step hso hl hsw hok h⟩
  obtain ⟨hso, sweep, hl, hsw⟩ :=
    run_invariant hk hg hr ⟨sound_step hs hb, hbe⟩
  obtain ⟨ended, hf, hp, -⟩ := hen
  obtain rfl := mem_unique hl hf
  refine ⟨hso, ?_⟩
  intro place row hrow cipher hc
  rcases hsw.owes place row hrow cipher hc with hla | ho
  · exact hla
  · rw [hp] at ho
    exact ho.elim

theorem spared_of_quiet_sweep (hs : Sound vault s) (hall : AllLatest s) {dryRun : Bool}
    {during : List Event} {results : List RewrapResult}
    (hrun : run (step vault) s (.begin id dryRun :: during) = some t)
    (hq : ∀ e ∈ during, quiet id e = true) (hen : Ended t id results) :
    ∀ result ∈ results, result.rewrapped = 0 := by
  obtain ⟨u, hb, hre⟩ := run_cons_eq_some hrun
  have hbe : AllLatest u ∧ ∃ sweep, u.sweeps.lookup id = some sweep ∧ Spared u sweep := by
    simp only [step] at hb
    split_ifs at hb
    cases hb
    refine ⟨hall, _, AList.lookup_insert _, rfl, ?_, ?_, ?_⟩
    · exact fun _ hr => absurd hr not_mem_nil
    · exact fun _ _ _ hh => by cases hh
    · exact fun _ _ _ _ _ hh => by cases hh
  have hg : Guarded (step vault) (fun _ e => quiet id e = true) u during :=
    guarded_of_forall fun e he _ => hq e he
  have hk : ∀ s e t, Settled vault s id → quiet id e = true → step vault s e = some t →
      Settled vault t id := by
    rintro s e t ⟨hso, hla, sweep, hl, hsp⟩ hok h
    exact ⟨sound_step hso h, spared_step hso hla hl hsp hok h⟩
  obtain ⟨-, -, sweep, hl, hsp⟩ :=
    run_invariant hk hg hre ⟨sound_step hs hb, hbe⟩
  obtain ⟨ended, hf, -, rfl⟩ := hen
  obtain rfl := mem_unique hl hf
  exact hsp.results

/-- Whatever sweeps, writers and rotations do and wherever sweeps are cut off: every row holds the
secret stored last, a write of a sweep raises a version, and a sweep that was alone leaves every
row current and the next one nothing to do. -/
theorem sweeps_keep_secrets (vault : Vault Plain) {latest : Text → ℕ} {es : List Event}
    (hrun : run (step vault) (start latest) es = some s) :
    (∀ place, (cipherAt s place).map vault.decrypt = s.stored place) ∧
      (∀ id t, step vault s (.update id) = some t → NeverLowers s t) ∧
      ∀ id during t results, run (step vault) s (.begin id false :: during) = some t →
        (∀ e ∈ during, quiet id e = true) → Ended t id results →
        AllLatest t ∧ ∀ again dryRun during' u results',
          run (step vault) t (.begin again dryRun :: during') = some u →
          (∀ e ∈ during', quiet again e = true) → Ended u again results' →
          ∀ result ∈ results', result.rewrapped = 0 := by
  have hs := sound_run hrun
  refine ⟨hs.stored, fun id t h => neverLowers_of_update hs h, ?_⟩
  intro id during t results hsw hqu hen
  obtain ⟨haf, hall⟩ := allLatest_of_quiet_sweep hs hsw hqu hen
  refine ⟨hall, ?_⟩
  intro again dryRun during' u results' ha hq he
  exact spared_of_quiet_sweep haf hall ha hq he

def oneKey : Vault (Option CodePoint) where
  keyOf := fun _ => ofString "tenant-secrets"
  decrypt := fun cipher => cipher.getLast?

def connection : Place := (.connections, 7)

def racedSweeps : List Event :=
  [.write connection (ofString "tenant-secrets") (ofString "vault:v1:aS"),
    .rotate (ofString "tenant-secrets"), .begin 0 false, .begin 1 false, .select 0 [], .next 0,
    .select 1 [], .next 1,
    .select 0 [⟨7, ofString "vault:v1:aS", ofString "tenant-secrets"⟩],
    .select 1 [⟨7, ofString "vault:v1:aS", ofString "tenant-secrets"⟩],
    .rewrap 0 (ofString "vault:v2:bS"), .rewrap 1 (ofString "vault:v2:cS"), .update 1,
    .update 0, .cut 0, .rotate (ofString "tenant-secrets")]

def soleSweep (id : ℕ) (old : String) (answer : List Event) : List Event :=
  [.select id [], .next id, .select id [⟨7, ofString old, ofString "tenant-secrets"⟩]] ++ answer ++
    [.next id, .select id [], .next id]

/-- The connection's secret outlives the race; the sweep after it leaves the row current, and the
next one rewraps nothing. -/
theorem raced_connection_keeps_secret :
    ∃ s t u results, run (step oneKey) (start fun _ => 1) racedSweeps = some s ∧
      (cipherAt s connection).map oneKey.decrypt = s.stored connection ∧
      run (step oneKey) s (.begin 2 false ::
        soleSweep 2 "vault:v2:cS" [.rewrap 2 (ofString "vault:v3:dS"), .update 2]) = some t ∧
      AllLatest t ∧
      run (step oneKey) t (.begin 3 false ::
        soleSweep 3 "vault:v3:dS" [.rewrap 3 (ofString "vault:v3:eS")]) = some u ∧
      Ended u 3 results ∧ results.length = 3 ∧ ∀ result ∈ results, result.rewrapped = 0 := by
  obtain ⟨s, hs, hr⟩ := exists_run_of_any
    (p := fun s => (run (step oneKey) s (.begin 2 false ::
        soleSweep 2 "vault:v2:cS" [.rewrap 2 (ofString "vault:v3:dS"), .update 2])).any fun t =>
      Ended t 2 [⟨.credentials, 0, 0, false⟩, ⟨.connections, 1, 1, false⟩,
          ⟨.mcpServers, 0, 0, false⟩] &&
        (run (step oneKey) t (.begin 3 false ::
          soleSweep 3 "vault:v3:dS" [.rewrap 3 (ofString "vault:v3:eS")])).any fun u =>
        Ended u 3 [⟨.credentials, 0, 0, false⟩, ⟨.connections, 1, 0, false⟩,
          ⟨.mcpServers, 0, 0, false⟩])
    (show (run (step oneKey) (start fun _ => 1) racedSweeps).any _ = true by decide +kernel)
  obtain ⟨t, ht, hr⟩ := exists_run_of_any hr
  rw [Bool.and_eq_true, decide_eq_true_eq] at hr
  obtain ⟨u, hu, he⟩ := exists_run_of_any hr.2
  obtain ⟨hst, -, hsw⟩ := sweeps_keep_secrets oneKey hs
  obtain ⟨hall, ha⟩ := hsw 2 _ t _ ht (by decide +kernel) hr.1
  have hended' := of_decide_eq_true he
  exact ⟨s, t, u, _, hs, hst connection, ht, hall, hu, hended', rfl,
    ha 3 false _ u _ hu (by decide +kernel) hended'⟩

end Quiet

end Aizzak.TransitRewrap
