import Aizzak.OutboxRelay

/-!
In which order the events of one aggregate reach the streams. The relay sorts by the time at
which a unit of work began, while its changes take effect when it commits; the two orders agree
when every commit sorts after what has been committed for its aggregates and not been added yet.
-/
namespace Aizzak.OutboxOrder

open EventRuns FirstOccurrences KeyedTables OutboxRelay List

/-- Two rows whose order matters: an earlier commit of the same aggregate, or an earlier record of
one append. -/
def Earlier (a b : Row) : Prop :=
  (a.record.aggregate = b.record.aggregate ∧ a.place.commit < b.place.commit) ∨
    (a.place.commit = b.place.commit ∧ a.place.append = b.place.append ∧
      a.place.index < b.place.index)

def InOrder (s : State) : Event → Prop
  | .commit u => ∀ unit ∈ s.units.lookup u, ∀ new ∈ unit.rows s.commits, ∀ old ∈ s.rows,
      old.record.aggregate = new.record.aggregate → old.entry ∉ s.log → old.SortsBy new
  | _ => True

instance (s : State) : ∀ e : Event, Decidable (InOrder s e)
  | .commit u => inferInstanceAs (Decidable (∀ unit ∈ s.units.lookup u,
      ∀ new ∈ unit.rows s.commits, ∀ old ∈ s.rows,
        old.record.aggregate = new.record.aggregate → old.entry ∉ s.log → old.SortsBy new))
  | .begin .. | .update .. | .append .. | .rollback .. | .fetch .. | .fetchFails .. | .xadd ..
  | .publishReturns | .publishFails .. | .bumpReturns | .bumpFails .. | .markReturns ..
  | .markFails .. | .wake | .killed .. | .restart => isTrue trivial

variable {cfg : Config} {s t : State} {e : Event}

def Minted (s : State) : Prop :=
  ∀ u unit, s.units.lookup u = some unit → ∀ records ∈ unit.appends,
    (records.map (·.eventId)).Pairwise (· < ·)

theorem step_minted (s : State) (e : Event) (t : State) (h : Minted s)
    (ht : step cfg s e = some t) : Minted t := by
  cases step_moved ht with
  | produced hs hp happends =>
    intro u unit hu records hr
    rcases happends u unit hu records hr with ⟨old, hold, hmem⟩ | hnew
    · exact h u old hold records hmem
    · exact hnew
  | committed u unit hu hids =>
    exact fun i unit hi => h i unit (lookup_erase_iff.mp hi).2
  | rested hs | idled _ _ hs | failed _ _ _ _ _ _ hs | bumped _ _ _ _ _ _ _ hs =>
    rw [Minted, hs.units]
    exact h
  | marked _ _ _ applied hs =>
    rw [Minted, hs.units]
    cases applied <;> exact h
  | fetched | added => exact h
  | returned _ _ rest =>
    cases rest <;> exact h

variable {unit : UnitOfWork}

theorem mem_rows {commit : ℕ} {row : Row} (h : row ∈ unit.rows commit) :
    row.createdAt = unit.startedAt ∧ row.place.commit = commit ∧
      ∃ records, unit.appends[row.place.append]? = some records ∧
        records[row.place.index]? = some row.record := by
  obtain ⟨⟨records, append⟩, hre, hrow⟩ := mem_flatMap.mp h
  obtain ⟨⟨record, index⟩, hr, rfl⟩ := mem_map.mp hrow
  exact ⟨rfl, rfl, records, mem_zipIdx_iff_getElem?.mp hre,
    mem_zipIdx_iff_getElem?.mp hr⟩

variable {a b : Row}

theorem sortsBy_of_append {commit : ℕ}
    (h : ∀ records ∈ unit.appends, (records.map (·.eventId)).Pairwise (· < ·))
    (ha : a ∈ unit.rows commit) (hb : b ∈ unit.rows commit)
    (happend : a.place.append = b.place.append) (hin : a.place.index < b.place.index) :
    a.SortsBy b := by
  obtain ⟨hat, -, records, har, hac⟩ := mem_rows ha
  obtain ⟨hbs, -, records', hbr, hbc⟩ := mem_rows hb
  rw [happend] at har
  obtain rfl := Option.mem_unique har hbr
  have hp := pairwise_map.mp (h records (mem_of_getElem? hbr))
  obtain ⟨hi, hia⟩ := List.getElem?_eq_some_iff.mp hac
  obtain ⟨hj, hjb⟩ := List.getElem?_eq_some_iff.mp hbc
  have hl := pairwise_iff_getElem.mp hp _ _ hi hj hin
  rw [hia, hjb] at hl
  rw [Row.SortsBy, hat, hbs]
  exact .inr ⟨rfl, Nat.le_of_lt hl⟩

theorem Earlier.congr {a' b' : Row} (ha : a.SameInsert a') (hb : b.SameInsert b')
    (h : Earlier a' b') : Earlier a b := by
  rw [Earlier, ha.1, ha.2.2, hb.1, hb.2.2]
  exact h

theorem sortsBy_congr {a' b' : Row} (ha : a.SameInsert a') (hb : b.SameInsert b')
    (h : a.SortsBy b) :
    a'.SortsBy b' := by
  rw [Row.SortsBy, ← ha.2.1, ← hb.2.1, ← ha.id_eq, ← hb.id_eq]
  exact h

theorem Earlier.ne (h : Earlier a b) : a ≠ b := by
  rintro rfl
  rcases h with ⟨-, hlt⟩ | ⟨-, -, hlt⟩ <;> omega

/-- Rows whose order matters keep it: in the queue, in what the cycles took, and in the streams. -/
structure Ordered (s : State) : Prop where
  numbered : ∀ row ∈ s.rows, row.place.commit < s.commits
  queued : ∀ a ∈ s.rows, ∀ b ∈ s.rows, Earlier a b → a.entry ∈ s.log ∨ a.SortsBy b
  taken : ∀ n c, s.cycles.lookup n = some c → ∀ a ∈ s.rows, ∀ b ∈ s.rows, Earlier a b →
    a.entry ∈ s.log ∨ FirstBefore c.fetched a.entry b.entry
  added : ∀ a ∈ s.rows, ∀ b ∈ s.rows, Earlier a b → FirstBefore s.log a.entry b.entry

theorem Ordered.of_rows (h : Ordered s) (hlog : t.log = s.log) (hco : t.commits = s.commits)
    (hro : ∀ row ∈ t.rows, ∃ r ∈ s.rows, r.SameInsert row)
    (hcy : ∀ n c, t.cycles.lookup n = some c →
      ∃ d, s.cycles.lookup n = some d ∧ d.fetched = c.fetched) : Ordered t := by
  refine ⟨fun row hrow => ?_, fun a ha b hb hab => ?_, fun n c hc a ha b hb hab => ?_,
    fun a ha b hb hab => ?_⟩
  · obtain ⟨r, hr, hsm⟩ := hro row hrow
    rw [← hsm.2.2, hco]
    exact h.numbered r hr
  all_goals
    obtain ⟨a', ha', hsa⟩ := hro a ha
    obtain ⟨b', hb', hs⟩ := hro b hb
    have he := hab.congr hsa hs
    rw [← hsa.entry_eq, hlog]
  · exact (h.queued a' ha' b' hb' he).imp_right (sortsBy_congr hsa hs)
  · obtain ⟨d, hd, heq⟩ := hcy n c hc
    rw [← hs.entry_eq, ← heq]
    exact h.taken n d hd a' ha' b' hb' he
  · rw [← hs.entry_eq]
    exact h.added a' ha' b' hb' he

theorem entry_ne_of_new {rows new : List Row} (hids : ((rows ++ new).map (·.id)).Nodup) {old : Row}
    (hold : old ∈ rows) (hb : b ∈ new) : old.entry ≠ b.entry := by
  intro heq
  rw [map_append, nodup_append] at hids
  have hid : old.id = b.id := congrArg OutboxEntry.eventId heq
  exact hids.2.2 old.id (mem_map_of_mem hold) b.id (mem_map_of_mem hb) hid

/-- A commit adds its rows behind those of its aggregates. -/
theorem Ordered.committed (h : Ordered s) (hso : Sound cfg s) {u : ℕ}
    (hut : s.units.lookup u = some unit)
    (hids : ((s.rows ++ unit.rows s.commits).map (·.id)).Nodup)
    (hm : ∀ records ∈ unit.appends, (records.map (·.eventId)).Pairwise (· < ·))
    (hok : InOrder s (.commit u)) (units : AList fun _ : ℕ => UnitOfWork) :
    Ordered { s with
      units := units
      rows := s.rows ++ unit.rows s.commits
      commits := s.commits + 1 } := by
  have hnew : ∀ row ∈ unit.rows s.commits, row.place.commit = s.commits :=
    fun row hrow => (mem_rows hrow).2.1
  have hba : ∀ a ∈ unit.rows s.commits, ∀ b ∈ s.rows, ¬Earlier a b := by
    intro a ha b hb hab
    have hac := hnew a ha
    have hbc := h.numbered b hb
    rcases hab with ⟨-, hlt⟩ | ⟨hsa, -⟩ <;> omega
  have hun : ∀ b ∈ unit.rows s.commits, b.entry ∉ s.log := by
    intro b hb hmem
    obtain ⟨old, hold, heq⟩ := hso.logged b.entry hmem
    exact entry_ne_of_new hids hold hb heq
  have hu : ∀ n c, s.cycles.lookup n = some c → ∀ b ∈ unit.rows s.commits,
      b.entry ∉ c.fetched := by
    intro n c hc b hb hmem
    have hcy := hso.cycles n c hc
    obtain ⟨row, hrow, heq⟩ := mem_map.mp (hcy.fetched_prefix.subset hmem)
    obtain ⟨old, hold, hsa⟩ := hcy.known row hrow
    exact entry_ne_of_new hids hold hb (hsa.entry_eq.trans heq)
  refine ⟨fun row hrow => ?_, fun a ha b hb hab => ?_, fun n c hc a ha b hb hab => ?_,
    fun a ha b hb hab => ?_⟩
  · rcases mem_append.mp hrow with hold | hrow
    · exact Nat.lt_succ_of_lt (h.numbered row hold)
    · rw [hnew row hrow]
      exact Nat.lt_succ_self _
  · rcases mem_append.mp hb with hb | hb
    · rcases mem_append.mp ha with ha | ha
      · exact h.queued a ha b hb hab
      · exact absurd hab (hba a ha b hb)
    · rcases mem_append.mp ha with ha | ha
      · rcases hab with ⟨hag, -⟩ | ⟨hco, -⟩
        · by_cases hs : a.entry ∈ s.log
          · exact .inl hs
          · exact .inr (hok unit hut b hb a ha hag hs)
        · have hac := h.numbered a ha
          have hbc := hnew b hb
          omega
      · rcases hab with ⟨-, hlt⟩ | ⟨-, happend, hi⟩
        · have hac := hnew a ha
          have hbc := hnew b hb
          omega
        · exact .inr (sortsBy_of_append hm ha hb happend hi)
  · rcases mem_append.mp hb with hb | hb
    · rcases mem_append.mp ha with ha | ha
      · exact h.taken n c hc a ha b hb hab
      · exact absurd hab (hba a ha b hb)
    · exact .inr (firstBefore_of_notMem (hu n c hc b hb))
  · rcases mem_append.mp hb with hb | hb
    · rcases mem_append.mp ha with ha | ha
      · exact h.added a ha b hb hab
      · exact absurd hab (hba a ha b hb)
    · exact firstBefore_of_notMem (hun b hb)

theorem Ordered.fetched (h : Ordered s) (hso : Sound cfg s) (ha : a ∈ s.rows) (hb : b ∈ s.rows)
    (hab : Earlier a b) :
    a.entry ∈ s.log ∨ FirstBefore (cycleOf cfg s.rows).fetched a.entry b.entry := by
  have hc : CycleSound cfg s.rows s.log (cycleOf cfg s.rows) := cycleOf_sound hso.ids s.log
  by_cases hse : a.entry ∈ s.log
  · exact .inl hse
  · right
    by_cases hmem : b.entry ∈ (cycleOf cfg s.rows).fetched
    · obtain ⟨row, hrow, heq⟩ := mem_map.mp (hc.fetched_prefix.subset hmem)
      obtain rfl : row = b := inj_on_of_nodup_map hso.ids (mem_unpublished.mp hrow).1 hb
        (congrArg OutboxEntry.eventId heq)
      have han : a.publishedAt = none := by
        by_contra hset
        exact hse (hso.published a ha hset)
      have hne : a.id ≠ row.id := fun hid =>
        hab.ne (inj_on_of_nodup_map hso.ids ha hb hid)
      obtain ⟨first, rest, hs, hnot, hf⟩ := hc.ahead (mem_unpublished.mpr ⟨ha, han⟩)
        hrow ((h.queued a ha row hb hab).resolve_left hse) hne
      have hp := hc.fetched_prefix
      rw [hs] at hp
      exact firstBefore_of_prefix hp hnot hf
    · exact firstBefore_of_notMem hmem

variable {c : Cycle}

theorem Ordered.insertCycle (h : Ordered s) {n : ℕ} (hc : ∀ a ∈ s.rows, ∀ b ∈ s.rows, Earlier a b →
      a.entry ∈ s.log ∨ FirstBefore c.fetched a.entry b.entry) :
    Ordered { s with cycles := s.cycles.insert n c } :=
  ⟨h.numbered, h.queued, forall_insert hc h.taken, h.added⟩

/-- What comes before an entry in the order of its cycle was added before the entry was sent. -/
theorem mem_log_of_issued {rows : List Row} {log : List OutboxEntry} {x y : OutboxEntry}
    (h : CycleSound cfg rows log c) (hi : y ∈ c.returned ∨ c.current = some y)
    (hb : FirstBefore c.fetched x y) : x ∈ log := by
  obtain ⟨tail, ht⟩ := h.taken
  have hr : x ∈ c.returned := by
    rcases hi with hmem | hc
    · obtain ⟨first, rest, hs⟩ := append_of_mem hmem
      rw [hs]
      refine mem_append_left _ (hb first (rest ++ c.current.toList ++ tail) ?_)
      rw [← ht, hs]
      simp
    · refine hb c.returned tail ?_
      rw [← ht, hc]
      simp
  exact h.logged x (h.mem_added_of_returned hr)

theorem Ordered.xadded (h : Ordered s) (hso : Sound cfg s) {n : ℕ} {entry : OutboxEntry}
    (hc : s.cycles.lookup n = some c) (hi : entry ∈ c.returned ∨ c.current = some entry) :
    Ordered { s with
      cycles := s.cycles.insert n { c with added := c.added ++ [entry] }
      log := s.log ++ [entry] } := by
  refine ⟨h.numbered, fun a ha b hb hab => ?_,
    forall_insert (fun a ha b hb hab => ?_) fun m d hd a ha b hb hab => ?_,
    fun a ha b hb hab => (h.added a ha b hb hab).concat ?_⟩
  · exact (h.queued a ha b hb hab).imp_left (mem_append_left _)
  · exact (h.taken n c hc a ha b hb hab).imp_left (mem_append_left _)
  · exact (h.taken m d hd a ha b hb hab).imp_left (mem_append_left _)
  · rintro rfl
    rcases h.taken n c hc a ha b hb hab with hs | hbe
    · exact hs
    · exact mem_log_of_issued (hso.cycles n c hc) hi hbe

/-- Rows whose order matters keep it through every step. -/
theorem step_ordered (hs : Sound cfg s) (hmi : Minted s) (h : Ordered s)
    (hok : InOrder s e) (ht : step cfg s e = some t) : Ordered t := by
  have hk : ∀ row ∈ s.rows, ∃ r ∈ s.rows, r.SameInsert row :=
    fun row hrow => ⟨row, hrow, rfl, rfl, rfl⟩
  have hm : ∀ change : Row → Row, (∀ row : Row, row.SameInsert (change row)) →
      ∀ row ∈ s.rows.map change, ∃ r ∈ s.rows, r.SameInsert row := by
    intro change hch row hrow
    obtain ⟨r, hr, rfl⟩ := mem_map.mp hrow
    exact ⟨r, hr, hch r⟩
  cases step_moved ht with
  | produced hsa | rested hsa | failed _ _ _ _ _ _ hsa =>
    exact h.of_rows hsa.log hsa.commits (hsa.rows ▸ hk)
      (hsa.cycles ▸ fun n c hc => ⟨c, hc, rfl⟩)
  | committed u unit hu hids =>
    exact h.committed hs hu hids (hmi u unit hu) hok _
  | idled n hn hsa =>
    have hi : Ordered { s with cycles := s.cycles.insert n (cycleOf cfg s.rows) } :=
      h.insertCycle fun a ha b hb hab => h.fetched hs ha hb hab
    exact hi.of_rows hsa.log hsa.commits (hsa.rows ▸ hk)
      (hsa.cycles ▸ fun n c hc => ⟨c, hc, rfl⟩)
  | fetched n hn entry rest he =>
    have hi : Ordered { s with
        cycles := s.cycles.insert n { cycleOf cfg s.rows with current := some entry } } :=
      h.insertCycle fun a ha b hb hab => h.fetched hs ha hb hab
    exact hi.of_rows rfl rfl hk fun n c hc => ⟨c, hc, rfl⟩
  | added n c entry hc his => exact h.xadded hs hc his
  | returned n succeeded rest entry c hp hc had =>
    have hcy : ∀ d : Cycle, d.fetched = c.fetched → ∀ m b,
        (s.cycles.insert n d).lookup m = some b →
          ∃ old, s.cycles.lookup m = some old ∧ old.fetched = b.fetched :=
      fun d hd => forall_insert ⟨c, hc, hd.symm⟩ fun m b hb => ⟨b, hb, rfl⟩
    cases rest with
    | nil => exact h.of_rows rfl rfl hk (hcy _ rfl)
    | cons next rest => exact h.of_rows rfl rfl hk (hcy _ rfl)
  | bumped succeeded entry failure after hp rows hro hsa hne =>
    refine h.of_rows hsa.log hsa.commits ?_ (hsa.cycles ▸ fun n c hc => ⟨c, hc, rfl⟩)
    rw [hsa.rows]
    rcases hro with rfl | rfl
    · exact hk
    · refine hm _ fun row => ?_
      split_ifs <;> exact ⟨rfl, rfl, rfl⟩
  | marked succeeded failure hp applied hsa hre =>
    cases applied with
    | none =>
      exact h.of_rows hsa.log hsa.commits (hsa.rows ▸ hk)
        (hsa.cycles ▸ fun n c hc => ⟨c, hc, rfl⟩)
    | some now =>
      refine h.of_rows hsa.log hsa.commits ?_ (hsa.cycles ▸ fun n c hc => ⟨c, hc, rfl⟩)
      rw [hsa.rows]
      refine hm _ fun row => ?_
      split_ifs <;> exact ⟨rfl, rfl, rfl⟩

theorem run_ordered {clock : ℤ} {es : List Event}
    (hok : Guarded (step cfg) InOrder (State.init cfg clock) es)
    (hrun : run (step cfg) (State.init cfg clock) es = some s) : Ordered s := by
  have hs : ∀ (s : State) (e : Event) (t : State), Sound cfg s ∧ Minted s ∧ Ordered s →
      InOrder s e → step cfg s e = some t → Sound cfg t ∧ Minted t ∧ Ordered t :=
    fun s e t h hok ht => ⟨step_sound s e t h.1 ht, step_minted s e t h.2.1 ht,
      step_ordered h.1 h.2.1 h.2.2 hok ht⟩
  have hi : Ordered (State.init cfg clock) := by
    refine ⟨?_, ?_, ?_, ?_⟩
    all_goals simp [State.init]
  have hm : Minted (State.init cfg clock) := by simp [Minted, State.init]
  exact (run_invariant hs hok hrun ⟨Sound.init cfg clock, hm, hi⟩).2.2

/-- In a run whose commits each sort after the unsent rows of their aggregates, the events of an
aggregate are added in the order of their commits, and the records of one append in theirs. -/
theorem events_follow_commits (cfg : Config) (clock : ℤ) (es : List Event) (s : State)
    (hrun : run (step cfg) (State.init cfg clock) es = some s)
    (hok : Guarded (step cfg) InOrder (State.init cfg clock) es) :
    (∀ a ∈ s.rows, ∀ b ∈ s.rows, a.record.aggregate = b.record.aggregate →
      a.place.commit < b.place.commit → FirstBefore s.log a.entry b.entry) ∧
    ∀ a ∈ s.rows, ∀ b ∈ s.rows, a.place.commit = b.place.commit →
      a.place.append = b.place.append → a.place.index < b.place.index →
        FirstBefore s.log a.entry b.entry := by
  have h := run_ordered hok hrun
  refine ⟨fun a ha b hb hag hc => ?_, fun a ha b hb hc happend hi => ?_⟩
  · exact h.added a ha b hb (.inl ⟨hag, hc⟩)
  · exact h.added a ha b hb (.inr ⟨hc, happend, hi⟩)

private def batches : Config := ⟨10, 100, 1000⟩

private def renamed : OutboxRecord := ⟨1, "agent", 7, "agents", "renamed"⟩

private def archived : OutboxRecord := ⟨2, "agent", 7, "agents", "archived"⟩

private def publishedBetween : List Event :=
  [.begin 1 1 10, .begin 0 0 20, .update 0 ("agent", 7), .append 0 [renamed], .commit 0,
    .fetch 0, .xadd 0 ⟨1, "agents", "renamed"⟩, .publishReturns, .markReturns 25, .wake,
    .update 1 ("agent", 7), .append 1 [archived], .commit 1,
    .fetch 1, .xadd 1 ⟨2, "agents", "archived"⟩]

theorem events_published_between_follow_commits :
    ∃ s, run (step batches) (State.init batches 0) publishedBetween = some s ∧
      s.log = [⟨1, "agents", "renamed"⟩, ⟨2, "agents", "archived"⟩] ∧
      ∀ a ∈ s.rows, ∀ b ∈ s.rows, a.record.aggregate = b.record.aggregate →
        a.place.commit < b.place.commit → FirstBefore s.log a.entry b.entry := by
  obtain ⟨s, hs, hlog⟩ := exists_run_of_any
    (p := fun s : State => s.log = [⟨1, "agents", "renamed"⟩, ⟨2, "agents", "archived"⟩])
    (show (run (step batches) (State.init batches 0) publishedBetween).any _ = true by
      decide +kernel)
  exact ⟨s, hs, of_decide_eq_true hlog,
    (events_follow_commits batches 0 publishedBetween s hs (by decide +kernel)).1⟩

/-- Two units overlap on one aggregate: the one that began first commits second, and its event is
added before the one it builds on. -/
theorem overlapping_units_are_added_against_their_commits :
    ¬∀ (cfg : Config) (clock : ℤ) (es : List Event) (s : State),
      run (step cfg) (State.init cfg clock) es = some s →
      ∀ a ∈ s.rows, ∀ b ∈ s.rows, a.record.aggregate = b.record.aggregate →
        a.place.commit < b.place.commit → FirstBefore s.log a.entry b.entry := by
  intro h
  obtain ⟨s, hs, ht⟩ := exists_run_of_any
    (p := fun s : State => s.log = [⟨2, "agents", "archived"⟩] &&
      s.rows = [⟨renamed, 20, none, 0, ⟨0, 0, 0⟩⟩, ⟨archived, 10, none, 0, ⟨1, 0, 0⟩⟩])
    (show (run (step batches) (State.init batches 0)
      [.begin 1 1 10, .begin 0 0 20, .update 0 ("agent", 7), .append 0 [renamed], .commit 0,
        .update 1 ("agent", 7), .append 1 [archived], .commit 1,
        .fetch 0, .xadd 0 ⟨2, "agents", "archived"⟩]).any _ = true by decide +kernel)
  simp only [Bool.and_eq_true, decide_eq_true_eq] at ht
  have hr := h batches 0 _ s hs
  rw [ht.2] at hr
  have hf := hr _ mem_cons_self _ (mem_cons_of_mem _ mem_cons_self) rfl
    (by decide)
  exact absurd (hf [] [] ht.1) not_mem_nil

end Aizzak.OutboxOrder
