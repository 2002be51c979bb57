import Aizzak.EventRuns
import Aizzak.PyText
import Aizzak.SortedSets

/-!
The sliding-window rate limiter over Redis. One script checks every bucket a request names
and adds the request to all of them or to none; a bucket is a sorted set of the requests
admitted to it, scored with the millisecond of their arrival. What a bucket holds of its last
window is what was admitted in it, so the number of members is the number of admissions, and
the expiry of a key comes no earlier than the end of its last admission's window.
-/
namespace Aizzak.RateLimiter

open EventRuns KeyedTables SortedSets PyText List

structure RateBucket where
  scope : String
  key : String
  limit : ℤ
  windowS : ℤ

structure RateVerdict where
  allowed : Bool
  scope : String := ""
  retryAfterS : ℤ := 0
deriving DecidableEq

def allowedVerdict : RateVerdict := ⟨true, "", 0⟩

abbrev Buckets := Keyspace String String

structure Ceiling where
  key : String
  limit : ℤ
  windowMs : ℤ

def retryMs (now windowMs : ℤ) (set : SortedSet String) : ℤ :=
  let wait := match set.lowest with
    | some oldest => oldest + windowMs - now
    | none => windowMs
  if wait < 1 then 1 else wait

/-- The first pass: each bucket is brought up to date, and the first full one refuses, with its
place and its wait. -/
def checkBuckets (now : ℤ) : Buckets → ℕ → List Ceiling → Buckets × Option (ℕ × ℤ)
  | sets, _, [] => (sets, none)
  | sets, i, bucket :: rest =>
    let set := (sets.read now bucket.key).removeUpTo (now - bucket.windowMs)
    let sets := sets.write bucket.key set
    if bucket.limit ≤ set.card then (sets, some (i, retryMs now bucket.windowMs set))
    else checkBuckets now sets (i + 1) rest

def addToBuckets (now : ℤ) (member : String) : Buckets → List Ceiling → Buckets
  | sets, [] => sets
  | sets, bucket :: rest =>
    addToBuckets now member (sets.write bucket.key
      (((sets.read now bucket.key).add member now).expire (now + bucket.windowMs))) rest

def consume (clock : ℤ) (member : String) (sets : Buckets) (buckets : List Ceiling) :
    Buckets × (ℤ × ℤ × ℤ) :=
  match checkBuckets (nowMs clock) sets 1 buckets with
  | (sets, some (i, retryMs)) => (sets, 0, i, retryMs)
  | (sets, none) => (addToBuckets (nowMs clock) member sets buckets, 1, 0, 0)

inductive ValidationError where
  | limitNotPositive (scope : String)
  | windowNotPositive (scope : String)
  | keyEmpty (scope : String)

def guard (bucket : RateBucket) : Except ValidationError Unit :=
  if bucket.limit ≤ 0 then .error (.limitNotPositive bucket.scope)
  else if bucket.windowS ≤ 0 then .error (.windowNotPositive bucket.scope)
  else if Blank (ofString bucket.key) then .error (.keyEmpty bucket.scope)
  else .ok ()

def binding (outcome : ℤ × ℤ × ℤ) (buckets : List RateBucket) : Option RateBucket :=
  if 1 ≤ outcome.2.1 then buckets[(outcome.2.1 - 1).toNat]? else none

def verdict (outcome : ℤ × ℤ × ℤ) (buckets : List RateBucket) : RateVerdict :=
  if outcome.1 = 1 then allowedVerdict
  else match binding outcome buckets with
    | none => allowedVerdict
    | some bucket => ⟨false, bucket.scope, max 1 (-(-outcome.2.2 / 1000))⟩

def keyFor (keyPrefix bucketKey : String) : String := keyPrefix ++ ":" ++ bucketKey

def ceilingOf (keyPrefix : String) (bucket : RateBucket) : Ceiling :=
  ⟨keyFor keyPrefix bucket.key, bucket.limit, bucket.windowS * 1000⟩

def tryConsume (keyPrefix : String) (clock : ℤ) (member : String) (sets : Buckets)
    (buckets : List RateBucket) : Except ValidationError (Buckets × RateVerdict) :=
  if buckets.isEmpty then .ok (sets, allowedVerdict)
  else do
    buckets.forM guard
    let (sets, outcome) := consume clock member sets (buckets.map (ceilingOf keyPrefix))
    .ok (sets, verdict outcome buckets)

structure Admission where
  member : String
  clock : ℤ
  keys : List String
deriving DecidableEq

structure State where
  clock : ℤ
  sets : Buckets
  log : List Admission

def State.init (clock : ℤ) : State := ⟨clock, ∅, []⟩

structure Request where
  clock : ℤ
  member : String
  buckets : List RateBucket

def step (keyPrefix : String) (s : State) (r : Request) : Option State :=
  if r.clock < s.clock then none
  else match tryConsume keyPrefix r.clock r.member s.sets r.buckets with
    | .error _ => some { s with clock := r.clock }
    | .ok (sets, verdict) =>
      some ⟨r.clock, sets, if verdict.allowed then
        s.log ++ [⟨r.member, r.clock, r.buckets.map (·.key)⟩] else s.log⟩

theorem keyFor_injective (keyPrefix : String) : Function.Injective (keyFor keyPrefix) := by
  intro first second h
  exact String.append_right_inj _ |>.mp h

section Tracking

variable {keyPrefix : String} {windowS : String → ℤ} {log : List Admission} {now : ℤ}
  {sets : Buckets} {key : String}

/-- What the buckets hold of their windows is what the log has of them. -/
structure Tracks (keyPrefix : String) (windowS : String → ℤ) (log : List Admission) (now : ℤ)
    (sets : Buckets) : Prop where
  fresh : (log.map (·.member)).Nodup
  past : ∀ a ∈ log, nowMs a.clock ≤ now
  stored : ∀ key set m t, sets.lookup (keyFor keyPrefix key) = some set → set.score m = some t →
    ∃ a ∈ log, a.member = m ∧ nowMs a.clock = t ∧ key ∈ a.keys
  kept : ∀ a ∈ log, ∀ key ∈ a.keys, now - windowS key * 1000 < nowMs a.clock →
    ∃ set, sets.lookup (keyFor keyPrefix key) = some set ∧
      set.score a.member = some (nowMs a.clock)
  expiry : ∀ key set at_, sets.lookup (keyFor keyPrefix key) = some set →
    set.expireAt = some at_ → ∀ m t, set.score m = some t → t + windowS key * 1000 ≤ at_

theorem Tracks.mono (h : Tracks keyPrefix windowS log now sets) {later : ℤ} (hl : now ≤ later) :
    Tracks keyPrefix windowS log later sets := by
  refine ⟨h.fresh, fun a ha => le_trans (h.past a ha) hl, h.stored, fun a ha key hkey hin => ?_,
    h.expiry⟩
  exact h.kept a ha key hkey (by omega)

theorem Tracks.score_read (h : Tracks keyPrefix windowS log now sets) {a : Admission} (ha : a ∈ log)
    (hkey : key ∈ a.keys) (hin : now - windowS key * 1000 < nowMs a.clock) :
    (sets.read now (keyFor keyPrefix key)).score a.member = some (nowMs a.clock) := by
  obtain ⟨set, hset, hs⟩ := h.kept a ha key hkey hin
  rw [Keyspace.read_eq_of_lookup hset fun at_ hat => ?_, hs]
  have hl := h.expiry key set at_ hset hat a.member _ hs
  omega

theorem Tracks.score_window (h : Tracks keyPrefix windowS log now sets) {m : String} {t : ℤ} :
    ((sets.read now (keyFor keyPrefix key)).removeUpTo (now - windowS key * 1000)).score m =
        some t ↔
      ∃ a ∈ log, a.member = m ∧ nowMs a.clock = t ∧ key ∈ a.keys ∧
        now - windowS key * 1000 < nowMs a.clock := by
  rw [SortedSet.score_removeUpTo]
  constructor
  · rintro ⟨hs, hin⟩
    obtain ⟨a, ha, hm, rfl, hkey⟩ :=
      h.stored key _ m t (Keyspace.lookup_of_score_read hs) hs
    exact ⟨a, ha, hm, rfl, hkey, hin⟩
  · rintro ⟨a, ha, rfl, rfl, hkey, hin⟩
    exact ⟨h.score_read ha hkey hin, hin⟩

def since (log : List Admission) (key : String) (t : ℤ) : List Admission :=
  log.filter fun a => key ∈ a.keys ∧ t < nowMs a.clock

theorem mem_since {t : ℤ} {a : Admission} :
    a ∈ since log key t ↔ a ∈ log ∧ key ∈ a.keys ∧ t < nowMs a.clock := by
  simp [since]

/-- A bucket has as many members as requests were admitted in its window. -/
theorem Tracks.card_window (h : Tracks keyPrefix windowS log now sets) (key : String) :
    ((sets.read now (keyFor keyPrefix key)).removeUpTo (now - windowS key * 1000)).card =
      (since log key (now - windowS key * 1000)).length := by
  have hn : ((since log key (now - windowS key * 1000)).map (·.member)).Nodup :=
    h.fresh.sublist (filter_sublist.map _)
  refine Eq.trans ?_ (length_map Admission.member)
  refine ((perm_ext_iff_of_nodup (AList.keys_nodup _) hn).mpr fun m => ?_).length_eq
  rw [SortedSet.mem_iff_score, mem_map]
  constructor
  · rintro ⟨t, ht⟩
    obtain ⟨a, ha, hm, -, hkey, hin⟩ := h.score_window.mp ht
    exact ⟨a, mem_since.mpr ⟨ha, hkey, hin⟩, hm⟩
  · rintro ⟨a, ha, hm⟩
    obtain ⟨hlog, hkey, hin⟩ := mem_since.mp ha
    exact ⟨nowMs a.clock, h.score_window.mpr ⟨a, hlog, hm, rfl, hkey, hin⟩⟩

/-- Bringing a bucket up to date forgets no admission inside its window. -/
theorem Tracks.evict (h : Tracks keyPrefix windowS log now sets) (key : String) :
    Tracks keyPrefix windowS log now (sets.write (keyFor keyPrefix key)
      ((sets.read now (keyFor keyPrefix key)).removeUpTo (now - windowS key * 1000))) := by
  refine ⟨h.fresh, h.past, fun other set m t hset hs => ?_, fun a ha other ho hin => ?_,
    fun other set at_ hset hat m t hs => ?_⟩
  · by_cases heq : other = key
    · subst heq
      obtain ⟨rfl, -⟩ := Keyspace.lookup_write.mp hset
      obtain ⟨a, ha, hm, ht, hkey, -⟩ := h.score_window.mp hs
      exact ⟨a, ha, hm, ht, hkey⟩
    · rw [Keyspace.lookup_write_of_ne fun hk => heq (keyFor_injective _ hk)] at hset
      exact h.stored other set m t hset hs
  · by_cases heq : other = key
    · subst heq
      have hs := h.score_window.mpr ⟨a, ha, rfl, rfl, ho, hin⟩
      exact ⟨_, Keyspace.lookup_write_of_score hs, hs⟩
    · rw [Keyspace.lookup_write_of_ne fun hk => heq (keyFor_injective _ hk)]
      exact h.kept a ha other ho hin
  · by_cases heq : other = key
    · subst heq
      obtain ⟨rfl, -⟩ := Keyspace.lookup_write.mp hset
      have hold := (SortedSet.score_removeUpTo.mp hs).1
      exact h.expiry other _ at_ (Keyspace.lookup_of_score_read hold) hat m t hold
    · rw [Keyspace.lookup_write_of_ne fun hk => heq (keyFor_injective _ hk)] at hset
      exact h.expiry other set at_ hset hat m t hs

variable {member : String} {clock : ℤ}

/-- A request that joins one more bucket. -/
theorem Tracks.join {joined : List String}
    (h : Tracks keyPrefix windowS (log ++ [⟨member, clock, joined⟩]) (nowMs clock) sets)
    (key : String) :
    Tracks keyPrefix windowS (log ++ [⟨member, clock, joined ++ [key]⟩]) (nowMs clock)
      (sets.write (keyFor keyPrefix key)
        (((sets.read (nowMs clock) (keyFor keyPrefix key)).add member (nowMs clock)).expire
          (nowMs clock + windowS key * 1000))) := by
  have hg : ∀ other m t, (∃ a ∈ log ++ [⟨member, clock, joined⟩], a.member = m ∧
      nowMs a.clock = t ∧ other ∈ a.keys) →
      ∃ a ∈ log ++ [⟨member, clock, joined ++ [key]⟩], a.member = m ∧ nowMs a.clock = t ∧
        other ∈ a.keys := by
    rintro other m t ⟨a, ha, hm, ht, hkey⟩
    rcases mem_append.mp ha with hold | hnew
    · exact ⟨a, mem_append_left _ hold, hm, ht, hkey⟩
    · obtain rfl := mem_singleton.mp hnew
      exact ⟨_, mem_append_right _ (mem_singleton_self _), hm, ht,
        mem_append_left _ hkey⟩
  have hp : ∀ a ∈ log ++ [(⟨member, clock, joined ++ [key]⟩ : Admission)],
      nowMs a.clock ≤ nowMs clock := by
    intro a ha
    rcases mem_append.mp ha with hold | hnew
    · exact h.past a (mem_append_left _ hold)
    · obtain rfl := mem_singleton.mp hnew
      exact le_rfl
  have hr : ∀ m t, (sets.read (nowMs clock) (keyFor keyPrefix key)).score m = some t →
      ∃ a ∈ log ++ [(⟨member, clock, joined⟩ : Admission)], a.member = m ∧ nowMs a.clock = t ∧
        key ∈ a.keys :=
    fun m t hs => h.stored key _ m t (Keyspace.lookup_of_score_read hs) hs
  refine ⟨by simpa using h.fresh, hp, fun other set m t hset hs => ?_,
    fun a ha other ho hin => ?_, fun other set at_ hset hat m t hs => ?_⟩
  · by_cases heq : other = key
    · subst heq
      obtain ⟨rfl, -⟩ := Keyspace.lookup_write.mp hset
      rcases SortedSet.score_add.mp hs with ⟨rfl, rfl⟩ | ⟨-, hold⟩
      · exact ⟨_, mem_append_right _ (mem_singleton_self _), rfl, rfl, by simp⟩
      · exact hg other m t (hr m t hold)
    · rw [Keyspace.lookup_write_of_ne fun hk => heq (keyFor_injective _ hk)] at hset
      exact hg other m t (h.stored other set m t hset hs)
  · rcases mem_append.mp ha with hold | hnew
    · by_cases heq : other = key
      · subst heq
        have hs := h.score_read (mem_append_left _ hold) ho hin
        have hne : a.member ≠ member := by
          rintro hsa
          have hf := h.fresh
          simp only [map_append, nodup_append, mem_map] at hf
          exact hf.2.2 a.member ⟨a, hold, rfl⟩ member (by simp) hsa
        have had : ((((sets.read (nowMs clock) (keyFor keyPrefix other)).add member
            (nowMs clock)).expire (nowMs clock + windowS other * 1000))).score a.member =
            some (nowMs a.clock) := SortedSet.score_add.mpr (.inr ⟨hne, hs⟩)
        exact ⟨_, Keyspace.lookup_write_of_score had, had⟩
      · rw [Keyspace.lookup_write_of_ne fun hk => heq (keyFor_injective _ hk)]
        exact h.kept a (mem_append_left _ hold) other ho hin
    · obtain rfl := mem_singleton.mp hnew
      by_cases heq : other = key
      · subst heq
        have had : ((((sets.read (nowMs clock) (keyFor keyPrefix other)).add member
            (nowMs clock)).expire (nowMs clock + windowS other * 1000))).score member =
            some (nowMs clock) := SortedSet.score_add.mpr (.inl ⟨rfl, rfl⟩)
        exact ⟨_, Keyspace.lookup_write_of_score had, had⟩
      · rw [Keyspace.lookup_write_of_ne fun hk => heq (keyFor_injective _ hk)]
        refine h.kept ⟨member, clock, joined⟩ (by simp) other ?_ hin
        simpa [heq] using ho
  · by_cases heq : other = key
    · subst heq
      obtain ⟨rfl, -⟩ := Keyspace.lookup_write.mp hset
      cases hat
      rcases SortedSet.score_add.mp hs with ⟨-, rfl⟩ | ⟨-, hold⟩
      · omega
      · obtain ⟨a, ha, -, rfl, -⟩ := hr m t hold
        have hle := h.past a ha
        omega
    · rw [Keyspace.lookup_write_of_ne fun hk => heq (keyFor_injective _ hk)] at hset
      exact h.expiry other set at_ hset hat m t hs

theorem Tracks.opened (h : Tracks keyPrefix windowS log now sets) (hc : now ≤ nowMs clock)
    (hf : member ∉ log.map (·.member)) :
    Tracks keyPrefix windowS (log ++ [⟨member, clock, []⟩]) (nowMs clock) sets := by
  have hl := h.mono hc
  refine ⟨?_, fun a ha => ?_, fun key set m t hset hs => ?_, fun a ha key hkey hin => ?_,
    hl.expiry⟩
  · rw [map_append, nodup_append]
    refine ⟨h.fresh, nodup_singleton _, fun m hm other ho heq => ?_⟩
    obtain rfl := mem_singleton.mp ho
    exact hf (heq ▸ hm)
  · rcases mem_append.mp ha with hold | hnew
    · exact hl.past a hold
    · obtain rfl := mem_singleton.mp hnew
      exact le_rfl
  · obtain ⟨a, ha, hr⟩ := hl.stored key set m t hset hs
    exact ⟨a, mem_append_left _ ha, hr⟩
  · rcases mem_append.mp ha with hold | hnew
    · exact hl.kept a hold key hkey hin
    · obtain rfl := mem_singleton.mp hnew
      cases hkey

theorem Tracks.joinAll {joined : List String} {buckets : List RateBucket}
    (hw : ∀ b ∈ buckets, b.windowS = windowS b.key)
    (h : Tracks keyPrefix windowS (log ++ [⟨member, clock, joined⟩]) (nowMs clock) sets) :
    Tracks keyPrefix windowS (log ++ [⟨member, clock, joined ++ buckets.map (·.key)⟩])
      (nowMs clock)
      (addToBuckets (nowMs clock) member sets (buckets.map (ceilingOf keyPrefix))) := by
  induction buckets generalizing sets joined with
  | nil => simpa [addToBuckets] using h
  | cons bucket rest ih =>
    rw [forall_mem_cons] at hw
    have hj := h.join bucket.key
    rw [← hw.1] at hj
    have hr := ih hw.2 hj
    rw [append_assoc] at hr
    exact hr

def Shrinks (sets other : Buckets) : Prop :=
  ∀ key set m t, other.lookup key = some set → set.score m = some t →
    ∃ old, sets.lookup key = some old ∧ old.score m = some t

theorem shrinks_evict (sets : Buckets) (now bound : ℤ) (key : String) :
    Shrinks sets (sets.write key ((sets.read now key).removeUpTo bound)) := by
  intro other set m t hset hs
  by_cases heq : other = key
  · subst heq
    obtain ⟨rfl, -⟩ := Keyspace.lookup_write.mp hset
    have hold := (SortedSet.score_removeUpTo.mp hs).1
    exact ⟨_, Keyspace.lookup_of_score_read hold, hold⟩
  · rw [Keyspace.lookup_write_of_ne heq] at hset
    exact ⟨set, hset, hs⟩

theorem one_le_retryMs (now windowMs : ℤ) (set : SortedSet String) :
    1 ≤ retryMs now windowMs set := by
  simp only [retryMs]
  split_ifs with h
  · exact le_rfl
  · omega

/-- The wait of a bucket with members is up when its oldest member has left the window. -/
theorem exists_le_retryMs (now windowMs : ℤ) (set : SortedSet String) (hc : set.card ≠ 0) :
    ∃ m oldest, set.score m = some oldest ∧ oldest + windowMs - now ≤ retryMs now windowMs set := by
  cases hl : set.lowest with
  | none => exact absurd (SortedSet.lowest_eq_none hl) hc
  | some oldest =>
    obtain ⟨⟨m, hm⟩, -⟩ := SortedSet.lowest_eq_some hl
    refine ⟨m, oldest, hm, ?_⟩
    simp only [retryMs, hl]
    split_ifs <;> omega

inductive Checked (log : List Admission) (windowS : String → ℤ) (now : ℤ)
    (buckets : List RateBucket) (i : ℕ) : Option (ℕ × ℤ) → Prop
  | room
      (h : ∀ b ∈ buckets, ((since log b.key (now - windowS b.key * 1000)).length : ℤ) < b.limit) :
      Checked log windowS now buckets i none
  | full (place : ℕ) (bucket : RateBucket) (retryMs : ℤ)
      (hplace : buckets[place]? = some bucket)
      (h : bucket.limit ≤ (since log bucket.key (now - windowS bucket.key * 1000)).length)
      (hretry : 1 ≤ retryMs)
      (hwait : 0 < bucket.limit → ∃ a ∈ since log bucket.key (now - windowS bucket.key * 1000),
        nowMs a.clock + windowS bucket.key * 1000 - now ≤ retryMs) :
      Checked log windowS now buckets i (some (i + place, retryMs))

theorem Checked.cons {bucket : RateBucket} {rest : List RateBucket} {i : ℕ}
    {found : Option (ℕ × ℤ)}
    (hro : ((since log bucket.key (now - windowS bucket.key * 1000)).length : ℤ) < bucket.limit)
    (h : Checked log windowS now rest (i + 1) found) :
    Checked log windowS now (bucket :: rest) i found := by
  cases h with
  | room hre => exact .room (forall_mem_cons.mpr ⟨hro, hre⟩)
  | full place full retryMs hp hf hr hw =>
    rw [Nat.add_right_comm, Nat.add_assoc]
    exact .full (place + 1) full retryMs (by simpa using hp) hf hr hw

theorem checkBuckets_spec {buckets : List RateBucket}
    (hw : ∀ b ∈ buckets, b.windowS = windowS b.key)
    (h : Tracks keyPrefix windowS log now sets) (i : ℕ) :
    Tracks keyPrefix windowS log now
        (checkBuckets now sets i (buckets.map (ceilingOf keyPrefix))).1 ∧
      Shrinks sets (checkBuckets now sets i (buckets.map (ceilingOf keyPrefix))).1 ∧
      Checked log windowS now buckets i
        (checkBuckets now sets i (buckets.map (ceilingOf keyPrefix))).2 := by
  induction buckets generalizing sets i with
  | nil => exact ⟨h, fun _ set _ _ hset hs => ⟨set, hset, hs⟩, .room (by simp)⟩
  | cons bucket rest ih =>
    rw [forall_mem_cons] at hw
    have he := h.evict bucket.key
    have hca := h.card_window bucket.key
    have hsh := shrinks_evict sets now (now - windowS bucket.key * 1000)
      (keyFor keyPrefix bucket.key)
    simp only [map_cons, checkBuckets, ceilingOf, hw.1]
    split_ifs with hf
    · refine ⟨he, hsh, ?_⟩
      rw [hca] at hf
      refine .full 0 bucket _ rfl hf (one_le_retryMs _ _ _) fun hpos => ?_
      obtain ⟨m, oldest, hm, hwa⟩ := exists_le_retryMs now (windowS bucket.key * 1000)
        ((sets.read now (keyFor keyPrefix bucket.key)).removeUpTo
          (now - windowS bucket.key * 1000)) (by omega)
      obtain ⟨a, ha, -, rfl, hkey, hin⟩ := h.score_window.mp hm
      exact ⟨a, mem_since.mpr ⟨ha, hkey, hin⟩, hwa⟩
    · obtain ⟨ht, hr, hc⟩ := ih hw.2 he (i + 1)
      refine ⟨ht, fun key set m t hset hs => ?_, .cons (by omega) hc⟩
      obtain ⟨old, hold, holdScore⟩ := hr key set m t hset hs
      exact hsh key old m t hold holdScore

end Tracking

theorem guards_eq_ok {buckets : List RateBucket} (h : buckets.forM guard = .ok ()) :
    ∀ b ∈ buckets, guard b = .ok () := by
  induction buckets with
  | nil => simp
  | cons bucket rest ih =>
    change (guard bucket >>= fun _ => rest.forM guard) = .ok () at h
    cases hg : guard bucket with
    | error _ =>
      rw [hg] at h
      cases h
    | ok _ =>
      rw [hg] at h
      exact forall_mem_cons.mpr ⟨hg, ih h⟩

theorem pos_of_guard {bucket : RateBucket} (h : guard bucket = .ok ()) :
    0 < bucket.limit ∧ 0 < bucket.windowS := by
  unfold guard at h
  split_ifs at h with hl hw
  exact ⟨by omega, by omega⟩

/-- The requests of each bucket come with its limit and its window, and no two have the same
member. -/
def Proper (limit windowS : String → ℤ) (s : State) (r : Request) : Prop :=
  (∀ b ∈ r.buckets, b.limit = limit b.key ∧ b.windowS = windowS b.key) ∧
    r.member ∉ s.log.map (·.member)

instance (limit windowS : String → ℤ) (s : State) (r : Request) :
    Decidable (Proper limit windowS s r) :=
  inferInstanceAs (Decidable ((∀ b ∈ r.buckets, b.limit = limit b.key ∧ b.windowS = windowS b.key) ∧
    r.member ∉ s.log.map (·.member)))

inductive Answered (keyPrefix : String) (windowS : String → ℤ) (log : List Admission)
    (sets : Buckets) (r : Request) (after : Buckets) : RateVerdict → Prop
  | admitted
      (htracks : Tracks keyPrefix windowS
        (log ++ [⟨r.member, r.clock, r.buckets.map (·.key)⟩]) (nowMs r.clock) after)
      (hroom : ∀ b ∈ r.buckets,
        ((since log b.key (nowMs r.clock - windowS b.key * 1000)).length : ℤ) < b.limit) :
      Answered keyPrefix windowS log sets r after allowedVerdict
  | refused (bucket : RateBucket) (retryAfterS : ℤ)
      (htracks : Tracks keyPrefix windowS log (nowMs r.clock) after)
      (hshrinks : Shrinks sets after)
      (hbinding : binding (consume r.clock r.member sets
        (r.buckets.map (ceilingOf keyPrefix))).2 r.buckets = some bucket)
      (hguard : guard bucket = .ok ())
      (hfull : bucket.limit ≤ (since log bucket.key
        (nowMs r.clock - windowS bucket.key * 1000)).length)
      (hwait : ∃ a ∈ since log bucket.key (nowMs r.clock - windowS bucket.key * 1000),
        nowMs a.clock + windowS bucket.key * 1000 - nowMs r.clock ≤ retryAfterS * 1000) :
      Answered keyPrefix windowS log sets r after ⟨false, bucket.scope, retryAfterS⟩

theorem tryConsume_spec {keyPrefix : String} {limit windowS : String → ℤ} {s : State} {r : Request}
    (h : Tracks keyPrefix windowS s.log (nowMs s.clock) s.sets) (hcl : s.clock ≤ r.clock)
    (hp : Proper limit windowS s r) {after : Buckets} {v : RateVerdict}
    (hres : tryConsume keyPrefix r.clock r.member s.sets r.buckets = .ok (after, v)) :
    Answered keyPrefix windowS s.log s.sets r after v := by
  have hla := h.mono (nowMs_mono hcl)
  have hw : ∀ b ∈ r.buckets, b.windowS = windowS b.key := fun b hb => (hp.1 b hb).2
  unfold tryConsume at hres
  split_ifs at hres with he
  · obtain ⟨rfl, rfl⟩ := Prod.mk.inj (Except.ok.inj hres)
    rw [List.isEmpty_iff] at he
    refine .admitted ?_ (by simp [he])
    rw [he]
    exact h.opened (nowMs_mono hcl) hp.2
  · cases hg : r.buckets.forM guard with
    | error e =>
      rw [hg] at hres
      cases hres
    | ok u =>
      rw [hg] at hres
      obtain ⟨ht, hs, hch⟩ := checkBuckets_spec hw hla 1
      change Except.ok
        ((consume r.clock r.member s.sets (r.buckets.map (ceilingOf keyPrefix))).1,
          verdict (consume r.clock r.member s.sets (r.buckets.map (ceilingOf keyPrefix))).2
            r.buckets) = Except.ok (after, v) at hres
      obtain ⟨haf, hv⟩ := Prod.mk.inj (Except.ok.inj hres)
      cases hcc : checkBuckets (nowMs r.clock) s.sets 1
          (r.buckets.map (ceilingOf keyPrefix)) with
      | mk checked found =>
        rw [hcc] at ht hs hch
        cases hch with
        | room hro =>
          have hc : consume r.clock r.member s.sets (r.buckets.map (ceilingOf keyPrefix)) =
              (addToBuckets (nowMs r.clock) r.member checked
                (r.buckets.map (ceilingOf keyPrefix)), 1, 0, 0) := by
            simp only [consume, hcc]
          rw [hc] at haf hv
          obtain rfl : allowedVerdict = v := hv
          refine .admitted ?_ hro
          rw [← haf]
          exact (ht.opened le_rfl hp.2).joinAll hw
        | full place bucket wait hpc hf hr hwa =>
          have hc : consume r.clock r.member s.sets (r.buckets.map (ceilingOf keyPrefix)) =
              (checked, 0, ((1 + place : ℕ) : ℤ), wait) := by
            simp only [consume, hcc]
          have hi : binding (0, ((1 + place : ℕ) : ℤ), wait) r.buckets = some bucket := by
            have hpl : (((1 + place : ℕ) : ℤ) - 1).toNat = place := by omega
            rw [binding, if_pos (by simp only; omega)]
            simp only
            rw [hpl, hpc]
          have hgu := guards_eq_ok hg bucket (mem_of_getElem? hpc)
          obtain ⟨a, ha, hl⟩ := hwa (pos_of_guard hgu).1
          rw [hc] at haf hv
          rw [verdict, if_neg (by simp), hi] at hv
          rw [← hv, ← haf]
          refine .refused bucket _ ht hs (by rw [hc]; exact hi) hgu hf
            ⟨a, ha, by simp only; omega⟩

/-- The requests admitted to a bucket in a window that begins with a millisecond. -/
def admittedIn (log : List Admission) (key : String) (start windowMs : ℤ) : List Admission :=
  log.filter fun a => key ∈ a.keys ∧ start * 1000 ≤ a.clock ∧ a.clock < (start + windowMs) * 1000

structure Limited (keyPrefix : String) (limit windowS : String → ℤ) (s : State) : Prop where
  tracks : Tracks keyPrefix windowS s.log (nowMs s.clock) s.sets
  bounded : ∀ key start,
    (admittedIn s.log key start (windowS key * 1000)).length ≤ (limit key).toNat

section Steps

variable {keyPrefix : String} {limit windowS : String → ℤ}

theorem limited_init (clock : ℤ) : Limited keyPrefix limit windowS (State.init clock) := by
  refine ⟨⟨nodup_nil, ?_, ?_, ?_, ?_⟩, fun key start => Nat.zero_le _⟩
  all_goals simp [State.init]

/-- A window that a new request falls into held no more than the bucket holds. -/
theorem length_admittedIn_le (log : List Admission) (key : String) {start window clock : ℤ}
    (hin : start * 1000 ≤ clock ∧ clock < (start + window) * 1000) :
    (admittedIn log key start window).length ≤ (since log key (nowMs clock - window)).length := by
  refine (monotone_filter_right log fun a ha => ?_).length_le
  simp only [decide_eq_true_eq, nowMs_eq] at ha ⊢
  refine ⟨ha.1, ?_⟩
  omega

variable {s : State}

theorem Limited.admitted (h : Limited keyPrefix limit windowS s) {r : Request}
    (hp : Proper limit windowS s r) {after : Buckets} (ht : Tracks keyPrefix windowS
      (s.log ++ [⟨r.member, r.clock, r.buckets.map (·.key)⟩]) (nowMs r.clock) after)
    (hr : ∀ b ∈ r.buckets,
      ((since s.log b.key (nowMs r.clock - windowS b.key * 1000)).length : ℤ) < b.limit) :
    Limited keyPrefix limit windowS
      ⟨r.clock, after, s.log ++ [⟨r.member, r.clock, r.buckets.map (·.key)⟩]⟩ := by
  refine ⟨ht, fun key start => ?_⟩
  have hold := h.bounded key start
  simp only [admittedIn, filter_append, length_append]
  by_cases hnew : key ∈ r.buckets.map (·.key) ∧ start * 1000 ≤ r.clock ∧
      r.clock < (start + windowS key * 1000) * 1000
  · obtain ⟨b, hb, rfl⟩ := mem_map.mp hnew.1
    have hl := (hp.1 b hb).1
    have hls := hr b hb
    have hle := length_admittedIn_le s.log b.key hnew.2
    rw [filter_cons_of_pos (by simpa using hnew), filter_nil]
    simp only [admittedIn, length_singleton] at hle ⊢
    omega
  · rw [filter_cons_of_neg (by simpa using hnew), filter_nil]
    exact hold

theorem step_limited (s : State) (r : Request) (t : State)
    (h : Limited keyPrefix limit windowS s) (hp : Proper limit windowS s r)
    (ht : step keyPrefix s r = some t) : Limited keyPrefix limit windowS t := by
  unfold step at ht
  split_ifs at ht with hc
  have hle : s.clock ≤ r.clock := by omega
  split at ht
  · cases ht
    exact ⟨h.tracks.mono (nowMs_mono hle), h.bounded⟩
  · rename_i after v hres
    cases ht
    cases tryConsume_spec h.tracks hle hp hres with
    | admitted htr hr => exact h.admitted hp htr hr
    | refused _ _ htr => exact ⟨htr, h.bounded⟩

/-- No bucket holds more than its limit at any time. -/
theorem Limited.length_since_le (h : Limited keyPrefix limit windowS s) {clock : ℤ}
    (hc : s.clock ≤ clock) (key : String) :
    (since s.log key (nowMs clock - windowS key * 1000)).length ≤ (limit key).toNat := by
  refine le_trans ?_ (h.bounded key (nowMs clock - windowS key * 1000 + 1))
  rw [since, admittedIn, ← countP_eq_length_filter, ← countP_eq_length_filter]
  refine countP_mono_left fun a ha hin => ?_
  have hp := h.tracks.past a ha
  have hl := nowMs_mono hc
  simp only [decide_eq_true_eq, nowMs_eq] at hin hp hl ⊢
  exact ⟨hin.1, by omega, by omega⟩

/-- Once the oldest entry of a full bucket has left the window there is room in it. -/
theorem length_since_lt (log : List Admission) (key : String) {early : ℤ} (late : ℤ)
    (hle : early ≤ late) {a : Admission} (ha : a ∈ since log key early)
    (hlf : nowMs a.clock ≤ late) :
    (since log key late).length < (since log key early).length := by
  have hf : since log key late = (since log key early).filter (late < nowMs ·.clock) := by
    rw [since, since, filter_filter]
    refine filter_congr fun b _ => ?_
    rw [← Bool.decide_and, decide_eq_decide]
    constructor
    · rintro ⟨hkey, hl⟩
      exact ⟨hl, hkey, by omega⟩
    · rintro ⟨hl, hkey, -⟩
      exact ⟨hkey, hl⟩
  rw [hf, length_filter_lt_length_iff_exists]
  exact ⟨a, ha, by simpa using hlf⟩

theorem tryConsume_of_room (h : Limited keyPrefix limit windowS s) {r : Request}
    (hc : s.clock ≤ r.clock) (hp : Proper limit windowS s r) {bucket : RateBucket}
    (hb : r.buckets = [bucket]) (hgu : guard bucket = .ok ())
    (hr : ((since s.log bucket.key
      (nowMs r.clock - windowS bucket.key * 1000)).length : ℤ) < bucket.limit) :
    ∃ after,
      tryConsume keyPrefix r.clock r.member s.sets r.buckets = .ok (after, allowedVerdict) := by
  have hg : r.buckets.forM guard = .ok () := by
    rw [hb]
    change (guard bucket >>= fun _ => .ok ()) = .ok ()
    rw [hgu]
    rfl
  obtain ⟨⟨after, v⟩, hres⟩ : ∃ res, tryConsume keyPrefix r.clock r.member s.sets r.buckets =
      .ok res := by
    unfold tryConsume
    rw [if_neg (by simp [hb]), hg]
    exact ⟨_, rfl⟩
  refine ⟨after, ?_⟩
  cases tryConsume_spec h.tracks hc hp hres with
  | admitted ht _ => exact hres
  | refused full _ _ _ hbi _ hf =>
    have hmem : full ∈ r.buckets := by
      unfold binding at hbi
      split_ifs at hbi
      exact mem_of_getElem? hbi
    rw [hb, mem_singleton] at hmem
    subst hmem
    omega

end Steps

/-- Whatever requests there are, each bucket holds to its limit in every window, a refused
request joins no bucket, and one that comes back to the bucket that refused it after the wait
it was told is let through. -/
theorem limiter_holds_every_window (keyPrefix : String) (limit windowS : String → ℤ) (clock : ℤ)
    (requests : List Request) (s : State)
    (hproper : Guarded (step keyPrefix) (Proper limit windowS) (State.init clock) requests)
    (hs : run (step keyPrefix) (State.init clock) requests = some s) :
    (∀ key start, (admittedIn s.log key start (windowS key * 1000)).length ≤ (limit key).toNat) ∧
    ∀ r later t after v,
      Guarded (step keyPrefix) (Proper limit windowS) s (r :: later) →
      run (step keyPrefix) s (r :: later) = some t →
      tryConsume keyPrefix r.clock r.member s.sets r.buckets = .ok (after, v) →
      v.allowed = false →
      Shrinks s.sets after ∧
      ∃ bucket, binding (consume r.clock r.member s.sets
          (r.buckets.map (ceilingOf keyPrefix))).2 r.buckets = some bucket ∧
        v.scope = bucket.scope ∧
        (t.log = s.log → ∀ again, t.clock ≤ again.clock →
          r.clock + v.retryAfterS * 1000000 ≤ again.clock → Proper limit windowS t again →
          again.buckets = [bucket] →
          ∃ sets, tryConsume keyPrefix again.clock again.member t.sets again.buckets =
            .ok (sets, allowedVerdict)) := by
  have hl : Limited keyPrefix limit windowS s :=
    run_invariant step_limited hproper hs (limited_init clock)
  refine ⟨hl.bounded, fun r later t after v hg ht hres hr => ?_⟩
  have htLimited : Limited keyPrefix limit windowS t :=
    run_invariant step_limited hg ht hl
  obtain ⟨u, hu, -⟩ := run_cons_eq_some ht
  have hre := (hg.of_cons hu).1
  have hc : s.clock ≤ r.clock := by
    unfold step at hu
    split_ifs at hu with hlt
    omega
  cases tryConsume_spec hl.tracks hc hre hres with
  | admitted _ _ => cases hr
  | refused bucket retryAfterS htr hsh hbi hgu hf hwa =>
    refine ⟨hsh, bucket, hbi, rfl, fun hlog again hag hw hproper hb => ?_⟩
    obtain ⟨a, ha, hlv⟩ := hwa
    have hli := (hproper.1 bucket (by simp [hb])).1
    have hatMost := hl.length_since_le hc bucket.key
    refine tryConsume_of_room htLimited hag hproper hb hgu ?_
    rw [hlog]
    have hla : nowMs r.clock ≤ nowMs again.clock ∧
        nowMs r.clock + retryAfterS * 1000 ≤ nowMs again.clock := by
      simp only at hw
      have hpos := (mem_since.mp ha).2.2
      rw [nowMs_eq, nowMs_eq]
      have hle : r.clock ≤ again.clock := by
        rw [nowMs_eq] at hpos hlv
        rw [nowMs_eq] at hpos hlv
        omega
      omega
    have hls := length_since_lt s.log bucket.key
      (nowMs again.clock - windowS bucket.key * 1000) (by omega) ha (by omega)
    omega

private def perSecond : RateBucket := ⟨"user", "u", 1, 1⟩

private def comesBack : Request := ⟨500000, "b", [perSecond]⟩

private def refusesThen (s : State) : Bool :=
  (match tryConsume "rate" 500000 "b" s.sets [perSecond] with
    | .ok (_, v) => v = ⟨false, "user", 1⟩
    | .error _ => false) &&
  (run (step "rate") s [comesBack]).any fun t : State =>
    Proper (fun _ => 1) (fun _ => 1) s comesBack ∧ t.log = s.log ∧ t.clock ≤ 1500000 ∧
      Proper (fun _ => 1) (fun _ => 1) t ⟨1500000, "c", [perSecond]⟩

theorem refused_request_is_let_through :
    ∃ s t, run (step "rate") (State.init 0) [⟨0, "a", [perSecond]⟩] = some s ∧
      run (step "rate") s [comesBack] = some t ∧
      (∀ start, (admittedIn s.log "u" start 1000).length ≤ 1) ∧
      ∃ sets, tryConsume "rate" 1500000 "c" t.sets [perSecond] = .ok (sets, allowedVerdict) := by
  obtain ⟨s, hs, hte⟩ := exists_run_of_any (p := refusesThen)
    (show (run (step "rate") (State.init 0) [⟨0, "a", [perSecond]⟩]).any _ = true by
      decide +kernel)
  have hp : Guarded (step "rate") (Proper (fun _ => 1) (fun _ => 1)) (State.init 0)
      [⟨0, "a", [perSecond]⟩] := by decide +kernel
  simp only [refusesThen, Bool.and_eq_true, Option.any_eq_true, decide_eq_true_eq] at hte
  obtain ⟨hr, t, ht, hf, hlog, hc, ha⟩ := hte
  obtain ⟨hb, hw⟩ :=
    limiter_holds_every_window "rate" (fun _ => 1) (fun _ => 1) 0 _ s hp hs
  cases hres : tryConsume "rate" 500000 "b" s.sets [perSecond] with
  | error _ => simp [hres] at hr
  | ok res =>
    rw [hres] at hr
    simp only [decide_eq_true_eq] at hr
    have hg : Guarded (step "rate") (Proper (fun _ => 1) (fun _ => 1)) s [comesBack] :=
      ⟨hf, by split <;> trivial⟩
    obtain ⟨-, bucket, hbi, -, hth⟩ :=
      hw comesBack [] t res.1 res.2 hg ht hres (by rw [hr])
    obtain rfl : bucket = perSecond := by
      unfold binding at hbi
      split_ifs at hbi
      exact mem_singleton.mp (mem_of_getElem? hbi)
    exact ⟨s, t, hs, ht, hb "u", hth hlog ⟨1500000, "c", [perSecond]⟩ hc
      (by rw [hr]; decide) ha rfl⟩

private def late : Request := ⟨999, "a", [perSecond]⟩

private def soon : Request := ⟨1000000, "b", [perSecond]⟩

/-- In the second that begins with the 999th microsecond two requests of a bucket of one a second
are admitted. -/
theorem second_between_milliseconds :
    Guarded (step "rate") (Proper (fun _ => 1) (fun _ => 1)) (State.init 0) [late, soon] ∧
      ∃ s, run (step "rate") (State.init 0) [late, soon] = some s ∧
        (s.log.filter fun a => "u" ∈ a.keys ∧ 999 ≤ a.clock ∧ a.clock < 1000999).length = 2 := by
  refine ⟨by decide +kernel, ?_⟩
  obtain ⟨s, hs, hl⟩ := exists_run_of_any (p := fun s : State =>
      (s.log.filter fun a => "u" ∈ a.keys ∧ 999 ≤ a.clock ∧ a.clock < 1000999).length = 2)
    (show (run (step "rate") (State.init 0) [late, soon]).any _ = true by decide +kernel)
  exact ⟨s, hs, of_decide_eq_true hl⟩

end Aizzak.RateLimiter
