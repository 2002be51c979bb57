import Aizzak.FloatFormats

/-!
The sizing of a host. Every limit lies on a ladder between a small and a large rung, and one step
`k` of a thousand picks the memory and the replicas on it; the largest step whose standing total
fits in nine tenths of the memory is found by bisection. The processors bound what is written, not
what is searched. Arithmetic is exact.
-/
namespace Aizzak.HostSizing

open FloatFormats (roundHalfEven)

section Search

variable {p : ℕ → Bool}

def bisect (p : ℕ → Bool) : ℕ → ℕ → ℕ → ℕ
  | 0, low, _ => low
  | fuel + 1, low, high =>
    if low < high then
      let mid := (low + high + 1) / 2
      if p mid then bisect p fuel mid high else bisect p fuel low (mid - 1)
    else low

theorem isGreatest_of_none_above {top k : ℕ} (hk : k ≤ top) (hp : p k = true)
    (ha : ∀ i ≤ top, k < i → p i = false) : IsGreatest {i | i ≤ top ∧ p i = true} k := by
  refine ⟨⟨hk, hp⟩, fun i hi => ?_⟩
  by_contra hlt
  have hno := ha i hi.1 (not_le.mp hlt)
  rw [hi.2] at hno
  cases hno

/-- Bisection finds the largest step that fits, when with a step all below it fit. -/
theorem isGreatest_bisect (hp : ∀ i j, i ≤ j → p j = true → p i = true)
    {top fuel low high : ℕ} (hfu : high - low ≤ fuel) (hle : low ≤ high) (ht : high ≤ top)
    (hlow : p low = true) (hh : ∀ k ≤ top, high < k → p k = false) :
    IsGreatest {k | k ≤ top ∧ p k = true} (bisect p fuel low high) := by
  induction fuel generalizing low high with
  | zero =>
    obtain rfl : low = high := by omega
    exact isGreatest_of_none_above ht hlow hh
  | succ fuel ih =>
    rw [bisect]
    dsimp only
    split_ifs with hlt hmid
    · exact ih (by omega) (by omega) ht hmid hh
    · refine ih (by omega) (by omega) (by omega) hlow fun k hk hlt => ?_
      by_contra hf
      exact hmid (hp _ k (by omega) (by simpa using hf))
    · obtain rfl : low = high := by omega
      exact isGreatest_of_none_above ht hlow hh

end Search

structure Rung (α : Type*) [LE α] where
  small : α
  large : α
  le : small ≤ large

/-- The keys of the ladder files by what they limit: processors, MiB of memory and replicas; the
processors of the two hosts they were made for; and the sizes for Postgres, in MiB. -/
structure Ladder where
  cpus : String → Option (Rung ℚ)
  mem : String → Option (Rung ℕ)
  replicas : String → Option (Rung ℕ)
  cpuFloor : ℤ
  cpuSpan : ℤ
  cpuSpan_pos : 0 < cpuSpan
  sharedBuffers : Rung ℕ
  maintenanceWorkMem : Rung ℕ
  workMem : ℕ

inductive Setting (α : Type*) where
  | fixed (value : α)
  | interp (key : String) (default : α)

structure Row where
  name : String
  profiles : List String
  oneshot : Bool
  replicas : Setting ℕ
  cpus : Setting ℚ
  memory : Setting ℕ

inductive Role where
  | server
  | dev
deriving DecidableEq

inductive Mode where
  | cpu
  | gpu
deriving DecidableEq

def maxHostCpus : ℚ := 4096

def maxHostMemoryGb : ℚ := 4096

/-- A host as `read_host` accepts it. -/
structure Host where
  cpus : ℚ
  memoryGb : ℚ
  cpus_mem : 1 ≤ cpus ∧ cpus ≤ maxHostCpus
  memoryGb_mem : 1 ≤ memoryGb ∧ memoryGb ≤ maxHostMemoryGb

/-- The keys of the block, in hundredths of a processor, MiB and replicas. -/
structure Values where
  cpus : String → Option ℤ
  mem : String → Option ℕ
  replicas : String → Option ℕ
  maxmemory : String → Option ℤ

structure Conf where
  sharedBuffers : ℕ
  effectiveCacheSize : ℕ
  maintenanceWorkMem : ℕ
  workMem : ℕ

structure Plan where
  role : Role
  mode : Mode
  profiles : List String
  host : Host
  k : ℕ
  values : Values
  conf : Conf
  totalCpus : ℚ
  totalMemoryGb : ℚ
  allowedGb : ℚ

structure Refused where
  mode : Mode
  need : ℚ
  allowed : ℚ
  memoryGb : ℚ

def steps : ℕ := 1000

def memoryShare : ℚ := 9 / 10

def cpusPerReplica : ℚ := 8

def devPeakMargin : ℚ := 5 / 4

def devRoundMib : ℕ := 256

def redisCacheOverheadMib : ℤ := 768

def ecsShare : ℚ := 3 / 8

def gibMib : ℕ := 1024

def gb : ℚ := 1024 ^ 3

def devPeaksMib : String → Option ℚ
  | "QDRANT_MEM" => some 7519.2
  | "POSTGRES_MEM" => some 2877.2
  | "APP_MEM" => some 1033.5
  | "LOKI_MEM" => some 1020.8
  | "MINIO_MEM" => some 797.7
  | "GRAFANA_MEM" => some 511.7
  | "PROMETHEUS_MEM" => some 214.8
  | "OPS_SCHEDULER_MEM" => some 183.2
  | "REDIS_CACHE_MEM" => some 21.0
  | "ALERT_SINK_MEM" => some 31.1
  | "OLLAMA_BRIDGE_MEM" => some 5.9
  | _ => none

def cc (raw : ℚ) : ℤ := roundHalfEven (raw * 100)

def devFloorMib (key : String) (large : ℕ) : Option ℕ :=
  (devPeaksMib key).map fun peak =>
    min (⌈peak * devPeakMargin / devRoundMib⌉₊ * devRoundMib) large

def maxmemoryMib (mem : String → Option ℕ) : String → Option ℤ
  | "REDIS_STREAM_MAXMEMORY" => (mem "REDIS_STREAM_MEM").map fun mem => ((mem * 2 / 3 : ℕ) : ℤ)
  | "REDIS_CACHE_MAXMEMORY" =>
    (mem "REDIS_CACHE_MEM").map fun mem : ℕ => mem - redisCacheOverheadMib
  | _ => none

def memMib (k : ℕ) (role : Role) (key : String) (rung : Rung ℕ) : ℕ :=
  let value := rung.small + k * (rung.large - rung.small) / steps
  match if role = .dev then devFloorMib key rung.large else none with
  | some floor => min rung.large (max value floor)
  | none => value

variable (ladder : Ladder) (rows : Mode → List Row)

def cpuSpanOf (host : Host) : ℤ := min (max (cc host.cpus - ladder.cpuFloor) 0) ladder.cpuSpan

def cpusValue (host : Host) (rung : Rung ℚ) : ℤ :=
  cc rung.small + cpuSpanOf ladder host * (cc rung.large - cc rung.small) / ladder.cpuSpan

def replicasValue (k : ℕ) (host : Host) (memoryBound : Bool) (rung : Rung ℕ) : ℕ :=
  let byMemory :=
    rung.small + (2 * k * (rung.large - rung.small) + steps) / (2 * steps)
  let byCpu := min (max ⌊host.cpus / cpusPerReplica⌋₊ rung.small) rung.large
  if memoryBound then byMemory else min byMemory byCpu

def values (k : ℕ) (host : Host) (role : Role) (memoryBound : Bool) : Values :=
  let mem := fun key => (ladder.mem key).map (memMib k role key)
  { cpus := fun key => (ladder.cpus key).map (cpusValue ladder host)
    mem
    replicas := fun key => (ladder.replicas key).map (replicasValue k host memoryBound)
    maxmemory := maxmemoryMib mem }

def resolve {α : Type*} (table : String → Option α) : Setting α → α
  | .fixed value => value
  | .interp key default => (table key).getD default

def standing (mode : Mode) (enabled : List String) : List Row :=
  (rows mode).filter fun row => row.profiles.all (· ∈ enabled) && !row.oneshot

def standingCpus (mode : Mode) (v : Values) (enabled : List String) : ℚ :=
  ((standing rows mode enabled).map fun row =>
    resolve (fun key => (v.cpus key).map fun cpus => (cpus / 100 : ℚ)) row.cpus *
      resolve v.replicas row.replicas).sum

def standingMemory (mode : Mode) (v : Values) (enabled : List String) : ℕ :=
  ((standing rows mode enabled).map fun row =>
    resolve (fun key => (v.mem key).map (· * 1024 ^ 2)) row.memory *
      resolve v.replicas row.replicas).sum

def allowed (host : Host) : ℚ := host.memoryGb * memoryShare

def fits (mode : Mode) (v : Values) (enabled : List String) (host : Host) : Bool :=
  standingMemory rows mode v enabled / gb ≤ allowed host

def enabledProfiles (mode : Mode) (profiles : List String) : List String :=
  profiles ++ if mode = .gpu then ["local-llm"] else []

def renderConf (host : Host) (k : ℕ) : Conf where
  sharedBuffers := ladder.sharedBuffers.small +
    k * (ladder.sharedBuffers.large - ladder.sharedBuffers.small) / steps
  effectiveCacheSize := ⌊⌊host.memoryGb * gibMib⌋₊ * ecsShare⌋₊
  maintenanceWorkMem := ladder.maintenanceWorkMem.small +
    k * (ladder.maintenanceWorkMem.large - ladder.maintenanceWorkMem.small) / steps
  workMem := ladder.workMem

def planAt (host : Host) (role : Role) (mode : Mode) (profiles : List String) (k : ℕ) : Plan :=
  let v := values ladder k host role false
  let enabled := enabledProfiles mode profiles
  ⟨role, mode, profiles, host, k, v, renderConf ladder host k, standingCpus rows mode v enabled,
    standingMemory rows mode v enabled / gb, allowed host⟩

def stepFits (host : Host) (role : Role) (mode : Mode) (profiles : List String) (k : ℕ) : Bool :=
  fits rows mode (values ladder k host role true) (enabledProfiles mode profiles) host

def compute (host : Host) (role : Role) (mode : Mode) (profiles : List String) :
    Except Refused Plan :=
  let fitsAt := stepFits ladder rows host role mode profiles
  if fitsAt 0 then .ok (planAt ladder rows host role mode profiles (bisect fitsAt steps 0 steps))
  else if role = .server then
    let need := standingMemory rows mode (values ladder 0 host role true)
      (enabledProfiles mode profiles) / gb
    .error ⟨mode, need, allowed host, host.memoryGb⟩
  else .ok (planAt ladder rows host role mode profiles 0)

structure Values.Le (v w : Values) : Prop where
  cpus : ∀ key, Option.Rel (· ≤ ·) (v.cpus key) (w.cpus key)
  mem : ∀ key, Option.Rel (· ≤ ·) (v.mem key) (w.mem key)
  replicas : ∀ key, Option.Rel (· ≤ ·) (v.replicas key) (w.replicas key)
  maxmemory : ∀ key, Option.Rel (· ≤ ·) (v.maxmemory key) (w.maxmemory key)

structure Conf.Le (c d : Conf) : Prop where
  sharedBuffers : c.sharedBuffers ≤ d.sharedBuffers
  effectiveCacheSize : c.effectiveCacheSize ≤ d.effectiveCacheSize
  maintenanceWorkMem : c.maintenanceWorkMem ≤ d.maintenanceWorkMem
  workMem : c.workMem ≤ d.workMem

variable {ladder rows} {host host' : Host} {role : Role} {mode : Mode} {profiles : List String}
  {k k' : ℕ} {key : String}

theorem cc_mono {a b : ℚ} (h : a ≤ b) : cc a ≤ cc b := by
  have ha := abs_le.mp (FloatFormats.abs_roundHalfEven_sub_le (a * 100))
  have hb := abs_le.mp (FloatFormats.abs_roundHalfEven_sub_le (b * 100))
  by_contra hlt
  have hs : (cc b : ℚ) + 1 ≤ cc a := by exact_mod_cast Int.add_one_le_of_lt (not_le.mp hlt)
  have heq : a = b := by
    simp only [cc] at hs
    linarith
  exact hlt (heq ▸ le_refl _)

theorem cpusValue_mono (h : host.cpus ≤ host'.cpus) (rung : Rung ℚ) :
    cpusValue ladder host rung ≤ cpusValue ladder host' rung := by
  have hs : cpuSpanOf ladder host ≤ cpuSpanOf ladder host' :=
    min_le_min_right _ (max_le_max_right _ (sub_le_sub_right (cc_mono h) _))
  have hr := sub_nonneg.mpr (cc_mono rung.le)
  exact add_le_add_right (Int.ediv_le_ediv ladder.cpuSpan_pos
    (mul_le_mul_of_nonneg_right hs hr)) _

theorem interpolate_mono (h : k ≤ k') (span : ℕ) : k * span / steps ≤ k' * span / steps :=
  Nat.div_le_div_right (Nat.mul_le_mul_right span h)

theorem interpolate_le (h : k ≤ steps) (span : ℕ) : k * span / steps ≤ span := by
  rw [Nat.div_le_iff_le_mul_add_pred (by decide)]
  have := Nat.mul_le_mul_right span h
  omega

theorem memMib_mono (h : k ≤ k') (key : String) (rung : Rung ℕ) :
    memMib k role key rung ≤ memMib k' role key rung := by
  have hm := interpolate_mono h (rung.large - rung.small)
  simp only [memMib]
  split
  · exact min_le_min_left _ (max_le_max_right _ (Nat.add_le_add_left hm _))
  · exact Nat.add_le_add_left hm _

/-- No step leaves the rung. -/
theorem memMib_mem_rung (h : k ≤ steps) (key : String) (rung : Rung ℕ) :
    rung.small ≤ memMib k role key rung ∧ memMib k role key rung ≤ rung.large := by
  have hle := interpolate_le h (rung.large - rung.small)
  have hr := rung.le
  simp only [memMib]
  split
  · exact ⟨le_min hr (le_max_of_le_left (Nat.le_add_right _ _)), min_le_left _ _⟩
  · exact ⟨Nat.le_add_right _ _,
      (Nat.add_le_add_left hle _).trans_eq (Nat.add_sub_cancel' hr)⟩

theorem replicasValue_mono (h : k ≤ k') (hc : host.cpus ≤ host'.cpus) {b b' : Bool}
    (hb : b = true → b' = true) (rung : Rung ℕ) :
    replicasValue k host b rung ≤ replicasValue k' host' b' rung := by
  have hmem : rung.small + (2 * k * (rung.large - rung.small) + steps) / (2 * steps) ≤
      rung.small + (2 * k' * (rung.large - rung.small) + steps) / (2 * steps) :=
    Nat.add_le_add_left (Nat.div_le_div_right (Nat.add_le_add_right
      (Nat.mul_le_mul_right _ (Nat.mul_le_mul_left 2 h)) _)) _
  have hcpu : ⌊host.cpus / cpusPerReplica⌋₊ ≤ ⌊host'.cpus / cpusPerReplica⌋₊ :=
    Nat.floor_mono (div_le_div_of_nonneg_right hc (by norm_num [cpusPerReplica]))
  have hbo := min_le_min hmem
    (min_le_min_right rung.large (max_le_max_right rung.small hcpu))
  simp only [replicasValue]
  cases b with
  | false =>
    cases b' with
    | false => exact hbo
    | true => exact (min_le_left _ _).trans hmem
  | true =>
    rw [hb rfl]
    exact hmem

theorem rel_map {α β : Type*} [LE β] {f g : α → β} (h : ∀ a, f a ≤ g a) (o : Option α) :
    Option.Rel (· ≤ ·) (o.map f) (o.map g) := by
  cases o with
  | none => exact .none
  | some a => exact .some (h a)

theorem rel_map_mono {α β : Type*} [LE α] [LE β] {f : α → β}
    (hf : ∀ a b, a ≤ b → f a ≤ f b) {a b : Option α} (h : Option.Rel (· ≤ ·) a b) :
    Option.Rel (· ≤ ·) (a.map f) (b.map f) := by
  cases h with
  | none => exact .none
  | some h => exact .some (hf _ _ h)

theorem maxmemoryMib_mono {mem mem' : String → Option ℕ}
    (h : ∀ key, Option.Rel (· ≤ ·) (mem key) (mem' key)) (key : String) :
    Option.Rel (· ≤ ·) (maxmemoryMib mem key) (maxmemoryMib mem' key) := by
  unfold maxmemoryMib
  split
  · exact rel_map_mono (fun a b hab => by omega) (h _)
  · exact rel_map_mono (fun a b hab => by omega) (h _)
  · exact .none

/-- A later step, more processors and replicas that memory alone bounds lower no value. -/
theorem values_le (h : k ≤ k') (hc : host.cpus ≤ host'.cpus) {b b' : Bool}
    (hb : b = true → b' = true) :
    (values ladder k host role b).Le (values ladder k' host' role b') where
  cpus _ := rel_map (cpusValue_mono hc) _
  mem key := rel_map (memMib_mono h key) _
  replicas _ := rel_map (replicasValue_mono h hc hb) _
  maxmemory := maxmemoryMib_mono fun key => rel_map (memMib_mono h key) (ladder.mem key)

theorem resolve_mono {α : Type*} [Preorder α] {table table' : String → Option α}
    (h : ∀ key, Option.Rel (· ≤ ·) (table key) (table' key)) (setting : Setting α) :
    resolve table setting ≤ resolve table' setting := by
  cases setting with
  | fixed value => exact le_refl _
  | interp key default =>
    have hkey := h key
    simp only [resolve]
    generalize table key = a, table' key = b at hkey ⊢
    cases hkey with
    | none => exact le_refl _
    | some hle => exact hle

theorem standingMemory_mono {v w : Values} (h : v.Le w) (enabled : List String) :
    standingMemory rows mode v enabled ≤ standingMemory rows mode w enabled :=
  List.sum_le_sum fun _ _ => Nat.mul_le_mul
    (resolve_mono (fun key => rel_map_mono (fun _ _ hab => Nat.mul_le_mul_right _ hab)
      (h.mem key)) _)
    (resolve_mono h.replicas _)

theorem allowed_mono (h : host.memoryGb ≤ host'.memoryGb) : allowed host ≤ allowed host' :=
  mul_le_mul_of_nonneg_right h (by norm_num [memoryShare])

/-- Lower values fit a host that has no less memory. -/
theorem fits_mono {v w : Values} (h : v.Le w) (hmem : host.memoryGb ≤ host'.memoryGb)
    {enabled : List String} (hf : fits rows mode w enabled host = true) :
    fits rows mode v enabled host' = true := by
  simp only [fits, decide_eq_true_eq] at hf ⊢
  have ht : (standingMemory rows mode v enabled : ℚ) ≤ standingMemory rows mode w enabled :=
    Nat.cast_le.mpr (standingMemory_mono h enabled)
  exact (div_le_div_of_nonneg_right ht (by norm_num [gb])).trans
    (hf.trans (allowed_mono hmem))

/-- The search looks at no processor, so only memory and the step decide what fits. -/
theorem stepFits_mono (hmem : host.memoryGb ≤ host'.memoryGb) (h : k ≤ k')
    (hf : stepFits ladder rows host role mode profiles k' = true) :
    stepFits ladder rows host' role mode profiles k = true := by
  have ho : fits rows mode (values ladder k' host' role true) (enabledProfiles mode profiles)
      host = true := hf
  exact fits_mono (values_le h le_rfl id) hmem ho

theorem renderConf_le (h : k ≤ k') (hmem : host.memoryGb ≤ host'.memoryGb) :
    (renderConf ladder host k).Le (renderConf ladder host' k') where
  sharedBuffers := Nat.add_le_add_left (interpolate_mono h _) _
  effectiveCacheSize := Nat.floor_mono (mul_le_mul_of_nonneg_right
    (Nat.cast_le.mpr (Nat.floor_mono (mul_le_mul_of_nonneg_right hmem (Nat.cast_nonneg _))))
    (by norm_num [ecsShare]))
  maintenanceWorkMem := Nat.add_le_add_left (interpolate_mono h _) _
  workMem := le_refl _

def searched (ladder : Ladder) (rows : Mode → List Row) (host : Host) (role : Role) (mode : Mode)
    (profiles : List String) : Set ℕ :=
  {k | k ≤ steps ∧ stepFits ladder rows host role mode profiles k = true}

theorem isGreatest_searched (h : stepFits ladder rows host role mode profiles 0 = true) :
    IsGreatest (searched ladder rows host role mode profiles)
      (bisect (stepFits ladder rows host role mode profiles) steps 0 steps) :=
  isGreatest_bisect (fun _ _ hle hp => stepFits_mono le_rfl hle hp) (Nat.sub_le _ _)
    (Nat.zero_le _) le_rfl h fun _ hk hlt => absurd hlt (not_lt.mpr hk)

/-- A plan is of the largest step that fits, or of a development host on which none does. -/
theorem compute_eq_ok {plan : Plan}
    (h : compute ladder rows host role mode profiles = .ok plan) :
    plan = planAt ladder rows host role mode profiles plan.k ∧
      (IsGreatest (searched ladder rows host role mode profiles) plan.k ∨
        role = .dev ∧ plan.k = 0 ∧ stepFits ladder rows host role mode profiles 0 = false) := by
  simp only [compute] at h
  split_ifs at h with hf hr
  · cases h
    exact ⟨rfl, Or.inl (isGreatest_searched hf)⟩
  · cases h
    refine ⟨rfl, Or.inr ⟨?_, rfl, by simpa using hf⟩⟩
    cases role with
    | server => exact absurd rfl hr
    | dev => rfl

theorem compute_eq_error {refused : Refused}
    (h : compute ladder rows host role mode profiles = .error refused) :
    role = .server ∧ stepFits ladder rows host role mode profiles 0 = false := by
  simp only [compute] at h
  split_ifs at h with hf hr
  exact ⟨hr, by simpa using hf⟩

theorem exists_plan (hmem : host.memoryGb ≤ host'.memoryGb) {plan : Plan}
    (h : compute ladder rows host role mode profiles = .ok plan) :
    ∃ plan', compute ladder rows host' role mode profiles = .ok plan' := by
  by_cases hf : stepFits ladder rows host' role mode profiles 0 = true
  · exact ⟨_, by rw [compute, if_pos hf]⟩
  · rcases (compute_eq_ok h).2 with hg | ⟨rfl, -⟩
    · exact absurd (stepFits_mono hmem (Nat.zero_le _) hg.1.2) hf
    · exact ⟨_, by rw [compute, if_neg hf, if_neg (by decide)]⟩

theorem le_steps_of_compute {plan : Plan}
    (h : compute ladder rows host role mode profiles = .ok plan) : plan.k ≤ steps := by
  obtain ⟨-, hg | ⟨-, hk, -⟩⟩ := compute_eq_ok h
  · exact hg.1.1
  · omega

theorem k_le_of_compute (hmem : host.memoryGb ≤ host'.memoryGb) {plan plan' : Plan}
    (h : compute ladder rows host role mode profiles = .ok plan)
    (h' : compute ladder rows host' role mode profiles = .ok plan') : plan.k ≤ plan'.k := by
  obtain ⟨-, hgr | ⟨-, hk, -⟩⟩ := compute_eq_ok h
  · obtain ⟨hle, hf⟩ := hgr.1
    obtain ⟨-, hg | ⟨-, -, hno⟩⟩ := compute_eq_ok h'
    · exact hg.2 ⟨hle, stepFits_mono hmem le_rfl hf⟩
    · rw [stepFits_mono hmem (Nat.zero_le _) hf] at hno
      cases hno
  · omega

/-- A host with more memory or processors gets a plan too, and no value of it is lower. -/
def Grows (ladder : Ladder) (rows : Mode → List Row) (host : Host) (plan : Plan) : Prop :=
  ∀ host' : Host, host.cpus ≤ host'.cpus → host.memoryGb ≤ host'.memoryGb →
    ∃ plan', compute ladder rows host' plan.role plan.mode plan.profiles = .ok plan' ∧
      plan.values.Le plan'.values ∧ plan.conf.Le plan'.conf

/-- Every memory limit lies on its rung, and the stream's Redis has half as much again as it may
fill. -/
def OnRungs (ladder : Ladder) (v : Values) : Prop :=
  (∀ key rung, ladder.mem key = some rung →
    ∃ mem, v.mem key = some mem ∧ rung.small ≤ mem ∧ mem ≤ rung.large) ∧
  ∀ mem limit, v.mem "REDIS_STREAM_MEM" = some mem →
    v.maxmemory "REDIS_STREAM_MAXMEMORY" = some limit → (3 / 2 * limit : ℚ) ≤ mem

theorem onRungs_values (hk : k ≤ steps) (b : Bool) :
    OnRungs ladder (values ladder k host role b) := by
  constructor
  · intro key rung hr
    refine ⟨memMib k role key rung, ?_, memMib_mem_rung hk key rung⟩
    simp only [values, hr, Option.map_some]
  · intro mem limit hmem hl
    have heq : (values ladder k host role b).maxmemory "REDIS_STREAM_MAXMEMORY" =
        ((values ladder k host role b).mem "REDIS_STREAM_MEM").map
          fun mem => ((mem * 2 / 3 : ℕ) : ℤ) := by
      simp only [values, maxmemoryMib]
    rw [heq, hmem, Option.map_some] at hl
    cases hl
    have hdiv : (mem * 2 / 3 : ℕ) * 3 ≤ mem * 2 := Nat.div_mul_le_self _ _
    have hc : ((mem * 2 / 3 : ℕ) : ℚ) * 3 ≤ mem * 2 := by exact_mod_cast hdiv
    rw [Int.cast_natCast]
    linarith

/-- For every host the search either refuses, as role `server` does when the first step is over
nine tenths of the memory, or gives a plan: under role `server` of the largest step that fits, what
it writes fitting too, and under either role on its rungs and nowhere lower on a larger host. -/
theorem sizing_sound_best_monotone (ladder : Ladder) (rows : Mode → List Row) (host : Host)
    (role : Role) (mode : Mode) (profiles : List String) :
    match compute ladder rows host role mode profiles with
    | .error _ => role = .server ∧ stepFits ladder rows host role mode profiles 0 = false
    | .ok plan =>
      (role = .server →
        fits rows mode plan.values (enabledProfiles mode profiles) host = true ∧
          IsGreatest (searched ladder rows host role mode profiles) plan.k) ∧
      OnRungs ladder plan.values ∧ Grows ladder rows host plan := by
  cases hr : compute ladder rows host role mode profiles with
  | error refused => exact compute_eq_error hr
  | ok plan =>
    obtain ⟨hp, hk⟩ := compute_eq_ok hr
    have hv : plan.values = values ladder plan.k host role false := by rw [hp]; rfl
    have hs : plan.role = role ∧ plan.mode = mode ∧ plan.profiles = profiles := by
      rw [hp]
      exact ⟨rfl, rfl, rfl⟩
    refine ⟨fun hro => ?_, ?_, fun host' hc hmem => ?_⟩
    · rcases hk with hg | ⟨hdev, -⟩
      · refine ⟨?_, hg⟩
        rw [hv]
        exact fits_mono (values_le le_rfl le_rfl fun _ => rfl) le_rfl hg.1.2
      · rw [hro] at hdev
        cases hdev
    · rw [hv]
      exact onRungs_values (le_steps_of_compute hr) false
    · rw [hs.1, hs.2.1, hs.2.2]
      obtain ⟨plan', hre⟩ := exists_plan hmem hr
      have hle := k_le_of_compute hmem hr hre
      refine ⟨plan', hre, ?_⟩
      rw [hp, (compute_eq_ok hre).1]
      exact ⟨values_le hle hc id, renderConf_le hle hmem⟩

private theorem half_le_one : (1 / 4 : ℚ) ≤ 1 := by norm_num

private theorem streamMem_le : 384 ≤ 3072 := by decide

private theorem embeddingReplicas_le : 1 ≤ 3 := by decide

private theorem sharedBuffers_le : 256 ≤ 2048 := by decide

private theorem maintenanceWorkMem_le : 128 ≤ 1024 := by decide

private theorem span_pos : (0 : ℤ) < 2400 := by decide

def streamLadder : Ladder where
  cpus
    | "REDIS_STREAM_CPUS" => some ⟨1 / 4, 1, half_le_one⟩
    | "EMBEDDING_CPUS" => some ⟨1, 1, le_rfl⟩
    | _ => none
  mem
    | "REDIS_STREAM_MEM" => some ⟨384, 3072, streamMem_le⟩
    | "EMBEDDING_MEM" => some ⟨1280, 1280, le_rfl⟩
    | _ => none
  replicas
    | "EMBEDDING_REPLICAS" => some ⟨1, 3, embeddingReplicas_le⟩
    | _ => none
  cpuFloor := 800
  cpuSpan := 2400
  cpuSpan_pos := span_pos
  sharedBuffers := ⟨256, 2048, sharedBuffers_le⟩
  maintenanceWorkMem := ⟨128, 1024, maintenanceWorkMem_le⟩
  workMem := 16

def streamRows (_ : Mode) : List Row :=
  [⟨"redis-stream", [], false, .fixed 1, .interp "REDIS_STREAM_CPUS" 1,
      .interp "REDIS_STREAM_MEM" (3072 * 1024 ^ 2)⟩,
    ⟨"embedding", [], false, .interp "EMBEDDING_REPLICAS" 3, .interp "EMBEDDING_CPUS" 1,
      .interp "EMBEDDING_MEM" (1280 * 1024 ^ 2)⟩]

private theorem four_cpus : 1 ≤ (4 : ℚ) ∧ (4 : ℚ) ≤ maxHostCpus := by norm_num [maxHostCpus]

private theorem four_gb : 1 ≤ (4 : ℚ) ∧ (4 : ℚ) ≤ maxHostMemoryGb := by
  norm_num [maxHostMemoryGb]

def smallHost : Host := ⟨4, 4, four_cpus, four_gb⟩

/-- Two services on a host of 4 GB are sized at step 276. -/
theorem stream_sized_at_276 :
    ∃ plan, compute streamLadder streamRows smallHost .server .cpu [] = .ok plan ∧
      fits streamRows .cpu plan.values (enabledProfiles .cpu []) smallHost = true ∧
      IsGreatest (searched streamLadder streamRows smallHost .server .cpu []) plan.k ∧
      plan.k = 276 ∧ OnRungs streamLadder plan.values ∧
      Grows streamLadder streamRows smallHost plan := by
  have hsize := sizing_sound_best_monotone streamLadder streamRows smallHost .server .cpu []
  have hfits : stepFits streamLadder streamRows smallHost .server .cpu [] 0 = true := by
    decide +kernel
  have hstep : bisect (stepFits streamLadder streamRows smallHost .server .cpu []) steps 0 steps =
      276 := by
    decide +kernel
  have hplan : compute streamLadder streamRows smallHost .server .cpu [] =
      .ok (planAt streamLadder streamRows smallHost .server .cpu [] 276) := by
    rw [compute, if_pos hfits, hstep]
  rw [hplan] at hsize
  obtain ⟨hserver, hrungs, hgrows⟩ := hsize
  obtain ⟨hfit, hbest⟩ := hserver rfl
  exact ⟨_, hplan, hfit, hbest, rfl, hrungs, hgrows⟩

end Aizzak.HostSizing
