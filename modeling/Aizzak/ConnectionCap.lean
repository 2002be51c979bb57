import Aizzak.EventRuns
import Aizzak.SortedSets

/-!
The cap on a user's WebSocket connections across processes. Each user has one sorted set of
connections, scored with the time of their last renewal, and every access to it is one script.
The processes register and unregister sessions and renew the slots they hold; each of these
waits for the registry, so that the scripts of all processes interleave. A connection enters a
set by its one admission alone: once it is out, nothing brings it back.
-/
namespace Aizzak.ConnectionCap

open EventRuns KeyedTables SortedSets List Option

structure Config where
  maxConnections : ℤ
  entryTtlS : ℤ

def Config.ttlMs (cfg : Config) : ℤ := cfg.entryTtlS * 1000

abbrev Registry := Keyspace String String

namespace Registry

def update (sets : Registry) (now : ℤ) (user : String)
    (script : SortedSet String → SortedSet String) : Registry :=
  sets.write user (script (sets.read now user))

def tryAcquire (cfg : Config) (now : ℤ) (user conn : String) (sets : Registry) : Registry × Bool :=
  let set := (sets.read now user).removeUpTo (now - cfg.ttlMs)
  if cfg.maxConnections ≤ set.card then
    (sets.update now user fun set => set.removeUpTo (now - cfg.ttlMs), false)
  else
    (sets.update now user fun set =>
      ((set.removeUpTo (now - cfg.ttlMs)).add conn now).expire (now + cfg.ttlMs), true)

def renew (cfg : Config) (now : ℤ) (user : String) (conns : List String) (sets : Registry) :
    Registry :=
  sets.update now user fun set =>
    (conns.foldl (fun set conn => set.raise conn now)
      (set.removeUpTo (now - cfg.ttlMs))).expire (now + cfg.ttlMs)

def release (now : ℤ) (user conn : String) (sets : Registry) : Registry :=
  sets.update now user fun set => set.remove conn

def count (cfg : Config) (now : ℤ) (user : String) (sets : Registry) : Registry × ℕ :=
  (sets.update now user fun set => set.removeUpTo (now - cfg.ttlMs),
    ((sets.read now user).removeUpTo (now - cfg.ttlMs)).card)

end Registry

structure Slot where
  userId : String
  connectionId : String
deriving DecidableEq

inductive Call where
  | acquiring (hub session : ℕ) (slot : Slot)
  | answered (hub session : ℕ) (slot : Slot) (admitted : Bool)
  | releasing (slot : Slot)
  | renewing (entries : List (String × List String))
deriving DecidableEq

/-- The hubs' slots by hub and session, and, beside the registry, when each connection was last
renewed. -/
structure State where
  clock : ℤ
  sets : Registry
  slots : AList fun _ : ℕ × ℕ => Slot
  calls : AList fun _ : ℕ => Call
  issued : List Slot
  renewed : AList fun _ : String => ℤ

def State.init (clock : ℤ) : State := ⟨clock, ∅, ∅, ∅, [], ∅⟩

def entriesOf (s : State) (hub : ℕ) : List (String × List String) :=
  let held := (s.slots.keys.filter (·.1 = hub)).filterMap s.slots.lookup
  (held.map (·.userId)).eraseDups.map fun user =>
    (user, (held.filter (·.userId = user)).map (·.connectionId))

inductive Event where
  | tryRegister (q hub session : ℕ) (slot : Slot)
  | acquire (q : ℕ) (clock : ℤ)
  | registered (q : ℕ)
  | unregister (q hub session : ℕ)
  | release (q : ℕ) (clock : ℤ)
  | renewOnce (q hub : ℕ)
  | renew (q : ℕ) (clock : ℤ)
  | count (user : String) (clock : ℤ)
  | fails (q : ℕ)

def Event.clock? : Event → Option ℤ
  | .acquire _ clock | .release _ clock | .renew _ clock | .count _ clock => some clock
  | _ => none

/-- A call that fails has raised, been cancelled or lost its answer, before or after its script
was executed. -/
def step (cfg : Config) (s : State) : Event → Option State
  | .tryRegister q hub session slot =>
    if q ∈ s.calls ∨ slot.connectionId ∈ s.issued.map (·.connectionId) then none
    else some { s with
      calls := s.calls.insert q (.acquiring hub session slot)
      issued := slot :: s.issued }
  | .acquire q clock =>
    match s.calls.lookup q with
    | some (.acquiring hub session slot) =>
      if clock < s.clock then none
      else
        let (sets, admitted) :=
          s.sets.tryAcquire cfg (nowMs clock) slot.userId slot.connectionId
        some { s with
          clock := clock
          sets := sets
          calls := s.calls.insert q (.answered hub session slot admitted)
          renewed := if admitted then s.renewed.insert slot.connectionId clock else s.renewed }
    | _ => none
  | .registered q =>
    match s.calls.lookup q with
    | some (.answered hub session slot admitted) =>
      some { s with
        calls := s.calls.erase q
        slots := if admitted then s.slots.insert (hub, session) slot else s.slots }
    | _ => none
  | .unregister q hub session =>
    if q ∈ s.calls then none
    else match s.slots.lookup (hub, session) with
      | none => some s
      | some slot =>
        some { s with
          slots := s.slots.erase (hub, session)
          calls := s.calls.insert q (.releasing slot) }
  | .release q clock =>
    match s.calls.lookup q with
    | some (.releasing slot) =>
      if clock < s.clock then none
      else some { s with
        clock := clock
        sets := s.sets.release (nowMs clock) slot.userId slot.connectionId
        calls := s.calls.erase q }
    | _ => none
  | .renewOnce q hub =>
    if q ∈ s.calls then none
    else some { s with calls := s.calls.insert q (.renewing (entriesOf s hub)) }
  | .renew q clock =>
    match s.calls.lookup q with
    | some (.renewing ((user, conns) :: rest)) =>
      if clock < s.clock then none
      else some { s with
        clock := clock
        sets := s.sets.renew cfg (nowMs clock) user conns
        calls := s.calls.insert q (.renewing rest)
        renewed := conns.foldl (fun times conn => times.insert conn clock) s.renewed }
    | _ => none
  | .count user clock =>
    if clock < s.clock then none
    else some { s with clock := clock, sets := (s.sets.count cfg (nowMs clock) user).1 }
  | .fails q => if q ∈ s.calls then some { s with calls := s.calls.erase q } else none

inductive Moved (cfg : Config) (s : State) : Event → State → Prop
  | tried (q hub session : ℕ) (slot : Slot) (hq : q ∉ s.calls)
      (hfresh : slot.connectionId ∉ s.issued.map (·.connectionId)) :
      Moved cfg s (.tryRegister q hub session slot)
        { s with
          calls := s.calls.insert q (.acquiring hub session slot)
          issued := slot :: s.issued }
  | admitted (q hub session : ℕ) (slot : Slot) (clock : ℤ)
      (hcall : s.calls.lookup q = some (.acquiring hub session slot)) (hclock : s.clock ≤ clock)
      (hroom : (((s.sets.read (nowMs clock) slot.userId).removeUpTo
        (nowMs clock - cfg.ttlMs)).card : ℤ) < cfg.maxConnections) :
      Moved cfg s (.acquire q clock)
        { s with
          clock := clock
          sets := s.sets.update (nowMs clock) slot.userId fun set =>
            ((set.removeUpTo (nowMs clock - cfg.ttlMs)).add slot.connectionId
              (nowMs clock)).expire (nowMs clock + cfg.ttlMs)
          calls := s.calls.insert q (.answered hub session slot true)
          renewed := s.renewed.insert slot.connectionId clock }
  | refused (q hub session : ℕ) (slot : Slot) (clock : ℤ)
      (hcall : s.calls.lookup q = some (.acquiring hub session slot)) (hclock : s.clock ≤ clock) :
      Moved cfg s (.acquire q clock)
        { s with
          clock := clock
          sets := s.sets.update (nowMs clock) slot.userId fun set =>
            set.removeUpTo (nowMs clock - cfg.ttlMs)
          calls := s.calls.insert q (.answered hub session slot false) }
  | registered (q hub session : ℕ) (slot : Slot)
      (hcall : s.calls.lookup q = some (.answered hub session slot true)) :
      Moved cfg s (.registered q)
        { s with
          calls := s.calls.erase q
          slots := s.slots.insert (hub, session) slot }
  | turnedAway (q hub session : ℕ) (slot : Slot)
      (hcall : s.calls.lookup q = some (.answered hub session slot false)) :
      Moved cfg s (.registered q) { s with calls := s.calls.erase q }
  | unregistered (q hub session : ℕ) (slot : Slot) (hq : q ∉ s.calls)
      (hslot : s.slots.lookup (hub, session) = some slot) :
      Moved cfg s (.unregister q hub session)
        { s with
          slots := s.slots.erase (hub, session)
          calls := s.calls.insert q (.releasing slot) }
  | unknown (q hub session : ℕ) : Moved cfg s (.unregister q hub session) s
  | released (q : ℕ) (slot : Slot) (clock : ℤ)
      (hcall : s.calls.lookup q = some (.releasing slot)) (hclock : s.clock ≤ clock) :
      Moved cfg s (.release q clock)
        { s with
          clock := clock
          sets := s.sets.update (nowMs clock) slot.userId fun set => set.remove slot.connectionId
          calls := s.calls.erase q }
  | snapshot (q hub : ℕ) (hq : q ∉ s.calls) :
      Moved cfg s (.renewOnce q hub)
        { s with calls := s.calls.insert q (.renewing (entriesOf s hub)) }
  | renewed (q : ℕ) (user : String) (conns : List String) (rest : List (String × List String))
      (clock : ℤ) (hcall : s.calls.lookup q = some (.renewing ((user, conns) :: rest)))
      (hclock : s.clock ≤ clock) :
      Moved cfg s (.renew q clock)
        { s with
          clock := clock
          sets := s.sets.update (nowMs clock) user fun set =>
            (conns.foldl (fun set conn => set.raise conn (nowMs clock))
              (set.removeUpTo (nowMs clock - cfg.ttlMs))).expire (nowMs clock + cfg.ttlMs)
          calls := s.calls.insert q (.renewing rest)
          renewed := conns.foldl (fun times conn => times.insert conn clock) s.renewed }
  | counted (user : String) (clock : ℤ) (hclock : s.clock ≤ clock) :
      Moved cfg s (.count user clock)
        { s with
          clock := clock
          sets := s.sets.update (nowMs clock) user fun set =>
            set.removeUpTo (nowMs clock - cfg.ttlMs) }
  | failed (q : ℕ) : Moved cfg s (.fails q) { s with calls := s.calls.erase q }

section Machine

variable {cfg : Config} {s t : State} {e : Event}

theorem step_moved (h : step cfg s e = some t) : Moved cfg s e t := by
  cases e with
  | tryRegister q hub session slot =>
    simp only [step] at h
    split_ifs at h with hold
    rw [not_or] at hold
    exact some.inj h ▸ .tried q hub session slot hold.1 hold.2
  | acquire q clock =>
    simp only [step] at h
    split at h
    · rename_i hub session slot hca
      by_cases hc : clock < s.clock
      · rw [if_pos hc] at h
        cases h
      · rw [if_neg hc] at h
        cases h
        by_cases hf : cfg.maxConnections ≤ ((s.sets.read (nowMs clock) slot.userId).removeUpTo
            (nowMs clock - cfg.ttlMs)).card
        · simp only [Registry.tryAcquire, if_pos hf, Bool.false_eq_true, if_false]
          exact .refused q hub session slot clock hca (by omega)
        · simp only [Registry.tryAcquire, if_neg hf, if_true]
          exact .admitted q hub session slot clock hca (by omega) (by omega)
    · cases h
  | registered q =>
    simp only [step] at h
    split at h
    · rename_i hub session slot admitted hca
      cases h
      cases admitted with
      | true => exact .registered q hub session slot hca
      | false => exact .turnedAway q hub session slot hca
    · cases h
  | unregister q hub session =>
    simp only [step] at h
    split_ifs at h with hq
    split at h
    · exact some.inj h ▸ .unknown q hub session
    · rename_i slot hs
      exact some.inj h ▸ .unregistered q hub session slot hq hs
  | release q clock =>
    simp only [step] at h
    split at h
    · rename_i slot hca
      split_ifs at h with hc
      exact some.inj h ▸ .released q slot clock hca (by omega)
    · cases h
  | renewOnce q hub =>
    simp only [step] at h
    split_ifs at h with hq
    exact some.inj h ▸ .snapshot q hub hq
  | renew q clock =>
    simp only [step] at h
    split at h
    · rename_i user conns rest hca
      split_ifs at h with hc
      exact some.inj h ▸ .renewed q user conns rest clock hca (by omega)
    · cases h
  | count user clock =>
    simp only [step] at h
    split_ifs at h with hc
    exact some.inj h ▸ .counted user clock (by omega)
  | fails q =>
    simp only [step] at h
    split_ifs at h
    exact some.inj h ▸ .failed q

/-- The score a connection is stored with, whether or not its set has expired. -/
def held (sets : Registry) (user conn : String) : Option ℤ :=
  (sets.lookup user).bind (·.score conn)

variable {sets : Registry} {user conn : String} {r : ℤ}

theorem held_eq_some :
    held sets user conn = some r ↔ ∃ set, sets.lookup user = some set ∧ set.score conn = some r :=
  bind_eq_some_iff

variable {now : ℤ} {script : SortedSet String → SortedSet String}

theorem held_update {other : String} :
    held (sets.update now user script) other conn = some r ↔
      (other = user ∧ (script (sets.read now user)).score conn = some r) ∨
        (other ≠ user ∧ held sets other conn = some r) := by
  rw [held_eq_some, Registry.update]
  by_cases heq : other = user
  · subst heq
    simp only [true_and, ne_eq, not_true_eq_false, false_and, or_false]
    constructor
    · rintro ⟨set, hset, hs⟩
      obtain ⟨rfl, -⟩ := Keyspace.lookup_write.mp hset
      exact hs
    · intro hs
      exact ⟨_, Keyspace.lookup_write_of_score hs, hs⟩
  · simp only [heq, false_and, ne_eq, not_false_eq_true, true_and, false_or]
    rw [Keyspace.lookup_write_of_ne heq, ← held_eq_some]

theorem held_of_score_read (h : (sets.read now user).score conn = some r) :
    held sets user conn = some r :=
  held_eq_some.mpr ⟨_, Keyspace.lookup_of_score_read h, h⟩

def Capped (cfg : Config) (sets : Registry) : Prop :=
  ∀ user set, sets.lookup user = some set → set.card ≤ cfg.maxConnections.toNat

theorem Capped.update (h : Capped cfg sets)
    (hs : (script (sets.read now user)).card ≤ cfg.maxConnections.toNat) :
    Capped cfg (sets.update now user script) := by
  intro other set hset
  rw [Registry.update] at hset
  by_cases heq : other = user
  · subst heq
    obtain ⟨rfl, -⟩ := Keyspace.lookup_write.mp hset
    exact hs
  · rw [Keyspace.lookup_write_of_ne heq] at hset
    exact h other set hset

theorem Capped.card_read (h : Capped cfg sets) (user : String) (now : ℤ) :
    (sets.read now user).card ≤ cfg.maxConnections.toNat := by
  by_cases he : (sets.read now user).card = 0
  · omega
  · rw [SortedSet.card, length_eq_zero_iff] at he
    obtain ⟨conn, hc⟩ := exists_mem_of_ne_nil _ he
    obtain ⟨r, hr⟩ := SortedSet.mem_iff_score.mp hc
    exact h user _ (Keyspace.lookup_of_score_read hr)

theorem Capped.shrink (h : Capped cfg sets)
    (hsub : ∀ conn r, (script (sets.read now user)).score conn = some r →
      ∃ t, (sets.read now user).score conn = some t) :
    Capped cfg (sets.update now user script) := by
  refine h.update ?_
  exact Nat.le_trans (SortedSet.card_le_card hsub) (h.card_read user now)

/-- An execution of the scripts never lets a user past the cap. -/
theorem step_capped (s : State) (e : Event) (t : State) (h : Capped cfg s.sets)
    (ht : step cfg s e = some t) : Capped cfg t.sets := by
  cases step_moved ht with
  | admitted q hub session slot clock hca hc hro =>
    refine Capped.update h ?_
    have hadd := SortedSet.card_add_le ((s.sets.read (nowMs clock) slot.userId).removeUpTo
      (nowMs clock - cfg.ttlMs)) slot.connectionId (nowMs clock)
    rw [SortedSet.card_expire]
    omega
  | refused | counted =>
    refine Capped.shrink h fun conn r hr => ?_
    exact ⟨r, (SortedSet.score_removeUpTo.mp hr).1⟩
  | released =>
    refine Capped.shrink h fun conn r hr => ?_
    exact ⟨r, (SortedSet.score_remove.mp hr).2⟩
  | renewed =>
    refine Capped.shrink h fun conn r hr => ?_
    rw [SortedSet.score_expire] at hr
    obtain ⟨u, hu, -⟩ := SortedSet.score_foldl_raise.mp hr
    exact ⟨u, (SortedSet.score_removeUpTo.mp hu).1⟩
  | tried | registered | turnedAway | unregistered | unknown | snapshot | failed => exact h

def Call.slot? : Call → Option Slot
  | .acquiring _ _ slot | .answered _ _ slot _ | .releasing slot => some slot
  | .renewing _ => none

def Waiting (s : State) (conn : String) : Prop :=
  ∃ q hub session slot, s.calls.lookup q = some (.acquiring hub session slot) ∧
    slot.connectionId = conn

/-- Each connection is in one place: at a call, in a slot, or nowhere any more. -/
structure Placed (s : State) : Prop where
  fresh : (s.issued.map (·.connectionId)).Nodup
  slots : ∀ k slot, s.slots.lookup k = some slot → slot ∈ s.issued
  calls : ∀ q call slot, s.calls.lookup q = some call → call.slot? = some slot → slot ∈ s.issued
  entries : ∀ q entries, s.calls.lookup q = some (.renewing entries) →
    ∀ user conns, (user, conns) ∈ entries → ∀ conn ∈ conns, ⟨user, conn⟩ ∈ s.issued
  once : ∀ i j c d a b, s.calls.lookup i = some c → s.calls.lookup j = some d →
    c.slot? = some a → d.slot? = some b → a.connectionId = b.connectionId → i = j
  single : ∀ i j a b, s.slots.lookup i = some a → s.slots.lookup j = some b →
    a.connectionId = b.connectionId → i = j
  apart : ∀ k a q c b, s.slots.lookup k = some a → s.calls.lookup q = some c →
    c.slot? = some b → a.connectionId ≠ b.connectionId
  stored : ∀ user conn r, held s.sets user conn = some r →
    ⟨user, conn⟩ ∈ s.issued ∧ ¬Waiting s conn

namespace Placed

theorem slot_eq (h : Placed s) {a b : Slot} (ha : a ∈ s.issued) (hb : b ∈ s.issued)
    (hc : a.connectionId = b.connectionId) : a = b :=
  inj_on_of_nodup_map h.fresh ha hb hc

theorem init (clock : ℤ) : Placed (State.init clock) := by
  refine ⟨nodup_nil, ?_, ?_, ?_, ?_, ?_, ?_, ?_⟩
  all_goals simp [State.init, held]

variable {q : ℕ} {conn : String}

theorem waiting_erase (h : Waiting { s with calls := s.calls.erase q } conn) : Waiting s conn := by
  obtain ⟨i, hub, session, slot, hi, hc⟩ := h
  exact ⟨i, hub, session, slot, (lookup_erase_iff.mp hi).2, hc⟩

variable {call : Call}

theorem waiting_insert (hca : ∀ hub session slot, call ≠ .acquiring hub session slot)
    (h : Waiting { s with calls := s.calls.insert q call } conn) :
    Waiting { s with calls := s.calls.erase q } conn := by
  obtain ⟨i, hub, session, slot, hi, hc⟩ := h
  rcases lookup_insert_iff.mp hi with ⟨-, rfl⟩ | ⟨hne, hold⟩
  · exact absurd rfl (hca hub session slot)
  · exact ⟨i, hub, session, slot, lookup_erase_iff.mpr ⟨hne, hold⟩, hc⟩

/-- A call that is over leaves the others where they are. -/
theorem eraseCall (h : Placed s) (q : ℕ) : Placed { s with calls := s.calls.erase q } := by
  have hold : ∀ i c, (s.calls.erase q).lookup i = some c → s.calls.lookup i = some c :=
    fun i c hi => (lookup_erase_iff.mp hi).2
  refine ⟨h.fresh, h.slots, fun i c slot hi => h.calls i c slot (hold i c hi),
    fun i entries hi => h.entries i entries (hold i _ hi),
    fun i j c d a b hi hj => h.once i j c d a b (hold i c hi) (hold j d hj), h.single,
    fun k a i c b hk hi => h.apart k a i c b hk (hold i c hi), fun user conn r hr => ?_⟩
  obtain ⟨his, hnot⟩ := h.stored user conn r hr
  exact ⟨his, fun hw => hnot (waiting_erase hw)⟩

/-- A call takes the place of another, or a new one begins, about a slot that is nowhere else. -/
theorem insertCall (h : Placed s) (q : ℕ) (call : Call)
    (hs : ∀ a, call.slot? = some a → a ∈ s.issued ∧
      (∀ j c b, j ≠ q → s.calls.lookup j = some c → c.slot? = some b →
        a.connectionId ≠ b.connectionId) ∧
      ∀ k b, s.slots.lookup k = some b → b.connectionId ≠ a.connectionId)
    (he : ∀ entries, call = .renewing entries → ∀ user conns, (user, conns) ∈ entries →
      ∀ conn ∈ conns, ⟨user, conn⟩ ∈ s.issued)
    (hca : ∀ hub session slot, call ≠ .acquiring hub session slot) :
    Placed { s with calls := s.calls.insert q call } := by
  refine ⟨h.fresh, h.slots, fun i c slot hi hc => ?_, fun i entries hi => ?_,
    fun i j c d a b hi hj hc hd hsa => ?_, h.single, fun k a i c b hk hi hc => ?_,
    fun user conn r hr => ?_⟩
  · rcases lookup_insert_iff.mp hi with ⟨-, rfl⟩ | ⟨-, hold⟩
    · exact (hs slot hc).1
    · exact h.calls i c slot hold hc
  · rcases lookup_insert_iff.mp hi with ⟨-, rfl⟩ | ⟨-, hold⟩
    · exact he entries rfl
    · exact h.entries i entries hold
  · rcases lookup_insert_iff.mp hi with ⟨hiq, rfl⟩ | ⟨hiq, hiOld⟩
    · rcases lookup_insert_iff.mp hj with ⟨hjq, -⟩ | ⟨hjq, hjOld⟩
      · rw [hiq, hjq]
      · exact absurd hsa ((hs a hc).2.1 j d b hjq hjOld hd)
    · rcases lookup_insert_iff.mp hj with ⟨hjq, rfl⟩ | ⟨hjq, hjOld⟩
      · exact absurd hsa.symm ((hs b hd).2.1 i c a hiq hiOld hc)
      · exact h.once i j c d a b hiOld hjOld hc hd hsa
  · rcases lookup_insert_iff.mp hi with ⟨rfl, rfl⟩ | ⟨-, hi⟩
    · exact (hs b hc).2.2 k a hk
    · exact h.apart k a i c b hk hi hc
  · obtain ⟨his, hnot⟩ := h.stored user conn r hr
    exact ⟨his, fun hw => hnot (waiting_erase (waiting_insert hca hw))⟩

variable {slot : Slot}

theorem of_call (h : Placed s) (hca : s.calls.lookup q = some call)
    (hs : call.slot? = some slot) :
    slot ∈ s.issued ∧
      (∀ j c b, j ≠ q → s.calls.lookup j = some c → c.slot? = some b →
        slot.connectionId ≠ b.connectionId) ∧
      ∀ k b, s.slots.lookup k = some b → b.connectionId ≠ slot.connectionId :=
  ⟨h.calls q call slot hca hs,
    fun j c b hne hj hc hsa => hne (h.once j q c call b slot hj hca hc hs hsa.symm),
    fun k b hk => h.apart k b q call slot hk hca hs⟩

/-- What the scripts leave in the sets was there, or is the connection let in. -/
theorem withSets (h : Placed s) (clock : ℤ) (sets : Registry) (renewed : AList fun _ : String => ℤ)
    (hs : ∀ user conn r, held sets user conn = some r →
      (∃ t, held s.sets user conn = some t) ∨ ⟨user, conn⟩ ∈ s.issued ∧ ¬Waiting s conn) :
    Placed { s with clock := clock, sets := sets, renewed := renewed } := by
  refine ⟨h.fresh, h.slots, h.calls, h.entries, h.once, h.single, h.apart,
    fun user conn r hr => ?_⟩
  rcases hs user conn r hr with ⟨t, ht⟩ | hnew
  · exact h.stored user conn t ht
  · exact hnew

theorem not_waiting_of_replaced (h : Placed s) {old : Call} (hold : s.calls.lookup q = some old)
    (hs : old.slot? = some slot)
    (hca : ∀ hub session slot, call ≠ .acquiring hub session slot) :
    ¬Waiting { s with calls := s.calls.insert q call } slot.connectionId := by
  intro hw
  obtain ⟨i, hub, session, other, hi, hc⟩ := waiting_insert hca hw
  obtain ⟨hne, hi⟩ := lookup_erase_iff.mp hi
  exact (h.of_call hold hs).2.1 i _ other hne hi rfl hc.symm

theorem held_of_shrinking {sets : Registry} {now : ℤ} {user : String}
    {script : SortedSet String → SortedSet String}
    (hsub : ∀ conn r, (script (sets.read now user)).score conn = some r →
      ∃ t, (sets.read now user).score conn = some t) {other : String} {r : ℤ}
    (h : held (sets.update now user script) other conn = some r) :
    ∃ t, held sets other conn = some t := by
  rcases held_update.mp h with ⟨rfl, hs⟩ | ⟨-, hold⟩
  · obtain ⟨t, ht⟩ := hsub conn r hs
    exact ⟨t, held_of_score_read ht⟩
  · exact ⟨r, hold⟩

variable {hub session : ℕ}

theorem tried (h : Placed s) (hf : slot.connectionId ∉ s.issued.map (·.connectionId)) :
    Placed { s with
      calls := s.calls.insert q (.acquiring hub session slot)
      issued := slot :: s.issued } := by
  have hnew : ∀ other ∈ s.issued, other.connectionId ≠ slot.connectionId :=
    fun other ho hs => hf (mem_map.mpr ⟨other, ho, hs⟩)
  refine ⟨nodup_cons.mpr ⟨hf, h.fresh⟩,
    fun k a hk => mem_cons_of_mem _ (h.slots k a hk), fun i c a hi hc => ?_,
    fun i entries hi user conns hmem conn hco => ?_, fun i j c d a b hi hj hc hd hs => ?_,
    h.single, fun k a i c b hk hi hc => ?_, fun user conn r hr => ?_⟩
  · rcases lookup_insert_iff.mp hi with ⟨-, rfl⟩ | ⟨-, hold⟩
    · cases hc
      exact mem_cons_self
    · exact mem_cons_of_mem _ (h.calls i c a hold hc)
  · rcases lookup_insert_iff.mp hi with ⟨-, hca⟩ | ⟨-, hold⟩
    · cases hca
    · exact mem_cons_of_mem _ (h.entries i entries hold user conns hmem conn hco)
  · rcases lookup_insert_iff.mp hi with ⟨hiq, rfl⟩ | ⟨-, hiOld⟩
    · rcases lookup_insert_iff.mp hj with ⟨hjq, -⟩ | ⟨-, hjOld⟩
      · rw [hiq, hjq]
      · cases hc
        exact absurd hs.symm (hnew b (h.calls j d b hjOld hd))
    · rcases lookup_insert_iff.mp hj with ⟨-, rfl⟩ | ⟨-, hjOld⟩
      · cases hd
        exact absurd hs (hnew a (h.calls i c a hiOld hc))
      · exact h.once i j c d a b hiOld hjOld hc hd hs
  · rcases lookup_insert_iff.mp hi with ⟨-, rfl⟩ | ⟨-, hold⟩
    · cases hc
      exact hnew a (h.slots k a hk)
    · exact h.apart k a i c b hk hold hc
  · obtain ⟨his, hnot⟩ := h.stored user conn r hr
    refine ⟨mem_cons_of_mem _ his, ?_⟩
    rintro ⟨i, hub', session', other, hi, hco⟩
    rcases lookup_insert_iff.mp hi with ⟨-, hca⟩ | ⟨-, hold⟩
    · cases hca
      exact hnew _ his hco.symm
    · exact hnot ⟨i, hub', session', other, hold, hco⟩

theorem registered (h : Placed s)
    (hcl : s.calls.lookup q = some (.answered hub session slot true)) :
    Placed { s with
      calls := s.calls.erase q
      slots := s.slots.insert (hub, session) slot } := by
  obtain ⟨his, hca, hs⟩ := h.of_call hcl rfl
  have he := h.eraseCall q
  refine ⟨h.fresh, forall_insert his h.slots, he.calls, he.entries,
    he.once, fun i j a b hi hj hsa => ?_, fun k a i c b hk hi hc => ?_, he.stored⟩
  · rcases lookup_insert_iff.mp hi with ⟨rfl, rfl⟩ | ⟨-, hiOld⟩
    · rcases lookup_insert_iff.mp hj with ⟨rfl, -⟩ | ⟨-, hjOld⟩
      · rfl
      · exact absurd hsa.symm (hs j b hjOld)
    · rcases lookup_insert_iff.mp hj with ⟨rfl, rfl⟩ | ⟨-, hjOld⟩
      · exact absurd hsa (hs i a hiOld)
      · exact h.single i j a b hiOld hjOld hsa
  · obtain ⟨hne, hiOld⟩ := lookup_erase_iff.mp hi
    rcases lookup_insert_iff.mp hk with ⟨-, rfl⟩ | ⟨-, hkOld⟩
    · exact hca i c b hne hiOld hc
    · exact h.apart k a i c b hkOld hiOld hc

theorem unregistered (h : Placed s) (hs : s.slots.lookup (hub, session) = some slot) :
    Placed { s with
      slots := s.slots.erase (hub, session)
      calls := s.calls.insert q (.releasing slot) } := by
  have hd : Placed { s with slots := s.slots.erase (hub, session) } := by
    have hold : ∀ k a, (s.slots.erase (hub, session)).lookup k = some a →
        s.slots.lookup k = some a := fun k a hk => (lookup_erase_iff.mp hk).2
    exact ⟨h.fresh, fun k a hk => h.slots k a (hold k a hk), h.calls, h.entries, h.once,
      fun i j a b hi hj => h.single i j a b (hold i a hi) (hold j b hj),
      fun k a i c b hk => h.apart k a i c b (hold k a hk), h.stored⟩
  refine hd.insertCall q _ (fun a ha => ?_) (by simp) (by simp)
  cases ha
  refine ⟨h.slots _ _ hs, fun j c b _ hj hc => h.apart _ _ j c b hs hj hc,
    fun k b hk hsa => ?_⟩
  obtain ⟨hne, hkOld⟩ := lookup_erase_iff.mp hk
  exact hne (h.single k _ b _ hkOld hs hsa)

theorem mem_entriesOf {user : String} {conns : List String} (h : (user, conns) ∈ entriesOf s hub)
    (hc : conn ∈ conns) :
    ∃ k, s.slots.lookup k = some ⟨user, conn⟩ := by
  obtain ⟨name, -, heq⟩ := mem_map.mp h
  obtain ⟨rfl, rfl⟩ := Prod.mk.inj heq
  obtain ⟨slot, hs, rfl⟩ := mem_map.mp hc
  obtain ⟨hh, hu⟩ := mem_filter.mp hs
  obtain ⟨k, -, hk⟩ := mem_filterMap.mp hh
  refine ⟨k, ?_⟩
  rw [hk, ← of_decide_eq_true hu]

end Placed

/-- No step has a connection in two places. -/
theorem step_placed (s : State) (e : Event) (t : State) (h : Placed s)
    (ht : step cfg s e = some t) : Placed t := by
  cases step_moved ht with
  | tried q hub session slot hq hf => exact h.tried hf
  | admitted q hub session slot clock hca hcl hro =>
    have han := h.insertCall q (.answered hub session slot true)
      (fun a ha => some.inj ha ▸ h.of_call hca rfl) (by simp) (by simp)
    refine han.withSets clock _ _ fun user conn r hr => ?_
    rcases held_update.mp hr with ⟨rfl, hs⟩ | ⟨-, hold⟩
    · rw [SortedSet.score_expire] at hs
      rcases SortedSet.score_add.mp hs with ⟨rfl, -⟩ | ⟨-, hke⟩
      · exact .inr ⟨(h.of_call hca rfl).1,
          h.not_waiting_of_replaced hca rfl (by simp)⟩
      · exact .inl ⟨r, held_of_score_read (SortedSet.score_removeUpTo.mp hke).1⟩
    · exact .inl ⟨r, hold⟩
  | refused q hub session slot clock hca hcl =>
    have han := h.insertCall q (.answered hub session slot false)
      (fun a ha => some.inj ha ▸ h.of_call hca rfl) (by simp) (by simp)
    refine han.withSets clock _ _ fun user conn r hr => .inl (Placed.held_of_shrinking ?_ hr)
    exact fun conn r hr => ⟨r, (SortedSet.score_removeUpTo.mp hr).1⟩
  | registered q hub session slot hca => exact h.registered hca
  | turnedAway q | failed q => exact h.eraseCall q
  | unregistered q hub session slot hq hsl => exact h.unregistered hsl
  | unknown => exact h
  | released q slot clock hca hcl =>
    refine (h.eraseCall q).withSets clock _ _ fun user conn r hr =>
      .inl (Placed.held_of_shrinking ?_ hr)
    exact fun conn r hr => ⟨r, (SortedSet.score_remove.mp hr).2⟩
  | snapshot q hub hq =>
    refine h.insertCall q _ (by simp [Call.slot?])
      (fun entries heq user conns hmem conn hc => ?_) (by simp)
    cases heq
    obtain ⟨k, hk⟩ := Placed.mem_entriesOf hmem hc
    exact h.slots k _ hk
  | renewed q user conns rest clock hca hcl =>
    have hre := h.insertCall q (.renewing rest) (by simp [Call.slot?])
      (fun entries heq name ids hmem => by
        cases heq
        exact h.entries q _ hca name ids (mem_cons_of_mem _ hmem)) (by simp)
    refine hre.withSets clock _ _ fun name conn r hr => .inl (Placed.held_of_shrinking ?_ hr)
    intro conn r hr
    rw [SortedSet.score_expire] at hr
    obtain ⟨u, hu, -⟩ := SortedSet.score_foldl_raise.mp hr
    exact ⟨u, (SortedSet.score_removeUpTo.mp hu).1⟩
  | counted user clock hcl =>
    refine h.withSets clock _ s.renewed fun name conn r hr => .inl (Placed.held_of_shrinking ?_ hr)
    exact fun conn r hr => ⟨r, (SortedSet.score_removeUpTo.mp hr).1⟩

structure Gone (s : State) (user conn : String) : Prop where
  issued : conn ∈ s.issued.map (·.connectionId)
  decided : ¬Waiting s conn
  absent : (s.sets.read (nowMs s.clock) user).score conn = none

theorem step_waiting (ht : step cfg s e = some t) (his : conn ∈ s.issued.map (·.connectionId))
    (h : Waiting t conn) : Waiting s conn := by
  cases step_moved ht with
  | tried q hub session slot hq hf =>
    obtain ⟨i, hub', session', other, hi, hc⟩ := h
    rcases lookup_insert_iff.mp hi with ⟨-, hca⟩ | ⟨-, hold⟩
    · cases hca
      exact absurd (hc ▸ his) hf
    · exact ⟨i, hub', session', other, hold, hc⟩
  | admitted | refused | unregistered | snapshot | renewed =>
    exact Placed.waiting_erase (Placed.waiting_insert (by simp) h)
  | registered | turnedAway | released | failed => exact Placed.waiting_erase h
  | unknown | counted => exact h

theorem step_issued (ht : step cfg s e = some t) (h : conn ∈ s.issued.map (·.connectionId)) :
    conn ∈ t.issued.map (·.connectionId) := by
  cases step_moved ht with
  | tried => exact mem_cons_of_mem _ h
  | _ => exact h

theorem score_read_update {other : String}
    (h : ((sets.update now user script).read now other).score conn = some r) :
    (other = user ∧ (script (sets.read now user)).score conn = some r) ∨
      (sets.read now other).score conn = some r := by
  by_cases heq : other = user
  · have hh := held_of_score_read h
    exact .inl ((held_update.mp hh).resolve_right fun ho => ho.1 heq)
  · right
    rw [Keyspace.read, Registry.update, Keyspace.lookup_write_of_ne heq] at h
    exact h

variable {clock : ℤ}

theorem Gone.update (h : Gone s user conn) (hc : s.clock ≤ clock) {name : String}
    (hs : ∀ r, (script (s.sets.read (nowMs clock) name)).score conn = some r →
      ∃ u, (s.sets.read (nowMs clock) name).score conn = some u) :
    ((s.sets.update (nowMs clock) name script).read (nowMs clock) user).score conn = none := by
  have he : ∀ u, (s.sets.read (nowMs clock) user).score conn ≠ some u := fun u hu => by
    have hre := Keyspace.score_read_of_later (nowMs_mono hc) hu
    rw [h.absent] at hre
    cases hre
  rw [eq_none_iff_forall_ne_some]
  intro r hr
  rcases score_read_update hr with ⟨rfl, hsc⟩ | hold
  · obtain ⟨u, hu⟩ := hs r hsc
    exact he u hu
  · exact he r hold

/-- Nothing brings a connection back into the set. -/
theorem step_gone (s : State) (e : Event) (t : State) (h : Gone s user conn)
    (ht : step cfg s e = some t) : Gone t user conn := by
  refine ⟨step_issued ht h.issued,
    fun hw => h.decided (step_waiting ht h.issued hw), ?_⟩
  cases step_moved ht with
  | admitted q hub session slot clock hca hc hro =>
    refine h.update hc fun r hr => ?_
    rw [SortedSet.score_expire] at hr
    rcases SortedSet.score_add.mp hr with ⟨rfl, -⟩ | ⟨-, hk⟩
    · exact absurd ⟨q, hub, session, slot, hca, rfl⟩ h.decided
    · exact ⟨r, (SortedSet.score_removeUpTo.mp hk).1⟩
  | refused _ _ _ _ _ _ hc | counted _ _ hc =>
    exact h.update hc fun r hr => ⟨r, (SortedSet.score_removeUpTo.mp hr).1⟩
  | released _ _ _ _ hc =>
    exact h.update hc fun r hr => ⟨r, (SortedSet.score_remove.mp hr).2⟩
  | renewed _ _ _ _ _ _ hc =>
    refine h.update hc fun r hr => ?_
    rw [SortedSet.score_expire] at hr
    obtain ⟨u, hu, -⟩ := SortedSet.score_foldl_raise.mp hr
    exact ⟨u, (SortedSet.score_removeUpTo.mp hu).1⟩
  | tried | registered | turnedAway | unregistered | unknown | snapshot | failed => exact h.absent

variable {q : ℕ} {slot : Slot}

theorem gone_of_released (h : Placed s) (hca : s.calls.lookup q = some (.releasing slot))
    (ht : step cfg s (.release q clock) = some t) : Gone t slot.userId slot.connectionId := by
  obtain ⟨his, hc, -⟩ := h.of_call hca rfl
  refine ⟨step_issued ht (mem_map_of_mem his), fun hw => ?_, ?_⟩
  · obtain ⟨i, hub, session, other, hi, hco⟩ :=
      step_waiting ht (mem_map_of_mem his) hw
    by_cases hiq : i = q
    · subst hiq
      rw [hca] at hi
      cases hi
    · exact hc i _ other hiq hi rfl hco.symm
  · cases step_moved ht with
    | released _ other _ ho _ =>
      obtain rfl : slot = other := by
        rw [hca] at ho
        exact (Call.releasing.injEq _ _ ▸ some.inj ho)
      rw [eq_none_iff_forall_ne_some]
      intro r hr
      have hh := held_of_score_read hr
      rcases held_update.mp hh with ⟨-, hs⟩ | ⟨hne, -⟩
      · exact (SortedSet.score_remove.mp hs).1 rfl
      · exact hne rfl

/-- Scores are times that have passed, and a set expires no earlier than its entries age out. -/
structure Timed (cfg : Config) (sets : Registry) (now : ℤ) : Prop where
  past : ∀ user conn r, held sets user conn = some r → r ≤ now
  expiry : ∀ user set at_, sets.lookup user = some set → set.expireAt = some at_ →
    ∀ conn r, set.score conn = some r → r + cfg.ttlMs ≤ at_

variable {later : ℤ}

section

variable (h : Timed cfg sets now)
include h

theorem Timed.mono (hle : now ≤ later) : Timed cfg sets later :=
  ⟨fun user conn r hr => le_trans (h.past user conn r hr) hle, h.expiry⟩

theorem Timed.update (hp : ∀ conn r, (script (sets.read now user)).score conn = some r → r ≤ now)
    (hexpiry : (script (sets.read now user)).expireAt = some (now + cfg.ttlMs) ∨
      (script (sets.read now user)).expireAt = (sets.read now user).expireAt ∧
      ∀ conn r, (script (sets.read now user)).score conn = some r →
      (sets.read now user).score conn = some r) :
    Timed cfg (sets.update now user script) now := by
  refine ⟨fun other conn r hr => ?_, fun other set at_ hset hat conn r hr => ?_⟩
  · rcases held_update.mp hr with ⟨-, hs⟩ | ⟨-, hold⟩
    · exact hp conn r hs
    · exact h.past other conn r hold
  · rw [Registry.update] at hset
    by_cases heq : other = user
    · subst heq
      obtain ⟨rfl, -⟩ := Keyspace.lookup_write.mp hset
      rcases hexpiry with hnew | ⟨hsa, hsub⟩
      · rw [hnew] at hat
        cases hat
        have hle := hp conn r hr
        omega
      · have hre := hsub conn r hr
        exact h.expiry other _ at_ (Keyspace.lookup_of_score_read hre) (hsa ▸ hat) conn r hre
    · rw [Keyspace.lookup_write_of_ne heq] at hset
      exact h.expiry other set at_ hset hat conn r hr

/-- An entry that has not aged out can be read. -/
theorem Timed.score_read (hh : held sets user conn = some r) (hy : later < r + cfg.ttlMs) :
    (sets.read later user).score conn = some r := by
  obtain ⟨set, hset, hs⟩ := held_eq_some.mp hh
  rw [Keyspace.read_eq_of_lookup hset fun at_ hat => ?_]
  · exact hs
  · have hl := h.expiry user set at_ hset hat conn r hs
    omega

theorem Timed.renew (user : String) (conns : List String) :
    Timed cfg (sets.update now user fun set =>
      (conns.foldl (fun set conn => set.raise conn now)
        (set.removeUpTo (now - cfg.ttlMs))).expire (now + cfg.ttlMs)) now := by
  refine h.update (fun conn r hr => ?_) (.inl rfl)
  rw [SortedSet.score_expire] at hr
  obtain ⟨u, hu, rfl⟩ := SortedSet.score_foldl_raise.mp hr
  have hp := h.past user conn u (held_of_score_read (SortedSet.score_removeUpTo.mp hu).1)
  split_ifs <;> omega

theorem Timed.evict (user : String) (bound : ℤ) :
    Timed cfg (sets.update now user fun set => set.removeUpTo bound) now := by
  refine h.update (fun conn r hr => ?_) (.inr ⟨rfl, fun conn r hr => ?_⟩)
  · exact h.past user conn r (held_of_score_read (SortedSet.score_removeUpTo.mp hr).1)
  · exact (SortedSet.score_removeUpTo.mp hr).1

theorem Timed.letIn (user conn : String) :
    Timed cfg (sets.update now user fun set =>
      ((set.removeUpTo (now - cfg.ttlMs)).add conn now).expire (now + cfg.ttlMs)) now := by
  refine h.update (fun other r hr => ?_) (.inl rfl)
  rw [SortedSet.score_expire] at hr
  rcases SortedSet.score_add.mp hr with ⟨-, rfl⟩ | ⟨-, hk⟩
  · exact le_rfl
  · exact h.past user other r (held_of_score_read (SortedSet.score_removeUpTo.mp hk).1)

theorem Timed.remove (user conn : String) :
    Timed cfg (sets.update now user fun set => set.remove conn) now := by
  refine h.update (fun other r hr => ?_) (.inr ⟨rfl, fun other r hr => ?_⟩)
  · exact h.past user other r (held_of_score_read (SortedSet.score_remove.mp hr).2)
  · exact (SortedSet.score_remove.mp hr).2

end

theorem step_timed (s : State) (e : Event) (t : State) (h : Timed cfg s.sets (nowMs s.clock))
    (ht : step cfg s e = some t) : Timed cfg t.sets (nowMs t.clock) := by
  cases step_moved ht with
  | admitted _ _ _ _ _ _ hc => exact (h.mono (nowMs_mono hc)).letIn _ _
  | refused _ _ _ _ _ _ hc | counted _ _ hc =>
    exact (h.mono (nowMs_mono hc)).evict _ _
  | released _ _ _ _ hc => exact (h.mono (nowMs_mono hc)).remove _ _
  | renewed _ _ _ _ _ _ hc => exact (h.mono (nowMs_mono hc)).renew _ _
  | tried | registered | turnedAway | unregistered | unknown | snapshot | failed => exact h

/-- Whenever the registry is used, the connection was renewed less than its lifetime ago. -/
def Timely (cfg : Config) (conn : String) (s : State) (e : Event) : Prop :=
  ∀ clock ∈ e.clock?, ∀ last ∈ s.renewed.lookup conn, nowMs clock < nowMs last + cfg.ttlMs

instance (cfg : Config) (conn : String) (s : State) (e : Event) :
    Decidable (Timely cfg conn s e) :=
  inferInstanceAs (Decidable (∀ clock ∈ e.clock?, ∀ last ∈ s.renewed.lookup conn,
    nowMs clock < nowMs last + cfg.ttlMs))

def Holds (s : State) (slot : Slot) : Prop :=
  (∃ k, s.slots.lookup k = some slot) ∨
    ∃ q hub session, s.calls.lookup q = some (.answered hub session slot true)

def Present (s : State) (conn : String) : Prop :=
  ∀ slot, slot.connectionId = conn → Holds s slot →
    ∃ last, s.renewed.lookup conn = some last ∧ held s.sets slot.userId conn = some (nowMs last)

theorem holds_erase (h : Holds { s with calls := s.calls.erase q } slot) :
    Holds s slot := by
  rcases h with hs | ⟨i, hub, session, hi⟩
  · exact .inl hs
  · exact .inr ⟨i, hub, session, (lookup_erase_iff.mp hi).2⟩

theorem holds_insert {call : Call} (hc : ∀ hub session, call ≠ .answered hub session slot true)
    (h : Holds { s with calls := s.calls.insert q call } slot) :
    Holds { s with calls := s.calls.erase q } slot := by
  rcases h with hs | ⟨i, hub, session, hi⟩
  · exact .inl hs
  · rcases lookup_insert_iff.mp hi with ⟨-, rfl⟩ | ⟨hne, hold⟩
    · exact absurd rfl (hc hub session)
    · exact .inr ⟨i, hub, session, lookup_erase_iff.mpr ⟨hne, hold⟩⟩

/-- What is held while another call goes on is about another connection. -/
theorem Placed.ne_of_holds (h : Placed s) {call : Call} {other : Slot}
    (hca : s.calls.lookup q = some call) (hsl : call.slot? = some slot)
    (ho : Holds { s with calls := s.calls.erase q } other) :
    other.connectionId ≠ slot.connectionId := by
  obtain ⟨-, hc, hs⟩ := h.of_call hca hsl
  rcases ho with ⟨k, hk⟩ | ⟨i, hub, session, hi⟩
  · exact hs k other hk
  · obtain ⟨hne, hi⟩ := lookup_erase_iff.mp hi
    exact (hc i _ other hne hi rfl).symm

theorem Placed.issued_of_holds (h : Placed s) (hs : Holds s slot) :
    slot ∈ s.issued := by
  rcases hs with ⟨k, hk⟩ | ⟨i, hub, session, hi⟩
  · exact h.slots k slot hk
  · exact h.calls i _ slot hi rfl

theorem Timed.held_update (h : Timed cfg sets now) {name : String}
    (hh : held sets user conn = some r) (hy : later < r + cfg.ttlMs)
    (hs : (sets.read later name).score conn = some r →
      (script (sets.read later name)).score conn = some r) :
    held (sets.update later name script) user conn = some r := by
  rw [ConnectionCap.held_update]
  by_cases heq : user = name
  · subst heq
    exact .inl ⟨rfl, hs (h.score_read hh hy)⟩
  · exact .inr ⟨heq, hh⟩

theorem lookup_foldl_insert {conns : List String} {times : AList fun _ : String => ℤ} :
    (conns.foldl (fun times conn => times.insert conn clock) times).lookup conn =
      if conn ∈ conns then some clock else times.lookup conn := by
  induction conns generalizing times with
  | nil => simp
  | cons other conns ih =>
    rw [foldl_cons, ih]
    by_cases hmem : conn ∈ conns
    · simp [hmem]
    · by_cases heq : conn = other
      · subst heq
        simp [hmem]
      · simp [hmem, heq]

/-- The entry of a connection outlasts an eviction while it is renewed in time. -/
theorem score_evicted {set : SortedSet String} (hs : set.score conn = some r)
    (hy : now < r + cfg.ttlMs) :
    (set.removeUpTo (now - cfg.ttlMs)).score conn = some r :=
  SortedSet.score_removeUpTo.mpr ⟨hs, by omega⟩

/-- A renewal in time keeps the connection in its set. -/
theorem step_present (hp : Placed s) (htm : Timed cfg s.sets (nowMs s.clock))
    (h : Present s conn) (hti : Timely cfg conn s e) (ht : step cfg s e = some t) :
    Present t conn := by
  intro slot hc hsl
  subst hc
  cases step_moved ht with
  | tried q hub session other hq hf =>
    exact h slot rfl (holds_erase (holds_insert (by simp) hsl))
  | admitted q hub session other clock hca hcl hr =>
    by_cases hsa : slot = other
    · subst hsa
      refine ⟨clock, AList.lookup_insert _, held_update.mpr (.inl ⟨rfl, ?_⟩)⟩
      rw [SortedSet.score_expire]
      exact SortedSet.score_add.mpr (.inl ⟨rfl, rfl⟩)
    · have hold := holds_insert (by simpa using Ne.symm hsa) hsl
      have hne := hp.ne_of_holds hca rfl hold
      obtain ⟨last, hla, hh⟩ := h slot rfl (holds_erase hold)
      have hy := hti clock rfl last hla
      refine ⟨last, ?_, htm.held_update hh hy fun hs => ?_⟩
      · simp only
        rw [AList.lookup_insert_ne hne]
        exact hla
      · rw [SortedSet.score_expire]
        exact SortedSet.score_add.mpr (.inr ⟨hne, score_evicted hs hy⟩)
  | refused q hub session other clock hca hcl =>
    obtain ⟨last, hla, hh⟩ := h slot rfl (holds_erase (holds_insert (by simp) hsl))
    have hy := hti clock rfl last hla
    exact ⟨last, hla, htm.held_update hh hy fun hs => score_evicted hs hy⟩
  | registered q hub session other hca =>
    rcases hsl with ⟨k, hk⟩ | ⟨i, hub', session', hi⟩
    · rcases lookup_insert_iff.mp hk with ⟨-, rfl⟩ | ⟨-, hold⟩
      · exact h _ rfl (.inr ⟨q, hub, session, hca⟩)
      · exact h slot rfl (.inl ⟨k, hold⟩)
    · exact h slot rfl (.inr ⟨i, hub', session', (lookup_erase_iff.mp hi).2⟩)
  | turnedAway | failed => exact h slot rfl (holds_erase hsl)
  | unregistered q hub session other hq ho =>
    rcases hsl with ⟨k, hk⟩ | ⟨i, hub', session', hi⟩
    · exact h slot rfl (.inl ⟨k, (lookup_erase_iff.mp hk).2⟩)
    · rcases lookup_insert_iff.mp hi with ⟨-, hca⟩ | ⟨-, hold⟩
      · cases hca
      · exact h slot rfl (.inr ⟨i, hub', session', hold⟩)
  | unknown => exact h slot rfl hsl
  | released q other clock hca hcl =>
    have hne := hp.ne_of_holds hca rfl hsl
    obtain ⟨last, hla, hh⟩ := h slot rfl (holds_erase hsl)
    exact ⟨last, hla, htm.held_update hh (hti clock rfl last hla) fun hs =>
      SortedSet.score_remove.mpr ⟨hne, hs⟩⟩
  | snapshot => exact h slot rfl (holds_erase (holds_insert (by simp) hsl))
  | renewed q user conns rest clock hca hcl =>
    have hold := holds_erase (holds_insert (by simp) hsl)
    obtain ⟨last, hla, hh⟩ := h slot rfl hold
    have hy := hti clock rfl last hla
    simp only [lookup_foldl_insert]
    by_cases hmem : slot.connectionId ∈ conns
    · have he := hp.entries q _ hca user conns mem_cons_self _ hmem
      have hu : slot.userId = user := congrArg Slot.userId
        (hp.slot_eq (hp.issued_of_holds hold) he rfl)
      have hpa := htm.past _ _ _ hh
      have hl := nowMs_mono hcl
      refine ⟨clock, if_pos hmem, held_update.mpr (.inl ⟨hu, ?_⟩)⟩
      rw [SortedSet.score_expire]
      refine SortedSet.score_foldl_raise.mpr ⟨nowMs last,
        score_evicted (hu ▸ htm.score_read hh hy) hy, ?_⟩
      rw [if_pos hmem]
      omega
    · refine ⟨last, by rw [if_neg hmem, hla], htm.held_update hh hy fun hs => ?_⟩
      rw [SortedSet.score_expire]
      exact SortedSet.score_foldl_raise.mpr
        ⟨nowMs last, score_evicted hs hy, (if_neg hmem).symm⟩
  | counted user clock hcl =>
    obtain ⟨last, hla, hh⟩ := h slot rfl hsl
    have hy := hti clock rfl last hla
    exact ⟨last, hla, htm.held_update hh hy fun hs => score_evicted hs hy⟩

theorem Placed.decided_of_read (h : Placed s) (hr : (s.sets.read now user).score conn = some r) :
    conn ∈ s.issued.map (·.connectionId) ∧ ¬Waiting s conn := by
  obtain ⟨hi, hnot⟩ := h.stored user conn r (held_of_score_read hr)
  exact ⟨mem_map.mpr ⟨_, hi, rfl⟩, hnot⟩

theorem gone_of_late_renewal (h : Placed s) {conns : List String}
    {rest : List (String × List String)}
    (hca : s.calls.lookup q = some (.renewing ((user, conns) :: rest)))
    (hr : (s.sets.read (nowMs s.clock) user).score conn = some r)
    (hl : r ≤ nowMs clock - cfg.ttlMs) (ht : step cfg s (.renew q clock) = some t) :
    Gone t user conn := by
  obtain ⟨hi, hnot⟩ := h.decided_of_read hr
  refine ⟨step_issued ht hi, fun hw => hnot (step_waiting ht hi hw), ?_⟩
  cases step_moved ht with
  | renewed _ name names left _ ho hc =>
    obtain ⟨⟨rfl, rfl⟩, rfl⟩ : (user = name ∧ conns = names) ∧ rest = left := by
      simpa using hca.symm.trans ho
    rw [eq_none_iff_forall_ne_some]
    intro v hv
    rcases held_update.mp (held_of_score_read hv) with ⟨-, hs⟩ | ⟨hne, -⟩
    · rw [SortedSet.score_expire] at hs
      obtain ⟨u, hu, -⟩ := SortedSet.score_foldl_raise.mp hs
      obtain ⟨hu, hy⟩ := SortedSet.score_removeUpTo.mp hu
      have heq := Keyspace.score_read_of_later (nowMs_mono hc) hu
      rw [hr, some.injEq] at heq
      omega
    · exact hne rfl

variable {es : List Event}

theorem run_gone (hrun : run (step cfg) s es = some t) (h : Gone s user conn)
    (hnow : t.clock ≤ now) :
    (t.sets.read (nowMs now) user).score conn = none := by
  have hg : Gone t user conn := run_invariant_of_step step_gone hrun h
  rw [eq_none_iff_forall_ne_some]
  intro r hr
  have hre := Keyspace.score_read_of_later (nowMs_mono hnow) hr
  rw [hg.absent] at hre
  cases hre

theorem run_decided (hrun : run (step cfg) s es = some t)
    (h : conn ∈ s.issued.map (·.connectionId) ∧ ¬Waiting s conn) :
    conn ∈ t.issued.map (·.connectionId) ∧ ¬Waiting t conn := by
  have hst : ∀ (s : State) (e : Event) (t : State),
      conn ∈ s.issued.map (·.connectionId) ∧ ¬Waiting s conn → step cfg s e = some t →
        conn ∈ t.issued.map (·.connectionId) ∧ ¬Waiting t conn :=
    fun s e t hs ht => ⟨step_issued ht hs.1, fun hw => hs.2 (step_waiting ht hs.1 hw)⟩
  exact run_invariant_of_step hst hrun h

theorem run_placed (hrun : run (step cfg) (State.init clock) es = some s) : Placed s :=
  run_invariant_of_step step_placed hrun (Placed.init clock)

theorem run_capped (hrun : run (step cfg) (State.init clock) es = some s) : Capped cfg s.sets :=
  run_invariant_of_step step_capped hrun (fun user set hset => by simp [State.init] at hset)

/-- A connection renewed in time throughout a run stays in its set. -/
theorem run_present (hg : Guarded (step cfg) (Timely cfg conn) (State.init clock) es)
    (hrun : run (step cfg) (State.init clock) es = some s) :
    Timed cfg s.sets (nowMs s.clock) ∧ Present s conn := by
  have hi : Placed (State.init clock) ∧
      Timed cfg (State.init clock).sets (nowMs (State.init clock).clock) ∧
        Present (State.init clock) conn := by
    refine ⟨Placed.init clock, ⟨?_, ?_⟩, ?_⟩
    · simp [State.init, held]
    · simp [State.init]
    · rintro slot - (⟨k, hk⟩ | ⟨q, hub, session, hq⟩)
      · simp [State.init] at hk
      · simp [State.init] at hq
  have hs : ∀ (s : State) (e : Event) (t : State),
      Placed s ∧ Timed cfg s.sets (nowMs s.clock) ∧ Present s conn → Timely cfg conn s e →
        step cfg s e = some t → Placed t ∧ Timed cfg t.sets (nowMs t.clock) ∧ Present t conn :=
    fun s e t h hok ht => ⟨step_placed s e t h.1 ht, step_timed s e t h.2.1 ht,
      step_present h.1 h.2.1 h.2.2 hok ht⟩
  exact (run_invariant hs hg hrun hi).2

end Machine

/-- In every run the sets keep the cap, what has been released or has left its set stays out, also
through its own late renewal, and a registered connection renewed in time is in its set. -/
theorem cap_holds_across_hubs (cfg : Config) (clock : ℤ) (es : List Event) (s : State)
    (hrun : run (step cfg) (State.init clock) es = some s) :
    (∀ user now, ((s.sets.read now user).card : ℤ) ≤ max cfg.maxConnections 0) ∧
    (∀ q slot, s.calls.lookup q = some (.releasing slot) →
      ∀ at_ t, step cfg s (.release q at_) = some t →
        ∀ fs u, run (step cfg) t fs = some u → ∀ now, u.clock ≤ now →
          (u.sets.read (nowMs now) slot.userId).score slot.connectionId = none) ∧
    (∀ user conn r, (s.sets.read (nowMs s.clock) user).score conn = some r →
      (∀ q conns rest, s.calls.lookup q = some (.renewing ((user, conns) :: rest)) →
        ∀ at_, r ≤ nowMs at_ - cfg.ttlMs → ∀ t, step cfg s (.renew q at_) = some t →
          ∀ fs u, run (step cfg) t fs = some u → ∀ now, u.clock ≤ now →
            (u.sets.read (nowMs now) user).score conn = none) ∧
      ∀ fs t, run (step cfg) s fs = some t →
        (t.sets.read (nowMs t.clock) user).score conn = none →
          ∀ gs u, run (step cfg) t gs = some u → ∀ now, u.clock ≤ now →
            (u.sets.read (nowMs now) user).score conn = none) ∧
    ∀ k slot, s.slots.lookup k = some slot →
      Guarded (step cfg) (Timely cfg slot.connectionId) (State.init clock) es →
        ∃ last, s.renewed.lookup slot.connectionId = some last ∧
          ∀ now, nowMs now < nowMs last + cfg.ttlMs →
            (s.sets.read (nowMs now) slot.userId).score slot.connectionId = some (nowMs last) := by
  have hp := run_placed hrun
  refine ⟨fun user now => ?_, fun q slot hca at_ t ht fs u hu now hnow => ?_,
    fun user conn r hr => ⟨fun q conns rest hca at_ hl t ht fs u hu now hnow => ?_,
      fun fs t ht ha gs u hu now hnow => ?_⟩, fun k slot hs hg => ?_⟩
  · have hc := (run_capped hrun).card_read user now
    omega
  · exact run_gone hu (gone_of_released hp hca ht) hnow
  · exact run_gone hu (gone_of_late_renewal hp hca hr hl ht) hnow
  · obtain ⟨hi, hd⟩ := run_decided ht (hp.decided_of_read hr)
    exact run_gone hu ⟨hi, hd, ha⟩ hnow
  · obtain ⟨hti, hpr⟩ := run_present hg hrun
    obtain ⟨last, hla, hh⟩ := hpr slot rfl (.inl ⟨k, hs⟩)
    exact ⟨last, hla, fun now hy => hti.score_read hh hy⟩

private def oneTab : Config := ⟨1, 2⟩

private def tab : Slot := ⟨"user", "tab"⟩

private def spare : Slot := ⟨"user", "spare"⟩

private def renewedTab : List Event :=
  [.tryRegister 0 0 0 tab, .acquire 0 0, .registered 0, .renewOnce 1 0, .renew 1 1500000,
    .tryRegister 2 1 0 spare, .acquire 2 3000000, .registered 2]

private def closedTab : List Event := renewedTab ++ [.renewOnce 3 0, .unregister 4 0 0]

theorem renewed_tab_is_kept_and_closed_tab_is_not :
    (∃ s, run (step oneTab) (State.init 0) renewedTab = some s ∧
      ∃ last, s.renewed.lookup "tab" = some last ∧
        ∀ now, nowMs now < nowMs last + 2000 →
          (s.sets.read (nowMs now) "user").score "tab" = some (nowMs last)) ∧
    ∃ t u, run (step oneTab) (State.init 0) closedTab = some t ∧
      run (step oneTab) t [.release 4 3100000, .renew 3 3200000] = some u ∧
      ∀ now, u.clock ≤ now → (u.sets.read (nowMs now) "user").score "tab" = none := by
  constructor
  · obtain ⟨s, hs, hsl⟩ := exists_run_of_any
      (p := fun s : State => decide (s.slots.lookup (0, 0) = some tab))
      (show (run (step oneTab) (State.init 0) renewedTab).any _ = true by decide +kernel)
    obtain ⟨-, -, -, hk⟩ := cap_holds_across_hubs oneTab 0 renewedTab s hs
    exact ⟨s, hs, hk (0, 0) tab (of_decide_eq_true hsl) (by decide +kernel)⟩
  · obtain ⟨t, ht, hc⟩ := exists_run_of_any
      (p := fun s : State => decide (s.calls.lookup 4 = some (.releasing tab)))
      (show (run (step oneTab) (State.init 0) closedTab).any _ = true by decide +kernel)
    obtain ⟨u, hu, -⟩ := exists_run_of_any (p := fun _ : State => true)
      (show (run (step oneTab) (State.init 0)
        (closedTab ++ [.release 4 3100000, .renew 3 3200000])).any _ = true by decide +kernel)
    rw [run_append ht] at hu
    obtain ⟨v, hv, hre⟩ := run_cons_eq_some hu
    obtain ⟨-, hr, -⟩ := cap_holds_across_hubs oneTab 0 closedTab t ht
    exact ⟨t, u, ht, hu, hr 4 tab (of_decide_eq_true hc) _ v hv _ u hre⟩

/-- Renewals exactly one lifetime apart come too late: the second evicts the connection first. -/
theorem renewal_after_a_whole_lifetime_evicts :
    ¬∀ (cfg : Config) (clock : ℤ) (es : List Event) (s : State) (k : ℕ × ℕ) (slot : Slot),
      run (step cfg) (State.init clock) es = some s →
      Guarded (step cfg) (fun s e => ∀ clock ∈ e.clock?,
        ∀ last ∈ s.renewed.lookup slot.connectionId, clock ≤ last + cfg.entryTtlS * 1000000)
        (State.init clock) es →
      s.slots.lookup k = some slot →
      ∃ r, (s.sets.read (nowMs s.clock) slot.userId).score slot.connectionId = some r := by
  intro h
  obtain ⟨s, hs, ht⟩ := exists_run_of_any
    (p := fun s : State => decide (s.slots.lookup (0, 0) = some tab) &&
      decide ((s.sets.read (nowMs s.clock) "user").score "tab" = none))
    (show (run (step oneTab) (State.init 0) [.tryRegister 0 0 0 tab, .acquire 0 0, .registered 0,
      .renewOnce 1 0, .renew 1 2000000]).any _ = true by decide +kernel)
  simp only [Bool.and_eq_true, decide_eq_true_eq] at ht
  obtain ⟨r, hr⟩ := h oneTab 0 _ s (0, 0) tab hs (by decide +kernel) ht.1
  exact absurd (ht.2.symm.trans hr) (by simp)

end Aizzak.ConnectionCap
