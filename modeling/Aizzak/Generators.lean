import Mathlib

/-!
Generators that end. What a generator does when it is resumed is worked out already, state and
all; a consumer that stops pulling does not come to see it. A generator that wraps another one
keeps a record of its own.
-/
namespace Aizzak.Generators

/-- A generator, with the state at each of its events and at its return. -/
inductive Generator (S E : Type*) where
  | returned (state : S)
  | yielded (state : S) (event : E) (resumed : Generator S E)

variable {S R E : Type*}

namespace Generator

def drain : Generator S E → List E × S
  | returned state => ([], state)
  | yielded _ event resumed => (event :: resumed.drain.1, resumed.drain.2)

def readUntil (stop : E → Bool) : Generator S E → List E × S
  | returned state => ([], state)
  | yielded state event resumed =>
    if stop event then ([event], state)
    else (event :: (resumed.readUntil stop).1, (resumed.readUntil stop).2)

/-- The generator that passes the events of another one on, and what it records of them. -/
def relay (onEvent : E → R → R) (onReturn : R → R) (record : R) :
    Generator S E → Generator (S × R) E
  | returned state => returned (state, onReturn record)
  | yielded state event resumed =>
    yielded (state, onEvent event record) event
      (resumed.relay onEvent onReturn (onEvent event record))

def after (front : List (S × E)) (g : Generator S E) : Generator S E :=
  front.foldr (fun entry g => yielded entry.1 entry.2 g) g

end Generator

open Generator

variable {onEvent : E → R → R} {onReturn : R → R} {record : R} {stop : E → Bool}
  {front : List (S × E)}

theorem drain_after (front : List (S × E)) (g : Generator S E) :
    (g.after front).drain = (front.map Prod.snd ++ g.drain.1, g.drain.2) := by
  induction front with
  | nil => rfl
  | cons entry front ih =>
    rw [after] at ih
    rw [after, List.foldr_cons, drain, ih]
    rfl

theorem readUntil_after (hf : ∀ entry ∈ front, stop entry.2 = false) (g : Generator S E) :
    (g.after front).readUntil stop =
      (front.map Prod.snd ++ (g.readUntil stop).1, (g.readUntil stop).2) := by
  induction front with
  | nil => rfl
  | cons entry front ih =>
    rw [List.forall_mem_cons] at hf
    have hr := ih hf.2
    rw [after] at hr
    rw [after, List.foldr_cons, readUntil, hr, if_neg (by simp [hf.1])]
    rfl

/-- The consumer stops inside a front that has an event to stop at. -/
theorem readUntil_after_of_stop (hf : ∃ entry ∈ front, stop entry.2 = true)
    (g : Generator S E) : ∃ entry ∈ front, ((g.after front).readUntil stop).2 = entry.1 := by
  induction front with
  | nil => simp at hf
  | cons entry front ih =>
    rw [after] at ih
    rw [after, List.foldr_cons, readUntil]
    by_cases hs : stop entry.2 = true
    · exact ⟨entry, List.mem_cons_self, by rw [if_pos hs]⟩
    · obtain ⟨found, hfound, hst⟩ := hf
      rcases List.mem_cons.mp hfound with rfl | hmem
      · exact absurd hst hs
      · obtain ⟨last, hl, heq⟩ := ih ⟨found, hmem, hst⟩
        exact ⟨last, List.mem_cons_of_mem _ hl, by rw [if_neg hs, heq]⟩

/-- What happens before a generator is relayed first. -/
theorem relay_after (hf : ∀ entry ∈ front, onEvent entry.2 record = record)
    (g : Generator S E) :
    (g.after front).relay onEvent onReturn record =
      (g.relay onEvent onReturn record).after
        (front.map fun entry => ((entry.1, record), entry.2)) := by
  induction front with
  | nil => rfl
  | cons entry front ih =>
    rw [List.forall_mem_cons] at hf
    have hr := ih hf.2
    rw [after, after] at hr
    rw [after, List.foldr_cons, relay, hf.1, hr]
    rfl

theorem drain_relay (record : R) (g : Generator S E) :
    (g.relay onEvent onReturn record).drain =
      (g.drain.1, g.drain.2,
        onReturn (g.drain.1.foldl (fun record event => onEvent event record) record)) := by
  induction g generalizing record with
  | returned state => rfl
  | yielded state event resumed ih =>
    rw [relay, drain, ih]
    rfl

end Aizzak.Generators
