import Aizzak.EmbeddingBatcher
import Aizzak.PyText

/-!
What the batcher folds together and what each caller gets back. Requests are taken from the queue
while the texts taken so far are below the cap, so the last one taken may carry a batch over it.
The result of a batch is cut into the slices of its requests.
-/
namespace Aizzak.BatchCoalescing

open EmbeddingBatcher EventRuns KeyedTables PyText List

def charsPerToken : ℕ := 4

/-- The model: its vectors, and the rows of the attention mask where it has a tokenizer. -/
structure Encoder (V : Type) where
  encode : List Text → List V
  tokenize : Option (List Text → Option (List (List ℕ)))

variable {V : Type}

def estimate (text : Text) : ℕ := max 1 (text.length / charsPerToken)

def tokenCounts (model : Encoder V) (texts : List Text) : List ℕ :=
  match model.tokenize with
  | none => texts.map estimate
  | some tokenize =>
    match tokenize texts with
    | none => texts.map estimate
    | some mask => if mask.length = texts.length then mask.map List.sum else texts.map estimate

def encodeBatch (model : Encoder V) (texts : List Text) : List V × List ℕ :=
  (model.encode texts, tokenCounts model texts)

def textsOf (waiters : List (Waiter Text)) : List Text := waiters.flatMap (·.texts)

def encodes [DecidableEq V] (model : Encoder V) (s : State Text V) : Event Text V → Bool
  | .encoded vectors tokens =>
    match s.task with
    | .encoding waiters => (vectors, tokens) = encodeBatch model (textsOf waiters)
    | _ => true
  | .submit _ _ | .get | .wake | .encodeFails _ | .clientCancels _ | .shutdown | .taskCancelled
  | .close => true

def Encodes [DecidableEq V] (model : Encoder V) (s : State Text V) (e : Event Text V) : Prop :=
  encodes model s e = true

instance [DecidableEq V] (model : Encoder V) (s : State Text V) (e : Event Text V) :
    Decidable (Encodes model s e) :=
  inferInstanceAs (Decidable (_ = true))

def dispatched (cfg : Config) (s : State Text V) : Event Text V → Option (List (Waiter Text))
  | .get =>
    match s.lifespan, s.task, s.queue with
    | .serving, .getting, first :: rest =>
      let (taken, _, total) := drain cfg rest first.texts.length
      if total < cfg.maxTexts ∧ 0 < cfg.windowMs then none else some (first :: taken)
    | _, _, _ => none
  | .wake =>
    match s.lifespan, s.task with
    | .serving, .sleeping waiters total => some (waiters ++ (drain cfg s.queue total).1)
    | _, _ => none
  | .submit _ _ | .encoded _ _ | .encodeFails _ | .clientCancels _ | .shutdown | .taskCancelled
  | .close => none

def batches (cfg : Config) : State Text V → List (Event Text V) → List (List (Waiter Text))
  | _, [] => []
  | s, e :: es =>
    match step cfg s e with
    | none => []
    | some t => (dispatched cfg s e).toList ++ batches cfg t es

def arrival : Event Text V → List (Waiter Text)
  | .submit future texts => [⟨future, texts⟩]
  | .get | .wake | .encoded _ _ | .encodeFails _ | .clientCancels _ | .shutdown | .taskCancelled
  | .close => []

def arrivals (es : List (Event Text V)) : List (Waiter Text) := es.flatMap arrival

def size (waiters : List (Waiter Text)) : ℕ := (waiters.map (·.texts.length)).sum

def Bounded (cfg : Config) (batch : List (Waiter Text)) : Prop :=
  size batch ≤ cfg.maxTexts ∨ batch.length = 1

/-- No request that is taken brings the texts over the cap. -/
def fits (cfg : Config) : List (Waiter Text) → ℕ → Bool
  | [], _ => true
  | waiter :: rest, total =>
    if total < cfg.maxTexts then
      total + waiter.texts.length ≤ cfg.maxTexts && fits cfg rest (total + waiter.texts.length)
    else true

def drainFits (cfg : Config) (s : State Text V) : Event Text V → Bool
  | .get =>
    match s.lifespan, s.task, s.queue with
    | .serving, .getting, first :: rest => fits cfg rest first.texts.length
    | _, _, _ => true
  | .wake =>
    match s.lifespan, s.task with
    | .serving, .sleeping _ total => fits cfg s.queue total
    | _, _ => true
  | .submit _ _ | .encoded _ _ | .encodeFails _ | .clientCancels _ | .shutdown | .taskCancelled
  | .close => true

def DrainFits (cfg : Config) (s : State Text V) (e : Event Text V) : Prop :=
  drainFits cfg s e = true

instance (cfg : Config) (s : State Text V) (e : Event Text V) : Decidable (DrainFits cfg s e) :=
  inferInstanceAs (Decidable (_ = true))

section Drain

variable {cfg : Config}

theorem size_nil : size [] = 0 := rfl

theorem size_cons (waiter : Waiter Text) (waiters : List (Waiter Text)) :
    size (waiter :: waiters) = waiter.texts.length + size waiters := by
  rw [size, map_cons, sum_cons, size]

theorem size_append (xs ys : List (Waiter Text)) : size (xs ++ ys) = size xs + size ys := by
  rw [size, map_append, sum_append, size, size]

theorem drain_total (cfg : Config) (queue : List (Waiter Text)) (total : ℕ) :
    (drain cfg queue total).2.2 = total + size (drain cfg queue total).1 := by
  induction queue generalizing total with
  | nil => simp [drain, size]
  | cons waiter rest ih =>
    simp only [drain]
    split_ifs
    · simp only [ih, size_cons]
      omega
    · simp [size]

/-- What is taken fits exactly when it does not bring the texts over the cap. -/
theorem fits_iff (queue : List (Waiter Text)) (total : ℕ) :
    fits cfg queue total = true ↔
      (drain cfg queue total).1 = [] ∨ total + size (drain cfg queue total).1 ≤ cfg.maxTexts := by
  induction queue generalizing total with
  | nil => simp [fits, drain]
  | cons waiter rest ih =>
    simp only [fits, drain]
    split_ifs with hr
    · rw [Bool.and_eq_true, decide_eq_true_eq, ih, size_cons]
      constructor
      · rintro ⟨hcap, hn | hre⟩
        · right
          rw [hn, size_nil]
          omega
        · right
          omega
      · rintro (hn | hcap)
        · cases hn
        · exact ⟨by omega, Or.inr (by omega)⟩
    · simp

/-- A batch that is dispatched at once, or after the window. -/
theorem bounded_take_iff (first : Waiter Text) (rest : List (Waiter Text)) :
    Bounded cfg (first :: (drain cfg rest first.texts.length).1) ↔
      fits cfg rest first.texts.length = true := by
  rw [fits_iff, Bounded, size_cons, length_cons, Nat.add_eq_right, length_eq_zero_iff]
  exact or_comm

/-- What the task takes stays within the cap exactly when no request crosses it. -/
theorem bounded_collect_iff {waiters queue : List (Waiter Text)} (hw : waiters ≠ [])
    (hr : size waiters < cfg.maxTexts) :
    Bounded cfg (waiters ++ (drain cfg queue (size waiters)).1) ↔
      fits cfg queue (size waiters) = true := by
  rw [fits_iff, Bounded, size_append, length_append]
  have hl := length_pos_iff.mpr hw
  by_cases hn : (drain cfg queue (size waiters)).1 = []
  · rw [hn, size_nil]
    constructor
    · intro _
      exact Or.inl rfl
    · intro _
      left
      omega
  · have hm := length_pos_iff.mpr hn
    constructor
    · rintro (hcap | hone)
      · exact Or.inr hcap
      · omega
    · rintro (he | hcap)
      · exact absurd he hn
      · exact Or.inl hcap

end Drain

section Runs

variable {cfg : Config} {s t : State Text V} {e : Event Text V}

def waiting (s : State Text V) : List (Waiter Text) :=
  match s.task with
  | .sleeping waiters _ => waiters ++ s.queue
  | .getting | .encoding _ | .ended => s.queue

def Sleeps (cfg : Config) (s : State Text V) : Prop :=
  ∀ waiters total, s.task = .sleeping waiters total →
    waiters ≠ [] ∧ total = size waiters ∧ total < cfg.maxTexts

theorem task_dispatch_ne_sleeping (s : State Text V) (batch waiters : List (Waiter Text))
    (total : ℕ) : (s.dispatch batch).task ≠ .sleeping waiters total := by
  unfold State.dispatch
  split_ifs <;> simp

theorem waiting_dispatch (s : State Text V) (batch : List (Waiter Text)) :
    waiting (s.dispatch batch) = s.queue := by
  unfold State.dispatch
  split_ifs <;> rfl

/-- A task asleep on its window has room until it wakes. -/
theorem sleeps_step (hs : Sleeps cfg s) (h : step cfg s e = some t) : Sleeps cfg t := by
  cases e with
  | submit future texts =>
    simp only [step] at h
    split_ifs at h
    cases h
    exact hs
  | get =>
    simp only [step] at h
    split at h
    · rename_i first rest _ _ _
      cases h
      intro waiters total hsl
      simp only [State.take] at hsl
      split_ifs at hsl with hr
      · obtain ⟨rfl, rfl⟩ := Task.sleeping.inj hsl
        refine ⟨cons_ne_nil _ _, ?_, hr.1⟩
        rw [drain_total, size_cons]
      · exact absurd hsl (task_dispatch_ne_sleeping _ _ _ _)
    · cases h
  | wake =>
    simp only [step] at h
    split at h
    · cases h
      intro waiters total hsl
      exact absurd hsl (task_dispatch_ne_sleeping _ _ _ _)
    · cases h
  | encoded | encodeFails | taskCancelled | close =>
    simp only [step] at h
    split at h
    all_goals cases h
    all_goals
      intro waiters total hsl
      simp_all
  | clientCancels | shutdown =>
    simp only [step] at h
    split_ifs at h
    cases h
    exact hs

/-- What arrives is dispatched or waits, in the order it came. -/
theorem waiting_step (hse : s.lifespan = .serving) (h : step cfg s e = some t) :
    waiting s ++ arrival e = (dispatched cfg s e).toList.flatten ++ waiting t := by
  cases e with
  | submit future texts =>
    simp only [step] at h
    split_ifs at h
    cases h
    simp only [waiting, arrival, dispatched]
    split <;> simp
  | get =>
    simp only [step] at h
    split at h
    · rename_i first rest _ ht hq
      cases h
      have hsp := drain_append cfg rest first.texts.length
      have hb : waiting s = first :: rest := by
        simp [waiting, ht, hq]
      simp only [hb, arrival, dispatched, hse, ht, hq, append_nil,
        State.take]
      split_ifs
      · simp [waiting, hsp]
      · rw [waiting_dispatch]
        simp [hsp]
    · cases h
  | wake =>
    simp only [step] at h
    split at h
    · rename_i waiters total _ ht
      cases h
      have hsp := drain_append cfg s.queue total
      simp only [arrival, dispatched, hse, ht, State.collect, waiting_dispatch]
      simp [waiting, ht, hsp]
    · cases h
  | encoded | encodeFails =>
    simp only [step] at h
    split at h
    · rename_i ht
      cases h
      simp [waiting, arrival, dispatched, ht]
    · cases h
  | clientCancels | shutdown =>
    simp only [step] at h
    split_ifs at h
    cases h
    simp [waiting, arrival, dispatched]
  | taskCancelled | close =>
    simp only [step, hse] at h
    cases h

theorem lifespan_ne_serving_step (hst : s.lifespan ≠ .serving) (h : step cfg s e = some t) :
    t.lifespan ≠ .serving := by
  cases e with
  | submit | shutdown =>
    simp [step, hst] at h
  | clientCancels future =>
    simp only [step] at h
    split_ifs at h
    cases h
    exact hst
  | get | wake | encoded | encodeFails =>
    simp only [step] at h
    split at h
    · contradiction
    · cases h
  | taskCancelled | close =>
    simp only [step] at h
    split at h
    all_goals cases h
    all_goals simp_all

theorem dispatched_of_ne_serving (hst : s.lifespan ≠ .serving) :
    dispatched cfg s e = none := by
  cases e with
  | get | wake =>
    simp only [dispatched]
    split
    · contradiction
    · rfl
  | submit | encoded | encodeFails | clientCancels | shutdown | taskCancelled | close => rfl

theorem batches_of_ne_serving (hst : s.lifespan ≠ .serving) (es : List (Event Text V)) :
    batches cfg s es = [] := by
  induction es generalizing s with
  | nil => rfl
  | cons e es ih =>
    rw [batches]
    split
    · rfl
    · rename_i t ht
      rw [dispatched_of_ne_serving hst, ih (lifespan_ne_serving_step hst ht)]
      rfl

/-- The batches, one after the other, are the first requests in the order they came. -/
theorem prefix_flatten_batches (cfg : Config) (s : State Text V) (es : List (Event Text V)) :
    (batches cfg s es).flatten <+: waiting s ++ arrivals es := by
  induction es generalizing s with
  | nil => exact nil_prefix
  | cons e es ih =>
    by_cases hse : s.lifespan = .serving
    · rw [batches]
      split
      · exact nil_prefix
      · rename_i t ht
        have hsp := waiting_step hse ht
        rw [flatten_append, arrivals, flatMap_cons, ← append_assoc, hsp,
          append_assoc, prefix_append_right_inj]
        exact ih t
    · rw [batches_of_ne_serving hse]
      exact nil_prefix

theorem fits_of_room {queue : List (Waiter Text)} {total : ℕ}
    (hr : (drain cfg queue total).2.2 < cfg.maxTexts) : fits cfg queue total = true := by
  rw [drain_total] at hr
  rw [fits_iff]
  right
  omega

/-- What an event hands to the model is bounded exactly when each request it takes fits. -/
theorem bounded_dispatched_iff (hs : Sleeps cfg s) :
    (∀ batch, dispatched cfg s e = some batch → Bounded cfg batch) ↔ DrainFits cfg s e := by
  cases e with
  | submit | encoded | encodeFails | clientCancels | shutdown | taskCancelled | close =>
    simp [dispatched, DrainFits, drainFits]
  | get =>
    simp only [DrainFits, drainFits, dispatched]
    split
    · rename_i first rest _ _ _
      split_ifs with hr
      · have hf := fits_of_room hr.1
        simp [hf]
      · rw [← bounded_take_iff]
        simp
    · simp
  | wake =>
    simp only [DrainFits, drainFits, dispatched]
    split
    · rename_i waiters total _ ht
      obtain ⟨hw, rfl, hr⟩ := hs waiters total ht
      rw [← bounded_collect_iff hw hr]
      simp
    · simp

theorem bounded_batches_iff {es : List (Event Text V)} {u : State Text V} (hs : Sleeps cfg s)
    (hrun : run (step cfg) s es = some u) :
    (∀ batch ∈ batches cfg s es, Bounded cfg batch) ↔
      Guarded (step cfg) (DrainFits cfg) s es := by
  induction es generalizing s with
  | nil => simp [batches, Guarded]
  | cons e es ih =>
    obtain ⟨t, ht, hr⟩ := run_cons_eq_some hrun
    have hl := ih (sleeps_step hs ht) hr
    have hnow := bounded_dispatched_iff (e := e) hs
    simp only [batches, Guarded, ht, mem_append, Option.mem_toList]
    rw [← hl, ← hnow]
    constructor
    · intro hall
      exact ⟨fun batch hb => hall batch (Or.inl hb),
        fun batch hb => hall batch (Or.inr hb)⟩
    · rintro ⟨hf, ha⟩ batch (hb | hb)
      · exact hf batch hb
      · exact ha batch hb

end Runs

/-- The model acts per text: a text has its vector and its tokens in whatever list it comes. -/
structure ActsPerText (model : Encoder V) (vector : Text → V) (tokens : Text → ℕ) : Prop where
  encode : ∀ texts, model.encode texts = texts.map vector
  estimated : model.tokenize = none → ∀ text, tokens text = estimate text
  tokenize : ∀ tokenize, model.tokenize = some tokenize → ∀ texts,
    match tokenize texts with
    | none => ∀ text ∈ texts, tokens text = estimate text
    | some mask => mask.map List.sum = texts.map tokens

section Routing

variable {cfg : Config} {model : Encoder V} {vector : Text → V} {tokens : Text → ℕ}

theorem tokenCounts_eq (hmodel : ActsPerText model vector tokens) (texts : List Text) :
    tokenCounts model texts = texts.map tokens := by
  have he : (∀ text ∈ texts, tokens text = estimate text) →
      texts.map estimate = texts.map tokens := by
    intro hall
    apply map_congr_left
    intro text htext
    exact (hall text htext).symm
  cases ht : model.tokenize with
  | none =>
    simp only [tokenCounts, ht]
    exact he fun text _ => hmodel.estimated ht text
  | some tokenize =>
    have hm := hmodel.tokenize tokenize ht texts
    simp only [tokenCounts, ht]
    cases hr : tokenize texts with
    | none =>
      simp only [hr] at hm
      exact he hm
    | some mask =>
      simp only [hr] at hm
      have hl := congrArg List.length hm
      rw [length_map, length_map] at hl
      simp only [hl, if_true, hm]

variable {waiters : List (Waiter Text)} {vectors : List V} {counts : List ℕ}

theorem ActsPerText.answer_eq [DecidableEq V] (hmodel : ActsPerText model vector tokens)
    {s : State Text V} (ht : s.task = .encoding waiters)
    (he : Encodes model s (.encoded vectors counts)) :
    vectors = (textsOf waiters).map vector ∧ counts = (textsOf waiters).map tokens := by
  simpa only [Encodes, encodes, ht, decide_eq_true_eq, encodeBatch, hmodel.encode,
    tokenCounts_eq hmodel, Prod.mk.injEq] using he

def owed (vector : Text → V) (tokens : Text → ℕ) (waiter : Waiter Text) : Future V :=
  .result (waiter.texts.map vector) (waiter.texts.map tokens).sum

variable {futures : AList fun _ : ℕ => Future V} {i id : ℕ} {outcome : Future V}

theorem mem_settle :
    id ∈ settle futures i outcome ↔ id ∈ futures := by
  unfold settle
  split_ifs with hany
  · rw [AList.mem_insert]
    constructor
    · rintro (rfl | hmem)
      · obtain ⟨future, hf, -⟩ := (Option.any_eq_true _ _).mp hany
        exact mem_of_lookup hf
      · exact hmem
    · exact Or.inr
  · rfl

theorem mem_fail {failure : Failure} : id ∈ fail futures waiters failure ↔ id ∈ futures := by
  induction waiters generalizing futures with
  | nil => rfl
  | cons waiter rest ih =>
    rw [fail, foldl_cons, ← fail, ih, mem_settle]

theorem mem_deliver :
    id ∈ deliver futures waiters vectors counts ↔ id ∈ futures := by
  induction waiters generalizing futures vectors counts with
  | nil => rfl
  | cons waiter rest ih =>
    rw [deliver, ih, mem_settle]

variable {count : ℕ}

theorem settle_result (h : (settle futures i outcome).lookup id = some (.result vectors count)) :
    (id = i ∧ outcome = .result vectors count) ∨
      futures.lookup id = some (.result vectors count) := by
  unfold settle at h
  split_ifs at h
  · rcases lookup_insert_iff.mp h with hnew | ⟨-, hold⟩
    · exact Or.inl hnew
    · exact Or.inr hold
  · exact Or.inr h

theorem fail_result {failure : Failure}
    (h : (fail futures waiters failure).lookup id = some (.result vectors count)) :
    futures.lookup id = some (.result vectors count) := by
  induction waiters generalizing futures with
  | nil => exact h
  | cons waiter rest ih =>
    rw [fail, foldl_cons, ← fail] at h
    rcases settle_result (ih h) with ⟨-, hf⟩ | hold
    · cases hf
    · exact hold

theorem slice_eq (waiter : Waiter Text) (rest : List (Waiter Text)) :
    (Future.result (((textsOf (waiter :: rest)).map vector).take waiter.texts.length)
      (((textsOf (waiter :: rest)).map tokens).take waiter.texts.length).sum : Future V) =
      owed vector tokens waiter := by
  rw [owed, textsOf, flatMap_cons, map_append, map_append,
    take_left' (length_map _), take_left' (length_map _)]

theorem deliver_cons (futures : AList fun _ : ℕ => Future V) (waiter : Waiter Text)
    (rest : List (Waiter Text)) :
    deliver futures (waiter :: rest) ((textsOf (waiter :: rest)).map vector)
      ((textsOf (waiter :: rest)).map tokens) =
    deliver (settle futures waiter.future (owed vector tokens waiter)) rest
      ((textsOf rest).map vector) ((textsOf rest).map tokens) := by
  rw [deliver, slice_eq]
  simp only [textsOf, flatMap_cons, map_append]
  rw [drop_left' (length_map _), drop_left' (length_map _)]

theorem deliver_result (h : (deliver futures waiters ((textsOf waiters).map vector)
      ((textsOf waiters).map tokens)).lookup id = some (.result vectors count)) :
    (∃ waiter ∈ waiters, id = waiter.future ∧ owed vector tokens waiter = .result vectors count) ∨
      futures.lookup id = some (.result vectors count) := by
  induction waiters generalizing futures with
  | nil => exact Or.inr h
  | cons waiter rest ih =>
    rw [deliver_cons] at h
    rcases ih h with ⟨other, hot, ho⟩ | hse
    · exact Or.inl ⟨other, mem_cons_of_mem _ hot, ho⟩
    · rcases settle_result hse with hf | hold
      · exact Or.inl ⟨waiter, mem_cons_self, hf⟩
      · exact Or.inr hold

theorem lookup_settle_of_ne (h : id ≠ i) :
    (settle futures i outcome).lookup id = futures.lookup id := by
  unfold settle
  split_ifs
  · rw [AList.lookup_insert_ne h]
  · rfl

theorem lookup_deliver_of_notMem (h : id ∉ waiters.map (·.future)) :
    (deliver futures waiters vectors counts).lookup id = futures.lookup id := by
  induction waiters generalizing futures vectors counts with
  | nil => rfl
  | cons waiter rest ih =>
    rw [map_cons, mem_cons, not_or] at h
    rw [deliver, ih h.2, lookup_settle_of_ne h.1]

theorem settle_of_pending (h : futures.lookup id = some .pending) :
    (settle futures id outcome).lookup id = some outcome := by
  simp [settle, h, Future.done]

/-- A request that still waits when its batch is done gets what it is owed. -/
theorem deliver_of_pending (hd : (waiters.map (·.future)).Nodup) {waiter : Waiter Text}
    (hw : waiter ∈ waiters) (hp : futures.lookup waiter.future = some .pending) :
    (deliver futures waiters ((textsOf waiters).map vector)
      ((textsOf waiters).map tokens)).lookup waiter.future = some (owed vector tokens waiter) := by
  induction waiters generalizing futures with
  | nil => cases hw
  | cons first rest ih =>
    rw [map_cons, nodup_cons] at hd
    rw [deliver_cons]
    rcases mem_cons.mp hw with rfl | hr
    · rw [lookup_deliver_of_notMem hd.1]
      exact settle_of_pending hp
    · have hne : waiter.future ≠ first.future := by
        intro heq
        exact hd.1 (heq ▸ mem_map_of_mem hr)
      apply ih hd.2 hr
      rw [lookup_settle_of_ne hne]
      exact hp

/-- The requests the service holds came in this order, each under its own future, and a result
is what the request of its future is owed. -/
structure Routed (vector : Text → V) (tokens : Text → ℕ) (came : List (Waiter Text))
    (s : State Text V) : Prop where
  distinct : (came.map (·.future)).Nodup
  known : ∀ waiter ∈ came, waiter.future ∈ s.futures
  held : (s.task.waiters ++ s.queue).Sublist came
  answered : ∀ waiter ∈ came, ∀ vectors count,
    s.futures.lookup waiter.future = some (.result vectors count) →
    owed vector tokens waiter = .result vectors count

theorem Routed.init : Routed vector tokens [] (State.init : State Text V) := by
  constructor <;> simp [State.init, Task.waiters]

variable {came : List (Waiter Text)} {s t : State Text V} {e : Event Text V}

section

variable (hs : Routed vector tokens came s)
include hs

theorem Routed.eq_of_future {x y : Waiter Text} (hx : x ∈ came) (hy : y ∈ came)
    (h : x.future = y.future) : x = y :=
  inj_on_of_nodup_map hs.distinct hx hy h

theorem Routed.of_no_result (hk : ∀ id, id ∈ t.futures ↔ id ∈ s.futures)
    (hh : (t.task.waiters ++ t.queue).Sublist (s.task.waiters ++ s.queue))
    (hr : ∀ id vectors count, t.futures.lookup id = some (.result vectors count) →
      s.futures.lookup id = some (.result vectors count)) :
    Routed vector tokens came t := by
  refine ⟨hs.distinct, ?_, hh.trans hs.held, ?_⟩
  · intro waiter hw
    exact (hk _).mpr (hs.known waiter hw)
  · intro waiter hw vectors count h
    exact hs.answered waiter hw vectors count (hr _ _ _ h)

theorem Routed.dispatch {batch : List (Waiter Text)} {queue : List (Waiter Text)}
    (hh : (batch ++ queue).Sublist (s.task.waiters ++ s.queue)) :
    Routed vector tokens came ({ s with queue := queue }.dispatch batch) := by
  unfold State.dispatch
  split_ifs
  · refine hs.of_no_result (fun _ => Iff.rfl) hh ?_
    intro _ _ _ h
    exact h
  · refine hs.of_no_result (fun _ => mem_fail) ?_ ?_
    · exact (sublist_append_right batch queue).trans hh
    · intro _ _ _ h
      exact fail_result h

theorem Routed.submit {texts : List Text} (hfr : id ∉ s.futures) :
    Routed vector tokens (came ++ [⟨id, texts⟩])
      { s with
        queue := s.queue ++ [⟨id, texts⟩]
        futures := s.futures.insert id .pending } := by
  have ho : ∀ waiter ∈ came, waiter.future ≠ id := by
    intro waiter hw heq
    exact hfr (heq ▸ hs.known waiter hw)
  constructor
  · rw [map_append, nodup_append]
    refine ⟨hs.distinct, nodup_singleton _, ?_⟩
    intro future hf new hnew
    obtain ⟨waiter, hw, rfl⟩ := mem_map.mp hf
    rw [map_singleton, mem_singleton] at hnew
    exact hnew ▸ ho waiter hw
  · intro waiter hw
    rw [AList.mem_insert]
    rcases mem_append.mp hw with hc | hnew
    · exact Or.inr (hs.known waiter hc)
    · left
      rw [mem_singleton.mp hnew]
  · rw [← append_assoc]
    exact hs.held.append (List.Sublist.refl _)
  · intro waiter hw vectors count h
    rcases lookup_insert_iff.mp h with ⟨-, hp⟩ | ⟨hne, hold⟩
    · cases hp
    · rcases mem_append.mp hw with hc | hnew
      · exact hs.answered waiter hc vectors count hold
      · rw [mem_singleton.mp hnew] at hne
        exact absurd rfl hne

end

section

variable (hmodel : ActsPerText model vector tokens) (hs : Routed vector tokens came s)
include hmodel hs

theorem Routed.encoded [DecidableEq V] (ht : s.task = .encoding waiters)
    (he : Encodes model s (.encoded vectors counts)) :
    Routed vector tokens came
      { s with futures := deliver s.futures waiters vectors counts, task := .getting } := by
  obtain ⟨rfl, rfl⟩ := hmodel.answer_eq ht he
  have hh := hs.held
  rw [ht] at hh
  refine ⟨hs.distinct, ?_, (sublist_append_right waiters s.queue).trans hh, ?_⟩
  · intro waiter hw
    exact mem_deliver.mpr (hs.known waiter hw)
  · intro waiter hw vectors count h
    rcases deliver_result h with ⟨other, hot, hf, ho⟩ | hold
    · have hc := hh.subset (mem_append_left _ hot)
      rw [hs.eq_of_future hw hc hf]
      exact ho
    · exact hs.answered waiter hw vectors count hold

/-- A batch that is done answers each of its requests that still waits. -/
theorem Routed.encoded_pending [DecidableEq V]
    (he : Encodes model s (.encoded vectors counts))
    (h : step cfg s (.encoded vectors counts) = some t) {waiter : Waiter Text}
    (hw : waiter ∈ s.task.waiters) (hp : s.futures.lookup waiter.future = some .pending)
    : t.futures.lookup waiter.future = some (owed vector tokens waiter) := by
  simp only [step] at h
  split at h
  · rename_i waiters _ ht
    cases h
    obtain ⟨rfl, rfl⟩ := hmodel.answer_eq ht he
    rw [ht] at hw
    have hh : waiters.Sublist came := by
      have hh := hs.held
      rw [ht] at hh
      exact (sublist_append_left waiters s.queue).trans hh
    have hd := hs.distinct.sublist (hh.map (·.future))
    exact deliver_of_pending hd hw hp
  · cases h

/-- Futures and results stay with the requests they belong to. -/
theorem routed_step [DecidableEq V] (he : Encodes model s e) (h : step cfg s e = some t) :
    Routed vector tokens (came ++ arrival e) t := by
  cases e with
  | submit future texts =>
    simp only [step] at h
    split_ifs at h with hen
    cases h
    exact hs.submit hen.2
  | get =>
    simp only [step] at h
    split at h
    · rename_i first rest _ ht hq
      cases h
      have hh : (first :: (drain cfg rest first.texts.length).1 ++
          (drain cfg rest first.texts.length).2.1).Sublist (s.task.waiters ++ s.queue) := by
        rw [cons_append, drain_append, ht, hq]
        exact List.Sublist.refl _
      rw [arrival, append_nil]
      simp only [State.take]
      split_ifs
      · refine hs.of_no_result (fun _ => Iff.rfl) hh ?_
        intro _ _ _ h
        exact h
      · exact hs.dispatch hh
    · cases h
  | wake =>
    simp only [step] at h
    split at h
    · rename_i waiters total _ ht
      cases h
      rw [arrival, append_nil, State.collect]
      apply hs.dispatch
      rw [append_assoc, drain_append, ht]
      exact List.Sublist.refl _
    · cases h
  | encoded vectors counts =>
    simp only [step] at h
    split at h
    · rename_i waiters _ ht
      cases h
      rw [arrival, append_nil]
      exact hs.encoded hmodel ht he
    · cases h
  | encodeFails detail =>
    simp only [step] at h
    split at h
    · cases h
      rw [arrival, append_nil]
      refine hs.of_no_result (fun _ => mem_fail) ?_ ?_
      · exact sublist_append_right _ _
      · intro _ _ _ h
        exact fail_result h
    · cases h
  | clientCancels future =>
    simp only [step] at h
    split_ifs at h
    cases h
    rw [arrival, append_nil]
    refine hs.of_no_result (fun _ => mem_settle) (List.Sublist.refl _) ?_
    intro _ _ _ h
    rcases settle_result h with ⟨-, hc⟩ | hold
    · cases hc
    · exact hold
  | shutdown =>
    simp only [step] at h
    split_ifs at h
    cases h
    rw [arrival, append_nil]
    exact ⟨hs.distinct, hs.known, hs.held, hs.answered⟩
  | taskCancelled =>
    simp only [step] at h
    rw [arrival, append_nil]
    split at h
    · cases h
      refine hs.of_no_result (fun _ => Iff.rfl) (sublist_append_right _ _) ?_
      intro _ _ _ h
      exact h
    · cases h
      refine hs.of_no_result (fun _ => Iff.rfl) (sublist_append_right _ _) ?_
      intro _ _ _ h
      exact h
    · cases h
      refine hs.of_no_result (fun _ => mem_fail) (sublist_append_right _ _) ?_
      intro _ _ _ h
      exact fail_result h
    · cases h
  | close =>
    simp only [step] at h
    split at h
    · cases h
      rw [arrival, append_nil]
      refine hs.of_no_result (fun _ => mem_fail) ?_ ?_
      · simp
      · intro _ _ _ h
        exact fail_result h
    · cases h

theorem routed_run [DecidableEq V] {es : List (Event Text V)}
    (he : Guarded (step cfg) (Encodes model) s es) (hrun : run (step cfg) s es = some t) :
    Routed vector tokens (came ++ arrivals es) t := by
  induction es generalizing came s with
  | nil =>
    cases hrun
    rw [arrivals, flatMap_nil, append_nil]
    exact hs
  | cons e es ih =>
    obtain ⟨u, hu, hr⟩ := run_cons_eq_some hrun
    obtain ⟨hnow, hl⟩ := he.of_cons hu
    have hst := routed_step hmodel hs hnow hu
    rw [arrivals, flatMap_cons, ← append_assoc]
    exact ih hst hl hr

end

/-- The batches are the first requests in the order they came, and each request that is answered
has what its own texts are owed. A batch of several requests stays within the cap exactly when
no request that is taken while the texts are below the cap brings them over it. -/
theorem coalescing_is_bounded_iff [DecidableEq V] (hmodel : ActsPerText model vector tokens)
    {es : List (Event Text V)} (hencodes : Guarded (step cfg) (Encodes model) State.init es)
    (hrun : run (step cfg) State.init es = some s) :
    ((batches cfg State.init es).flatten <+: arrivals es ∧
      (∀ batch ∈ batches cfg State.init es, Bounded cfg batch) ∧
      (∀ waiter ∈ arrivals es, ∀ vectors count,
        s.futures.lookup waiter.future = some (.result vectors count) →
        vectors = waiter.texts.map vector ∧ count = (waiter.texts.map tokens).sum) ∧
      ∀ vectors counts t, Encodes model s (.encoded vectors counts) →
        step cfg s (.encoded vectors counts) = some t →
        ∀ waiter ∈ s.task.waiters, s.futures.lookup waiter.future = some .pending →
        t.futures.lookup waiter.future =
          some (.result (waiter.texts.map vector) (waiter.texts.map tokens).sum)) ↔
      Guarded (step cfg) (DrainFits cfg) State.init es := by
  have hsp : Sleeps cfg (State.init : State Text V) := by
    intro waiters total hsl
    cases hsl
  rw [← bounded_batches_iff hsp hrun]
  constructor
  · intro hall
    exact hall.2.1
  · intro hb
    have hr := routed_run hmodel Routed.init hencodes hrun
    rw [nil_append] at hr
    refine ⟨prefix_flatten_batches cfg State.init es, hb, ?_, ?_⟩
    · intro waiter hw vectors count h
      have ho := hr.answered waiter hw vectors count h
      rw [owed, Future.result.injEq] at ho
      exact ⟨ho.1.symm, ho.2.symm⟩
    · intro vectors counts t ha h waiter hw hp
      exact hr.encoded_pending hmodel ha h hw hp

end Routing

private def cfg : Config := ⟨5, 32⟩

private def mask (texts : List Text) : List (List ℕ) :=
  let longest := (texts.map List.length).foldr max 0
  texts.map fun text =>
    List.replicate text.length 1 ++ List.replicate (longest - text.length) 0

private def model : Encoder ℕ := ⟨fun texts => texts.map List.length, some fun texts => mask texts⟩

private theorem model_actsPerText : ActsPerText model List.length List.length := by
  constructor
  · intro texts
    rfl
  · intro hnone
    cases hnone
  · intro tokenize htokenize texts
    cases htokenize
    simp [mask, List.map_map, Function.comp_def]

/-- A second request comes in the window of the first; the client of a third leaves. -/
private def shared : List (Event Text ℕ) :=
  [.submit 0 [[97]], .get, .submit 1 [[98], [99, 100]], .wake, .encoded [1, 1, 2] [1, 1, 2],
    .submit 2 [[101]], .get, .clientCancels 2, .wake]

theorem shared_batch_is_bounded : ∃ s, run (step cfg) State.init shared = some s ∧
    (batches cfg State.init shared).length = 2 ∧
    ∀ batch ∈ batches cfg State.init shared, Bounded cfg batch := by
  have he : Guarded (step cfg) (Encodes model) State.init shared := by decide +kernel
  have hf : Guarded (step cfg) (DrainFits cfg) State.init shared := by decide +kernel
  obtain ⟨s, hrun, -⟩ := exists_run_of_any (p := fun _ => true)
    (show (run (step cfg) State.init shared).any _ = true by decide +kernel)
  have hall := (coalescing_is_bounded_iff model_actsPerText he hrun).mpr hf
  exact ⟨s, hrun, by decide +kernel, hall.2.1⟩

private def crossing : List (Event Text ℕ) :=
  [.submit 0 [[97]], .submit 1 (List.replicate 32 [98]), .get]

theorem crossing_request_is_taken :
    Guarded (step cfg) (Encodes model) State.init crossing ∧
    (run (step cfg) State.init crossing).isSome = true ∧
    ∃ batch ∈ batches cfg State.init crossing, batch.length = 2 ∧ size batch = 33 ∧
      ¬ Bounded cfg batch := by
  refine ⟨by decide +kernel, by decide +kernel,
    [⟨0, [[97]]⟩, ⟨1, List.replicate 32 [98]⟩], mem_cons_self, rfl, by decide +kernel, ?_⟩
  rintro (hcap | hone)
  · exact absurd hcap (by decide +kernel)
  · cases hone

end Aizzak.BatchCoalescing
