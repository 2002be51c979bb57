import Mathlib

/-!
Regular expressions the way a backtracking matcher reads them. A pattern matches a front of a text
in several ways, tried in the order of its alternatives and with every repetition greedy, and each
way says what its groups caught and what it leaves of the text. A full match is the first way that
leaves nothing: there is one exactly on the words of the pattern's language.
-/
namespace Aizzak.BacktrackingPatterns

open List

variable {α ν : Type}

inductive Pattern (α ν : Type) where
  | one (symbols : α → Bool)
  | seq (p q : Pattern α ν)
  | alt (p q : Pattern α ν)
  | opt (p : Pattern α ν)
  | rep (least most : ℕ) (p : Pattern α ν)
  | many (p : Pattern α ν)
  | group (name : ν) (p : Pattern α ν)

structure Way (α ν : Type) where
  caught : List (ν × List α)
  left : List α

def Way.next (w v : Way α ν) : Way α ν := ⟨w.caught ++ v.caught, v.left⟩

def repeated (ways : List α → List (Way α ν)) : ℕ → ℕ → List α → List (Way α ν)
  | least, 0, text => if least = 0 then [⟨[], text⟩] else []
  | least, most + 1, text =>
    ((ways text).flatMap fun w => (repeated ways (least - 1) most w.left).map w.next) ++
      if least = 0 then [⟨[], text⟩] else []

namespace Pattern

instance : Mul (Pattern α ν) := ⟨seq⟩

instance : Add (Pattern α ν) := ⟨alt⟩

@[simp]
theorem mul_eq_seq (p q : Pattern α ν) : p * q = seq p q := rfl

@[simp]
theorem add_eq_alt (p q : Pattern α ν) : p + q = alt p q := rfl

def nothing : Pattern α ν := .rep 0 0 (.one fun _ => false)

def literal [DecidableEq α] : List α → Pattern α ν
  | [] => nothing
  | a :: rest => .one (fun b => b = a) * literal rest

def anyOf [DecidableEq α] : List (List α) → Pattern α ν
  | [] => .one fun _ => false
  | text :: texts => literal text + anyOf texts

def oneOrMore (p : Pattern α ν) : Pattern α ν := p * .many p

def ways : Pattern α ν → List α → List (Way α ν)
  | .one _, [] => []
  | .one symbols, a :: rest => if symbols a then [⟨[], rest⟩] else []
  | .seq p q, text => (p.ways text).flatMap fun w => (q.ways w.left).map w.next
  | .alt p q, text => p.ways text ++ q.ways text
  | .opt p, text => p.ways text ++ [⟨[], text⟩]
  | .rep least most p, text => repeated p.ways least most text
  | .many p, text => repeated p.ways 0 text.length text
  | .group name p, text =>
    (p.ways text).map fun w =>
      ⟨(name, text.take (text.length - w.left.length)) :: w.caught, w.left⟩

def fullMatch (p : Pattern α ν) (text : List α) : Option (List (ν × List α)) :=
  ((p.ways text).find? fun w => w.left.isEmpty).map Way.caught

def matchFront (p : Pattern α ν) (text : List α) : Option (Way α ν) := (p.ways text).head?

def language : Pattern α ν → Language α
  | .one symbols => {word | ∃ a, symbols a = true ∧ word = [a]}
  | .seq p q => p.language * q.language
  | .alt p q => p.language + q.language
  | .opt p => p.language + 1
  | .rep least most p => {word | ∃ k, least ≤ k ∧ k ≤ most ∧ word ∈ p.language ^ k}
  | .many p => KStar.kstar p.language
  | .group _ p => p.language

variable {p q : Pattern α ν} {w : Way α ν} {text front rest : List α}

section Ways

variable {symbols : α → Bool}

theorem ways_one_nil : (one symbols : Pattern α ν).ways [] = [] := rfl

theorem ways_one_cons {a : α} :
    (one symbols : Pattern α ν).ways (a :: rest) = if symbols a then [⟨[], rest⟩] else [] := rfl

theorem ways_seq :
    (seq p q).ways text = (p.ways text).flatMap fun w => (q.ways w.left).map w.next := rfl

theorem ways_alt : (alt p q).ways text = p.ways text ++ q.ways text := rfl

theorem ways_opt : (opt p).ways text = p.ways text ++ [⟨[], text⟩] := rfl

variable {least most : ℕ}

theorem ways_rep :
    (rep least most p).ways text = repeated p.ways least most text := rfl

variable {name : ν}

theorem ways_group :
    (group name p).ways text = (p.ways text).map fun w =>
      ⟨(name, text.take (text.length - w.left.length)) :: w.caught, w.left⟩ := rfl

@[simp]
theorem mem_ways_one :
    w ∈ (one symbols).ways text ↔ ∃ a, symbols a = true ∧ text = a :: w.left ∧ w.caught = [] := by
  obtain ⟨caught, left⟩ := w
  cases text with
  | nil => simp [ways_one_nil]
  | cons b rest =>
    rw [ways_one_cons]
    constructor
    · intro h
      split_ifs at h with hb
      · obtain ⟨rfl, rfl⟩ := Way.mk.inj (mem_singleton.mp h)
        exact ⟨b, hb, rfl, rfl⟩
      · cases h
    · rintro ⟨a, ha, htext, rfl⟩
      obtain ⟨rfl, rfl⟩ := List.cons.inj htext
      rw [if_pos ha]
      exact mem_singleton_self _

@[simp]
theorem mem_ways_seq :
    w ∈ (seq p q).ways text ↔ ∃ v ∈ p.ways text, ∃ u ∈ q.ways v.left, w = v.next u := by
  simp [ways_seq, eq_comm]

@[simp]
theorem mem_ways_alt : w ∈ (alt p q).ways text ↔ w ∈ p.ways text ∨ w ∈ q.ways text := by
  simp [ways_alt]

@[simp]
theorem mem_ways_opt : w ∈ (opt p).ways text ↔ w ∈ p.ways text ∨ w = ⟨[], text⟩ := by
  simp [ways_opt]

@[simp]
theorem mem_ways_group :
    w ∈ (group name p).ways text ↔ ∃ v ∈ p.ways text,
      w = ⟨(name, text.take (text.length - v.left.length)) :: v.caught, v.left⟩ := by
  simp [ways, eq_comm]

theorem mem_repeated_zero {ways : List α → List (Way α ν)} :
    w ∈ repeated ways least 0 text ↔ least = 0 ∧ w = ⟨[], text⟩ := by
  by_cases h : least = 0 <;> simp [repeated, h]

theorem mem_repeated_succ {ways : List α → List (Way α ν)} :
    w ∈ repeated ways least (most + 1) text ↔
      (∃ v ∈ ways text, ∃ u ∈ repeated ways (least - 1) most v.left, w = v.next u) ∨
        least = 0 ∧ w = ⟨[], text⟩ := by
  by_cases h : least = 0 <;> simp [repeated, h, eq_comm]

/-- A repeated class of symbols catches nothing and reads a run of such symbols. -/
@[simp]
theorem mem_ways_rep_one :
    w ∈ (rep least most (one symbols)).ways text ↔
      w.caught = [] ∧ ∃ front, text = front ++ w.left ∧ least ≤ front.length ∧
        front.length ≤ most ∧ ∀ a ∈ front, symbols a = true := by
  rw [ways_rep]
  induction most generalizing least text w with
  | zero =>
    rw [mem_repeated_zero]
    constructor
    · rintro ⟨rfl, rfl⟩
      exact ⟨rfl, [], rfl, le_rfl, le_rfl, by simp⟩
    · rintro ⟨hc, front, htext, hl, hm, -⟩
      obtain rfl := eq_nil_of_length_eq_zero (Nat.le_zero.mp hm)
      obtain ⟨caught, left⟩ := w
      exact ⟨Nat.le_zero.mp hl, by rw [show caught = [] from hc, htext]; rfl⟩
  | succ most ih =>
    rw [mem_repeated_succ]
    constructor
    · rintro (⟨v, hv, u, hu, rfl⟩ | ⟨rfl, rfl⟩)
      · obtain ⟨a, ha, rfl, hn⟩ := mem_ways_one.mp hv
        obtain ⟨hc, front, hle, hl, hm, hall⟩ := ih.mp hu
        refine ⟨by simp [Way.next, hn, hc], a :: front, by simp [Way.next, hle], ?_, ?_,
          ?_⟩
        · rw [length_cons]
          omega
        · rw [length_cons]
          omega
        · exact forall_mem_cons.mpr ⟨ha, hall⟩
      · exact ⟨rfl, [], rfl, le_rfl, Nat.zero_le _, by simp⟩
    · rintro ⟨hc, front, rfl, hl, hm, hall⟩
      obtain ⟨caught, left⟩ := w
      obtain rfl : caught = [] := hc
      cases front with
      | nil => exact .inr ⟨Nat.le_zero.mp hl, rfl⟩
      | cons a front =>
        rw [length_cons] at hl hm
        obtain ⟨ha, hall⟩ := forall_mem_cons.mp hall
        refine .inl ⟨⟨[], front ++ left⟩, mem_ways_one.mpr ⟨a, ha, rfl, rfl⟩, ⟨[], left⟩,
          ih.mpr ⟨rfl, front, rfl, ?_, ?_, hall⟩, rfl⟩
        · omega
        · omega

theorem mem_ways_group_one :
    w ∈ (group name (one symbols)).ways text ↔
      ∃ a, symbols a = true ∧ text = a :: w.left ∧ w.caught = [(name, [a])] := by
  rw [mem_ways_group]
  constructor
  · rintro ⟨v, hv, rfl⟩
    obtain ⟨a, ha, rfl, hn⟩ := mem_ways_one.mp hv
    exact ⟨a, ha, rfl, by simp [hn]⟩
  · rintro ⟨a, ha, rfl, hc⟩
    refine ⟨⟨[], w.left⟩, mem_ways_one.mpr ⟨a, ha, rfl, rfl⟩, ?_⟩
    obtain ⟨caught, left⟩ := w
    obtain rfl : caught = [(name, [a])] := hc
    simp

/-- A group around a repeated class of symbols catches the run that it reads. -/
theorem mem_ways_group_rep_one :
    w ∈ (group name (rep least most (one symbols))).ways text ↔
      ∃ front, text = front ++ w.left ∧ least ≤ front.length ∧ front.length ≤ most ∧
        (∀ a ∈ front, symbols a = true) ∧ w.caught = [(name, front)] := by
  rw [mem_ways_group]
  constructor
  · rintro ⟨v, hv, rfl⟩
    obtain ⟨hn, front, rfl, hl, hm, hall⟩ := mem_ways_rep_one.mp hv
    exact ⟨front, rfl, hl, hm, hall, by simp [hn]⟩
  · rintro ⟨front, rfl, hl, hm, hall, hc⟩
    refine ⟨⟨[], w.left⟩, mem_ways_rep_one.mpr ⟨rfl, front, rfl, hl, hm, hall⟩, ?_⟩
    obtain ⟨caught, left⟩ := w
    obtain rfl : caught = [(name, front)] := hc
    simp

end Ways

section Language

variable {least most : ℕ}

theorem front_of_repeated
    (hp : ∀ {w : Way α ν} {text}, w ∈ p.ways text → ∃ front ∈ p.language, front ++ w.left = text)
    (h : w ∈ repeated p.ways least most text) :
    ∃ k, least ≤ k ∧ k ≤ most ∧ ∃ front ∈ p.language ^ k, front ++ w.left = text := by
  induction most generalizing least text w with
  | zero =>
    obtain ⟨rfl, rfl⟩ := mem_repeated_zero.mp h
    exact ⟨0, le_rfl, le_rfl, [], by simp, rfl⟩
  | succ most ih =>
    rcases mem_repeated_succ.mp h with ⟨v, hv, u, hu, rfl⟩ | ⟨rfl, rfl⟩
    · obtain ⟨head, hh, rfl⟩ := hp hv
      obtain ⟨k, hl, hm, tail, ht, hle⟩ := ih hu
      refine ⟨k + 1, by omega, by omega, head ++ tail, ?_, ?_⟩
      · rw [pow_succ']
        exact Language.append_mem_mul hh ht
      · rw [append_assoc, ← hle]
        rfl
    · exact ⟨0, le_rfl, Nat.zero_le _, [], by simp, rfl⟩

/-- A way reads a front of the text that is a word of the pattern. -/
theorem front_of_ways (h : w ∈ p.ways text) : ∃ front ∈ p.language, front ++ w.left = text := by
  induction p generalizing text w with
  | one symbols =>
    obtain ⟨a, ha, rfl, -⟩ := mem_ways_one.mp h
    exact ⟨[a], ⟨a, ha, rfl⟩, rfl⟩
  | seq p q ihp ihq =>
    obtain ⟨v, hv, u, hu, rfl⟩ := mem_ways_seq.mp h
    obtain ⟨head, hh, rfl⟩ := ihp hv
    obtain ⟨tail, ht, hle⟩ := ihq hu
    refine ⟨head ++ tail, Language.append_mem_mul hh ht, ?_⟩
    rw [append_assoc, ← hle]
    rfl
  | alt p q ihp ihq =>
    rcases mem_ways_alt.mp h with hp | hq
    · obtain ⟨front, hf, hle⟩ := ihp hp
      exact ⟨front, .inl hf, hle⟩
    · obtain ⟨front, hf, hle⟩ := ihq hq
      exact ⟨front, .inr hf, hle⟩
  | opt p ih =>
    rcases mem_ways_opt.mp h with hp | rfl
    · obtain ⟨front, hf, hle⟩ := ih hp
      exact ⟨front, .inl hf, hle⟩
    · exact ⟨[], .inr rfl, rfl⟩
  | rep least most p ih =>
    obtain ⟨k, hl, hm, front, hf, hle⟩ := front_of_repeated ih h
    exact ⟨front, ⟨k, hl, hm, hf⟩, hle⟩
  | many p ih =>
    obtain ⟨k, -, -, front, hf, hle⟩ := front_of_repeated ih h
    obtain ⟨words, rfl, -, hw⟩ := Language.mem_pow.mp hf
    exact ⟨_, Language.mem_kstar.mpr ⟨words, rfl, hw⟩, hle⟩
  | group name p ih =>
    obtain ⟨v, hv, rfl⟩ := mem_ways_group.mp h
    exact ih (w := v) hv

/-- Any count between the bounds is among the repetitions. -/
theorem repeated_of_pow {k : ℕ} (hp : ∀ {front rest : List α}, front ∈ p.language →
      ∃ w ∈ p.ways (front ++ rest), w.left = rest) (hl : least ≤ k) (hm : k ≤ most)
    (h : front ∈ p.language ^ k) :
    ∃ w ∈ repeated p.ways least most (front ++ rest), w.left = rest := by
  induction most generalizing least k front with
  | zero =>
    obtain rfl := Nat.le_zero.mp hm
    obtain rfl : front = [] := by simpa using h
    exact ⟨⟨[], rest⟩, mem_repeated_zero.mpr ⟨Nat.le_zero.mp hl, rfl⟩, rfl⟩
  | succ most ih =>
    cases k with
    | zero =>
      obtain rfl : front = [] := by simpa using h
      exact ⟨⟨[], rest⟩, mem_repeated_succ.mpr (.inr ⟨Nat.le_zero.mp hl, rfl⟩), rfl⟩
    | succ k =>
      rw [pow_succ'] at h
      obtain ⟨head, hh, tail, ht, rfl⟩ := Language.mem_mul.mp h
      rw [append_assoc]
      obtain ⟨v, hv, hvl⟩ := @hp head (tail ++ rest) hh
      have hf : least - 1 ≤ k := by omega
      obtain ⟨u, hu, hul⟩ := ih hf (by omega) ht
      refine ⟨v.next u, mem_repeated_succ.mpr (.inl ⟨v, hv, u, ?_, rfl⟩), hul⟩
      rwa [hvl]

theorem length_le_length_flatten {words : List (List α)} (h : ∀ word ∈ words, word ≠ []) :
    words.length ≤ words.flatten.length := by
  induction words with
  | nil => exact le_rfl
  | cons word words ih =>
    obtain ⟨hwo, hw⟩ := forall_mem_cons.mp h
    have hpos := length_pos_iff.mpr hwo
    have hr := ih hw
    rw [flatten_cons, length_append, length_cons]
    omega

/-- Every word of the language is read in some way, whatever follows it. -/
theorem ways_of_language (h : front ∈ p.language) :
    ∃ w ∈ p.ways (front ++ rest), w.left = rest := by
  induction p generalizing front rest with
  | one symbols =>
    obtain ⟨a, ha, rfl⟩ := h
    exact ⟨⟨[], rest⟩, mem_ways_one.mpr ⟨a, ha, rfl, rfl⟩, rfl⟩
  | seq p q ihp ihq =>
    obtain ⟨head, hh, tail, ht, rfl⟩ := Language.mem_mul.mp h
    rw [append_assoc]
    obtain ⟨v, hv, hvl⟩ := @ihp head (tail ++ rest) hh
    obtain ⟨u, hu, hul⟩ := @ihq tail rest ht
    refine ⟨v.next u, mem_ways_seq.mpr ⟨v, hv, u, ?_, rfl⟩, hul⟩
    rwa [hvl]
  | alt p q ihp ihq =>
    rcases h with hp | hq
    · obtain ⟨w, hw, hle⟩ := ihp hp
      exact ⟨w, mem_ways_alt.mpr (.inl hw), hle⟩
    · obtain ⟨w, hw, hle⟩ := ihq hq
      exact ⟨w, mem_ways_alt.mpr (.inr hw), hle⟩
  | opt p ih =>
    rcases h with hp | hnil
    · obtain ⟨w, hw, hle⟩ := ih hp
      exact ⟨w, mem_ways_opt.mpr (.inl hw), hle⟩
    · obtain rfl : front = [] := hnil
      exact ⟨⟨[], rest⟩, mem_ways_opt.mpr (.inr rfl), rfl⟩
  | rep least most p ih =>
    obtain ⟨k, hl, hm, hk⟩ := h
    exact repeated_of_pow ih hl hm hk
  | many p ih =>
    obtain ⟨words, rfl, hwo⟩ := Language.mem_kstar_iff_exists_nonempty.mp h
    refine repeated_of_pow ih (Nat.zero_le words.length) ?_
      (Language.mem_pow.mpr ⟨words, rfl, rfl, fun word hwr => (hwo word hwr).1⟩)
    have hln := length_le_length_flatten fun word hwr => (hwo word hwr).2
    rw [length_append]
    omega
  | group name p ih =>
    obtain ⟨v, hv, hle⟩ := ih h
    exact ⟨_, mem_ways_group.mpr ⟨v, hv, rfl⟩, hle⟩

variable {symbols : α → Bool}

theorem mem_language_one :
    text ∈ (one symbols : Pattern α ν).language ↔ ∃ a, symbols a = true ∧ text = [a] :=
  Iff.rfl

theorem mem_language_rep_one :
    text ∈ (rep least most (one symbols) : Pattern α ν).language ↔
      least ≤ text.length ∧ text.length ≤ most ∧ ∀ a ∈ text, symbols a = true := by
  constructor
  · intro h
    obtain ⟨w, hw, hl⟩ := @ways_of_language _ _ _ _ [] h
    obtain ⟨-, front, htext, hs⟩ := mem_ways_rep_one.mp hw
    rw [hl, append_nil, append_nil] at htext
    exact htext ▸ hs
  · intro h
    have hway : (⟨[], []⟩ : Way α ν) ∈ (rep least most (one symbols)).ways text :=
      mem_ways_rep_one.mpr ⟨rfl, text, (append_nil text).symm, h⟩
    obtain ⟨front, hf, htext⟩ := front_of_ways hway
    rw [append_nil] at htext
    exact htext ▸ hf

theorem mem_language_many_one :
    text ∈ (many (one symbols) : Pattern α ν).language ↔ ∀ a ∈ text, symbols a = true := by
  constructor
  · intro h
    obtain ⟨words, rfl, hw⟩ := Language.mem_kstar.mp h
    intro a ha
    obtain ⟨word, hwo, ha⟩ := mem_flatten.mp ha
    obtain ⟨b, hb, rfl⟩ := hw word hwo
    exact (mem_singleton.mp ha) ▸ hb
  · intro h
    refine Language.mem_kstar.mpr ⟨text.map fun a => [a], ?_, fun word hwo => ?_⟩
    · exact (flatMap_singleton' text).symm.trans (flatMap_def ..)
    · obtain ⟨a, ha, rfl⟩ := mem_map.mp hwo
      exact ⟨a, h a ha, rfl⟩

theorem mem_language_oneOrMore_one :
    text ∈ (oneOrMore (one symbols) : Pattern α ν).language ↔
      text ≠ [] ∧ ∀ a ∈ text, symbols a = true := by
  rw [oneOrMore, mul_eq_seq, language, Language.mem_mul]
  constructor
  · rintro ⟨head, ⟨a, ha, rfl⟩, tail, ht, rfl⟩
    exact ⟨cons_ne_nil a tail,
      forall_mem_cons.mpr ⟨ha, mem_language_many_one.mp ht⟩⟩
  · rintro ⟨hne, hall⟩
    cases text with
    | nil => exact absurd rfl hne
    | cons a tail =>
      obtain ⟨ha, hall⟩ := forall_mem_cons.mp hall
      exact ⟨[a], ⟨a, ha, rfl⟩, tail, mem_language_many_one.mpr hall, rfl⟩

theorem mem_ways_of_fullMatch {caught : List (ν × List α)} (h : p.fullMatch text = some caught) :
    ⟨caught, []⟩ ∈ p.ways text := by
  obtain ⟨⟨caught, left⟩, hf, rfl⟩ := Option.map_eq_some_iff.mp h
  obtain rfl : left = [] := by simpa using List.find?_some hf
  exact mem_of_find?_eq_some hf

theorem exists_fullMatch (h : w ∈ p.ways text) (hl : w.left = []) :
    ∃ caught, p.fullMatch text = some caught := by
  have hf : ((p.ways text).find? fun w => w.left.isEmpty).isSome := by
    rw [List.find?_isSome]
    exact ⟨w, h, by rw [hl, isEmpty_nil]⟩
  obtain ⟨v, hv⟩ := Option.isSome_iff_exists.mp hf
  exact ⟨v.caught, by rw [fullMatch, hv, Option.map_some]⟩

/-- A full match exists exactly on the words of the language. -/
theorem fullMatch_isSome_iff : (p.fullMatch text).isSome ↔ text ∈ p.language := by
  constructor
  · intro h
    obtain ⟨caught, hc⟩ := Option.isSome_iff_exists.mp h
    obtain ⟨front, hf, htext⟩ := front_of_ways (mem_ways_of_fullMatch hc)
    rw [append_nil] at htext
    exact htext ▸ hf
  · intro h
    obtain ⟨w, hw, hl⟩ := @ways_of_language _ _ _ _ [] h
    rw [append_nil] at hw
    obtain ⟨caught, hc⟩ := exists_fullMatch hw hl
    exact Option.isSome_iff_exists.mpr ⟨caught, hc⟩

end Language

section Captures

/-- The pattern reads the whole text and its groups catch what is listed. -/
def Reads : Pattern α ν → List α → List (ν × List α) → Prop
  | .one symbols, text, caught => ∃ a, symbols a = true ∧ text = [a] ∧ caught = []
  | .seq p q, text, caught => ∃ head c tail d, p.Reads head c ∧ q.Reads tail d ∧
      text = head ++ tail ∧ caught = c ++ d
  | .alt p q, text, caught => p.Reads text caught ∨ q.Reads text caught
  | .opt p, text, caught => p.Reads text caught ∨ text = [] ∧ caught = []
  | .rep least most p, text, caught => ∃ parts : List (List α × List (ν × List α)),
      least ≤ parts.length ∧ parts.length ≤ most ∧ (∀ part ∈ parts, p.Reads part.1 part.2) ∧
        text = parts.flatMap Prod.fst ∧ caught = parts.flatMap Prod.snd
  | .many p, text, caught => ∃ parts : List (List α × List (ν × List α)),
      (∀ part ∈ parts, p.Reads part.1 part.2) ∧ text = parts.flatMap Prod.fst ∧
        caught = parts.flatMap Prod.snd
  | .group name p, text, caught => ∃ c, p.Reads text c ∧ caught = (name, text) :: c

variable {caught : List (ν × List α)}

theorem reads_of_repeated {least most : ℕ}
    (hp : ∀ {w : Way α ν} {text}, w ∈ p.ways text →
      ∃ front, p.Reads front w.caught ∧ text = front ++ w.left)
    (h : w ∈ repeated p.ways least most text) :
    ∃ parts : List (List α × List (ν × List α)), least ≤ parts.length ∧ parts.length ≤ most ∧
      (∀ part ∈ parts, p.Reads part.1 part.2) ∧ text = parts.flatMap Prod.fst ++ w.left ∧
        w.caught = parts.flatMap Prod.snd := by
  induction most generalizing least text w with
  | zero =>
    obtain ⟨rfl, rfl⟩ := mem_repeated_zero.mp h
    exact ⟨[], le_rfl, le_rfl, by simp, rfl, rfl⟩
  | succ most ih =>
    rcases mem_repeated_succ.mp h with ⟨v, hv, u, hu, rfl⟩ | ⟨rfl, rfl⟩
    · obtain ⟨front, hf, rfl⟩ := hp hv
      obtain ⟨parts, hl, hm, hpa, hle, hc⟩ := ih hu
      refine ⟨(front, v.caught) :: parts, ?_, ?_, forall_mem_cons.mpr ⟨hf, hpa⟩, ?_,
        ?_⟩
      · rw [length_cons]
        omega
      · rw [length_cons]
        omega
      · rw [flatMap_cons, append_assoc, hle]
        rfl
      · rw [flatMap_cons, ← hc]
        rfl
    · exact ⟨[], le_rfl, Nat.zero_le _, by simp, rfl, rfl⟩

/-- What the groups of a way catch is read off the front it takes. -/
theorem reads_of_ways (h : w ∈ p.ways text) :
    ∃ front, p.Reads front w.caught ∧ text = front ++ w.left := by
  induction p generalizing text w with
  | one symbols =>
    obtain ⟨a, ha, rfl, hn⟩ := mem_ways_one.mp h
    exact ⟨[a], ⟨a, ha, rfl, hn⟩, rfl⟩
  | seq p q ihp ihq =>
    obtain ⟨v, hv, u, hu, rfl⟩ := mem_ways_seq.mp h
    obtain ⟨head, hh, rfl⟩ := ihp hv
    obtain ⟨tail, ht, hle⟩ := ihq hu
    refine ⟨head ++ tail, ⟨head, v.caught, tail, u.caught, hh, ht, rfl, rfl⟩, ?_⟩
    rw [hle, append_assoc]
    rfl
  | alt p q ihp ihq =>
    rcases mem_ways_alt.mp h with hp | hq
    · obtain ⟨front, hf, hle⟩ := ihp hp
      exact ⟨front, .inl hf, hle⟩
    · obtain ⟨front, hf, hle⟩ := ihq hq
      exact ⟨front, .inr hf, hle⟩
  | opt p ih =>
    rcases mem_ways_opt.mp h with hp | rfl
    · obtain ⟨front, hf, hle⟩ := ih hp
      exact ⟨front, .inl hf, hle⟩
    · exact ⟨[], .inr ⟨rfl, rfl⟩, rfl⟩
  | rep least most p ih =>
    obtain ⟨parts, hl, hm, hpa, htext, hc⟩ := reads_of_repeated ih h
    exact ⟨_, ⟨parts, hl, hm, hpa, rfl, hc⟩, htext⟩
  | many p ih =>
    obtain ⟨parts, -, -, hpa, htext, hc⟩ := reads_of_repeated ih h
    exact ⟨_, ⟨parts, hpa, rfl, hc⟩, htext⟩
  | group name p ih =>
    obtain ⟨v, hv, rfl⟩ := mem_ways_group.mp h
    obtain ⟨front, hf, rfl⟩ := ih hv
    refine ⟨front, ⟨v.caught, hf, ?_⟩, rfl⟩
    simp

theorem reads_of_fullMatch (h : p.fullMatch text = some caught) : p.Reads text caught := by
  obtain ⟨front, hf, htext⟩ := reads_of_ways (mem_ways_of_fullMatch h)
  rw [append_nil] at htext
  exact htext ▸ hf

theorem mem_language_of_reads (h : p.Reads text caught) : text ∈ p.language := by
  induction p generalizing text caught with
  | one symbols =>
    obtain ⟨a, ha, rfl, -⟩ := h
    exact ⟨a, ha, rfl⟩
  | seq p q ihp ihq =>
    obtain ⟨head, c, tail, d, hh, ht, rfl, -⟩ := h
    exact Language.append_mem_mul (ihp hh) (ihq ht)
  | alt p q ihp ihq => exact h.imp ihp ihq
  | opt p ih => exact h.imp ih And.left
  | rep least most p ih =>
    obtain ⟨parts, hl, hm, hp, rfl, -⟩ := h
    refine ⟨parts.length, hl, hm, Language.mem_pow.mpr ⟨parts.map Prod.fst, ?_, ?_, ?_⟩⟩
    · rw [flatMap_def]
    · rw [length_map]
    · rw [forall_mem_map]
      exact fun part hpart => ih (hp part hpart)
  | many p ih =>
    obtain ⟨parts, hp, rfl, -⟩ := h
    refine Language.mem_kstar.mpr ⟨parts.map Prod.fst, ?_, ?_⟩
    · rw [flatMap_def]
    · rw [forall_mem_map]
      exact fun part hpart => ih (hp part hpart)
  | group name p ih =>
    obtain ⟨c, hc, -⟩ := h
    exact ih hc

/-- What can be read is matched, though a group may catch something else in the first way. -/
theorem exists_fullMatch_of_reads (h : p.Reads text caught) :
    ∃ found, p.fullMatch text = some found ∧ p.Reads text found := by
  obtain ⟨found, hf⟩ :=
    Option.isSome_iff_exists.mp (fullMatch_isSome_iff.mpr (mem_language_of_reads h))
  exact ⟨found, hf, reads_of_fullMatch hf⟩

variable {symbols : α → Bool}

theorem reads_many_one :
    (many (one symbols)).Reads text caught ↔
      caught = [] ∧ ∀ a ∈ text, symbols a = true := by
  constructor
  · rintro ⟨parts, hp, rfl, rfl⟩
    constructor
    · rw [flatMap_eq_nil_iff]
      intro part hpart
      obtain ⟨a, -, -, hn⟩ := hp part hpart
      exact hn
    · intro a ha
      obtain ⟨part, hpart, ha⟩ := mem_flatMap.mp ha
      obtain ⟨b, hb, hw, -⟩ := hp part hpart
      rw [hw, mem_singleton] at ha
      exact ha ▸ hb
  · rintro ⟨rfl, hall⟩
    refine ⟨text.map fun a => ([a], []), ?_, ?_, ?_⟩
    · rw [forall_mem_map]
      exact fun a ha => ⟨a, hall a ha, rfl, rfl⟩
    · rw [flatMap_map]
      exact (flatMap_singleton' text).symm
    · rw [flatMap_map, eq_comm, flatMap_eq_nil_iff]
      exact fun _ _ => rfl

theorem reads_rep_one {least most : ℕ} :
    (rep least most (one symbols)).Reads text caught ↔
      caught = [] ∧ least ≤ text.length ∧ text.length ≤ most ∧ ∀ a ∈ text, symbols a = true := by
  constructor
  · intro h
    have hs := mem_language_rep_one.mp (mem_language_of_reads h)
    obtain ⟨parts, -, -, hp, htext, hc⟩ := h
    exact ⟨(reads_many_one.mp ⟨parts, hp, htext, hc⟩).1, hs⟩
  · rintro ⟨rfl, hl, hm, hall⟩
    obtain ⟨found, hf, hr⟩ : ∃ found,
        (rep least most (one symbols) : Pattern α ν).fullMatch text = some found ∧
          (rep least most (one symbols)).Reads text found := by
      obtain ⟨found, hf⟩ := Option.isSome_iff_exists.mp
        (fullMatch_isSome_iff.mpr (mem_language_rep_one.mpr ⟨hl, hm, hall⟩))
      exact ⟨found, hf, reads_of_fullMatch hf⟩
    obtain ⟨parts, hsh, hlo, hp, htext, hc⟩ := hr
    obtain ⟨rfl, -⟩ := reads_many_one.mp ⟨parts, hp, htext, hc⟩
    exact ⟨parts, hsh, hlo, hp, htext, hc⟩

theorem reads_oneOrMore_one :
    (oneOrMore (one symbols)).Reads text caught ↔
      caught = [] ∧ text ≠ [] ∧ ∀ a ∈ text, symbols a = true := by
  constructor
  · rintro ⟨head, c, tail, d, ⟨a, ha, rfl, rfl⟩, ht, rfl, rfl⟩
    obtain ⟨rfl, hall⟩ := reads_many_one.mp ht
    exact ⟨rfl, cons_ne_nil a tail, forall_mem_cons.mpr ⟨ha, hall⟩⟩
  · rintro ⟨rfl, hne, hall⟩
    cases text with
    | nil => exact absurd rfl hne
    | cons a tail =>
      obtain ⟨ha, hall⟩ := forall_mem_cons.mp hall
      exact ⟨[a], [], tail, [], ⟨a, ha, rfl, rfl⟩, reads_many_one.mpr ⟨rfl, hall⟩, rfl, rfl⟩

theorem reads_literal [DecidableEq α] {word : List α} :
    (literal word : Pattern α ν).Reads text caught ↔ text = word ∧ caught = [] := by
  induction word generalizing text caught with
  | nil =>
    rw [literal, nothing, reads_rep_one]
    constructor
    · rintro ⟨rfl, -, hm, -⟩
      exact ⟨eq_nil_of_length_eq_zero (Nat.le_zero.mp hm), rfl⟩
    · rintro ⟨rfl, rfl⟩
      exact ⟨rfl, le_rfl, le_rfl, by simp⟩
  | cons a word ih =>
    constructor
    · rintro ⟨head, c, tail, d, ⟨b, hb, rfl, rfl⟩, ht, rfl, rfl⟩
      obtain ⟨rfl, rfl⟩ := ih.mp ht
      obtain rfl : b = a := of_decide_eq_true hb
      exact ⟨rfl, rfl⟩
    · rintro ⟨rfl, rfl⟩
      exact ⟨[a], [], word, [], ⟨a, decide_eq_true rfl, rfl, rfl⟩, ih.mpr ⟨rfl, rfl⟩, rfl, rfl⟩

theorem reads_anyOf [DecidableEq α] {words : List (List α)} :
    (anyOf words : Pattern α ν).Reads text caught ↔ text ∈ words ∧ caught = [] := by
  induction words with
  | nil => simp [anyOf, Reads]
  | cons word words ih =>
    have hc : (anyOf (word :: words) : Pattern α ν).Reads text caught ↔
        (literal word : Pattern α ν).Reads text caught ∨
          (anyOf words : Pattern α ν).Reads text caught := Iff.rfl
    rw [hc, reads_literal, ih, mem_cons, or_and_right]

end Captures

section Fronts

theorem matchFront_seq (h : (seq p q).matchFront text = some w) :
    ∃ v ∈ p.ways text, ∃ u, q.matchFront v.left = some u ∧ w = v.next u := by
  rw [matchFront, ways_seq, List.head?_flatMap] at h
  obtain ⟨v, hv, hh⟩ := exists_of_findSome?_eq_some h
  rw [List.head?_map] at hh
  obtain ⟨u, hu, rfl⟩ := Option.map_eq_some_iff.mp hh
  exact ⟨v, hv, u, hu, rfl⟩

theorem matchFront_group {name : ν} (h : (group name p).matchFront text = some w) :
    ∃ v, p.matchFront text = some v ∧
      w = ⟨(name, text.take (text.length - v.left.length)) :: v.caught, v.left⟩ := by
  rw [matchFront, ways_group, List.head?_map] at h
  obtain ⟨v, hv, rfl⟩ := Option.map_eq_some_iff.mp h
  exact ⟨v, hv, rfl⟩

theorem matchFront_of_reads {caught : List (ν × List α)} (h : p.Reads front caught) :
    (p.matchFront (front ++ rest)).isSome = true := by
  obtain ⟨w, hw, -⟩ := @ways_of_language _ _ _ _ rest (mem_language_of_reads h)
  rw [matchFront, isSome_head?]
  exact ne_nil_of_mem hw

variable {symbols : α → Bool}

theorem head?_repeated_one {n : ℕ} (h : text.length ≤ n) :
    (repeated (one symbols : Pattern α ν).ways 0 n text).head? =
      some ⟨[], text.dropWhile symbols⟩ := by
  induction text generalizing n with
  | nil => cases n <;> rfl
  | cons a rest ih =>
    cases n with
    | zero => exact absurd h (Nat.not_succ_le_zero _)
    | succ n =>
      rw [repeated, if_pos rfl, ways_one_cons, dropWhile_cons]
      by_cases ha : symbols a = true
      · rw [if_pos ha, if_pos ha, flatMap_singleton, List.head?_append, List.head?_map,
          ih (Nat.le_of_succ_le_succ h)]
        rfl
      · rw [if_neg ha, if_neg ha]
        rfl

/-- A class repeated at will reads all that it can first. -/
theorem matchFront_many_one :
    (many (one symbols) : Pattern α ν).matchFront text = some ⟨[], text.dropWhile symbols⟩ :=
  head?_repeated_one le_rfl

theorem matchFront_oneOrMore_one (h : (oneOrMore (one symbols)).matchFront text = some w) :
    w = ⟨[], text.dropWhile symbols⟩ ∧ ∃ a rest, text = a :: rest ∧ symbols a = true := by
  obtain ⟨v, hv, u, hu, rfl⟩ := matchFront_seq h
  obtain ⟨a, ha, rfl, hn⟩ := mem_ways_one.mp hv
  rw [matchFront_many_one] at hu
  cases hu
  refine ⟨?_, a, v.left, rfl, ha⟩
  rw [Way.next, hn, dropWhile_cons_of_pos ha]
  rfl

/-- A group around such a class catches what it reads. -/
theorem matchFront_group_oneOrMore_one {name : ν}
    (h : (group name (oneOrMore (one symbols))).matchFront text = some w) :
    ∃ front, text = front ++ w.left ∧ front ≠ [] ∧ (∀ a ∈ front, symbols a = true) ∧
      (∀ a ∈ w.left.head?, symbols a = false) ∧ w.caught = [(name, front)] := by
  obtain ⟨v, hv, rfl⟩ := matchFront_group h
  obtain ⟨rfl, a, rest, rfl, ha⟩ := matchFront_oneOrMore_one hv
  have hs := takeWhile_append_dropWhile (p := symbols) (l := a :: rest)
  refine ⟨(a :: rest).takeWhile symbols, hs.symm, ?_, ?_, ?_, ?_⟩
  · rw [takeWhile_cons_of_pos ha]
    exact cons_ne_nil _ _
  · exact fun b hb => all_eq_true.mp all_takeWhile b hb
  · intro b hb
    have hh := List.head?_dropWhile_not symbols (a :: rest)
    rw [Option.mem_def.mp hb] at hh
    exact hh
  · have ht : (a :: rest).take ((a :: rest).length - ((a :: rest).dropWhile symbols).length) =
        (a :: rest).takeWhile symbols := by
      have hl := congrArg List.length hs
      rw [length_append] at hl
      rw [← hl, Nat.add_sub_cancel]
      exact (prefix_iff_eq_take.mp ( takeWhile_prefix symbols)).symm
    rw [ht]

end Fronts

section Readings

/-- Every word of the pattern holds a symbol with the property. -/
def Demands (P : α → Prop) : Pattern α ν → Prop
  | .one symbols => ∀ a, symbols a = true → P a
  | .seq p q => p.Demands P ∨ q.Demands P
  | .alt p q => p.Demands P ∧ q.Demands P
  | .opt _ | .many _ => False
  | .rep least _ p => 0 < least ∧ p.Demands P
  | .group _ p => p.Demands P

def nullable : Pattern α ν → Bool
  | .one _ => false
  | .seq p q => p.nullable && q.nullable
  | .alt p q => p.nullable || q.nullable
  | .opt _ | .many _ => true
  | .rep least _ p => least = 0 || p.nullable
  | .group _ p => p.nullable

/-- Every word of the pattern that is not empty begins with a symbol that has the property. -/
def Opens (P : α → Prop) : Pattern α ν → Prop
  | .one symbols => ∀ a, symbols a = true → P a
  | .seq p q => p.Opens P ∧ (p.nullable = true → q.Opens P)
  | .alt p q => p.Opens P ∧ q.Opens P
  | .opt p | .many p | .rep _ _ p | .group _ p => p.Opens P

variable {P : α → Prop} {word : List α}

theorem exists_mem_of_demands (hp : p.Demands P) (h : word ∈ p.language) : ∃ a ∈ word, P a := by
  induction p generalizing word with
  | one symbols =>
    obtain ⟨a, ha, rfl⟩ := h
    exact ⟨a, by simp, hp a ha⟩
  | seq p q ihp ihq =>
    obtain ⟨head, hh, tail, ht, rfl⟩ := Language.mem_mul.mp h
    rcases hp with hp | hq
    · obtain ⟨a, ha, hPa⟩ := ihp hp hh
      exact ⟨a, mem_append_left tail ha, hPa⟩
    · obtain ⟨a, ha, hPa⟩ := ihq hq ht
      exact ⟨a, mem_append_right head ha, hPa⟩
  | alt p q ihp ihq => exact h.elim (ihp hp.1) (ihq hp.2)
  | opt p => exact hp.elim
  | rep least most p ih =>
    obtain ⟨k, hl, -, hk⟩ := h
    obtain ⟨j, rfl⟩ := Nat.exists_eq_add_one.mpr (Nat.lt_of_lt_of_le hp.1 hl)
    rw [pow_succ'] at hk
    obtain ⟨head, hh, tail, -, rfl⟩ := Language.mem_mul.mp hk
    obtain ⟨a, ha, hPa⟩ := ih hp.2 hh
    exact ⟨a, mem_append_left tail ha, hPa⟩
  | many p => exact hp.elim
  | group name p ih => exact ih hp h

/-- The check finds every pattern that reads the empty text. -/
theorem nullable_of_nil_mem (h : [] ∈ p.language) : p.nullable = true := by
  induction p with
  | one symbols =>
    obtain ⟨a, -, hnil⟩ := h
    cases hnil
  | seq p q ihp ihq =>
    obtain ⟨head, hh, tail, ht, hnil⟩ := Language.mem_mul.mp h
    obtain ⟨rfl, rfl⟩ := append_eq_nil_iff.mp hnil
    simp [nullable, ihp hh, ihq ht]
  | alt p q ihp ihq =>
    rcases h with hp | hq
    · simp [nullable, ihp hp]
    · simp [nullable, ihq hq]
  | opt p => rfl
  | rep least most p ih =>
    obtain ⟨k, hl, -, hk⟩ := h
    cases k with
    | zero => simp [nullable, Nat.le_zero.mp hl]
    | succ k =>
      rw [pow_succ'] at hk
      obtain ⟨head, hh, tail, -, hnil⟩ := Language.mem_mul.mp hk
      obtain ⟨rfl, -⟩ := append_eq_nil_iff.mp hnil
      simp [nullable, ih hh]
  | many p => rfl
  | group name p ih => exact ih h

theorem head_of_flatten {words : List (List α)} {a : α}
    (hw : ∀ word ∈ words, ∀ b rest, word = b :: rest → P b) (h : words.flatten = a :: rest) :
    P a := by
  induction words with
  | nil => simp at h
  | cons word words ih =>
    obtain ⟨hwo, hr⟩ := forall_mem_cons.mp hw
    cases word with
    | nil => exact ih hr h
    | cons b tail =>
      obtain ⟨rfl, -⟩ := List.cons.inj h
      exact hwo b tail rfl

/-- A word that is not empty begins as its pattern opens. -/
theorem head_of_opens {a : α} (hp : p.Opens P) (h : a :: rest ∈ p.language) : P a := by
  induction p generalizing a rest with
  | one symbols =>
    obtain ⟨b, hb, hwo⟩ := h
    obtain ⟨rfl, -⟩ := List.cons.inj hwo
    exact hp a hb
  | seq p q ihp ihq =>
    obtain ⟨head, hh, tail, ht, hwo⟩ := Language.mem_mul.mp h
    cases head with
    | nil =>
      obtain rfl : tail = a :: rest := hwo
      exact ihq (hp.2 (nullable_of_nil_mem hh)) ht
    | cons b head =>
      obtain ⟨rfl, -⟩ := List.cons.inj hwo
      exact ihp hp.1 hh
  | alt p q ihp ihq => exact h.elim (ihp hp.1) (ihq hp.2)
  | opt p ih =>
    rcases h with h | hnil
    · exact ih hp h
    · exact absurd hnil (cons_ne_nil a rest)
  | rep least most p ih =>
    obtain ⟨k, -, -, hk⟩ := h
    obtain ⟨words, hf, -, hw⟩ := Language.mem_pow.mp hk
    refine head_of_flatten (fun word hwo b tail heq => ?_) hf.symm
    exact ih hp (heq ▸ hw word hwo)
  | many p ih =>
    obtain ⟨words, hf, hw⟩ := Language.mem_kstar.mp h
    refine head_of_flatten (fun word hwo b tail heq => ?_) hf.symm
    exact ih hp (heq ▸ hw word hwo)
  | group name p ih => exact ih hp h

end Readings

end Pattern

end Aizzak.BacktrackingPatterns
