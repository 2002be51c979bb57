import Aizzak.EventRuns
import Aizzak.KeyedTables
import Aizzak.PyText

/-!
The cache in front of an embedding provider. A call looks every text up, embeds the texts it did
not find, writes them back and puts the vectors in the caller's order. Reads and writes may fail,
entries expire, and a read may return a value of another writer that does not unpack. Every entry
which unpacks holds the vector of the text its key was made from.
-/
namespace Aizzak.EmbeddingCache

open EventRuns KeyedTables PyText List

/-- A vector of 32-bit floats, each by its bit pattern. -/
abbrev Vector := List UInt32

section Codec

def packWord (word : UInt32) : List UInt8 :=
  [.ofNat word.toNat, .ofNat (word.toNat / 256), .ofNat (word.toNat / 65536),
    .ofNat (word.toNat / 16777216)]

def unpackWord (b0 b1 b2 b3 : UInt8) : UInt32 :=
  .ofNat (b0.toNat + 256 * b1.toNat + 65536 * b2.toNat + 16777216 * b3.toNat)

def pack (vector : Vector) : List UInt8 := vector.flatMap packWord

def unpackWords : List UInt8 → Vector
  | b0 :: b1 :: b2 :: b3 :: rest => unpackWord b0 b1 b2 b3 :: unpackWords rest
  | _ => []

def bytesPerFloat : ℕ := 4

/-- Anything that cannot be read fully is `none`. -/
def unpack (raw : Option (List UInt8)) (width : ℕ) : Option Vector :=
  match raw with
  | none => none
  | some raw => if raw.length ≠ width * bytesPerFloat then none else some (unpackWords raw)

theorem unpackWord_packWord (word : UInt32) :
    unpackWord (.ofNat word.toNat) (.ofNat (word.toNat / 256)) (.ofNat (word.toNat / 65536))
      (.ofNat (word.toNat / 16777216)) = word := by
  have hw := word.toNat_lt
  apply UInt32.toNat_inj.mp
  simp only [unpackWord, UInt8.toNat_ofNat', UInt32.toNat_ofNat']
  omega

theorem length_pack (vector : Vector) : (pack vector).length = vector.length * bytesPerFloat := by
  induction vector with
  | nil => rfl
  | cons word vector ih =>
    simp only [pack, flatMap_cons, length_append, length_cons, packWord,
      length_nil, bytesPerFloat] at ih ⊢
    omega

theorem unpackWords_pack (vector : Vector) : unpackWords (pack vector) = vector := by
  induction vector with
  | nil => rfl
  | cons word vector ih =>
    simp only [pack, flatMap_cons, packWord, cons_append, nil_append, unpackWords,
      unpackWord_packWord] at ih ⊢
    rw [ih]

theorem unpack_pack (vector : Vector) :
    unpack (some (pack vector)) vector.length = some vector := by
  simp only [unpack, length_pack, unpackWords_pack, ne_eq, not_true_eq_false, if_false]

end Codec

section Scatter

variable {α β : Type}

def missesOf (texts : List α) (hits : List (Option β)) : List α :=
  (texts.zip hits).filterMap fun entry => if entry.2.isNone then some entry.1 else none

inductive Failure (ε : Type) where
  | encode (error : UnicodeEncodeError)
  | strictZip
  | stopIteration
  | inner (error : ε)

def merge {ε : Type} : List (Option β) → List β → Except (Failure ε) (List β)
  | [], _ => .ok []
  | some hit :: hits, pending => (merge hits pending).map (hit :: ·)
  | none :: _, [] => .error .stopIteration
  | none :: hits, next :: pending => (merge hits pending).map (next :: ·)

def HitsFaithful (f : α → β) (texts : List α) (hits : List (Option β)) : Prop :=
  List.Forall₂ (fun text hit => ∀ value, hit = some value → value = f text) texts hits

theorem missesOf_cons_none (text : α) (texts : List α) (hits : List (Option β)) :
    missesOf (text :: texts) (none :: hits) = text :: missesOf texts hits := by
  simp [missesOf]

theorem missesOf_cons_some (text : α) (texts : List α) (hit : β) (hits : List (Option β)) :
    missesOf (text :: texts) (some hit :: hits) = missesOf texts hits := by
  simp [missesOf]

variable {texts : List α} {hits : List (Option β)}

theorem mem_of_mem_missesOf {text : α} (h : text ∈ missesOf texts hits) : text ∈ texts := by
  obtain ⟨entry, he, heq⟩ := mem_filterMap.mp h
  split_ifs at heq
  cases heq
  exact (of_mem_zip he).1

theorem HitsFaithful.merge {ε : Type} {f : α → β} (h : HitsFaithful f texts hits) :
    (merge hits ((missesOf texts hits).map f) : Except (Failure ε) (List β)) =
      .ok (texts.map f) := by
  induction h with
  | nil => rfl
  | @cons text hit texts hits hhit _ ih =>
    cases hit with
    | none =>
      rw [missesOf_cons_none, map_cons, EmbeddingCache.merge, ih]
      rfl
    | some value =>
      rw [missesOf_cons_some, EmbeddingCache.merge, ih, hhit value rfl]
      rfl

theorem HitsFaithful.filterMap {f : α → β} (h : HitsFaithful f texts hits)
    (hn : missesOf texts hits = []) :
    hits.filterMap id = texts.map f := by
  induction h with
  | nil => rfl
  | @cons text hit texts hits hhit _ ih =>
    cases hit with
    | none => simp [missesOf_cons_none] at hn
    | some value =>
      rw [missesOf_cons_some] at hn
      rw [filterMap_cons, ih hn]
      simp [hhit value rfl]

end Scatter

structure EmbeddingServiceSettings where
  embeddingMaxInputTokens : ℕ
  dimensions : ℕ

structure EmbeddingResult where
  vectors : List Vector
  model : Text
  dimensions : ℕ
  tokens : ℕ

def IsCacheable (texts : List Text) : Prop := texts ≠ [] ∧ ∀ text ∈ texts, ¬ Blank text

instance (texts : List Text) : Decidable (IsCacheable texts) :=
  decidable_of_iff (texts.isEmpty = false ∧ ∀ text ∈ texts, ¬ Blank text) <| by
    rw [List.isEmpty_eq_false_iff]
    rfl

/-- The wrapped adapter: on what it accepts, a pure function of each text. -/
structure Inner (ε : Type) where
  embed : List Text → Text → Text → Except ε EmbeddingResult
  vector : Text → Text → Vector
  perText : ∀ texts model apiKey, IsCacheable texts →
    ∃ answer, embed texts model apiKey = .ok answer ∧ answer.vectors = texts.map (vector model)

/-- The provider with its settings and `sha256`, the digest of the encoded material in hex. -/
structure CachingEmbeddingProvider (ε : Type) where
  inner : Inner ε
  settings : EmbeddingServiceSettings
  sha256 : Text → Text

/-- What a read meets. A value left by another writer does not have the width's length. -/
inductive ReadOutcome (width : ℕ) where
  | stored
  | expired
  | fails
  | malformed (raw : List UInt8) (hlength : raw.length ≠ width * bytesPerFloat)

inductive WriteOutcome where
  | stored
  | fails

structure Call (width : ℕ) where
  texts : List Text
  model : Text
  apiKey : Text
  reads : ℕ → ReadOutcome width
  writes : ℕ → WriteOutcome

abbrev Cache := AList fun _ : Text => List UInt8

namespace CachingEmbeddingProvider

variable {ε : Type} (p : CachingEmbeddingProvider ε)

def separator : Text :=
  0 :: ofString (toString p.settings.embeddingMaxInputTokens) ++
    0 :: ofString (toString p.settings.dimensions) ++ [0]

def material (text model : Text) : Text := model ++ p.separator ++ text

def keyOf (text model : Text) : Text := ofString "embed:v1:" ++ p.sha256 (p.material text model)

def key (text model : Text) : Except UnicodeEncodeError Text :=
  (encode (p.material text model)).map fun bytes => ofString "embed:v1:" ++ p.sha256 bytes

def get (cache : Cache) (key : Text) (outcome : ReadOutcome p.settings.dimensions) :
    Option Vector :=
  match outcome with
  | .stored => unpack (cache.lookup key) p.settings.dimensions
  | .expired => unpack none p.settings.dimensions
  | .fails => none
  | .malformed raw _ => unpack (some raw) p.settings.dimensions

def put (cache : Cache) (key : Text) (vector : Vector) (outcome : WriteOutcome) : Cache :=
  if vector.length ≠ p.settings.dimensions then cache
  else match outcome with
    | .stored => cache.insert key (pack vector)
    | .fails => cache

def lookups (cache : Cache) (call : Call p.settings.dimensions) :
    Except UnicodeEncodeError (List (Option Vector)) :=
  call.texts.zipIdx.mapM fun entry =>
    (p.key entry.1 call.model).map fun key => p.get cache key (call.reads entry.2)

/-- The writes after a fetch; the keys have been computed once already. -/
def writeBack (call : Call p.settings.dimensions) : ℕ → List (Text × Vector) → Cache → Cache
  | _, [], cache => cache
  | i, (text, vector) :: rest, cache =>
    writeBack call (i + 1) rest (p.put cache (p.keyOf text call.model) vector (call.writes i))

def fetched (cache : Cache) (call : Call p.settings.dimensions) (hits : List (Option Vector))
    (misses : List Text) (answer : EmbeddingResult) :
    Cache × Except (Failure ε) EmbeddingResult :=
  (p.writeBack call 0 (misses.zip answer.vectors) cache,
    if misses.length ≠ answer.vectors.length then .error .strictZip
    else (merge hits answer.vectors).map fun vectors =>
      ⟨vectors, call.model, answer.dimensions, answer.tokens⟩)

def embed (cache : Cache) (call : Call p.settings.dimensions) :
    Cache × Except (Failure ε) EmbeddingResult :=
  if ¬ IsCacheable call.texts then
    (cache, (p.inner.embed call.texts call.model call.apiKey).mapError .inner)
  else match p.lookups cache call with
    | .error error => (cache, .error (.encode error))
    | .ok hits =>
      match missesOf call.texts hits with
      | [] => (cache, .ok ⟨hits.filterMap id, call.model, p.settings.dimensions, 0⟩)
      | miss :: misses =>
        match p.inner.embed (miss :: misses) call.model call.apiKey with
        | .error error => (cache, .error (.inner error))
        | .ok answer => p.fetched cache call hits (miss :: misses) answer

def step (cache : Cache) (call : Call p.settings.dimensions) : Option Cache :=
  some (p.embed cache call).1

/-- The call returns the vectors the wrapped adapter returns for its texts, or its error. -/
def Refines (cache : Cache) (call : Call p.settings.dimensions) : Prop :=
  match p.inner.embed call.texts call.model call.apiKey with
  | .ok answer => ∃ result, (p.embed cache call).2 = .ok result ∧ result.vectors = answer.vectors
  | .error error => (p.embed cache call).2 = .error (.inner error)

variable {p}

theorem material_append (text model : Text) :
    p.material text model = model ++ 0 :: (p.separator.tail ++ text) := by
  simp [material, separator]

variable {text model : Text}

/-- The zero code point ends a model name that has none, so the material can be parsed. -/
theorem material_injective {text' model' : Text} (hmd : 0 ∉ model) (hm : 0 ∉ model')
    (h : p.material text model = p.material text' model') :
    model = model' ∧ text = text' := by
  rw [material_append, material_append] at h
  have ht : ∀ {name : Text} (rest : Text), 0 ∉ name →
      (name ++ 0 :: rest).takeWhile (· ≠ 0) = name := by
    intro name rest hn
    rw [takeWhile_append_of_pos]
    · simp
    · intro c hc
      simpa using fun hz : c = 0 => hn (hz ▸ hc)
  have hmo : model = model' := by
    rw [← ht _ hmd, h, ht _ hm]
  subst hmo
  have hr := List.cons.inj (append_cancel_left h)
  exact ⟨rfl, append_cancel_left hr.2⟩

theorem encodable_material :
    Encodable (p.material text model) ↔ Encodable model ∧ Encodable text := by
  have hs : Encodable p.separator := by
    have hz : Encodable [0] := by decide
    have ht := encodable_ofString (toString p.settings.embeddingMaxInputTokens)
    have hw := encodable_ofString (toString p.settings.dimensions)
    have h := encodable_append.mpr ⟨encodable_append.mpr ⟨encodable_append.mpr
      ⟨encodable_append.mpr ⟨hz, ht⟩, hz⟩, hw⟩, hz⟩
    simpa [separator] using h
  unfold material
  rw [encodable_append, encodable_append]
  simp [hs]

theorem key_eq_map (text model : Text) :
    p.key text model = (encode (p.material text model)).map fun _ => p.keyOf text model := by
  unfold key encode
  split_ifs <;> rfl

variable {call : Call p.settings.dimensions} {hits : List (Option Vector)}

theorem lookups_eq_ok {cache : Cache} :
    p.lookups cache call = .ok hits ↔
      (∀ text ∈ call.texts, Encodable (p.material text call.model)) ∧
        hits = call.texts.zipIdx.map fun entry =>
          p.get cache (p.keyOf entry.1 call.model) (call.reads entry.2) := by
  have hs : ∀ entry : Text × ℕ,
      (p.key entry.1 call.model).map (fun key => p.get cache key (call.reads entry.2)) =
        (encode (p.material entry.1 call.model)).map fun _ =>
          p.get cache (p.keyOf entry.1 call.model) (call.reads entry.2) := by
    intro entry
    rw [key_eq_map]
    cases encode (p.material entry.1 call.model) <;> rfl
  unfold lookups
  simp only [hs]
  rw [mapM_encode_eq_ok (f := fun entry : Text × ℕ => p.material entry.1 call.model)]
  have ht : (∀ entry ∈ call.texts.zipIdx, Encodable (p.material entry.1 call.model)) ↔
      ∀ text ∈ call.texts, Encodable (p.material text call.model) := by
    constructor
    · intro h text htext
      rw [← zipIdx_map_fst 0 call.texts] at htext
      obtain ⟨entry, he, rfl⟩ := mem_map.mp htext
      exact h entry he
    · intro h entry he
      exact h entry.1 (fst_mem_of_mem_zipIdx he)
  rw [ht]

/-- Every entry that unpacks is the vector of a pair its key was made from. -/
def Sound (p : CachingEmbeddingProvider ε) (known : Text → Text → Prop) (cache : Cache) : Prop :=
  ∀ key raw vector, cache.lookup key = some raw →
    unpack (some raw) p.settings.dimensions = some vector →
    ∃ model text, known model text ∧ p.keyOf text model = key ∧ vector = p.inner.vector model text

def KeysDistinct (p : CachingEmbeddingProvider ε) (known : Text → Text → Prop) : Prop :=
  ∀ model text model' text', known model text → known model' text' →
    p.keyOf text model = p.keyOf text' model' → model = model' ∧ text = text'

variable {known : Text → Text → Prop} {cache : Cache}

/-- A hit is the vector of its own text. -/
theorem Sound.get (hsound : Sound p known cache) (hdistinct : KeysDistinct p known)
    (hknown : known model text) {outcome : ReadOutcome p.settings.dimensions} {vector : Vector}
    (hget : p.get cache (p.keyOf text model) outcome = some vector) :
    vector = p.inner.vector model text := by
  cases outcome with
  | stored =>
    cases hl : cache.lookup (p.keyOf text model) with
    | none => simp [CachingEmbeddingProvider.get, hl, unpack] at hget
    | some raw =>
      simp only [CachingEmbeddingProvider.get, hl] at hget
      obtain ⟨model', text', hk, hkey, rfl⟩ := hsound _ raw vector hl hget
      obtain ⟨rfl, rfl⟩ := hdistinct _ _ _ _ hk hknown hkey
      rfl
  | expired => simp [CachingEmbeddingProvider.get, unpack] at hget
  | fails => simp [CachingEmbeddingProvider.get] at hget
  | malformed raw hle => simp [CachingEmbeddingProvider.get, unpack, hle] at hget

/-- What is written under a key is the vector of its text. -/
theorem Sound.put (hsound : Sound p known cache) (hknown : known model text)
    (outcome : WriteOutcome) :
    Sound p known (p.put cache (p.keyOf text model) (p.inner.vector model text) outcome) := by
  unfold CachingEmbeddingProvider.put
  split_ifs with hw
  · exact hsound
  cases outcome with
  | fails => exact hsound
  | stored =>
    intro key raw vector hl hu
    rcases lookup_insert_iff.mp hl with ⟨rfl, rfl⟩ | ⟨-, hl⟩
    · refine ⟨model, text, hknown, rfl, ?_⟩
      rw [ne_eq, not_not] at hw
      rw [← hw, unpack_pack] at hu
      exact (Option.some.inj hu).symm
    · exact hsound key raw vector hl hu

theorem Sound.writeBack {misses : List Text} (hknown : ∀ text ∈ misses, known call.model text)
    (i : ℕ) (hsound : Sound p known cache) :
    Sound p known (p.writeBack call i
      (misses.zip (misses.map (p.inner.vector call.model))) cache) := by
  induction misses generalizing i cache with
  | nil => exact hsound
  | cons text misses ih =>
    rw [forall_mem_cons] at hknown
    exact ih hknown.2 (i + 1) (hsound.put hknown.1 (call.writes i))

section

variable (hsound : Sound p known cache) (hdistinct : KeysDistinct p known)
    (hknown : ∀ text ∈ call.texts, known call.model text)
include hsound hdistinct hknown

theorem Sound.hitsFaithful (hh : p.lookups cache call = .ok hits) :
    HitsFaithful (p.inner.vector call.model) call.texts hits := by
  obtain ⟨-, rfl⟩ := lookups_eq_ok.mp hh
  unfold HitsFaithful
  rw [forall₂_map_right_iff]
  rw [forall₂_iff_get]
  refine ⟨by simp, ?_⟩
  intro i hi hi' vector hget
  simp only [get_eq_getElem, getElem_zipIdx] at hget ⊢
  exact hsound.get hdistinct (hknown _ (getElem_mem hi)) hget

/-- A call over known texts whose lookups succeed returns the wrapped adapter's vectors and
leaves the cache sound. -/
theorem Sound.embed_of_lookups (hc : IsCacheable call.texts)
    (hh : p.lookups cache call = .ok hits) :
    Sound p known (p.embed cache call).1 ∧
      ∃ result, (p.embed cache call).2 = .ok result ∧
        result.vectors = call.texts.map (p.inner.vector call.model) := by
  have hf := hsound.hitsFaithful hdistinct hknown hh
  unfold embed
  rw [if_neg (not_not.mpr hc), hh]
  simp only
  split
  next hm => exact ⟨hsound, _, rfl, hf.filterMap hm⟩
  next miss misses hm =>
    have hmem : ∀ text ∈ miss :: misses, text ∈ call.texts := by
      intro text htext
      rw [← hm] at htext
      exact mem_of_mem_missesOf htext
    have ha : IsCacheable (miss :: misses) :=
      ⟨cons_ne_nil _ _, fun text htext => hc.2 text (hmem text htext)⟩
    obtain ⟨answer, han, hv⟩ := p.inner.perText _ call.model call.apiKey ha
    rw [han]
    simp only [fetched, hv]
    refine ⟨hsound.writeBack (fun text htext => hknown text (hmem text htext)) 0, ?_⟩
    rw [if_neg (by simp), ← hm, hf.merge]
    exact ⟨_, rfl, rfl⟩

end

theorem embed_of_lookups_error (hc : IsCacheable call.texts) {error : UnicodeEncodeError}
    (he : p.lookups cache call = .error error) :
    p.embed cache call = (cache, .error (.encode error)) := by
  unfold embed
  rw [if_neg (not_not.mpr hc), he]

/-- A call leaves the cache sound, whatever its reads and writes meet. -/
theorem Sound.step (hdistinct : KeysDistinct p known)
    (hknown : ∀ text ∈ call.texts, known call.model text) {cache' : Cache}
    (hsound : Sound p known cache) (hs : p.step cache call = some cache') :
    Sound p known cache' := by
  cases hs
  by_cases hc : IsCacheable call.texts
  · cases hl : p.lookups cache call with
    | error error =>
      rw [embed_of_lookups_error hc hl]
      exact hsound
    | ok hits => exact (hsound.embed_of_lookups hdistinct hknown hc hl).1
  · unfold embed
    rw [if_pos hc]
    exact hsound

/-- Over a sound cache the wrapper refines the wrapped adapter exactly on the calls it
delegates whole and those it can encode. -/
theorem Sound.refines_iff (hsound : Sound p known cache) (hdistinct : KeysDistinct p known)
    (hknown : ∀ text ∈ call.texts, known call.model text) :
    p.Refines cache call ↔
      (IsCacheable call.texts → ∀ text ∈ call.texts, Encodable (p.material text call.model)) := by
  unfold Refines
  by_cases hc : IsCacheable call.texts
  · obtain ⟨answer, ha, hv⟩ := p.inner.perText _ call.model call.apiKey hc
    rw [ha]
    simp only [hv]
    cases hl : p.lookups cache call with
    | error error =>
      rw [embed_of_lookups_error hc hl]
      constructor
      · intro h
        obtain ⟨result, hr, -⟩ := h
        cases hr
      · intro h
        have hf : ∃ hits, p.lookups cache call = .ok hits :=
          ⟨_, lookups_eq_ok.mpr ⟨h hc, rfl⟩⟩
        obtain ⟨hits, hok⟩ := hf
        rw [hl] at hok
        cases hok
    | ok hits =>
      constructor
      · intro _ _
        exact (lookups_eq_ok.mp hl).1
      · intro _
        exact (hsound.embed_of_lookups hdistinct hknown hc hl).2
  · have he : (p.embed cache call).2 =
        (p.inner.embed call.texts call.model call.apiKey).mapError .inner := by
      unfold embed
      rw [if_pos hc]
    rw [he]
    cases p.inner.embed call.texts call.model call.apiKey with
    | ok answer => exact ⟨fun _ h => absurd h hc, fun _ => ⟨answer, rfl, rfl⟩⟩
    | error error => exact ⟨fun _ h => absurd h hc, fun _ => rfl⟩

end CachingEmbeddingProvider

open CachingEmbeddingProvider

def Asked {width : ℕ} (calls : List (Call width)) (model text : Text) : Prop :=
  ∃ call ∈ calls, call.model = model ∧ text ∈ call.texts

/-- `sha256` tells the encoded materials of the calls apart. -/
def DigestsDistinct {ε : Type} (p : CachingEmbeddingProvider ε)
    (calls : List (Call p.settings.dimensions)) : Prop :=
  ∀ c ∈ calls, ∀ x ∈ c.texts, ∀ d ∈ calls, ∀ y ∈ d.texts,
    p.sha256 (p.material x c.model) = p.sha256 (p.material y d.model) →
      p.material x c.model = p.material y d.model

/-- After any earlier calls, whatever their reads and writes met, a call refines the
wrapped adapter exactly when it is delegated whole or its model and texts hold no
surrogate, as long as model names hold no zero code point. -/
theorem embed_refines_inner_iff {ε : Type} (p : CachingEmbeddingProvider ε)
    (calls : List (Call p.settings.dimensions)) (call : Call p.settings.dimensions)
    (cache : Cache) (hrun : run p.step ∅ calls = some cache)
    (hmodels : ∀ c ∈ call :: calls, 0 ∉ c.model) (hdigests : DigestsDistinct p (call :: calls)) :
    p.Refines cache call ↔
      (IsCacheable call.texts → Encodable call.model ∧ ∀ text ∈ call.texts, Encodable text) := by
  have hdistinct : KeysDistinct p (Asked (call :: calls)) := by
    intro model text model' text' hknown hk hkey
    obtain ⟨c, hc, rfl, htext⟩ := hknown
    obtain ⟨d, hd, rfl, hte⟩ := hk
    have hdi := append_cancel_left hkey
    exact material_injective (hmodels c hc) (hmodels d hd)
      (hdigests c hc text htext d hd text' hte hdi)
  have he : Sound p (Asked (call :: calls)) ∅ := by
    intro key raw vector hl
    simp at hl
  have ha : Guarded p.step (fun _ c => c ∈ call :: calls) ∅ calls :=
    guarded_of_forall fun c hc _ => mem_cons_of_mem call hc
  have hsound : Sound p (Asked (call :: calls)) cache := by
    refine run_invariant ?_ ha hrun he
    intro s c t hs hc ht
    exact Sound.step hdistinct (fun text htext => ⟨c, hc, rfl, htext⟩) hs ht
  rw [hsound.refines_iff hdistinct fun text htext => ⟨call, by simp, rfl, htext⟩]
  simp only [encodable_material]
  constructor
  · intro h hca
    obtain ⟨text, htext⟩ := exists_mem_of_ne_nil _ hca.1
    exact ⟨(h hca text htext).1, fun text htext => (h hca text htext).2⟩
  · intro h hca text htext
    exact ⟨(h hca).1, (h hca).2 text htext⟩

private def lengths : Inner Unit where
  embed texts model _ := .ok ⟨texts.map fun text => [.ofNat model.length, .ofNat text.length],
    model, 2, texts.length⟩
  vector model text := [.ofNat model.length, .ofNat text.length]
  perText := by
    intro texts model apiKey _
    exact ⟨_, rfl, rfl⟩

private def hi : Text := ofString "hi"

private def howSo : Text := ofString "how so"

private def e5 : Text := ofString "e5"

private def digestTable (material : Text) : Text :=
  if material.getLast? = hi.getLast? then
    ofString "4310355ce4880ebcf45ea8e512309cc293e70b01f39b0db039eaa4bb0e2cae33"
  else ofString "c7c0f4e49baaf7dd35d31f02ccfd9dfeae689516a4ffcb5bcec29592cbdb4420"

private def cached : CachingEmbeddingProvider Unit := ⟨lengths, ⟨512, 2⟩, digestTable⟩

private def firstCall : Call 2 :=
  ⟨[hi, howSo], e5, [], fun _ => .stored, fun i => if i = 1 then .fails else .stored⟩

private def mixedCall : Call 2 :=
  ⟨[howSo, hi, hi], e5, [],
    fun i => if i = 2 then .malformed [0] (by decide) else .stored, fun _ => .stored⟩

theorem mixed_call_refines_inner :
    ∃ cache, run cached.step ∅ [firstCall] = some cache ∧ (cache.keys.length = 1) ∧
      cached.Refines cache mixedCall := by
  obtain ⟨cache, hrun, hl⟩ := exists_run_of_any (p := fun cache => cache.keys.length == 1)
    (show (run cached.step ∅ [firstCall]).any _ = true by decide +kernel)
  refine ⟨cache, hrun, by simpa using hl, ?_⟩
  have he : Encodable mixedCall.model ∧ ∀ text ∈ mixedCall.texts, Encodable text := by
    decide +kernel
  refine (embed_refines_inner_iff cached [firstCall] mixedCall cache hrun ?_ ?_).mpr
    fun _ => he
  · decide +kernel
  · unfold DigestsDistinct
    decide +kernel

private def surrogateCall : Call 2 :=
  ⟨[[0xD800]], e5, [], fun _ => .stored, fun _ => .stored⟩

/-- A text with a lone surrogate raises in the key, where the wrapped adapter answers. -/
theorem surrogate_text_raises_in_key :
    (∃ answer, cached.inner.embed surrogateCall.texts e5 [] = .ok answer) ∧
      ¬ cached.Refines ∅ surrogateCall := by
  refine ⟨⟨_, rfl⟩, ?_⟩
  intro h
  obtain ⟨result, hr, -⟩ := h
  have hf : ((cached.embed ∅ surrogateCall).2.toOption.isNone) = true := by decide +kernel
  rw [hr] at hf
  cases hf

end Aizzak.EmbeddingCache
