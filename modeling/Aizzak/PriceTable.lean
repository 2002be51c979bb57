import Aizzak.IntText
import Aizzak.KeyedTables

/-!
The price table of the cloud models. A price is read the way `Decimal` reads the text
of a number: exactly, whatever its digits, from an integer, a float's shortest text or
a string with signs, blanks and underscores. A table is accepted whole or refused with
the place of its first fault, and the routing table then refuses a hole and a price
for a local provider.
-/
namespace Aizzak.PriceTable

open PyText

structure Price where
  coefficient : ℕ
  exponent : ℤ
deriving DecidableEq, Repr

def Price.value (price : Price) : ℚ := price.coefficient * (10 : ℚ) ^ price.exponent

structure ModelPrice where
  input : Price
  output : Price
deriving DecidableEq, Repr

section Reading

/-- What `Decimal` made of a text: a signed finite number, or an infinity or a NaN. -/
inductive Reading where
  | finite (negative : Bool) (magnitude : Price)
  | notFinite
deriving DecidableEq, Repr

def byteOf (c : CodePoint) : Option ℕ :=
  if c.val < 128 then some c.val
  else if isSpace c then some 32
  else (digit c).map (48 + ·)

/-- The ASCII form `Decimal` reads: stripped, without underscores, digits of every script. -/
def numericAscii (text : Text) : Option (List ℕ) :=
  ((strip text).filter fun c => c.val ≠ 95).mapM byteOf

def isDigitByte (b : ℕ) : Bool := 48 ≤ b && b ≤ 57

def valueOfDigits (digits : List ℕ) : ℕ := digits.foldl (fun value b => 10 * value + (b - 48)) 0

def splitSign : List ℕ → Bool × List ℕ
  | 45 :: rest => (true, rest)
  | 43 :: rest => (false, rest)
  | rest => (false, rest)

def readExponent : List ℕ → Option ℤ
  | [] => some 0
  | mark :: rest =>
    let (negative, digits) := splitSign rest
    if (mark = 101 ∨ mark = 69) ∧ digits ≠ [] ∧ digits.all isDigitByte then
      some (if negative then -valueOfDigits digits else valueOfDigits digits)
    else none

def splitFraction : List ℕ → List ℕ × List ℕ
  | 46 :: rest => (rest.takeWhile isDigitByte, rest.dropWhile isDigitByte)
  | rest => ([], rest)

def readFinite (bytes : List ℕ) : Option Price :=
  let whole := bytes.takeWhile isDigitByte
  let (fraction, tail) := splitFraction (bytes.dropWhile isDigitByte)
  if whole ++ fraction = [] then none
  else (readExponent tail).map fun e => ⟨valueOfDigits (whole ++ fraction), e - fraction.length⟩

def lowerByte (b : ℕ) : ℕ := if 65 ≤ b ∧ b ≤ 90 then b + 32 else b

def dropSignaling : List ℕ → List ℕ
  | 115 :: rest => rest
  | rest => rest

def isSpecial (bytes : List ℕ) : Bool :=
  let word := bytes.map lowerByte
  let unsignaled := dropSignaling word
  word == [105, 110, 102] || word == [105, 110, 102, 105, 110, 105, 116, 121] ||
    (unsignaled.take 3 == [110, 97, 110] && (unsignaled.drop 3).all isDigitByte)

def withinLimits (price : Price) : Bool :=
  price.exponent + Nat.log 10 price.coefficient ≤ 999999999999999999 &&
    -1999999999999999997 ≤ price.exponent

/-- `Decimal(text)`; none is `InvalidOperation`. -/
def readDecimal (text : Text) : Option Reading :=
  (numericAscii text).bind fun bytes =>
    let (negative, body) := splitSign bytes
    match readFinite body with
    | some price => if withinLimits price then some (.finite negative price) else none
    | none => if isSpecial body then some .notFinite else none

end Reading

inductive Key where
  | str (text : Text)
  | other
deriving DecidableEq, Repr

/-- A value of the decoded setting; a float is the text `str` shows of it. -/
inductive Raw where
  | bool (b : Bool)
  | int (n : ℤ)
  | float (shown : Text)
  | str (text : Text)
  | dict (items : List (Key × Raw))
  | other

inductive Side where
  | input
  | output
deriving DecidableEq, Repr

inductive PriceError where
  | notAnObject
  | badKey (key : Key)
  | badEntry (key : Text)
  | notANumber (key : Text) (side : Side)
  | notFiniteOrNegative (key : Text) (side : Side)
  | valueError
  | localProvider (provider model : Text)
  | unpricedRoute (capability provider model : Text)
deriving DecidableEq, Repr

def separator : CodePoint := 0x2F

def Side.name : Side → Text
  | .input => ofString "input"
  | .output => ofString "output"

def priceOfReading (key : Text) (side : Side) : Option Reading → Except PriceError Price
  | none => .error (.notANumber key side)
  | some .notFinite => .error (.notFiniteOrNegative key side)
  | some (.finite negative price) =>
    if negative ∧ price.coefficient ≠ 0 then .error (.notFiniteOrNegative key side)
    else .ok price

def price (key : Text) (side : Side) : Raw → Except PriceError Price
  | .int n =>
    if 10 ^ IntText.maxStrDigits ≤ n.natAbs then .error .valueError
    else priceOfReading key side (some (.finite (decide (n < 0)) ⟨n.natAbs, 0⟩))
  | .float shown => priceOfReading key side (readDecimal shown)
  | .str text => priceOfReading key side (readDecimal text)
  | _ => .error (.notANumber key side)

def hasEntryKeys (items : List (Key × Raw)) : Bool :=
  items.all (fun item => item.1 = .str Side.input.name ∨ item.1 = .str Side.output.name) &&
    (items.lookup (.str Side.input.name)).isSome && (items.lookup (.str Side.output.name)).isSome

def parseEntry (key : Text) : Raw → Except PriceError ModelPrice
  | .dict items =>
    match items.lookup (.str Side.input.name), items.lookup (.str Side.output.name) with
    | some input, some output =>
      if hasEntryKeys items then do
        let input ← price key .input input
        let output ← price key .output output
        return ⟨input, output⟩
      else .error (.badEntry key)
    | _, _ => .error (.badEntry key)
  | _ => .error (.badEntry key)

def parseKey : Key → Except PriceError (Text × Text)
  | .str text =>
    let provider := text.takeWhile (· ≠ separator)
    let model := (text.dropWhile (· ≠ separator)).tail
    if separator ∈ text ∧ ¬Blank provider ∧ ¬Blank model then .ok (provider, model)
    else .error (.badKey (.str text))
  | .other => .error (.badKey .other)

abbrev Prices := AList fun _ : Text × Text => ModelPrice

def keyText : Key → Text
  | .str text => text
  | .other => []

def addEntry (prices : Prices) (item : Key × Raw) : Except PriceError Prices := do
  let name ← parseKey item.1
  let entry ← parseEntry (keyText item.1) item.2
  return prices.insert name entry

def parsePrices : Raw → Except PriceError Prices
  | .dict items => items.foldlM addEntry ∅
  | _ => .error .notAnObject

structure ProviderRoute where
  isLlm : Bool
  capability : Text
  model : Text
deriving DecidableEq, Repr

structure ConfiguredProvider where
  provider : Text
  keyless : Bool
  routes : List ProviderRoute
deriving DecidableEq, Repr

structure LlmPricing where
  prices : Prices
  keyless : List Text

def keylessOf (providers : List ConfiguredProvider) : List Text :=
  (providers.filter (·.keyless)).map (·.provider)

def paidRoutes (providers : List ConfiguredProvider) : List (Text × ProviderRoute) :=
  (providers.filter fun entry => !entry.keyless).flatMap fun entry =>
    (entry.routes.filter (·.isLlm)).map fun route => (entry.provider, route)

def checkRoutes (providers : List ConfiguredProvider) (prices : Prices) :
    Except PriceError LlmPricing :=
  match prices.keys.reverse.find? fun name => name.1 ∈ keylessOf providers with
  | some (provider, model) => .error (.localProvider provider model)
  | none =>
    match (paidRoutes providers).find? fun route => (route.1, route.2.model) ∉ prices with
    | some (provider, route) => .error (.unpricedRoute route.capability provider route.model)
    | none => .ok ⟨prices, keylessOf providers⟩

def forRoutes (raw : Raw) (providers : List ConfiguredProvider) : Except PriceError LlmPricing :=
  (parsePrices raw).bind (checkRoutes providers)

variable {raw : Raw} {providers : List ConfiguredProvider} {prices : Prices} {pricing : LlmPricing}

theorem mem_paidRoutes {name : Text} {route : ProviderRoute} :
    (name, route) ∈ paidRoutes providers ↔
      ∃ entry ∈ providers, entry.keyless = false ∧ route ∈ entry.routes ∧ route.isLlm = true ∧
        entry.provider = name := by
  simp [paidRoutes, and_assoc]

theorem mem_keylessOf {name : Text} :
    name ∈ keylessOf providers ↔
      ∃ entry ∈ providers, entry.keyless = true ∧ entry.provider = name := by
  simp [keylessOf, and_assoc]

/-- No local provider has a price and every paid route has one. -/
structure Priced (providers : List ConfiguredProvider) (prices : Prices) : Prop where
  local_free : ∀ name ∈ prices, name.1 ∉ keylessOf providers
  paid : ∀ entry ∈ providers, entry.keyless = false → ∀ route ∈ entry.routes,
    route.isLlm = true → (entry.provider, route.model) ∈ prices

theorem checkRoutes_eq_ok_iff :
    checkRoutes providers prices = .ok pricing ↔
      Priced providers prices ∧ pricing = ⟨prices, keylessOf providers⟩ := by
  rw [checkRoutes]
  constructor
  · intro h
    split at h
    · cases h
    next hlocal =>
      split at h
      · cases h
      next hpaid =>
        cases h
        rw [List.find?_eq_none] at hlocal hpaid
        refine ⟨⟨?_, ?_⟩, rfl⟩
        · intro name hname
          simpa using hlocal name (List.mem_reverse.mpr (AList.mem_keys.mp hname))
        · intro entry hentry hkeyless route hroute hllm
          have hm := mem_paidRoutes.mpr ⟨entry, hentry, hkeyless, hroute, hllm, rfl⟩
          simpa using hpaid _ hm
  · rintro ⟨hpriced, rfl⟩
    have hlocal : (prices.keys.reverse.find? fun name => name.1 ∈ keylessOf providers) = none := by
      rw [List.find?_eq_none]
      intro name hname
      simpa using hpriced.local_free name (AList.mem_keys.mpr (List.mem_reverse.mp hname))
    have hpaid : ((paidRoutes providers).find? fun route =>
        (route.1, route.2.model) ∉ prices) = none := by
      rw [List.find?_eq_none]
      rintro ⟨name, route⟩ hroute
      obtain ⟨entry, hentry, hkeyless, hr, hllm, rfl⟩ := mem_paidRoutes.mp hroute
      simpa using hpriced.paid entry hentry hkeyless route hr hllm
    simp only [hlocal, hpaid]

/-- A table is accepted exactly when it parses and leaves no hole and no price for a local
provider. -/
theorem forRoutes_eq_ok_iff :
    forRoutes raw providers = .ok pricing ↔
      ∃ prices, parsePrices raw = .ok prices ∧ Priced providers prices ∧
        pricing = ⟨prices, keylessOf providers⟩ := by
  rw [forRoutes]
  cases parsePrices raw with
  | error e => simp [Except.bind]
  | ok prices => simp [Except.bind, checkRoutes_eq_ok_iff]

example : readDecimal (ofString " +1_0.50E-3 ") = some (.finite false ⟨1050, -5⟩) := by
  decide

end Aizzak.PriceTable
