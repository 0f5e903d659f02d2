import VayuWeb.Base.Except
import VayuWeb.DetCbor.Parse
import Mathlib.Data.List.Sort

/-!
# The TypeScript CBOR codec (`registry/src/cbor.ts`)

`encode` and `decode` as the registry computes them. A depth counted up to 32 in the
source is a number of levels left here, 33 at the root. `TextDecoder` is the WHATWG one
with `fatal` set and `ignoreBOM` unset: a leading byte order mark is dropped.
-/

namespace VayuWeb

open Bytes
open DetCbor (Key)

/-- A `CborValue`. A `number` is a safe non-negative integer, a `bigint` is not negative;
a `Map` is the list of its entries in insertion order. -/
inductive CborValue where
  | number (n : ℕ)
  | bigint (n : ℕ)
  | bytes (b : Bytes)
  | text (s : String)
  | array (xs : List CborValue)
  | map (es : List (Key × CborValue))
  | null

/-- A decoded map: its entries in the order they were read or set. -/
abbrev CborMap := List (Key × CborValue)

mutual

/-- Equality of two values, by recursion over both. -/
def CborValue.beq : CborValue → CborValue → Bool
  | .number m, .number n => m = n
  | .bigint m, .bigint n => m = n
  | .bytes a, .bytes b => a = b
  | .text s, .text t => s = t
  | .array xs, .array ys => itemsBeq xs ys
  | .map es, .map fs => entriesBeq es fs
  | .null, .null => true
  | _, _ => false

/-- Equality of the items of two arrays. -/
def itemsBeq : List CborValue → List CborValue → Bool
  | [], [] => true
  | x :: xs, y :: ys => x.beq y && itemsBeq xs ys
  | _, _ => false

/-- Equality of the entries of two maps. -/
def entriesBeq : List (Key × CborValue) → List (Key × CborValue) → Bool
  | [], [] => true
  | (k, v) :: es, (k', v') :: fs => decide (k = k') && v.beq v' && entriesBeq es fs
  | _, _ => false

end

mutual

/-- The equality of values decides equality. -/
theorem CborValue.beq_iff : ∀ v w : CborValue, v.beq w = true ↔ v = w
  | .number _, w | .bigint _, w | .bytes _, w | .text _, w | .null, w => by
    cases w <;> simp [CborValue.beq]
  | .array xs, w => by cases w <;> simp [CborValue.beq, itemsBeq_iff xs]
  | .map es, w => by cases w <;> simp [CborValue.beq, entriesBeq_iff es]

theorem itemsBeq_iff : ∀ xs ys : List CborValue, itemsBeq xs ys = true ↔ xs = ys
  | [], ys => by cases ys <;> simp [itemsBeq]
  | x :: xs, ys => by cases ys <;> simp [itemsBeq, x.beq_iff, itemsBeq_iff xs]

theorem entriesBeq_iff : ∀ es fs : List (Key × CborValue), entriesBeq es fs = true ↔ es = fs
  | [], fs => by cases fs <;> simp [entriesBeq]
  | (k, v) :: es, fs => by cases fs <;> simp [entriesBeq, v.beq_iff, entriesBeq_iff es, Prod.ext_iff]

end

instance : DecidableEq CborValue := fun v w => decidable_of_iff _ (v.beq_iff w)

/-- What the codec refuses, writing and reading. -/
inductive CborErrorCode where
  | argumentTooLarge | unsafeInteger | depthExceeded | invalidText | duplicateKey
  | truncated | nonCanonical | indefiniteLength | reservedAdditional | lengthTooLarge
  | invalidUtf8 | badMapKey | keysOutOfOrder | floatNotAllowed | unsupportedSimple
  | unsupportedMajor | trailingBytes
  deriving DecidableEq, Repr

/-- The source's word for a code. -/
def CborErrorCode.name : CborErrorCode → String
  | .argumentTooLarge => "ARGUMENT_TOO_LARGE"
  | .unsafeInteger => "UNSAFE_INTEGER"
  | .depthExceeded => "DEPTH_EXCEEDED"
  | .invalidText => "INVALID_TEXT"
  | .duplicateKey => "DUPLICATE_KEY"
  | .truncated => "TRUNCATED"
  | .nonCanonical => "NON_CANONICAL"
  | .indefiniteLength => "INDEFINITE_LENGTH"
  | .reservedAdditional => "RESERVED_ADDITIONAL"
  | .lengthTooLarge => "LENGTH_TOO_LARGE"
  | .invalidUtf8 => "INVALID_UTF8"
  | .badMapKey => "BAD_MAP_KEY"
  | .keysOutOfOrder => "KEYS_OUT_OF_ORDER"
  | .floatNotAllowed => "FLOAT_NOT_ALLOWED"
  | .unsupportedSimple => "UNSUPPORTED_SIMPLE"
  | .unsupportedMajor => "UNSUPPORTED_MAJOR"
  | .trailingBytes => "TRAILING_BYTES"

/-- A refusal with the text it carries. -/
structure CborError where
  code : CborErrorCode
  text : String
  deriving DecidableEq, Repr

/-- What the `Error` carries as its message. -/
def CborError.message (e : CborError) : String := s!"{e.code.name}: {e.text}"

/-- `Number.MAX_SAFE_INTEGER`. -/
def maxSafeInteger : ℕ := 2 ^ 53 - 1

/-! ## Maps

A text key occurs once in a `Map`. Byte string keys are compared by reference, so a decoded
one never meets another. -/

namespace CborMap

/-- `map.get(k)` under a text key. -/
def get? (m : CborMap) (k : String) : Option CborValue :=
  match m with
  | [] => none
  | (k', v) :: m => if k' = .text k then some v else get? m k

/-- `map.has(k)` under a text key. -/
def has (m : CborMap) (k : String) : Bool := m.any fun e => e.1 = .text k

/-- `map.delete(k)` under a text key. -/
def delete (m : CborMap) (k : String) : CborMap := m.filter fun e => e.1 ≠ .text k

/-- The key `k` is the key `k'` of an entry. -/
def sameKey (k' k : Key) : Bool :=
  match k with
  | .text _ => k' = k
  | .bytes _ => false

/-- A text key already there keeps its place and takes the new value. -/
def set : CborMap → Key → CborValue → CborMap
  | [], k, v => [(k, v)]
  | (k', v') :: m, k, v => if sameKey k' k then (k', v) :: m else (k', v') :: set m k v

end CborMap

/-! ## Text -/

/-- `textDecoder.decode`, or nothing when it throws. -/
def textDecoderSafe (bytes : Bytes) : Option String :=
  if bom.isPrefixOf bytes then utf8Decode (bytes.drop bom.length) else utf8Decode bytes

/-! ## Encoding -/

/-- `Writer.head`: the shortest form of the argument. -/
def writeHead (major argument : ℕ) : Except CborError Bytes :=
  let base := major * 32
  if argument < 24 then .ok [UInt8.ofNat (base + argument)]
  else if argument ≤ 0xff then .ok [UInt8.ofNat (base + 24), UInt8.ofNat argument]
  else if argument ≤ 0xffff then .ok (UInt8.ofNat (base + 25) :: beBytes 2 argument)
  else if argument ≤ 0xffffffff then .ok (UInt8.ofNat (base + 26) :: beBytes 4 argument)
  else if argument ≤ 0xffffffffffffffff then .ok (UInt8.ofNat (base + 27) :: beBytes 8 argument)
  else .error ⟨.argumentTooLarge, "argument exceeds 64 bits"⟩

/-- `assertUint` of a `number`. -/
def assertUint (value : ℕ) : Except CborError ℕ :=
  if value ≤ maxSafeInteger then .ok value
  else .error ⟨.unsafeInteger, "use a bigint above Number.MAX_SAFE_INTEGER"⟩

/-- Two encoded keys, bytewise as unsigned octets. -/
def compareBytes : Bytes → Bytes → Ordering
  | [], [] => .eq
  | [], _ :: _ => .lt
  | _ :: _, [] => .gt
  | a :: as, b :: bs => if a ≠ b then (if a < b then .lt else .gt) else compareBytes as bs

/-- `entries.sort`, by encoded key. -/
def sortEntries {α : Type} (entries : List (Bytes × α)) : List (Bytes × α) :=
  entries.insertionSort fun a b => compareBytes a.1 b.1 ≠ .gt

/-- Two neighbours with one key. -/
def hasDuplicateKey {α : Type} : List (Bytes × α) → Bool
  | a :: b :: rest => compareBytes a.1 b.1 = .eq || hasDuplicateKey (b :: rest)
  | _ => false

/-- A key as the value the encoder writes for it. -/
def ofKey : Key → CborValue
  | .text s => .text s
  | .bytes b => .bytes b

/-- `encodeValue`, with the levels that may still be opened. -/
def encodeValue : ℕ → CborValue → Except CborError Bytes
  | 0, _ => .error ⟨.depthExceeded, "nesting deeper than 32 levels"⟩
  | _ + 1, .null => .ok [UInt8.ofNat (7 * 32 + 22)]
  -- a JavaScript number is an integer only up to 2^53 - 1
  | _ + 1, .number value => do writeHead 0 (← assertUint value)
  | _ + 1, .bigint value => writeHead 0 value
  | _ + 1, .bytes value => do
    let h ← writeHead 2 value.length
    return h ++ value
  | _ + 1, .text value => do
    let bytes := utf8Encode value
    -- the source decodes what it encoded: a lone surrogate and a leading byte order mark do not come back
    if textDecoderSafe bytes ≠ some value then
      throw ⟨.invalidText, "string is not well-formed UTF-8 (lone surrogate?)"⟩
    let h ← writeHead 3 bytes.length
    return h ++ bytes
  | lv + 1, .array value => do
    let h ← writeHead 4 value.length
    let items ← value.mapM (encodeValue lv)
    return h ++ items.flatten
  | lv + 1, .map value => do
    let entries ← value.mapM fun e => do
      let key ← encodeValue lv (ofKey e.1)
      return (key, e.2)
    -- sorted by their encoded keys, whatever the order of the `Map`
    let entries := sortEntries entries
    if hasDuplicateKey entries then throw ⟨.duplicateKey, "duplicate map key"⟩
    let h ← writeHead 5 entries.length
    let body ← entries.mapM fun e => do
      let v ← encodeValue lv e.2
      return e.1 ++ v
    return h ++ body.flatten

/-- Encode a value as deterministic CBOR. -/
def encode (value : CborValue) : Except CborError Bytes := encodeValue 33 value

/-! ## Decoding

A reader is the bytes it has left; `total` is the length of the whole input. -/

/-- What a read past the end of the input throws. -/
def truncated : CborError := ⟨.truncated, "input ended mid-item"⟩

/-- `Reader.take`. -/
def take (n : ℕ) (bs : Bytes) : Except CborError (Bytes × Bytes) :=
  match splitAt? n bs with
  | some r => .ok r
  | none => .error truncated

/-- `Reader.byte`. -/
def byte : Bytes → Except CborError (UInt8 × Bytes)
  | [] => .error truncated
  | b :: bs => .ok (b, bs)

/-- What an argument in a longer head than it needs throws. -/
def shorterHead : CborError := ⟨.nonCanonical, "value should use the shorter head form"⟩

/-- The argument of a head, in its shortest form only. -/
def readArgument (additional : ℕ) (bs : Bytes) : Except CborError (ℕ × Bytes) :=
  -- the value itself, then one, two, four or eight bytes, each only where no shorter form would do
  if additional < 24 then .ok (additional, bs)
  else if additional = 24 then do
    let (v, bs) ← byte bs
    if v < 24 then throw shorterHead
    return (v.toNat, bs)
  else if additional = 25 then do
    let (b, bs) ← take 2 bs
    if beNat b ≤ 0xff then throw shorterHead
    return (beNat b, bs)
  else if additional = 26 then do
    let (b, bs) ← take 4 bs
    if beNat b ≤ 0xffff then throw shorterHead
    return (beNat b, bs)
  else if additional = 27 then do
    let (b, bs) ← take 8 bs
    if beNat b ≤ 0xffffffff then throw shorterHead
    return (beNat b, bs)
  else if additional = 31 then
    .error ⟨.indefiniteLength, "indefinite-length items are not deterministic"⟩
  else .error ⟨.reservedAdditional, s!"reserved additional information {additional}"⟩

/-- A declared length, checked against the whole input before it is used. -/
def toLength (argument limit : ℕ) : Except CborError ℕ :=
  if argument > limit then .error ⟨.lengthTooLarge, "declared length exceeds the input"⟩
  else .ok argument

/-- The loop of the array case: `len` more items after those in `out`. -/
def decodeItems (item : Bytes → Except CborError (CborValue × Bytes)) :
    ℕ → List CborValue → Bytes → Except CborError (List CborValue × Bytes)
  | 0, out, bs => .ok (out, bs)
  | len + 1, out, bs => do
    let (x, bs) ← item bs
    decodeItems item len (out ++ [x]) bs

/-- The keys a map may have. -/
def asMapKey : CborValue → Except CborError Key
  | .text s => .ok (.text s)
  | .bytes b => .ok (.bytes b)
  | _ => .error ⟨.badMapKey, "map keys must be text or byte strings"⟩

/-- The order check between a key and the one before it. -/
def checkOrder (previousKey : Option Bytes) (keyBytes : Bytes) : Except CborError Unit :=
  match previousKey with
  | none => .ok ()
  | some p =>
    match compareBytes p keyBytes with
    | .eq => .error ⟨.duplicateKey, "duplicate map key"⟩
    | .gt => .error ⟨.keysOutOfOrder, "map keys are not sorted"⟩
    | .lt => .ok ()

/-- The loop of the map case: `len` more entries after those in `out`. -/
def decodeEntries (item : Bytes → Except CborError (CborValue × Bytes)) :
    ℕ → Option Bytes → CborMap → Bytes → Except CborError (CborMap × Bytes)
  | 0, _, out, bs => .ok (out, bs)
  | len + 1, previousKey, out, bs => do
    let (key, bs₁) ← item bs
    let keyBytes := bs.take (bs.length - bs₁.length)
    let key ← asMapKey key
    checkOrder previousKey keyBytes
    let (v, bs₂) ← item bs₁
    decodeEntries item len (some keyBytes) (out.set key v) bs₂

/-- `decodeValue`, with the levels that may still be opened and the length of the whole input. -/
def decodeValue (total : ℕ) : ℕ → Bytes → Except CborError (CborValue × Bytes)
  | 0, _ => .error ⟨.depthExceeded, "nesting deeper than 32 levels"⟩
  | lv + 1, bs => do
    let (initial, bs) ← byte bs
    let major := initial.toNat / 32
    let additional := initial.toNat % 32
    match major with
    | 0 => do
      let (v, bs) ← readArgument additional bs
      -- above 2^53 - 1 the value stays a bigint
      return (if v ≤ maxSafeInteger then .number v else .bigint v, bs)
    | 2 => do
      let (argument, bs) ← readArgument additional bs
      -- a length beyond the whole input is refused before anything is read
      let len ← toLength argument total
      let (raw, bs) ← take len bs
      return (.bytes raw, bs)
    | 3 => do
      let (argument, bs) ← readArgument additional bs
      let len ← toLength argument total
      let (raw, bs) ← take len bs
      match textDecoderSafe raw with
      | none => throw ⟨.invalidUtf8, "text string is not valid UTF-8"⟩
      | some text => return (.text text, bs)
    | 4 => do
      let (argument, bs) ← readArgument additional bs
      let len ← toLength argument total
      let (out, bs) ← decodeItems (decodeValue total lv) len [] bs
      return (.array out, bs)
    | 5 => do
      let (argument, bs) ← readArgument additional bs
      let len ← toLength argument total
      let (out, bs) ← decodeEntries (decodeValue total lv) len none [] bs
      return (.map out, bs)
    | 7 =>
      if additional = 22 then return (.null, bs)
      else if additional = 25 ∨ additional = 26 ∨ additional = 27 then
        throw ⟨.floatNotAllowed, "floats are not in the deterministic profile"⟩
      else throw ⟨.unsupportedSimple, s!"simple value {additional} is not in the profile"⟩
    | _ => throw ⟨.unsupportedMajor, s!"major type {major} is not in the profile"⟩

/-- Decode deterministic CBOR: the whole input is one item. -/
def decode (bytes : Bytes) : Except CborError CborValue := do
  let (value, rest) ← decodeValue bytes.length 33 bytes
  if rest.length ≠ 0 then
    throw ⟨.trailingBytes, s!"{rest.length} unconsumed byte(s)"⟩
  return value

/-- `bytes` is already in deterministic form. -/
def isDeterministic (bytes : Bytes) : Bool :=
  match decode bytes with
  | .error _ => false
  | .ok value =>
    match encode value with
    | .error _ => false
    | .ok out => compareBytes out bytes = .eq

end VayuWeb
