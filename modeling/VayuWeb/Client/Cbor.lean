import VayuWeb.Base.Except
import VayuWeb.DetCbor.Value
import Mathlib.Data.List.Sort

/-!
# The client's CBOR codec (`client/src/cbor.rs`)

`encode` and `decode` as the Rust client computes them. A Rust `Value` is a `DetCbor.Value`
whose numbers and lengths fit 64 bits. A depth counted up to `MAX_DEPTH` in the source is a
number of levels left here, 33 at the root; a `Reader` is the bytes it has left.
-/

namespace VayuWeb.Client

open Bytes
open DetCbor (Key Value)

/-- What the codec refuses, writing and reading. -/
inductive CborError where
  | nonCanonical | indefiniteLength
  | reservedAdditional (info : ℕ)
  | truncated
  | trailingBytes (remaining : ℕ)
  | depthExceeded | duplicateKey | keysOutOfOrder | badMapKey | badUtf8
  | unsupportedMajor (major : ℕ)
  | floatNotAllowed
  | unsupportedSimple (value : ℕ)
  deriving DecidableEq, Repr

/-- `MAX_DEPTH`. -/
def maxDepth : ℕ := 32

/-- The error as it is displayed. -/
def CborError.display : CborError → String
  | .nonCanonical => "NON_CANONICAL: value should use the shorter form"
  | .indefiniteLength => "INDEFINITE_LENGTH: indefinite-length items are not deterministic"
  | .reservedAdditional info => s!"RESERVED_ADDITIONAL: reserved additional information {info}"
  | .truncated => "TRUNCATED: input ended mid-item"
  | .trailingBytes remaining => s!"TRAILING_BYTES: {remaining} unconsumed byte(s)"
  | .depthExceeded => s!"DEPTH_EXCEEDED: nesting deeper than {maxDepth}"
  | .duplicateKey => "DUPLICATE_KEY: duplicate map key"
  | .keysOutOfOrder => "KEYS_OUT_OF_ORDER: map keys are not sorted"
  | .badMapKey => "BAD_MAP_KEY: map keys must be text or byte strings"
  | .badUtf8 => "BAD_UTF8: text string is not well-formed UTF-8"
  | .unsupportedMajor major => s!"UNSUPPORTED_MAJOR: major type {major} is not in the profile"
  | .floatNotAllowed => "FLOAT_NOT_ALLOWED: floats are not in the deterministic profile"
  | .unsupportedSimple value => s!"UNSUPPORTED_SIMPLE: simple value {value} is not in the profile"

/-! ## Encoding -/

/-- Two encoded keys, bytewise as unsigned octets, then by length. -/
def compareEncoded : Bytes → Bytes → Ordering
  | a :: as, b :: bs => if a ≠ b then (if a < b then .lt else .gt) else compareEncoded as bs
  | as, bs => compare as.length bs.length

/-- The head of an item, in its shortest form. -/
def head (major argument : ℕ) : Bytes :=
  let base := major * 32
  if argument < 24 then [UInt8.ofNat (base + argument)]
  else if argument ≤ 0xff then [UInt8.ofNat (base + 24), UInt8.ofNat argument]
  else if argument ≤ 0xffff then UInt8.ofNat (base + 25) :: beBytes 2 argument
  else if argument ≤ 0xffffffff then UInt8.ofNat (base + 26) :: beBytes 4 argument
  else UInt8.ofNat (base + 27) :: beBytes 8 argument

/-- `sort_by` on the encoded keys. -/
def sortEncoded (encoded : List (Bytes × Value)) : List (Bytes × Value) :=
  encoded.insertionSort fun a b => compareEncoded a.1 b.1 ≠ .gt

/-- Two neighbours of `windows(2)` with one key. -/
def hasDuplicate : List (Bytes × Value) → Bool
  | a :: b :: rest => compareEncoded a.1 b.1 = .eq || hasDuplicate (b :: rest)
  | _ => false

/-- `encode_value`, with the levels that may still be opened. -/
def encodeValue : ℕ → Value → Except CborError Bytes
  | 0, _ => .error .depthExceeded
  | _ + 1, .null => .ok [UInt8.ofNat (7 * 32 + 22)]
  | _ + 1, .uint v => .ok (head 0 v)
  | _ + 1, .bytes bytes => .ok (head 2 bytes.length ++ bytes)
  | _ + 1, .text text => .ok (head 3 (utf8Encode text).length ++ utf8Encode text)
  | lv + 1, .array items => do
    let body ← items.mapM (encodeValue lv)
    return head 4 items.length ++ body.flatten
  | lv + 1, .map entries => do
    let encoded ← entries.mapM fun e => do
      let keyBytes ← encodeValue lv e.1.toValue
      return (keyBytes, e.2)
    -- the keys are compared as encoded
    let encoded := sortEncoded encoded
    if hasDuplicate encoded then throw .duplicateKey
    let body ← encoded.mapM fun e => do
      let v ← encodeValue lv e.2
      return e.1 ++ v
    return head 5 encoded.length ++ body.flatten

/-- Encode a value as deterministic CBOR. -/
def encode (value : Value) : Except CborError Bytes := encodeValue (maxDepth + 1) value

/-! ## Decoding -/

/-- `Reader.take`. -/
def take (count : ℕ) (reader : Bytes) : Except CborError (Bytes × Bytes) :=
  match splitAt? count reader with
  | some r => .ok r
  | none => .error .truncated

/-- `Reader.byte`. -/
def byte : Bytes → Except CborError (UInt8 × Bytes)
  | [] => .error .truncated
  | b :: reader => .ok (b, reader)

/-- A head argument, in its shortest encoding only. -/
def readArgument (reader : Bytes) (additional : ℕ) : Except CborError (ℕ × Bytes) :=
  -- the value itself, then one, two, four or eight bytes, each only where no shorter form would do
  if additional ≤ 23 then .ok (additional, reader)
  else if additional = 24 then do
    let (v, reader) ← byte reader
    if v < 24 then throw .nonCanonical
    return (v.toNat, reader)
  else if additional = 25 then do
    let (bytes, reader) ← take 2 reader
    if beNat bytes ≤ 0xff then throw .nonCanonical
    return (beNat bytes, reader)
  else if additional = 26 then do
    let (bytes, reader) ← take 4 reader
    if beNat bytes ≤ 0xffff then throw .nonCanonical
    return (beNat bytes, reader)
  else if additional = 27 then do
    let (bytes, reader) ← take 8 reader
    if beNat bytes ≤ 0xffffffff then throw .nonCanonical
    return (beNat bytes, reader)
  else if additional = 31 then .error .indefiniteLength
  else .error (.reservedAdditional additional)

/-- The loop of the array case. -/
def decodeItems (item : Bytes → Except CborError (Value × Bytes)) :
    ℕ → Bytes → Except CborError (List Value × Bytes)
  | 0, reader => .ok ([], reader)
  | len + 1, reader => do
    let (x, reader) ← item reader
    let (items, reader) ← decodeItems item len reader
    return (x :: items, reader)

/-- The keys a map may have. -/
def asKey : Value → Except CborError Key
  | .text text => .ok (.text text)
  | .bytes bytes => .ok (.bytes bytes)
  | _ => .error .badMapKey

/-- The order check between a key and the one before it. -/
def checkOrder (previousKey : Option Bytes) (keyBytes : Bytes) : Except CborError Unit :=
  match previousKey with
  | none => .ok ()
  | some previous =>
    match compareEncoded previous keyBytes with
    | .eq => .error .duplicateKey
    | .gt => .error .keysOutOfOrder
    | .lt => .ok ()

/-- The loop of the map case. -/
def decodeEntries (item : Bytes → Except CborError (Value × Bytes)) :
    ℕ → Option Bytes → Bytes → Except CborError (List (Key × Value) × Bytes)
  | 0, _, reader => .ok ([], reader)
  | len + 1, previousKey, reader => do
    let (keyValue, reader₁) ← item reader
    let keyBytes := reader.take (reader.length - reader₁.length)
    let key ← asKey keyValue
    checkOrder previousKey keyBytes
    let (value, reader₂) ← item reader₁
    let (entries, reader₃) ← decodeEntries item len (some keyBytes) reader₂
    return ((key, value) :: entries, reader₃)

/-- Reads one item, with the levels that may still be opened. -/
def decodeValue : ℕ → Bytes → Except CborError (Value × Bytes)
  | 0, _ => .error .depthExceeded
  | lv + 1, reader => do
    let (initial, reader) ← byte reader
    let major := initial.toNat / 32
    let additional := initial.toNat % 32
    match major with
    | 0 => do
      let (v, reader) ← readArgument reader additional
      return (.uint v, reader)
    | 2 => do
      let (len, reader) ← readArgument reader additional
      -- a length beyond the input is refused before anything is reserved for it
      if len > reader.length then throw .truncated
      let (raw, reader) ← take len reader
      return (.bytes raw, reader)
    | 3 => do
      let (len, reader) ← readArgument reader additional
      if len > reader.length then throw .truncated
      let (raw, reader) ← take len reader
      match utf8Decode raw with
      | some text => return (.text text, reader)
      | none => throw .badUtf8
    | 4 => do
      let (len, reader) ← readArgument reader additional
      if len > reader.length then throw .truncated
      let (items, reader) ← decodeItems (decodeValue lv) len reader
      return (.array items, reader)
    | 5 => do
      let (len, reader) ← readArgument reader additional
      let (entries, reader) ← decodeEntries (decodeValue lv) len none reader
      return (.map entries, reader)
    | 7 =>
      if additional = 22 then return (.null, reader)
      else if additional = 25 ∨ additional = 26 ∨ additional = 27 then throw .floatNotAllowed
      else throw (.unsupportedSimple additional)
    | other => throw (.unsupportedMajor other)

/-- Decode deterministic CBOR: the whole input is one item. -/
def decode (bytes : Bytes) : Except CborError Value := do
  let (value, reader) ← decodeValue (maxDepth + 1) bytes
  if reader.length ≠ 0 then throw (.trailingBytes reader.length)
  return value

end VayuWeb.Client
