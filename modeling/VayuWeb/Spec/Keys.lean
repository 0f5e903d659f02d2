import VayuWeb.Spec.Cbor

/-!
# Hyperbee index keyspace (`registry/src/keys.ts`)

Keys are byte strings in unsigned lexicographic order. Timestamps are integers; a fraction is out of
range like a negative number.
-/

namespace VayuWeb

open Bytes

/-- An error of the key codec, with its message. -/
structure KeyError where
  message : String
  deriving DecidableEq, Repr

/-- Width of the `ownerKey` field in the `o` keyspace. -/
def ownerKeyFieldBytes : ℕ := 32

/-- `TAG_CURRENT`. -/
def tagCurrent : UInt8 := 0x6e

/-- `TAG_BY_OWNER`. -/
def tagByOwner : UInt8 := 0x6f

/-- `TAG_EXPIRY`. -/
def tagExpiry : UInt8 := 0x78

/-- `TAG_RATE`. -/
def tagRate : UInt8 := 0x72

/-- `SEPARATOR`, which no text in a key contains. -/
def separator : UInt8 := 0x00

/-- `TIMESTAMP_BYTES`. -/
def timestampBytes : ℕ := 8

/-- The largest timestamp representable in the key encoding. -/
def maxTimestamp : ℤ := 2 ^ 53 - 1

/-- The characters of a label and of a TLD. -/
def isGrammar (c : Char) : Bool := ('a' ≤ c && c ≤ 'z') || ('0' ≤ c && c ≤ '9') || c = '-'

/-- A component that is free of the separator byte. -/
def textComponent (value what : String) : Except KeyError Bytes :=
  let bytes := utf8Encode value
  if bytes.length = 0 then .error ⟨s!"{what} must not be empty"⟩
  else if bytes.contains separator then .error ⟨s!"{what} must not contain a zero byte"⟩
  else if ¬ value.toList.all isGrammar then
    .error ⟨s!"{what} must match the label grammar [a-z0-9-]: got '{value}'"⟩
  else .ok bytes

/-- Big-endian, so that byte order and numeric order agree. -/
def encodeTimestamp (value : ℤ) : Except KeyError Bytes :=
  if value < 0 ∨ value > maxTimestamp then .error ⟨s!"timestamp out of range: {value}"⟩
  else .ok (beBytes timestampBytes value.toNat)

/-- A timestamp at an offset of a key. -/
def decodeTimestamp (bytes : Bytes) (offset : ℕ) : Except KeyError ℤ :=
  if offset + timestampBytes > bytes.length then .error ⟨"truncated timestamp"⟩
  else
    let value : ℤ := beNat ((bytes.drop offset).take timestampBytes)
    if value > maxTimestamp then .error ⟨"timestamp exceeds the safe integer range"⟩ else .ok value

/-! ## Encoders -/

/-- What every key and bound begins with. -/
def tagged (tag : UInt8) : Bytes := [tag, separator]

/-- `n`: the current accepted record for one name. -/
def currentKey (tld label : String) : Except KeyError Bytes := do
  let tld ← textComponent tld "tld"
  let label ← textComponent label "label"
  return tagged tagCurrent ++ tld ++ [separator] ++ label

/-- `o`: presence marker, so that every name a key holds is one prefix scan. -/
def byOwnerKey (ownerKey : Bytes) (tld label : String) : Except KeyError Bytes := do
  if ownerKey.length ≠ ownerKeyFieldBytes then throw ⟨s!"ownerKey must be {ownerKeyFieldBytes} bytes"⟩
  let tld ← textComponent tld "tld"
  let label ← textComponent label "label"
  return tagged tagByOwner ++ ownerKey ++ [separator] ++ tld ++ [separator] ++ label

/-- `x`: expiry queue, keyed by big-endian `notAfter`. -/
def expiryKey (notAfter : ℤ) (tld label : String) : Except KeyError Bytes := do
  let timestamp ← encodeTimestamp notAfter
  let tld ← textComponent tld "tld"
  let label ← textComponent label "label"
  return tagged tagExpiry ++ timestamp ++ [separator] ++ tld ++ [separator] ++ label

/-- `r`: registration-rate window. The TLD precedes the timestamp here. -/
def rateKey (tld : String) (notBefore : ℤ) (label : String) : Except KeyError Bytes := do
  let tld ← textComponent tld "tld"
  let timestamp ← encodeTimestamp notBefore
  let label ← textComponent label "label"
  return tagged tagRate ++ tld ++ [separator] ++ timestamp ++ [separator] ++ label

/-! ## Range bounds -/

/-- Every key in one TLD's slice of the `n` keyspace. -/
def currentPrefix (tld : String) : Except KeyError Bytes := do
  let tld ← textComponent tld "tld"
  return tagged tagCurrent ++ tld ++ [separator]

/-- Every name held by one key. -/
def byOwnerPrefix (ownerKey : Bytes) : Except KeyError Bytes := do
  if ownerKey.length ≠ ownerKeyFieldBytes then throw ⟨s!"ownerKey must be {ownerKeyFieldBytes} bytes"⟩
  return tagged tagByOwner ++ ownerKey ++ [separator]

/-- Half-open bounds. -/
structure KeyRange where
  gte : Bytes
  lt : Bytes
  deriving DecidableEq, Repr

/-- Bounds over the expiry queue, for names expiring in `[from, to)`. -/
def expiryRange (from_ to_ : ℤ) : Except KeyError KeyRange := do
  if to_ < from_ then throw ⟨"expiry range end precedes its start"⟩
  let bound (at_ : ℤ) : Except KeyError Bytes := do return tagged tagExpiry ++ (← encodeTimestamp at_)
  return { gte := ← bound from_, lt := ← bound to_ }

/-- Bounds over one TLD's registrations in `[from, to)`. -/
def rateRange (tld : String) (from_ to_ : ℤ) : Except KeyError KeyRange := do
  if to_ < from_ then throw ⟨"rate range end precedes its start"⟩
  let bound (at_ : ℤ) : Except KeyError Bytes := do
    return tagged tagRate ++ (← textComponent tld "tld") ++ [separator] ++ (← encodeTimestamp at_)
  return { gte := ← bound from_, lt := ← bound to_ }

/-! ## Decoders -/

/-- A text component running to the next separator or to the end of the key, and where the next
one starts. -/
def readText (key : Bytes) (offset : ℕ) (what : String) : Except KeyError (String × ℕ) :=
  let component := (key.drop offset).takeWhile (· ≠ separator)
  if component.length = 0 then .error ⟨s!"{what} is empty"⟩
  else
    match textDecoderSafe component with
    | some value => .ok (value, offset + component.length + 1)
    | none => .error ⟨s!"{what} is not valid UTF-8"⟩

/-- The tag a key of this kind starts with. -/
def expectTag (key : Bytes) (expected : UInt8) (what : String) : Except KeyError Unit :=
  if key.length < 2 ∨ key[0]? ≠ some expected ∨ key[1]? ≠ some separator then .error ⟨s!"not a {what} key"⟩
  else .ok ()

/-- A fixed-width field that ends at `end_`, and its separator, are there. -/
def expectField (key : Bytes) (end_ : ℕ) (what : String) : Except KeyError Unit :=
  if key.length < end_ + 1 ∨ key[end_]? ≠ some separator then .error ⟨s!"truncated {what}"⟩ else .ok ()

/-- The label of a key, which is its last component. -/
def readLabel (key : Bytes) (offset : ℕ) : Except KeyError String := do
  let (label, next) ← readText key offset "label"
  if next ≠ key.length + 1 then throw ⟨"trailing bytes after label"⟩
  return label

/-- The key of a name's current record. -/
structure CurrentKey where
  tld : String
  label : String
  deriving DecidableEq, Repr

/-- Reads a `current` key. -/
def decodeCurrentKey (key : Bytes) : Except KeyError CurrentKey := do
  expectTag key tagCurrent "current"
  let (tld, next) ← readText key 2 "tld"
  return { tld := tld, label := ← readLabel key next }

/-- The key of a name under its owner. -/
structure ByOwnerKey where
  ownerKey : Bytes
  tld : String
  label : String
  deriving DecidableEq, Repr

/-- Reads a `by-owner` key. -/
def decodeByOwnerKey (key : Bytes) : Except KeyError ByOwnerKey := do
  expectTag key tagByOwner "by-owner"
  let end_ := 2 + ownerKeyFieldBytes
  expectField key end_ "ownerKey"
  let (tld, next) ← readText key (end_ + 1) "tld"
  return { ownerKey := (key.drop 2).take ownerKeyFieldBytes, tld := tld, label := ← readLabel key next }

/-- The key of a name under the end of its term. -/
structure ExpiryKey where
  notAfter : ℤ
  tld : String
  label : String
  deriving DecidableEq, Repr

/-- Reads an `expiry` key. -/
def decodeExpiryKey (key : Bytes) : Except KeyError ExpiryKey := do
  expectTag key tagExpiry "expiry"
  let end_ := 2 + timestampBytes
  expectField key end_ "timestamp"
  let notAfter ← decodeTimestamp key 2
  let (tld, next) ← readText key (end_ + 1) "tld"
  return { notAfter := notAfter, tld := tld, label := ← readLabel key next }

/-- The key of a registration under the moment it counts from. -/
structure RateKey where
  tld : String
  notBefore : ℤ
  label : String
  deriving DecidableEq, Repr

/-- Reads a `rate` key. -/
def decodeRateKey (key : Bytes) : Except KeyError RateKey := do
  expectTag key tagRate "rate"
  let (tld, next) ← readText key 2 "tld"
  let end_ := next + timestampBytes
  expectField key end_ "timestamp"
  let notBefore ← decodeTimestamp key next
  return { tld := tld, notBefore := notBefore, label := ← readLabel key (end_ + 1) }

end VayuWeb
