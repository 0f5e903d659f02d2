import VayuWeb.Spec.Pow
import VayuWeb.Spec.Suites

/-!
# The record schema (`registry/src/record.ts`)

Structural validation of a decoded map, and the rejection codes of both stages of the
verifier.
-/

namespace VayuWeb

open Bytes

/-- What a record does to its name. -/
inductive Operation where
  | register | update | renew | transfer | relinquish | revoke
  deriving DecidableEq, Repr

/-- The wire name of an operation. -/
def Operation.name : Operation → String
  | .register => "REGISTER"
  | .update => "UPDATE"
  | .renew => "RENEW"
  | .transfer => "TRANSFER"
  | .relinquish => "RELINQUISH"
  | .revoke => "REVOKE"

/-- `OPERATIONS`. -/
def operations : List Operation := [.register, .update, .renew, .transfer, .relinquish, .revoke]

/-- The operation of a name, if it is one. -/
def Operation.ofName (op : String) : Option Operation := operations.find? (·.name = op)

/-- Every rejection a verifier can return: the schema's codes, then those of verification. -/
inductive VerifyRejection where
  | nonCanonical | tooLarge | notAMap | missingField | badFieldType | unsupportedVersion
  | unknownSuite | unknownOp | badLabel | unknownTld | badKey | badSeq | badTerm | tooManyRecords
  | badRecordEntry | badPowShape | unexpectedPow | missingPow | badChain | badCosig
  | nameTaken | backdated | badSig | badPow | noPredecessor | tooSoon | revoked | badOwner
  | suiteDowngrade | unsettled | expired
  deriving DecidableEq, Repr

/-- The code's text. -/
def VerifyRejection.name : VerifyRejection → String
  | .nonCanonical => "NON_CANONICAL"
  | .tooLarge => "TOO_LARGE"
  | .notAMap => "NOT_A_MAP"
  | .missingField => "MISSING_FIELD"
  | .badFieldType => "BAD_FIELD_TYPE"
  | .unsupportedVersion => "UNSUPPORTED_VERSION"
  | .unknownSuite => "UNKNOWN_SUITE"
  | .unknownOp => "UNKNOWN_OP"
  | .badLabel => "BAD_LABEL"
  | .unknownTld => "UNKNOWN_TLD"
  | .badKey => "BAD_KEY"
  | .badSeq => "BAD_SEQ"
  | .badTerm => "BAD_TERM"
  | .tooManyRecords => "TOO_MANY_RECORDS"
  | .badRecordEntry => "BAD_RECORD_ENTRY"
  | .badPowShape => "BAD_POW_SHAPE"
  | .unexpectedPow => "UNEXPECTED_POW"
  | .missingPow => "MISSING_POW"
  | .badChain => "BAD_CHAIN"
  | .badCosig => "BAD_COSIG"
  | .nameTaken => "NAME_TAKEN"
  | .backdated => "BACKDATED"
  | .badSig => "BAD_SIG"
  | .badPow => "BAD_POW"
  | .noPredecessor => "NO_PREDECESSOR"
  | .tooSoon => "TOO_SOON"
  | .revoked => "REVOKED"
  | .badOwner => "BAD_OWNER"
  | .suiteDowngrade => "SUITE_DOWNGRADE"
  | .unsettled => "UNSETTLED"
  | .expired => "EXPIRED"

/-- An error of the record schema. -/
structure RecordError where
  code : VerifyRejection
  text : String
  deriving DecidableEq, Repr

/-- The error's message, the code before the text. -/
def RecordError.message (e : RecordError) : String := s!"{e.code.name}: {e.text}"

/-- `SUPPORTED_VERSION`. -/
def supportedVersion : ℕ := 1

/-- `MAX_RECORD_BYTES`. -/
def maxRecordBytes : ℕ := maxActiveRecordBytes

/-- `MAX_RECORD_ENTRIES`. -/
def maxRecordEntries : ℕ := 32

/-- `MAX_ENTRY_VALUE_BYTES`. -/
def maxEntryValueBytes : ℕ := 512

/-- `MAX_SEQ`. -/
def maxSeq : ℕ := 0xffffffff

/-- `MIN_TTL`. -/
def minTtl : ℕ := 60

/-- `MAX_TTL`. -/
def maxTtl : ℕ := 86400

/-- `DEFAULT_TTL`. -/
def defaultTtl : ℕ := 3600

/-- `KNOWN_ENTRY_TYPES`. -/
def knownEntryTypes : List String := ["peer", "ipns", "cid", "txt", "alias"]

/-- A proof of work as the record carries it. -/
structure PowProof where
  alg : String
  nonce : Bytes
  bits : ℕ
  deriving DecidableEq

/-- One entry of a record. -/
structure RecordEntry where
  type : String
  value : CborValue
  ttl : ℕ
  /-- False for a type outside `knownEntryTypes`: kept, never acted on. -/
  known : Bool
  deriving DecidableEq

/-- A parsed record, with the map it was parsed from. -/
structure RegistryRecord where
  version : ℕ
  suite : ℕ
  op : Operation
  name : String
  tld : String
  ownerKey : Bytes
  seq : ℕ
  notBefore : ℕ
  notAfter : ℕ
  entries : List RecordEntry
  powProof : Option PowProof
  prevHash : Bytes
  sig : Bytes
  coSig : Option Bytes
  /-- The decoded map exactly as received. -/
  map : CborMap
  deriving DecidableEq

/-- Throws a `RecordError`. -/
def fail {α : Type} (code : VerifyRejection) (text : String) : Except RecordError α :=
  .error ⟨code, text⟩

/-- Refuse when `bad`. -/
def check (bad : Prop) [Decidable bad] (code : VerifyRejection) (text : String) :
    Except RecordError Unit :=
  if bad then fail code text else .ok ()

theorem check_eq_ok {bad : Prop} [Decidable bad] {code : VerifyRejection} {text : String} {u : Unit} :
    check bad code text = .ok u ↔ ¬ bad := by
  unfold check fail; split_ifs with h <;> simp [h]

/-! ## Fields -/

/-- A required unsigned integer; one over the safe range has a refusal of its own. -/
def uintField (map : CborMap) (key : String) : Except RecordError ℕ :=
  match map.get? key with
  | none => fail .missingField s!"{key} is required"
  | some (.bigint _) => fail .badFieldType s!"{key} exceeds the supported range"
  | some (.number value) => .ok value
  | some _ => fail .badFieldType s!"{key} must be an unsigned integer"

/-- A required text. -/
def textField (map : CborMap) (key : String) : Except RecordError String :=
  match map.get? key with
  | none => fail .missingField s!"{key} is required"
  | some (.text value) => .ok value
  | some _ => fail .badFieldType s!"{key} must be text"

/-- A required byte string of one length. -/
def bytesField (map : CborMap) (key : String) (length : ℕ) : Except RecordError Bytes :=
  match map.get? key with
  | none => fail .missingField s!"{key} is required"
  | some (.bytes value) =>
    if value.length ≠ length then
      fail .badFieldType s!"{key} must be {length} bytes, got {value.length}"
    else .ok value
  | some _ => fail .badFieldType s!"{key} must be a byte string"

/-- The length of a text in bytes. -/
def utf8Length (text : String) : ℕ := (utf8Encode text).length

/-! ## Proof of work and entries -/

/-- Tuning knobs a proof must not carry. -/
def forbiddenPowKeys : List String := ["m", "t", "p", "salt"]

/-- The shape of a proof, before it is verified. -/
def parsePowProof (value : CborValue) : Except RecordError PowProof :=
  match value with
  | .map map => do
    let alg ← textField map "alg"
    check (alg ≠ powAlgorithm) .badPowShape s!"unsupported pow algorithm: {alg}"
    match forbiddenPowKeys.find? fun key => CborMap.has map key with
    | some forbidden =>
      fail .badPowShape s!"powProof must not carry '{forbidden}': it is a protocol constant"
    | none => do
      let nonce ← bytesField map "nonce" powNonceLength
      let bits ← uintField map "bits"
      check (bits = 0 ∨ bits > 256) .badPowShape s!"claimed difficulty out of range: {bits}"
      return { alg := alg, nonce := nonce, bits := bits }
  | _ => fail .badPowShape "powProof must be a map or null"

/-- The lifetime of an entry, with its default. -/
def parseTtl (rawTtl : Option CborValue) : Except RecordError ℕ :=
  match rawTtl with
  | none => .ok defaultTtl
  | some (.number ttl) =>
    if ttl < minTtl ∨ ttl > maxTtl then
      fail .badRecordEntry s!"ttl {ttl} outside {minTtl}-{maxTtl}"
    else .ok ttl
  | some _ => fail .badRecordEntry "ttl must be an unsigned integer"

/-- The size an entry value is charged for. -/
def entrySize : CborValue → ℕ
  | .bytes b => b.length
  | .text s => utf8Length s
  | _ => 0

/-- The shape each known entry type asks of its value. -/
def checkKnownEntry (type : String) (entryValue : CborValue) : Except RecordError Unit :=
  if type = "peer" then
    match entryValue with
    | .bytes b =>
      if b.length ≠ 32 then fail .badRecordEntry "peer value must be a 32-byte key" else .ok ()
    | _ => fail .badRecordEntry "peer value must be a 32-byte key"
  else if type = "ipns" then
    match entryValue with
    | .text s =>
      -- `length` counts UTF-16 units
      if jsLength s < 1 ∨ jsLength s > 128 then
        fail .badRecordEntry "ipns value must be 1-128 characters"
      else .ok ()
    | _ => fail .badRecordEntry "ipns value must be 1-128 characters"
  else if type = "cid" then
    match entryValue with
    | .bytes b =>
      if b.length < 1 ∨ b.length > 64 then fail .badRecordEntry "cid value must be 1-64 bytes"
      else .ok ()
    | _ => fail .badRecordEntry "cid value must be 1-64 bytes"
  else if type = "txt" then
    match entryValue with
    | .text s =>
      if utf8Length s < 1 ∨ utf8Length s > 255 then
        fail .badRecordEntry "txt value must be 1-255 bytes"
      else if s.toList.any fun character => character.toNat < 0x20 then
        fail .badRecordEntry "txt value must not contain control characters"
      else .ok ()
    | _ => fail .badRecordEntry "txt value must be text"
  else if type = "alias" then
    match entryValue with
    | .text s =>
      if parseAlias s = none then
        fail .badRecordEntry "alias must name a valid, ratified label.tld"
      else .ok ()
    | _ => fail .badRecordEntry "alias must name a valid, ratified label.tld"
  -- a type that is not known is carried unread
  else .ok ()

/-- One entry; an unknown type is kept and marked. -/
def parseEntry (value : CborValue) : Except RecordError RecordEntry :=
  match value with
  | .map map => do
    let type ← textField map "type"
    match CborMap.get? map "value" with
    | none => fail .badRecordEntry "entry value is required"
    | some entryValue => do
      let ttl ← parseTtl (CborMap.get? map "ttl")
      let known := knownEntryTypes.contains type
      let size := entrySize entryValue
      check (size > maxEntryValueBytes) .badRecordEntry
        s!"entry value {size} bytes exceeds {maxEntryValueBytes}"
      checkKnownEntry type entryValue
      return { type := type, value := entryValue, ttl := ttl, known := known }
  | _ => fail .badRecordEntry "entry must be a map"

/-- At most one alias, which stands alone and does not name its own record. -/
def checkAliases (name tld : String) (entries : List RecordEntry) : Except RecordError Unit :=
  match entries.filter fun e => e.type = "alias" with
  | [] => .ok ()
  | [pointer] =>
    if entries.length > 1 then fail .badRecordEntry "an alias must not coexist with another entry"
    else
      match pointer.value with
      | .text value =>
        if parseAlias value = some (name, tld) then
          fail .badRecordEntry s!"{name}.{tld} may not alias itself"
        else .ok ()
      | _ => .ok ()
  | _ :: _ :: _ => fail .badRecordEntry "at most one alias per record"

/-! ## Records -/

/-- The operations that cost work. -/
def needsPow (op : Operation) : Bool := op = .register || op = .renew

/-- The entries of a record, bounded in number. -/
def parseEntries (map : CborMap) : Except RecordError (List RecordEntry) :=
  match map.get? "records" with
  | none => fail .missingField "records is required"
  | some (.array entryValues) =>
    if entryValues.length > maxRecordEntries then
      fail .tooManyRecords s!"{entryValues.length} entries exceeds {maxRecordEntries}"
    else entryValues.mapM parseEntry
  | some _ => fail .badFieldType "records must be an array"

/-- `powProof`: null, or a proof. -/
def powField (map : CborMap) : Except RecordError (Option PowProof) :=
  match map.get? "powProof" with
  | none => fail .missingField "powProof is required, use null when absent"
  | some .null => .ok none
  | some rawPow => do
    let proof ← parsePowProof rawPow
    return some proof

/-- A proof is there exactly where the operation costs work. -/
def parsePow (op : Operation) (map : CborMap) : Except RecordError (Option PowProof) := do
  let powProof ← powField map
  check (needsPow op ∧ powProof.isNone) .missingPow s!"{op.name} requires a proof of work"
  check (¬ needsPow op ∧ powProof.isSome) .unexpectedPow s!"{op.name} must carry powProof null"
  return powProof

/-- `coSig`: absent, null or a signature. -/
def coSigField (suite : Suite) (map : CborMap) : Except RecordError (Option Bytes) :=
  match map.get? "coSig" with
  | none => .ok none
  | some .null => .ok none
  | some (.bytes rawCoSig) => do
    check (rawCoSig.length ≠ suite.signatureLength) .badCosig
      s!"coSig must be a {suite.signatureLength}-byte signature"
    return some rawCoSig
  | some _ => fail .badCosig s!"coSig must be a {suite.signatureLength}-byte signature"

/-- A second signature is there exactly on a TRANSFER. -/
def parseCoSig (op : Operation) (suite : Suite) (map : CborMap) :
    Except RecordError (Option Bytes) := do
  let coSig ← coSigField suite map
  check (op = .transfer ∧ coSig.isNone) .badCosig "TRANSFER requires coSig"
  check (op ≠ .transfer ∧ coSig.isSome) .badCosig s!"{op.name} must not carry coSig"
  return coSig

/-- The suite of a record, which must be active. -/
def suiteField (map : CborMap) : Except RecordError (ℕ × Suite) := do
  let suiteId ← uintField map "suite"
  match suiteOf suiteId with
  | none => fail .unknownSuite s!"suite {suiteId} is not an active suite"
  | some suite => return (suiteId, suite)

/-- The operation of a record. -/
def opField (map : CborMap) : Except RecordError Operation := do
  let op ← textField map "op"
  match Operation.ofName op with
  | none => fail .unknownOp s!"unknown op: {op}"
  | some op => return op

/-- The label of a record. -/
def nameField (map : CborMap) : Except RecordError String := do
  let name ← textField map "name"
  match labelRejection name with
  | some labelProblem => fail .badLabel s!"{name}: {labelProblem.name}"
  | none => return name

/-- Parse and structurally validate a decoded record map. -/
def parseRecord (map : CborMap) : Except RecordError RegistryRecord := do
  let version ← uintField map "version"
  check (version ≠ supportedVersion) .unsupportedVersion s!"version {version} is not implemented"
  let (suiteId, suite) ← suiteField map
  let op ← opField map
  let name ← nameField map
  let tld ← textField map "tld"
  check (¬ isRatifiedTld tld) .unknownTld s!"{tld} is not a ratified TLD"
  let ownerKey ← bytesField map "ownerKey" suite.publicKeyLength
  check (suite.signature = "Ed25519" ∧ isSmallOrderKey ownerKey) .badKey
    "ownerKey is a small-order point"
  let seq ← uintField map "seq"
  check (seq > maxSeq) .badSeq s!"seq {seq} exceeds 2^32-1"
  let notBefore ← uintField map "notBefore"
  let notAfter ← uintField map "notAfter"
  check (notAfter < notBefore) .badTerm "notAfter precedes notBefore"
  let entries ← parseEntries map
  -- an alias stands alone, and not for the name itself
  checkAliases name tld entries
  let powProof ← parsePow op map
  let prevHash ← bytesField map "prevHash" recordHashLength
  let sig ← bytesField map "sig" suite.signatureLength
  let coSig ← parseCoSig op suite map
  return { version := version, suite := suiteId, op := op, name := name, tld := tld,
           ownerKey := ownerKey, seq := seq, notBefore := notBefore, notAfter := notAfter,
           entries := entries, powProof := powProof, prevHash := prevHash, sig := sig,
           coSig := coSig, map := map }

/-- The record limit of the suite a record names. -/
def recordLimit (suite : ℕ) : ℕ :=
  match suiteOf suite with
  | some suite => suite.maxRecordBytes
  | none => maxRecordBytes

/-- Decode and validate bytes received from a peer. -/
def parseRecordBytes (bytes : Bytes) : Except RecordError RegistryRecord :=
  if bytes.length > maxRecordBytes then
    fail .tooLarge s!"{bytes.length} bytes exceeds {maxRecordBytes}"
  else if ¬ isDeterministic bytes then fail .nonCanonical "record is not deterministic CBOR"
  else
    match decode bytes with
    -- `isDeterministic` has decoded these bytes already
    | .error _ => fail .nonCanonical "record is not deterministic CBOR"
    | .ok (.map map) => do
      let record ← parseRecord map
      check (bytes.length > recordLimit record.suite) .tooLarge
        s!"{bytes.length} bytes exceeds suite {record.suite}'s limit of {recordLimit record.suite}"
      return record
    | .ok _ => fail .notAMap "a record must be a CBOR map"

end VayuWeb
