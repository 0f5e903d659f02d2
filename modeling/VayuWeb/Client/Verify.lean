import VayuWeb.Client.Record

/-!
# The client's verifier (`client/src/verify.rs`)

`parseBytes` is the framing and schema stage, `verifyAgainst` the whole verdict against what the
client knows of the name. The rejection codes are the registry's words.
-/

namespace VayuWeb.Client

open Bytes
open DetCbor (Key Value)

/-- `MAX_RECORD_BYTES`. -/
def maxRecordBytes : ℕ := 4096

/-- `MAX_CLOCK_SKEW`. -/
def maxClockSkew : ℕ := 300

/-- `MAX_BACKDATE`. -/
def maxBackdate : ℕ := 86400

/-- What the verifier says of a record. -/
inductive Verdict where
  | accept
  | reject (code : VerifyRejection) (detail : String)
  | defer (reason detail : String)
  deriving DecidableEq, Repr

/-- Refuse when `bad`. -/
def refuse (bad : Prop) [Decidable bad] (code : VerifyRejection) (detail : String) :
    Except Verdict Unit :=
  if bad then .error (.reject code detail) else .ok ()

/-! ## Predecessors -/

/-- What chain discipline needs of the record a successor claims to follow. -/
structure PrevView where
  opText : String
  seq : ℕ
  notBefore : ℕ
  notAfter : ℕ
  ownerKey : Bytes
  /-- The key that signed it: the transferor on a TRANSFER, else the owner. -/
  signerKey : Bytes
  suite : ℕ
  hash : Bytes
  revoked : Bool
  deriving DecidableEq, Repr

/-- The first value under a text key. -/
def field : Members → String → Option Value
  | [], _ => none
  | (k, v) :: members, name => if k = .text name then some v else field members name

/-- A key of 32 bytes. -/
def key32 (value : Value) : Except String Bytes :=
  match value with
  | .bytes bytes => if bytes.length = 32 then .ok bytes else .error "expected 32-byte key"
  | _ => .error "expected 32-byte key"

/-- An unsigned integer. -/
def uint (value : Value) : Except String ℕ :=
  match value with
  | .uint n => .ok n
  | _ => .error "expected an unsigned integer"

/-- A number of a predecessor, which has to be there. -/
def prevUint (members : Members) (name : String) : Except String ℕ := do
  uint (← okOr (field members name) s!"predecessor has no {name}")

/-- The transferor's key, which `ownerKey` of a TRANSFER does not name. -/
def signerOf (opText : String) (ownerKey : Bytes) (transferorKey : Option Bytes) :
    Except String Bytes :=
  if opText = "TRANSFER" then
    okOr transferorKey ("a TRANSFER predecessor needs its transferor key (--transferor-key): " ++
      "ownerKey names the recipient, who does not control the name yet")
  else .ok ownerKey

/-- A suite that is one byte. -/
def suiteByte (suite : ℕ) : Except String ℕ :=
  if suite < 256 then .ok suite else .error "predecessor suite out of range"

/-- What a predecessor's encoding says of it. -/
def prevView (C : Crypto) (bytes : Bytes) (transferorKey : Option Bytes) : Except String PrevView :=
  match decode bytes with
  | .error e => .error s!"predecessor does not decode: {e.display}"
  | .ok (.map members) => do
    let opText ← okOr ((field members "op").bind asText) "predecessor has no op"
    let ownerKey ← key32 (← okOr (field members "ownerKey") "predecessor has no ownerKey")
    let signerKey ← signerOf opText ownerKey transferorKey
    let seq ← prevUint members "seq"
    let notBefore ← prevUint members "notBefore"
    let notAfter ← prevUint members "notAfter"
    let suite ← suiteByte (← prevUint members "suite")
    return { opText := opText, seq := seq, notBefore := notBefore, notAfter := notAfter,
             ownerKey := ownerKey, signerKey := signerKey, suite := suite,
             hash := recordHashFromBytes C bytes, revoked := false }
  | .ok _ => .error "a predecessor is a CBOR map"

/-! ## Fields -/

/-- A record that passed the schema, with the map it was parsed from. -/
structure ParsedRecord where
  map : Members
  op : String
  label : String
  tld : String
  seq : ℕ
  notBefore : ℕ
  notAfter : ℕ
  ownerKey : Bytes
  sig : Bytes
  coSig : Option Bytes
  suite : ℕ
  powBits : Option ℕ
  powNonce : Option Bytes

/-- The verdict on a field that is not there. -/
def missing (name : String) : Verdict := .reject .missingField s!"{name} is required"

/-- The verdict on a field of another type. -/
def wrongType (name detail : String) : Verdict := .reject .badFieldType s!"{name} {detail}"

/-- A required unsigned integer. -/
def uintField (members : Members) (name : String) : Except Verdict ℕ :=
  match field members name with
  | none => .error (missing name)
  | some (.uint n) => .ok n
  | some _ => .error (wrongType name "must be an unsigned integer")

/-- A required text. -/
def textField (members : Members) (name : String) : Except Verdict String :=
  match field members name with
  | none => .error (missing name)
  | some (.text text) => .ok text
  | some _ => .error (wrongType name "must be text")

/-- A required byte string of one length. -/
def bytesField (members : Members) (name : String) (length : ℕ) : Except Verdict Bytes :=
  match field members name with
  | none => .error (missing name)
  | some (.bytes bytes) =>
    if bytes.length = length then .ok bytes
    else .error (wrongType name s!"must be {length} bytes, got {bytes.length}")
  | some _ => .error (wrongType name "must be a byte string")

/-! ## Entries and proof of work -/

/-- Refuses an entry. -/
def badEntry {α : Type} (detail : String) : Except Verdict α := .error (.reject .badRecordEntry detail)

/-- The lifetime of an entry, where it has one. -/
def checkTtl (fields : Members) : Except Verdict Unit :=
  match field fields "ttl" with
  | none => .ok ()
  | some ttl =>
    match uint ttl with
    | .error _ => badEntry "ttl is not an integer"
    | .ok ttl => refuse (¬ (minTtl ≤ ttl ∧ ttl ≤ maxTtl)) .badRecordEntry "ttl outside the agreed bounds"

/-- The bytes an entry value is charged for. -/
def valueSize : Value → ℕ
  | .bytes bytes => bytes.length
  | .text text => (utf8Encode text).length
  | _ => 0

/-- The shape a known type asks of the value; how many aliases have been met, this one included. -/
def checkKind (label tld : String) (total aliasCount : ℕ) (kind : String) (value : Value) :
    Except Verdict ℕ :=
  if kind = "peer" then
    match value with
    | .bytes bytes =>
      if bytes.length ≠ 32 then badEntry "peer value must be a 32-byte key" else .ok aliasCount
    | _ => badEntry "peer value must be a 32-byte key"
  else if kind = "ipns" then
    match value with
    | .text text =>
      if text.toList = [] ∨ text.toList.length > 128 then badEntry "ipns value must be 1-128 characters"
      else .ok aliasCount
    | _ => badEntry "ipns value must be 1-128 characters"
  else if kind = "cid" then
    match value with
    | .bytes bytes =>
      if bytes = [] ∨ bytes.length > 64 then badEntry "cid value must be 1-64 bytes" else .ok aliasCount
    | _ => badEntry "cid value must be 1-64 bytes"
  else if kind = "txt" then
    match value with
    | .text text =>
      if text.toList = [] ∨ (utf8Encode text).length > 255 then badEntry "txt value must be 1-255 bytes"
      else if text.toList.any fun c => c.toNat < 0x20 then
        badEntry "txt value must not contain control characters"
      else .ok aliasCount
    | _ => badEntry "txt value must be text"
  else if kind = "alias" then
    match value with
    | .text text =>
      match parseAlias text with
      | none => badEntry "alias must name a valid, ratified label.tld"
      | some target =>
        if target.label = label ∧ target.tld = tld then badEntry s!"{label}.{tld} may not alias itself"
        else if aliasCount + 1 > 1 then badEntry "at most one alias per record"
        else if total > 1 then badEntry "an alias MUST NOT coexist with another entry type"
        else .ok (aliasCount + 1)
    | _ => badEntry "alias must name a valid, ratified label.tld"
  -- an unknown type is retained
  else .ok aliasCount

/-- One turn of the loop over the entries. -/
def checkEntry (label tld : String) (total aliasCount : ℕ) (entry : Value) : Except Verdict ℕ :=
  match entry with
  | .map fields =>
    match field fields "type" with
    | none => badEntry "entry has no type"
    | some (.text kind) =>
      match field fields "value" with
      | none => badEntry "entry value is required"
      | some value => do
        checkTtl fields
        refuse (valueSize value > maxEntryValueBytes) .badRecordEntry
          s!"entry value {valueSize value} bytes exceeds {maxEntryValueBytes}"
        checkKind label tld total aliasCount kind value
    | some _ => badEntry "entry type is not text"
  | _ => badEntry "an entry is a map"

/-- The entries of a record, bounded in number. -/
def checkEntries (members : Members) (label tld : String) : Except Verdict Unit :=
  match field members "records" with
  | none => .error (missing "records")
  | some (.array entries) => do
    refuse (entries.length > maxRecordEntries) .tooManyRecords
      s!"{entries.length} entries exceeds {maxRecordEntries}"
    let _ ← entries.foldlM (checkEntry label tld entries.length) 0
    return ()
  | some _ => .error (wrongType "records" "must be an array")

/-- Refuses the shape of a proof. -/
def badShape {α : Type} (detail : String) : Except Verdict α := .error (.reject .badPowShape detail)

/-- The bits a proof claims. -/
def parseBits (proof : Members) : Except Verdict ℕ :=
  match field proof "bits" with
  | none => badShape "powProof has no bits"
  | some (.uint bits) => if bits < 2 ^ 32 then .ok bits else badShape "bits out of range"
  | some _ => badShape "bits is not an integer"

/-- The nonce of a proof. -/
def parseNonce (proof : Members) : Except Verdict Bytes :=
  match field proof "nonce" with
  | none => badShape "powProof has no nonce"
  | some (.bytes nonce) =>
    if nonce.length = powNonceLength then .ok nonce else badShape "nonce is not the agreed length"
  | some _ => badShape "nonce is not bytes"

/-- The bits and the nonce of a proof that is there. -/
def parseProof (proof : Members) : Except Verdict (ℕ × Bytes) :=
  match field proof "alg" with
  | none => badShape "powProof has no alg"
  | some (.text alg) => do
    refuse (alg ≠ powAlgorithm) .badPowShape s!"unsupported pow algorithm: {alg}"
    match ["m", "t", "p", "salt"].find? fun forbidden => (field proof forbidden).isSome with
    | some forbidden => badShape s!"powProof must not carry {forbidden}"
    | none => do
      let bits ← parseBits proof
      let nonce ← parseNonce proof
      return (bits, nonce)
  | some _ => badShape "powProof alg is not text"

/-- The proof of a record, or `null`. -/
def powField (members : Members) : Except Verdict (Option (ℕ × Bytes)) :=
  match field members "powProof" with
  | none => .error (missing "powProof")
  | some .null => .ok none
  | some (.map proof) => do return some (← parseProof proof)
  | some _ => badShape "powProof must be a map or null"

/-- The proof of work, and the rule about which operations carry one. -/
def parsePow (op : String) (members : Members) : Except Verdict (Option (ℕ × Bytes)) := do
  let pow ← powField members
  let needsPow := op = "REGISTER" ∨ op = "RENEW"
  refuse (needsPow ∧ pow.isNone) .missingPow s!"{op} requires a proof of work"
  refuse (¬ needsPow ∧ pow.isSome) .unexpectedPow s!"{op} must carry powProof null"
  return pow

/-- The second signature, which may be absent or `null`. -/
def parseCoSig (members : Members) : Except Verdict (Option Bytes) :=
  match field members "coSig" with
  | none => .ok none
  | some .null => .ok none
  | some (.bytes bytes) =>
    if bytes.length = 64 then .ok (some bytes)
    else .error (.reject .badCosig s!"coSig must be a 64-byte signature, got {bytes.length}")
  | some _ => .error (.reject .badCosig "coSig must be a 64-byte signature")

/-! ## Records -/

/-- The operations a record may name. -/
def operationNames : List String := ["REGISTER", "RENEW", "UPDATE", "TRANSFER", "RELINQUISH", "REVOKE"]

/-- The label is one that can be registered. -/
def checkLabel (label : String) : Except Verdict Unit :=
  match labelRejection label with
  | some problem => .error (.reject .badLabel s!"{label}: {problem.name}")
  | none => .ok ()

/-- Parse and structurally validate a decoded record map. -/
def parseRecord (value : Value) : Except Verdict ParsedRecord :=
  match value with
  | .map members => do
    let version ← uintField members "version"
    refuse (version ≠ supportedVersion) .unsupportedVersion s!"version {version} is not implemented"
    let suite ← uintField members "suite"
    refuse (suite ≠ launchSuite) .unknownSuite s!"suite {suite} is not an active suite"
    refuse (suite ≥ 256) .unknownSuite "suite is out of range"
    let op ← textField members "op"
    refuse (op ∉ operationNames) .unknownOp s!"unknown op: {op}"
    let label ← textField members "name"
    checkLabel label
    let tld ← textField members "tld"
    refuse (¬ isRatifiedTld tld) .unknownTld s!"{tld} is not a ratified TLD"
    let ownerKey ← bytesField members "ownerKey" 32
    refuse (isSmallOrderKey ownerKey) .badKey "ownerKey is a small-order point"
    let seq ← uintField members "seq"
    refuse (seq > maxSeq) .badSeq s!"seq {seq} exceeds 2^32-1"
    let notBefore ← uintField members "notBefore"
    let notAfter ← uintField members "notAfter"
    refuse (notAfter < notBefore) .badTerm "notAfter precedes notBefore"
    checkEntries members label tld
    let pow ← parsePow op members
    let sig ← bytesField members "sig" 64
    -- read for its length only; the bytes are taken from the map when the chain is checked
    let _ ← bytesField members "prevHash" 32
    let coSig ← parseCoSig members
    return { map := members, op := op, label := label, tld := tld, seq := seq, notBefore := notBefore,
             notAfter := notAfter, ownerKey := ownerKey, sig := sig, coSig := coSig, suite := suite,
             powBits := pow.map Prod.fst, powNonce := pow.map Prod.snd }
  | _ => .error (.reject .notAMap "record must be a CBOR map")

/-- The framing and the schema of `verify_against`: what the bytes alone decide. -/
def parseBytes (bytes : Bytes) : Except Verdict ParsedRecord :=
  if bytes.length > maxRecordBytes then
    .error (.reject .tooLarge s!"{bytes.length} bytes exceeds {maxRecordBytes}")
  else
    match decode bytes with
    | .error e => .error (.reject .nonCanonical s!"undecodable: {e.display}")
    | .ok decoded =>
      match encode decoded with
      | .ok reencoded =>
        if reencoded = bytes then parseRecord decoded
        else .error (.reject .nonCanonical "bytes are not the deterministic encoding of their content")
      | .error e => .error (.reject .nonCanonical s!"re-encoding failed: {e.display}")

/-! ## Equivocation evidence -/

section State

variable (C : Crypto)

/-- One half of the evidence and its hash, when it is a record at all. -/
def parseHalf (bytes : Bytes) : Option (ParsedRecord × Bytes) := do
  let decoded ← (decode bytes).toOption
  let canonical ← (encode decoded).toOption
  if canonical ≠ bytes then none
  else
    let record ← (parseRecord decoded).toOption
    return (record, recordHashFromBytes C bytes)

/-- The signature that makes a record attributable: the countersignature on a TRANSFER. -/
def attributableSignature (record : ParsedRecord) : Option Bytes :=
  if record.op = "TRANSFER" then record.coSig else some record.sig

/-- Whether a record is its owner's by its signature alone. -/
def attributable (record : ParsedRecord) : Bool :=
  match coreOf record.map with
  | .error _ => false
  | .ok core =>
    match encodeCore core with
    | .error _ => false
    | .ok coreCbor =>
      let input := signingInput coreCbor record.suite
      match attributableSignature record with
      | none => false
      | some signature => verifySignature C record.ownerKey input signature

/-- Equivocation evidence, from its two encodings alone. -/
def isEquivocationEvidence (a b : Bytes) : Bool :=
  if a = b ∨ a.length > maxRecordBytes ∨ b.length > maxRecordBytes then false
  else
    match parseHalf C a, parseHalf C b with
    | some (left, leftHash), some (right, rightHash) =>
      let conflicts := left.label = right.label ∧ left.tld = right.tld ∧ left.seq = right.seq ∧
        left.ownerKey = right.ownerKey ∧ leftHash ≠ rightHash
      if ¬ conflicts then false else attributable C left && attributable C right
    | _, _ => false

/-! ## The verdict -/

/-- What the log says about the name. -/
structure Known where
  /-- The record this one claims to follow; for a REGISTER the incumbent. -/
  previous : Option PrevView
  revoked : Bool
  fullyReleased : Bool
  powVerified : Bool

/-- The verdict of the clock: ahead of it by too much, or behind. -/
def clockVerdict (notBefore now : ℕ) : Option Verdict :=
  if notBefore > saturatingAdd now maxClockSkew then
    some (.defer "CLOCK_SKEW" s!"notBefore {notBefore} is ahead of the verifier clock")
  else if notBefore < now - maxBackdate then
    some (.reject .backdated s!"notBefore {notBefore} is more than a day in the past")
  else none

/-- LIVE answers every operation, GRACE answers RENEW. -/
def acceptsSuccessor (prev : PrevView) (now : ℕ) (op : String) : Bool :=
  if now < prev.notBefore then false
  else
    let liveUntil := if prev.opText = "REVOKE" then prev.notBefore else prev.notAfter
    if op = "RENEW" then now < saturatingAdd prev.notAfter graceSeconds else now < liveUntil

/-- The owner, or the transferor until a TRANSFER has settled. -/
def controllingKey (prev : PrevView) (at_ : ℕ) : Bytes :=
  if prev.opText = "TRANSFER" ∧ at_ < add prev.notBefore settlementSeconds then prev.signerKey
  else prev.ownerKey

/-- Why the proof of work is refused, or nothing. -/
def checkPow (record : ParsedRecord) (windowCount : ℕ) : Option Verdict :=
  match record.powBits, record.powNonce with
  | some bits, some nonce =>
    let required := requiredBits record.label.toList.length windowCount
    if bits < required then
      some (.reject .badPow s!"claimed {bits} bits but {required} are currently required")
    else
      -- the salt is of the record without its signatures and with the nonce left out
      match coreOf record.map with
      | .error e => some (.reject .nonCanonical s!"core extraction failed: {e.display}")
      | .ok core =>
        match powSalt C core with
        | .error e => some (.reject .badPow s!"salt derivation failed: {e.display}")
        | .ok salt =>
          if ¬ tagSatisfies (powTag C nonce salt) bits then
            some (.reject .badPow "proof of work does not meet the claimed difficulty")
          else none
  | _, _ => some (.reject .missingPow "this operation requires a proof of work")

/-- Whether a field is a byte string of zeros. -/
def isZeroHash (value : Option Value) : Bool :=
  match value with
  | some (.bytes b) => b.all (· = 0)
  | _ => false

/-- Whether a record follows the one of a hash. -/
def prevHashMatches (members : Members) (expected : Bytes) : Bool :=
  match field members "prevHash" with
  | some (.bytes b) => b = expected
  | _ => false

/-- How many entries a record carries. -/
def entryCount (members : Members) : ℕ :=
  match field members "records" with
  | some (.array entries) => entries.length
  | _ => 0

/-- The proof of work, unless it is known to be verified. -/
def powVerdict (record : ParsedRecord) (known : Known) (windowCount : ℕ) : Option Verdict :=
  if ¬ known.powVerified then checkPow C record windowCount else none

/-- The rules of a REGISTER. -/
def verifyRegister (record : ParsedRecord) (input : Bytes) (known : Known) (now windowCount : ℕ) :
    Verdict :=
  if record.seq ≠ 0 ∨ ¬ isZeroHash (field record.map "prevHash") then
    .reject .badChain "REGISTER must carry seq 0 and a zero prevHash"
  else if known.previous.isSome ∧ ¬ known.fullyReleased then
    .reject .nameTaken s!"{record.label}.{record.tld} is held"
  else if record.notAfter - record.notBefore ≠ termSeconds then
    .reject .badTerm "a registration term is exactly one year"
  else if ¬ verifySignature C record.ownerKey input record.sig then
    .reject .badSig "signature does not verify under ownerKey"
  else
    match powVerdict C record known windowCount with
    | some verdict => verdict
    | none =>
      match clockVerdict record.notBefore now with
      | some clock => clock
      | none => .accept

/-- The rules an operation adds to those of every successor. -/
def verifyOperation (record : ParsedRecord) (prev : PrevView) (input : Bytes) (known : Known)
    (windowCount : ℕ) : Verdict :=
  if record.op = "UPDATE" then
    if record.notAfter ≠ prev.notAfter then .reject .badTerm "UPDATE must not change notAfter"
    else .accept
  else if record.op = "RENEW" then
    if record.powBits.isNone then .reject .missingPow "RENEW requires a proof of work"
    else if record.notBefore < prev.notAfter - renewalWindowSeconds then
      .reject .tooSoon "the renewal window opens 60 days before expiry"
    else
      -- a renewal adds a year to the term, or to its own start where the term is over
      let base := max prev.notAfter record.notBefore
      if record.notAfter ≠ add base termSeconds then
        .reject .badTerm s!"RENEW must set notAfter to {add base termSeconds}"
      else
        match powVerdict C record known windowCount with
        | some verdict => verdict
        | none => .accept
  else if record.op = "TRANSFER" then
    if record.ownerKey = prev.ownerKey then .reject .badOwner "TRANSFER must name a different ownerKey"
    else if record.notAfter ≠ prev.notAfter then .reject .badTerm "TRANSFER must not change notAfter"
    -- the term that is left must outlast the settlement
    else if record.notAfter - record.notBefore < settlementSeconds then
      .reject .unsettled
        s!"a transfer needs {settlementSeconds}s of term left to settle in; {record.notAfter - record.notBefore} remain"
    else
      match record.coSig with
      | none => .reject .badCosig "coSig does not verify under the incoming ownerKey"
      | some coSig =>
        if ¬ verifySignature C record.ownerKey input coSig then
          .reject .badCosig "coSig does not verify under the incoming ownerKey"
        else .accept
  else if record.op = "RELINQUISH" then
    if entryCount record.map ≠ 0 then .reject .badRecordEntry "RELINQUISH must carry no entries"
    else if record.notAfter ≠ record.notBefore then .reject .badTerm "RELINQUISH must expire immediately"
    else .accept
  else if record.op = "REVOKE" then
    if entryCount record.map ≠ 0 then .reject .badRecordEntry "REVOKE must carry no entries"
    else if record.notAfter ≠ prev.notAfter then .reject .badTerm "REVOKE must not change notAfter"
    else .accept
  else .reject .unknownOp s!"unhandled operation: {record.op}"

/-- When the TRANSFER before a record settles. -/
def settlesAt (prev : PrevView) : Option ℕ :=
  if prev.opText = "TRANSFER" then some (add prev.notBefore settlementSeconds) else none

/-- Whether a record falls into the settlement of the TRANSFER before it and is none itself. -/
def isUnsettled (record : ParsedRecord) (prev : PrevView) : Bool :=
  match settlesAt prev with
  | some settlesAt => record.notBefore < settlesAt && record.op ≠ "TRANSFER"
  | none => false

/-- The rules of a record with a predecessor. -/
def verifySuccessor (record : ParsedRecord) (input : Bytes) (known : Known) (now windowCount : ℕ) :
    Verdict :=
  match known.previous with
  | none => .reject .noPredecessor s!"{record.label}.{record.tld} has no accepted history"
  | some prev =>
    if record.seq ≠ add prev.seq 1 then
      .reject .badSeq s!"seq {record.seq} does not follow {prev.seq}"
    else if ¬ prevHashMatches record.map prev.hash then
      .reject .badChain "prevHash does not match the predecessor"
    else if record.notBefore < add prev.notBefore minIntervalSeconds then
      .reject .tooSoon "notBefore is less than 300s after the predecessor"
    else if record.suite < prev.suite then
      .reject .suiteDowngrade
        s!"suite {record.suite} is below the predecessor's {prev.suite}; suites move forward only"
    else if known.revoked ∨ prev.revoked then
      .reject .revoked "the name has been revoked and accepts no further records"
    else if ¬ acceptsSuccessor prev now record.op then
      .reject .expired s!"{record.label}.{record.tld} is not live enough for {record.op}"
    else if isUnsettled record prev then
      .reject .unsettled
        (s!"a transfer of {record.label}.{record.tld} settles at {add prev.notBefore settlementSeconds}; " ++
          "only TRANSFER is accepted until then")
    -- inside a settlement window the transferor's key still signs
    else if ¬ verifySignature C (controllingKey prev record.notBefore) input record.sig then
      .reject .badSig "signature does not verify under the controlling key"
    else
      match clockVerdict record.notBefore now with
      | some clock => clock
      | none =>
        if record.op ≠ "TRANSFER" ∧ record.ownerKey ≠ prev.ownerKey then
          .reject .badOwner s!"{record.op} must not change ownerKey"
        else if record.op ≠ "RENEW" ∧ record.powBits.isSome then
          .reject .unexpectedPow s!"{record.op} must carry powProof null"
        else verifyOperation C record prev input known windowCount

/-- Judge a parsed record against what is known and the clock. -/
def judge (record : ParsedRecord) (known : Known) (now windowCount : ℕ) : Verdict :=
  match coreOf record.map with
  | .error e => .reject .nonCanonical s!"core extraction failed: {e.display}"
  | .ok core =>
    match encodeCore core with
    | .error e => .reject .nonCanonical s!"core encoding failed: {e.display}"
    | .ok coreCbor =>
      let input := signingInput coreCbor record.suite
      if record.op = "REGISTER" then verifyRegister C record input known now windowCount
      else verifySuccessor C record input known now windowCount

/-- Verify one record's exact bytes against a known state. -/
def verifyAgainst (bytes : Bytes) (known : Known) (now windowCount : ℕ) : Verdict :=
  match parseBytes bytes with
  | .error verdict => verdict
  | .ok record => judge C record known now windowCount

end State

end VayuWeb.Client
