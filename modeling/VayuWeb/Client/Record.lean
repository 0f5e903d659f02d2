import VayuWeb.Client.Names
import VayuWeb.Client.Pow
import VayuWeb.Spec.Record

/-!
# Record construction (`client/src/record.rs`)

The six builders. A `u64` sum wraps, as it does in a release build; the typed arrays of the source
are byte strings, whose lengths `Identity` and `Predecessor.fromBytes` give.
-/

namespace VayuWeb.Client

open Bytes
open DetCbor (Key Value)

/-- `SUPPORTED_VERSION`. -/
def supportedVersion : ℕ := 1

/-- `LAUNCH_SUITE`. -/
def launchSuite : ℕ := 1

/-- `TERM_SECONDS`. -/
def termSeconds : ℕ := 31536000

/-- `RENEWAL_WINDOW_SECONDS`. -/
def renewalWindowSeconds : ℕ := 5184000

/-- `MIN_INTERVAL_SECONDS`. -/
def minIntervalSeconds : ℕ := 300

/-- `GRACE_SECONDS`. -/
def graceSeconds : ℕ := 2592000

/-- `SETTLEMENT_SECONDS`. -/
def settlementSeconds : ℕ := 1209600

/-- `MAX_RECORD_ENTRIES`. -/
def maxRecordEntries : ℕ := 32

/-- `MAX_ENTRY_VALUE_BYTES`. -/
def maxEntryValueBytes : ℕ := 512

/-- `MIN_TTL`. -/
def minTtl : ℕ := 60

/-- `MAX_TTL`. -/
def maxTtl : ℕ := 86400

/-- `DEFAULT_TTL`. -/
def defaultTtl : ℕ := 3600

/-- `MAX_SEQ`. -/
def maxSeq : ℕ := 0xffffffff

/-- `u64::MAX`. -/
def maxU64 : ℕ := 2 ^ 64 - 1

/-- A `u64` sum. -/
def add (a b : ℕ) : ℕ := (a + b) % 2 ^ 64

/-- `a.saturating_add(b)`. -/
def saturatingAdd (a b : ℕ) : ℕ := min (a + b) maxU64

/-- Why a record is not built. -/
inductive BuildError where
  | encode (error : CborError)
  | salt (error : CborError)
  | powExhausted
  | invalidName (rejection : NameRejection)
  | badEntry (reason : String)
  | tooManyEntries (found : ℕ)
  | tooSoon | outsideRenewalWindow | notRenewable | notLive | unsettled
  | settling (settlesAt : ℕ)
  | badPredecessor (reason : String)
  | signing
  deriving DecidableEq, Repr

/-! ## Entries -/

/-- What an entry says, by its type. -/
inductive EntryValue where
  /-- A key of 32 bytes. -/
  | peer (key : { key : Bytes // key.length = 32 })
  | ipns (text : String)
  | cid (bytes : Bytes)
  | txt (text : String)
  | alias (label tld : String)
  deriving DecidableEq

/-- One entry of a record, its lifetime the default where none is given. -/
structure Entry where
  value : EntryValue
  ttl : Option ℕ
  deriving DecidableEq

/-- The type and the value of an entry, once its shape is checked. -/
def EntryValue.typed : EntryValue → Except BuildError (String × Value)
  | .peer key => .ok ("peer", .bytes key.1)
  | .ipns text =>
    let chars := text.toList.length
    -- counted in characters here, and in bytes against the bound of every value
    if ¬ (1 ≤ chars ∧ chars ≤ 128) ∨ (utf8Encode text).length > maxEntryValueBytes then
      .error (.badEntry "ipns value must be 1-128 characters")
    else .ok ("ipns", .text text)
  | .cid bytes =>
    if bytes = [] ∨ bytes.length > 64 then .error (.badEntry "cid value must be 1-64 bytes")
    else .ok ("cid", .bytes bytes)
  | .txt text =>
    let size := (utf8Encode text).length
    if ¬ (1 ≤ size ∧ size ≤ 255) then .error (.badEntry "txt value must be 1-255 bytes")
    else if text.toList.any fun c => c.toNat < 0x20 then
      .error (.badEntry "txt value must not contain control characters")
    else .ok ("txt", .text text)
  | .alias label tld => .ok ("alias", .text s!"{label}.{tld}")

/-- The entry as the record carries it. -/
def Entry.toMap (entry : Entry) : Except BuildError Members := do
  let (entryType, value) ← entry.value.typed
  return [(.text "type", .text entryType), (.text "value", value),
    (.text "ttl", .uint (entry.ttl.getD defaultTtl))]

/-- A lifetime that is given lies in the range. -/
def validateTtl (ttl : Option ℕ) : Except BuildError Unit :=
  match ttl with
  | none => .ok ()
  | some value =>
    if minTtl ≤ value ∧ value ≤ maxTtl then .ok () else .error (.badEntry "ttl out of range")

/-- Whether an entry points at another name. -/
def Entry.isAlias (entry : Entry) : Bool :=
  match entry.value with
  | .alias _ _ => true
  | _ => false

/-- The count and the alias rules, the same for typed and for carried entries. -/
def checkCounts (found aliasCount : ℕ) : Except BuildError Unit :=
  if aliasCount > 1 then .error (.badEntry "at most one alias per record")
  else if aliasCount = 1 ∧ found > 1 then
    .error (.badEntry "an alias must not coexist with another entry")
  else .ok ()

/-- The `type` of an entry that is carried: the last text under that key. -/
def carriedType (fields : Members) : Option String :=
  fields.foldl (fun kind e =>
    match e with
    | (.text name, .text text) => if name = "type" then some text else kind
    | _ => kind) none

/-- One turn of the loop of `carried_entries_field`. -/
def countAlias (aliasCount : ℕ) (entry : Value) : Except BuildError ℕ :=
  match entry with
  | .map fields =>
    match carriedType fields with
    | some kind => .ok (if kind = "alias" then aliasCount + 1 else aliasCount)
    | none => .error (.badEntry "an entry names no type")
  | _ => .error (.badEntry "an entry is a map")

/-- The `records` of a successor that carries entries forward, verbatim. -/
def carriedEntriesField (list : List Value) : Except BuildError Value :=
  if list.length > maxRecordEntries then .error (.tooManyEntries list.length)
  else do
    let aliasCount ← list.foldlM countAlias 0
    checkCounts list.length aliasCount
    return .array list

/-- The `records` of a REGISTER or an UPDATE. -/
def entriesField (list : List Entry) : Except BuildError Value :=
  if list.length > maxRecordEntries then .error (.tooManyEntries list.length)
  else do
    checkCounts list.length (list.filter Entry.isAlias).length
    let out ← list.mapM fun entry => do
      validateTtl entry.ttl
      let fields ← entry.toMap
      return Value.map fields
    return .array out

/-! ## Predecessors -/

/-- What a successor needs of the record before it. -/
structure Predecessor where
  seq : ℕ
  op : Operation
  notBefore : ℕ
  notAfter : ℕ
  hash : Bytes
  revoked : Bool
  entries : List Value

/-- What `Predecessor::from_bytes` has found so far. -/
structure Found where
  seq : Option ℕ := none
  notBefore : Option ℕ := none
  notAfter : Option ℕ := none
  op : Option String := none
  records : List Value := []

/-- An unsigned integer, or nothing. -/
def asUint : Value → Option ℕ
  | .uint v => some v
  | _ => none

/-- A text, or nothing. -/
def asText : Value → Option String
  | .text s => some s
  | _ => none

/-- One turn of the loop of `Predecessor::from_bytes`. -/
def Found.read (found : Found) (entry : Key × Value) : Except BuildError Found :=
  match entry with
  | (.bytes _, _) => .ok found
  | (.text name, value) =>
    if name = "seq" then .ok { found with seq := asUint value <|> found.seq }
    else if name = "notBefore" then .ok { found with notBefore := asUint value <|> found.notBefore }
    else if name = "notAfter" then .ok { found with notAfter := asUint value <|> found.notAfter }
    else if name = "op" then .ok { found with op := asText value <|> found.op }
    else if name = "records" then
      match value with
      | .array list => .ok { found with records := list }
      | _ => .error (.badPredecessor "records is not an array")
    else .ok found

/-- `ok_or`. -/
def okOr {ε α : Type} (x : Option α) (error : ε) : Except ε α :=
  match x with
  | some a => .ok a
  | none => .error error

/-- The facts of a record's exact bytes. -/
def Predecessor.fromBytes (C : Crypto) (bytes : Bytes) : Except BuildError Predecessor :=
  match decode bytes with
  | .error _ => .error (.badPredecessor "bytes are not deterministic CBOR")
  | .ok (.map entries) => do
    let found ← entries.foldlM Found.read {}
    let opText ← okOr found.op (.badPredecessor "op missing")
    let seq ← okOr found.seq (.badPredecessor "seq missing")
    let op ← okOr (Operation.ofName opText) (.badPredecessor "unknown operation")
    let notBefore ← okOr found.notBefore (.badPredecessor "notBefore missing")
    let notAfter ← okOr found.notAfter (.badPredecessor "notAfter missing")
    return { seq := seq, op := op, notBefore := notBefore, notAfter := notAfter,
             hash := recordHashFromBytes C bytes, revoked := opText = "REVOKE",
             entries := found.records }
  | .ok _ => .error (.badPredecessor "a record is a CBOR map")

/-! ## Assembly -/

/-- A `powProof` of these bits and nonce. -/
def proofValue (bits : ℕ) (nonce : Bytes) : Value :=
  .map [(.text "alg", .text powAlgorithm), (.text "bits", .uint bits), (.text "nonce", .bytes nonce)]

/-- The fields every record has, before it is signed. -/
def skeleton (op label tld : String) (ownerKey : Bytes) (seq notBefore notAfter : ℕ) (entries : Value)
    (powProof : Option (ℕ × Bytes)) (prevHash : Bytes) : Members :=
  let proof :=
    match powProof with
    | some (bits, nonce) => proofValue bits nonce
    | none => .null
  [(.text "version", .uint supportedVersion), (.text "suite", .uint launchSuite), (.text "op", .text op),
   (.text "name", .text label), (.text "tld", .text tld), (.text "ownerKey", .bytes ownerKey),
   (.text "seq", .uint seq), (.text "notBefore", .uint notBefore), (.text "notAfter", .uint notAfter),
   (.text "records", entries), (.text "powProof", proof), (.text "prevHash", .bytes prevHash)]

/-- An encoding that the builder needs. -/
def encodeMap (record : Members) : Except BuildError Bytes :=
  match encode (.map record) with
  | .ok bytes => .ok bytes
  | .error error => .error (.encode error)

section Build

variable (C : Crypto)

/-- Sign, and countersign when there is a second key. -/
def signWithoutPow (record : Members) (signer : Identity C) (coSigner : Option (Identity C)) :
    Except BuildError Bytes := do
  let core ← encodeMap record
  let input := signingInput core launchSuite
  let signature ← okOr (signer.sign input) .signing
  let record := record ++ [(.text "sig", .bytes signature)]
  match coSigner with
  | none => encodeMap record
  | some co => do
    let coSignature ← okOr (co.sign input) .signing
    encodeMap (record ++ [(.text "coSig", .bytes coSignature)])

/-- The record with a new value for `powProof`. -/
def setProof (record : Members) (proof : Value) : Members :=
  record.map fun e => if e.1 = .text "powProof" then (e.1, proof) else e

/-- Search for the nonce, put it into the record, then sign as without proof of work. -/
def finishPowAndSign (record : Members) (bits : ℕ) (signer : Identity C)
    (coSigner : Option (Identity C)) (limit : ℕ) : Except BuildError Bytes :=
  match solve C record bits limit with
  | .error .exhausted => .error .powExhausted
  | .error (.salt error) => .error (.salt error)
  | .error (.encode error) => .error (.encode error)
  | .ok nonce => signWithoutPow C (setProof record (proofValue bits nonce)) signer coSigner

end Build

/-! ## Checks -/

/-- The name is one that can be registered. -/
def checkName (label tld : String) : Except BuildError Unit :=
  match nameRejection label tld with
  | some rejection => .error (.invalidName rejection)
  | none => .ok ()

/-- The interval between a record and its successor has passed. -/
def successorGapOk (prev : Predecessor) (now : ℕ) : Except BuildError Unit :=
  if now < saturatingAdd prev.notBefore minIntervalSeconds then .error .tooSoon else .ok ()

/-- No TRANSFER is settling. -/
def checkSettled (prev : Predecessor) (now : ℕ) : Except BuildError Unit :=
  if prev.op = .transfer ∧ now < add prev.notBefore settlementSeconds then
    .error (.settling (add prev.notBefore settlementSeconds))
  else .ok ()

/-- The predecessor's term runs, or its grace where that is enough. -/
def checkLive (prev : Predecessor) (now : ℕ) (allowGrace : Bool) : Except BuildError Unit :=
  if prev.revoked then .error .notRenewable
  else if now < prev.notBefore then .error .notLive
  else if allowGrace then
    if ¬ now < add prev.notAfter graceSeconds then .error .notRenewable else .ok ()
  else if ¬ now < prev.notAfter then .error .notLive
  else .ok ()

/-- What every successor asks of its predecessor. -/
def checkSuccessorPreamble (prev : Predecessor) (now : ℕ) (allowGrace : Bool) :
    Except BuildError Unit := do
  checkSettled prev now
  successorGapOk prev now
  checkLive prev now allowGrace

/-! ## The six builders -/

section Build

variable (C : Crypto)

/-- The nonce that stands in a record while its proof is solved. -/
def zeroNonce : Bytes := List.replicate powNonceLength 0

/-- The hash that stands for a predecessor where there is none. -/
def zeroHash : Bytes := List.replicate 32 0

/-- Builds a REGISTER: a new chain, with its proof of work. -/
def buildRegister (identity : Identity C) (label tld : String) (now : ℕ) (entries : List Entry)
    (windowCount : ℕ) (bitsOverride : Option ℕ) (limit : ℕ) : Except BuildError Bytes := do
  checkName label tld
  let required := requiredBits label.toList.length windowCount
  let bits := bitsOverride.getD required
  if bits < required then throw (.badEntry "claimed difficulty below the requirement")
  let entries ← entriesField entries
  let record := skeleton "REGISTER" label tld identity.publicKey 0 now (add now termSeconds) entries
    (some (bits, zeroNonce)) zeroHash
  finishPowAndSign C record bits identity none limit

/-- Builds a RENEW inside the renewal window, with its proof of work. -/
def buildRenew (identity : Identity C) (prev : Predecessor) (label tld : String) (now windowCount : ℕ)
    (limit : ℕ) : Except BuildError Bytes := do
  checkName label tld
  checkSuccessorPreamble prev now true
  if now < prev.notAfter - renewalWindowSeconds then throw .outsideRenewalWindow
  let bits := requiredBits label.toList.length windowCount
  let notAfter := add (max prev.notAfter now) termSeconds
  let entries ← carriedEntriesField prev.entries
  let record := skeleton "RENEW" label tld identity.publicKey (add prev.seq 1) now notAfter entries
    (some (bits, zeroNonce)) prev.hash
  finishPowAndSign C record bits identity none limit

/-- Builds an UPDATE: other entries, the same term. -/
def buildUpdate (identity : Identity C) (prev : Predecessor) (label tld : String) (now : ℕ)
    (entries : List Entry) : Except BuildError Bytes := do
  checkName label tld
  checkSuccessorPreamble prev now false
  let entries ← entriesField entries
  let record := skeleton "UPDATE" label tld identity.publicKey (add prev.seq 1) now prev.notAfter entries
    none prev.hash
  signWithoutPow C record identity none

/-- Builds a TRANSFER, which both parties sign. -/
def buildTransfer (transferor recipient : Identity C) (prev : Predecessor) (label tld : String)
    (now : ℕ) : Except BuildError Bytes := do
  checkName label tld
  checkSuccessorPreamble prev now false
  if prev.notAfter - now < settlementSeconds then throw .unsettled
  let entries ← carriedEntriesField prev.entries
  let record := skeleton "TRANSFER" label tld recipient.publicKey (add prev.seq 1) now prev.notAfter
    entries none prev.hash
  signWithoutPow C record transferor (some recipient)

/-- Builds a RELINQUISH, which ends the term as it is made. -/
def buildRelinquish (identity : Identity C) (prev : Predecessor) (label tld : String) (now : ℕ) :
    Except BuildError Bytes := do
  checkName label tld
  checkSuccessorPreamble prev now false
  let record := skeleton "RELINQUISH" label tld identity.publicKey (add prev.seq 1) now now (.array [])
    none prev.hash
  signWithoutPow C record identity none

/-- Builds a REVOKE, which closes the name for the rest of its term. -/
def buildRevoke (identity : Identity C) (prev : Predecessor) (label tld : String) (now : ℕ) :
    Except BuildError Bytes := do
  checkName label tld
  checkSuccessorPreamble prev now false
  let record := skeleton "REVOKE" label tld identity.publicKey (add prev.seq 1) now prev.notAfter
    (.array []) none prev.hash
  signWithoutPow C record identity none

end Build

end VayuWeb.Client
