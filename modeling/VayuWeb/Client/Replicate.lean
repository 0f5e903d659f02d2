import VayuWeb.Client.Blockx

/-!
# Replication messages in the client (`client/src/replicate.rs`)

The message codec. The five messages are the registry's, with numbers as `u64`.
-/

namespace VayuWeb.Client.Replicate

open DetCbor (Key Value)

/-! ## `RepLimit` -/

/-- `RepLimit::MESSAGE_BYTES`. -/
def messageBytes : ℕ := 65536

/-- `RepLimit::RECORDS_PER_BATCH`. -/
def recordsPerBatch : ℕ := 256

/-- `RepLimit::ROOT_BYTES`. -/
def rootBytes : ℕ := 32

/-- Why a message could not be encoded or decoded. -/
inductive ReplicationError where
  | tooLarge (detail : String)
  | nonCanonical (detail : String)
  | malformed (detail : String)
  /-- The type, which the detail quotes. -/
  | unknownType (other : String)
  | limitExceeded (detail : String)
  deriving DecidableEq, Repr

/-- The message type as it appears on the wire. -/
def typeName : Message → String
  | .hello _ _ _ => "HELLO"
  | .want _ _ => "WANT"
  | .records _ _ => "RECORDS"
  | .checkpoint _ _ _ _ => "CHECKPOINT"
  | .equivocation _ _ => "EQUIVOCATION"

/-- The members of a message after its type. -/
def membersOf : Message → Members
  | .hello v len root => [(.text "v", .uint v), (.text "len", .uint len), (.text "root", .bytes root)]
  | .want from_ count => [(.text "from", .uint from_), (.text "count", .uint count)]
  | .records from_ recs => [(.text "from", .uint from_), (.text "recs", .array (recs.map .bytes))]
  | .checkpoint len treeRoot indexRoot liveNames =>
    [(.text "len", .uint len), (.text "treeRoot", .bytes treeRoot), (.text "indexRoot", .bytes indexRoot),
     (.text "liveNames", .uint liveNames)]
  | .equivocation a b => [(.text "a", .bytes a), (.text "b", .bytes b)]

/-- Encode a message as deterministic CBOR. -/
def encodeMessage (message : Message) : Except ReplicationError Bytes := do
  let bytes ← (encode (.map ((.text "t", .text (typeName message)) :: membersOf message))).mapError fun e =>
    .malformed e.display
  if bytes.length > messageBytes then
    throw (.tooLarge s!"message encodes to {bytes.length} bytes, over the {messageBytes} limit")
  return bytes

/-- A required unsigned integer. -/
def uintField (members : Members) (key : String) : Except ReplicationError ℕ :=
  match field members key with
  | none => .error (.malformed s!"{key} is required")
  | some (.uint n) => .ok n
  | some _ => .error (.malformed s!"{key} must be an unsigned integer")

/-- A byte string, optionally with an exact required length. -/
def bstrField (members : Members) (key : String) (length : Option ℕ) : Except ReplicationError Bytes :=
  match field members key with
  | none => .error (.malformed s!"{key} is required")
  | some (.bytes bytes) =>
    match length with
    | none => .ok bytes
    | some length =>
      if bytes.length ≠ length then .error (.malformed s!"{key} must be {length} bytes, got {bytes.length}")
      else .ok bytes
  | some _ => .error (.malformed s!"{key} must be a byte string")

/-- An entry of a batch. -/
def recordEntry : Value → Except ReplicationError Bytes
  | .bytes bytes => .ok bytes
  | _ => .error (.malformed "recs must hold byte strings")

/-- The entries of a batch: length first, then each element. -/
def batchOf (members : Members) : Except ReplicationError (List Bytes) :=
  match field members "recs" with
  | none => .error (.malformed "recs is required")
  | some (.array entries) =>
    if entries.length > recordsPerBatch then
      .error (.limitExceeded s!"batch of {entries.length} exceeds the {recordsPerBatch} limit")
    else entries.mapM recordEntry
  | some _ => .error (.malformed "recs must be an array")

/-- The message that the members of a map make, by its type. -/
def messageOf (members : Members) (type : String) : Except ReplicationError Message :=
  if type = "HELLO" then do
    return .hello (← uintField members "v") (← uintField members "len") (← bstrField members "root" (some rootBytes))
  else if type = "WANT" then do return .want (← uintField members "from") (← uintField members "count")
  else if type = "RECORDS" then do
    let recs ← batchOf members
    return .records (← uintField members "from") recs
  else if type = "CHECKPOINT" then do
    return .checkpoint (← uintField members "len") (← bstrField members "treeRoot" (some rootBytes))
      (← bstrField members "indexRoot" (some rootBytes)) (← uintField members "liveNames")
  else if type = "EQUIVOCATION" then do
    return .equivocation (← bstrField members "a" none) (← bstrField members "b" none)
  else .error (.unknownType type)

/-- Decode a message, enforcing size and shape before anything is believed. -/
def decodeMessage (bytes : Bytes) : Except ReplicationError Message := do
  if bytes.length > messageBytes then
    throw (.tooLarge s!"message is {bytes.length} bytes, over the {messageBytes} limit")
  let decoded ← (decode bytes).mapError fun e => .nonCanonical s!"not deterministic CBOR: {e.display}"
  let reencoded ← (encode decoded).mapError fun e => .nonCanonical e.display
  if reencoded ≠ bytes then throw (.nonCanonical "bytes are not the deterministic encoding of their content")
  match decoded with
  | .map members =>
    match Blockx.typeText members with
    | none => throw (.malformed "t must be text")
    | some type => messageOf members type
  | _ => throw (.malformed "message is not a map")

end VayuWeb.Client.Replicate
