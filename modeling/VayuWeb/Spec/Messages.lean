import VayuWeb.Spec.Content
import VayuWeb.Spec.Replicate

/-!
# Messages on the wire (`registry/src/replicate.ts`, `registry/src/blockx.ts`)

A message is a map in deterministic CBOR. What an encoder or a decoder throws is the codec's error
or its own, with the protocol's code.
-/

namespace VayuWeb

open Bytes
open Content (jsonString)

/-- What the codec of messages throws. -/
inductive Refusal (ρ : Type) where
  | cborError (e : CborError)
  | refused (code : ρ) (text : String)
  deriving DecidableEq, Repr

section

variable {ρ : Type}

/-- `encode`, whose error is thrown as it is. -/
def writeMap (map : CborMap) : Except (Refusal ρ) Bytes := (encode (.map map)).mapError .cborError

/-- A size that both sides bound. -/
def checkSize (tooLarge : ρ) (describe : ℕ → String) (bytes : Bytes) (limit : ℕ) : Except (Refusal ρ) Unit :=
  if bytes.length > limit then .error (.refused tooLarge (describe bytes.length)) else .ok ()

/-- The map that bytes hold, and its `t`. -/
def readMap (nonCanonical malformed : ρ) (bytes : Bytes) : Except (Refusal ρ) (CborMap × String) :=
  match decode bytes with
  | .error error => .error (.refused nonCanonical s!"not deterministic CBOR: CborError: {error.message}")
  | .ok (.map map) =>
    match CborMap.get? map "t" with
    | some (.text type) => .ok (map, type)
    | _ => .error (.refused malformed "t must be text")
  | .ok _ => .error (.refused malformed "message is not a map")

/-- An unsigned integer under a key, or the reader's refusal. -/
def readUint (malformed : ρ) (map : CborMap) (key : String) : Except (Refusal ρ) ℕ :=
  match CborMap.get? map key with
  | some (.number value) => .ok value
  | _ => .error (.refused malformed s!"{key} must be an unsigned integer")

end

/-! ## Replication -/

/-- The codes of a `ReplicationError`. -/
inductive ReplicationRejection where
  | tooLarge | nonCanonical | malformed | unknownType | unsupportedVersion | helloExpected | helloRepeated
  | limitExceeded | notEquivocation
  deriving DecidableEq, Repr

/-- An error of the replication codec. -/
abbrev ReplicationError := Refusal ReplicationRejection

/-- The map of a message. -/
def Message.toMap : Message → CborMap
  | .hello v len root =>
    [(.text "t", .text "HELLO"), (.text "v", .number v), (.text "len", .number len), (.text "root", .bytes root)]
  | .want from_ count => [(.text "t", .text "WANT"), (.text "from", .number from_), (.text "count", .number count)]
  | .records from_ recs =>
    [(.text "t", .text "RECORDS"), (.text "from", .number from_), (.text "recs", .array (recs.map .bytes))]
  | .checkpoint len treeRoot indexRoot liveNames =>
    [(.text "t", .text "CHECKPOINT"), (.text "len", .number len), (.text "treeRoot", .bytes treeRoot),
     (.text "indexRoot", .bytes indexRoot), (.text "liveNames", .number liveNames)]
  | .equivocation a b => [(.text "t", .text "EQUIVOCATION"), (.text "a", .bytes a), (.text "b", .bytes b)]

/-- The bytes of a message, refused over the size bound. -/
def encodeMessage (message : Message) : Except ReplicationError Bytes := do
  let bytes ← writeMap message.toMap
  checkSize ReplicationRejection.tooLarge
    (fun length => s!"message encodes to {length} bytes, over the {limitMessageBytes} limit") bytes limitMessageBytes
  return bytes

/-- An unsigned integer of a replication message. -/
def uint (map : CborMap) (key : String) : Except ReplicationError ℕ := readUint .malformed map key

/-- A byte string of a replication message, of a given length where one is given. -/
def bstr (map : CborMap) (key : String) (length : Option ℕ) : Except ReplicationError Bytes :=
  match CborMap.get? map key with
  | some (.bytes value) =>
    match length with
    | none => .ok value
    | some length =>
      if value.length ≠ length then
        .error (.refused .malformed s!"{key} must be {length} bytes, got {value.length}")
      else .ok value
  | _ => .error (.refused .malformed s!"{key} must be a byte string")

/-- The byte strings of a batch. -/
def recordEntry : CborValue → Except ReplicationError Bytes
  | .bytes entry => .ok entry
  | _ => .error (.refused .malformed "recs must hold byte strings")

/-- Reads a message; the type decides which fields are read. -/
def decodeMessage (bytes : Bytes) : Except ReplicationError Message := do
  checkSize ReplicationRejection.tooLarge
    (fun length => s!"message is {length} bytes, over the {limitMessageBytes} limit") bytes limitMessageBytes
  let (map, type) ← readMap ReplicationRejection.nonCanonical .malformed bytes
  if type = "HELLO" then
    return .hello (← uint map "v") (← uint map "len") (← bstr map "root" (some 32))
  else if type = "WANT" then
    return .want (← uint map "from") (← uint map "count")
  else if type = "RECORDS" then
    match CborMap.get? map "recs" with
    | some (.array recs) =>
      -- the batch is refused by its count before one of its entries is looked at
      if recs.length > limitRecordsPerBatch then
        throw (.refused .limitExceeded s!"batch of {recs.length} exceeds the {limitRecordsPerBatch} limit")
      let out ← recs.mapM recordEntry
      return .records (← uint map "from") out
    | _ => throw (.refused .malformed "recs must be an array")
  else if type = "CHECKPOINT" then
    return .checkpoint (← uint map "len") (← bstr map "treeRoot" (some 32)) (← bstr map "indexRoot" (some 32))
      (← uint map "liveNames")
  else if type = "EQUIVOCATION" then
    return .equivocation (← bstr map "a" none) (← bstr map "b" none)
  else throw (.refused .unknownType s!"unknown message type {jsonString type}")

/-! ## Block exchange -/

namespace BlockExchange

/-- `BX_LIMITS.messageBytes`. -/
def limitMessageBytes : ℕ := 1114112

/-- `BX_LIMITS.blockBytes`. -/
def limitBlockBytes : ℕ := 1048576

/-- `BX_LIMITS.wantCids`. -/
def limitWantCids : ℕ := 64

/-- `BX_LIMITS.blocksPerMessage`. -/
def limitBlocksPerMessage : ℕ := 64

/-- `BX_LIMITS.cidBytes`. -/
def limitCidBytes : ℕ := 64

/-- A message of the block exchange. -/
inductive BlockMessage where
  | bhello (v max : ℕ)
  | bwant (cids : List Bytes)
  | blocks (blks : List Bytes)
  | bdone (cids : List Bytes)
  deriving DecidableEq, Repr

/-- The codes of a `BlockExchangeError`. -/
inductive BlockExchangeRejection where
  | tooLarge | nonCanonical | malformed | unknownType | limitExceeded
  deriving DecidableEq, Repr

/-- An error of the block exchange's codec. -/
abbrev BlockExchangeError := Refusal BlockExchangeRejection

/-- The loop of `assertDistinct`, after the identifiers in `seen`. -/
def assertDistinctFrom (seen : List Bytes) : List Bytes → Except BlockExchangeError Unit
  | [] => .ok ()
  | cid :: cids =>
    if cid ∈ seen then .error (.refused .malformed "an identifier is named twice; see 3.6.a")
    else assertDistinctFrom (cid :: seen) cids

/-- No identifier is named twice. -/
def assertDistinct (cids : List Bytes) : Except BlockExchangeError Unit := assertDistinctFrom [] cids

/-- What the encoder checks of a message before it is written. -/
def checkMessage : BlockMessage → Except BlockExchangeError Unit
  | .bhello _ max =>
    if max > limitBlockBytes then
      .error (.refused .limitExceeded s!"declared max {max} is above the {limitBlockBytes}-byte block limit")
    else .ok ()
  | .bwant cids => assertDistinct cids
  | .bdone cids => assertDistinct cids
  | .blocks _ => .ok ()

/-- The map of a message. -/
def BlockMessage.toMap : BlockMessage → CborMap
  | .bhello v max => [(.text "t", .text "BHELLO"), (.text "v", .number v), (.text "max", .number max)]
  | .bwant cids => [(.text "t", .text "BWANT"), (.text "cids", .array (cids.map .bytes))]
  | .bdone cids => [(.text "t", .text "BDONE"), (.text "cids", .array (cids.map .bytes))]
  | .blocks blks => [(.text "t", .text "BLOCKS"), (.text "blks", .array (blks.map .bytes))]

/-- The size of a message, which both sides check in one way. -/
def checkMessageSize (bytes : Bytes) : Except BlockExchangeError Unit :=
  checkSize BlockExchangeRejection.tooLarge
    (fun length => s!"message is {length} bytes, over the {limitMessageBytes} limit") bytes limitMessageBytes

/-- The bytes of a message, checked before and measured after. -/
def encodeBlockMessage (message : BlockMessage) : Except BlockExchangeError Bytes := do
  checkMessage message
  let bytes ← writeMap message.toMap
  checkMessageSize bytes
  return bytes

/-- How many blocks fit into one message, and that message. -/
structure BlocksReply where
  take : ℕ
  encoded : Bytes
  deriving DecidableEq, Repr

/-- The loop of `blocksReplyFor`, for so many more rounds. The first prefix that does not encode ends it. -/
def replyFrom (blocks : List Bytes) (best : Option BlocksReply) : ℕ → ℕ → Option BlocksReply
  | 0, _ => best
  | rounds + 1, take =>
    match encodeBlockMessage (.blocks (blocks.take take)) with
    | .ok encoded => replyFrom blocks (some { take := take, encoded := encoded }) rounds (take + 1)
    | .error _ => best

/-- The largest `BLOCKS` reply that encodes, and how many blocks it took. -/
def blocksReplyFor (blocks : List Bytes) : Except BlockExchangeError BlocksReply :=
  let room := min blocks.length limitBlocksPerMessage
  match replyFrom blocks none room 1 with
  | some best => .ok best
  | none => do
    -- nothing fit, and the first block's own refusal says why
    let encoded ← encodeBlockMessage (.blocks (blocks.take 1))
    return { take := 1, encoded := encoded }

/-- The one `BDONE` that answers a `BWANT`, in the request's own order. -/
def blockDoneFor (want unanswered : List Bytes) : Except BlockExchangeError BlockMessage :=
  if ∀ cid ∈ unanswered, cid ∈ want then .ok (.bdone (want.filter fun cid => cid ∈ unanswered))
  else .error (.refused .malformed "a BDONE identifier is not in the request it answers")

/-- An unsigned integer of a block message. -/
def uint (map : CborMap) (key : String) : Except BlockExchangeError ℕ := readUint .malformed map key

/-- One entry of a bounded array. -/
def bstrEntry (key : String) (each : ℕ) : CborValue → Except BlockExchangeError Bytes
  | .bytes entry =>
    if entry.length > each then
      .error (.refused .limitExceeded s!"an entry in {key} is {entry.length} bytes, over the {each} limit")
    else .ok entry
  | _ => .error (.refused .malformed s!"{key} must hold byte strings")

/-- An array of byte strings, bounded in number and in the length of each. -/
def bstrArray (map : CborMap) (key : String) (limit each : ℕ) : Except BlockExchangeError (List Bytes) :=
  match CborMap.get? map key with
  | some (.array value) =>
    if value.length > limit then
      .error (.refused .limitExceeded s!"{key} holds {value.length} entries, over the {limit} limit")
    else value.mapM (bstrEntry key each)
  | _ => .error (.refused .malformed s!"{key} must be an array")

/-- Reads a block message; the type decides which fields are read. -/
def decodeBlockMessage (bytes : Bytes) : Except BlockExchangeError BlockMessage := do
  checkMessageSize bytes
  let (map, type) ← readMap BlockExchangeRejection.nonCanonical .malformed bytes
  if type = "BHELLO" then return .bhello (← uint map "v") (← uint map "max")
  else if type = "BWANT" then return .bwant (← bstrArray map "cids" limitWantCids limitCidBytes)
  else if type = "BDONE" then return .bdone (← bstrArray map "cids" limitWantCids limitCidBytes)
  else if type = "BLOCKS" then return .blocks (← bstrArray map "blks" limitBlocksPerMessage limitBlockBytes)
  else throw (.refused .unknownType s!"unknown message type {jsonString type}")

end BlockExchange

end VayuWeb
