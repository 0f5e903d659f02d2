import VayuWeb.Client.Verify
import VayuWeb.Spec.Messages

/-!
# Block exchange in the client (`client/src/blockx.rs`)

The message codec. The four messages are the registry's, with `v` and `max` as `u64`.
-/

namespace VayuWeb.Client.Blockx

open DetCbor (Key Value)
open VayuWeb.BlockExchange (BlockMessage)

/-! ## `BXLimit` -/

/-- `BXLimit::MESSAGE_BYTES`. -/
def messageBytes : ℕ := 1114112

/-- `BXLimit::BLOCK_BYTES`. -/
def blockBytes : ℕ := 1048576

/-- `BXLimit::WANT_CIDS`. -/
def wantCids : ℕ := 64

/-- `BXLimit::BLOCKS_PER_MESSAGE`. -/
def blocksPerMessage : ℕ := 64

/-- `BXLimit::CID_BYTES`. -/
def cidBytes : ℕ := 64

/-- Why a message could not be encoded or decoded. -/
inductive BlockExchangeError where
  | tooLarge (detail : String)
  | nonCanonical (detail : String)
  | malformed (detail : String)
  /-- The type, which the detail quotes. -/
  | unknownType (other : String)
  | limitExceeded (detail : String)
  deriving DecidableEq, Repr

/-- The message type as it appears on the wire. -/
def typeName : BlockMessage → String
  | .bhello _ _ => "BHELLO"
  | .bwant _ => "BWANT"
  | .blocks _ => "BLOCKS"
  | .bdone _ => "BDONE"

/-- The loop of `assert_distinct`, after the identifiers in `seen`. -/
def assertDistinctFrom (seen : List Bytes) : List Bytes → Except BlockExchangeError Unit
  | [] => .ok ()
  | cid :: cids =>
    if seen.contains cid then .error (.malformed "an identifier is named twice; see 3.6.a")
    else assertDistinctFrom (cid :: seen) cids

/-- No identifier is named twice. -/
def assertDistinct (cids : List Bytes) : Except BlockExchangeError Unit := assertDistinctFrom [] cids

/-- The members of a message after its type. -/
def membersOf : BlockMessage → Except BlockExchangeError Members
  | .bhello v max =>
    if max > blockBytes then
      .error (.limitExceeded s!"declared max {max} is above the {blockBytes}-byte block limit")
    else .ok [(.text "v", .uint v), (.text "max", .uint max)]
  | .bwant cids | .bdone cids => do
    assertDistinct cids
    return [(.text "cids", .array (cids.map .bytes))]
  | .blocks blks => .ok [(.text "blks", .array (blks.map .bytes))]

/-- The size of a message, which both sides check in one way. -/
def checkSize (bytes : Bytes) : Except BlockExchangeError Unit :=
  if bytes.length > messageBytes then
    .error (.tooLarge s!"message is {bytes.length} bytes, over the {messageBytes} limit")
  else .ok ()

/-- Encode one message. -/
def encodeBlockMessage (message : BlockMessage) : Except BlockExchangeError Bytes := do
  let members ← membersOf message
  let bytes ← (encode (.map ((.text "t", .text (typeName message)) :: members))).mapError fun e =>
    .malformed e.display
  checkSize bytes
  return bytes

/-- One entry of a bounded array. -/
def bstrEntry (key : String) (each : ℕ) : Value → Except BlockExchangeError Bytes
  | .bytes bytes =>
    if bytes.length > each then
      .error (.limitExceeded s!"an entry in {key} is {bytes.length} bytes, over the {each} limit")
    else .ok bytes
  | _ => .error (.malformed s!"{key} must hold byte strings")

/-- A bounded array of byte strings: length first, then each element. -/
def bstrArray (members : Members) (key : String) (limit each : ℕ) : Except BlockExchangeError (List Bytes) :=
  match field members key with
  | none => .error (.malformed s!"{key} is required")
  | some (.array entries) =>
    if entries.length > limit then
      .error (.limitExceeded s!"{key} holds {entries.length} entries, over the {limit} limit")
    else entries.mapM (bstrEntry key each)
  | some _ => .error (.malformed s!"{key} must be an array")

/-- A required unsigned integer. -/
def uintField (members : Members) (key : String) : Except BlockExchangeError ℕ :=
  match field members key with
  | none => .error (.malformed s!"{key} is required")
  | some (.uint n) => .ok n
  | some _ => .error (.malformed s!"{key} must be an unsigned integer")

/-- The first text under `t`. -/
def typeText (members : Members) : Option String :=
  members.findSome? fun e =>
    match e with
    | (.text name, .text text) => if name = "t" then some text else none
    | _ => none

/-- Decode one message. -/
def decodeBlockMessage (bytes : Bytes) : Except BlockExchangeError BlockMessage := do
  checkSize bytes
  let decoded ← (decode bytes).mapError fun e => .nonCanonical s!"not deterministic CBOR: {e.display}"
  let reencoded ← (encode decoded).mapError fun e => .nonCanonical e.display
  if reencoded ≠ bytes then throw (.nonCanonical "bytes are not the deterministic encoding of their content")
  match decoded with
  | .map members =>
    match typeText members with
    | none => throw (.malformed "t must be text")
    | some type =>
      if type = "BHELLO" then return .bhello (← uintField members "v") (← uintField members "max")
      else if type = "BWANT" then return .bwant (← bstrArray members "cids" wantCids cidBytes)
      else if type = "BDONE" then return .bdone (← bstrArray members "cids" wantCids cidBytes)
      else if type = "BLOCKS" then return .blocks (← bstrArray members "blks" blocksPerMessage blockBytes)
      else throw (.unknownType type)
  | _ => throw (.malformed "message is not a map")

end VayuWeb.Client.Blockx
