import VayuWeb.Client.Blocks

/-!
# Reading trees out of the store (`client/src/dagnode.rs`)

The three parsers share their loop. A field is given to a step, which reads what belongs to it.
-/

namespace VayuWeb.Client.Dagnode

open Bytes BlockStore

/-- An entry of a directory. -/
structure DirLink where
  cid : Cid
  name : String
  tsize : ℕ
  deriving DecidableEq

/-- What a block is: a leaf, a file of several blocks, or a directory. -/
inductive Node where
  | raw (bytes : Bytes)
  | file (data : Bytes) (children : List Cid)
  | directory (entries : List DirLink)

/-- What is shifted beyond the 64th bit is lost. -/
def readVarint (bytes : Bytes) : Option (ℕ × Bytes) :=
  match Varint.read 10 bytes with
  | .ok (value, rest) => some (value % 2 ^ 64, rest)
  | .error _ => none

/-- A count, and as many bytes. -/
def readCounted (bytes : Bytes) : Option (Bytes × Bytes) := do
  let (len, rest) ← readVarint bytes
  splitAt? len rest

/-- Passes over a field that is not read, by its wire type. -/
def skipField (wire : ℕ) (bytes : Bytes) : Option Bytes :=
  match wire with
  | 0 => (readVarint bytes).map (·.2)
  | 1 => (splitAt? 8 bytes).map (·.2)
  | 2 => (readCounted bytes).map (·.2)
  | 5 => (splitAt? 4 bytes).map (·.2)
  | _ => none

/-- The loop over the fields of a message; every field takes a byte at least. -/
def parseFrom {α : Type} (step : ℕ → ℕ → α → Bytes → Option (α × Bytes)) : ℕ → α → Bytes → Option α
  | 0, acc, bytes => if bytes = [] then some acc else none
  | fuel + 1, acc, bytes =>
    if bytes = [] then some acc
    else do
      let (key, rest) ← readVarint bytes
      let (acc, rest) ← step (key / 8) (key % 8) acc rest
      parseFrom step fuel acc rest

/-- Reads a whole message, each field by `step`. -/
def parse {α : Type} (step : ℕ → ℕ → α → Bytes → Option (α × Bytes)) (start : α) (bytes : Bytes) : Option α :=
  parseFrom step bytes.length start bytes

/-- A `PBLink` as it is read; what is absent is empty. -/
structure PbLink where
  hash : Bytes
  name : String
  tsize : ℕ
  deriving DecidableEq

/-- A `PBNode` as it is read. -/
structure PbNode where
  data : Bytes
  links : List PbLink
  deriving DecidableEq

/-- Takes in one field of a `PBLink`. -/
def linkStep (field wire : ℕ) (link : PbLink) (rest : Bytes) : Option (PbLink × Bytes) :=
  match field, wire with
  | 1, 2 => do
    let (hash, rest) ← readCounted rest
    return ({ link with hash := hash }, rest)
  | 2, 2 => do
    let (bytes, rest) ← readCounted rest
    let name ← utf8Decode bytes
    return ({ link with name := name }, rest)
  | 3, 0 => do
    let (tsize, rest) ← readVarint rest
    return ({ link with tsize := tsize }, rest)
  | _, wire => do
    let rest ← skipField wire rest
    return (link, rest)

/-- Reads a `PBLink`. -/
def parseLink (region : Bytes) : Option PbLink := parse linkStep { hash := [], name := "", tsize := 0 } region

/-- Takes in one field of a `PBNode`. -/
def nodeStep (field wire : ℕ) (node : PbNode) (rest : Bytes) : Option (PbNode × Bytes) :=
  match field, wire with
  | 1, 2 => do
    let (data, rest) ← readCounted rest
    return ({ node with data := data }, rest)
  | 2, 2 => do
    let (region, rest) ← readCounted rest
    let link ← parseLink region
    return ({ node with links := node.links ++ [link] }, rest)
  | _, wire => do
    let rest ← skipField wire rest
    return (node, rest)

/-- Reads a `PBNode`. -/
def parsePbNode (bytes : Bytes) : Option PbNode := parse nodeStep { data := [], links := [] } bytes

/-- `UNIXFS_DIRECTORY`. -/
def unixfsDirectory : ℕ := 1

/-- `UNIXFS_FILE`. -/
def unixfsFile : ℕ := 2

/-- The step over the kind of a UnixFS message and its own bytes. -/
def unixfsStep (field wire : ℕ) (message : ℕ × Bytes) (rest : Bytes) : Option ((ℕ × Bytes) × Bytes) :=
  match field, wire with
  | 1, 0 => do
    let (kind, rest) ← readVarint rest
    return ((kind, message.2), rest)
  | 2, 2 => do
    let (payload, rest) ← readCounted rest
    return ((message.1, payload), rest)
  | 3, 0 | 4, 0 => do
    let (_, rest) ← readVarint rest
    return (message, rest)
  | _, wire => do
    let rest ← skipField wire rest
    return (message, rest)

/-- Without data a node is a directory. -/
def parseUnixfs (data : Bytes) : Option (ℕ × Bytes) :=
  if data = [] then some (unixfsDirectory, []) else parse unixfsStep (unixfsFile, []) data

/-- Why a walk over a tree stops. -/
inductive WalkError where
  | store (detail : String)
  | badLink (reason : String)
  | notADirectory
  | tooDeep
  | boundExceeded (what : String)
  | notFound
  deriving DecidableEq, Repr

/-- `From<StoreError>`. -/
def WalkError.ofStore : StoreError → WalkError
  | .badCid reason => .badLink reason
  | other => .store other.text

/-- A CID of a link, or why there is none. -/
def linkCid (hash : Bytes) : Except WalkError Cid :=
  match Cid.fromBytes hash with
  | .ok cid => .ok cid
  | .error (.badCid reason) => .error (.badLink reason)

/-- What a walk may take in. -/
structure WalkLimits where
  maxDepth : ℕ
  maxLinksPerNode : ℕ
  maxResourceBytes : ℕ

/-- `WalkLimits::default`. -/
def WalkLimits.standard : WalkLimits where
  maxDepth := 32
  maxLinksPerNode := maxLinks
  maxResourceBytes := 256 * 1024 * 1024

/-- What a block is under the codec of its CID. -/
def classify (codec : ℕ) (limits : WalkLimits) (bytes : Bytes) : Except WalkError Node :=
  if codec = codecRaw then .ok (.raw bytes)
  else if codec = codecDagPb then
    -- the links' own fields are read here, their identifiers only where the kind uses them
    match parsePbNode bytes with
    | none => .error (.boundExceeded "the node's protobuf is malformed")
    | some pb =>
      match parseUnixfs pb.data with
      | none => .error (.boundExceeded "malformed UnixFS data")
      | some (kind, payload) =>
        if kind = unixfsDirectory then
          if pb.links.length > limits.maxLinksPerNode then
            .error (.boundExceeded "a directory may carry at most MAX_LINKS entries")
          else do
            let entries ← pb.links.mapM fun link => do
              return { cid := ← linkCid link.hash, name := link.name, tsize := link.tsize }
            return .directory entries
        else if kind = unixfsFile then do
          let children ← pb.links.mapM fun link => linkCid link.hash
          return .file payload children
        else .error (.boundExceeded "unsupported UnixFS node type")
  else .error (.badLink "unsupported codec")

section Walk

variable (H : ContentHash) (disk : Disk) (limits : WalkLimits)

/-- Read one node by its CID. -/
def readNode (cid : Cid) : Except WalkError Node :=
  match get H disk cid with
  | .error error => .error (.ofStore error)
  | .ok none => .error .notFound
  | .ok (some bytes) => classify cid.codec limits bytes

/-- A child's bytes behind the others, and what is left of the depth. -/
def appendChild (assemble : Cid → ℕ → Except WalkError (Bytes × ℕ)) (state : Bytes × ℕ) (child : Cid) :
    Except WalkError (Bytes × ℕ) := do
  let (part, left) ← assemble child state.2
  let out := state.1 ++ part
  if out.length > limits.maxResourceBytes then throw (.boundExceeded "a single resource exceeds the ceiling")
  return (out, left)

/-- The bytes of a file, and what is left of the depth. Every call spends one, so that as many
levels as there are at first are enough. -/
def assembleFile : ℕ → Cid → ℕ → Except WalkError (Bytes × ℕ)
  | 0, _, _ => .error .tooDeep
  | levels + 1, cid, depthLeft =>
    if depthLeft = 0 then .error .tooDeep
    else do
      match ← readNode H disk limits cid with
      | .raw bytes => return (bytes, depthLeft - 1)
      | .file data children => children.foldlM (appendChild limits (assembleFile levels)) (data, depthLeft - 1)
      | .directory _ => throw .notADirectory

/-- Where the segments lead. -/
def descend : Cid → List String → Except WalkError Cid
  | current, [] => .ok current
  | current, segment :: segments => do
    match ← readNode H disk limits current with
    | .directory entries =>
      match entries.find? (fun entry => entry.name = segment) with
      | some entry => descend entry.cid segments
      | none => throw .notFound
    | _ => throw .notFound

/-- The file at a path. -/
def readPath (root : Cid) (segments : List String) : Except WalkError Bytes := do
  let cid ← descend H disk limits root segments
  let (bytes, _) ← assembleFile H disk limits limits.maxDepth cid limits.maxDepth
  return bytes

end Walk

end VayuWeb.Client.Dagnode
