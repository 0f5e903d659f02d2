import VayuWeb.Base.TextDecoder
import VayuWeb.Spec.Unixfs

/-!
# Verified traversal (`registry/src/fetch.ts`)

A block source is a step function: it may answer any bytes, and other bytes on another call. The
traversal runs over its state and the budget of the request, which it also leaves behind when it
throws.

What a chunk of a file costs in depth is a number of levels that are left, from
`FETCH_LIMITS.depth` downwards. The errors of `content.ts` pass through where the source does not
catch them.
-/

namespace VayuWeb.Fetch

open Bytes Content
open Unixfs (typeFile typeDirectory)

/-! ## `FETCH_LIMITS` -/

/-- `FETCH_LIMITS.blocks`. -/
def blocksLimit : ℕ := 4096

/-- `FETCH_LIMITS.depth`. -/
def depthLimit : ℕ := 32

/-- `FETCH_LIMITS.resourceBytes`. -/
def resourceBytesLimit : ℕ := 256 * 1024 * 1024

/-- `FETCH_LIMITS.blockBytes`. -/
def blockBytesLimit : ℕ := 1024 * 1024

/-- `FETCH_LIMITS.linksPerNode`. -/
def linksPerNodeLimit : ℕ := 8192

/-- The codes of a `FetchError`. -/
inductive FetchRejection where
  | contentIntegrity | contentUnavailable | responseTooLarge | malformedBlock | pathNotFound
  deriving DecidableEq, Repr

/-- What a fetch throws: its own error, or one of the content layer. -/
inductive Thrown where
  | fetch (code : FetchRejection) (message : String)
  | content (error : ContentError)
  deriving DecidableEq, Repr

/-- A `MALFORMED_BLOCK` and why. -/
def malformed (message : String) : Thrown := .fetch .malformedBlock message

/-! ## Protobuf decoding -/

/-- A field that carries no varint reads as zero, and one that carries no bytes as none. -/
structure Field where
  number : ℕ
  varint : ℕ
  bytes : Bytes
  deriving DecidableEq, Repr

/-- A sum beyond 2^53 - 1 may be rounded, but stays beyond it. -/
def readVarint (bytes : Bytes) : Except Thrown (ℕ × Bytes) :=
  match Varint.read 10 bytes with
  | .ok (value, rest) =>
    if value ≤ maxSafeInteger then .ok (value, rest)
    else .error (malformed "varint exceeds the safe integer range")
  | .error .truncated => .error (malformed "varint runs past the end of the block")
  | .error .tooLong => .error (malformed "varint longer than ten bytes")

/-- One protobuf field off the front: its number, its wire type and its value. -/
def readField (bytes : Bytes) : Except Thrown (Field × Bytes) := do
  let (key, bytes) ← readVarint bytes
  let number := key / 8
  let wire := key % 8
  if number = 0 then throw (malformed "protobuf field number 0 is not valid")
  if wire = 0 then
    let (value, bytes) ← readVarint bytes
    return ({ number := number, varint := value, bytes := [] }, bytes)
  else if wire = 2 then
    let (length, bytes) ← readVarint bytes
    match splitAt? length bytes with
    | some (payload, bytes) => return ({ number := number, varint := 0, bytes := payload }, bytes)
    | none => throw (malformed "length-delimited field runs past the end")
  else throw (malformed s!"unsupported protobuf wire type {wire}")

/-- Field after field; `fuel` of them at most. -/
def readFieldsFrom : ℕ → Bytes → Except Thrown (List Field)
  | 0, _ => .ok []
  | fuel + 1, bytes =>
    if bytes = [] then .ok []
    else do
      let (field, bytes) ← readField bytes
      return field :: (← readFieldsFrom fuel bytes)

/-- Every field of a message, in order. -/
def readFields (bytes : Bytes) : Except Thrown (List Field) := readFieldsFrom bytes.length bytes

/-! ## dag-pb and UnixFS -/

/-- A `PBLink` that was read, its CID in text form. -/
structure DecodedLink where
  cid : String
  name : String
  tsize : ℕ
  deriving DecidableEq, Repr

/-- A `PBNode` that was read, with the UnixFS message it carries. -/
structure DecodedNode where
  links : List DecodedLink
  type : ℤ
  filesize : ℕ
  blocksizes : List ℕ
  deriving DecidableEq, Repr

/-- Decode the `Hash` bytes of a PBLink into a CID string. -/
def linkCid (hash : Bytes) : Except Thrown String := do
  let (version, bytes) ← readVarint hash
  let (codec, bytes) ← readVarint bytes
  let (fn, bytes) ← readVarint bytes
  let (length, digest) ← readVarint bytes
  if version ≠ 1 then throw (malformed s!"link carries CID version {version}, not 1")
  if fn ≠ multihashSha2_256 then throw (malformed s!"link uses multihash {fn}, not sha2-256")
  if h : length = 32 ∧ digest.length = 32 then
    (encodeCid { version := 1, codec := codec, digest := ⟨digest, h.2⟩ }).mapError Thrown.content
  else throw (malformed "link digest is not 32 bytes")

/-- A `PBLink` while its fields are read. -/
structure PartialLink where
  cid : Option String
  name : String
  tsize : ℕ
  deriving DecidableEq, Repr

/-- Takes in one field of a `PBLink`; a later one replaces an earlier. -/
def linkField (link : PartialLink) (field : Field) : Except Thrown PartialLink :=
  if field.number = 1 then do return { link with cid := some (← linkCid field.bytes) }
  else if field.number = 2 then .ok { link with name := TextDecoder.decode field.bytes }
  else if field.number = 3 then .ok { link with tsize := field.varint }
  else .error (malformed s!"PBLink has no field {field.number}")

/-- Reads a `PBLink`, which must carry a hash. -/
def decodeLink (bytes : Bytes) : Except Thrown DecodedLink := do
  let link ← (← readFields bytes).foldlM linkField { cid := none, name := "", tsize := 0 }
  match link.cid with
  | some cid => return { cid := cid, name := link.name, tsize := link.tsize }
  | none => throw (malformed "PBLink carries no Hash")

/-- A field of the UnixFS message. Those that the importer does not write are passed over. -/
def unixfsField (node : DecodedNode) (inner : Field) : DecodedNode :=
  if inner.number = 1 then { node with type := inner.varint }
  else if inner.number = 3 then { node with filesize := inner.varint }
  else if inner.number = 4 then { node with blocksizes := node.blocksizes ++ [inner.varint] }
  else node

/-- Takes in one field of a `PBNode`: a link, or the UnixFS message. -/
def nodeField (node : DecodedNode) (field : Field) : Except Thrown DecodedNode :=
  if field.number = 2 then
    if node.links.length ≥ linksPerNodeLimit then
      .error (.fetch .responseTooLarge s!"a node may carry at most {linksPerNodeLimit} links")
    else do return { node with links := node.links ++ [← decodeLink field.bytes] }
  else if field.number = 1 then do return (← readFields field.bytes).foldl unixfsField node
  else .error (malformed s!"dag-pb has no field {field.number}")

/-- Reads a `PBNode`; a type of -1 stands for a message without one. -/
def decodeNode (bytes : Bytes) : Except Thrown DecodedNode := do
  (← readFields bytes).foldlM nodeField { links := [], type := -1, filesize := 0, blocksizes := [] }

/-! ## Verified traversal -/

/-- A CID that blocks are addressed by, with the fetch's own error where it is not one. -/
def contentCid (cid : String) : Except Thrown Cid :=
  match decodeCid cid with
  | .ok decoded => .ok decoded
  | .error error =>
    .error (malformed
      s!"{cid} is not a CID this resolver can address content with: ContentError: {error.message}")

/-- Where blocks come from. -/
structure BlockSource (σ : Type) where
  get : String → σ → Option Bytes × σ

/-- What a request has fetched so far. -/
structure Budget where
  blocks : ℕ
  bytes : ℕ
  deriving DecidableEq, Repr

/-- The budget a request starts with. -/
def Budget.fresh : Budget := { blocks := 0, bytes := 0 }

/-- A traversal over a source's state and the budget. -/
abbrev Traversal (σ : Type) := ExceptT Thrown (StateM (σ × Budget))

section Traversal

variable {σ : Type}

/-- Counts a block before it is fetched. -/
def spendBlock : Traversal σ Unit := do
  let (s, budget) ← get
  set (s, { budget with blocks := budget.blocks + 1 })
  if budget.blocks + 1 > blocksLimit then
    throw (.fetch .responseTooLarge s!"this request would fetch more than {blocksLimit} blocks")

/-- Counts the bytes of a block. -/
def spendBytes (count : ℕ) : Traversal σ Unit := do
  let (s, budget) ← get
  set (s, { budget with bytes := budget.bytes + count })
  if budget.bytes + count > resourceBytesLimit then
    throw (.fetch .responseTooLarge s!"a single resource is capped at {resourceBytesLimit} bytes")

/-- One call of `source.get`. -/
def ask (source : BlockSource σ) (cid : String) : Traversal σ (Option Bytes) := do
  let (s, budget) ← get
  let (answer, s) := source.get cid s
  set (s, budget)
  return answer

/-- A step that does not touch the state. -/
def offline {α : Type} (x : Except Thrown α) : Traversal σ α :=
  match x with
  | .ok a => pure a
  | .error error => throw error

variable (H : ContentHash) (source : BlockSource σ)

/-- What is checked of an answer before it is handed on. -/
def checkAnswer (cid : String) : Option Bytes → Except Thrown Bytes
  | none => .error (.fetch .contentUnavailable s!"no block offered for {cid}")
  | some bytes =>
    if bytes.length > blockBytesLimit then
      .error (.fetch .responseTooLarge
        s!"block for {cid} is {bytes.length} bytes, over the {blockBytesLimit} limit")
    else do
      let expected ← contentCid cid
      if H.sha256 bytes = expected.digest then return bytes
      else throw (.fetch .contentIntegrity s!"bytes offered for {cid} hash to something else")

/-- Fetch one block and verify it against the CID that referred it. -/
def fetchVerified (cid : String) : Traversal σ Bytes := do
  spendBlock
  let answer ← ask source cid
  offline (checkAnswer H cid answer)

/-- The checks on a file node before its chunks are fetched. -/
def checkFile (cid : String) (node : DecodedNode) : Except Thrown Unit :=
  if node.type = typeDirectory then .error (.fetch .pathNotFound s!"{cid} is a directory, not a file")
  else if node.type ≠ typeFile then .error (malformed s!"{cid} declares UnixFS type {node.type}")
  else if node.blocksizes.length ≠ node.links.length then
    .error (malformed s!"{cid} declares {node.blocksizes.length} block sizes for {node.links.length} links")
  else .ok ()

/-- A chunk has the size its node declares for it. -/
def checkChunk (cid : String) (i size : ℕ) (part : Bytes) : Except Thrown Unit :=
  if part.length ≠ size then
    .error (malformed s!"chunk {i} of {cid} declares {size} bytes and delivered {part.length}")
  else .ok ()

/-- The chunks of a node add up to the size it declares. -/
def checkTotal (cid : String) (node : DecodedNode) (content : Bytes) : Except Thrown Unit :=
  if content.length ≠ node.filesize then
    .error (malformed s!"{cid} declares a filesize of {node.filesize} and its chunks total {content.length}")
  else .ok ()

/-- One turn of the loop over the chunks: a link, its declared size, and its index. -/
def fetchChunk (fetch : String → Traversal σ Bytes) (cid : String) (entry : (DecodedLink × ℕ) × ℕ) :
    Traversal σ Bytes := do
  let part ← fetch entry.1.1.cid
  offline (checkChunk cid entry.2 entry.1.2 part)
  return part

/-- `fetchFile` with so many levels left. -/
def fetchLevels : ℕ → String → Traversal σ Bytes
  | 0, _ => throw (.fetch .responseTooLarge
      s!"descended past {depthLimit} levels; a DAG this deep is not a site")
  | levels + 1, cid => do
    let bytes ← fetchVerified H source cid
    let decoded ← offline (contentCid cid)
    if decoded.codec = codecRaw then
      spendBytes bytes.length
      return bytes
    else
      let node ← offline (decodeNode bytes)
      offline (checkFile cid node)
      let parts ← (node.links.zip node.blocksizes).zipIdx.mapM (fetchChunk (fetchLevels levels) cid)
      offline (checkTotal cid node parts.flatten)
      return parts.flatten

/-- Assemble the file addressed by `cid`. -/
def fetchFile (cid : String) (depth : ℕ) : Traversal σ Bytes :=
  fetchLevels H source (depthLimit + 1 - depth) cid

/-- The entry of a directory node under a name. -/
def entryOf (cid segment : String) (node : DecodedNode) : Except Thrown String :=
  if node.type ≠ typeDirectory then .error (.fetch .pathNotFound s!"{cid} is not a directory")
  else
    match node.links.filter fun link => link.name = segment with
    | [] => .error (.fetch .pathNotFound s!"{cid} has no entry named {jsonString segment}")
    | [link] => .ok link.cid
    | links => .error (malformed s!"{cid} carries {links.length} entries named {jsonString segment}")

/-- Descend the segments of a path, the first of them at `index`. -/
def descend (cid : String) : ℕ → List String → Traversal σ String
  | _, [] => return cid
  | index, segment :: segments => do
    if index > depthLimit then
      throw (.fetch .responseTooLarge s!"path descends past {depthLimit} levels")
    let bytes ← fetchVerified H source cid
    let decoded ← offline (contentCid cid)
    if decoded.codec ≠ codecDagPb then
      throw (.fetch .pathNotFound s!"{cid} is a file, and {segment} descends into it")
    let node ← offline (decodeNode bytes)
    let next ← offline (entryOf cid segment node)
    descend next (index + 1) segments

end Traversal

/-- The segments of a path; empty ones do not count. -/
def segmentsOf (path : String) : List String :=
  (Path.split path).filter (· ≠ "")

/-- The segments no path may have. -/
def checkSegment (segment : String) : Except Thrown Unit :=
  if segment = "." ∨ segment = ".." then
    .error (.fetch .pathNotFound s!"{jsonString segment} is not a path segment")
  else .ok ()

/-- Resolve a site-relative path against a directory root: what it returns or throws, and the
source's state and the budget afterwards. -/
def fetchPath {σ : Type} (H : ContentHash) (source : BlockSource σ) (root path : String) (s : σ) :
    Except Thrown Bytes × σ × Budget :=
  let segments := segmentsOf path
  let traversal : Traversal σ Bytes := do
    offline (segments.forM checkSegment)
    let cid ← descend H source root 0 segments
    fetchFile H source cid segments.length
  traversal.run.run (s, .fresh)

/-- A source over a list of blocks. -/
def blockSourceOf (blocks : List Unixfs.Block) : BlockSource Unit where
  get cid s := ((blocks.find? fun block => block.cid = cid).map (·.bytes), s)

end VayuWeb.Fetch
