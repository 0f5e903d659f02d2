import VayuWeb.Base.OrdMap
import VayuWeb.Base.Site
import VayuWeb.Base.Wire
import VayuWeb.Spec.Content

/-!
# dag-pb and UnixFS (`registry/src/unixfs.ts`)

A link holds its CID in text form. The tree of an import is a map in insertion order.

The importer is modelled twice: on a machine without bounds, and on an engine (`Engine`) that takes
so many arguments of one call and so many frames of a recursion. There `out.push(...items)` throws
where `items` are more than the arguments of a call may be.
-/

namespace VayuWeb.Unixfs

open Bytes Content

/-- `UNIXFS_TYPE.file`. -/
def typeFile : ℕ := 2

/-- `UNIXFS_TYPE.directory`. -/
def typeDirectory : ℕ := 1

/-- A link to a block, its CID in text form. -/
abbrev Link := Site.Link String

/-- A block under its CID. -/
abbrev Block := Site.Block String

/-- The tag of a protobuf field. -/
def tag (field wire : ℕ) : Except ContentError Bytes := varint (field * 8 + wire)

/-- A field whose payload has its length in front. -/
def lengthDelimited (field : ℕ) (payload : Bytes) : Except ContentError Bytes := do
  return (← tag field 2) ++ (← varint payload.length) ++ payload

/-- A field that is one varint. -/
def varintField (field value : ℕ) : Except ContentError Bytes := do
  return (← tag field 0) ++ (← varint value)

/-- The UnixFS message of a directory. -/
def unixfsDirectory : Except ContentError Bytes := varintField 1 typeDirectory

/-- The UnixFS message of a file of several chunks. -/
def unixfsFile (chunkSizes : List ℕ) : Except ContentError Bytes := do
  return (← varintField 1 typeFile) ++ (← varintField 3 chunkSizes.sum) ++
    (← chunkSizes.mapM (varintField 4)).flatten

/-- One `PBLink`. -/
def pbLink (link : Link) : Except ContentError Bytes := do
  let cid ← decodeCid link.cid
  let hash := (← varint cid.version) ++ (← varint cid.codec) ++ (← varint multihashSha2_256) ++
    (← varint cid.digest.1.length) ++ cid.digest.1
  return (← lengthDelimited 1 hash) ++ (← lengthDelimited 2 (utf8Encode link.name)) ++
    (← varintField 3 link.tsize)

/-- Links before data. -/
def encodePbNode (links : List Link) (data : Bytes) : Except ContentError Bytes := do
  let out := (← links.mapM fun link => do lengthDelimited 2 (← pbLink link)).flatten
  if data.length > 0 then return out ++ (← lengthDelimited 1 data) else return out

section Hash

variable (H : ContentHash)

/-- Address an encoded dag-pb node. -/
def dagPbBlock (bytes : Bytes) : Except ContentError Block := do
  return { cid := ← encodeCid { version := 1, codec := codecDagPb, digest := H.sha256 bytes }, bytes := bytes }

/-- The check of one entry against the names before it. -/
def checkEntry (names : List String) (entry : Link) : Except ContentError (List String) :=
  if entry.name = "" then .error ⟨"a directory entry must be named"⟩
  else if entry.name ∈ names then .error ⟨s!"duplicate directory entry {jsonString entry.name}"⟩
  else .ok (names ++ [entry.name])

/-- `compareBytewise` of two entries' names. -/
def nameLe (a b : Link) : Prop := utf8Encode a.name ≤ utf8Encode b.name

instance : DecidableRel nameLe := fun a b => inferInstanceAs (Decidable (utf8Encode a.name ≤ utf8Encode b.name))

/-- The node of a directory, its entries in raw byte order of their names. -/
def directoryNode (entries : List Link) : Except ContentError Block := do
  let _ ← entries.foldlM checkEntry []
  dagPbBlock H (← encodePbNode (entries.insertionSort nameLe) (← unixfsDirectory))

/-- The blocks of a file, its CID and its size with all below. -/
def fileBlocks (bytes : Bytes) : Except ContentError (List Block × String × ℕ) := do
  match ← chunk bytes chunkBytes with
  | [leaf] =>
    let cid ← rawLeafCid H leaf
    return ([{ cid := cid, bytes := leaf }], cid, leaf.length)
  | chunks =>
    let blocks : List Block ← chunks.mapM fun piece => do return { cid := ← rawLeafCid H piece, bytes := piece }
    let links : List Link := blocks.map fun block => { cid := block.cid, name := "", tsize := block.bytes.length }
    let node ← dagPbBlock H (← encodePbNode links (← unixfsFile (chunks.map (·.length))))
    return (blocks ++ [node], node.cid, node.bytes.length + (links.map (·.tsize)).sum)

/-- One file of a site, as the importer sees it. -/
structure SiteFile where
  path : String
  content : Bytes
  deriving DecidableEq, Repr

/-- A path is relative to the site's root, without empty or relative segments. -/
def checkPath (path : String) : Except ContentError Unit :=
  if path = "" ∨ path.toList.head? = some '/' ∨ path.toList.getLast? = some '/' then
    .error ⟨s!"{jsonString path} is not a site-relative path"⟩
  else if ∃ part ∈ Path.split path, part = "" ∨ part = "." ∨ part = ".." then
    .error ⟨s!"{jsonString path} contains an empty or relative segment"⟩
  else .ok ()

/-- One file of an import: its blocks behind the others, its link under its path. -/
def importFile (state : List Block × OrdMap String Link) (file : SiteFile) :
    Except ContentError (List Block × OrdMap String Link) := do
  checkPath file.path
  let (built, cid, tsize) ← fileBlocks H file.content
  return (state.1 ++ built, state.2.set file.path { cid := cid, name := file.path, tsize := tsize })

/-- Import a whole site: every block, and the root CID. -/
def importSite (files : List SiteFile) : Except ContentError (List Block × String) := do
  let (blocks, tree) ← files.foldlM (importFile H) ([], [])
  let (root, blocks) ← Site.build (directoryNode H) tree (Site.depth tree) "" blocks
  return (blocks, root.1)

end Hash

/-! ## On an engine -/

/-- What an import throws on an engine: the importer's own error, or a `RangeError`. -/
inductive Failure where
  | content (e : ContentError)
  | range
  deriving DecidableEq, Repr

/-- The importer's own error. -/
def own {α : Type} (x : Except ContentError α) : Except Failure α := x.mapError .content

/-- How much an engine takes: the arguments of one call, and the frames of `buildDirectory` on its
stack. The bytes of a short link pass as arguments, and their number is a safe integer. -/
structure Engine where
  arguments : ℕ
  frames : ℕ
  short : 128 ≤ arguments
  safe : arguments ≤ maxSafeInteger
  frame : 0 < frames

namespace Engine

variable (E : Engine)

/-- `out.push(...items)`. -/
def push {α : Type} (out items : List α) : Except Failure (List α) :=
  if items.length ≤ E.arguments then .ok (out ++ items) else .error .range

/-- `unixfsFile`, which spreads the field of every chunk. -/
def unixfsFile (chunkSizes : List ℕ) : Except Failure Bytes := do
  let out := (← own (varintField 1 typeFile)) ++ (← own (varintField 3 chunkSizes.sum))
  chunkSizes.foldlM (fun out size => do E.push out (← own (varintField 4 size))) out

/-- `encodePbNode`, which spreads every link and the data. -/
def encodePbNode (links : List Link) (data : Bytes) : Except Failure Bytes := do
  let out ← links.foldlM (fun out link => do E.push out (← own (lengthDelimited 2 (← own (pbLink link))))) []
  if data.length > 0 then E.push out (← own (lengthDelimited 1 data)) else return out

section Hash

variable (H : ContentHash)

/-- `directoryNode` over the encoder that spreads. -/
def directoryNode (entries : List Link) : Except Failure Block := do
  let _ ← entries.foldlM (fun names entry => own (checkEntry names entry)) []
  own (dagPbBlock H (← E.encodePbNode (entries.insertionSort nameLe) (← own unixfsDirectory)))

/-- `fileBlocks` over the encoder that spreads. -/
def fileBlocks (bytes : Bytes) : Except Failure (List Block × String × ℕ) := do
  match ← own (chunk bytes chunkBytes) with
  | [leaf] =>
    let cid ← own (rawLeafCid H leaf)
    return ([{ cid := cid, bytes := leaf }], cid, leaf.length)
  | chunks =>
    let blocks : List Block ← own (chunks.mapM fun piece => do return { cid := ← rawLeafCid H piece, bytes := piece })
    let links : List Link := blocks.map fun block => { cid := block.cid, name := "", tsize := block.bytes.length }
    let node ← own (dagPbBlock H (← E.encodePbNode links (← E.unixfsFile (chunks.map (·.length)))))
    return (blocks ++ [node], node.cid, node.bytes.length + (links.map (·.tsize)).sum)

/-- One file of `importSite`, which spreads its blocks. -/
def importFile (state : List Block × OrdMap String Link) (file : SiteFile) :
    Except Failure (List Block × OrdMap String Link) := do
  own (checkPath file.path)
  let (built, cid, tsize) ← E.fileBlocks H file.content
  return (← E.push state.1 built, state.2.set file.path { cid := cid, name := file.path, tsize := tsize })

/-- `importSite`, with `buildDirectory` on a bounded stack. -/
def importSite (files : List SiteFile) : Except Failure (List Block × String) := do
  let (blocks, tree) ← files.foldlM (E.importFile H) ([], [])
  let (root, blocks) ← Site.buildIn (E.directoryNode H) tree .range E.frames "" blocks
  return (blocks, root.1)

end Hash

end Engine

end VayuWeb.Unixfs
