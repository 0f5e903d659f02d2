import VayuWeb.Base.OrdMap
import VayuWeb.Base.Site
import VayuWeb.Base.Wire
import VayuWeb.Client.Cid

/-!
# dag-pb and UnixFS (`client/src/publish.rs`)

The tree of an import is a `BTreeMap`: it is read in the byte order of the paths.
-/

namespace VayuWeb.Client.Publish

open Bytes

/-- `UNIXFS_TYPE_FILE`. -/
def unixfsTypeFile : ℕ := 2

/-- `UNIXFS_TYPE_DIRECTORY`. -/
def unixfsTypeDirectory : ℕ := 1

/-- A link to a block. -/
abbrev Link := Site.Link Cid

/-- A block under its CID. -/
abbrev Block := Site.Block Cid

/-- Why an import is refused. -/
inductive PublishError where
  | badPath (path : String)
  | badDirectory (reason : String)
  deriving DecidableEq, Repr

/-- What is cast to 64 bits before it is written. -/
def varint (value : ℕ) : Bytes := Varint.encode (value % 2 ^ 64)

/-- The tag of a protobuf field. -/
def tag (field wire : ℕ) : Bytes := varint (field * 8 + wire)

/-- A field whose payload has its length in front. -/
def lengthDelimited (field : ℕ) (payload : Bytes) : Bytes := tag field 2 ++ varint payload.length ++ payload

/-- A field that is one varint. -/
def varintField (field value : ℕ) : Bytes := tag field 0 ++ varint value

/-- The UnixFS message of a directory. -/
def unixfsDirectory : Bytes := varintField 1 unixfsTypeDirectory

/-- The UnixFS message of a file of several chunks. -/
def unixfsFile (chunkSizes : List ℕ) : Bytes :=
  varintField 1 unixfsTypeFile ++ varintField 3 chunkSizes.sum ++ chunkSizes.flatMap (varintField 4)

/-- One `PBLink`. -/
def pbLink (link : Link) : Bytes :=
  lengthDelimited 1 link.cid.toBytes ++ lengthDelimited 2 (utf8Encode link.name) ++ varintField 3 link.tsize

/-- Links before data. -/
def encodePbNode (links : List Link) (data : Bytes) : Bytes :=
  links.flatMap (fun link => lengthDelimited 2 (pbLink link)) ++ if data ≠ [] then lengthDelimited 1 data else []

/-- `compare_bytewise` of two entries' names. -/
def nameLe (a b : Link) : Prop := utf8Encode a.name ≤ utf8Encode b.name

instance : DecidableRel nameLe := fun a b => inferInstanceAs (Decidable (utf8Encode a.name ≤ utf8Encode b.name))

/-- The check of one entry against the names before it. -/
def checkEntry (seen : List String) (entry : Link) : Except PublishError (List String) :=
  if entry.name = "" then .error (.badDirectory "a directory entry must be named")
  else if entry.name ∈ seen then .error (.badDirectory "duplicate directory entry")
  else .ok (seen ++ [entry.name])

/-- The blocks of one file, its CID and its size with all below. -/
structure BuiltFile where
  blocks : List Block
  cid : Cid
  tsize : ℕ

/-- One file of a site, as the importer sees it. -/
structure SiteFile where
  path : String
  content : Bytes
  deriving DecidableEq, Repr

/-- A path is relative to the site's root, without empty or relative segments. -/
def checkPath (path : String) : Except PublishError Unit :=
  if path = "" ∨ path.toList.head? = some '/' ∨ path.toList.getLast? = some '/' then .error (.badPath path)
  else if ∃ part ∈ Path.split path, part = "" ∨ part = "." ∨ part = ".." then .error (.badPath path)
  else .ok ()

/-- The order of the keys of the tree. -/
def pathLe (a b : String × Link) : Prop := utf8Encode a.1 ≤ utf8Encode b.1

instance : DecidableRel pathLe := fun a b => inferInstanceAs (Decidable (utf8Encode a.1 ≤ utf8Encode b.1))

section Hash

variable (H : ContentHash)

/-- Address an encoded dag-pb node. -/
def dagPbBlock (bytes : Bytes) : Block :=
  { cid := { version := 1, codec := codecDagPb, digest := H.sha256 bytes }, bytes := bytes }

/-- The node of a directory, its entries in byte order of their names. -/
def directoryNode (entries : List Link) : Except PublishError Block := do
  let _ ← entries.foldlM checkEntry []
  return dagPbBlock H (encodePbNode (entries.insertionSort nameLe) unixfsDirectory)

/-- Every block for one file. -/
def fileBlocks (bytes : Bytes) : BuiltFile :=
  match chunk bytes with
  | [leaf] =>
    { blocks := [{ cid := Cid.rawFromBytes H leaf, bytes := leaf }], cid := Cid.rawFromBytes H leaf,
      tsize := leaf.length }
  | pieces =>
    let blocks : List Block := pieces.map fun piece => { cid := Cid.rawFromBytes H piece, bytes := piece }
    let links : List Link := pieces.map fun piece =>
      { cid := Cid.rawFromBytes H piece, name := "", tsize := piece.length }
    let node := dagPbBlock H (encodePbNode links (unixfsFile (pieces.map (·.length))))
    { blocks := blocks ++ [node], cid := node.cid, tsize := node.bytes.length + (links.map (·.tsize)).sum }

/-- One file of an import: its blocks behind the others, its link under its path. -/
def importFile (state : List Block × OrdMap String Link) (file : SiteFile) :
    Except PublishError (List Block × OrdMap String Link) := do
  checkPath file.path
  let built := fileBlocks H file.content
  return (state.1 ++ built.blocks, state.2.set file.path { cid := built.cid, name := file.path, tsize := built.tsize })

/-- Import a whole site: every block, and the root CID. -/
def importSite (files : List SiteFile) : Except PublishError (List Block × Cid) := do
  let (blocks, map) ← files.foldlM (importFile H) ([], [])
  let tree := map.insertionSort pathLe
  let (root, blocks) ← Site.build (directoryNode H) tree (Site.depth tree) "" blocks
  return (blocks, root.1)

end Hash

end VayuWeb.Client.Publish
