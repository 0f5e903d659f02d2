import Mathlib.Algebra.Order.BigOperators.Group.List
import VayuWeb.Base.Chunks
import VayuWeb.Base.Import
import VayuWeb.Client.Publish
import VayuWeb.Proof.ClientNode

/-!
# What the client imports

* `fromBytes_toBytes`, `toText_injective`: a CID by its bytes and by its text.
* `Built`: a file's blocks, as a raw leaf or as a node over its chunks.
* `imported_of_importSite`: the tree of an import, the routes through its blocks, and their CIDs.
* `parsePbNode_encode`: a node reads back as its links and its data.
-/

namespace VayuWeb.Client

open Bytes Wire

/-! ## CIDs -/

/-- The shape that `from_bytes` gives. -/
def Cid.Admitted (cid : Cid) : Prop := cid.version = cidVersion ∧ (cid.codec = codecRaw ∨ cid.codec = codecDagPb)

theorem Cid.Admitted.codec_lt {cid : Cid} (h : cid.Admitted) : cid.codec < 128 := by
  have hraw : codecRaw < 128 := by decide
  have hnode : codecDagPb < 128 := by decide
  rcases h.2 with hcodec | hcodec
  · rw [hcodec]
    exact hraw
  · rw [hcodec]
    exact hnode

theorem readVarint_encode {n : ℕ} (hn : n < 128) (rest : Bytes) :
    readVarint (Varint.encode n ++ rest) = .ok (n, rest) := by
  have h64 : n < 2 ^ 64 := Nat.lt_trans hn (by decide)
  rw [readVarint, Varint.read_encode h64]
  simp only [Nat.mod_eq_of_lt h64]

/-- An admitted CID comes back from its bytes. -/
theorem fromBytes_toBytes {cid : Cid} (h : cid.Admitted) : Cid.fromBytes cid.toBytes = .ok cid := by
  obtain ⟨version, codec, digest⟩ := cid
  have hcodec := h.codec_lt
  obtain ⟨hversion, hadmitted⟩ := h
  simp only at hversion hcodec hadmitted
  have hversionLt : cidVersion < 128 := by decide
  have hmultihash : multihashSha2_256 < 128 := by decide
  have hdigest : digestBytes < 128 := by decide
  have hknown : ¬ (codec ≠ codecRaw ∧ codec ≠ codecDagPb) := by
    rintro ⟨hraw, hnode⟩
    exact hadmitted.elim hraw hnode
  rw [Cid.fromBytes, Cid.toBytes, hversion]
  simp only [List.append_assoc, readVarint_encode hversionLt, readVarint_encode hcodec, readVarint_encode hmultihash,
    readVarint_encode hdigest, Except.ok_bind, ne_eq, not_true_eq_false, if_false, digest.2, dif_pos]
  rw [if_neg hknown]
  rfl

/-- Two admitted CIDs never share a text. -/
theorem toText_injective {cid cid' : Cid} (h : cid.Admitted) (h' : cid'.Admitted) (heq : cid.toText = cid'.toText) :
    cid = cid' := by
  have hbytes : cid.toBytes = cid'.toBytes := by
    apply Base32.encode_injective
    rw [Cid.toText, Cid.toText] at heq
    exact String.append_right_inj "b" |>.1 heq
  have hread := fromBytes_toBytes h
  rw [hbytes, fromBytes_toBytes h', Except.ok.injEq] at hread
  exact hread.symm

/-- The CID of a link comes back from its bytes. -/
theorem linkCid_toBytes {cid : Cid} (h : cid.Admitted) : Dagnode.linkCid cid.toBytes = .ok cid := by
  rw [Dagnode.linkCid, fromBytes_toBytes h]

namespace Publish

/-! ## Messages -/

theorem lengthDelimited_eq {field : ℕ} {payload : Bytes} (hfield : field < 16) (hlength : payload.length < 2 ^ 64) :
    lengthDelimited field payload = (Item.bytes field payload).write := by
  have hkey : field * 8 + 2 < 2 ^ 64 := by omega
  rw [lengthDelimited, tag, varint, varint, Nat.mod_eq_of_lt hkey, Nat.mod_eq_of_lt hlength]
  rfl

theorem varintField_eq {field : ℕ} (hfield : field < 16) (value : ℕ) :
    varintField field value = (Item.varint field (value % 2 ^ 64)).write := by
  have hkey : field * 8 + 0 < 2 ^ 64 := by omega
  rw [varintField, tag, varint, varint, Nat.mod_eq_of_lt hkey, Item.write]
  exact (List.append_nil _).symm

theorem length_le_lengthDelimited (field : ℕ) (payload : Bytes) :
    payload.length ≤ (lengthDelimited field payload).length := by
  rw [lengthDelimited, List.length_append]
  exact Nat.le_add_left _ _

theorem below_bytes {field : ℕ} {payload : Bytes} (hfield : field < 16) (hlength : payload.length < 2 ^ 64) :
    (Item.bytes field payload).Below (2 ^ 64) := by
  refine ⟨?_, hlength⟩
  rw [Item.key]
  omega

theorem below_varint {field : ℕ} (hfield : field < 16) (value : ℕ) :
    (Item.varint field (value % 2 ^ 64)).Below (2 ^ 64) := by
  refine ⟨?_, Nat.mod_lt _ (by decide)⟩
  rw [Item.key]
  omega

/-- The fields of a link. -/
def linkItems (link : Link) : List Item :=
  [.bytes 1 link.cid.toBytes, .bytes 2 (utf8Encode link.name), .varint 3 (link.tsize % 2 ^ 64)]

/-- A link is written as its fields. -/
theorem pbLink_eq {link : Link} (hlength : (pbLink link).length < 2 ^ 64) :
    pbLink link = write (linkItems link) ∧ ∀ item ∈ linkItems link, item.Below (2 ^ 64) := by
  have hhash := length_le_lengthDelimited 1 link.cid.toBytes
  have hname := length_le_lengthDelimited 2 (utf8Encode link.name)
  rw [pbLink, List.length_append, List.length_append] at hlength
  constructor
  · rw [pbLink, lengthDelimited_eq (by decide) (by omega), lengthDelimited_eq (by decide) (by omega),
      varintField_eq (by decide), linkItems, write_cons, write_cons, write_cons, write_nil, List.append_nil,
      List.append_assoc]
  · intro item hitem
    rcases List.mem_cons.1 hitem with rfl | hitem
    · exact below_bytes (by decide) (by omega)
    rcases List.mem_cons.1 hitem with rfl | hitem
    · exact below_bytes (by decide) (by omega)
    · rw [List.mem_singleton.1 hitem]
      exact below_varint (by decide) _

/-- The fields of a node. -/
def nodeItems (links : List Link) (data : Bytes) : List Item :=
  links.map (fun link => .bytes 2 (pbLink link)) ++ [.bytes 1 data]

/-- A node is written as its links and then its data. -/
theorem encodePbNode_eq {links : List Link} {data : Bytes} (hdata : data ≠ [])
    (hlength : (encodePbNode links data).length < 2 ^ 64) :
    encodePbNode links data = write (nodeItems links data) ∧ (∀ item ∈ nodeItems links data, item.Below (2 ^ 64)) ∧
      ∀ link ∈ links, (pbLink link).length < 2 ^ 64 := by
  rw [encodePbNode, if_pos hdata] at hlength ⊢
  rw [List.length_append] at hlength
  have hpayload := length_le_lengthDelimited 1 data
  have hlinks : ∀ link ∈ links, (pbLink link).length < 2 ^ 64 := by
    intro link hlink
    have hpart : (lengthDelimited 2 (pbLink link)).length ≤
        (links.map fun l => (lengthDelimited 2 (pbLink l)).length).sum :=
      List.le_sum_of_mem (List.mem_map.2 ⟨link, hlink, rfl⟩)
    have hregion := length_le_lengthDelimited 2 (pbLink link)
    rw [List.length_flatMap] at hlength
    omega
  refine ⟨?_, ?_, hlinks⟩
  -- below 2^64 the client writes its lengths as the wire format does
  · have hwritten : links.flatMap (fun link => lengthDelimited 2 (pbLink link)) =
        write (links.map fun link => .bytes 2 (pbLink link)) := by
      rw [Wire.write, List.flatMap_map]
      apply List.flatMap_congr
      intro link hlink
      exact lengthDelimited_eq (by decide) (hlinks link hlink)
    rw [hwritten, lengthDelimited_eq (by decide) (by omega), nodeItems, write_append, write_cons, write_nil,
      List.append_nil]
  · intro item hitem
    rcases List.mem_append.1 hitem with hitem | hitem
    · obtain ⟨link, hlink, rfl⟩ := List.mem_map.1 hitem
      exact below_bytes (by decide) (hlinks link hlink)
    · rw [List.mem_singleton.1 hitem]
      exact below_bytes (by decide) (by omega)

/-! ## What the walker reads -/

open Dagnode (PbLink PbNode DirLink Node WalkLimits classify parsePbNode parseLink parseUnixfs parse_of_reads linkItem
  nodeItem unixfsItem handles_linkStep handles_nodeStep handles_unixfsStep)

/-- A link as the parser gives it. -/
def readLink (link : Link) : PbLink :=
  { hash := link.cid.toBytes, name := link.name, tsize := link.tsize % 2 ^ 64 }

/-- **A link reads back.** -/
theorem parseLink_pbLink {link : Link} (hlength : (pbLink link).length < 2 ^ 64) :
    parseLink (pbLink link) = some (readLink link) := by
  obtain ⟨hwritten, hbelow⟩ := pbLink_eq hlength
  have hname : utf8Decode (utf8Encode link.name) = some link.name := utf8Decode_eq_some.2 rfl
  have hreads := reads_write hbelow
  rw [← hwritten] at hreads
  rw [parseLink, parse_of_reads handles_linkStep hreads]
  simp only [linkItems, List.foldlM_cons, List.foldlM_nil, linkItem, hname, Option.map_some, Option.bind_eq_bind,
    Option.bind_some]
  rfl

/-- Reading the links of a node gives each of them back. -/
theorem foldlM_nodeItem {links : List Link} (hlinks : ∀ link ∈ links, (pbLink link).length < 2 ^ 64) (node : PbNode) :
    (links.map fun link => Item.bytes 2 (pbLink link)).foldlM nodeItem node =
      some { node with links := node.links ++ links.map readLink } := by
  induction links generalizing node with
  | nil =>
    rw [List.map_nil, List.map_nil, List.append_nil]
    rfl
  | cons link links ih =>
    have hlink := parseLink_pbLink (hlinks link List.mem_cons_self)
    have hrest := ih fun l hl => hlinks l (List.mem_cons_of_mem _ hl)
    rw [List.map_cons, List.foldlM_cons, nodeItem, hlink, Option.map_some, Option.bind_eq_bind, Option.bind_some, hrest,
      List.map_cons, List.append_assoc, List.singleton_append]

/-- **A node reads back.** -/
theorem parsePbNode_encode {links : List Link} {data : Bytes} (hdata : data ≠ [])
    (hlength : (encodePbNode links data).length < 2 ^ 64) :
    parsePbNode (encodePbNode links data) = some { data := data, links := links.map readLink } := by
  obtain ⟨hwritten, hbelow, hlinks⟩ := encodePbNode_eq hdata hlength
  have hreads := reads_write hbelow
  rw [← hwritten] at hreads
  rw [parsePbNode, parse_of_reads handles_nodeStep hreads, nodeItems, List.foldlM_append, foldlM_nodeItem hlinks]
  rfl

/-- The message of a directory is read as one. -/
theorem parseUnixfs_directory : parseUnixfs unixfsDirectory = some (Dagnode.unixfsDirectory, []) := by decide

theorem foldlM_blocksizes (sizes : List ℕ) (message : ℕ × Bytes) :
    (sizes.map fun size => Item.varint 4 (size % 2 ^ 64)).foldlM unixfsItem message = some message := by
  induction sizes with
  | nil => rfl
  | cons size sizes ih => exact ih

/-- The message of a file is read as one. -/
theorem parseUnixfs_file (sizes : List ℕ) : parseUnixfs (unixfsFile sizes) = some (Dagnode.unixfsFile, []) := by
  have hwritten : unixfsFile sizes = write ([.varint 1 (unixfsTypeFile % 2 ^ 64), .varint 3 (sizes.sum % 2 ^ 64)] ++
      sizes.map fun size => Item.varint 4 (size % 2 ^ 64)) := by
    have hsizes : sizes.flatMap (varintField 4) = write (sizes.map fun size => Item.varint 4 (size % 2 ^ 64)) := by
      rw [Wire.write, List.flatMap_map]
      apply List.flatMap_congr
      intro size _
      exact varintField_eq (by decide) size
    rw [unixfsFile, varintField_eq (by decide), varintField_eq (by decide), hsizes, write_append, write_cons,
      write_cons,
      write_nil, List.append_nil]
  have hreads : Reads (unixfsFile sizes) ([.varint 1 (unixfsTypeFile % 2 ^ 64), .varint 3 (sizes.sum % 2 ^ 64)] ++
      sizes.map fun size => Item.varint 4 (size % 2 ^ 64)) := by
    rw [hwritten]
    apply reads_write
    intro item hitem
    rcases List.mem_append.1 hitem with hitem | hitem
    · rcases List.mem_cons.1 hitem with rfl | hitem
      · exact below_varint (by decide) _
      · rw [List.mem_singleton.1 hitem]
        exact below_varint (by decide) _
    · obtain ⟨size, -, rfl⟩ := List.mem_map.1 hitem
      exact below_varint (by decide) _
  have hne : unixfsFile sizes ≠ [] := by
    rw [hwritten, List.cons_append, write_cons]
    exact write_ne_nil _ _
  rw [parseUnixfs, if_neg hne, parse_of_reads handles_unixfsStep hreads, List.foldlM_append]
  exact foldlM_blocksizes sizes _

/-- A directory's entry as the walker gives it. -/
def readEntry (link : Link) : DirLink := { cid := link.cid, name := link.name, tsize := link.tsize % 2 ^ 64 }

theorem mapM_linkCid {links : List Link} (h : ∀ link ∈ links, link.cid.Admitted) :
    (links.map readLink).mapM (fun link => Dagnode.linkCid link.hash) = .ok (links.map (·.cid)) := by
  rw [List.mapM_map]
  apply Except.mapM_ok
  intro link hlink
  exact linkCid_toBytes (h link hlink)

theorem codecDagPb_ne_raw : codecDagPb ≠ codecRaw := by decide

/-- **What a directory's node is read as.** -/
theorem classify_directory {links : List Link} (h : ∀ link ∈ links, link.cid.Admitted)
    (hlength : (encodePbNode links unixfsDirectory).length < 2 ^ 64) {limits : WalkLimits} :
    classify codecDagPb limits (encodePbNode links unixfsDirectory) =
      if links.length > limits.maxLinksPerNode then
        .error (.boundExceeded "a directory may carry at most MAX_LINKS entries")
      else .ok (.directory (links.map readEntry)) := by
  have hdata : unixfsDirectory ≠ [] := by decide
  have hentries : ((links.map readLink).mapM fun link => do
      return ({ cid := ← Dagnode.linkCid link.hash, name := link.name, tsize := link.tsize } : DirLink)) =
        .ok (links.map readEntry) := by
    rw [List.mapM_map]
    apply Except.mapM_ok
    intro link hlink
    rw [Function.comp, readLink, linkCid_toBytes (h link hlink)]
    rfl
  rw [classify, if_neg codecDagPb_ne_raw, if_pos rfl, parsePbNode_encode hdata hlength]
  simp only [parseUnixfs_directory, if_true, List.length_map, hentries, Except.ok_bind]
  rfl

/-- **What a file's node is read as.** -/
theorem classify_file {links : List Link} {sizes : List ℕ} (h : ∀ link ∈ links, link.cid.Admitted)
    (hlength : (encodePbNode links (unixfsFile sizes)).length < 2 ^ 64) (limits : WalkLimits) :
    classify codecDagPb limits (encodePbNode links (unixfsFile sizes)) = .ok (.file [] (links.map (·.cid))) := by
  have hdata : unixfsFile sizes ≠ [] := by
    intro hnil
    have hparse := parseUnixfs_file sizes
    rw [hnil] at hparse
    exact absurd hparse (by decide)
  have hkinds : Dagnode.unixfsFile ≠ Dagnode.unixfsDirectory := by decide
  rw [classify, if_neg codecDagPb_ne_raw, if_pos rfl, parsePbNode_encode hdata hlength]
  simp only [parseUnixfs_file, hkinds, if_false, if_true, mapM_linkCid h, Except.ok_bind]
  rfl

/-! ## Files -/

variable {H : ContentHash}

/-- The CID of a leaf is admitted. -/
theorem admitted_raw (bytes : Bytes) : (Cid.rawFromBytes H bytes).Admitted := ⟨rfl, Or.inl rfl⟩

/-- The CID of a node is admitted. -/
theorem admitted_node (bytes : Bytes) : (dagPbBlock H bytes).cid.Admitted := ⟨rfl, Or.inr rfl⟩

/-- A block that stands under the CID of its bytes. -/
def Addressed (H : ContentHash) (block : Block) : Prop := block.cid.Admitted ∧ block.cid.digest = H.sha256 block.bytes

theorem chunksOf_eq (fuel : ℕ) (bytes : Bytes) : chunksOf fuel bytes = Chunks.split chunkBytes fuel bytes := by
  induction fuel generalizing bytes with
  | zero => rfl
  | succ fuel ih => rw [chunksOf, Chunks.split, ih]

theorem chunkBytes_pos : 0 < chunkBytes := by decide

/-- A short file is one chunk. -/
theorem chunk_of_le {content : Bytes} (h : content.length ≤ chunkBytes) : chunk content = [content] := by
  rw [chunk]
  by_cases hnil : content = []
  · rw [if_pos hnil, hnil]
  · have hpos := List.length_pos_iff.2 hnil
    obtain ⟨n, hn⟩ : ∃ n, content.length = n + 1 := ⟨content.length - 1, by omega⟩
    rw [if_neg hnil, chunksOf_eq, hn, Chunks.split_of_le hnil h]

/-- A longer file is split into several. -/
theorem chunk_of_gt {content : Bytes} (h : chunkBytes < content.length) :
    chunk content = Chunks.split chunkBytes content.length content ∧ 1 < (chunk content).length := by
  have hnil : content ≠ [] := by
    rintro rfl
    exact Nat.not_lt_zero _ h
  have hchunk : chunk content = Chunks.split chunkBytes content.length content := by
    rw [chunk, if_neg hnil, chunksOf_eq]
  refine ⟨hchunk, ?_⟩
  rw [hchunk, ← Nat.not_le, Chunks.length_split_le chunkBytes_pos (Nat.le_refl _), Nat.one_mul]
  exact Nat.not_le.2 h

/-- **How many chunks a file has**: one at least, and as many as cover it. -/
theorem length_chunk_le {content : Bytes} {n : ℕ} (hn : 0 < n) :
    (chunk content).length ≤ n ↔ content.length ≤ n * chunkBytes := by
  rw [chunk]
  by_cases hnil : content = []
  · rw [if_pos hnil, hnil, List.length_singleton, List.length_nil]
    simp only [Nat.zero_le, iff_true]
    exact hn
  · rw [if_neg hnil, chunksOf_eq, Chunks.length_split_le chunkBytes_pos (Nat.le_refl _)]

/-- The links of a file node. -/
def chunkLinks (H : ContentHash) (pieces : List Bytes) : List Link :=
  pieces.map fun piece => { cid := Cid.rawFromBytes H piece, name := "", tsize := piece.length }

/-- The node over the chunks of a file. -/
def fileNode (H : ContentHash) (pieces : List Bytes) : Block :=
  dagPbBlock H (encodePbNode (chunkLinks H pieces) (unixfsFile (pieces.map (·.length))))

/-- The raw leaf of a piece. -/
def leafOf (H : ContentHash) (piece : Bytes) : Block := { cid := Cid.rawFromBytes H piece, bytes := piece }

/-- The blocks of a file whose CID is `cid`. -/
inductive Built (H : ContentHash) (content : Bytes) (blocks : List Block) (cid : Cid) : Prop where
  | leaf (hle : content.length ≤ chunkBytes) (hblocks : blocks = [leafOf H content])
      (hcid : cid = (leafOf H content).cid)
  | node (pieces : List Bytes) (hgt : chunkBytes < content.length) (hpieces : pieces = chunk content)
      (hflatten : pieces.flatten = content) (hblocks : blocks = pieces.map (leafOf H) ++ [fileNode H pieces])
      (hcid : cid = (fileNode H pieces).cid)

/-- A file of several chunks: the leaves, and the node over them. -/
theorem fileBlocks_of_gt {content : Bytes} (h : chunkBytes < content.length) :
    fileBlocks H content =
      { blocks := (chunk content).map (leafOf H) ++ [fileNode H (chunk content)],
        cid := (fileNode H (chunk content)).cid,
        tsize := (fileNode H (chunk content)).bytes.length + ((chunkLinks H (chunk content)).map (·.tsize)).sum } := by
  have hcount := (chunk_of_gt h).2
  rw [fileBlocks]
  generalize chunk content = pieces at hcount
  match pieces, hcount with
  | a :: b :: pieces, _ => rfl

/-- **What is built of a file.** -/
theorem built_fileBlocks (content : Bytes) :
    Built H content (fileBlocks H content).blocks (fileBlocks H content).cid := by
  by_cases hle : content.length ≤ chunkBytes
  · have hleaf : fileBlocks H content =
        { blocks := [leafOf H content], cid := (leafOf H content).cid, tsize := content.length } := by
      rw [fileBlocks, chunk_of_le hle]
      rfl
    rw [hleaf]
    exact .leaf hle rfl rfl
  · have hsplit := (chunk_of_gt (Nat.not_le.1 hle)).1
    have hflatten : (chunk content).flatten = content := by
      rw [hsplit]
      exact Chunks.flatten_split chunkBytes_pos (Nat.le_refl _)
    rw [fileBlocks_of_gt (Nat.not_le.1 hle)]
    exact .node (chunk content) (Nat.not_le.1 hle) rfl hflatten rfl rfl

/-- Every block of a file is addressed by its content. -/
theorem Built.addressed {content : Bytes} {blocks : List Block} {cid : Cid} (h : Built H content blocks cid) :
    ∀ block ∈ blocks, Addressed H block := by
  intro block hblock
  cases h with
  | leaf hle hblocks hcid =>
    rw [hblocks, List.mem_singleton] at hblock
    rw [hblock]
    exact ⟨admitted_raw content, rfl⟩
  | node pieces hgt hpieces hflatten hblocks hcid =>
    rw [hblocks] at hblock
    rcases List.mem_append.1 hblock with hblock | hblock
    · obtain ⟨piece, -, rfl⟩ := List.mem_map.1 hblock
      exact ⟨admitted_raw piece, rfl⟩
    · rw [List.mem_singleton.1 hblock]
      exact ⟨admitted_node _, rfl⟩

/-! ## Directories and sites -/

/-- Names that are checked are there and not there twice. -/
theorem names_of_checkEntry {entries : List Link} {seen seen' : List String} (hnodup : seen.Nodup)
    (h : entries.foldlM checkEntry seen = .ok seen') : seen' = seen ++ entries.map (·.name) ∧ seen'.Nodup := by
  induction entries generalizing seen with
  | nil =>
    rw [List.foldlM_nil, Except.pure_eq_ok, Except.ok.injEq] at h
    rw [← h]
    exact ⟨(List.append_nil _).symm, hnodup⟩
  | cons e entries ih =>
    rw [List.foldlM_cons, Except.bind_eq_ok] at h
    obtain ⟨seen₁, hcheck, h⟩ := h
    rw [checkEntry] at hcheck
    split_ifs at hcheck with hempty hmem
    rw [Except.ok.injEq] at hcheck
    have hnodup₁ : (seen ++ [e.name]).Nodup := List.nodup_append_comm.1 (List.nodup_cons.2 ⟨hmem, hnodup⟩)
    rw [← hcheck] at h
    obtain ⟨heq, hnodup'⟩ := ih hnodup₁ h
    refine ⟨?_, hnodup'⟩
    rw [heq, List.map_cons, List.append_assoc, List.singleton_append]

/-- **What is built of a directory's entries.** -/
theorem directoryNode_eq_ok {entries : List Link} {block : Block} (h : directoryNode H entries = .ok block) :
    (entries.map (·.name)).Nodup ∧ block =
    dagPbBlock H (encodePbNode (entries.insertionSort nameLe) unixfsDirectory) := by
  rw [directoryNode] at h
  simp only [Except.bind_eq_ok, Except.pure_eq_ok, Except.ok.injEq] at h
  obtain ⟨seen, hseen, hblock⟩ := h
  obtain ⟨heq, hnodup⟩ := names_of_checkEntry List.nodup_nil hseen
  rw [heq, List.nil_append] at hnodup
  exact ⟨hnodup, hblock.symm⟩

/-- What is made of a file, once its path is checked. -/
def makeFile (H : ContentHash) (path : String) (content : Bytes) : Except PublishError (List Block × Cid × ℕ) := do
  checkPath path
  return ((fileBlocks H content).blocks, (fileBlocks H content).cid, (fileBlocks H content).tsize)

theorem importFile_eq :
    importFile H = fun state file => Site.load (makeFile H) state file.path file.content := by
  funext state file
  rw [importFile, Site.load, makeFile, bind_assoc]
  rfl

/-- What importing one file checks and makes. -/
theorem makeFile_eq_ok {path : String} {content : Bytes} {built : List Block} {cid : Cid} {tsize : ℕ}
    (h : makeFile H path content = .ok (built, cid, tsize)) : checkPath path = .ok () ∧ Built H content built cid := by
  rw [makeFile, Except.bind_eq_ok] at h
  obtain ⟨_, hcheck, h⟩ := h
  simp only [Except.pure_eq_ok, Except.ok.injEq, Prod.mk.injEq] at h
  rw [← h.1, ← h.2.1]
  exact ⟨hcheck, built_fileBlocks content⟩

theorem segments_of_checkPath {path : String} (h : checkPath path = .ok ()) : ∀ part ∈ Path.split path, part ≠ "" := by
  rw [checkPath] at h
  split_ifs at h with hform hparts
  intro part hpart hempty
  exact hparts ⟨part, hpart, Or.inl hempty⟩

/-- An import: its tree, the routes through its blocks, and their CIDs. -/
structure Imported (H : ContentHash) (files : List SiteFile) (blocks : List Block) (root : Cid) (tree : Site.Tree Cid) :
    Prop where
  paths : (tree.map (·.1)).Perm (files.map (·.path))
  file : ∀ file ∈ files, ∃ built cid tsize, Built H file.content built cid ∧ built ⊆ blocks ∧
    (file.path, ({ cid := cid, name := file.path, tsize := tsize } : Link)) ∈ tree
  links : ∀ path link, (path, link) ∈ tree → link.cid.Admitted
  route : ∀ path link, (path, link) ∈ tree →
    Site.Route (directoryNode H) tree blocks [] (Path.split path) root link.cid
  addressed : ∀ block ∈ blocks, Addressed H block

/-- The CID of a file is admitted. -/
theorem Built.admitted {content : Bytes} {blocks : List Block} {cid : Cid} (h : Built H content blocks cid) :
    cid.Admitted := by
  cases h with
  | leaf hle hblocks hcid =>
    rw [hcid]
    exact admitted_raw content
  | node pieces hgt hpieces hflatten hblocks hcid =>
    rw [hcid]
    exact admitted_node _

/-- **What an import builds.** -/
theorem imported_of_importSite {files : List SiteFile} {blocks : List Block} {root : Cid}
    (h : importSite H files = .ok (blocks, root)) (hnodup : (files.map (·.path)).Nodup) :
    ∃ tree, Imported H files blocks root tree := by
  rw [importSite, Except.bind_eq_ok] at h
  obtain ⟨⟨blocks₁, map⟩, hfiles, h⟩ := h
  simp only [Except.bind_eq_ok, Except.pure_eq_ok, Except.ok.injEq, Prod.mk.injEq] at h
  obtain ⟨⟨⟨cid, tsize⟩, blocks'⟩, hbuild, rfl, rfl⟩ := h
  rw [importFile_eq] at hfiles
  have hloaded := Site.loaded_of_foldlM hfiles hnodup (by simp)
  have hpaths := hloaded.paths
  rw [List.map_nil, List.nil_append] at hpaths
  -- the map's entries, in the order of their paths
  have hsorted := List.perm_insertionSort pathLe map
  have hstands : ∀ {path link}, (path, link) ∈ map.insertionSort pathLe →
      ∃ file ∈ files, file.path = path ∧ checkPath path = .ok () := by
    intro path link hmem
    have hpath : path ∈ files.map (·.path) := hpaths ▸ List.mem_map_of_mem (hsorted.mem_iff.1 hmem)
    obtain ⟨file, hfile, rfl⟩ := List.mem_map.1 hpath
    obtain ⟨built, cid', tsize', hmake, -⟩ := hloaded.file file hfile
    exact ⟨file, hfile, rfl, (makeFile_eq_ok hmake).1⟩
  have hproper : Site.Proper (map.insertionSort pathLe) := by
    intro path link hmem
    obtain ⟨-, -, -, hcheck⟩ := hstands hmem
    exact segments_of_checkPath hcheck
  refine ⟨map.insertionSort pathLe, ?_, ?_, ?_, ?_, ?_⟩
  · have hperm := hsorted.map (·.1)
    rwa [hpaths] at hperm
  · intro file hfile
    obtain ⟨built, cid', tsize', hmake, hsub, hmem⟩ := hloaded.file file hfile
    exact ⟨built, cid', tsize', (makeFile_eq_ok hmake).2, List.Subset.trans hsub (Site.subset_of_build hbuild),
      hsorted.mem_iff.2 hmem⟩
  · intro path link hmem
    rcases hloaded.linked path link (hsorted.mem_iff.1 hmem) with hnone | ⟨file, -, built, tsize', hmake⟩
    · simp at hnone
    · exact (makeFile_eq_ok hmake).2.admitted
  · intro path link hmem
    exact Site.routes_of_build_root hproper hbuild hmem
  · have hstart : ∀ block ∈ blocks₁, Addressed H block := by
      refine hloaded.made (P := Addressed H) (by simp) ?_
      intro file hfile built cid' tsize' hmake
      exact (makeFile_eq_ok hmake).2.addressed
    refine Site.made_of_build ?_ hbuild hstart
    intro entries block hnode
    obtain ⟨-, rfl⟩ := directoryNode_eq_ok hnode
    exact ⟨admitted_node _, rfl⟩

end Publish

end VayuWeb.Client
