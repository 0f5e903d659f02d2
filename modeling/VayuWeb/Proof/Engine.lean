import VayuWeb.Base.Alike
import VayuWeb.Proof.ClientImport
import VayuWeb.Proof.Imported

/-!
# The importer on an engine

What the specification's importer writes on an engine that takes so many arguments of one call,
beside what the client's importer writes.

* `length_link_le`, `length_unixfsFile_le`: how long the parts are that are spread.
* `spread_eq_ok`: a loop that spreads its parts.
* `nodesAgree`, `filesAgree`: the two agree on every node and on every file that fits the engine.
-/

namespace VayuWeb

open Bytes Client.Publish
open Except (Agrees)

/-! ## How long the parts are -/

/-- A varint has at most ten bytes. -/
theorem length_varint_le (value : ℕ) : (varint value).length ≤ 10 := Varint.length_groups_le

theorem length_varint_le_of_lt {value k : ℕ} (h : value < 128 ^ (k + 1)) : (varint value).length ≤ k + 1 :=
  Varint.length_groups_le_of_lt (Nat.lt_of_le_of_lt (Nat.mod_le _ _) h)

theorem length_tag_le {field wire : ℕ} (hfield : field < 16) (hwire : wire < 8) : (tag field wire).length ≤ 1 :=
  length_varint_le_of_lt (by omega)

/-- A payload's field is at most eleven bytes longer than it. -/
theorem length_lengthDelimited_le {field : ℕ} (hfield : field < 16) (payload : Bytes) :
    (lengthDelimited field payload).length ≤ payload.length + 11 := by
  have htag := length_tag_le hfield (show 2 < 8 by decide)
  have hlength := length_varint_le payload.length
  rw [lengthDelimited, List.length_append, List.length_append]
  omega

theorem length_varintField_le {field value k : ℕ} (hfield : field < 16) (h : (varint value).length ≤ k) :
    (varintField field value).length ≤ k + 1 := by
  have htag := length_tag_le hfield (show 0 < 8 by decide)
  rw [varintField, List.length_append]
  omega

/-- A CID has at most 54 bytes. -/
theorem length_toBytes_le (cid : Client.Cid) : cid.toBytes.length ≤ 54 := by
  have hversion : (Varint.encode cid.version).length ≤ 10 := Varint.length_groups_le
  have hcodec : (Varint.encode cid.codec).length ≤ 10 := Varint.length_groups_le
  have hmultihash : (Varint.encode Client.multihashSha2_256).length = 1 := by decide
  have hdigest : (Varint.encode Client.digestBytes).length = 1 := by decide
  have hbytes : cid.digest.1.length = 32 := cid.digest.2
  rw [Client.Cid.toBytes]
  simp only [List.length_append]
  omega

/-- The bytes of a link beside its name, at most: the CID, the size and the lengths. -/
def linkBytes : ℕ := 98

/-- A link's field is its name and so many bytes. -/
theorem length_link_le (link : Link) :
    (lengthDelimited 2 (pbLink link)).length ≤ (utf8Encode link.name).length + linkBytes := by
  have hlink := length_lengthDelimited_le (show 2 < 16 by decide) (pbLink link)
  have hcid := length_lengthDelimited_le (show 1 < 16 by decide) link.cid.toBytes
  have hname := length_lengthDelimited_le (show 2 < 16 by decide) (utf8Encode link.name)
  have htsize := length_varintField_le (show 3 < 16 by decide) (length_varint_le link.tsize)
  have hbytes := length_toBytes_le link.cid
  have hsplit : (pbLink link).length = (lengthDelimited 1 link.cid.toBytes).length +
      (lengthDelimited 2 (utf8Encode link.name)).length + (varintField 3 link.tsize).length := by
    rw [pbLink, List.length_append, List.length_append]
  rw [linkBytes]
  omega

theorem length_flatMap_le {α : Type} {f : α → Bytes} {k : ℕ} {xs : List α} (h : ∀ x ∈ xs, (f x).length ≤ k) :
    (xs.flatMap f).length ≤ k * xs.length := by
  induction xs with
  | nil => exact Nat.zero_le _
  | cons x xs ih =>
    have hrest := ih fun y hy => h y (List.mem_cons_of_mem _ hy)
    have hx := h x List.mem_cons_self
    rw [List.flatMap_cons, List.length_append, List.length_cons, Nat.mul_succ]
    omega

/-- The field of a chunk takes four bytes, as a chunk has no more than 2^18. -/
theorem length_blocksize_le {size : ℕ} (h : size ≤ Client.chunkBytes) : (varintField 4 size).length ≤ 4 := by
  have hlt : size < 128 ^ 3 := Nat.lt_of_le_of_lt h (by decide)
  exact length_varintField_le (by decide) (length_varint_le_of_lt hlt)

/-- The message of a file has four bytes for each of its chunks and a few more. -/
theorem length_unixfsFile_le {sizes : List ℕ} (h : ∀ size ∈ sizes, size ≤ Client.chunkBytes) :
    (unixfsFile sizes).length ≤ 4 * sizes.length + 13 := by
  have htype : (varintField 1 unixfsTypeFile).length = 2 := by decide
  have htotal := length_varintField_le (show 3 < 16 by decide) (length_varint_le sizes.sum)
  have hfields : (sizes.flatMap (varintField 4)).length ≤ 4 * sizes.length :=
    length_flatMap_le fun size hsize => length_blocksize_le (h size hsize)
  rw [unixfsFile, List.length_append, List.length_append]
  omega

/-! ## Numbers that are safe -/

theorem varint_spec {value : ℕ} (h : value ≤ maxSafeInteger) : Content.varint value = .ok (varint value) := by
  have hlt : value < 2 ^ 64 := Nat.lt_of_le_of_lt h (by decide)
  rw [Content.varint_ok h, varint, Nat.mod_eq_of_lt hlt]

theorem tag_spec {field wire : ℕ} (hfield : field < 16) (hwire : wire < 8) :
    Unixfs.tag field wire = .ok (tag field wire) :=
  varint_spec (Content.small_le_safe (by omega))

theorem lengthDelimited_spec {field : ℕ} {payload : Bytes} (hfield : field < 16)
    (hlength : payload.length ≤ maxSafeInteger) :
    Unixfs.lengthDelimited field payload = .ok (lengthDelimited field payload) := by
  rw [Unixfs.lengthDelimited, tag_spec hfield (by decide), varint_spec hlength]
  rfl

theorem varintField_spec {field value : ℕ} (hfield : field < 16) (hvalue : value ≤ maxSafeInteger) :
    Unixfs.varintField field value = .ok (varintField field value) := by
  rw [Unixfs.varintField, tag_spec hfield (by decide), varint_spec hvalue]
  rfl

theorem unixfsDirectory_spec : Unixfs.unixfsDirectory = .ok unixfsDirectory :=
  varintField_spec (by decide) (by decide)

/-! ## Addresses -/

/-- A CID of the client as the specification has it. -/
def specCid (cid : Client.Cid) : Content.Cid := { version := cid.version, codec := cid.codec, digest := cid.digest }

theorem textOf_specCid (cid : Client.Cid) : Content.textOf (specCid cid) = cid.toText := rfl

theorem admitted_specCid {cid : Client.Cid} (h : cid.Admitted) : Content.Admitted (specCid cid) := h

/-- The registry reads the client's CIDs. -/
theorem decodeCid_toText {cid : Client.Cid} (h : cid.Admitted) :
    Content.decodeCid cid.toText = .ok (specCid cid) := by
  rw [← textOf_specCid]
  exact Content.decodeCid_textOf (admitted_specCid h)

/-- The registry writes a link as the client does. -/
theorem pbLink_spec {link : Link} (h : link.cid.Admitted)
    (hname : (utf8Encode link.name).length ≤ maxSafeInteger) (htsize : link.tsize ≤ maxSafeInteger) :
    Unixfs.pbLink (link.map Client.Cid.toText) = .ok (pbLink link) := by
  have hversion : Content.varint link.cid.version = .ok (Varint.encode link.cid.version) :=
    Content.varint_ok (by rw [h.1]; exact Content.small_le_safe Content.version_lt)
  have hcodec : Content.varint link.cid.codec = .ok (Varint.encode link.cid.codec) :=
    Content.varint_ok (Content.small_le_safe h.codec_lt)
  have hdigest : link.cid.digest.1.length = 32 := link.cid.digest.2
  have hhash : link.cid.toBytes.length ≤ maxSafeInteger := Nat.le_trans (length_toBytes_le _) (by decide)
  have hcid := lengthDelimited_spec (show 1 < 16 by decide) hhash
  rw [Client.Cid.toBytes] at hcid
  rw [Unixfs.pbLink, Site.Link.map, decodeCid_toText h]
  simp only [Except.ok_bind, specCid, hversion, hcodec, hdigest,
    Content.varint_ok (Content.small_le_safe Content.multihash_lt),
    Content.varint_ok (Content.small_le_safe (show 32 < 128 by decide)), Except.pure_eq_ok]
  rw [lengthDelimited_spec (by decide) hname, varintField_spec (by decide) htsize]
  simp only [Except.ok_bind, pbLink, Client.Cid.toBytes]
  exact congrArg (· >>= _) hcid

/-! ## Loops that spread their parts -/

namespace Unixfs.Engine

variable {E : Engine} {α β : Type}

/-- When a spread goes through. -/
theorem push_eq_ok {out items out' : List α} :
    E.push out items = .ok out' ↔ items.length ≤ E.arguments ∧ out' = out ++ items := by
  rw [push]
  split_ifs with h
  · rw [Except.ok.injEq, and_iff_right h, eq_comm]
  · simp [h]

/-- **A loop that spreads its parts** succeeds when each part is made and passes as arguments. -/
theorem spread_eq_ok {write : β → Except Failure (List α)} {xs : List β} {out out' : List α} :
    xs.foldlM (fun out x => write x >>= fun part => E.push out part) out = .ok out' ↔
      ∃ parts, List.Forall₂ (fun x part => write x = .ok part ∧ part.length ≤ E.arguments) xs parts ∧
        out' = out ++ parts.flatten := by
  induction xs generalizing out with
  | nil =>
    rw [List.foldlM_nil, Except.pure_eq_ok, Except.ok.injEq]
    constructor
    · rintro rfl
      exact ⟨[], .nil, (List.append_nil _).symm⟩
    · rintro ⟨parts, hparts, rfl⟩
      rw [List.forall₂_nil_left_iff.1 hparts, List.flatten_nil, List.append_nil]
  | cons x xs ih =>
    rw [List.foldlM_cons, Except.bind_eq_ok]
    simp only [ih, Except.bind_eq_ok, push_eq_ok]
    constructor
    · rintro ⟨_, ⟨part, hwrite, hlength, rfl⟩, parts, hparts, rfl⟩
      refine ⟨part :: parts, .cons ⟨hwrite, hlength⟩ hparts, ?_⟩
      rw [List.flatten_cons, List.append_assoc]
    · rintro ⟨parts', hparts', rfl⟩
      obtain ⟨part, parts, ⟨hwrite, hlength⟩, hparts, rfl⟩ := List.forall₂_cons_left_iff.1 hparts'
      refine ⟨_, ⟨part, hwrite, hlength, rfl⟩, parts, hparts, ?_⟩
      rw [List.flatten_cons, List.append_assoc]

/-- A loop whose parts are all known. -/
theorem spread_ok {write : β → Except Failure (List α)} {g : β → List α} {xs : List β} (out : List α)
    (h : ∀ x ∈ xs, write x = .ok (g x) ∧ (g x).length ≤ E.arguments) :
    xs.foldlM (fun out x => write x >>= fun part => E.push out part) out = .ok (out ++ xs.flatMap g) := by
  rw [spread_eq_ok]
  refine ⟨xs.map g, ?_, by rw [List.flatMap_def]⟩
  rw [List.forall₂_map_right_iff, List.forall₂_same]
  exact h

theorem own_ok (a : α) : own (.ok a : Except Content.ContentError α) = .ok a := rfl

theorem own_eq_ok {x : Except Content.ContentError α} {a : α} : own x = .ok a ↔ x = .ok a := by
  cases x with
  | error e => exact ⟨nofun, nofun⟩
  | ok b => rw [own_ok, Except.ok.injEq, Except.ok.injEq]

/-- What is written of a link. -/
def linkPart (link : Link) : Except Failure Bytes := do own (lengthDelimited 2 (← own (pbLink link)))

/-- An engine's node, link by link. -/
theorem encodePbNode_eq (links : List Link) (data : Bytes) : E.encodePbNode links data =
    links.foldlM (fun out link => linkPart link >>= fun part => E.push out part) [] >>= fun out =>
      if data.length > 0 then own (lengthDelimited 1 data) >>= fun part => E.push out part else return out := by
  rw [encodePbNode]
  simp only [linkPart, bind_assoc]

end Unixfs.Engine

/-- A link that an engine writes: its bytes may pass as arguments, and its size is a safe number. -/
def Fit (E : Unixfs.Engine) (link : Link) : Prop :=
  (utf8Encode link.name).length + linkBytes ≤ E.arguments ∧ link.tsize ≤ maxSafeInteger

variable {E : Unixfs.Engine}

/-- A fitting link is written as the client writes it and can be spread. -/
theorem linkPart_spec {link : Link} (hcid : link.cid.Admitted) (h : Fit E link) :
    Unixfs.Engine.linkPart (link.map Client.Cid.toText) = .ok (lengthDelimited 2 (pbLink link)) ∧
      (lengthDelimited 2 (pbLink link)).length ≤ E.arguments := by
  have hlength := Nat.le_trans (length_link_le link) h.1
  have hsafe := E.safe
  have hpart := length_le_lengthDelimited 2 (pbLink link)
  have hname := h.1
  refine ⟨?_, hlength⟩
  rw [Unixfs.Engine.linkPart, pbLink_spec hcid (by omega) h.2, Unixfs.Engine.own_ok, Except.ok_bind,
    lengthDelimited_spec (by decide) (by omega)]
  rfl

/-- A node of fitting links is written as the client writes it. -/
theorem encodePbNode_spec {links : List Link} {data : Bytes} (hlinks : ∀ link ∈ links, link.cid.Admitted ∧ Fit E link)
    (hdata : data.length + 11 ≤ E.arguments) :
    E.encodePbNode (links.map (Site.Link.map Client.Cid.toText)) data = .ok (encodePbNode links data) := by
  have hspread := Unixfs.Engine.spread_ok (E := E) [] fun link hlink =>
    linkPart_spec (hlinks link hlink).1 (hlinks link hlink).2
  have hpart := length_lengthDelimited_le (show 1 < 16 by decide) data
  have hsafe := E.safe
  rw [Unixfs.Engine.encodePbNode_eq, List.foldlM_map, hspread, Except.ok_bind, encodePbNode]
  by_cases hnil : data = []
  · rw [if_neg (by simp [hnil]), if_neg (by simp [hnil]), List.append_nil]
    rfl
  · rw [if_pos (List.length_pos_iff.2 hnil), if_pos hnil, lengthDelimited_spec (by decide) (by omega),
      Unixfs.Engine.own_ok, Except.ok_bind, Unixfs.Engine.push_eq_ok]
    exact ⟨by omega, rfl⟩

/-! ## Nodes -/

variable {H : ContentHash}

/-- Both programs address a node alike. -/
theorem dagPbBlock_map (bytes : Bytes) :
    Unixfs.dagPbBlock H bytes = .ok ((dagPbBlock H bytes).map Client.Cid.toText) :=
  Unixfs.dagPbBlock_eq bytes

theorem checksNames_spec : Site.ChecksNames fun names entry => Unixfs.own (Unixfs.checkEntry names entry) where
  accepts names e hname hmem := by rw [Unixfs.checkEntry, if_neg hname, if_neg hmem, Unixfs.Engine.own_ok]
  refuses names e h := by
    rw [Unixfs.checkEntry]
    split_ifs with hname hmem
    · exact ⟨_, rfl⟩
    · exact ⟨_, rfl⟩
    · exact absurd h (not_or.2 ⟨hname, hmem⟩)

theorem checksNames_client : Site.ChecksNames checkEntry where
  accepts names e hname hmem := by rw [checkEntry, if_neg hname, if_neg hmem]
  refuses names e h := by
    rw [checkEntry]
    split_ifs with hname hmem
    · exact ⟨_, rfl⟩
    · exact ⟨_, rfl⟩
    · exact absurd h (not_or.2 ⟨hname, hmem⟩)

theorem length_unixfsDirectory : unixfsDirectory.length = 2 := by decide

/-- **The importers agree on every directory** whose links fit the engine, whatever the order of its
entries. -/
theorem nodesAgree : Site.NodesAgree Client.Cid.toText Client.Cid.Admitted (Fit E) (directoryNode H)
    (E.directoryNode H) := by
  intro entries entries' hentries hperm
  by_cases hnamed : Site.WellNamed entries
  · have hnamed' := (Site.wellNamed_perm hperm).2 hnamed
    have hsorted : entries'.insertionSort Unixfs.nameLe =
        (entries.insertionSort nameLe).map (Site.Link.map Client.Cid.toText) :=
      Site.insertionSort_perm hnamed hperm
    have hlinks : ∀ link ∈ entries.insertionSort nameLe, link.cid.Admitted ∧ Fit E link :=
      fun link hlink => hentries link ((List.mem_insertionSort _).1 hlink)
    have hshort := E.short
    have hdata : unixfsDirectory.length + 11 ≤ E.arguments := by
      rw [length_unixfsDirectory]
      omega
    rw [directoryNode, Unixfs.Engine.directoryNode, Site.check_wellNamed checksNames_client hnamed,
      Site.check_wellNamed checksNames_spec hnamed', hsorted, unixfsDirectory_spec]
    simp only [Except.ok_bind, Except.pure_eq_ok, Unixfs.Engine.own_ok, encodePbNode_spec hlinks hdata,
      dagPbBlock_map]
    exact .same ⟨admitted_node _, rfl⟩
  -- both sides refuse names that are not distinct, in whatever order they come
  · have hnamed' := mt (Site.wellNamed_perm hperm).1 hnamed
    obtain ⟨e, he⟩ := Site.check_not_wellNamed checksNames_client hnamed
    obtain ⟨e', he'⟩ := Site.check_not_wellNamed checksNames_spec hnamed'
    rw [directoryNode, Unixfs.Engine.directoryNode, he, he', Except.error_bind, Except.error_bind]
    exact .refused

/-! ## Files -/

/-- What the specification's importer makes of a file. -/
def specFile (built : BuiltFile) : List Unixfs.Block × String × ℕ :=
  (built.blocks.map (Site.Block.map Client.Cid.toText), built.cid.toText, built.tsize)

/-- Both programs cut a file alike. -/
theorem chunk_eq (content : Bytes) : Content.chunk content Content.chunkBytes = .ok (Client.chunk content) := by
  rw [Content.chunk, Client.chunk, if_neg (Nat.pos_iff_ne_zero.1 Unixfs.chunkBytes_pos), chunksOf_eq]
  split_ifs
  · rfl
  · rfl

/-- Both programs address a leaf alike. -/
theorem rawLeafCid_map {piece : Bytes} (h : piece.length ≤ Content.chunkBytes) :
    Content.rawLeafCid H piece = .ok (Client.Cid.rawFromBytes H piece).toText :=
  Unixfs.rawLeafCid_eq h

theorem length_le_of_mem_chunk {content piece : Bytes} (h : piece ∈ Client.chunk content) :
    piece.length ≤ Client.chunkBytes := by
  rw [Client.chunk] at h
  split_ifs at h with hnil
  · rw [List.mem_singleton.1 h]
    exact Nat.zero_le _
  · rw [chunksOf_eq] at h
    exact Chunks.length_le_of_mem h

/-- The chunks of a file are the file. -/
theorem flatten_chunk (content : Bytes) : (Client.chunk content).flatten = content := by
  rw [Client.chunk]
  split_ifs with hnil
  · rw [hnil]
    rfl
  · rw [chunksOf_eq]
    exact Chunks.flatten_split chunkBytes_pos (Nat.le_refl _)

theorem blocksize_spec {size : ℕ} (h : size ≤ Client.chunkBytes) :
    Unixfs.own (Unixfs.varintField 4 size) = .ok (varintField 4 size) ∧ (varintField 4 size).length ≤ E.arguments := by
  have hsafe : Client.chunkBytes ≤ maxSafeInteger := by decide
  have hlength := length_blocksize_le h
  have hshort := E.short
  rw [varintField_spec (by decide) (Nat.le_trans h hsafe)]
  exact ⟨rfl, by omega⟩

/-- The message of a small file is written as the client writes it. -/
theorem unixfsFile_spec {sizes : List ℕ} (hsizes : ∀ size ∈ sizes, size ≤ Client.chunkBytes)
    (htotal : sizes.sum ≤ maxSafeInteger) : E.unixfsFile sizes = .ok (unixfsFile sizes) := by
  rw [Unixfs.Engine.unixfsFile, varintField_spec (by decide) (by decide), varintField_spec (by decide) htotal]
  exact Unixfs.Engine.spread_ok _ fun size hsize => blocksize_spec (hsizes size hsize)

/-- A file whose chunks an engine counts in one call, and whose length is a safe number. -/
def Small (E : Unixfs.Engine) (content : Bytes) : Prop :=
  4 * (Client.chunk content).length + 24 ≤ E.arguments ∧ content.length ≤ maxSafeInteger

theorem sum_chunk (content : Bytes) : ((Client.chunk content).map List.length).sum = content.length := by
  rw [← List.length_flatten, flatten_chunk]

/-- A small file becomes the same blocks in both programs. -/
theorem fileBlocks_spec {content : Bytes} (h : Small E content) :
    E.fileBlocks H content = .ok (specFile (fileBlocks H content)) := by
  by_cases hle : content.length ≤ Client.chunkBytes
  · rw [Unixfs.Engine.fileBlocks, chunk_eq, fileBlocks, chunk_of_le hle]
    simp only [Unixfs.Engine.own_ok, Except.ok_bind, rawLeafCid_map hle, Except.pure_eq_ok]
    rfl
  · have hgt := Nat.not_le.1 hle
    have hcount := (chunk_of_gt hgt).2
    have hpieces : ∀ piece ∈ Client.chunk content, piece.length ≤ Content.chunkBytes :=
      fun piece => length_le_of_mem_chunk
    have hsizes : ∀ size ∈ (Client.chunk content).map List.length, size ≤ Client.chunkBytes := by
      intro size hsize
      obtain ⟨piece, hpiece, rfl⟩ := List.mem_map.1 hsize
      exact hpieces piece hpiece
    -- the node is small enough to be spread as arguments, so the engine's own limit is not met
    have hdata := length_unixfsFile_le hsizes
    rw [List.length_map] at hdata
    have htotal : ((Client.chunk content).map List.length).sum ≤ maxSafeInteger := by
      rw [sum_chunk]
      exact h.2
    have hfile := unixfsFile_spec (E := E) hsizes htotal
    have hblocks := Unixfs.mapM_rawLeaf (H := H) hpieces
    have hlinks : ∀ link ∈ chunkLinks H (Client.chunk content), link.cid.Admitted ∧ Fit E link := by
      intro link hlink
      obtain ⟨piece, hpiece, rfl⟩ := List.mem_map.1 hlink
      have hempty : (utf8Encode "").length = 0 := by decide
      have hsafe : Client.chunkBytes ≤ maxSafeInteger := by decide
      have hshort := E.short
      refine ⟨admitted_raw piece, ?_, Nat.le_trans (hpieces piece hpiece) hsafe⟩
      rw [hempty, linkBytes]
      omega
    have hnode := encodePbNode_spec hlinks (show (unixfsFile ((Client.chunk content).map List.length)).length + 11 ≤
      E.arguments by have hsmall := h.1; omega)
    rw [fileBlocks_of_gt hgt, Unixfs.Engine.fileBlocks, chunk_eq, Unixfs.Engine.own_ok, Except.ok_bind]
    generalize Client.chunk content = pieces at *
    have hmap : ((pieces.map fun piece => (⟨Content.textOf (Unixfs.rawCid H piece), piece⟩ : Unixfs.Block)).map
        fun block => ({ cid := block.cid, name := "", tsize := block.bytes.length } : Unixfs.Link)) =
          (chunkLinks H pieces).map (Site.Link.map Client.Cid.toText) := by
      rw [chunkLinks, List.map_map, List.map_map]
      rfl
    split
    · simp at hcount
    · rw [hblocks, Unixfs.Engine.own_ok, Except.ok_bind]
      simp only [hmap, hfile, Except.ok_bind, hnode, dagPbBlock_map, Unixfs.Engine.own_ok, Except.pure_eq_ok]
      simp only [specFile, fileNode, List.map_append, List.map_map, List.map_cons, List.map_nil]
      rfl

/-- What is made of a file, once its path is checked, where its blocks pass as arguments. -/
def Unixfs.Engine.makeFile (E : Unixfs.Engine) (H : ContentHash) (path : String) (content : Bytes) :
    Except Unixfs.Failure (List Unixfs.Block × String × ℕ) := do
  Unixfs.own (Unixfs.checkPath path)
  let built ← E.fileBlocks H content
  return (← E.push [] built.1, built.2)

theorem Unixfs.Engine.importFile_eq :
    E.importFile H = fun state file => Site.load (E.makeFile H) state file.path file.content := by
  funext state file
  rw [Unixfs.Engine.importFile, Site.load, Unixfs.Engine.makeFile]
  cases Unixfs.own (Unixfs.checkPath file.path) with
  | error e => rfl
  | ok u =>
    rw [Except.ok_bind, Except.ok_bind]
    cases E.fileBlocks H file.content with
    | error e => rfl
    | ok built =>
      simp only [Except.ok_bind, Unixfs.Engine.push]
      split_ifs
      · rfl
      · rfl

/-- A path is refused by both. -/
theorem checkPath_agrees (path : String) :
    Agrees (fun _ _ => True) (checkPath path) (Unixfs.own (Unixfs.checkPath path)) := by
  rw [checkPath, Unixfs.checkPath]
  split_ifs
  · exact .refused
  · exact .refused
  · exact .same trivial

/-- A file has one block more than chunks at most. -/
theorem length_blocks (content : Bytes) :
    (fileBlocks H content).blocks.length ≤ (Client.chunk content).length + 1 := by
  by_cases hle : content.length ≤ Client.chunkBytes
  · rw [fileBlocks, chunk_of_le hle]
    exact Nat.le_succ 1
  · rw [fileBlocks_of_gt (Nat.not_le.1 hle), List.length_append, List.length_map, List.length_singleton]

/-- **The importers agree on every file** that is small enough for the engine. -/
theorem filesAgree : Site.FilesAgree Client.Cid.toText Client.Cid.Admitted (Small E) (makeFile H)
    (E.makeFile H) := by
  intro path content hsmall
  have hlength : (specFile (fileBlocks H content)).1.length ≤ E.arguments := by
    have hblocks := @length_blocks H content
    have hcount := hsmall.1
    rw [specFile, List.length_map]
    omega
  rw [makeFile, Unixfs.Engine.makeFile]
  refine (checkPath_agrees path).bind ?_
  rintro _ _ -
  rw [fileBlocks_spec hsmall, Except.ok_bind, Unixfs.Engine.push_eq_ok.2 ⟨hlength, rfl⟩]
  exact .same ⟨(built_fileBlocks content).admitted, rfl⟩

/-! ## How large a file is -/

/-- A node is no longer than its data and its links. -/
theorem length_encodePbNode_le (links : List Link) (data : Bytes) : (encodePbNode links data).length ≤
    data.length + 11 + (links.map fun link => (utf8Encode link.name).length + linkBytes).sum := by
  have hdata := length_lengthDelimited_le (show 1 < 16 by decide) data
  have hlinks : (links.flatMap fun link => lengthDelimited 2 (pbLink link)).length ≤
      (links.map fun link => (utf8Encode link.name).length + linkBytes).sum := by
    induction links with
    | nil => exact Nat.le_refl _
    | cons link links ih =>
      have hlink := length_link_le link
      rw [List.flatMap_cons, List.length_append, List.map_cons, List.sum_cons]
      omega
  rw [encodePbNode, List.length_append]
  split_ifs
  · omega
  · rw [List.length_nil]
    omega

/-- **A file with its node is no larger than twice its bytes.** -/
theorem tsize_fileBlocks_le (content : Bytes) : (fileBlocks H content).tsize ≤ 2 * content.length := by
  by_cases hle : content.length ≤ Client.chunkBytes
  · rw [fileBlocks, chunk_of_le hle]
    exact Nat.le_mul_of_pos_left _ (by decide)
  · have hgt := Nat.not_le.1 hle
    have hcount := (chunk_of_gt hgt).2
    -- a file of several pieces is longer than all its pieces but one, which pays for the node above them
    have hlong : ((Client.chunk content).length - 1) * Client.chunkBytes < content.length := by
      rw [← Nat.not_le, ← length_chunk_le (by omega)]
      omega
    have hsizes : ((chunkLinks H (Client.chunk content)).map (·.tsize)).sum = content.length := by
      rw [chunkLinks, List.map_map]
      exact sum_chunk content
    have hdata : (unixfsFile ((Client.chunk content).map List.length)).length ≤
        4 * (Client.chunk content).length + 13 := by
      have hpieces : ∀ size ∈ (Client.chunk content).map List.length, size ≤ Client.chunkBytes := by
        intro size hsize
        obtain ⟨piece, hpiece, rfl⟩ := List.mem_map.1 hsize
        exact length_le_of_mem_chunk hpiece
      have hlength := length_unixfsFile_le hpieces
      rwa [List.length_map] at hlength
    have hlinks : ((chunkLinks H (Client.chunk content)).map fun link =>
        (utf8Encode link.name).length + linkBytes).sum = (Client.chunk content).length * linkBytes := by
      have hempty : (utf8Encode "").length = 0 := by decide
      rw [chunkLinks, List.map_map]
      simp only [Function.comp_def, hempty, Nat.zero_add, List.map_const', List.sum_replicate_nat]
    have hnode := length_encodePbNode_le (chunkLinks H (Client.chunk content))
      (unixfsFile ((Client.chunk content).map List.length))
    rw [fileBlocks_of_gt hgt, hsizes]
    have hbytes : (fileNode H (Client.chunk content)).bytes = encodePbNode (chunkLinks H (Client.chunk content))
      (unixfsFile ((Client.chunk content).map List.length)) := rfl
    rw [hbytes]
    simp only [linkBytes, Client.chunkBytes] at *
    omega

/-! ## Without bounds -/

namespace Unixfs.Engine

open Except (Refines)

theorem own_refines {α : Type} (x : Except Content.ContentError α) : Refines (own x) x := fun _ => own_eq_ok.1

theorem ok_refines {ε ε' α : Type} (a : α) : Refines (.ok a : Except ε α) (.ok a : Except ε' α) :=
  fun _ h => congrArg _ (Except.ok.inj h)

/-- A loop that spreads its parts gives what a loop that collects them gives. -/
theorem spread_refines {α β : Type} {write : β → Except Failure (List α)}
    {write' : β → Except Content.ContentError (List α)} (h : ∀ x, Refines (write x) (write' x)) (xs : List β)
    (out : List α) : Refines (xs.foldlM (fun out x => write x >>= fun part => E.push out part) out)
      (xs.mapM write' >>= fun parts => .ok (out ++ parts.flatten)) := by
  intro out' hout
  obtain ⟨parts, hparts, rfl⟩ := spread_eq_ok.1 hout
  have hmap : xs.mapM write' = .ok parts :=
    Except.mapM_eq_ok.2 (hparts.imp fun x part hpart => h x part hpart.1)
  rw [hmap, Except.ok_bind]

/-- On an engine the message of a file is the same, or nothing. -/
theorem unixfsFile_refines (sizes : List ℕ) : Refines (E.unixfsFile sizes) (Unixfs.unixfsFile sizes) := by
  rw [unixfsFile, Unixfs.unixfsFile]
  refine (own_refines _).bind fun kind => (own_refines _).bind fun total => ?_
  exact spread_refines (fun size => own_refines _) sizes _

theorem linkPart_refines (link : Link) :
    Refines (linkPart link) (Unixfs.pbLink link >>= fun region => Unixfs.lengthDelimited 2 region) :=
  (own_refines _).bind fun _ => own_refines _

/-- On an engine a node is the same, or nothing. -/
theorem encodePbNode_refines (links : List Link) (data : Bytes) :
    Refines (E.encodePbNode links data) (Unixfs.encodePbNode links data) := by
  have hsplit : Unixfs.encodePbNode links data =
      (links.mapM (fun link => Unixfs.pbLink link >>= fun region => Unixfs.lengthDelimited 2 region) >>= fun parts =>
        .ok ([] ++ parts.flatten)) >>= fun out =>
          if data.length > 0 then Unixfs.lengthDelimited 1 data >>= fun part => .ok (out ++ part) else .ok out := by
    rw [Unixfs.encodePbNode, bind_assoc]
    rfl
  rw [encodePbNode_eq, hsplit]
  refine (spread_refines linkPart_refines links []).bind fun out => ?_
  split_ifs
  · refine (own_refines _).bind fun part out' hpush => ?_
    rw [(push_eq_ok.1 hpush).2]
  · exact ok_refines out

/-- On an engine a directory is the same, or nothing. -/
theorem directoryNode_refines (entries : List Link) :
    Refines (E.directoryNode H entries) (Unixfs.directoryNode H entries) := by
  rw [directoryNode, Unixfs.directoryNode]
  refine (Refines.foldlM (fun names entry => own_refines _) entries []).bind fun _ => ?_
  refine (own_refines _).bind fun data => ?_
  exact (encodePbNode_refines _ data).bind fun bytes => own_refines _

/-- On an engine the blocks of a file are the same, or nothing. -/
theorem fileBlocks_refines (content : Bytes) : Refines (E.fileBlocks H content) (Unixfs.fileBlocks H content) := by
  rw [fileBlocks, Unixfs.fileBlocks]
  refine (own_refines _).bind fun pieces => ?_
  split
  · exact (own_refines _).bind fun cid => ok_refines _
  · refine (own_refines _).bind fun blocks => ?_
    refine (unixfsFile_refines _).bind fun data => ?_
    refine (encodePbNode_refines _ _).bind fun bytes => ?_
    exact (own_refines _).bind fun node => ok_refines _

/-- On an engine one file's import is the same, or nothing. -/
theorem importFile_refines (state : List Block × OrdMap String Link) (file : SiteFile) :
    Refines (E.importFile H state file) (Unixfs.importFile H state file) := by
  rw [importFile, Unixfs.importFile]
  refine (own_refines _).bind fun _ => ?_
  refine (fileBlocks_refines _).bind fun built state' hpush => ?_
  obtain ⟨blocks, hblocks, hstate⟩ := Except.bind_eq_ok.1 hpush
  rw [(push_eq_ok.1 hblocks).2] at hstate
  exact congrArg _ (Except.ok.inj hstate)

end Unixfs.Engine

end VayuWeb
