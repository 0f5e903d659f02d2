import VayuWeb.Base.Import
import VayuWeb.Proof.Unixfs

/-!
# What an import builds

* `Built`: a file's blocks, as a raw leaf or as a node over its chunks.
* `imported_of_importSite`: the tree of an import, the routes through its blocks, and their CIDs.
-/

namespace VayuWeb.Unixfs

open Bytes Content

variable {H : ContentHash}

/-! ## Addresses -/

/-- The CID of a raw leaf. -/
def rawCid (H : ContentHash) (bytes : Bytes) : Cid := { version := 1, codec := codecRaw, digest := H.sha256 bytes }

/-- The CID of a dag-pb node. -/
def nodeCid (H : ContentHash) (bytes : Bytes) : Cid := { version := 1, codec := codecDagPb, digest := H.sha256 bytes }

theorem admitted_rawCid (bytes : Bytes) : Admitted (rawCid H bytes) := ⟨rfl, Or.inl rfl⟩

theorem admitted_nodeCid (bytes : Bytes) : Admitted (nodeCid H bytes) := ⟨rfl, Or.inr rfl⟩

/-- The CID of a leaf that is short enough. -/
theorem rawLeafCid_eq {bytes : Bytes} (h : bytes.length ≤ chunkBytes) :
    rawLeafCid H bytes = .ok (textOf (rawCid H bytes)) := by
  rw [rawLeafCid, if_neg (Nat.not_lt.2 h)]
  exact encodeCid_admitted (admitted_rawCid bytes)

/-- The block of a node. -/
theorem dagPbBlock_eq (bytes : Bytes) : dagPbBlock H bytes = .ok ⟨textOf (nodeCid H bytes), bytes⟩ := by
  have hcid := encodeCid_admitted (admitted_nodeCid (H := H) bytes)
  rw [nodeCid] at hcid
  rw [dagPbBlock, hcid]
  rfl

/-- A block that stands under the CID of its bytes. -/
def Addressed (H : ContentHash) (block : Block) : Prop :=
  ∃ c, Admitted c ∧ c.digest = H.sha256 block.bytes ∧ block.cid = textOf c

theorem addressed_raw (bytes : Bytes) : Addressed H ⟨textOf (rawCid H bytes), bytes⟩ :=
  ⟨rawCid H bytes, admitted_rawCid bytes, rfl, rfl⟩

theorem addressed_node (bytes : Bytes) : Addressed H ⟨textOf (nodeCid H bytes), bytes⟩ :=
  ⟨nodeCid H bytes, admitted_nodeCid bytes, rfl, rfl⟩

/-- An addressed block is spelled in the canonical way. -/
theorem Addressed.canonical {block : Block} (h : Addressed H block) : canonical block.cid = block.cid := by
  obtain ⟨c, hc, -, hcid⟩ := h
  rw [hcid, canonical_textOf hc]

/-! ## Files -/

/-- The links of a file node. -/
def chunkLinks (H : ContentHash) (pieces : List Bytes) : List Link :=
  pieces.map fun piece => { cid := textOf (rawCid H piece), name := "", tsize := piece.length }

/-- The blocks of a file whose CID is `cid`. -/
inductive Built (H : ContentHash) (content : Bytes) (built : List Block) (cid : String) : Prop where
  | leaf (hcid : cid = textOf (rawCid H content)) (hle : content.length ≤ chunkBytes)
      (hbuilt : built = [⟨cid, content⟩])
  | node (pieces : List Bytes) (data bytes : Bytes) (hcid : cid = textOf (nodeCid H bytes))
      (hgt : chunkBytes < content.length) (hpieces : pieces = Chunks.split chunkBytes content.length content)
      (hdata : unixfsFile (pieces.map (·.length)) = .ok data)
      (hbytes : encodePbNode (chunkLinks H pieces) data = .ok bytes)
      (hbuilt : built = pieces.map (fun piece => ⟨textOf (rawCid H piece), piece⟩) ++ [⟨cid, bytes⟩])

theorem chunkBytes_pos : 0 < chunkBytes := by decide

/-- A short file is one chunk. -/
theorem chunk_of_le {content : Bytes} (h : content.length ≤ chunkBytes) : chunk content chunkBytes = .ok [content] := by
  rw [chunk, if_neg (Nat.pos_iff_ne_zero.1 chunkBytes_pos)]
  by_cases hnil : content = []
  · rw [if_pos hnil, hnil]
  · have hpos := List.length_pos_iff.2 hnil
    obtain ⟨n, hn⟩ : ∃ n, content.length = n + 1 := ⟨content.length - 1, by omega⟩
    rw [if_neg hnil, hn, Chunks.split_of_le hnil h]

/-- A longer file is split into several. -/
theorem chunk_of_gt {content : Bytes} (h : chunkBytes < content.length) :
    chunk content chunkBytes = .ok (Chunks.split chunkBytes content.length content) ∧
      1 < (Chunks.split chunkBytes content.length content).length := by
  have hnil : content ≠ [] := by
    rintro rfl
    exact Nat.not_lt_zero _ h
  refine ⟨by rw [chunk, if_neg (Nat.pos_iff_ne_zero.1 chunkBytes_pos), if_neg hnil], ?_⟩
  rw [← Nat.not_le, Chunks.length_split_le chunkBytes_pos (Nat.le_refl _), Nat.one_mul]
  exact Nat.not_le.2 h

/-- The raw leaves of pieces that fit. -/
theorem mapM_rawLeaf {pieces : List Bytes} (h : ∀ piece ∈ pieces, piece.length ≤ chunkBytes) :
    (pieces.mapM fun piece => do return ({ cid := ← rawLeafCid H piece, bytes := piece } : Block)) =
      .ok (pieces.map fun piece => ⟨textOf (rawCid H piece), piece⟩) := by
  apply Except.mapM_ok
  intro piece hpiece
  rw [rawLeafCid_eq (h piece hpiece)]
  rfl

/-- **What is built of a file.** -/
theorem built_of_fileBlocks {content : Bytes} {built : List Block} {cid : String} {tsize : ℕ}
    (h : fileBlocks H content = .ok (built, cid, tsize)) : Built H content built cid := by
  rw [fileBlocks] at h
  by_cases hle : content.length ≤ chunkBytes
  · rw [chunk_of_le hle] at h
    simp only [Except.ok_bind, rawLeafCid_eq hle, Except.pure_eq_ok, Except.ok.injEq, Prod.mk.injEq] at h
    obtain ⟨hbuilt, hcid, -⟩ := h
    exact .leaf hcid.symm hle (by rw [← hbuilt, hcid])
  · obtain ⟨hchunk, hcount⟩ := chunk_of_gt (Nat.not_le.1 hle)
    have hpieces : ∀ piece ∈ Chunks.split chunkBytes content.length content, piece.length ≤ chunkBytes :=
      fun piece => Chunks.length_le_of_mem
    rw [hchunk, Except.ok_bind] at h
    generalize hsplit : Chunks.split chunkBytes content.length content = pieces at h hcount hpieces
    split at h
    · simp at hcount
    · rw [mapM_rawLeaf hpieces, Except.ok_bind] at h
      simp only [Except.bind_eq_ok, dagPbBlock_eq, Except.ok.injEq, Except.pure_eq_ok, Prod.mk.injEq] at h
      obtain ⟨data, hdata, bytes, hbytes, node, rfl, hbuilt, hcid, -⟩ := h
      refine .node pieces data bytes hcid.symm (Nat.not_le.1 hle) hsplit.symm hdata ?_ ?_
      · rw [← hbytes, chunkLinks, List.map_map]
        rfl
      · rw [← hbuilt, ← hcid]

/-- Every block of a file is addressed by its content. -/
theorem Built.addressed {content : Bytes} {built : List Block} {cid : String} (h : Built H content built cid) :
    ∀ block ∈ built, Addressed H block := by
  intro block hblock
  cases h with
  | leaf hcid hle hbuilt =>
    rw [hbuilt, List.mem_singleton] at hblock
    rw [hblock, hcid]
    exact addressed_raw content
  | node pieces data bytes hcid hgt hpieces hdata hbytes hbuilt =>
    rw [hbuilt] at hblock
    rcases List.mem_append.1 hblock with hblock | hblock
    · obtain ⟨piece, -, rfl⟩ := List.mem_map.1 hblock
      exact addressed_raw piece
    · rw [List.mem_singleton.1 hblock, hcid]
      exact addressed_node bytes

/-! ## Directories -/

/-- Names that are checked are there and not there twice. -/
theorem names_of_checkEntry {entries : List Link} {names names' : List String} (hnodup : names.Nodup)
    (h : entries.foldlM checkEntry names = .ok names') :
    names' = names ++ entries.map (·.name) ∧ names'.Nodup ∧ ∀ e ∈ entries, e.name ≠ "" := by
  induction entries generalizing names with
  | nil =>
    rw [List.foldlM_nil, Except.pure_eq_ok, Except.ok.injEq] at h
    rw [← h]
    exact ⟨(List.append_nil _).symm, hnodup, by simp⟩
  | cons e entries ih =>
    rw [List.foldlM_cons, Except.bind_eq_ok] at h
    obtain ⟨names₁, hcheck, h⟩ := h
    rw [checkEntry] at hcheck
    split_ifs at hcheck with hempty hmem
    rw [Except.ok.injEq] at hcheck
    have hnodup₁ : (names ++ [e.name]).Nodup := List.nodup_append_comm.1 (List.nodup_cons.2 ⟨hmem, hnodup⟩)
    rw [← hcheck] at h
    obtain ⟨heq, hnodup', hnames⟩ := ih hnodup₁ h
    refine ⟨?_, hnodup', ?_⟩
    · rw [heq, List.map_cons, List.append_assoc, List.singleton_append]
    · intro e' he'
      rcases List.mem_cons.1 he' with rfl | he'
      · exact hempty
      · exact hnames e' he'

/-- **What is built of a directory's entries.** -/
theorem directoryNode_eq_ok {entries : List Link} {block : Block} (h : directoryNode H entries = .ok block) :
    (entries.map (·.name)).Nodup ∧ block.cid = textOf (nodeCid H block.bytes) ∧
      ∃ data, unixfsDirectory = .ok data ∧ encodePbNode (entries.insertionSort nameLe) data = .ok block.bytes := by
  rw [directoryNode] at h
  simp only [Except.bind_eq_ok, dagPbBlock_eq, Except.ok.injEq] at h
  obtain ⟨names, hnames, data, hdata, bytes, hbytes, rfl⟩ := h
  obtain ⟨heq, hnodup, -⟩ := names_of_checkEntry List.nodup_nil hnames
  rw [heq, List.nil_append] at hnodup
  exact ⟨hnodup, rfl, data, hdata, hbytes⟩

/-! ## Sites -/

/-- When a path is taken. -/
theorem checkPath_eq_ok {path : String} : checkPath path = .ok () ↔
    ¬ (path = "" ∨ path.toList.head? = some '/' ∨ path.toList.getLast? = some '/') ∧
      ∀ part ∈ Path.split path, part ≠ "" ∧ part ≠ "." ∧ part ≠ ".." := by
  rw [checkPath]
  by_cases hform : path = "" ∨ path.toList.head? = some '/' ∨ path.toList.getLast? = some '/'
  · simp [hform]
  · rw [if_neg hform]
    by_cases hparts : ∃ part ∈ Path.split path, part = "" ∨ part = "." ∨ part = ".."
    · rw [if_pos hparts]
      obtain ⟨part, hpart, hbad⟩ := hparts
      simp only [reduceCtorEq, false_iff, not_and]
      intro _ hall
      have hgood := hall part hpart
      tauto
    · rw [if_neg hparts]
      simp only [true_iff]
      refine ⟨hform, ?_⟩
      intro part hpart
      have hgood : ¬ (part = "" ∨ part = "." ∨ part = "..") := fun hbad => hparts ⟨part, hpart, hbad⟩
      tauto

/-- What is made of a file, once its path is checked. -/
def makeFile (H : ContentHash) (path : String) (content : Bytes) : Except ContentError (List Block × String × ℕ) := do
  checkPath path
  fileBlocks H content

/-- What importing one file checks and makes. -/
theorem makeFile_eq_ok {path : String} {content : Bytes} {made : List Block × String × ℕ} :
    makeFile H path content = .ok made ↔ checkPath path = .ok () ∧ fileBlocks H content = .ok made := by
  rw [makeFile, Except.bind_eq_ok]
  constructor
  · rintro ⟨_, hcheck, hbuilt⟩
    exact ⟨hcheck, hbuilt⟩
  · rintro ⟨hcheck, hbuilt⟩
    exact ⟨(), hcheck, hbuilt⟩

theorem importFile_eq :
    importFile H = fun state file => Site.load (makeFile H) state file.path file.content := by
  funext state file
  rw [importFile, Site.load, makeFile, bind_assoc]

/-- What an import has of one file. -/
structure FileIn (H : ContentHash) (blocks : List Block) (tree : Site.Tree String) (file : SiteFile) : Prop where
  path : ∀ part ∈ Path.split file.path, part ≠ "" ∧ part ≠ "." ∧ part ≠ ".."
  built : ∃ built cid tsize, Built H file.content built cid ∧ built ⊆ blocks ∧
    (file.path, ({ cid := cid, name := file.path, tsize := tsize } : Link)) ∈ tree

/-- A file that stands in the tree can be read from the site. -/
theorem fileIn_of_stands {blocks : List Block} {tree : Site.Tree String} {file : SiteFile}
    (h : Site.Stands (makeFile H) blocks tree file.path file.content) : FileIn H blocks tree file := by
  obtain ⟨built, cid, tsize, hmake, hsub, hmem⟩ := h
  obtain ⟨hcheck, hbuilt⟩ := makeFile_eq_ok.1 hmake
  exact ⟨(checkPath_eq_ok.1 hcheck).2, built, cid, tsize, built_of_fileBlocks hbuilt, hsub, hmem⟩

/-- An import: its tree, the routes through its blocks, and their CIDs. -/
structure Imported (H : ContentHash) (files : List SiteFile) (blocks : List Block) (root : String)
    (tree : Site.Tree String) : Prop where
  paths : tree.map (·.1) = files.map (·.path)
  file : ∀ file ∈ files, FileIn H blocks tree file
  route : ∀ path link, (path, link) ∈ tree →
    Site.Route (directoryNode H) tree blocks [] (Path.split path) root link.cid
  addressed : ∀ block ∈ blocks, Addressed H block

/-- **What an import builds.** -/
theorem imported_of_importSite {files : List SiteFile} {blocks : List Block} {root : String}
    (h : importSite H files = .ok (blocks, root)) (hnodup : (files.map (·.path)).Nodup) :
    ∃ tree, Imported H files blocks root tree := by
  rw [importSite, Except.bind_eq_ok] at h
  obtain ⟨⟨blocks₁, tree⟩, hfiles, h⟩ := h
  simp only [Except.bind_eq_ok, Except.pure_eq_ok, Except.ok.injEq, Prod.mk.injEq] at h
  obtain ⟨⟨⟨cid, tsize⟩, blocks'⟩, hbuild, rfl, rfl⟩ := h
  rw [importFile_eq] at hfiles
  have hloaded := Site.loaded_of_foldlM hfiles hnodup (by simp)
  have hpaths := hloaded.paths
  rw [List.map_nil, List.nil_append] at hpaths
  have hproper : Site.Proper tree := by
    intro path link hmem s hs
    have hpath : path ∈ files.map (·.path) := hpaths ▸ List.mem_map_of_mem hmem
    obtain ⟨file, hfile, rfl⟩ := List.mem_map.1 hpath
    exact ((fileIn_of_stands (hloaded.file file hfile)).path s hs).1
  refine ⟨tree, hpaths, ?_, ?_, ?_⟩
  · intro file hfile
    exact fileIn_of_stands ((hloaded.file file hfile).mono (Site.subset_of_build hbuild) (List.Subset.refl _))
  · intro path link hmem
    exact Site.routes_of_build_root hproper hbuild hmem
  -- every block was made for a file or for a directory, and each goes by its own hash
  · have hstart : ∀ block ∈ blocks₁, Addressed H block := by
      refine hloaded.made (P := Addressed H) (by simp) ?_
      intro file hfile built cid tsize hmake
      exact (built_of_fileBlocks (makeFile_eq_ok.1 hmake).2).addressed
    refine Site.made_of_build ?_ hbuild hstart
    intro entries block hnode
    obtain ⟨-, hcid, -⟩ := directoryNode_eq_ok hnode
    exact ⟨nodeCid H block.bytes, admitted_nodeCid _, rfl, hcid⟩

end VayuWeb.Unixfs
