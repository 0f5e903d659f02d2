import VayuWeb.Proof.Determined
import Mathlib.Data.Finset.Max
import VayuWeb.Proof.Imported

/-!
# A published site reads back

The blocks of an import are the source. A directory on the way to a file is *clean* when no name in
it begins with a byte order mark, which the text decoder takes away.

* `descend_route`: through clean directories the segments lead to the file's CID.
* `fetchLevels_built`: a file's blocks give back the file, with a level for its chunks.
* `reads_back_iff`: when every file of a site reads back.
-/

namespace VayuWeb.Fetch

open Bytes Content Trial Unixfs
open Site (bytesOfBlocks)

section

variable {H : ContentHash} {blocks : List Block} {s s' : Unit × Budget}

/-! ## The source -/

/-- A block of the site is answered for its CID. -/
theorem get_of_mem (hinj : Set.InjOn H.sha256 (bytesOfBlocks blocks)) (haddressed : ∀ block ∈ blocks, Addressed H block)
    {block : Block} (hmem : block ∈ blocks) (u : Unit) :
    (blockSourceOf blocks).get block.cid u = (some block.bytes, u) := by
  have hfind : ∃ found, blocks.find? (fun b => b.cid = block.cid) = some found := by
    rw [← Option.isSome_iff_exists, List.find?_isSome]
    exact ⟨block, hmem, by simp⟩
  obtain ⟨found, hfound⟩ := hfind
  have hcid : found.cid = block.cid := by simpa using List.find?_some hfound
  have hfoundMem := List.mem_of_find?_eq_some hfound
  obtain ⟨c, hc, hdigest, htext⟩ := haddressed block hmem
  obtain ⟨c', hc', hdigest', htext'⟩ := haddressed found hfoundMem
  have hsame : c' = c := textOf_injective hc' hc (by rw [← htext', hcid, htext])
  have hbytes : found.bytes = block.bytes := by
    apply hinj ⟨found, hfoundMem, rfl⟩ ⟨block, hmem, rfl⟩
    rw [← hdigest', ← hdigest, hsame]
  unfold blockSourceOf
  simp only [hfound, Option.map_some, hbytes]

/-- The state after so many blocks and bytes. -/
def spent (s : Unit × Budget) (n m : ℕ) : Unit × Budget := (s.1, { blocks := s.2.blocks + n, bytes := s.2.bytes + m })

theorem spent_spent (n m n' m' : ℕ) : spent (spent s n m) n' m' = spent s (n + n') (m + m') := by
  unfold spent
  simp only [Nat.add_assoc]

/-- What is asked of the blocks themselves. -/
structure Holds (H : ContentHash) (blocks : List Block) : Prop where
  injOn : Set.InjOn H.sha256 (bytesOfBlocks blocks)
  addressed : ∀ block ∈ blocks, Addressed H block
  size : ∀ block ∈ blocks, block.bytes.length ≤ blockBytesLimit

/-- A block of the site is fetched while the budget lasts. -/
theorem fetchVerified_of_mem (hholds : Holds H blocks) {block : Block} (hmem : block ∈ blocks)
    (hbudget : s.2.blocks + 1 ≤ blocksLimit) :
    outcome (fetchVerified H (blockSourceOf blocks) block.cid) s = (.ok block.bytes, spent s 1 0) := by
  have hget := get_of_mem hholds.injOn hholds.addressed hmem s.1
  obtain ⟨c, hc, hdigest, htext⟩ := hholds.addressed block hmem
  rw [fetchVerified_eq_ok]
  refine ⟨hbudget, by rw [hget], hholds.size block hmem, ⟨c, ?_, hdigest.symm⟩, ?_⟩
  · rw [htext, decodeCid_textOf hc]
  · unfold asked spent
    rw [hget]
    rfl

/-- What is fetched for a CID of the site is its block. -/
theorem fetched_bytes (hholds : Holds H blocks) {block : Block} (hmem : block ∈ blocks) {bytes : Bytes}
    (h : outcome (fetchVerified H (blockSourceOf blocks) block.cid) s = (.ok bytes, s')) :
    bytes = block.bytes ∧ s' = spent s 1 0 := by
  obtain ⟨hbudget, -⟩ := fetchVerified_eq_ok.1 h
  rw [fetchVerified_of_mem hholds hmem hbudget, Prod.mk.injEq, Except.ok.injEq] at h
  exact ⟨h.1.symm, h.2.symm⟩

/-! ## Directories -/

/-- A name begins with a byte order mark. -/
def Marked (name : String) : Prop := name.toList.head? = some '\uFEFF'

instance (name : String) : Decidable (Marked name) := inferInstanceAs (Decidable (name.toList.head? = some '\uFEFF'))

theorem stripped_of_not_marked {name : String} (h : ¬ Marked name) : TextDecoder.stripped name = name := if_neg h

theorem ofList_of_stripped {name text : String} (hmarked : Marked name) (h : TextDecoder.stripped name = text) :
    name = String.ofList ('\uFEFF' :: text.toList) := by
  rw [TextDecoder.stripped, if_pos (show name.toList.head? = some '\uFEFF' from hmarked)] at h
  rw [← h, String.toList_ofList]
  exact TextDecoder.ofList_tail hmarked

/-- A directory's node as the decoder gives it. -/
def directoryRead (entries : List Link) : DecodedNode where
  links := (entries.insertionSort nameLe).map readLink
  type := typeDirectory
  filesize := 0
  blocksizes := []

/-- A directory of the site is read back. -/
theorem decodeNode_of_directoryNode {entries : List Link} {block : Block} (h : directoryNode H entries = .ok block)
    (hcount : entries.length ≤ linksPerNodeLimit) : decodeNode block.bytes = .ok (directoryRead entries) := by
  obtain ⟨-, -, data, hdata, hbytes⟩ := directoryNode_eq_ok h
  exact decodeNode_directory hdata hbytes (by rw [List.length_insertionSort]; exact hcount)

theorem codec_of_directoryNode {entries : List Link} {block : Block} (h : directoryNode H entries = .ok block) :
    decodeCid block.cid = .ok (nodeCid H block.bytes) := by
  obtain ⟨-, hcid, -⟩ := directoryNode_eq_ok h
  rw [hcid, decodeCid_textOf (admitted_nodeCid _)]

/-- The links that the decoder finds under a name, in terms of the entries. -/
theorem filter_readLink (entries : List Link) (segment : String) :
    (entries.map readLink).filter (fun link => link.name = segment) =
      (entries.filter fun e => TextDecoder.stripped e.name = segment).map readLink := by
  rw [List.filter_map]
  rfl

/-- In a clean directory an entry is found under its name. -/
theorem entryOf_clean {entries : List Link} {block : Block} (h : directoryNode H entries = .ok block)
    (hclean : ∀ e ∈ entries, ¬ Marked e.name) {e : Link} (he : e ∈ entries) (cid : String) :
    entryOf cid e.name (directoryRead entries) = .ok (canonical e.cid) := by
  obtain ⟨hnodup, -⟩ := directoryNode_eq_ok h
  have hperm := List.perm_insertionSort nameLe entries
  have hnodup' : ((entries.insertionSort nameLe).map (·.name)).Nodup := (hperm.map _).nodup_iff.2 hnodup
  have hfilter : (entries.insertionSort nameLe).filter (fun x => TextDecoder.stripped x.name = e.name) = [e] := by
    rw [← OrdMap.filter_eq_singleton hnodup' (hperm.mem_iff.2 he)]
    apply List.filter_congr
    intro x hx
    rw [stripped_of_not_marked (hclean x (hperm.mem_iff.1 hx))]
  rw [entryOf_eq_ok]
  refine ⟨rfl, readLink e, ?_, rfl⟩
  rw [directoryRead, filter_readLink, hfilter, List.map_singleton]

/-- A name that begins with a mark is not found, unless another entry has one mark more. -/
theorem entryOf_marked {entries : List Link} {segment cid next : String} (hmarked : Marked segment)
    (h : entryOf cid segment (directoryRead entries) = .ok next) :
    ∃ e ∈ entries, e.name = String.ofList ('\uFEFF' :: segment.toList) := by
  obtain ⟨-, link, hlink, -⟩ := entryOf_eq_ok.1 h
  rw [directoryRead, filter_readLink] at hlink
  obtain ⟨e, he, -⟩ : ∃ e ∈ (entries.insertionSort nameLe).filter (fun e => TextDecoder.stripped e.name = segment),
      readLink e = link := by
    rw [← List.mem_map, hlink]
    exact List.mem_singleton_self _
  obtain ⟨hmem, hstripped⟩ := List.mem_filter.1 he
  rw [decide_eq_true_iff] at hstripped
  refine ⟨e, (List.mem_insertionSort nameLe).1 hmem, ?_⟩
  by_cases hname : Marked e.name
  · exact ofList_of_stripped hname hstripped
  · rw [stripped_of_not_marked hname] at hstripped
    rw [hstripped] at hname
    exact absurd hmarked hname

/-! ## Paths -/

section Paths

variable {tree : Site.Tree String}

/-- So many names at most in a directory of the site. -/
def Narrow (tree : Site.Tree String) : Prop := ∀ dir, (Site.names (tree.map (·.1)) dir).length ≤ linksPerNodeLimit

/-- No name in the directories along the segments begins with a mark. -/
def Clean (tree : Site.Tree String) (dir segments : List String) : Prop :=
  ∀ k < segments.length, ∀ name, Site.Child tree (dir ++ segments.take k) name → ¬ Marked name

/-- A clean path has no marked name beside it. -/
theorem Clean.head {dir segments : List String} {segment name : String} (h : Clean tree dir (segment :: segments))
    (hname : Site.Child tree dir name) : ¬ Marked name := by
  apply h 0 (Nat.succ_pos _)
  rw [List.take_zero, List.append_nil]
  exact hname

/-- Below its first segment a clean path is clean. -/
theorem Clean.tail {dir segments : List String} {segment : String} (h : Clean tree dir (segment :: segments)) :
    Clean tree (dir ++ [segment]) segments := by
  intro k hk name hname
  apply h (k + 1) (Nat.succ_lt_succ hk)
  rwa [List.take_succ_cons, ← List.singleton_append, ← List.append_assoc]

/-- A clean path goes on clean where no name below is marked. -/
theorem Clean.concat {segments : List String} {segment : String} (h : Clean tree [] segments)
    (hlast : ∀ name, Site.Child tree segments name → ¬ Marked name) : Clean tree [] (segments ++ [segment]) := by
  intro k hk name hname
  rw [List.length_append, List.length_singleton] at hk
  rw [List.take_append_of_le_length (by omega)] at hname
  by_cases hlt : k < segments.length
  · exact h k hlt name hname
  · rw [List.take_of_length_le (by omega), List.nil_append] at hname
    exact hlast name hname

/-- One directory on the way: where its node leads. -/
theorem descend_step (hholds : Holds H blocks) (hnarrow : Narrow tree) {dir : List String} {entries : List Link}
    {block : Block} (hnode : directoryNode H entries = .ok block) (hmem : block ∈ blocks)
    (hnames : Site.Names tree dir entries) {index : ℕ} {segment target : String} {segments : List String} :
    outcome (descend H (blockSourceOf blocks) block.cid index (segment :: segments)) s = (.ok target, s') ↔
      index ≤ depthLimit ∧ s.2.blocks + 1 ≤ blocksLimit ∧
        ∃ next, entryOf block.cid segment (directoryRead entries) = .ok next ∧
          outcome (descend H (blockSourceOf blocks) next (index + 1) segments) (spent s 1 0) = (.ok target, s') := by
  obtain ⟨hnodup, -⟩ := directoryNode_eq_ok hnode
  have hcount : entries.length ≤ linksPerNodeLimit := by
    rw [hnames.length_eq hnodup]
    exact hnarrow dir
  have hread := decodeNode_of_directoryNode hnode hcount
  rw [descend_cons_eq_ok]
  constructor
  · rintro ⟨hindex, bytes, s₁, c, node, next, hfetch, -, -, hdecode, hentry, h⟩
    obtain ⟨rfl, rfl⟩ := fetched_bytes hholds hmem hfetch
    rw [hread, Except.ok.injEq] at hdecode
    rw [← hdecode] at hentry
    exact ⟨hindex, (fetchVerified_eq_ok.1 hfetch).1, next, hentry, h⟩
  · rintro ⟨hindex, hbudget, next, hentry, h⟩
    exact ⟨hindex, block.bytes, spent s 1 0, nodeCid H block.bytes, directoryRead entries, next,
      fetchVerified_of_mem hholds hmem hbudget, codec_of_directoryNode hnode, rfl, hread, hentry, h⟩

/-- A CID that the decoder writes as it stands. -/
def Settled (cid : String) : Prop := canonical cid = cid

/-- The CIDs on a route are written as they stand. -/
theorem settled_of_route (hholds : Holds H blocks) {dir segments : List String} {root target : String}
    (htarget : Settled target) (h : Site.Route (directoryNode H) tree blocks dir segments root target) :
    Settled root := by
  cases segments with
  | nil =>
    rw [← show target = root from h]
    exact htarget
  | cons segment segments =>
    obtain ⟨entries, block, e, -, hmem, rfl, -⟩ := h
    exact (hholds.addressed block hmem).canonical

/-- **Through clean directories the segments lead to the target.** -/
theorem descend_route (hholds : Holds H blocks) (hnarrow : Narrow tree) {dir segments rest : List String}
    {root target cid : String} {index : ℕ} (htarget : Settled target) (hclean : Clean tree dir segments)
    (hroute : Site.Route (directoryNode H) tree blocks dir segments root target)
    (hindex : index + segments.length ≤ depthLimit + 1) (hbudget : s.2.blocks + segments.length ≤ blocksLimit) :
    outcome (descend H (blockSourceOf blocks) root index (segments ++ rest)) s = (.ok cid, s') ↔
      outcome (descend H (blockSourceOf blocks) target (index + segments.length) rest) (spent s segments.length 0) =
        (.ok cid, s') := by
  induction segments generalizing dir root index s with
  | nil =>
    rw [show target = root from hroute]
    rfl
  | cons segment segments ih =>
    obtain ⟨entries, block, e, hnode, hmem, rfl, ⟨hnames, -⟩, he, rfl, hroute⟩ := hroute
    rw [List.length_cons] at hindex hbudget
    -- no name of the directory is one that the gateway treats apart
    have hentries : ∀ e' ∈ entries, ¬ Marked e'.name := by
      intro e' he'
      exact hclean.head ((hnames e'.name).1 (List.mem_map_of_mem he'))
    have hentry := entryOf_clean hnode hentries he block.cid
    rw [show canonical e.cid = e.cid from settled_of_route hholds htarget hroute] at hentry
    have hnext := @ih (spent s 1 0) (dir ++ [e.name]) e.cid (index + 1) hclean.tail hroute (by omega)
      (show s.2.blocks + 1 + segments.length ≤ blocksLimit by omega)
    rw [spent_spent, Nat.add_comm 1, Nat.add_assoc index, Nat.add_comm 1] at hnext
    rw [List.cons_append, descend_step hholds hnarrow hnode hmem hnames, List.length_cons, ← hnext]
    constructor
    · rintro ⟨-, -, next, hentry', h⟩
      rw [hentry, Except.ok.injEq] at hentry'
      rw [hentry']
      exact h
    · intro h
      exact ⟨by omega, by omega, e.cid, hentry, h⟩

end Paths

/-! ## Files -/

/-- A leaf of the site is fetched. -/
theorem fetchLevels_leaf (hholds : Holds H blocks) {bytes : Bytes}
    (hmem : (⟨textOf (rawCid H bytes), bytes⟩ : Block) ∈ blocks)
    (hbudget : s.2.blocks + 1 ≤ blocksLimit) (hbytes : s.2.bytes + bytes.length ≤ resourceBytesLimit) (levels : ℕ) :
    outcome (fetchLevels H (blockSourceOf blocks) (levels + 1) (textOf (rawCid H bytes))) s =
      (.ok bytes, spent s 1 bytes.length) := by
  have hfetch := fetchVerified_of_mem hholds hmem hbudget
  have hspent : (spent s 1 0).2.bytes = s.2.bytes := Nat.add_zero _
  rw [fetchLevels_eq_ok]
  refine ⟨bytes, spent s 1 0, rawCid H bytes, hfetch, decodeCid_textOf (admitted_rawCid bytes), Or.inl
    ⟨rfl, ?_, rfl, ?_⟩⟩
  · rw [hspent]
    exact hbytes
  · unfold spent
    simp only [Nat.add_zero]

/-- The loop over the chunks of a file, each of which is a leaf. -/
theorem mapM_chunks (hholds : Holds H blocks) {pieces : List Bytes}
    (hmem : ∀ piece ∈ pieces, (⟨textOf (rawCid H piece), piece⟩ : Block) ∈ blocks)
    (hbudget : s.2.blocks + pieces.length ≤ blocksLimit)
    (hbytes : s.2.bytes + pieces.flatten.length ≤ resourceBytesLimit) (levels k : ℕ) (cid : String) :
    outcome ((((chunkLinks H pieces).map readLink).zip (pieces.map (·.length))).zipIdx k |>.mapM
      (fetchChunk (fetchLevels H (blockSourceOf blocks) (levels + 1)) cid)) s =
      (.ok pieces, spent s pieces.length pieces.flatten.length) := by
  induction pieces generalizing s k with
  | nil =>
    rw [chunkLinks, List.map_nil, List.map_nil, List.zip_nil_left, List.zipIdx_nil, List.mapM_nil, outcome_pure]
    rfl
  | cons piece pieces ih =>
    rw [List.length_cons] at hbudget
    rw [List.flatten_cons, List.length_append] at hbytes
    have hleaf := @fetchLevels_leaf H blocks s hholds piece (hmem piece List.mem_cons_self) (by omega) (by omega) levels
    have hrest := @ih (spent s 1 piece.length) (fun p hp => hmem p (List.mem_cons_of_mem _ hp))
      (show s.2.blocks + 1 + pieces.length ≤ blocksLimit by omega)
      (show s.2.bytes + piece.length + pieces.flatten.length ≤ resourceBytesLimit by omega) (k + 1)
    rw [spent_spent] at hrest
    have hcanonical : canonical (textOf (rawCid H piece)) = textOf (rawCid H piece) :=
      canonical_textOf (admitted_rawCid piece)
    rw [chunkLinks, List.map_cons, List.map_cons, List.map_cons, List.zip_cons_cons, List.zipIdx_cons, mapM_cons_eq_ok]
    refine ⟨piece, spent s 1 piece.length, pieces, fetchChunk_eq_ok.2 ⟨?_, rfl⟩, ?_, rfl⟩
    · rw [readLink, hcanonical]
      exact hleaf
    · rw [List.length_cons, List.flatten_cons, List.length_append, Nat.add_comm pieces.length]
      exact hrest

/-- A file node as the decoder gives it. -/
def fileRead (H : ContentHash) (pieces : List Bytes) : DecodedNode where
  links := (chunkLinks H pieces).map readLink
  type := typeFile
  filesize := (pieces.map (·.length)).sum
  blocksizes := pieces.map (·.length)

/-- How many pieces a file has within the resource's bound. -/
theorem length_pieces_le {content : Bytes} (h : content.length ≤ resourceBytesLimit) :
    (Chunks.split chunkBytes content.length content).length ≤ 1024 := by
  have hbound : resourceBytesLimit = 1024 * chunkBytes := by decide
  rw [Chunks.length_split_le chunkBytes_pos (Nat.le_refl _), ← hbound]
  exact h

/-- A file's node passes the check. -/
theorem checkFile_fileRead (cid : String) (pieces : List Bytes) : checkFile cid (fileRead H pieces) = .ok () := by
  rw [checkFile_eq_ok]
  refine ⟨rfl, ?_⟩
  rw [fileRead, List.length_map, List.length_map, chunkLinks, List.length_map]

/-- The chunks of a file add up. -/
theorem checkTotal_fileRead (cid : String) (pieces : List Bytes) :
    checkTotal cid (fileRead H pieces) pieces.flatten = .ok () := by
  rw [checkTotal, if_neg]
  rw [not_not, List.length_flatten]
  rfl

/-- A node over chunks needs a level for them. -/
theorem chunks_at_no_level {pieces : List Bytes} (hpieces : pieces ≠ []) {cid : String} {parts : List Bytes} :
    outcome (((fileRead H pieces).links.zip (fileRead H pieces).blocksizes).zipIdx.mapM
      (fetchChunk (fetchLevels H (blockSourceOf blocks) 0) cid)) s ≠ (.ok parts, s') := by
  obtain ⟨piece, pieces, rfl⟩ := List.exists_cons_of_ne_nil hpieces
  intro h
  rw [fileRead, chunkLinks, List.map_cons, List.map_cons, List.map_cons, List.zip_cons_cons, List.zipIdx_cons,
    mapM_cons_eq_ok] at h
  obtain ⟨part, s₁, rest, hpart, -⟩ := h
  obtain ⟨hfetch, -⟩ := fetchChunk_eq_ok.1 hpart
  rw [fetchLevels, outcome_throw] at hfetch
  simp at hfetch

/-- **A file's blocks give back the file**, with a level for its chunks. -/
theorem fetchLevels_built (hholds : Holds H blocks) {content : Bytes} {built : List Block} {cid : String}
    (hbuilt : Built H content built cid) (hsub : built ⊆ blocks) (hsize : content.length ≤ resourceBytesLimit)
    (hblocks : s.2.blocks + 1025 ≤ blocksLimit) (hbytes : s.2.bytes = 0) (levels : ℕ) :
    (outcome (fetchLevels H (blockSourceOf blocks) (levels + 1) cid) s).1 = .ok content ↔
      (content.length ≤ chunkBytes ∨ levels ≠ 0) := by
  have hwithin : s.2.bytes + content.length ≤ resourceBytesLimit := by
    rw [hbytes, Nat.zero_add]
    exact hsize
  -- a leaf is read at any depth, a file of pieces needs one level more
  cases hbuilt with
  | leaf hcid hle hbuilt =>
    have hmem : (⟨textOf (rawCid H content), content⟩ : Block) ∈ blocks := by
      apply hsub
      rw [hbuilt, hcid]
      exact List.mem_singleton_self _
    rw [hcid, fetchLevels_leaf hholds hmem (by omega) hwithin]
    simp [hle]
  | node pieces data bytes hcid hgt hpieces hdata hnode hbuilt =>
    have hcount : pieces.length ≤ 1024 := by
      rw [hpieces]
      exact length_pieces_le hsize
    have hflatten : pieces.flatten = content := by
      rw [hpieces]
      exact Chunks.flatten_split chunkBytes_pos (Nat.le_refl _)
    have hlimit : (1024 : ℕ) ≤ linksPerNodeLimit := by decide
    have hdecode : decodeNode bytes = .ok (fileRead H pieces) :=
      decodeNode_file hdata hnode (by rw [chunkLinks, List.length_map]; omega)
    have hmem : (⟨cid, bytes⟩ : Block) ∈ blocks := by
      apply hsub
      rw [hbuilt]
      exact List.mem_append_right _ (List.mem_singleton_self _)
    have hleaves : ∀ piece ∈ pieces, (⟨textOf (rawCid H piece), piece⟩ : Block) ∈ blocks := by
      intro piece hpiece
      apply hsub
      rw [hbuilt]
      exact List.mem_append_left _ (List.mem_map.2 ⟨piece, hpiece, rfl⟩)
    have hc : decodeCid cid = .ok (nodeCid H bytes) := by
      rw [hcid, decodeCid_textOf (admitted_nodeCid bytes)]
    have hcodec : codecDagPb ≠ codecRaw := by decide
    have hraw : (nodeCid H bytes).codec ≠ codecRaw := hcodec
    have hbudget : s.2.blocks + 1 ≤ blocksLimit := by omega
    have hfetch := fetchVerified_of_mem hholds hmem hbudget
    have hlong : ¬ content.length ≤ chunkBytes := Nat.not_le.2 hgt
    -- with no level left the pieces would have to be read at level 0, and there is at least one
    cases levels with
    | zero =>
      simp only [hlong, ne_eq, not_true_eq_false, or_self, iff_false]
      intro h
      have hrun : outcome (fetchLevels H (blockSourceOf blocks) (0 + 1) cid) s =
          (.ok content, (outcome (fetchLevels H (blockSourceOf blocks) (0 + 1) cid) s).2) := Prod.ext h rfl
      obtain ⟨bytes', s₁, c, hfetch', hc', h⟩ := fetchLevels_eq_ok.1 hrun
      rw [hfetch, Prod.mk.injEq, Except.ok.injEq] at hfetch'
      rw [hc, Except.ok.injEq] at hc'
      rcases h with ⟨hraw', -⟩ | ⟨-, node, parts, hdecode', -, hparts, -⟩
      · rw [← hc'] at hraw'
        exact hraw hraw'
      · rw [← hfetch'.1, hdecode, Except.ok.injEq] at hdecode'
        rw [← hdecode'] at hparts
        have hne : pieces ≠ [] := by
          rintro rfl
          rw [← hflatten, List.flatten_nil] at hgt
          exact Nat.not_lt_zero _ hgt
        exact chunks_at_no_level hne hparts
    | succ levels =>
      simp only [hlong, ne_eq, Nat.succ_ne_zero, not_false_eq_true, or_true, iff_true]
      have hparts := @mapM_chunks H blocks (spent s 1 0) hholds pieces hleaves
        (show s.2.blocks + 1 + pieces.length ≤ blocksLimit by omega)
        (by rw [hflatten]; exact hwithin) levels 0 cid
      have hrun : outcome (fetchLevels H (blockSourceOf blocks) (levels + 1 + 1) cid) s =
          (.ok content, spent (spent s 1 0) pieces.length pieces.flatten.length) := by
        rw [fetchLevels_eq_ok]
        refine ⟨bytes, spent s 1 0, nodeCid H bytes, hfetch, hc, Or.inr ⟨hraw, fileRead H pieces, pieces, hdecode,
          checkFile_fileRead cid pieces, hparts, checkTotal_fileRead cid pieces, hflatten.symm⟩⟩
      rw [hrun]

/-! ## Sites -/

section Sites

variable {files : List SiteFile} {root : String} {tree : Site.Tree String}

/-- The bounds of a traversal, asked of an import: no two blocks of one digest, blocks and
directories of a size that is fetched, and no path or file beyond the limits. -/
structure Within (H : ContentHash) (files : List SiteFile) (blocks : List Block) : Prop where
  paths : (files.map (·.path)).Nodup
  injOn : Set.InjOn H.sha256 (bytesOfBlocks blocks)
  size : ∀ block ∈ blocks, block.bytes.length ≤ blockBytesLimit
  links : ∀ dir, (Site.names (files.map (·.path)) dir).length ≤ linksPerNodeLimit
  depth : ∀ file ∈ files, (Path.split file.path).length ≤ depthLimit
  resource : ∀ file ∈ files, file.content.length ≤ resourceBytesLimit

/-- The segments of a path that can be imported. -/
theorem segmentsOf_eq {path : String} (h : ∀ part ∈ Path.split path, part ≠ "" ∧ part ≠ "." ∧ part ≠ "..") :
    segmentsOf path = Path.split path := by
  rw [segmentsOf, List.filter_eq_self]
  intro part hpart
  rw [decide_eq_true_iff]
  exact (h part hpart).1

/-- A path without relative segments is descended, and what it leads to is fetched. -/
theorem fetchPath_eq_ok {σ : Type} {source : BlockSource σ} {path : String} {u : σ} {content : Bytes}
    (h : ∀ part ∈ Path.split path, part ≠ "" ∧ part ≠ "." ∧ part ≠ "..") :
    (fetchPath H source root path u).1 = .ok content ↔
      ∃ cid s₁, outcome (descend H source root 0 (Path.split path)) (u, .fresh) = (.ok cid, s₁) ∧
        (outcome (fetchFile H source cid (Path.split path).length) s₁).1 = .ok content := by
  have hchecks : (Path.split path).forM checkSegment = .ok () := by
    rw [Except.forM_eq_ok]
    intro part hpart
    obtain ⟨-, hdot, hdots⟩ := h part hpart
    rw [checkSegment, if_neg (not_or.2 ⟨hdot, hdots⟩)]
  rw [fetchPath_eq, segmentsOf_eq h]
  constructor
  · intro hrun
    obtain ⟨_, s₀, hcheck, hrun⟩ := bind_eq_ok.1 (Prod.ext hrun rfl)
    obtain ⟨-, rfl⟩ := offline_eq_ok.1 hcheck
    obtain ⟨cid, s₁, hdescend, hfile⟩ := bind_eq_ok.1 hrun
    exact ⟨cid, s₁, hdescend, by rw [hfile]⟩
  · rintro ⟨cid, s₁, hdescend, hfile⟩
    rw [bind_of_ok (offline_eq_ok.2 ⟨hchecks, rfl⟩), bind_of_ok hdescend]
    exact hfile

variable (himport : Imported H files blocks root tree) (hwithin : Within H files blocks)

include himport hwithin

theorem holds_of_within : Holds H blocks := ⟨hwithin.injOn, himport.addressed, hwithin.size⟩

theorem narrow_of_within : Narrow tree := by
  intro dir
  rw [himport.paths]
  exact hwithin.links dir

/-- A file whose directories are clean reads back, unless its chunks stand one level too deep. -/
theorem fetchPath_clean {file : SiteFile} (hfile : file ∈ files) (hclean : Clean tree [] (Path.split file.path)) :
    (fetchPath H (blockSourceOf blocks) root file.path ()).1 = .ok file.content ↔
      (file.content.length ≤ chunkBytes ∨ (Path.split file.path).length ≠ depthLimit) := by
  have hholds := holds_of_within himport hwithin
  have hfileIn := himport.file file hfile
  obtain ⟨built, cid, tsize, hbuilt, hsub, hmem⟩ := hfileIn.built
  have hdepth := hwithin.depth file hfile
  have hlimits : depthLimit = 32 ∧ blocksLimit = 4096 := ⟨rfl, rfl⟩
  have hsettled : Settled cid := by
    cases hbuilt with
    | leaf hcid =>
      rw [Settled, hcid, canonical_textOf (admitted_rawCid _)]
    | node pieces data bytes hcid =>
      rw [Settled, hcid, canonical_textOf (admitted_nodeCid _)]
  have hroute := himport.route file.path _ hmem
  -- the path of a clean file leads to its block and nowhere else
  have hdescend : ∀ {target s₁}, outcome (descend H (blockSourceOf blocks) root 0 (Path.split file.path)) ((), .fresh) =
      (.ok target, s₁) ↔ target = cid ∧ s₁ = spent ((), .fresh) (Path.split file.path).length 0 := by
    intro target s₁
    have hstep := @descend_route H blocks ((), .fresh) s₁ tree hholds (narrow_of_within himport hwithin) []
      (Path.split file.path) [] root cid target 0 hsettled hclean hroute (by omega)
      (show 0 + (Path.split file.path).length ≤ blocksLimit by omega)
    rw [List.append_nil] at hstep
    rw [hstep, descend, outcome_pure, Prod.mk.injEq, Except.ok.injEq]
    exact and_congr eq_comm eq_comm
  -- what depth the path leaves is what the file's own levels may use
  have hlevels : depthLimit + 1 - (Path.split file.path).length = depthLimit - (Path.split file.path).length + 1 := by
    omega
  have hfetch := fetchLevels_built hholds hbuilt hsub (hwithin.resource file hfile)
    (show (spent ((), Budget.fresh) (Path.split file.path).length 0).2.blocks + 1025 ≤ blocksLimit by
      have hspent : (spent ((), Budget.fresh) (Path.split file.path).length 0).2.blocks =
          (Path.split file.path).length :=
        Nat.zero_add _
      omega) rfl (depthLimit - (Path.split file.path).length)
  rw [fetchPath_eq_ok hfileIn.path]
  have hcond : depthLimit - (Path.split file.path).length ≠ 0 ↔ (Path.split file.path).length ≠ depthLimit := by
    omega
  rw [← hcond, ← hfetch]
  constructor
  · rintro ⟨target, s₁, hrun, hcontent⟩
    obtain ⟨rfl, rfl⟩ := hdescend.1 hrun
    rw [fetchFile, hlevels] at hcontent
    exact hcontent
  · intro hcontent
    refine ⟨cid, _, hdescend.2 ⟨rfl, rfl⟩, ?_⟩
    rw [fetchFile, hlevels]
    exact hcontent

/-- Where every file reads back, no directory along clean ones has a marked name. -/
theorem not_marked_of_reads
    (hreads : ∀ file ∈ files, (fetchPath H (blockSourceOf blocks) root file.path ()).1 = .ok file.content)
    {dir : List String} (hclean : Clean tree [] dir) (hdir : dir.length ≤ depthLimit) {name : String}
    (hchild : Site.Child tree dir name) : ¬ Marked name := by
  intro hmarked
  have hholds := holds_of_within himport hwithin
  -- the longest marked name of the directory
  obtain ⟨longest, hlongest, hmax⟩ : ∃ n ∈ ((Site.names (tree.map (·.1)) dir).filter (fun n => Marked n)).toFinset,
      ∀ m ∈ ((Site.names (tree.map (·.1)) dir).filter (fun n => Marked n)).toFinset, m.toList.length ≤
        n.toList.length := by
    apply Finset.exists_max_image
    refine ⟨name, ?_⟩
    rw [List.mem_toFinset, List.mem_filter]
    exact ⟨Site.mem_names.2 hchild, by simpa using hmarked⟩
  rw [List.mem_toFinset, List.mem_filter] at hlongest
  obtain ⟨hin, hlongestMarked⟩ := hlongest
  rw [decide_eq_true_iff] at hlongestMarked
  obtain ⟨path, link, rest, hmem, hsplit⟩ := Site.mem_names.1 hin
  have hpath : path ∈ files.map (·.path) := by
    rw [← himport.paths]
    exact List.mem_map_of_mem hmem
  obtain ⟨file, hfile, rfl⟩ := List.mem_map.1 hpath
  have hroute := himport.route file.path link hmem
  rw [hsplit] at hroute
  obtain ⟨mid, hbefore, hafter⟩ := hroute.split
  obtain ⟨entries, block, e, hnode, hblock, rfl, ⟨hnames, -⟩, -⟩ := hafter
  rw [List.nil_append] at hnames
  have hlimits : depthLimit = 32 ∧ blocksLimit = 4096 := ⟨rfl, rfl⟩
  obtain ⟨cid, s₁, hrun, -⟩ := (fetchPath_eq_ok (himport.file file hfile).path).1 (hreads file hfile)
  have hstep := @descend_route H blocks ((), .fresh) s₁ tree hholds (narrow_of_within himport hwithin) [] dir
    (longest :: rest) root block.cid cid 0 (hholds.addressed block hblock).canonical hclean hbefore (by omega)
    (show 0 + dir.length ≤ blocksLimit by omega)
  rw [hsplit, hstep, descend_step hholds (narrow_of_within himport hwithin) hnode hblock hnames] at hrun
  obtain ⟨-, -, next, hentry, -⟩ := hrun
  obtain ⟨e', he', hname⟩ := entryOf_marked hlongestMarked hentry
  have hlonger := hmax e'.name (by
    rw [List.mem_toFinset, List.mem_filter, decide_eq_true_iff]
    refine ⟨Site.mem_names.2 ((hnames e'.name).1 (List.mem_map_of_mem he')), ?_⟩
    rw [Marked, hname, String.toList_ofList]
    rfl)
  rw [hname, String.toList_ofList, List.length_cons] at hlonger
  omega

/-- Where every file reads back, the directories along any segments are clean. -/
theorem clean_of_reads
    (hreads : ∀ file ∈ files, (fetchPath H (blockSourceOf blocks) root file.path ()).1 = .ok file.content)
    (dir : List String) (hdir : dir.length ≤ depthLimit) : Clean tree [] dir := by
  induction dir using List.reverseRecOn with
  | nil =>
    intro k hk
    exact absurd hk (Nat.not_lt_zero k)
  | append_singleton dir segment ih =>
    rw [List.length_append, List.length_singleton] at hdir
    have hbefore := ih (by omega)
    apply hbefore.concat
    intro name hname
    exact not_marked_of_reads himport hwithin hreads hbefore (by omega) hname

omit hwithin in
/-- Without marked segments everything is clean. -/
theorem clean_of_not_marked (h : ∀ file ∈ files, ∀ segment ∈ Path.split file.path, ¬ Marked segment)
    (dir segments : List String) : Clean tree dir segments := by
  rintro k - name ⟨path, link, rest, hmem, hsplit⟩
  have hpath : path ∈ files.map (·.path) := by
    rw [← himport.paths]
    exact List.mem_map_of_mem hmem
  obtain ⟨file, hfile, rfl⟩ := List.mem_map.1 hpath
  apply h file hfile
  rw [hsplit]
  exact List.mem_append_right _ List.mem_cons_self

end Sites

/-- **When a published site reads back**: no segment of a path begins with a byte order mark, and no
file of several chunks stands at the depth limit, where `fetchFile` has no level left for them. -/
theorem reads_back_iff {files : List SiteFile} {root : String} (himport : importSite H files = .ok (blocks, root))
    (hwithin : Within H files blocks) :
    (∀ file ∈ files, (fetchPath H (blockSourceOf blocks) root file.path ()).1 = .ok file.content) ↔
      (∀ file ∈ files, ∀ segment ∈ Path.split file.path, ¬ Marked segment) ∧
        ∀ file ∈ files, file.content.length ≤ chunkBytes ∨ (Path.split file.path).length ≠ depthLimit := by
  obtain ⟨tree, htree⟩ := imported_of_importSite himport hwithin.paths
  constructor
  · intro hreads
    refine ⟨?_, ?_⟩
    · intro file hfile segment hsegment
      have hdepth := hwithin.depth file hfile
      obtain ⟨built, cid, tsize, -, -, hmem⟩ := (htree.file file hfile).built
      obtain ⟨before, after, hsplit⟩ := List.append_of_mem hsegment
      have hlength : before.length ≤ depthLimit := by
        rw [hsplit, List.length_append] at hdepth
        omega
      have hclean := clean_of_reads htree hwithin hreads before hlength
      exact not_marked_of_reads htree hwithin hreads hclean hlength ⟨file.path, _, after, hmem, hsplit⟩
    · intro file hfile
      have hclean := clean_of_reads htree hwithin hreads _ (hwithin.depth file hfile)
      exact (fetchPath_clean htree hwithin hfile hclean).1 (hreads file hfile)
  · rintro ⟨hmarks, hlevels⟩ file hfile
    have hclean := clean_of_not_marked htree hmarks [] (Path.split file.path)
    exact (fetchPath_clean htree hwithin hfile hclean).2 (hlevels file hfile)

end

open TwoFiles in
theorem within_two_files : Within hash [⟨"a", first⟩, ⟨"d/b", second⟩] TwoFiles.blocks where
  paths := by decide
  injOn := Site.injOn_blocks (fun block hblock => List.mem_map_of_mem hblock) (by decide +kernel)
  size := by decide +kernel
  links dir := (Site.length_names_le _ dir).trans (by decide)
  depth := by decide +kernel
  resource := by decide +kernel

open TwoFiles in
/-- A site of two files, one of them in a directory, reads back. -/
theorem reads_back_two_files :
    (fetchPath hash (blockSourceOf TwoFiles.blocks) rootCid "a" ()).1 = .ok first ∧
      (fetchPath hash (blockSourceOf TwoFiles.blocks) rootCid "d/b" ()).1 = .ok second := by
  have himport : importSite hash [⟨"a", first⟩, ⟨"d/b", second⟩] = .ok (TwoFiles.blocks, rootCid) := by decide +kernel
  have hreads := (reads_back_iff himport within_two_files).2 ⟨by decide +kernel, by decide +kernel⟩
  exact ⟨hreads ⟨"a", first⟩ List.mem_cons_self, hreads ⟨"d/b", second⟩ (List.mem_cons_of_mem _ List.mem_cons_self)⟩

namespace MarkedFile

/-- The root over one file whose name begins with a byte order mark. -/
def rootBlock : Bytes :=
  [0x12, 0x2e, 0x0a, 0x24, 0x01, 0x55, 0x12, 0x20, 0x8f, 0x43, 0x43, 0x46, 0x64, 0x8f, 0x6b, 0x96,
   0xdf, 0x89, 0xdd, 0xa9, 0x01, 0xc5, 0x17, 0x6b, 0x10, 0xa6, 0xd8, 0x39, 0x61, 0xdd, 0x3c, 0x1a,
   0xc8, 0x8b, 0x59, 0xb2, 0xdc, 0x32, 0x7a, 0xa4, 0x12, 0x04, 0xef, 0xbb, 0xbf, 0x61, 0x18, 0x02,
   0x0a, 0x02, 0x08, 0x01]

/-- The CID of the directory. -/
def rootCid : String := "bafybeiapinxrgrnugquajcwtpcass3hftue25yelyj2jxuhvlwc74rt4vi"

/-- The digest of the directory. -/
def rootDigest : Digest :=
  ⟨[0x0f, 0x43, 0x6f, 0x13, 0x45, 0xb4, 0x34, 0x28, 0x04, 0x8a, 0xd3, 0x78, 0x81, 0x29, 0x6c, 0xe5,
    0x9d, 0x09, 0xae, 0xe0, 0x8b, 0xc2, 0x74, 0x9b, 0xd0, 0xf5, 0x5d, 0x85, 0xfe, 0x46, 0x7c, 0xaa], by decide⟩

/-- SHA-256 on the two blocks. -/
def hash : ContentHash where
  sha256 bytes := if bytes = OneFile.leafBlock then OneFile.leafDigest else rootDigest

/-- The blocks of the site. -/
def blocks : List Unixfs.Block := [⟨OneFile.leafCid, OneFile.leafBlock⟩, ⟨rootCid, rootBlock⟩]

theorem within : Within hash [⟨"\uFEFFa", OneFile.leafBlock⟩] blocks where
  paths := List.nodup_singleton _
  injOn := Site.injOn_blocks (fun block hblock => List.mem_map_of_mem hblock) (by decide)
  size := by decide +kernel
  links dir := (Site.length_names_le _ dir).trans (by decide)
  depth := by decide +kernel
  resource := by decide +kernel

end MarkedFile

open MarkedFile in
/-- A file whose name begins with a byte order mark is published, and does not read back. -/
theorem not_reads_back_marked : ¬ ∀ (H : ContentHash) (files : List SiteFile) (blocks : List Block) (root : String),
    importSite H files = .ok (blocks, root) → Within H files blocks →
      ∀ file ∈ files, (fetchPath H (blockSourceOf blocks) root file.path ()).1 = .ok file.content := by
  intro h
  have himport : importSite hash [⟨"\uFEFFa", OneFile.leafBlock⟩] = .ok (MarkedFile.blocks, MarkedFile.rootCid) := by
    decide +kernel
  have hread := h _ _ _ _ himport within ⟨"\uFEFFa", OneFile.leafBlock⟩ (List.mem_singleton_self _)
  have hmissing : (fetchPath hash (blockSourceOf MarkedFile.blocks) MarkedFile.rootCid "\uFEFFa" ()).1 ≠
      .ok OneFile.leafBlock := by
    decide +kernel
  exact hmissing hread

end VayuWeb.Fetch
