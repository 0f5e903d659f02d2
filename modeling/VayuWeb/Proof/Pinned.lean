import VayuWeb.Proof.ClientImport
import VayuWeb.Proof.ClientStore
import VayuWeb.Proof.Determined

/-!
# A pinned site reads back

The blocks of an import are put into an empty store, and the walker reads the files out of it.

* `descend_route`: the segments lead to the file's CID where no directory on the way is too wide.
* `assembleFile_built`: the depth is enough for a file of a level less chunks.
* `pinned_reads_back_iff`: when a site is pinned and every file of it reads back.
-/

namespace VayuWeb.Client.Dagnode

open Bytes BlockStore Publish
open Site (bytesOfBlocks)

section

variable {H : ContentHash} {disk : Disk} {blocks : List Block} {limits : WalkLimits}

/-- Every block can be read. -/
def Readable (H : ContentHash) (disk : Disk) (blocks : List Block) : Prop :=
  ∀ block ∈ blocks, get H disk block.cid = .ok (some block.bytes)

/-- A block on the disk is read and classified. -/
theorem readNode_of_mem (hreadable : Readable H disk blocks) {block : Block} (hmem : block ∈ blocks) :
    readNode H disk limits block.cid = classify block.cid.codec limits block.bytes := by
  rw [readNode, hreadable block hmem]

theorem length_lt_of_mem (hreadable : Readable H disk blocks) {block : Block} (hmem : block ∈ blocks) :
    block.bytes.length < 2 ^ 64 := by
  have hbound : maxBlockBytes < 2 ^ 64 := by decide
  exact Nat.lt_of_le_of_lt (get_eq_ok_some.1 (hreadable block hmem)).2.1 hbound

/-! ## Directories -/

variable {tree : Site.Tree Cid}

/-- The addresses of the tree's links have the one shape. -/
def LinksAdmitted (tree : Site.Tree Cid) : Prop := ∀ path link, (path, link) ∈ tree → link.cid.Admitted

/-- Every CID the site knows is admitted. -/
theorem admitted_of_known (hlinks : LinksAdmitted tree) (haddressed : ∀ block ∈ blocks, Addressed H block) {cid : Cid}
    (h : Site.Known tree blocks cid) : cid.Admitted := by
  rcases h with ⟨path, link, hmem, rfl⟩ | ⟨block, hblock, rfl⟩
  · exact hlinks path link hmem
  · exact (haddressed block hblock).1

/-- A directory is read as its entries, when these are not too many. -/
theorem readNode_directory (hreadable : Readable H disk blocks) (hlinks : LinksAdmitted tree)
    (haddressed : ∀ block ∈ blocks, Addressed H block) {dir : List String} {entries : List Link} {block : Block}
    (hnode : directoryNode H entries = .ok block) (hmem : block ∈ blocks)
    (hlists : Site.Lists tree blocks dir entries) :
    readNode H disk limits block.cid =
      if (Site.names (tree.map (·.1)) dir).length > limits.maxLinksPerNode then
        .error (.boundExceeded "a directory may carry at most MAX_LINKS entries")
      else .ok (.directory ((entries.insertionSort nameLe).map readEntry)) := by
  obtain ⟨hnodup, hblock⟩ := directoryNode_eq_ok hnode
  have hlength := length_lt_of_mem hreadable hmem
  have hadmitted : ∀ link ∈ entries.insertionSort nameLe, link.cid.Admitted := by
    intro link hlink
    exact admitted_of_known hlinks haddressed (hlists.known link ((List.mem_insertionSort nameLe).1 hlink))
  have hcodec : block.cid.codec = codecDagPb := by rw [hblock]; rfl
  have hbytes : block.bytes = encodePbNode (entries.insertionSort nameLe) Publish.unixfsDirectory := by rw [hblock]; rfl
  rw [hbytes] at hlength
  rw [readNode_of_mem hreadable hmem, hcodec, hbytes, classify_directory hadmitted hlength, List.length_insertionSort,
    hlists.names.length_eq hnodup]

/-- A directory's entry is found by its name. -/
theorem find?_entry {entries : List Link} (hnodup : (entries.map (·.name)).Nodup) {e : Link} (he : e ∈ entries) :
    ((entries.insertionSort nameLe).map readEntry).find? (fun entry => entry.name = e.name) = some (readEntry e) := by
  have hperm := List.perm_insertionSort nameLe entries
  have hnames : ((entries.insertionSort nameLe).map readEntry).map (·.name) =
      (entries.insertionSort nameLe).map (·.name) := by
    rw [List.map_map]
    rfl
  have hsorted : (((entries.insertionSort nameLe).map readEntry).map (·.name)).Nodup := by
    rw [hnames]
    exact (hperm.map _).nodup_iff.2 hnodup
  exact OrdMap.find?_of_nodup hsorted (List.mem_map_of_mem (hperm.mem_iff.2 he))

/-- No directory along the segments is too wide. -/
def Narrow (limits : WalkLimits) (tree : Site.Tree Cid) (dir segments : List String) : Prop :=
  ∀ k < segments.length, (Site.names (tree.map (·.1)) (dir ++ segments.take k)).length ≤ limits.maxLinksPerNode

/-- A path is narrow where each directory on it is. -/
theorem narrow_cons {dir segments : List String} {segment : String} : Narrow limits tree dir (segment :: segments) ↔
    (Site.names (tree.map (·.1)) dir).length ≤ limits.maxLinksPerNode ∧
    Narrow limits tree (dir ++ [segment]) segments := by
  constructor
  · intro h
    refine ⟨?_, ?_⟩
    · have hhead := h 0 (Nat.succ_pos _)
      rwa [List.take_zero, List.append_nil] at hhead
    · intro k hk
      have htail := h (k + 1) (Nat.succ_lt_succ hk)
      rwa [List.take_succ_cons, ← List.singleton_append, ← List.append_assoc] at htail
  · rintro ⟨hhead, htail⟩ k hk
    cases k with
    | zero =>
      rw [List.take_zero, List.append_nil]
      exact hhead
    | succ k =>
      rw [List.take_succ_cons, ← List.singleton_append, ← List.append_assoc]
      exact htail k (Nat.lt_of_succ_lt_succ hk)

/-- **The segments lead to the target**, where no directory on the way is too wide. -/
theorem descend_route (hreadable : Readable H disk blocks) (hlinks : LinksAdmitted tree)
    (haddressed : ∀ block ∈ blocks, Addressed H block) {dir segments : List String} {root target cid : Cid}
    (hroute : Site.Route (directoryNode H) tree blocks dir segments root target) :
    descend H disk limits root segments = .ok cid ↔ Narrow limits tree dir segments ∧ cid = target := by
  induction segments generalizing dir root with
  | nil =>
    have htarget : target = root := hroute
    rw [descend, Except.ok.injEq, htarget, eq_comm]
    simp [Narrow]
  | cons segment segments ih =>
    obtain ⟨entries, block, e, hnode, hmem, rfl, hlists, he, rfl, hroute⟩ := hroute
    have hnodup := (directoryNode_eq_ok hnode).1
    rw [descend, readNode_directory hreadable hlinks haddressed hnode hmem hlists, narrow_cons]
    split_ifs with hwide
    · simp only [Except.error_bind, reduceCtorEq, false_iff, not_and]
      intro hnarrow
      omega
    · have hnarrow := Nat.not_lt.1 hwide
      simp only [Except.ok_bind, find?_entry hnodup he, hnarrow, true_and]
      exact ih hroute

/-! ## Files -/

/-- A leaf on the disk is read. -/
theorem readNode_leaf (hreadable : Readable H disk blocks) {piece : Bytes} (hmem : leafOf H piece ∈ blocks) :
    readNode H disk limits (Cid.rawFromBytes H piece) = .ok (.raw piece) := by
  have hread := @readNode_of_mem H disk blocks limits hreadable _ hmem
  exact hread.trans (if_pos rfl)

/-- A file of one chunk is assembled. -/
theorem assembleFile_leaf (hreadable : Readable H disk blocks) {piece : Bytes} (hmem : leafOf H piece ∈ blocks)
    {left : ℕ} (hleft : 0 < left) (levels : ℕ) :
    assembleFile H disk limits (levels + 1) (Cid.rawFromBytes H piece) left = .ok (piece, left - 1) := by
  rw [assembleFile, if_neg (Nat.pos_iff_ne_zero.1 hleft), readNode_leaf hreadable hmem]
  rfl

/-- One level is spent on each chunk. -/
theorem appendChild_leaf (hreadable : Readable H disk blocks) {piece : Bytes} (hmem : leafOf H piece ∈ blocks)
    {levels left : ℕ} (hlevels : left ≤ levels) {out : Bytes} {state : Bytes × ℕ} :
    appendChild limits (assembleFile H disk limits levels) (out, left) (Cid.rawFromBytes H piece) = .ok state ↔
      0 < left ∧ (out ++ piece).length ≤ limits.maxResourceBytes ∧ state = (out ++ piece, left - 1) := by
  rw [appendChild]
  by_cases hleft : 0 < left
  · obtain ⟨levels, rfl⟩ : ∃ k, levels = k + 1 := ⟨levels - 1, by omega⟩
    simp only [assembleFile_leaf hreadable hmem hleft, Except.ok_bind, hleft, true_and]
    by_cases hlarge : (out ++ piece).length > limits.maxResourceBytes
    · rw [if_pos hlarge]
      constructor
      · intro h
        cases h
      · rintro ⟨hle, -⟩
        omega
    · rw [if_neg hlarge]
      simp only [Except.pure_eq_ok, Except.ok.injEq, Nat.not_lt.1 hlarge, true_and]
      exact eq_comm
  -- with no level left the leaf itself is refused as too deep
  · have hzero : left = 0 := by omega
    have hdeep : assembleFile H disk limits levels (Cid.rawFromBytes H piece) left = .error .tooDeep := by
      rw [hzero]
      cases levels with
      | zero => rfl
      | succ levels => exact if_pos rfl
    rw [hdeep]
    simp [hleft]

/-- The loop over the chunks of a file. -/
theorem foldlM_leaves (hreadable : Readable H disk blocks) {pieces : List Bytes}
    (hmem : ∀ piece ∈ pieces, leafOf H piece ∈ blocks) {levels left : ℕ} (hlevels : left ≤ levels) {out : Bytes}
    {state : Bytes × ℕ} (hsize : (out ++ pieces.flatten).length ≤ limits.maxResourceBytes) :
    (pieces.map (Cid.rawFromBytes H)).foldlM (appendChild limits (assembleFile H disk limits levels)) (out, left) =
        .ok state ↔ pieces.length ≤ left ∧ state = (out ++ pieces.flatten, left - pieces.length) := by
  induction pieces generalizing out left with
  | nil =>
    rw [List.map_nil, List.foldlM_nil, Except.pure_eq_ok, Except.ok.injEq, List.flatten_nil, List.append_nil]
    simp [eq_comm]
  | cons piece pieces ih =>
    rw [List.flatten_cons, ← List.append_assoc] at hsize ⊢
    rw [List.map_cons, List.foldlM_cons, Except.bind_eq_ok, List.length_cons]
    have hstep := fun state₁ => @appendChild_leaf H disk blocks limits hreadable piece (hmem piece List.mem_cons_self)
      levels left hlevels out state₁
    have hrest := fun hle => @ih (fun p hp => hmem p (List.mem_cons_of_mem _ hp)) (left - 1) hle (out ++ piece) hsize
    have hpart : (out ++ piece).length ≤ limits.maxResourceBytes := by
      rw [List.length_append] at hsize
      omega
    -- each leaf uses up one of the levels, which is what limits the number of pieces
    constructor
    · rintro ⟨state₁, hfirst, h⟩
      obtain ⟨hleft, -, rfl⟩ := (hstep state₁).1 hfirst
      obtain ⟨hle, hstate⟩ := (hrest (by omega)).1 h
      refine ⟨by omega, ?_⟩
      rw [hstate, Nat.sub_sub, Nat.add_comm 1]
    · rintro ⟨hle, hstate⟩
      refine ⟨(out ++ piece, left - 1), (hstep _).2 ⟨by omega, hpart, rfl⟩, (hrest (by omega)).2 ⟨by omega, ?_⟩⟩
      rw [hstate, Nat.sub_sub, Nat.add_comm 1]

/-- A file's node on the disk is read. -/
theorem readNode_fileNode (hreadable : Readable H disk blocks) {pieces : List Bytes}
    (hmem : fileNode H pieces ∈ blocks) :
    readNode H disk limits (fileNode H pieces).cid = .ok (.file [] (pieces.map (Cid.rawFromBytes H))) := by
  have hlinks : ∀ link ∈ chunkLinks H pieces, link.cid.Admitted := by
    intro link hlink
    obtain ⟨piece, -, rfl⟩ := List.mem_map.1 hlink
    exact admitted_raw piece
  have hcids : (chunkLinks H pieces).map (·.cid) = pieces.map (Cid.rawFromBytes H) := by
    rw [chunkLinks, List.map_map]
    rfl
  rw [readNode_of_mem hreadable hmem, ← hcids]
  exact classify_file hlinks (length_lt_of_mem hreadable hmem) limits

/-- **The depth is enough for a file of a level less chunks**, when it is not too large. -/
theorem assembleFile_built (hreadable : Readable H disk blocks) {content : Bytes} {built : List Block} {cid : Cid}
    (hbuilt : Built H content built cid) (hsub : built ⊆ blocks) (hsize : content.length ≤ limits.maxResourceBytes)
    {levels : ℕ} (hlevels : 0 < levels) {state : Bytes × ℕ} :
    assembleFile H disk limits levels cid levels = .ok state ↔
      (content.length ≤ chunkBytes ∨ (chunk content).length < levels) ∧ state.1 = content ∧
        state.2 = levels - 1 - if content.length ≤ chunkBytes then 0 else (chunk content).length := by
  obtain ⟨levels, rfl⟩ : ∃ k, levels = k + 1 := ⟨levels - 1, by omega⟩
  cases hbuilt with
  | leaf hle hblocks hcid =>
    have hmem : leafOf H content ∈ blocks := hsub (by rw [hblocks]; exact List.mem_singleton_self _)
    rw [hcid]
    rw [show (leafOf H content).cid = Cid.rawFromBytes H content from rfl, assembleFile_leaf hreadable hmem hlevels,
      Except.ok.injEq, if_pos hle]
    simp only [hle, true_or, true_and, Nat.sub_zero, Prod.ext_iff]
    exact and_congr eq_comm eq_comm
  | node pieces hgt hpieces hflatten hblocks hcid =>
    have hmem : fileNode H pieces ∈ blocks := hsub (by
      rw [hblocks]
      exact List.mem_append_right _ (List.mem_singleton_self _))
    have hleaves : ∀ piece ∈ pieces, leafOf H piece ∈ blocks := by
      intro piece hpiece
      apply hsub
      rw [hblocks]
      exact List.mem_append_left _ (List.mem_map_of_mem hpiece)
    have hlong : ¬ content.length ≤ chunkBytes := Nat.not_le.2 hgt
    have hloop := @foldlM_leaves H disk blocks limits hreadable pieces hleaves levels levels (Nat.le_refl _) [] state
      (by rw [List.nil_append, hflatten]; exact hsize)
    rw [hcid, assembleFile, if_neg (Nat.succ_ne_zero _), readNode_fileNode hreadable hmem, Except.ok_bind, if_neg hlong]
    simp only [hlong, false_or, Nat.add_sub_cancel]
    rw [hloop, List.nil_append, hflatten, ← hpieces, Prod.ext_iff, Nat.lt_succ_iff]

/-! ## Sites -/

variable {files : List SiteFile} {root : Cid}

/-- What `put_all` is given. -/
def items (blocks : List Block) : List (Cid × Bytes) := blocks.map fun block => (block.cid, block.bytes)

/-- Blocks addressed by their content never disagree. -/
theorem consistent_items (hinj : Set.InjOn H.sha256 (bytesOfBlocks blocks))
    (haddressed : ∀ block ∈ blocks, Addressed H block) : Consistent (items blocks) := by
  intro item hitem item' hitem' htext
  obtain ⟨block, hblock, rfl⟩ := List.mem_map.1 hitem
  obtain ⟨block', hblock', rfl⟩ := List.mem_map.1 hitem'
  have hcid : block.cid = block'.cid := toText_injective (haddressed block hblock).1 (haddressed block' hblock').1 htext
  apply hinj ⟨block, hblock, rfl⟩ ⟨block', hblock', rfl⟩
  rw [← (haddressed block hblock).2, ← (haddressed block' hblock').2, hcid]

/-- **Pinning into an empty store succeeds** exactly when every block is small enough, and then
every block can be read. -/
theorem pinned (hinj : Set.InjOn H.sha256 (bytesOfBlocks blocks)) (haddressed : ∀ block ∈ blocks, Addressed H block) :
    (∀ block ∈ blocks, block.bytes.length ≤ maxBlockBytes) ↔
      ∃ written disk, putAll H (fun _ => .done) Disk.empty (items blocks) = (.ok written, disk) ∧
        Readable H disk blocks := by
  have hconsistent := consistent_items hinj haddressed
  constructor
  · intro hsize
    obtain ⟨written, disk, hput⟩ := @putAll_succeeds H (fun _ => .done) Disk.empty (items blocks) (fun _ => rfl) (by
      intro item hitem
      obtain ⟨block, hblock, rfl⟩ := List.mem_map.1 hitem
      exact ⟨hsize block hblock, (haddressed block hblock).2.symm⟩)
    refine ⟨written, disk, hput, ?_⟩
    intro block hblock
    obtain ⟨hfile, hle⟩ := putAll_eq_ok hconsistent hput (List.mem_map_of_mem hblock) rfl
    exact get_eq_ok_some.2 ⟨hfile, hle, (haddressed block hblock).2.symm⟩
  · rintro ⟨written, disk, hput, -⟩ block hblock
    exact (putAll_eq_ok hconsistent hput (List.mem_map_of_mem hblock) rfl).2

/-- A file reads back where no directory on its path is too wide and its chunks fit the depth. -/
theorem readPath_file {tree : Site.Tree Cid} (himported : Imported H files blocks root tree)
    (hreadable : Readable H disk blocks) {file : SiteFile} (hfile : file ∈ files)
    (hsize : file.content.length ≤ WalkLimits.standard.maxResourceBytes) :
    readPath H disk .standard root (Path.split file.path) = .ok file.content ↔
      Narrow .standard tree [] (Path.split file.path) ∧ file.content.length ≤ 31 * chunkBytes := by
  obtain ⟨built, cid, tsize, hbuilt, hsub, hmem⟩ := himported.file file hfile
  have hdescend := fun {target} => @descend_route H disk blocks .standard tree hreadable himported.links
    himported.addressed [] (Path.split file.path) root cid target (himported.route _ _ hmem)
  have hassemble := fun {state} => @assembleFile_built H disk blocks .standard hreadable file.content built cid hbuilt
    hsub hsize 32 (by decide) state
  -- 31 pieces are all that the levels allow
  have hchunks : (file.content.length ≤ chunkBytes ∨ (chunk file.content).length < 32) ↔
      file.content.length ≤ 31 * chunkBytes := by
    rw [Nat.lt_succ_iff, length_chunk_le (by decide)]
    have hone : chunkBytes ≤ 31 * chunkBytes := Nat.le_mul_of_pos_left _ (by decide)
    constructor
    · rintro (hle | hle)
      · exact Nat.le_trans hle hone
      · exact hle
    · exact Or.inr
  rw [readPath]
  simp only [Except.bind_eq_ok, Except.pure_eq_ok, Except.ok.injEq]
  constructor
  · rintro ⟨target, htarget, ⟨bytes, left⟩, hbytes, -⟩
    obtain ⟨hnarrow, rfl⟩ := hdescend.1 htarget
    exact ⟨hnarrow, hchunks.1 (hassemble.1 hbytes).1⟩
  · rintro ⟨hnarrow, hle⟩
    exact ⟨cid, hdescend.2 ⟨hnarrow, rfl⟩, (file.content, _), hassemble.2 ⟨hchunks.2 hle, rfl, rfl⟩, rfl⟩

end

/-- **When a published site is pinned and reads back**: every block is small enough to be put, no
file has more than 31 chunks, since each of them and the node over them spend one of the 32 levels,
and no directory on the way has more names than a node is read with. -/
theorem pinned_reads_back_iff {H : ContentHash} {files : List SiteFile} {blocks : List Block} {root : Cid}
    (himport : importSite H files = .ok (blocks, root)) (hpaths : (files.map (·.path)).Nodup)
    (hsize : ∀ file ∈ files, file.content.length ≤ WalkLimits.standard.maxResourceBytes)
    (hinj : Set.InjOn H.sha256 (bytesOfBlocks blocks)) :
    (∃ written disk, putAll H (fun _ => .done) Disk.empty (items blocks) = (.ok written, disk) ∧
        ∀ file ∈ files, readPath H disk .standard root (Path.split file.path) = .ok file.content) ↔
      (∀ block ∈ blocks, block.bytes.length ≤ maxBlockBytes) ∧
        (∀ file ∈ files, file.content.length ≤ 31 * chunkBytes) ∧
          ∀ file ∈ files, ∀ k < (Path.split file.path).length,
            (Site.names (files.map (·.path)) ((Path.split file.path).take k)).length ≤ maxLinks := by
  obtain ⟨tree, himported⟩ := imported_of_importSite himport hpaths
  have hpinned := pinned hinj himported.addressed
  have hnarrow : ∀ file : SiteFile, Narrow .standard tree [] (Path.split file.path) ↔
    ∀ k < (Path.split file.path).length,
      (Site.names (files.map (·.path)) ((Path.split file.path).take k)).length ≤ maxLinks := by
    intro file
    simp only [Narrow, List.nil_append, Site.length_names_perm himported.paths]
    exact Iff.rfl
  constructor
  · rintro ⟨written, disk, hput, hreads⟩
    -- a block that is too large is refused on its way to the disk
    have hblocks : ∀ block ∈ blocks, block.bytes.length ≤ maxBlockBytes := by
      intro block hblock
      have hmem : (block.cid, block.bytes) ∈ items blocks := List.mem_map_of_mem hblock
      exact (putAll_eq_ok (consistent_items hinj himported.addressed) hput hmem rfl).2
    obtain ⟨written', disk', hput', hreadable⟩ := hpinned.1 hblocks
    rw [hput, Prod.mk.injEq] at hput'
    rw [← hput'.2] at hreadable
    have hfiles := fun file hfile => (readPath_file himported hreadable hfile (hsize file hfile)).1 (hreads file hfile)
    exact ⟨hblocks, fun file hfile => (hfiles file hfile).2, fun file hfile => (hnarrow file).1 (hfiles file hfile).1⟩
  · rintro ⟨hblocks, hchunks, hnames⟩
    obtain ⟨written, disk, hput, hreadable⟩ := hpinned.1 hblocks
    refine ⟨written, disk, hput, ?_⟩
    intro file hfile
    exact (readPath_file himported hreadable hfile (hsize file hfile)).2
      ⟨(hnarrow file).2 (hnames file hfile), hchunks file hfile⟩

/-- A directory of one file. -/
theorem directoryNode_one (H : ContentHash) (cid : Cid) {name : String} (hname : name ≠ "") (tsize : ℕ) :
    directoryNode H [⟨cid, name, tsize⟩] =
      .ok (dagPbBlock H (encodePbNode [⟨cid, name, tsize⟩] Publish.unixfsDirectory)) := by
  have hcheck : Publish.checkEntry [] ⟨cid, name, tsize⟩ = .ok [name] := by
    rw [Publish.checkEntry, if_neg hname, if_neg (List.not_mem_nil)]
    rfl
  rw [directoryNode, List.foldlM_cons, hcheck]
  rfl

/-- A path of one segment that names. -/
theorem checkPath_name {path : String} (hslash : '/' ∉ path.toList) (hname : path ∉ ["", ".", ".."]) :
    checkPath path = .ok () := by
  have hform : ¬ (path = "" ∨ path.toList.head? = some '/' ∨ path.toList.getLast? = some '/') := by
    rintro (rfl | hhead | hlast)
    · exact hname List.mem_cons_self
    · exact hslash (List.mem_of_mem_head? hhead)
    · exact hslash (List.mem_of_mem_getLast? hlast)
  rw [checkPath, if_neg hform, Path.split_of_notMem hslash, if_neg]
  simpa using hname

/-- The import of one file at the root. -/
theorem importSite_one (H : ContentHash) {path : String} (hslash : '/' ∉ path.toList) (hname : path ∉ ["", ".", ".."])
    (content : Bytes) {built : BuiltFile} (hbuilt : fileBlocks H content = built) {node : Block}
    (hnode : dagPbBlock H (encodePbNode [⟨built.cid, path, built.tsize⟩] Publish.unixfsDirectory) = node) :
    importSite H [⟨path, content⟩] = .ok (built.blocks ++ [node], node.cid) := by
  have hempty : path ≠ "" := by
    rintro rfl
    exact hname List.mem_cons_self
  have hfile : importFile H ([], []) ⟨path, content⟩ =
      .ok (built.blocks, [(path, ⟨built.cid, path, built.tsize⟩)]) := by
    rw [importFile, hbuilt]
    simp only [checkPath_name hslash hname, Except.ok_bind, List.nil_append, OrdMap.set, Except.pure_eq_ok]
  have hbelow : Path.below "" path = some path := by
    rw [Path.below_eq_some]
    rfl
  obtain ⟨depth, hdepth⟩ : ∃ n, Site.depth [(path, (⟨built.cid, path, built.tsize⟩ : Link))] = n + 1 := by
    refine ⟨path.toList.length - 1, ?_⟩
    have hpos : 0 < path.toList.length := List.length_pos_iff.2 fun hnil => hempty (String.toList_eq_nil_iff.1 hnil)
    simp only [Site.depth, List.map_singleton, List.foldr_cons, List.foldr_nil, Nat.max_zero]
    omega
  have hentries : Site.entriesIn [(path, (⟨built.cid, path, built.tsize⟩ : Link))] "" =
      [⟨built.cid, path, built.tsize⟩] := by
    simp [Site.entriesIn, hbelow, hslash]
  have hsubs : Site.subdirectoriesIn [(path, (⟨built.cid, path, built.tsize⟩ : Link))] "" = [] := by
    simp [Site.subdirectoriesIn, hbelow, hslash]
  rw [importSite, List.foldlM_cons, hfile]
  simp only [Except.ok_bind, List.foldlM_nil, Except.pure_eq_ok, List.insertionSort_cons, List.insertionSort_nil,
    List.orderedInsert_nil, hdepth, Site.build, hentries, hsubs, Site.close, directoryNode_one H _ hempty, hnode]

open Fetch.TwoFiles in
/-- A site of two files, one of them in a directory, is pinned and reads back. -/
theorem pinned_reads_back_two_files : ∃ written disk,
    putAll hash (fun _ => .done) Disk.empty (items [leafOf hash first, leafOf hash second, dagPbBlock hash innerBlock,
        dagPbBlock hash rootBlock]) = (.ok written, disk) ∧
      readPath hash disk .standard (dagPbBlock hash rootBlock).cid ["a"] = .ok first ∧
        readPath hash disk .standard (dagPbBlock hash rootBlock).cid ["d", "b"] = .ok second := by
  have himport : importSite hash [⟨"a", first⟩, ⟨"d/b", second⟩] =
      .ok ([leafOf hash first, leafOf hash second, dagPbBlock hash innerBlock, dagPbBlock hash rootBlock],
        (dagPbBlock hash rootBlock).cid) := by decide +kernel
  have hinj : Set.InjOn hash.sha256 (bytesOfBlocks [leafOf hash first, leafOf hash second, dagPbBlock hash innerBlock,
      dagPbBlock hash rootBlock]) :=
    Site.injOn_blocks (fun block hblock => List.mem_map_of_mem hblock) (by decide +kernel)
  obtain ⟨written, disk, hput, hreads⟩ := (pinned_reads_back_iff himport (by decide) (by decide +kernel) hinj).2
    ⟨by decide +kernel, by decide +kernel, by decide +kernel⟩
  exact ⟨written, disk, hput, hreads ⟨"a", first⟩ List.mem_cons_self,
    hreads ⟨"d/b", second⟩ (List.mem_cons_of_mem _ List.mem_cons_self)⟩

namespace LongFile

/-- A chunk of zeros. -/
def zeros : Bytes := List.replicate chunkBytes 0

/-- 32 chunks of zeros. -/
def content : Bytes := List.replicate (32 * chunkBytes) 0

/-- The digest of one chunk of the file. -/
def leafDigest : Digest :=
  ⟨[0x8a, 0x39, 0xd2, 0xab, 0xd3, 0x99, 0x9a, 0xb7, 0x3c, 0x34, 0xdb, 0x24, 0x76, 0x84, 0x9c, 0xdd,
    0xf3, 0x03, 0xce, 0x38, 0x9b, 0x35, 0x82, 0x68, 0x50, 0xf9, 0xa7, 0x00, 0x58, 0x9b, 0x4a, 0x90], by decide⟩

/-- The digest of the file's node. -/
def nodeDigest : Digest :=
  ⟨[0x92, 0x11, 0xc0, 0x1e, 0xcd, 0xee, 0xdb, 0xe2, 0x1d, 0xd9, 0x18, 0x24, 0x06, 0xb2, 0x06, 0xd7,
    0xd0, 0x48, 0xee, 0x77, 0xdd, 0xd9, 0x75, 0xe0, 0x9c, 0xc5, 0x5b, 0xc6, 0xe5, 0xef, 0xac, 0x80], by decide⟩

/-- The digest of the root. -/
def rootDigest : Digest :=
  ⟨[0xde, 0xa6, 0x78, 0xf8, 0x42, 0x44, 0xf3, 0x41, 0xf3, 0x94, 0xcd, 0x6b, 0x6c, 0xbb, 0x6e, 0xba,
    0x90, 0x3d, 0x1f, 0x5c, 0xf1, 0x8a, 0x57, 0xa8, 0xc9, 0xe0, 0x2e, 0xdb, 0x79, 0x45, 0x45, 0xce], by decide⟩

/-- The CID of that chunk. -/
def leafCid : Cid := { version := 1, codec := codecRaw, digest := leafDigest }

/-- The node over the chunks. -/
def nodeBytes : Bytes :=
  encodePbNode (List.replicate 32 ⟨leafCid, "", chunkBytes⟩) (Publish.unixfsFile (List.replicate 32 chunkBytes))

/-- A hash by cases. -/
def hashOf (a b : Bytes) (x y z : Digest) : ContentHash where
  sha256 bytes := if bytes = a then x else if bytes = b then y else z

/-- SHA-256 on the three blocks. -/
def hash : ContentHash := hashOf zeros nodeBytes leafDigest nodeDigest rootDigest

/-- The directory over the file. -/
def rootBytes : Bytes :=
  encodePbNode [⟨⟨1, codecDagPb, nodeDigest⟩, "a", 1610 + 32 * chunkBytes⟩] Publish.unixfsDirectory

theorem length_zeros : zeros.length = 262144 := List.length_replicate

theorem length_nodeBytes : nodeBytes.length = 1610 := by decide +kernel

theorem length_rootBytes : rootBytes.length = 52 := by decide +kernel

theorem ne_of_length {a b : Bytes} (h : a.length ≠ b.length) : a ≠ b := fun heq => h (congrArg List.length heq)

theorem hashOf_cases {a b c : Bytes} {x y z : Digest} (hb : b ≠ a) (hca : c ≠ a) (hcb : c ≠ b) :
    (hashOf a b x y z).sha256 a = x ∧ (hashOf a b x y z).sha256 b = y ∧ (hashOf a b x y z).sha256 c = z := by
  simp [hashOf, hb, hca, hcb]

theorem hash_cases : hash.sha256 zeros = leafDigest ∧ hash.sha256 nodeBytes = nodeDigest ∧
    hash.sha256 rootBytes = rootDigest := by
  apply hashOf_cases
  · exact ne_of_length (by rw [length_nodeBytes, length_zeros]; decide)
  · exact ne_of_length (by rw [length_rootBytes, length_zeros]; decide)
  · exact ne_of_length (by rw [length_rootBytes, length_nodeBytes]; decide)

theorem chunk_content : chunk content = List.replicate 32 zeros := by
  have hne : content ≠ [] := by
    rw [content, ← List.length_pos_iff, List.length_replicate]
    exact Nat.mul_pos (by decide) chunkBytes_pos
  rw [chunk, if_neg hne, chunksOf_eq]
  exact Chunks.split_replicate chunkBytes_pos 0 (Nat.le_of_eq List.length_replicate.symm)

theorem fileNode_zeros : fileNode hash (List.replicate 32 zeros) = dagPbBlock hash nodeBytes := by
  have hcid : Cid.rawFromBytes hash zeros = leafCid := by
    rw [Cid.rawFromBytes, hash_cases.1]
    rfl
  have hlength : zeros.length = chunkBytes := List.length_replicate
  rw [fileNode, chunkLinks, List.map_replicate, List.map_replicate, hcid, hlength, nodeBytes]

theorem length_content : content.length = 32 * chunkBytes := List.length_replicate

/-- What is built of the file. -/
theorem fileBlocks_content : fileBlocks hash content =
    { blocks := List.replicate 32 (leafOf hash zeros) ++ [dagPbBlock hash nodeBytes],
      cid := ⟨1, codecDagPb, nodeDigest⟩, tsize := 1610 + 32 * chunkBytes } := by
  have hgt : chunkBytes < content.length := by
    rw [length_content]
    decide
  have hcid : (dagPbBlock hash nodeBytes).cid = ⟨1, codecDagPb, nodeDigest⟩ := by
    rw [dagPbBlock, hash_cases.2.1]
  have hlength : zeros.length = chunkBytes := List.length_replicate
  have hbytes : (dagPbBlock hash nodeBytes).bytes.length = 1610 := length_nodeBytes
  have hsum : ((chunkLinks hash (List.replicate 32 zeros)).map (·.tsize)).sum = 32 * chunkBytes := by
    rw [chunkLinks, List.map_replicate, List.map_replicate, hlength, List.sum_replicate_nat]
  rw [fileBlocks_of_gt hgt, chunk_content, fileNode_zeros, List.map_replicate, hcid, hbytes, hsum]

/-- The blocks of the site. -/
def blocks : List Block :=
  List.replicate 32 (leafOf hash zeros) ++ [dagPbBlock hash nodeBytes] ++ [dagPbBlock hash rootBytes]

/-- The site of the large file. -/
theorem importSite_content : importSite hash [⟨"a", content⟩] = .ok (blocks, (dagPbBlock hash rootBytes).cid) :=
  importSite_one hash (by decide) (by decide) content fileBlocks_content rfl

theorem injOn_blocks : Set.InjOn hash.sha256 (bytesOfBlocks blocks) := by
  have hmem : ∀ block ∈ blocks, block.bytes ∈ [zeros, nodeBytes, rootBytes] := by
    intro block hblock
    rcases List.mem_append.1 hblock with hblock | hblock
    · rcases List.mem_append.1 hblock with hblock | hblock
      · rw [(List.mem_replicate.1 hblock).2]
        exact List.mem_cons_self
      · rw [List.mem_singleton.1 hblock]
        exact List.mem_cons_of_mem _ List.mem_cons_self
    · rw [List.mem_singleton.1 hblock]
      exact List.mem_cons_of_mem _ (List.mem_cons_of_mem _ List.mem_cons_self)
  apply Site.injOn_blocks hmem
  rw [List.map_cons, List.map_cons, List.map_cons, List.map_nil, hash_cases.1, hash_cases.2.1, hash_cases.2.2]
  decide

end LongFile

open LongFile in
/-- A file of 32 chunks is pinned, and does not read back. -/
theorem not_pinned_reads_back_long : ¬ ∀ (H : ContentHash) (files : List SiteFile) (blocks : List Block) (root : Cid),
    importSite H files = .ok (blocks, root) → (files.map (·.path)).Nodup →
      (∀ file ∈ files, file.content.length ≤ WalkLimits.standard.maxResourceBytes) →
        Set.InjOn H.sha256 (bytesOfBlocks blocks) →
          ∃ written disk, putAll H (fun _ => .done) Disk.empty (items blocks) = (.ok written, disk) ∧
            ∀ file ∈ files, readPath H disk .standard root (Path.split file.path) = .ok file.content := by
  intro h
  have hsize : ∀ file ∈ [(⟨"a", content⟩ : SiteFile)], file.content.length ≤ WalkLimits.standard.maxResourceBytes := by
    intro file hfile
    have hbound : 32 * chunkBytes ≤ WalkLimits.standard.maxResourceBytes := by decide
    rw [List.mem_singleton.1 hfile, length_content]
    exact hbound
  have hpaths : ([(⟨"a", content⟩ : SiteFile)].map (·.path)).Nodup := List.nodup_singleton _
  obtain ⟨tree, himported⟩ := imported_of_importSite importSite_content hpaths
  obtain ⟨written, disk, hput, hreads⟩ := h _ _ _ _ importSite_content hpaths hsize injOn_blocks
  have hconsistent := consistent_items injOn_blocks himported.addressed
  have hreadable : Readable hash disk LongFile.blocks := by
    intro block hblock
    have hitem : (block.cid, block.bytes) ∈ items LongFile.blocks := List.mem_map_of_mem hblock
    obtain ⟨hfile, hle⟩ := putAll_eq_ok hconsistent hput hitem rfl
    exact get_eq_ok_some.2 ⟨hfile, hle, (himported.addressed block hblock).2.symm⟩
  have hmem : (⟨"a", content⟩ : SiteFile) ∈ [(⟨"a", content⟩ : SiteFile)] := List.mem_singleton_self _
  have hread := (readPath_file himported hreadable hmem (hsize _ hmem)).1 (hreads _ hmem)
  have hlong : ¬ 32 * chunkBytes ≤ 31 * chunkBytes := by decide
  rw [length_content] at hread
  exact hlong hread.2

end VayuWeb.Client.Dagnode
