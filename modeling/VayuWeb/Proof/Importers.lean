import VayuWeb.Base.Bounded
import VayuWeb.Proof.Engine
import VayuWeb.Proof.Pinned

/-!
# Two importers of one site

The specification's importer on an engine and the client's importer, over the same files.

* `importSite_agrees`: they agree on every site that fits the engine.
* `reached_of_importSite`: the engine imports no site that exceeds it.
* `importSite_refines`: what it imports, the machine without bounds imports.
* `importers_agree`: both, and neither importer depends on the order of the files.
-/

namespace VayuWeb

open Bytes
open Client.Publish hiding SiteFile importSite importFile_eq
open Except (Agrees)

variable {E : Unixfs.Engine} {H : ContentHash} {files files' : List Unixfs.SiteFile}

/-! ## Sites -/

/-- A file as the client has it. -/
def clientFile (file : Unixfs.SiteFile) : Client.Publish.SiteFile := { path := file.path, content := file.content }

/-- The same root under the other's address, and the same blocks in some order. -/
def SameImport (built : List Block × Client.Cid) (built' : List Unixfs.Block × String) : Prop :=
  built'.2 = built.2.toText ∧ built'.1.Perm (built.1.map (Site.Block.map Client.Cid.toText))

/-- One importer twice: the same root, and the same blocks in some order. -/
def SameBuilt {κ : Type} (built built' : List (Site.Block κ) × κ) : Prop :=
  built'.2 = built.2 ∧ built'.1.Perm built.1

/-- The bytes of a name in a directory, at most. -/
def nameWidth (s : String) : ℕ := (utf8Encode s).length + linkBytes

/-- The bytes of a directory without entries, at most. -/
def directoryBytes : ℕ := 13

/-- What a file adds to the size of the root, at most. -/
def fileWeight (file : Unixfs.SiteFile) : ℕ :=
  2 * file.content.length + ((Path.split file.path).map fun s => nameWidth s + directoryBytes).sum

/-- A site that fits an engine: its names and its files pass as arguments, its paths are no deeper
than the stack, and all sizes are safe numbers. -/
structure Fits (E : Unixfs.Engine) (files : List Unixfs.SiteFile) : Prop where
  names : ∀ file ∈ files, ∀ s ∈ Path.split file.path, nameWidth s ≤ E.arguments
  chunks : ∀ file ∈ files, 4 * (Client.chunk file.content).length + 24 ≤ E.arguments
  depth : ∀ file ∈ files, (Path.split file.path).length ≤ E.frames
  total : directoryBytes + (files.map fileWeight).sum ≤ maxSafeInteger

/-- A site that exceeds an engine: a path is deeper than the stack, or a name or the field of a
file's chunks has more bytes than a call takes arguments. -/
def Exceeds (E : Unixfs.Engine) (files : List Unixfs.SiteFile) : Prop :=
  ∃ file ∈ files, E.frames < (Path.split file.path).length ∨
    (∃ s ∈ Path.split file.path, E.arguments < (utf8Encode s).length) ∨
      E.arguments < 4 * ((Client.chunk file.content).length - 1)

/-! ## The two imports, file by file -/

/-- The client's loop over the files. -/
def clientLoad (H : ContentHash) (files : List Unixfs.SiteFile) :
    Except PublishError (List Block × OrdMap String Link) :=
  files.foldlM (fun state file => Site.load (makeFile H) state file.path file.content) ([], [])

/-- The engine's. -/
def engineLoad (E : Unixfs.Engine) (H : ContentHash) (files : List Unixfs.SiteFile) :
    Except Unixfs.Failure (List Unixfs.Block × OrdMap String Unixfs.Link) :=
  files.foldlM (fun state file => Site.load (E.makeFile H) state file.path file.content) ([], [])

/-- The root and the blocks of what is built. -/
def rooted {κ : Type} (built : (κ × ℕ) × List (Site.Block κ)) : List (Site.Block κ) × κ := (built.2, built.1.1)

/-- The client's import in two halves: the files, then the tree. -/
theorem clientImport_eq (files : List Unixfs.SiteFile) :
    Client.Publish.importSite H (files.map clientFile) = clientLoad H files >>= fun state =>
      (Site.build (directoryNode H) (state.2.insertionSort pathLe) (Site.depth (state.2.insertionSort pathLe)) ""
        state.1).map rooted := by
  rw [Client.Publish.importSite, Client.Publish.importFile_eq, List.foldlM_map]
  rfl

/-- The registry's import on an engine in two halves: the files, then the tree. -/
theorem engineImport_eq (files : List Unixfs.SiteFile) :
    E.importSite H files = engineLoad E H files >>= fun state =>
      (Site.buildIn (E.directoryNode H) state.2 .range E.frames "" state.1).map rooted := by
  rw [Unixfs.Engine.importSite, Unixfs.Engine.importFile_eq]
  rfl

/-- The paths of a tree are those of the files, which are well formed. -/
structure FromFiles {κ : Type} (files : List Unixfs.SiteFile) (tree : Site.Tree κ) : Prop where
  origin : ∀ path link, (path, link) ∈ tree → ∃ file ∈ files, file.path = path
  file : ∀ file ∈ files, ∃ link, (file.path, link) ∈ tree
  proper : Site.Proper tree

theorem FromFiles.perm {κ : Type} {tree tree' : Site.Tree κ} (h : FromFiles files tree) (hperm : tree'.Perm tree) :
    FromFiles files tree' where
  origin path link hmem := h.origin path link (hperm.mem_iff.1 hmem)
  file file hfile := by
    obtain ⟨link, hmem⟩ := h.file file hfile
    exact ⟨link, hperm.mem_iff.2 hmem⟩
  proper := h.proper.perm hperm

/-- A tree of short paths lies within as many levels. -/
theorem FromFiles.within {κ : Type} {tree : Site.Tree κ} (h : FromFiles files tree) {n : ℕ}
    (hdepth : ∀ file ∈ files, (Path.split file.path).length ≤ n) : Site.Within tree "" n := by
  intro path link rest hmem hsplit
  obtain ⟨file, hfile, rfl⟩ := h.origin path link hmem
  have hlength := hdepth file hfile
  rwa [hsplit] at hlength

/-- A file deeper than the stack. -/
theorem FromFiles.overflows {κ ε : Type} {tree : Site.Tree κ} (h : FromFiles files tree)
    (node : List (Site.Link κ) → Except ε (Site.Block κ)) (overflow : ε) {frames : ℕ} {file : Unixfs.SiteFile}
    (hfile : file ∈ files) (hdeep : frames < (Path.split file.path).length) (blocks : List (Site.Block κ)) :
    ∃ e, Site.buildIn node tree overflow frames "" blocks = .error e := by
  obtain ⟨link, hmem⟩ := h.file file hfile
  have hsplit : Path.split file.path = Path.dirSegments "" ++ Path.split file.path := rfl
  exact Site.buildIn_overflows overflow h.proper hmem hsplit hdeep blocks

/-- The tree that is loaded comes from the files. -/
theorem fromFiles_of_load {κ ε : Type} {make : String → Bytes → Except ε (List (Site.Block κ) × κ × ℕ)}
    {blocks : List (Site.Block κ)} {tree : OrdMap String (Site.Link κ)}
    (hmake : ∀ path content made, make path content = .ok made → ∀ part ∈ Path.split path, part ≠ "")
    (h : files.foldlM (fun state file => Site.load make state file.path file.content) ([], []) = .ok (blocks, tree)) :
    FromFiles files tree where
  origin path link hmem := by
    rcases Site.made_of_mem h hmem with hnone | ⟨file, hfile, built, hpath, -⟩
    · exact absurd hnone List.not_mem_nil
    · exact ⟨file, hfile, hpath.symm⟩
  file file hfile := by
    obtain ⟨hpath, -⟩ := (Site.mem_paths_of_load h).2 file hfile
    obtain ⟨⟨path, link⟩, hmem, rfl⟩ := List.mem_map.1 hpath
    exact ⟨link, hmem⟩
  proper := by
    intro path link hmem s hs
    rcases Site.made_of_mem h hmem with hnone | ⟨file, hfile, built, hpath, hmade⟩
    · exact absurd hnone List.not_mem_nil
    · exact hmake _ _ _ hmade s (hpath ▸ hs)

theorem fromFiles_client {blocks : List Block} {tree : OrdMap String Link}
    (h : clientLoad H files = .ok (blocks, tree)) : FromFiles files tree := by
  refine fromFiles_of_load ?_ h
  rintro path content ⟨built, cid, tsize⟩ hmade
  exact segments_of_checkPath (makeFile_eq_ok hmade).1

theorem makeFile_engine_eq_ok {path : String} {content : Bytes} {made : List Unixfs.Block × String × ℕ}
    (h : E.makeFile H path content = .ok made) :
    Unixfs.checkPath path = .ok () ∧ ∃ built, E.fileBlocks H content = .ok built := by
  rw [Unixfs.Engine.makeFile] at h
  simp only [Except.bind_eq_ok, Unixfs.Engine.own_eq_ok] at h
  obtain ⟨_, hcheck, built, hbuilt, -⟩ := h
  exact ⟨hcheck, built, hbuilt⟩

theorem fromFiles_engine {blocks : List Unixfs.Block} {tree : OrdMap String Unixfs.Link}
    (h : engineLoad E H files = .ok (blocks, tree)) : FromFiles files tree := by
  refine fromFiles_of_load ?_ h
  intro path content made hmade part hpart
  exact ((Unixfs.checkPath_eq_ok.1 (makeFile_engine_eq_ok hmade).1).2 part hpart).1

/-! ## A site that fits -/

/-- A directory's node is no longer than its entries' names allow. -/
theorem length_directoryNode_le {entries : List Link} {block : Block} (h : directoryNode H entries = .ok block) :
    block.bytes.length ≤ directoryBytes + (entries.map fun e => nameWidth e.name).sum := by
  obtain ⟨-, rfl⟩ := directoryNode_eq_ok h
  have hnode := length_encodePbNode_le (entries.insertionSort nameLe) unixfsDirectory
  have hsorted : ((entries.insertionSort nameLe).map fun e => nameWidth e.name).sum =
      (entries.map fun e => nameWidth e.name).sum := ((List.perm_insertionSort nameLe entries).map _).sum_nat
  rw [length_unixfsDirectory] at hnode
  rw [← hsorted]
  exact hnode

/-- The weight of the tree is bounded by its files. -/
theorem weight_le_of_load {blocks : List Block} {tree : OrdMap String Link}
    (h : clientLoad H files = .ok (blocks, tree)) :
    Site.weight nameWidth directoryBytes tree "" ≤ directoryBytes + (files.map fileWeight).sum := by
  have hbound : ∀ file ∈ files, ∀ built cid tsize, makeFile H file.path file.content = .ok (built, cid, tsize) →
      Site.share nameWidth directoryBytes "" (file.path, (⟨cid, file.path, tsize⟩ : Link)) ≤ fileWeight file := by
    intro file _ built cid tsize hmake
    have hbelow : Path.below "" file.path = some file.path := by
      rw [Path.below_eq_some]
      rfl
    rw [makeFile, Except.bind_eq_ok] at hmake
    obtain ⟨_, -, hmade⟩ := hmake
    simp only [Except.pure_eq_ok, Except.ok.injEq, Prod.mk.injEq] at hmade
    have htsize := @tsize_fileBlocks_le H file.content
    rw [Site.share, hbelow, fileWeight, ← hmade.2.2]
    exact Nat.add_le_add_right htsize _
  have hsum := Site.sum_load_le hbound h
  rw [Site.weight]
  simpa using hsum

/-- Every link of a site that fits, fits. -/
theorem fitting_of_load (hfits : Fits E files) {blocks : List Block} {map : OrdMap String Link}
    (h : clientLoad H files = .ok (blocks, map)) {tree : Site.Tree Client.Cid} (hperm : tree.Perm map) :
    Site.Fitting (Fit E) (directoryNode H) tree := by
  have hfrom := (fromFiles_client h).perm hperm
  have hweight : Site.weight nameWidth directoryBytes tree "" ≤ maxSafeInteger := by
    rw [Site.weight_perm hperm]
    exact Nat.le_trans (weight_le_of_load h) hfits.total
  have hname : ∀ {path link s}, (path, link) ∈ tree → s ∈ Path.split path → nameWidth s ≤ E.arguments := by
    intro path link s hmem hs
    obtain ⟨file, hfile, rfl⟩ := hfrom.origin path link hmem
    exact hfits.names file hfile s hs
  constructor
  · intro dir e he
    obtain ⟨path, link, hmem, hsplit, he'⟩ := Site.mem_entriesIn.1 he
    have hlast : e.name ∈ Path.split path := by
      rw [hsplit]
      exact List.mem_append_right _ (List.mem_singleton_self _)
    refine ⟨hname hmem hlast, ?_⟩
    -- the share of an entry at the root is a part of the weight
    have hbelow : Path.below "" path = some path := by
      rw [Path.below_eq_some]
      rfl
    have hshare : Site.share nameWidth directoryBytes "" (path, link) ≤
        (tree.map (Site.share nameWidth directoryBytes "")).sum := List.le_sum_of_mem (List.mem_map_of_mem hmem)
    rw [Site.share, hbelow] at hshare
    rw [Site.weight] at hweight
    rw [he']
    simp only at hshare ⊢
    omega
  · intro levels dir name cid tsize blocks hsub hbuild
    obtain ⟨path, link, rest, hmem, -, hsplit⟩ := Site.mem_subdirectoriesIn.1 hsub
    have hin : name ∈ Path.split path := by
      rw [hsplit]
      exact List.mem_append_right _ List.mem_cons_self
    refine ⟨hname hmem hin, ?_⟩
    have htsize := Site.tsize_le_weight hfrom.proper (fun _ _ => length_directoryNode_le) hbuild
    exact Nat.le_trans htsize (Nat.le_trans (Site.weight_le_root tree _) hweight)

/-- **The importers agree on every site that fits the engine.** -/
theorem importSite_agrees (hfits : Fits E files) :
    Agrees SameImport (Client.Publish.importSite H (files.map clientFile)) (E.importSite H files) := by
  have hsmall : List.Forall₂ (fun (file file' : Unixfs.SiteFile) => file'.path = file.path ∧
      file'.content = file.content ∧ Small E file.content) files files := by
    rw [List.forall₂_same]
    intro file hfile
    refine ⟨rfl, rfl, hfits.chunks file hfile, ?_⟩
    have hweight : fileWeight file ≤ (files.map fileWeight).sum := List.le_sum_of_mem (List.mem_map_of_mem hfile)
    have htotal := hfits.total
    rw [fileWeight] at hweight
    omega
  have hload : Agrees _ (clientLoad H files) (engineLoad E H files) := Site.load_agrees filesAgree hsmall
  rw [clientImport_eq, engineImport_eq]
  refine hload.found.bind ?_
  rintro ⟨blocks, map⟩ ⟨blocks', tree'⟩ ⟨hclient, hengine, hP, hblocks, htree⟩
  have hperm := List.perm_insertionSort pathLe map
  have hfrom := (fromFiles_client hclient).perm hperm
  have hfrom' := fromFiles_engine hengine
  have hpermuted : tree'.Perm (Site.mapTree Client.Cid.toText (map.insertionSort pathLe)) :=
    htree.trans (hperm.symm.map _)
  -- as many levels on both sides: one less than the frames
  have hframe := E.frame
  have hdepth : ∀ file ∈ files, (Path.split file.path).length ≤ E.frames - 1 + 1 := by
    intro file hfile
    have hle := hfits.depth file hfile
    omega
  simp only
  rw [Site.build_levels (.badPath "") hfrom.proper Site.within_depth (hfrom.within hdepth),
    Site.buildIn_eq_build Unixfs.Failure.range hfrom'.proper (hfrom'.within hdepth) (by omega)]
  refine (Site.build_agrees_behind nodesAgree (fitting_of_load hfits hclient hperm)
    (fun entry hentry => hP entry (hperm.mem_iff.1 hentry)) hpermuted hblocks _ _).map ?_
  rintro ⟨⟨cid, tsize⟩, built⟩ ⟨⟨cid', tsize'⟩, built'⟩ ⟨-, haddress, hbuilt⟩
  rw [Prod.mk.injEq] at haddress
  exact ⟨haddress.1, hbuilt⟩

/-! ## A site that exceeds -/

/-- The names of a directory that an engine writes pass as arguments. -/
theorem length_name_le {entries : List Unixfs.Link} {block : Unixfs.Block}
    (h : E.directoryNode H entries = .ok block) {e : Unixfs.Link} (he : e ∈ entries) :
    (utf8Encode e.name).length ≤ E.arguments := by
  rw [Unixfs.Engine.directoryNode] at h
  simp only [Unixfs.Engine.encodePbNode_eq, Except.bind_eq_ok, Unixfs.Engine.spread_eq_ok] at h
  obtain ⟨_, -, _, -, _, ⟨out, ⟨parts, hparts, -⟩, -⟩, -⟩ := h
  obtain ⟨part, -, hpart, hlength⟩ :=
    Except.exists_of_forall₂_left hparts ((List.mem_insertionSort Unixfs.nameLe).2 he)
  rw [Unixfs.Engine.linkPart] at hpart
  simp only [Except.bind_eq_ok, Unixfs.Engine.own_eq_ok] at hpart
  obtain ⟨region, hregion, hwritten⟩ := hpart
  obtain ⟨c, -, -, rfl⟩ := Unixfs.pbLink_eq_ok hregion
  obtain ⟨-, rfl⟩ := Unixfs.lengthDelimited_eq_ok.1 hwritten
  have hname : (utf8Encode e.name).length ≤ (Wire.write (Unixfs.linkItems c e)).length := by
    rw [Unixfs.linkItems]
    simp only [Wire.write_cons, Wire.Item.write, Wire.Item.payload, List.length_append]
    omega
  simp only [Wire.Item.write, Wire.Item.payload, List.length_append] at hlength
  omega

theorem le_length_flatMap {α : Type} {f : α → Bytes} {k : ℕ} {xs : List α} (h : ∀ x ∈ xs, k ≤ (f x).length) :
    k * xs.length ≤ (xs.flatMap f).length := by
  induction xs with
  | nil => exact Nat.zero_le _
  | cons x xs ih =>
    have hrest := ih fun y hy => h y (List.mem_cons_of_mem _ hy)
    have hx := h x List.mem_cons_self
    rw [List.flatMap_cons, List.length_append, List.length_cons, Nat.mul_succ]
    omega

/-- Every chunk but the last takes four bytes in the node's data. -/
theorem length_blocksizes_ge (content : Bytes) : 4 * ((Client.chunk content).length - 1) ≤
    (((Client.chunk content).map List.length).flatMap (varintField 4)).length := by
  have hfull : ∀ piece ∈ (Client.chunk content).dropLast, 4 ≤ (varintField 4 piece.length).length := by
    intro piece hpiece
    have hlength : piece.length = Client.chunkBytes := by
      rw [Client.chunk] at hpiece
      split_ifs at hpiece with hnil
      · simp at hpiece
      · rw [chunksOf_eq] at hpiece
        exact Chunks.length_of_mem_dropLast hpiece
    rw [hlength]
    decide
  rw [List.flatMap_map]
  rcases List.eq_nil_or_concat (Client.chunk content) with hnil | ⟨front, last, hsplit⟩
  · rw [hnil]
    exact Nat.zero_le _
  · rw [hsplit, List.concat_eq_append] at hfull ⊢
    rw [List.dropLast_concat] at hfull
    have hle := le_length_flatMap hfull
    rw [List.flatMap_append, List.length_append, List.length_append, List.length_singleton, Nat.add_sub_cancel]
    exact Nat.le_trans hle (Nat.le_add_right _ _)

/-- The chunks of a file that an engine builds are counted in one call. -/
theorem chunks_of_fileBlocks {content : Bytes} {built : List Unixfs.Block × String × ℕ}
    (h : E.fileBlocks H content = .ok built) : 4 * ((Client.chunk content).length - 1) ≤ E.arguments := by
  by_cases hle : content.length ≤ Client.chunkBytes
  · rw [chunk_of_le hle]
    exact Nat.zero_le _
  · have hcount := (chunk_of_gt (Nat.not_le.1 hle)).2
    have hsizes := length_blocksizes_ge content
    have hparts : ∀ size ∈ (Client.chunk content).map List.length,
        Unixfs.own (Unixfs.varintField 4 size) = .ok (varintField 4 size) ∧
          (varintField 4 size).length ≤ E.arguments := by
      intro size hsize
      obtain ⟨piece, hpiece, rfl⟩ := List.mem_map.1 hsize
      exact blocksize_spec (length_le_of_mem_chunk hpiece)
    rw [Unixfs.Engine.fileBlocks, chunk_eq, Unixfs.Engine.own_ok, Except.ok_bind] at h
    generalize Client.chunk content = pieces at *
    split at h
    · simp at hcount
    · simp only [Except.bind_eq_ok, Unixfs.Engine.encodePbNode_eq, Unixfs.Engine.unixfsFile] at h
      -- the block sizes are pushed as arguments of one call, so they fit in what the engine takes
      obtain ⟨_, -, data, ⟨kind, -, total, -, hdata⟩, _, ⟨out, -, hnode⟩, -⟩ := h
      have hspread := Unixfs.Engine.spread_ok (E := E) (kind ++ total) hparts
      rw [hspread, Except.ok.injEq] at hdata
      have hlong : 4 * (pieces.length - 1) ≤ data.length := by
        rw [← hdata, List.length_append]
        exact Nat.le_trans hsizes (Nat.le_add_left _ _)
      have hpos : data.length > 0 := by omega
      rw [if_pos hpos, Except.bind_eq_ok] at hnode
      obtain ⟨part, hpart, hpush⟩ := hnode
      obtain ⟨-, rfl⟩ := Unixfs.lengthDelimited_eq_ok.1 (Unixfs.Engine.own_eq_ok.1 hpart)
      have hlength := (Unixfs.Engine.push_eq_ok.1 hpush).1
      simp only [Wire.Item.write, Wire.Item.payload, List.length_append] at hlength
      omega

/-- A tree whose paths fit the stack lies within its frames. -/
theorem within_frames {tree : Site.Tree String} (hfrom : FromFiles files tree)
    (hdepth : ∀ file ∈ files, (Path.split file.path).length ≤ E.frames) : Site.Within tree "" (E.frames - 1 + 1) := by
  have hframe := E.frame
  refine hfrom.within fun file hfile => ?_
  have hle := hdepth file hfile
  omega

/-- What the engine imports it builds within its stack. -/
theorem build_of_importSite {built : List Unixfs.Block × String} (h : E.importSite H files = .ok built) :
    ∃ blocks tree result, engineLoad E H files = .ok (blocks, tree) ∧
      (∀ file ∈ files, (Path.split file.path).length ≤ E.frames) ∧
        Site.build (E.directoryNode H) tree (E.frames - 1) "" blocks = .ok result ∧ built = rooted result := by
  rw [engineImport_eq, Except.bind_eq_ok] at h
  obtain ⟨⟨blocks, tree⟩, hload, hbuild⟩ := h
  have hfrom := fromFiles_engine hload
  cases hbuilt : Site.buildIn (E.directoryNode H) tree .range E.frames "" blocks with
  | error e =>
    simp only [hbuilt] at hbuild
    cases hbuild
  | ok result =>
    have hdepth : ∀ file ∈ files, (Path.split file.path).length ≤ E.frames := by
      intro file hfile
      by_contra hdeep
      obtain ⟨e, he⟩ := hfrom.overflows (E.directoryNode H) Unixfs.Failure.range hfile (Nat.not_le.1 hdeep) blocks
      rw [hbuilt] at he
      cases he
    have hframe := E.frame
    simp only [hbuilt] at hbuild
    rw [Site.buildIn_eq_build Unixfs.Failure.range hfrom.proper (within_frames hfrom hdepth) (by omega)] at hbuilt
    exact ⟨blocks, tree, result, hload, hdepth, hbuilt, (Except.ok.inj hbuild).symm⟩

/-- **The engine imports no site that exceeds it.** -/
theorem reached_of_importSite {built : List Unixfs.Block × String} (h : E.importSite H files = .ok built) :
    ¬ Exceeds E files := by
  obtain ⟨blocks, tree, ⟨⟨cid, tsize⟩, blocks'⟩, hload, hdepth, hbuild, -⟩ := build_of_importSite h
  have hfrom := fromFiles_engine hload
  rintro ⟨file, hfile, hdeep | ⟨s, hs, hlong⟩ | hlong⟩
  · exact absurd (hdepth file hfile) (Nat.not_le.2 hdeep)
  · -- the route to the file goes through a directory that holds the name
    obtain ⟨link, hmem⟩ := hfrom.file file hfile
    have hroute :=
      Site.routes_of_build hfrom.proper hbuild (within_frames hfrom hdepth) hmem (Path.split_ne_nil _) rfl
    obtain ⟨before, after, hsplit⟩ := List.append_of_mem hs
    rw [hsplit] at hroute
    obtain ⟨mid, -, entries, block, e, hnode, -, -, -, he, rfl, -⟩ := hroute.split
    exact absurd (length_name_le hnode he) (Nat.not_le.2 hlong)
  · obtain ⟨-, made, hmade⟩ := (Site.mem_paths_of_load hload).2 file hfile
    obtain ⟨-, built', hbuilt'⟩ := makeFile_engine_eq_ok hmade
    exact absurd (chunks_of_fileBlocks hbuilt') (Nat.not_le.2 hlong)

/-- **What the engine imports, the machine without bounds imports.** -/
theorem importSite_refines : Except.Refines (E.importSite H files) (Unixfs.importSite H files) := by
  intro built h
  obtain ⟨blocks, tree, result, hload, hdepth, hbuild, rfl⟩ := build_of_importSite h
  have hfrom := fromFiles_engine hload
  rw [Site.build_levels Unixfs.Failure.range hfrom.proper (within_frames hfrom hdepth) Site.within_depth] at hbuild
  have hfiles : files.foldlM (Unixfs.importFile H) ([], []) = .ok (blocks, tree) := by
    rw [engineLoad, ← Unixfs.Engine.importFile_eq] at hload
    exact Except.Refines.foldlM Unixfs.Engine.importFile_refines files _ _ hload
  have hroot := Site.build_refines Unixfs.Engine.directoryNode_refines _ _ _ _ hbuild
  rw [Unixfs.importSite, hfiles, Except.ok_bind]
  simp only [hroot, Except.ok_bind]
  rfl

/-! ## Another order -/

/-- The tree that is built does not depend on the order of the files. -/
theorem map_build_agrees {κ ε : Type} {node : List (Site.Link κ) → Except ε (Site.Block κ)}
    (hnode : Site.NodesAgree id (fun _ => True) (fun _ => True) node node) {tree tree' : Site.Tree κ}
    {blocks blocks' : List (Site.Block κ)} (htree : tree'.Perm (Site.mapTree id tree))
    (hblocks : blocks'.Perm (blocks.map (Site.Block.map id))) (levels : ℕ) :
    Agrees SameBuilt ((Site.build node tree levels "" blocks).map rooted)
      ((Site.build node tree' levels "" blocks').map rooted) := by
  refine (Site.build_agrees_behind hnode Site.fitting_true (fun _ _ => trivial) htree hblocks levels "").map ?_
  rintro built built' ⟨-, haddress, hbuilt⟩
  rw [Site.map_id_blocks] at hbuilt
  exact ⟨congrArg Prod.fst haddress, hbuilt⟩

/-- On an engine the order of the files does not matter. -/
theorem importSite_perm_engine (hnodup : (files.map (·.path)).Nodup) (hperm : files'.Perm files) :
    Agrees SameBuilt (E.importSite H files) (E.importSite H files') := by
  have hnode : Site.NodesAgree id (fun _ => True) (fun _ => True) (E.directoryNode H) (E.directoryNode H) :=
    Site.nodesAgree_self checksNames_spec (fun sorted => Unixfs.own Unixfs.unixfsDirectory >>= fun data =>
      E.encodePbNode sorted data >>= fun bytes => Unixfs.own (Unixfs.dagPbBlock H bytes)) fun _ => rfl
  have hload : Agrees _ (engineLoad E H files) (engineLoad E H files') :=
    Site.load_agrees_perm (Site.filesAgree_self (E.makeFile H)) hnodup hperm
  rw [engineImport_eq, engineImport_eq]
  refine hload.found.bind ?_
  rintro ⟨blocks, tree⟩ ⟨blocks', tree'⟩ ⟨hfound, hfound', -, hblocks, htree⟩
  have hfrom := fromFiles_engine hfound
  have hfrom' := fromFiles_engine hfound'
  by_cases hdeep : ∃ file ∈ files, E.frames < (Path.split file.path).length
  · -- a path is too deep in either order
    obtain ⟨file, hfile, hdeep⟩ := hdeep
    obtain ⟨e, he⟩ := hfrom.overflows (E.directoryNode H) Unixfs.Failure.range hfile hdeep blocks
    obtain ⟨e', he'⟩ :=
      hfrom'.overflows (E.directoryNode H) Unixfs.Failure.range (hperm.mem_iff.2 hfile) hdeep blocks'
    simp only
    rw [he, he']
    exact .refused
  -- no path is too deep, so the frames never run out and both orders build the same tree
  · have hframe := E.frame
    have hdepth : ∀ file ∈ files, (Path.split file.path).length ≤ E.frames - 1 + 1 := by
      intro file hfile
      have hle := Nat.not_lt.1 fun hlt => hdeep ⟨file, hfile, hlt⟩
      omega
    have hdepth' : ∀ file ∈ files', (Path.split file.path).length ≤ E.frames - 1 + 1 :=
      fun file hfile => hdepth file (hperm.mem_iff.1 hfile)
    simp only
    rw [Site.buildIn_eq_build Unixfs.Failure.range hfrom.proper (hfrom.within hdepth) (by omega),
      Site.buildIn_eq_build Unixfs.Failure.range hfrom'.proper (hfrom'.within hdepth') (by omega)]
    exact map_build_agrees hnode htree hblocks _

/-- In the client the order of the files does not matter. -/
theorem importSite_perm_client (hnodup : (files.map (·.path)).Nodup) (hperm : files'.Perm files) :
    Agrees SameBuilt (Client.Publish.importSite H (files.map clientFile))
      (Client.Publish.importSite H (files'.map clientFile)) := by
  have hnode : Site.NodesAgree id (fun _ => True) (fun _ => True) (directoryNode H) (directoryNode H) :=
    Site.nodesAgree_self checksNames_client (fun sorted => .ok (dagPbBlock H (encodePbNode sorted unixfsDirectory)))
      fun _ => rfl
  have hload : Agrees _ (clientLoad H files) (clientLoad H files') :=
    Site.load_agrees_perm (Site.filesAgree_self (makeFile H)) hnodup hperm
  rw [clientImport_eq, clientImport_eq]
  refine hload.bind ?_
  rintro ⟨blocks, map⟩ ⟨blocks', map'⟩ ⟨-, hblocks, htree⟩
  have hsorted := (List.perm_insertionSort pathLe map).symm.map (fun entry => (entry.1, Site.Link.map id entry.2))
  have hpermuted : (map'.insertionSort pathLe).Perm (Site.mapTree id (map.insertionSort pathLe)) :=
    ((List.perm_insertionSort pathLe map').trans htree).trans hsorted
  rw [Site.depth_perm hpermuted]
  exact map_build_agrees hnode hpermuted hblocks _

/-! ## Both importers -/

/-- The limits of an engine in its default configuration. -/
def engine : Unixfs.Engine where
  arguments := 125000
  frames := 8000
  short := by decide
  safe := by decide
  frame := by decide

/-- A name of so many letters. -/
def longName (n : ℕ) : String := ofAscii (List.replicate n 0x61)

theorem length_longName (n : ℕ) : (utf8Encode (longName n)).length = n := by
  rw [longName, utf8Encode_ofAscii, List.length_replicate]
  intro b hb
  rw [List.eq_of_mem_replicate hb]
  decide

theorem notMem_longName (n : ℕ) : '/' ∉ (longName n).toList := by
  rw [longName, ofAscii, String.toList_ofList, List.map_replicate]
  intro hmem
  exact absurd (List.eq_of_mem_replicate hmem) (by decide)

/-- An empty file under a long name. -/
def longSite : List Unixfs.SiteFile := [⟨longName 130000, []⟩]

/-- A site with one long name takes more than the engine has. -/
theorem exceeds_longSite : Exceeds engine longSite := by
  have hlength := length_longName 130000
  have hslash := notMem_longName 130000
  rw [longSite]
  generalize longName 130000 = name at hlength hslash
  refine ⟨_, List.mem_cons_self, Or.inr (Or.inl ⟨name, ?_, ?_⟩)⟩
  · rw [Path.split_of_notMem hslash]
    exact List.mem_singleton_self _
  · rw [hlength]
    decide

/-- The client imports that site. -/
theorem clientImport_longSite (H : ContentHash) :
    ∃ built, Client.Publish.importSite H (longSite.map clientFile) = .ok built := by
  have hlength := length_longName 130000
  have hslash := notMem_longName 130000
  rw [longSite]
  generalize longName 130000 = name at hlength hslash
  have hname : name ∉ ["", ".", ".."] := by
    intro hmem
    have hall : ∀ s ∈ ["", ".", ".."], (utf8Encode s).length ≠ 130000 := by decide
    exact hall name hmem hlength
  exact ⟨_, Client.Dagnode.importSite_one H hslash hname [] rfl rfl⟩

open Fetch.OneFile in
/-- A site of two files, one of them in a directory, that fits. -/
theorem fits_two_files : Fits engine [⟨"d/a", leafBlock⟩, ⟨"b", leafBlock⟩] := by
  have hall : ∀ {P : Unixfs.SiteFile → Prop}, P ⟨"d/a", leafBlock⟩ → P ⟨"b", leafBlock⟩ →
      ∀ file ∈ [(⟨"d/a", leafBlock⟩ : Unixfs.SiteFile), ⟨"b", leafBlock⟩], P file := by
    intro P hfirst hsecond file hfile
    rcases List.mem_cons.1 hfile with rfl | hfile
    · exact hfirst
    · rw [List.mem_singleton.1 hfile]
      exact hsecond
  refine ⟨hall ?_ ?_, hall ?_ ?_, hall ?_ ?_, ?_⟩
  · decide
  · decide
  · decide
  · decide
  · decide
  · decide
  · decide

end VayuWeb
