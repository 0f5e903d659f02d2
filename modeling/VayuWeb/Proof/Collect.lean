import VayuWeb.Base.Enumerate
import VayuWeb.Client.Collect
import VayuWeb.Proof.Determined

/-!
# The files a checker sees

* `collectFilesFrom_eq`: the walk enumerates the leaves of the tree.
* `leaf_of_readPath`: whatever can be read is one of them.
* `collect_files_iff`: when the walk lists exactly what can be read.
-/

namespace VayuWeb.Client.Dagnode

open Bytes BlockStore Enumerate
open Publish (SiteFile)

section

variable {H : ContentHash} {disk : Disk} {limits : WalkLimits} {root cid : Cid} {route route' : List ℕ}
  {names segments : List String} {files : List SiteFile} {content : Bytes}

/-! ## The tree under a root -/

/-- The entries of a directory. -/
def entriesOf (H : ContentHash) (disk : Disk) (limits : WalkLimits) (cid : Cid) :
    Except WalkError (Option (List (String × Cid))) :=
  match readNode H disk limits cid with
  | .error error => .error error
  | .ok (.directory entries) => .ok (some (entries.map fun entry => (entry.name, entry.cid)))
  | .ok _ => .ok none

/-- A route through the entries of directories leads to a file, by these names. -/
def LeadsToFile (H : ContentHash) (disk : Disk) (limits : WalkLimits) (root : Cid) : List ℕ → List String → Prop :=
  Leaf (entriesOf H disk limits) root

/-- One file as the walk lists it. -/
def readAgain (H : ContentHash) (disk : Disk) (limits : WalkLimits) (root : Cid) (names : List String) :
    Except WalkError SiteFile :=
  match readPath H disk limits root names with
  | .error error => .error error
  | .ok content => .ok { path := Path.join names, content := content }

/-- What reading a collected file again gives. -/
theorem readAgain_eq_ok {file : SiteFile} : readAgain H disk limits root names = .ok file ↔
    readPath H disk limits root names = .ok file.content ∧ file.path = Path.join names := by
  obtain ⟨path, content⟩ := file
  unfold readAgain
  cases readPath H disk limits root names with
  | error error => simp
  | ok content' =>
    rw [Except.ok.injEq, Except.ok.injEq, SiteFile.mk.injEq]
    constructor
    · rintro ⟨hpath, hcontent⟩
      exact ⟨hcontent, hpath.symm⟩
    · rintro ⟨hcontent, hpath⟩
      exact ⟨hpath.symm, hcontent⟩

/-- **The walk is the enumeration of the leaves.** -/
theorem collectFilesFrom_eq (fuel : ℕ) : ∀ (stack : List (List String × Cid)) (files : List SiteFile),
    collectFilesFrom H disk limits root fuel stack files =
      run (entriesOf H disk limits) (readAgain H disk limits root) fuel stack files := by
  induction fuel with
  | zero =>
    intro stack files
    cases stack <;> rfl
  | succ fuel ih =>
    intro stack files
    cases stack with
    | nil => rfl
    | cons item stack =>
      obtain ⟨above, cid⟩ := item
      rw [collectFilesFrom, run, entriesOf]
      cases readNode H disk limits cid with
      | error error => rfl
      | ok node =>
        cases node with
        | directory entries =>
          dsimp only
          rw [ih, List.map_map]
          rfl
        -- a leaf's content is read again from the root, by its path
        | raw bytes =>
          dsimp only
          rw [readAgain]
          cases readPath H disk limits root above with
          | error error => rfl
          | ok content => exact ih _ _
        | file data children =>
          dsimp only
          rw [readAgain]
          cases readPath H disk limits root above with
          | error error => rfl
          | ok content => exact ih _ _

/-! ## What can be read -/

/-- A path that leads somewhere is a route. -/
theorem exists_follow (h : descend H disk limits root segments = .ok cid) :
    ∃ route, follow (entriesOf H disk limits) root route = some (segments, cid) := by
  induction segments generalizing root with
  | nil =>
    rw [descend, Except.ok.injEq] at h
    exact ⟨[], by rw [follow, h]⟩
  | cons segment segments ih =>
    rw [descend, Except.bind_eq_ok] at h
    obtain ⟨node, hnode, h⟩ := h
    cases node with
    | directory entries =>
      dsimp only at h
      cases hfind : entries.find? fun entry => entry.name = segment with
      | none => simp [hfind] at h
      | some entry =>
        simp only [hfind] at h
        obtain ⟨route, hroute⟩ := ih h
        obtain ⟨i, hi, hentry⟩ := List.getElem_of_mem (List.mem_of_find?_eq_some hfind)
        have hname : entry.name = segment := by simpa using List.find?_some hfind
        refine ⟨i :: route, ?_⟩
        rw [follow, entriesOf, hnode]
        dsimp only
        rw [List.getElem?_map, List.getElem?_eq_getElem hi, hentry, Option.map_some]
        dsimp only
        rw [hroute, hname]
        rfl
    | raw bytes => exact absurd h (by simp)
    | file data children => exact absurd h (by simp)

/-- What is assembled is a file. -/
theorem entriesOf_of_assembleFile {levels depthLeft : ℕ} {result : Bytes × ℕ}
    (h : assembleFile H disk limits levels cid depthLeft = .ok result) : entriesOf H disk limits cid = .ok none := by
  cases levels with
  | zero => exact absurd h (by simp [assembleFile])
  | succ levels =>
    rw [assembleFile] at h
    split_ifs at h
    obtain ⟨node, hnode, h⟩ := Except.bind_eq_ok.1 h
    rw [entriesOf, hnode]
    cases node with
    | raw bytes => rfl
    | file data children => rfl
    | directory entries => exact absurd h (by simp)

/-- **Whatever can be read is a leaf.** -/
theorem leaf_of_readPath (h : readPath H disk limits root segments = .ok content) :
    ∃ route, LeadsToFile H disk limits root route segments := by
  rw [readPath, Except.bind_eq_ok] at h
  obtain ⟨cid, hdescend, h⟩ := h
  obtain ⟨result, hassemble, -⟩ := Except.bind_eq_ok.1 h
  obtain ⟨route, hroute⟩ := exists_follow hdescend
  exact ⟨route, cid, hroute, entriesOf_of_assembleFile hassemble⟩

/-- Nothing is read below a file. -/
theorem readPath_of_file (hfile : entriesOf H disk limits root = .ok none) (hne : segments ≠ []) :
    readPath H disk limits root segments ≠ .ok content := by
  intro h
  obtain ⟨route, node, hroute, -⟩ := leaf_of_readPath h
  cases route with
  | nil =>
    rw [follow, Option.some.injEq, Prod.mk.injEq] at hroute
    exact hne hroute.1.symm
  | cons i route =>
    rw [follow, hfile] at hroute
    exact absurd hroute (by simp)

/-- A route has its names. -/
theorem names_unique {names' : List String} (h : LeadsToFile H disk limits root route names)
    (h' : LeadsToFile H disk limits root route names') : names = names' := by
  obtain ⟨node, hroute, -⟩ := h
  obtain ⟨node', hroute', -⟩ := h'
  rw [hroute, Option.some.injEq, Prod.mk.injEq] at hroute'
  exact hroute'.1

/-! ## The list of files -/

/-- What the walk has listed. -/
theorem collectFiles_spec {fuel : ℕ} (h : collectFiles H disk limits fuel root = some (.ok files)) :
    ∃ routes : List (List ℕ), routes.Nodup ∧
      (∀ route, route ∈ routes ↔ ∃ names, LeadsToFile H disk limits root route names) ∧
      List.Forall₂ (fun route file => ∃ names, LeadsToFile H disk limits root route names ∧
        readPath H disk limits root names = .ok file.content ∧ file.path = Path.join names) routes files := by
  rw [collectFiles, collectFilesFrom_eq] at h
  obtain ⟨routes, hnodup, hcovers, hfound⟩ := run_spec h
  refine ⟨routes, hnodup, hcovers, Except.forall₂_imp_mem hfound ?_⟩
  rintro route - file ⟨names, hleaf, hread⟩
  exact ⟨names, hleaf, readAgain_eq_ok.1 hread⟩

/-- The path that a route spells. -/
def pathAt (H : ContentHash) (disk : Disk) (limits : WalkLimits) (root : Cid) (route : List ℕ) : String :=
  Path.join (((follow (entriesOf H disk limits) root route).map Prod.fst).getD [])

/-- The path of a route to a file is its names, joined. -/
theorem pathAt_of_leads (h : LeadsToFile H disk limits root route names) :
    pathAt H disk limits root route = Path.join names := by
  obtain ⟨node, hroute, -⟩ := h
  rw [pathAt, hroute]
  rfl

/-- The paths of the list are those that the routes spell. -/
theorem paths_eq {routes : List (List ℕ)} (h : List.Forall₂ (fun route file => ∃ names,
      LeadsToFile H disk limits root route names ∧ readPath H disk limits root names = .ok file.content ∧
        file.path = Path.join names) routes files) :
    files.map (·.path) = routes.map (pathAt H disk limits root) := by
  induction h with
  | nil => rfl
  | cons hfile _ ih =>
    obtain ⟨names, hleaf, -, hpath⟩ := hfile
    rw [List.map_cons, List.map_cons, ih, pathAt_of_leads hleaf, hpath]

/-- The list says what can be read: every path once, with its content. -/
structure Lists (H : ContentHash) (disk : Disk) (limits : WalkLimits) (root : Cid) (files : List SiteFile) : Prop where
  distinct : (files.map (·.path)).Nodup
  reads : ∀ segments : List String, segments ≠ [] → (∀ s ∈ segments, '/' ∉ s.toList) → ∀ content,
    readPath H disk limits root segments = .ok content ↔ { path := Path.join segments, content := content } ∈ files

/-- The names in a tree tell its files apart: the root is no file, no name on the way to a file has a slash, and no two
routes to files spell the same names. -/
structure Unambiguous (H : ContentHash) (disk : Disk) (limits : WalkLimits) (root : Cid) : Prop where
  directory : ¬ LeadsToFile H disk limits root [] []
  slashless : ∀ route names, LeadsToFile H disk limits root route names → ∀ name ∈ names, '/' ∉ name.toList
  apart : ∀ route route' names, LeadsToFile H disk limits root route names →
    LeadsToFile H disk limits root route' names → route = route'

theorem Unambiguous.ne_nil (h : Unambiguous H disk limits root) (hleaf : LeadsToFile H disk limits root route names) :
    names ≠ [] := by
  rintro rfl
  cases route with
  | nil => exact h.directory hleaf
  | cons i route =>
    obtain ⟨node, hroute, -⟩ := hleaf
    rw [follow] at hroute
    split at hroute
    · split at hroute
      · simp at hroute
      · exact absurd hroute (by simp)
    · exact absurd hroute (by simp)

/-- Paths of slashless names tell the names apart. -/
theorem join_injective {a b : List String} (ha : a ≠ []) (hb : b ≠ []) (hslash : ∀ s ∈ a, '/' ∉ s.toList)
    (hslash' : ∀ s ∈ b, '/' ∉ s.toList) (h : Path.join a = Path.join b) : a = b := by
  rw [← Path.split_join ha hslash, h, Path.split_join hb hslash']

/-- **The walk lists exactly what can be read**, every path once, exactly when the names tell the files apart. -/
theorem collect_files_iff (fuel : ℕ) (h : collectFiles H disk limits fuel root = some (.ok files)) :
    Lists H disk limits root files ↔ Unambiguous H disk limits root := by
  obtain ⟨routes, hnodup, hcovers, hfound⟩ := collectFiles_spec h
  -- a file of the list for every leaf
  have hlisted : ∀ route names, LeadsToFile H disk limits root route names → ∃ file ∈ files,
      readPath H disk limits root names = .ok file.content ∧ file.path = Path.join names := by
    intro route names hleaf
    obtain ⟨file, hfile, names', hleaf', hread⟩ :=
      Except.exists_of_forall₂_left hfound ((hcovers route).2 ⟨names, hleaf⟩)
    rw [names_unique hleaf hleaf']
    exact ⟨file, hfile, hread⟩
  have hpaths := paths_eq hfound
  constructor
  · intro hlists
    have hdistinct := hlists.distinct
    rw [hpaths, List.nodup_map_iff_inj_on hnodup] at hdistinct
    -- routes to files by one path are the same
    have hinj : ∀ route route' names names', LeadsToFile H disk limits root route names →
        LeadsToFile H disk limits root route' names' → Path.join names = Path.join names' → route = route' := by
      intro route route' names names' hleaf hleaf' hjoin
      apply hdistinct route ((hcovers route).2 ⟨names, hleaf⟩) route' ((hcovers route').2 ⟨names', hleaf'⟩)
      rw [pathAt_of_leads hleaf, pathAt_of_leads hleaf', hjoin]
    refine ⟨?_, ?_, ?_⟩
    · intro hroot
      obtain ⟨file, hfile, hread, hpath⟩ := hlisted [] [] hroot
      have hempty : Path.join [""] = Path.join [] := rfl
      have hmem : ({ path := Path.join [""], content := file.content } : SiteFile) ∈ files := by
        rw [hempty, ← hpath]
        exact hfile
      have hblank : ∀ s ∈ [""], '/' ∉ s.toList := by
        intro s hs
        rw [List.mem_singleton.1 hs]
        exact List.not_mem_nil
      obtain ⟨node, hroute, hleaf⟩ := hroot
      rw [follow, Option.some.injEq, Prod.mk.injEq] at hroute
      rw [← hroute.2] at hleaf
      exact readPath_of_file hleaf (List.cons_ne_nil _ _) ((hlists.reads [""] (List.cons_ne_nil _ _) hblank _).2 hmem)
    · intro route names hleaf name hname hslash
      obtain ⟨file, hfile, hread, hpath⟩ := hlisted route names hleaf
      -- the path splits into other names, which can be read too
      have hsplit : Path.join (Path.split (Path.join names)) = Path.join names := Path.join_split _
      have hmem : ({ path := Path.join (Path.split (Path.join names)), content := file.content } : SiteFile) ∈
          files := by
        rw [hsplit, ← hpath]
        exact hfile
      have hread' := (hlists.reads _ (Path.split_ne_nil _) (fun s hs => Path.notMem_of_mem_split hs) _).2 hmem
      obtain ⟨route', hleaf'⟩ := leaf_of_readPath hread'
      have hroutes := hinj route route' names _ hleaf hleaf' hsplit.symm
      rw [← hroutes] at hleaf'
      rw [names_unique hleaf hleaf'] at hname
      exact Path.notMem_of_mem_split hname hslash
    · intro route route' names hleaf hleaf'
      exact hinj route route' names names hleaf hleaf' rfl
  · intro hclear
    refine ⟨?_, ?_⟩
    · rw [hpaths, List.nodup_map_iff_inj_on hnodup]
      intro route hroute route' hroute' hjoin
      obtain ⟨names, hleaf⟩ := (hcovers route).1 hroute
      obtain ⟨names', hleaf'⟩ := (hcovers route').1 hroute'
      rw [pathAt_of_leads hleaf, pathAt_of_leads hleaf'] at hjoin
      have hnames := join_injective (hclear.ne_nil hleaf) (hclear.ne_nil hleaf') (hclear.slashless route names hleaf)
        (hclear.slashless route' names' hleaf') hjoin
      rw [← hnames] at hleaf'
      exact hclear.apart route route' names hleaf hleaf'
    · intro segments hne hslash content
      constructor
      · intro hread
        obtain ⟨route, hleaf⟩ := leaf_of_readPath hread
        obtain ⟨file, hfile, hread', hpath⟩ := hlisted route segments hleaf
        rw [hread, Except.ok.injEq] at hread'
        rw [hread', ← hpath]
        exact hfile
      · intro hmem
        obtain ⟨route, -, names, hleaf, hread, hpath⟩ := Except.exists_of_forall₂_right hfound hmem
        have hnames := join_injective hne (hclear.ne_nil hleaf) hslash (hclear.slashless route names hleaf) hpath
        rw [hnames]
        exact hread

end

/-! ## A directory of two names -/

namespace TwoNames

open Fetch.OneFile (leafDigest)
open Fetch.TwoFiles (first second innerBlock rootBlock secondDigest innerDigest rootDigest)

/-- The CID of the first leaf. -/
def firstCid : Cid := { version := 1, codec := codecRaw, digest := leafDigest }

/-- The CID of the second leaf. -/
def secondCid : Cid := { version := 1, codec := codecRaw, digest := secondDigest }

/-- The CID of the inner directory. -/
def innerCid : Cid := { version := 1, codec := codecDagPb, digest := innerDigest }

/-- The CID of the root. -/
def rootCid : Cid := { version := 1, codec := codecDagPb, digest := rootDigest }

/-- A directory of the first file, under its name twice. -/
def twiceBlock : Bytes := rootBlock.take 45 ++ rootBlock.take 45 ++ rootBlock.drop 90

/-- The digest of a directory that names one entry twice. -/
def twiceDigest : Digest :=
  ⟨[0x0e, 0xb7, 0xee, 0x8e, 0x93, 0x23, 0x07, 0x8d, 0xc0, 0x02, 0x25, 0xb8, 0xb0, 0x74, 0x72, 0x73,
    0x3b, 0xb6, 0x68, 0xf7, 0x1b, 0xb6, 0xac, 0x6d, 0x08, 0x18, 0x93, 0xef, 0xdc, 0xfe, 0x66, 0x8b], by decide⟩

/-- The CID of that directory. -/
def twiceCid : Cid := { version := 1, codec := codecDagPb, digest := twiceDigest }

/-- SHA-256 on the five blocks. -/
def sha : ContentHash where
  sha256 bytes := if bytes = twiceBlock then twiceDigest else Fetch.TwoFiles.hash.sha256 bytes

/-- A disk that holds these blocks. -/
def disk : Disk :=
  ((((Disk.empty.write firstCid.toText first).write secondCid.toText second).write innerCid.toText innerBlock).write
    rootCid.toText rootBlock).write twiceCid.toText twiceBlock

/-- What is collected of a plain site, and of one with a repeated name. -/
theorem collected : collectFiles sha disk .standard 4 rootCid = some (.ok [⟨"d/b", second⟩, ⟨"a", first⟩]) ∧
    collectFiles sha disk .standard 3 twiceCid = some (.ok [⟨"a", first⟩, ⟨"a", first⟩]) := by
  decide +kernel

theorem entriesOf_cases : entriesOf sha disk .standard rootCid = .ok (some [("a", firstCid), ("d", innerCid)]) ∧
    entriesOf sha disk .standard innerCid = .ok (some [("b", secondCid)]) ∧
      entriesOf sha disk .standard firstCid = .ok none ∧ entriesOf sha disk .standard secondCid = .ok none := by
  decide +kernel

/-- The routes to the two files. -/
theorem leads_iff {route : List ℕ} {names : List String} (h : LeadsToFile sha disk .standard rootCid route names) :
    (route = [0] ∧ names = ["a"]) ∨ (route = [1, 0] ∧ names = ["d", "b"]) := by
  obtain ⟨hroot, hinner, hfirst, hsecond⟩ := entriesOf_cases
  obtain ⟨i, entry, more, rest, rfl, rfl, hentry, hleaf⟩ := exists_cons_of_leaf hroot h
  cases i with
  | zero =>
    obtain rfl := Option.some.inj hentry
    obtain ⟨rfl, rfl⟩ := eq_nil_of_leaf hfirst hleaf
    exact Or.inl ⟨rfl, rfl⟩
  | succ i =>
    rw [List.getElem?_cons_succ, List.getElem?_singleton] at hentry
    split_ifs at hentry with hi
    obtain rfl := Option.some.inj hentry
    obtain ⟨j, entry', more', rest', rfl, rfl, hentry', hleaf'⟩ := exists_cons_of_leaf hinner hleaf
    rw [List.getElem?_singleton] at hentry'
    split_ifs at hentry' with hj
    obtain rfl := Option.some.inj hentry'
    obtain ⟨rfl, rfl⟩ := eq_nil_of_leaf hsecond hleaf'
    rw [hi, hj]
    exact Or.inr ⟨rfl, rfl⟩

theorem unambiguous : Unambiguous sha disk .standard rootCid := by
  refine ⟨?_, ?_, ?_⟩
  · intro h
    rcases leads_iff h with ⟨hroute, -⟩ | ⟨hroute, -⟩
    · exact absurd hroute (by simp)
    · exact absurd hroute (by simp)
  · intro route names h name hname
    have hall : ∀ name ∈ ["a", "d", "b"], '/' ∉ name.toList := by decide
    refine hall name ?_
    rcases leads_iff h with ⟨-, rfl⟩ | ⟨-, rfl⟩
    · rw [List.mem_singleton.1 hname]
      exact List.mem_cons_self
    · exact List.mem_cons_of_mem _ hname
  · intro route route' names h h'
    rcases leads_iff h with ⟨rfl, rfl⟩ | ⟨rfl, rfl⟩
    · rcases leads_iff h' with ⟨rfl, -⟩ | ⟨-, hnames⟩
      · rfl
      · exact absurd hnames (by simp)
    · rcases leads_iff h' with ⟨-, hnames⟩ | ⟨rfl, -⟩
      · exact absurd hnames (by simp)
      · rfl

end TwoNames

open TwoNames in
/-- A directory of a file and of another with a file of its own. -/
theorem collect_files_iff_two_names :
    Lists sha disk .standard rootCid [⟨"d/b", Fetch.TwoFiles.second⟩, ⟨"a", Fetch.TwoFiles.first⟩] :=
  (collect_files_iff 4 collected.1).2 unambiguous

open TwoNames in
/-- A directory that names one file twice is listed with one path twice. -/
theorem collected_twice : ¬ ∀ (H : ContentHash) (disk : Disk) (root : Cid) (fuel : ℕ) (files : List SiteFile),
    collectFiles H disk .standard fuel root = some (.ok files) → Lists H disk .standard root files := by
  intro h
  have hdistinct := (h sha disk twiceCid 3 _ collected.2).distinct
  exact absurd hdistinct (by simp)

end VayuWeb.Client.Dagnode
