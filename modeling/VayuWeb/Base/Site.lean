import VayuWeb.Base.Bytes
import VayuWeb.Base.Except
import VayuWeb.Base.Path
import Mathlib.Data.List.Dedup

/-!
# Directories from paths

A tree is a list of links under paths. Its directories are nowhere declared: one is where a path
goes through it. They are built from below, each into a block that a parameter makes of its
entries.

* `mem_entriesIn`, `mem_subdirectoriesIn`: what stands in a directory.
* `Route`: how the blocks lead from a directory to what a path names.
* `routes_of_build`: every path of the tree has its route.
-/

namespace Site

/-- A child by its address: the name it has here, and its size with all below. -/
structure Link (κ : Type) where
  cid : κ
  name : String
  tsize : ℕ
  deriving DecidableEq, Repr

/-- A block and its name. -/
structure Block (κ : Type) where
  cid : κ
  bytes : Bytes
  deriving DecidableEq, Repr

/-- A tree as links under their whole paths. -/
abbrev Tree (κ : Type) := List (String × Link κ)

variable {κ ε : Type}

/-- The links that stand in a directory itself. -/
def entriesIn (tree : Tree κ) (dir : String) : List (Link κ) :=
  tree.filterMap fun entry => (Path.below dir entry.1).bind fun relative =>
    if '/' ∈ relative.toList then none else some { entry.2 with name := relative }

/-- The directories in a directory, in the order of their first paths. -/
def subdirectoriesIn (tree : Tree κ) (dir : String) : List String :=
  (tree.filterMap fun entry => (Path.below dir entry.1).bind fun relative =>
    if '/' ∈ relative.toList then some (Path.head relative) else none).eraseDups

section Build

variable (node : List (Link κ) → Except ε (Block κ)) (tree : Tree κ)

/-- A directory of its entries: its address and its size with all below, and its block behind the
others. -/
def close (entries : List (Link κ)) (blocks : List (Block κ)) : Except ε ((κ × ℕ) × List (Block κ)) := do
  let block ← node entries
  return ((block.cid, block.bytes.length + (entries.map (·.tsize)).sum), blocks ++ [block])

/-- One subdirectory: its link behind the entries, its blocks behind the others. -/
def enter (build : String → List (Block κ) → Except ε ((κ × ℕ) × List (Block κ))) (dir : String)
    (state : List (Link κ) × List (Block κ)) (name : String) : Except ε (List (Link κ) × List (Block κ)) := do
  let (address, blocks) ← build (Path.child dir name) state.2
  return (state.1 ++ [{ cid := address.1, name := name, tsize := address.2 }], blocks)

/-- Build one directory, its subdirectories first; so many levels of these at most. -/
def build : ℕ → String → List (Block κ) → Except ε ((κ × ℕ) × List (Block κ))
  | 0, dir, blocks => close node (entriesIn tree dir) blocks
  | levels + 1, dir, blocks => do
    let (entries, blocks) ← (subdirectoriesIn tree dir).foldlM (enter (build levels) dir) (entriesIn tree dir, blocks)
    close node entries blocks

/-- The same on a stack of so many frames, with the error of an overflow. -/
def buildIn (overflow : ε) : ℕ → String → List (Block κ) → Except ε ((κ × ℕ) × List (Block κ))
  | 0, _, _ => .error overflow
  | frames + 1, dir, blocks => do
    let (entries, blocks) ←
      (subdirectoriesIn tree dir).foldlM (enter (buildIn overflow frames) dir) (entriesIn tree dir, blocks)
    close node entries blocks

/-- As many levels as the longest path has characters. -/
def depth : ℕ := (tree.map (·.1.toList.length)).foldr max 0

end Build

/-! ## What stands in a directory -/

/-- The files directly in a directory. -/
theorem mem_entriesIn {tree : Tree κ} {dir : String} {e : Link κ} :
    e ∈ entriesIn tree dir ↔ ∃ path link, (path, link) ∈ tree ∧
      Path.split path = Path.dirSegments dir ++ [e.name] ∧ e = { link with name := e.name } := by
  rw [entriesIn, List.mem_filterMap]
  constructor
  · rintro ⟨⟨path, link⟩, hmem, h⟩
    obtain ⟨relative, hbelow, h⟩ := Option.bind_eq_some_iff.1 h
    split_ifs at h with hslash
    rw [Option.some.injEq] at h
    rw [Path.below_eq_some, Path.split_of_notMem hslash] at hbelow
    rw [← h]
    exact ⟨path, link, hmem, hbelow, rfl⟩
  · rintro ⟨path, link, hmem, hsplit, he⟩
    have hin : e.name ∈ Path.split path := by
      rw [hsplit]
      exact List.mem_append_right _ (List.mem_singleton_self _)
    have hslash := Path.notMem_of_mem_split hin
    refine ⟨(path, link), hmem, Option.bind_eq_some_iff.2 ⟨e.name, ?_, ?_⟩⟩
    · rw [Path.below_eq_some, hsplit, Path.split_of_notMem hslash]
    · rw [if_neg hslash, Option.some.injEq]
      exact he.symm

theorem nodup_eraseDups (as : List String) : as.eraseDups.Nodup := by
  -- by induction on the length, as the tail is filtered
  generalize hn : as.length = n
  induction n using Nat.strong_induction_on generalizing as with
  | _ n ih =>
    cases as with
    | nil => exact List.nodup_nil
    | cons a as =>
      rw [List.eraseDups_cons, List.nodup_cons]
      constructor
      · rw [List.mem_eraseDups, List.mem_filter]
        simp
      · refine ih _ ?_ _ rfl
        have hle := List.length_filter_le (fun b => !b == a) as
        rw [List.length_cons] at hn
        omega

/-- The directories directly in a directory. -/
theorem mem_subdirectoriesIn {tree : Tree κ} {dir s : String} :
    s ∈ subdirectoriesIn tree dir ↔ ∃ path link rest, (path, link) ∈ tree ∧ rest ≠ [] ∧
      Path.split path = Path.dirSegments dir ++ s :: rest := by
  rw [subdirectoriesIn, List.mem_eraseDups, List.mem_filterMap]
  constructor
  · rintro ⟨⟨path, link⟩, hmem, h⟩
    obtain ⟨relative, hbelow, h⟩ := Option.bind_eq_some_iff.1 h
    split_ifs at h with hslash
    rw [Option.some.injEq] at h
    obtain ⟨rest, hsplit, hrest⟩ := Path.split_of_mem hslash
    rw [Path.below_eq_some, hsplit, h] at hbelow
    exact ⟨path, link, rest, hmem, hrest, hbelow⟩
  -- the rest is not empty, so the path goes on behind the name
  · rintro ⟨path, link, rest, hmem, hrest, hsplit⟩
    have hnot : ∀ t ∈ s :: rest, '/' ∉ t.toList := by
      intro t ht
      have hin : t ∈ Path.split path := by
        rw [hsplit]
        exact List.mem_append_right _ ht
      exact Path.notMem_of_mem_split hin
    have hjoin := Path.split_join (List.cons_ne_nil s rest) hnot
    have hslash : '/' ∈ (Path.join (s :: rest)).toList := by
      by_contra hno
      rw [Path.split_of_notMem hno, List.cons.injEq] at hjoin
      exact hrest hjoin.2.symm
    refine ⟨(path, link), hmem, Option.bind_eq_some_iff.2 ⟨Path.join (s :: rest), ?_, ?_⟩⟩
    · rw [Path.below_eq_some, hsplit, hjoin]
    · obtain ⟨rest', hsplit', -⟩ := Path.split_of_mem hslash
      rw [hjoin, List.cons.injEq] at hsplit'
      rw [if_pos hslash, ← hsplit'.1]

/-- A name stands in the directory of some segments. -/
def Child (tree : Tree κ) (dir : List String) (s : String) : Prop :=
  ∃ path link rest, (path, link) ∈ tree ∧ Path.split path = dir ++ s :: rest

/-- The entries are the names that stand in the directory. -/
def Names (tree : Tree κ) (dir : List String) (entries : List (Link κ)) : Prop :=
  ∀ s, s ∈ entries.map (·.name) ↔ Child tree dir s

/-- No segment is empty. -/
def Proper (tree : Tree κ) : Prop := ∀ path link, (path, link) ∈ tree → ∀ s ∈ Path.split path, s ≠ ""

/-- An address of a link of the tree or of a block. -/
def Known (tree : Tree κ) (blocks : List (Block κ)) (cid : κ) : Prop :=
  (∃ path link, (path, link) ∈ tree ∧ link.cid = cid) ∨ ∃ block ∈ blocks, block.cid = cid

/-- The entries of a directory: the names that stand there, with addresses that are known. -/
structure Lists (tree : Tree κ) (blocks : List (Block κ)) (dir : List String) (entries : List (Link κ)) : Prop where
  names : Names tree dir entries
  known : ∀ e ∈ entries, Known tree blocks e.cid

/-- A directory lists the same once more blocks are there. -/
theorem Lists.mono {tree : Tree κ} {blocks blocks' : List (Block κ)} {dir : List String} {entries : List (Link κ)}
    (hsub : blocks ⊆ blocks') (h : Lists tree blocks dir entries) : Lists tree blocks' dir entries := by
  refine ⟨h.names, ?_⟩
  intro e he
  rcases h.known e he with hlink | ⟨block, hblock, hcid⟩
  · exact Or.inl hlink
  · exact Or.inr ⟨block, hsub hblock, hcid⟩

/-- How the blocks lead from the directory under `root` to a target: in each directory on the way
an entry has the segment's name. -/
def Route (node : List (Link κ) → Except ε (Block κ)) (tree : Tree κ) (blocks : List (Block κ)) :
    List String → List String → κ → κ → Prop
  | _, [], root, target => target = root
  | dir, s :: segments, root, target => ∃ entries block e, node entries = .ok block ∧ block ∈ blocks ∧
      block.cid = root ∧ Lists tree blocks dir entries ∧ e ∈ entries ∧ e.name = s ∧
      Route node tree blocks (dir ++ [s]) segments e.cid target

/-- A route is still one once more blocks are there. -/
theorem Route.mono {node : List (Link κ) → Except ε (Block κ)} {tree : Tree κ} {blocks blocks' : List (Block κ)}
    (hsub : blocks ⊆ blocks') {dir segments : List String} {root target : κ}
    (h : Route node tree blocks dir segments root target) : Route node tree blocks' dir segments root target := by
  induction segments generalizing dir root with
  | nil => exact h
  | cons s segments ih =>
    obtain ⟨entries, block, e, hnode, hmem, hcid, hlists, he, hname, h⟩ := h
    exact ⟨entries, block, e, hnode, hsub hmem, hcid, hlists.mono hsub, he, hname, ih h⟩

/-- A route goes through the directory that its first segments lead to. -/
theorem Route.split {node : List (Link κ) → Except ε (Block κ)} {tree : Tree κ} {blocks : List (Block κ)}
    {dir before after : List String} {root target : κ}
    (h : Route node tree blocks dir (before ++ after) root target) :
    ∃ mid, Route node tree blocks dir before root mid ∧ Route node tree blocks (dir ++ before) after mid target := by
  induction before generalizing dir root with
  | nil =>
    rw [List.append_nil]
    exact ⟨root, rfl, h⟩
  | cons s before ih =>
    obtain ⟨entries, block, e, hnode, hmem, hcid, hlists, he, hname, h⟩ := h
    obtain ⟨mid, hbefore, hafter⟩ := ih h
    rw [List.append_assoc, List.singleton_append] at hafter
    exact ⟨mid, ⟨entries, block, e, hnode, hmem, hcid, hlists, he, hname, hbefore⟩, hafter⟩

/-! ## What is built -/

section Built

variable {node : List (Link κ) → Except ε (Block κ)} {tree : Tree κ}

/-- What closing a directory makes. -/
theorem close_eq_ok {entries : List (Link κ)} {blocks blocks' : List (Block κ)} {cid : κ} {tsize : ℕ} :
    close node entries blocks = .ok ((cid, tsize), blocks') ↔ ∃ block, node entries = .ok block ∧
      cid = block.cid ∧ tsize = block.bytes.length + (entries.map (·.tsize)).sum ∧ blocks' = blocks ++ [block] := by
  rw [close, Except.bind_eq_ok]
  simp only [Except.pure_eq_ok, Except.ok.injEq, Prod.mk.injEq]
  constructor
  · rintro ⟨block, hnode, ⟨hcid, htsize⟩, hblocks⟩
    exact ⟨block, hnode, hcid.symm, htsize.symm, hblocks.symm⟩
  · rintro ⟨block, hnode, hcid, htsize, hblocks⟩
    exact ⟨block, hnode, ⟨hcid.symm, htsize.symm⟩, hblocks.symm⟩

/-- What entering a subdirectory makes. -/
theorem enter_eq_ok {build : String → List (Block κ) → Except ε ((κ × ℕ) × List (Block κ))} {dir name : String}
    {entries entries' : List (Link κ)} {blocks blocks' : List (Block κ)} :
    enter build dir (entries, blocks) name = .ok (entries', blocks') ↔
      ∃ cid tsize, build (Path.child dir name) blocks = .ok ((cid, tsize), blocks') ∧
        entries' = entries ++ [{ cid := cid, name := name, tsize := tsize }] := by
  rw [enter, Except.bind_eq_ok]
  simp only [Except.pure_eq_ok, Except.ok.injEq, Prod.mk.injEq]
  constructor
  · rintro ⟨⟨address, blocks₁⟩, hchild, hentries, hblocks⟩
    rw [← hblocks]
    exact ⟨address.1, address.2, hchild, hentries.symm⟩
  · rintro ⟨cid, tsize, hchild, hentries⟩
    exact ⟨((cid, tsize), blocks'), hchild, hentries.symm, rfl⟩

/-- What a subdirectory's link was made from. -/
def Entered (build : String → List (Block κ) → Except ε ((κ × ℕ) × List (Block κ))) (dir : String)
    (blocks : List (Block κ)) (e : Link κ) : Prop :=
  ∃ before after, build (Path.child dir e.name) before = .ok ((e.cid, e.tsize), after) ∧ after ⊆ blocks

/-- The subdirectories one after the other, when each leaves the blocks before it in place. -/
theorem entered_of_foldlM {build : String → List (Block κ) → Except ε ((κ × ℕ) × List (Block κ))} {dir : String}
    (hbuild : ∀ {child blocks address blocks'}, build child blocks = .ok (address, blocks') → blocks ⊆ blocks')
    {names : List String} {entries entries' : List (Link κ)} {blocks blocks' : List (Block κ)}
    (h : names.foldlM (enter build dir) (entries, blocks) = .ok (entries', blocks')) :
    blocks ⊆ blocks' ∧ ∃ subs : List (Link κ), entries' = entries ++ subs ∧ subs.map (·.name) = names ∧
      ∀ e ∈ subs, Entered build dir blocks' e := by
  induction names generalizing entries blocks with
  | nil =>
    rw [List.foldlM_nil, Except.pure_eq_ok, Except.ok.injEq, Prod.mk.injEq] at h
    rw [← h.1, ← h.2]
    exact ⟨List.Subset.refl _, [], (List.append_nil _).symm, rfl, by simp⟩
  | cons name names ih =>
    rw [List.foldlM_cons, Except.bind_eq_ok] at h
    obtain ⟨⟨entries₁, blocks₁⟩, henter, h⟩ := h
    obtain ⟨cid, tsize, hchild, hentries⟩ := enter_eq_ok.1 henter
    obtain ⟨hsub, subs, hentries', hnames, hentered⟩ := ih h
    refine ⟨List.Subset.trans (hbuild hchild) hsub, ⟨cid, name, tsize⟩ :: subs, ?_, ?_, ?_⟩
    · rw [hentries', hentries, List.append_assoc, List.singleton_append]
    · rw [List.map_cons, hnames]
    · intro e he
      rcases List.mem_cons.1 he with rfl | he
      · exact ⟨blocks, blocks₁, hchild, hsub⟩
      · exact hentered e he

/-- A level that is built: its subdirectories, then the directory over them. -/
theorem build_succ_eq_ok {levels : ℕ} {dir : String} {blocks blocks' : List (Block κ)} {address : κ × ℕ}
    (h : build node tree (levels + 1) dir blocks = .ok (address, blocks')) :
    ∃ entries blocks₁, (subdirectoriesIn tree dir).foldlM (enter (build node tree levels) dir)
      (entriesIn tree dir, blocks) = .ok (entries, blocks₁) ∧ close node entries blocks₁ = .ok (address, blocks') := by
  rw [build] at h
  obtain ⟨⟨entries, blocks₁⟩, hfold, h⟩ := Except.bind_eq_ok.1 h
  exact ⟨entries, blocks₁, hfold, h⟩

theorem subset_of_close {entries : List (Link κ)} {blocks blocks' : List (Block κ)} {address : κ × ℕ}
    (h : close node entries blocks = .ok (address, blocks')) : blocks ⊆ blocks' := by
  obtain ⟨block, -, -, -, rfl⟩ := close_eq_ok.1 h
  exact List.subset_append_left _ _

/-- Building takes no block away. -/
theorem subset_of_build {levels : ℕ} {dir : String} {blocks blocks' : List (Block κ)} {address : κ × ℕ}
    (h : build node tree levels dir blocks = .ok (address, blocks')) : blocks ⊆ blocks' := by
  induction levels generalizing dir blocks blocks' address with
  | zero => exact subset_of_close h
  | succ levels ih =>
    obtain ⟨entries, blocks₁, hfold, hclose⟩ := build_succ_eq_ok h
    exact List.Subset.trans (entered_of_foldlM ih hfold).1 (subset_of_close hclose)

/-- The address that is built is a block's. -/
theorem cid_of_build {levels : ℕ} {dir : String} {blocks blocks' : List (Block κ)} {cid : κ} {tsize : ℕ}
    (h : build node tree levels dir blocks = .ok ((cid, tsize), blocks')) : ∃ block ∈ blocks', block.cid = cid := by
  have hclose : ∃ entries blocks₁, close node entries blocks₁ = .ok ((cid, tsize), blocks') := by
    cases levels with
    | zero => exact ⟨_, _, h⟩
    | succ levels =>
      obtain ⟨entries, blocks₁, -, hclose⟩ := build_succ_eq_ok h
      exact ⟨entries, blocks₁, hclose⟩
  obtain ⟨entries, blocks₁, hclose⟩ := hclose
  obtain ⟨block, -, rfl, -, rfl⟩ := close_eq_ok.1 hclose
  exact ⟨block, List.mem_append_right _ (List.mem_singleton_self _), rfl⟩

/-- Every block that a build adds is one that `node` makes. -/
theorem made_of_build {P : Block κ → Prop} (hnode : ∀ entries block, node entries = .ok block → P block) {levels : ℕ}
    {dir : String} {blocks blocks' : List (Block κ)} {address : κ × ℕ}
    (h : build node tree levels dir blocks = .ok (address, blocks')) (hP : ∀ b ∈ blocks, P b) : ∀ b ∈ blocks', P b := by
  have hclose : ∀ {entries blocks blocks' address}, close node entries blocks = .ok (address, blocks') →
      (∀ b ∈ blocks, P b) → ∀ b ∈ blocks', P b := by
    intro entries blocks blocks' address h hP b hb
    obtain ⟨block, hblock, -, -, rfl⟩ := close_eq_ok.1 h
    rcases List.mem_append.1 hb with hb | hb
    · exact hP b hb
    · rw [List.mem_singleton.1 hb]
      exact hnode _ _ hblock
  induction levels generalizing dir blocks blocks' address with
  | zero => exact hclose h hP
  | succ levels ih =>
    obtain ⟨entries, blocks₁, hfold, hlast⟩ := build_succ_eq_ok h
    refine hclose hlast ?_
    clear hlast h
    generalize entriesIn tree dir = start at hfold
    generalize subdirectoriesIn tree dir = names at hfold
    -- the induction is over the subdirectories of one directory, inside that over the levels
    induction names generalizing start blocks with
    | nil =>
      rw [List.foldlM_nil, Except.pure_eq_ok, Except.ok.injEq, Prod.mk.injEq] at hfold
      rw [← hfold.2]
      exact hP
    | cons name names ihnames =>
      rw [List.foldlM_cons, Except.bind_eq_ok] at hfold
      obtain ⟨⟨entries₂, blocks₂⟩, henter, hfold⟩ := hfold
      obtain ⟨cid, tsize, hchild, -⟩ := enter_eq_ok.1 henter
      exact ihnames (ih hchild hP) entries₂ hfold

/-- **Every path of the tree has its route** from the directory that is built, when as many levels
are allowed as there are. -/
theorem routes_of_build (hproper : Proper tree) {levels : ℕ} {dir : String} {blocks blocks' : List (Block κ)} {cid : κ}
    {tsize : ℕ} (h : build node tree levels dir blocks = .ok ((cid, tsize), blocks'))
    (hlevels : ∀ path link rest, (path, link) ∈ tree → Path.split path = Path.dirSegments dir ++ rest →
      rest.length ≤ levels + 1)
    {path : String} {link : Link κ} {rest : List String} (hmem : (path, link) ∈ tree) (hrest : rest ≠ [])
    (hsplit : Path.split path = Path.dirSegments dir ++ rest) :
    Route node tree blocks' (Path.dirSegments dir) rest cid link.cid := by
  -- by induction on the levels; a directory's own entries close the routes of one segment
  have hdirect : ∀ {s : String}, rest = [s] → ∃ e ∈ entriesIn tree dir, e.name = s ∧ e.cid = link.cid := by
    rintro s rfl
    exact ⟨{ link with name := s }, mem_entriesIn.2 ⟨path, link, hmem, hsplit, rfl⟩, rfl, rfl⟩
  have hentries : ∀ {e : Link κ}, e ∈ entriesIn tree dir → Child tree (Path.dirSegments dir) e.name := by
    intro e he
    obtain ⟨path', link', hmem', hsplit', -⟩ := mem_entriesIn.1 he
    exact ⟨path', link', [], hmem', hsplit'⟩
  have hknown : ∀ {dir : String} {blocks : List (Block κ)} {e : Link κ}, e ∈ entriesIn tree dir →
      Known tree blocks e.cid := by
    intro dir blocks e he
    obtain ⟨path', link', hmem', -, he'⟩ := mem_entriesIn.1 he
    exact Or.inl ⟨path', link', hmem', by rw [he']⟩
  induction levels generalizing dir blocks blocks' cid tsize path link rest with
  | zero =>
    obtain ⟨block, hnode, rfl, -, rfl⟩ := close_eq_ok.1 h
    obtain ⟨s, rfl⟩ : ∃ s, rest = [s] := by
      have hlength := hlevels path link rest hmem hsplit
      have hpos := List.length_pos_iff.2 hrest
      exact List.length_eq_one_iff.1 (by omega)
    obtain ⟨e, he, hname, hcid⟩ := hdirect rfl
    refine ⟨entriesIn tree dir, block, e, hnode, List.mem_append_right _ (List.mem_singleton_self _), rfl,
      ⟨?_, fun e' he' => hknown he'⟩, he, hname, hcid.symm⟩
    intro t
    constructor
    · intro ht
      obtain ⟨e', he', rfl⟩ := List.mem_map.1 ht
      exact hentries he'
    · rintro ⟨path', link', rest', hmem', hsplit'⟩
      have hlength := hlevels path' link' _ hmem' hsplit'
      rw [List.length_cons] at hlength
      have hnil : rest' = [] := List.length_eq_zero_iff.1 (by omega)
      rw [hnil] at hsplit'
      exact List.mem_map.2 ⟨{ link' with name := t }, mem_entriesIn.2 ⟨path', link', hmem', hsplit', rfl⟩, rfl⟩
  | succ levels ih =>
    obtain ⟨entries, blocks₁, hfold, hclose⟩ := build_succ_eq_ok h
    obtain ⟨-, subs, rfl, hsubs, hentered⟩ := entered_of_foldlM subset_of_build hfold
    obtain ⟨block, hnode, rfl, -, rfl⟩ := close_eq_ok.1 hclose
    have hnames : Names tree (Path.dirSegments dir) (entriesIn tree dir ++ subs) := by
      intro t
      rw [List.map_append, List.mem_append, hsubs, mem_subdirectoriesIn]
      constructor
      · rintro (ht | ⟨path', link', rest', hmem', -, hsplit'⟩)
        · obtain ⟨e', he', rfl⟩ := List.mem_map.1 ht
          exact hentries he'
        · exact ⟨path', link', rest', hmem', hsplit'⟩
      · rintro ⟨path', link', rest', hmem', hsplit'⟩
        by_cases hnil : rest' = []
        · rw [hnil] at hsplit'
          refine Or.inl (List.mem_map.2 ⟨{ link' with name := t }, mem_entriesIn.2 ?_, rfl⟩)
          exact ⟨path', link', hmem', hsplit', rfl⟩
        · exact Or.inr ⟨path', link', rest', hmem', hnil, hsplit'⟩
    have hblock : block ∈ blocks₁ ++ [block] := List.mem_append_right _ (List.mem_singleton_self _)
    have hlists : Lists tree (blocks₁ ++ [block]) (Path.dirSegments dir) (entriesIn tree dir ++ subs) := by
      refine ⟨hnames, ?_⟩
      intro e' he'
      rcases List.mem_append.1 he' with he' | he'
      · exact hknown he'
      · obtain ⟨before, after, hchild, hafter⟩ := hentered e' he'
        obtain ⟨block', hblock', hcid'⟩ := cid_of_build hchild
        exact Or.inr ⟨block', List.mem_append_left _ (hafter hblock'), hcid'⟩
    obtain ⟨s, segments, rfl⟩ := List.exists_cons_of_ne_nil hrest
    by_cases hlast : segments = []
    · obtain ⟨e, he, hname, hcid⟩ := hdirect (s := s) (by rw [hlast])
      refine ⟨_, block, e, hnode, hblock, rfl, hlists, List.mem_append_left _ he, hname, ?_⟩
      rw [hlast]
      exact hcid.symm
    · -- the subdirectory's own route, with one level less
      have hs : s ∈ subs.map (·.name) := by
        rw [hsubs]
        exact mem_subdirectoriesIn.2 ⟨path, link, segments, hmem, hlast, hsplit⟩
      obtain ⟨e, he, rfl⟩ := List.mem_map.1 hs
      obtain ⟨before, after, hchild, hafter⟩ := hentered e he
      have hin : e.name ∈ Path.split path := by
        rw [hsplit]
        exact List.mem_append_right _ List.mem_cons_self
      have hdir : Path.dirSegments (Path.child dir e.name) = Path.dirSegments dir ++ [e.name] :=
        Path.dirSegments_child (hproper path link hmem _ hin) (Path.notMem_of_mem_split hin)
      have hsplit' : Path.split path = Path.dirSegments (Path.child dir e.name) ++ segments := by
        rw [hdir, hsplit, List.append_assoc, List.singleton_append]
      have hroute := ih hchild (fun path' link' rest' hmem' hsplit'' => by
        have hlength := hlevels path' link' (e.name :: rest') hmem' (by
          rw [hsplit'', hdir, List.append_assoc, List.singleton_append])
        rw [List.length_cons] at hlength
        omega) hmem hlast hsplit'
        (fun {t} ht => ⟨{ link with name := t }, mem_entriesIn.2 ⟨path, link, hmem, by rw [hsplit', ht], rfl⟩, rfl,
          rfl⟩)
        (fun {e'} he' => by
          obtain ⟨path', link', hmem', hsplit'', -⟩ := mem_entriesIn.1 he'
          exact ⟨path', link', [], hmem', hsplit''⟩)
      rw [hdir] at hroute
      exact ⟨_, block, e, hnode, hblock, rfl, hlists, List.mem_append_right _ he, rfl,
        hroute.mono (List.Subset.trans hafter (List.subset_append_left _ _))⟩

/-- No path is longer than the tree is deep. -/
theorem length_le_depth {path : String} {link : Link κ} (h : (path, link) ∈ tree) :
    (Path.split path).length ≤ depth tree + 1 := by
  have hle : path.toList.length ≤ depth tree := by
    unfold depth
    induction tree with
    | nil => simp at h
    | cons entry tree ih =>
      rw [List.map_cons, List.foldr_cons]
      rcases List.mem_cons.1 h with rfl | h
      · exact Nat.le_max_left _ _
      · exact Nat.le_trans (ih h) (Nat.le_max_right _ _)
  exact Nat.le_trans (Path.length_split_le path) (Nat.succ_le_succ hle)

/-- The levels that `depth` allows are enough from the root. -/
theorem routes_of_build_root (hproper : Proper tree) {blocks blocks' : List (Block κ)} {cid : κ} {tsize : ℕ}
    (h : build node tree (depth tree) "" blocks = .ok ((cid, tsize), blocks')) {path : String} {link : Link κ}
    (hmem : (path, link) ∈ tree) : Route node tree blocks' [] (Path.split path) cid link.cid := by
  have hlevels : ∀ path link rest, (path, link) ∈ tree → Path.split path = Path.dirSegments "" ++ rest →
      rest.length ≤ depth tree + 1 := by
    intro path link rest hmem hsplit
    have hlength := length_le_depth hmem
    rwa [hsplit] at hlength
  exact routes_of_build hproper h hlevels hmem (Path.split_ne_nil path) rfl

end Built

/-! ## How many names stand in a directory -/

/-- The segment of a path after those of a directory. -/
def next (dir : List String) (path : String) : Option String :=
  if dir.isPrefixOf (Path.split path) then ((Path.split path).drop dir.length).head? else none

/-- The names in a directory, each once. -/
def names (paths : List String) (dir : List String) : List String := (paths.filterMap (next dir)).dedup

theorem next_eq_some {dir : List String} {path s : String} :
    next dir path = some s ↔ ∃ rest, Path.split path = dir ++ s :: rest := by
  rw [next]
  constructor
  · intro h
    split_ifs at h with hprefix
    obtain ⟨rest, hrest⟩ := List.isPrefixOf_iff_prefix.1 hprefix
    rw [← hrest, List.drop_left] at h
    cases rest with
    | nil => simp at h
    | cons t rest =>
      rw [List.head?_cons, Option.some.injEq] at h
      rw [← h]
      exact ⟨rest, hrest.symm⟩
  · rintro ⟨rest, hsplit⟩
    have hprefix : dir.isPrefixOf (Path.split path) = true := by
      rw [List.isPrefixOf_iff_prefix, hsplit]
      exact List.prefix_append _ _
    rw [if_pos hprefix, hsplit, List.drop_left, List.head?_cons]

/-- A directory has no more names than there are paths. -/
theorem length_names_le (paths : List String) (dir : List String) : (names paths dir).length ≤ paths.length :=
  ((List.dedup_sublist _).length_le).trans (List.length_filterMap_le _ _)

/-- The order of the paths does not matter. -/
theorem length_names_perm {paths paths' : List String} (h : paths.Perm paths') (dir : List String) :
    (names paths dir).length = (names paths' dir).length := (h.filterMap (next dir)).dedup.length_eq

/-- The names of a directory are those of its children. -/
theorem mem_names {tree : Tree κ} {dir : List String} {s : String} :
    s ∈ names (tree.map (·.1)) dir ↔ Child tree dir s := by
  rw [names, List.mem_dedup, List.mem_filterMap]
  constructor
  · rintro ⟨path, hpath, h⟩
    obtain ⟨⟨path', link⟩, hmem, rfl⟩ := List.mem_map.1 hpath
    obtain ⟨rest, hsplit⟩ := next_eq_some.1 h
    exact ⟨path', link, rest, hmem, hsplit⟩
  · rintro ⟨path, link, rest, hmem, hsplit⟩
    exact ⟨path, List.mem_map.2 ⟨(path, link), hmem, rfl⟩, next_eq_some.2 ⟨rest, hsplit⟩⟩

/-- Entries without a name twice are as many as the names. -/
theorem Names.length_eq {tree : Tree κ} {dir : List String} {entries : List (Link κ)} (h : Names tree dir entries)
    (hnodup : (entries.map (·.name)).Nodup) : entries.length = (names (tree.map (·.1)) dir).length := by
  have hperm : (entries.map (·.name)).Perm (names (tree.map (·.1)) dir) := by
    refine (List.perm_ext_iff_of_nodup hnodup (List.nodup_dedup _)).2 ?_
    intro s
    exact (h s).trans mem_names.symm
  rw [← hperm.length_eq, List.length_map]

end Site
