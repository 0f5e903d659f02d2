import VayuWeb.Base.Agree
import VayuWeb.Base.Import
import Mathlib.Data.List.Sort

/-!
# Two importers of one site

Two importers address the same things, each in its own way; a function takes the one's addresses to
the other's. They hold their trees in different orders. They may agree only on links and contents
that fit them both.

* `build_append`, `build_succ`: a directory is built the same whatever blocks stand before it.
* `build_agrees`: where their nodes agree, so do their directories.
* `load_agrees`, `load_agrees_perm`: and where their files agree, so do their trees.
-/

namespace Site

open Except (Agrees)

section Append

variable {κ ε : Type} {node : List (Link κ) → Except ε (Block κ)} {tree : Tree κ}

/-- A result behind other blocks. -/
def behind (blocks : List (Block κ)) (built : (κ × ℕ) × List (Block κ)) : (κ × ℕ) × List (Block κ) :=
  (built.1, blocks ++ built.2)

/-- Closing a directory puts its blocks behind what is there. -/
theorem close_append (entries : List (Link κ)) (blocks : List (Block κ)) :
    close node entries blocks = (close node entries []).map (behind blocks) := by
  rw [close, close]
  cases node entries with
  | error e => rfl
  | ok block => rfl

/-- One subdirectory by itself. -/
def subdirectory (build : String → List (Block κ) → Except ε ((κ × ℕ) × List (Block κ))) (dir name : String) :
    Except ε (Link κ × List (Block κ)) := do
  let (address, blocks) ← build (Path.child dir name) []
  return ({ cid := address.1, name := name, tsize := address.2 }, blocks)

/-- Entering a subdirectory puts its blocks behind what is there. -/
theorem enter_eq {build : String → List (Block κ) → Except ε ((κ × ℕ) × List (Block κ))}
    (hbuild : ∀ child blocks, build child blocks = (build child []).map (behind blocks)) (dir name : String)
    (entries : List (Link κ)) (blocks : List (Block κ)) :
    enter build dir (entries, blocks) name =
      (subdirectory build dir name).map fun sub => (entries ++ [sub.1], blocks ++ sub.2) := by
  rw [enter, subdirectory, hbuild]
  cases build (Path.child dir name) [] with
  | error e => rfl
  | ok built => rfl

/-- A level's subdirectories can be built apart and put together after. -/
theorem foldlM_enter {build : String → List (Block κ) → Except ε ((κ × ℕ) × List (Block κ))}
    (hbuild : ∀ child blocks, build child blocks = (build child []).map (behind blocks)) (dir : String)
    (names : List String) (entries : List (Link κ)) (blocks : List (Block κ)) :
    names.foldlM (enter build dir) (entries, blocks) = (names.mapM (subdirectory build dir)).map fun subs =>
      (entries ++ subs.map (·.1), blocks ++ (subs.map (·.2)).flatten) := by
  induction names generalizing entries blocks with
  | nil =>
    rw [List.foldlM_nil, List.mapM_nil]
    simp [Except.map]
  | cons name names ih =>
    rw [List.foldlM_cons, List.mapM_cons, enter_eq hbuild]
    cases subdirectory build dir name with
    | error e => rfl
    | ok sub =>
      have hstep : (Except.ok sub : Except ε _).map (fun sub => (entries ++ [sub.1], blocks ++ sub.2)) =
          .ok (entries ++ [sub.1], blocks ++ sub.2) := rfl
      rw [hstep, Except.ok_bind, ih, Except.ok_bind]
      cases names.mapM (subdirectory build dir) with
      | error e => rfl
      | ok subs =>
        simp only [Except.map, Except.ok_bind, Except.pure_eq_ok, List.map_cons, List.flatten_cons, List.append_assoc,
          List.singleton_append]

/-- **A directory is built the same** whatever blocks stand before it. -/
theorem build_append (levels : ℕ) (dir : String) (blocks : List (Block κ)) :
    build node tree levels dir blocks = (build node tree levels dir []).map (behind blocks) := by
  induction levels generalizing dir blocks with
  | zero => exact close_append _ _
  | succ levels ih =>
    rw [build, build, foldlM_enter ih, foldlM_enter ih]
    cases (subdirectoriesIn tree dir).mapM (subdirectory (build node tree levels) dir) with
    | error e => rfl
    | ok subs =>
      simp only [Except.map, Except.ok_bind, List.nil_append]
      rw [close_append, close_append _ (subs.map (·.2)).flatten]
      cases close node (entriesIn tree dir ++ subs.map (·.1)) [] with
      | error e => rfl
      | ok built => simp [Except.map, behind]

/-- One level of a tree: its subdirectories, then the directory over them. -/
theorem build_succ (levels : ℕ) (dir : String) : build node tree (levels + 1) dir [] =
    (subdirectoriesIn tree dir).mapM (subdirectory (build node tree levels) dir) >>= fun subs =>
      close node (entriesIn tree dir ++ subs.map (·.1)) (subs.map (·.2)).flatten := by
  rw [build, foldlM_enter (build_append levels)]
  cases (subdirectoriesIn tree dir).mapM (subdirectory (build node tree levels) dir) with
  | error e => rfl
  | ok subs => simp only [Except.map, Except.ok_bind, List.nil_append]

/-- **A directory is built the same of nodes that are made the same.** -/
theorem build_refines {ε' : Type} {node' : List (Link κ) → Except ε' (Block κ)}
    (hnode : ∀ entries, Except.Refines (node entries) (node' entries)) (levels : ℕ) (dir : String)
    (blocks : List (Block κ)) :
    Except.Refines (build node tree levels dir blocks) (build node' tree levels dir blocks) := by
  have hclose : ∀ entries blocks, Except.Refines (close node entries blocks) (close node' entries blocks) :=
    fun entries blocks => (hnode entries).bind fun block a h => congrArg _ (Except.ok.inj h)
  induction levels generalizing dir blocks with
  | zero => exact hclose _ _
  | succ levels ih =>
    rw [build, build]
    refine (Except.Refines.foldlM (fun state name => ?_) _ _).bind fun state => hclose _ _
    exact (ih _ _).bind fun built a h => congrArg _ (Except.ok.inj h)

end Append

/-! ## The other's addresses -/

variable {κ κ' ε ε' : Type}

/-- A link under another naming of the blocks. -/
def Link.map (f : κ → κ') (link : Link κ) : Link κ' := { cid := f link.cid, name := link.name, tsize := link.tsize }

/-- A block under another name. -/
def Block.map (f : κ → κ') (block : Block κ) : Block κ' := { cid := f block.cid, bytes := block.bytes }

/-- A tree under another naming of the blocks. -/
def mapTree (f : κ → κ') (tree : Tree κ) : Tree κ' := List.map (fun entry => (entry.1, entry.2.map f)) tree

/-- Renaming the blocks renames the entries of every directory. -/
theorem entriesIn_mapTree (f : κ → κ') (tree : Tree κ) (dir : String) :
    entriesIn (mapTree f tree) dir = (entriesIn tree dir).map (Link.map f) := by
  rw [entriesIn, entriesIn, mapTree, List.filterMap_map, List.map_filterMap]
  apply List.filterMap_congr
  intro entry _
  simp only [Function.comp]
  cases Path.below dir entry.1 with
  | none => rfl
  | some relative =>
    simp only [Option.bind_some]
    split_ifs
    · rfl
    · rfl

theorem mem_subdirectoriesIn_mapTree {f : κ → κ'} {tree : Tree κ} {dir s : String} :
    s ∈ subdirectoriesIn (mapTree f tree) dir ↔ s ∈ subdirectoriesIn tree dir := by
  rw [subdirectoriesIn, subdirectoriesIn, mapTree, List.filterMap_map]
  exact Iff.rfl

theorem depth_mapTree (f : κ → κ') (tree : Tree κ) : depth (mapTree f tree) = depth tree := by
  rw [depth, depth, mapTree, List.map_map]
  rfl

variable {f : κ → κ'} {tree : Tree κ} {tree' : Tree κ'}

/-- The entries of a directory do not depend on the order of the files. -/
theorem entriesIn_perm (h : tree'.Perm (mapTree f tree)) (dir : String) :
    (entriesIn tree' dir).Perm ((entriesIn tree dir).map (Link.map f)) := by
  rw [← entriesIn_mapTree]
  exact h.filterMap _

/-- The subdirectories of a directory do not depend on the order of the files. -/
theorem subdirectoriesIn_perm (h : tree'.Perm (mapTree f tree)) (dir : String) :
    (subdirectoriesIn tree' dir).Perm (subdirectoriesIn tree dir) := by
  have hmem : ∀ s, s ∈ subdirectoriesIn tree' dir ↔ s ∈ subdirectoriesIn tree dir := by
    intro s
    rw [← mem_subdirectoriesIn_mapTree (f := f), mem_subdirectoriesIn, mem_subdirectoriesIn]
    simp only [h.mem_iff]
  exact (List.perm_ext_iff_of_nodup (nodup_eraseDups _) (nodup_eraseDups _)).2 hmem

theorem depth_perm (h : tree'.Perm (mapTree f tree)) : depth tree' = depth tree := by
  rw [← depth_mapTree f tree, depth, depth]
  exact (h.map _).foldr_eq 0

/-! ## Names and their order -/

/-- A check of an entry against the names before it. -/
structure ChecksNames (check : List String → Link κ → Except ε (List String)) : Prop where
  accepts : ∀ names e, e.name ≠ "" → e.name ∉ names → check names e = .ok (names ++ [e.name])
  refuses : ∀ names e, e.name = "" ∨ e.name ∈ names → ∃ error, check names e = .error error

/-- Every entry has a name, and no name is there twice. -/
def WellNamed (entries : List (Link κ)) : Prop := (∀ e ∈ entries, e.name ≠ "") ∧ (entries.map (·.name)).Nodup

/-- The check of names passes exactly where no name is empty or given twice. -/
theorem foldlM_check {check : List String → Link κ → Except ε (List String)} (hcheck : ChecksNames check)
    {entries : List (Link κ)} {names : List String} (hnodup : names.Nodup) :
    if (∀ e ∈ entries, e.name ≠ "") ∧ (names ++ entries.map (·.name)).Nodup then
      entries.foldlM check names = .ok (names ++ entries.map (·.name))
    else ∃ error, entries.foldlM check names = .error error := by
  induction entries generalizing names with
  | nil =>
    rw [List.map_nil, List.append_nil, if_pos ⟨by simp, hnodup⟩]
    rfl
  | cons e entries ih =>
    rw [List.foldlM_cons]
    -- a name that is empty or taken fails here, whatever comes after it
    by_cases he : e.name = "" ∨ e.name ∈ names
    · obtain ⟨error, herror⟩ := hcheck.refuses names e he
      rw [if_neg, herror]
      · exact ⟨error, rfl⟩
      · rintro ⟨hnames, hall⟩
        rcases he with hempty | hmem
        · exact hnames e List.mem_cons_self hempty
        · rw [List.nodup_append] at hall
          exact hall.2.2 _ hmem _ List.mem_cons_self rfl
    · rw [not_or] at he
      have hnodup' : (names ++ [e.name]).Nodup := List.nodup_append_comm.1 (List.nodup_cons.2 ⟨he.2, hnodup⟩)
      have hrest := ih hnodup'
      have hassoc : names ++ [e.name] ++ entries.map (·.name) = names ++ (e :: entries).map (·.name) := by
        rw [List.append_assoc, List.map_cons, List.singleton_append]
      rw [hassoc] at hrest
      rw [hcheck.accepts names e he.1 he.2, Except.ok_bind]
      by_cases hall : (∀ e ∈ entries, e.name ≠ "") ∧ (names ++ (e :: entries).map (·.name)).Nodup
      · rw [if_pos hall] at hrest
        rw [if_pos ⟨List.forall_mem_cons.2 ⟨he.1, hall.1⟩, hall.2⟩]
        exact hrest
      · rw [if_neg hall] at hrest
        rw [if_neg fun h => hall ⟨(List.forall_mem_cons.1 h.1).2, h.2⟩]
        exact hrest

theorem check_wellNamed {check : List String → Link κ → Except ε (List String)} (hcheck : ChecksNames check)
    {entries : List (Link κ)} (h : WellNamed entries) : entries.foldlM check [] = .ok (entries.map (·.name)) := by
  have hfold := @foldlM_check κ ε check hcheck entries [] List.nodup_nil
  rw [WellNamed] at h
  rwa [List.nil_append, if_pos h] at hfold

theorem check_not_wellNamed {check : List String → Link κ → Except ε (List String)} (hcheck : ChecksNames check)
    {entries : List (Link κ)} (h : ¬ WellNamed entries) : ∃ error, entries.foldlM check [] = .error error := by
  have hfold := @foldlM_check κ ε check hcheck entries [] List.nodup_nil
  rw [WellNamed] at h
  rwa [List.nil_append, if_neg h] at hfold

/-- Whether the entries are well named depends neither on their order nor on the blocks' names. -/
theorem wellNamed_perm {entries : List (Link κ)} {entries' : List (Link κ')}
    (h : entries'.Perm (entries.map (Link.map f))) :
    WellNamed entries' ↔ WellNamed entries := by
  have hnames : (entries'.map (·.name)).Perm (entries.map (·.name)) := by
    have hperm := h.map (·.name)
    rw [List.map_map] at hperm
    exact hperm
  have hempty : ∀ {κ : Type} (es : List (Link κ)), (∀ e ∈ es, e.name ≠ "") ↔ "" ∉ es.map (·.name) := by
    intro κ es
    simp [List.mem_map]
  rw [WellNamed, WellNamed, hempty, hempty, hnames.mem_iff, hnames.nodup_iff]

/-- The order of the names' bytes. -/
def byName (a b : Link κ) : Prop := Bytes.utf8Encode a.name ≤ Bytes.utf8Encode b.name

instance : DecidableRel (byName (κ := κ)) := fun a b =>
  inferInstanceAs (Decidable (Bytes.utf8Encode a.name ≤ Bytes.utf8Encode b.name))

instance : Std.Total (byName (κ := κ)) := ⟨fun _ _ => List.le_total _ _⟩

instance : IsTrans (Link κ) byName := ⟨fun _ _ _ => List.le_trans⟩

/-- Entries whose names differ are put in one order, wherever they come from. -/
theorem insertionSort_perm {entries : List (Link κ)} {entries' : List (Link κ')} (hnamed : WellNamed entries)
    (h : entries'.Perm (entries.map (Link.map f))) :
    entries'.insertionSort byName = (entries.insertionSort byName).map (Link.map f) := by
  rw [List.map_insertionSort byName byName (Link.map f) entries fun _ _ _ _ => Iff.rfl]
  have hnamed' := (wellNamed_perm h).2 hnamed
  refine List.Perm.eq_of_pairwise ?_ (List.pairwise_insertionSort byName _) (List.pairwise_insertionSort byName _)
    (((List.perm_insertionSort _ _).trans h).trans (List.perm_insertionSort _ _).symm)
  intro a b ha hb hab hba
  have hname : a.name = b.name := Bytes.utf8Encode_injective (List.le_antisymm hab hba)
  have ha' : a ∈ entries' := (List.mem_insertionSort byName).1 ha
  have hb' : b ∈ entries' := h.mem_iff.2 ((List.mem_insertionSort byName).1 hb)
  exact List.inj_on_of_nodup_map hnamed'.2 ha' hb' hname

/-! ## Directories -/

variable {P : κ → Prop} {Fit : Link κ → Prop} {node : List (Link κ) → Except ε (Block κ)}
  {node' : List (Link κ') → Except ε' (Block κ')}

/-- The same under the other's address, which has a property. -/
def SameBlock (f : κ → κ') (P : κ → Prop) (block : Block κ) (block' : Block κ') : Prop :=
  P block.cid ∧ block' = block.map f

/-- The same nodes are made of the same entries that fit, in whatever order. -/
def NodesAgree (f : κ → κ') (P : κ → Prop) (Fit : Link κ → Prop) (node : List (Link κ) → Except ε (Block κ))
    (node' : List (Link κ') → Except ε' (Block κ')) : Prop :=
  ∀ entries entries', (∀ e ∈ entries, P e.cid ∧ Fit e) → entries'.Perm (entries.map (Link.map f)) →
    Agrees (SameBlock f P) (node entries) (node' entries')

/-- Every link of a build fits: those in a directory itself and those to its subdirectories. -/
structure Fitting (Fit : Link κ → Prop) (node : List (Link κ) → Except ε (Block κ)) (tree : Tree κ) : Prop where
  entry : ∀ dir, ∀ e ∈ entriesIn tree dir, Fit e
  sub : ∀ levels dir name cid tsize blocks, name ∈ subdirectoriesIn tree dir →
    build node tree levels (Path.child dir name) [] = .ok ((cid, tsize), blocks) →
      Fit { cid := cid, name := name, tsize := tsize }

/-- The same directory, with the same blocks in some order. -/
def SameDirectory (f : κ → κ') (P : κ → Prop) (built : (κ × ℕ) × List (Block κ))
    (built' : (κ' × ℕ) × List (Block κ')) : Prop :=
  P built.1.1 ∧ built'.1 = (f built.1.1, built.1.2) ∧ built'.2.Perm (built.2.map (Block.map f))

/-- Closing a directory agrees where the encoders of nodes do. -/
theorem close_agrees (hnode : NodesAgree f P Fit node node') {entries : List (Link κ)} {entries' : List (Link κ')}
    {blocks : List (Block κ)} {blocks' : List (Block κ')} (hP : ∀ e ∈ entries, P e.cid ∧ Fit e)
    (hentries : entries'.Perm (entries.map (Link.map f))) (hblocks : blocks'.Perm (blocks.map (Block.map f))) :
    Agrees (SameDirectory f P) (close node entries blocks) (close node' entries' blocks') := by
  rw [close, close]
  refine (hnode entries entries' hP hentries).bind ?_
  rintro block block' ⟨hcid, rfl⟩
  have hsizes : (entries'.map (·.tsize)).sum = (entries.map (·.tsize)).sum := by
    have hperm := (hentries.map (·.tsize)).sum_nat
    rw [List.map_map] at hperm
    exact hperm
  refine .same ⟨hcid, ?_, ?_⟩
  · rw [hsizes]
    rfl
  · rw [List.map_append]
    exact hblocks.append_right _

/-- The same subdirectory, whose link fits. -/
def SameEntry (f : κ → κ') (P : κ → Prop) (Fit : Link κ → Prop) (sub : Link κ × List (Block κ))
    (sub' : Link κ' × List (Block κ')) : Prop :=
  (P sub.1.cid ∧ Fit sub.1) ∧ sub'.1 = sub.1.map f ∧ sub'.2.Perm (sub.2.map (Block.map f))

theorem subs_of_forall₂ {subs : List (Link κ × List (Block κ))} {subs' : List (Link κ' × List (Block κ'))}
    (h : List.Forall₂ (SameEntry f P Fit) subs subs') : (∀ e ∈ subs.map (·.1), P e.cid ∧ Fit e) ∧
      subs'.map (·.1) = (subs.map (·.1)).map (Link.map f) ∧
        (subs'.map (·.2)).flatten.Perm ((subs.map (·.2)).flatten.map (Block.map f)) := by
  induction h with
  | nil => exact ⟨by simp, rfl, .nil⟩
  | @cons sub sub' subs subs' hsub _ ih =>
    obtain ⟨hcid, hlink, hblocks⟩ := hsub
    obtain ⟨hcids, hlinks, hrest⟩ := ih
    refine ⟨?_, ?_, ?_⟩
    · intro e he
      rcases List.mem_cons.1 he with rfl | he
      · exact hcid
      · exact hcids e he
    · rw [List.map_cons, List.map_cons, List.map_cons, hlink, hlinks]
    · rw [List.map_cons, List.map_cons, List.flatten_cons, List.flatten_cons, List.map_append]
      exact hblocks.append hrest

/-- **Where the nodes agree, the directories agree.** -/
theorem build_agrees (hnode : NodesAgree f P Fit node node') (hfit : Fitting Fit node tree)
    (hP : ∀ entry ∈ tree, P entry.2.cid) (htree : tree'.Perm (mapTree f tree)) (levels : ℕ) (dir : String) :
    Agrees (SameDirectory f P) (build node tree levels dir []) (build node' tree' levels dir []) := by
  have hentries : ∀ dir, ∀ e ∈ entriesIn tree dir, P e.cid ∧ Fit e := by
    intro dir e he
    refine ⟨?_, hfit.entry dir e he⟩
    obtain ⟨path, link, hmem, -, he'⟩ := mem_entriesIn.1 he
    rw [he']
    exact hP _ hmem
  induction levels generalizing dir with
  | zero => exact close_agrees hnode (hentries dir) (entriesIn_perm htree dir) .nil
  | succ levels ih =>
    rw [build_succ, build_succ]
    -- the subdirectories may come in another order, but one by one they are built alike
    have hsub : ∀ name ∈ subdirectoriesIn tree dir, Agrees (SameEntry f P Fit)
        (subdirectory (build node tree levels) dir name) (subdirectory (build node' tree' levels) dir name) := by
      intro name hname
      refine (ih (Path.child dir name)).found.bind ?_
      rintro ⟨⟨cid, tsize⟩, blocks⟩ ⟨⟨cid', tsize'⟩, blocks'⟩ ⟨hbuild, -, hcid, haddress, hblocks⟩
      rw [Prod.mk.injEq] at haddress
      refine .same ⟨⟨hcid, hfit.sub _ _ _ _ _ _ hname hbuild⟩, ?_, hblocks⟩
      simp only [Link.map, haddress.1, haddress.2]
    refine (Agrees.mapM (subdirectoriesIn_perm htree dir) hsub).bind ?_
    rintro subs subs' ⟨subs₁, hperm, hsame⟩
    obtain ⟨hcids, hlinks, hblocks⟩ := subs_of_forall₂ hsame
    refine close_agrees hnode ?_ ?_ ?_
    · intro e he
      rcases List.mem_append.1 he with he | he
      · exact hentries dir e he
      · exact hcids e he
    · rw [List.map_append, ← hlinks]
      exact (entriesIn_perm htree dir).append (hperm.map _)
    · exact (hperm.map _).flatten.trans hblocks

/-! ## Files -/

variable {make : String → Bytes → Except ε (List (Block κ) × κ × ℕ)}
  {make' : String → Bytes → Except ε' (List (Block κ') × κ' × ℕ)}

/-- The same is made of a file. -/
def SameFile (f : κ → κ') (P : κ → Prop) (made : List (Block κ) × κ × ℕ) (made' : List (Block κ') × κ' × ℕ) : Prop :=
  P made.2.1 ∧ made' = (made.1.map (Block.map f), f made.2.1, made.2.2)

/-- The same is made of every file whose content is small enough. -/
def FilesAgree (f : κ → κ') (P : κ → Prop) (Small : Bytes → Prop)
    (make : String → Bytes → Except ε (List (Block κ) × κ × ℕ))
    (make' : String → Bytes → Except ε' (List (Block κ') × κ' × ℕ)) : Prop :=
  ∀ path content, Small content → Agrees (SameFile f P) (make path content) (make' path content)

/-- The same blocks, and the same tree, in some order. -/
def SameTree (f : κ → κ') (P : κ → Prop) (state : List (Block κ) × Tree κ) (state' : List (Block κ') × Tree κ') :
    Prop :=
  (∀ entry ∈ state.2, P entry.2.cid) ∧ state'.1.Perm (state.1.map (Block.map f)) ∧ state'.2.Perm (mapTree f state.2)

theorem mapTree_set (f : κ → κ') (tree : OrdMap String (Link κ)) (path : String) (link : Link κ) :
    mapTree f (tree.set path link) = OrdMap.set (mapTree f tree) path (link.map f) := by
  induction tree with
  | nil => rfl
  | cons entry tree ih =>
    obtain ⟨path', link'⟩ := entry
    rw [OrdMap.set]
    by_cases heq : path' = path
    · rw [if_pos heq, mapTree, mapTree, List.map_cons, List.map_cons, OrdMap.set, if_pos heq]
    · rw [if_neg heq, mapTree, mapTree, List.map_cons, List.map_cons, OrdMap.set, if_neg heq]
      exact congrArg _ ih

/-- **Where the files agree, the loops over them agree**, with every file in its place. -/
theorem load_agrees {Small : Bytes → Prop} {φ φ' : Type} {path : φ → String} {content : φ → Bytes} {path' : φ' → String}
    {content' : φ' → Bytes}
    (hmake : FilesAgree f P Small make make') {files : List φ} {files' : List φ'}
    (hfiles : List.Forall₂ (fun file file' => path' file' = path file ∧ content' file' = content file ∧
      Small (content file)) files files') :
    Agrees (SameTree f P) (files.foldlM (fun state file => load make state (path file) (content file)) ([], []))
      (files'.foldlM (fun state file => load make' state (path' file) (content' file)) ([], [])) := by
  have hexact : Agrees (fun (state : List (Block κ) × OrdMap String (Link κ)) state' =>
      (∀ entry ∈ state.2, P entry.2.cid) ∧ state' = (state.1.map (Block.map f), mapTree f state.2))
      (files.foldlM (fun state file => load make state (path file) (content file)) ([], []))
      (files'.foldlM (fun state file => load make' state (path' file) (content' file)) ([], [])) := by
    refine Agrees.foldlM hfiles ?_ ⟨by simp, rfl⟩
    rintro ⟨blocks, tree⟩ state' file file' ⟨hP, rfl⟩ ⟨hpath, hcontent, hsmall⟩
    rw [load, load, hpath, hcontent]
    refine (hmake (path file) (content file) hsmall).bind ?_
    rintro ⟨built, cid, tsize⟩ made' ⟨hcid, rfl⟩
    refine .same ⟨?_, ?_⟩
    · intro entry hentry
      rcases OrdMap.mem_set hentry with rfl | hentry
      · exact hcid
      · exact hP entry hentry
    · rw [List.map_append, mapTree_set]
      rfl
  refine hexact.mono ?_
  rintro state state' ⟨hP, rfl⟩
  exact ⟨hP, .refl _, .refl _⟩

/-- One file by itself. -/
def loadOne (make : String → Bytes → Except ε (List (Block κ) × κ × ℕ)) (path : String) (content : Bytes) :
    Except ε (List (Block κ) × (String × Link κ)) := do
  let (built, cid, tsize) ← make path content
  return (built, (path, { cid := cid, name := path, tsize := tsize }))

/-- **The loop over files**, when no path is there twice: each by itself. -/
theorem foldlM_load {φ : Type} {path : φ → String} {content : φ → Bytes} {files : List φ}
    (hnodup : (files.map path).Nodup)
    {before : Tree κ} (hfresh : ∀ file ∈ files, path file ∉ before.map (·.1)) (blocks : List (Block κ)) :
    files.foldlM (fun state file => load make state (path file) (content file)) (blocks, before) =
      (files.mapM fun file => loadOne make (path file) (content file)).map fun made =>
        (blocks ++ (made.map (·.1)).flatten, before ++ made.map (·.2)) := by
  induction files generalizing blocks before with
  | nil =>
    rw [List.foldlM_nil, List.mapM_nil]
    simp [Except.map]
  | cons file files ih =>
    rw [List.map_cons, List.nodup_cons] at hnodup
    rw [List.foldlM_cons, List.mapM_cons, load, loadOne]
    cases make (path file) (content file) with
    | error e => rfl
    | ok made =>
      obtain ⟨built, cid, tsize⟩ := made
      -- a path that is loaded once never replaces an entry
      have hfresh' : ∀ file' ∈ files, path file' ∉ (before ++ [(path file, (⟨cid, path file, tsize⟩ : Link κ))]).map
          (·.1) := by
        intro file' hfile'
        rw [List.map_append, List.mem_append, not_or, List.map_singleton, List.mem_singleton]
        refine ⟨hfresh file' (List.mem_cons_of_mem _ hfile'), ?_⟩
        intro heq
        exact hnodup.1 (List.mem_map.2 ⟨file', hfile', heq⟩)
      simp only [Except.ok_bind, Except.pure_eq_ok]
      rw [set_of_notMem (hfresh file List.mem_cons_self), ih hnodup.2 hfresh']
      cases files.mapM fun file => loadOne make (path file) (content file) with
      | error e => rfl
      | ok rest =>
        simp only [Except.map, Except.ok_bind, List.map_cons, List.flatten_cons, List.append_assoc,
          List.singleton_append]

/-- **Where the files agree, the loops over them agree** in any order, when no path is there twice. -/
theorem load_agrees_perm {φ : Type} {path : φ → String} {content : φ → Bytes}
    (hmake : FilesAgree f P (fun _ => True) make make') {files files' : List φ} (hnodup : (files.map path).Nodup)
    (hperm : files'.Perm files) :
    Agrees (SameTree f P) (files.foldlM (fun state file => load make state (path file) (content file)) ([], []))
      (files'.foldlM (fun state file => load make' state (path file) (content file)) ([], [])) := by
  have hnodup' : (files'.map path).Nodup := (hperm.map path).nodup_iff.2 hnodup
  rw [foldlM_load hnodup (by simp), foldlM_load hnodup' (by simp)]
  have hone : ∀ file ∈ files, Agrees (fun (made : List (Block κ) × (String × Link κ)) made' => P made.2.2.cid ∧
      made' = (made.1.map (Block.map f), (made.2.1, made.2.2.map f))) (loadOne make (path file) (content file))
      (loadOne make' (path file) (content file)) := by
    intro file _
    refine (hmake (path file) (content file) trivial).bind ?_
    rintro ⟨built, cid, tsize⟩ made' ⟨hcid, rfl⟩
    exact .same ⟨hcid, rfl⟩
  refine Except.Agrees.map (Agrees.mapM hperm hone) ?_
  rintro made made' ⟨made₁, hperm₁, hsame⟩
  -- what each side made of a file goes together, in the first side's order
  have hall : (∀ entry ∈ made.map (·.2), P entry.2.cid) ∧
      (made₁.map (·.1)).flatten = ((made.map (·.1)).flatten).map (Block.map f) ∧
        made₁.map (·.2) = mapTree f (made.map (·.2)) := by
    clear hperm₁
    induction hsame with
    | nil => exact ⟨by simp, rfl, rfl⟩
    | @cons m m' made made' hm _ ih =>
      obtain ⟨hcid, rfl⟩ := hm
      obtain ⟨hcids, hblocks, hlinks⟩ := ih
      refine ⟨?_, ?_, ?_⟩
      · intro entry hentry
        rcases List.mem_cons.1 hentry with rfl | hentry
        · exact hcid
        · exact hcids entry hentry
      · rw [List.map_cons, List.map_cons, List.flatten_cons, List.flatten_cons, List.map_append, hblocks]
      · rw [List.map_cons, List.map_cons, hlinks]
        rfl
  obtain ⟨hcids, hblocks, hlinks⟩ := hall
  refine ⟨hcids, ?_, ?_⟩
  · simp only [List.nil_append]
    rw [← hblocks]
    exact (hperm₁.map _).flatten
  · simp only [List.nil_append]
    rw [← hlinks]
    exact hperm₁.map _

/-! ## Sites -/

theorem Proper.perm {tree tree' : Tree κ} (h : Proper tree) (hperm : tree'.Perm tree) : Proper tree' :=
  fun path link hmem => h path link (hperm.mem_iff.1 hmem)

/-- The directories of a tree behind the blocks of its files. -/
theorem build_agrees_behind (hnode : NodesAgree f P Fit node node') (hfit : Fitting Fit node tree)
    {blocks : List (Block κ)} {blocks' : List (Block κ')} (hP : ∀ entry ∈ tree, P entry.2.cid)
    (htree : tree'.Perm (mapTree f tree)) (hblocks : blocks'.Perm (blocks.map (Block.map f))) (levels : ℕ)
    (dir : String) :
    Agrees (SameDirectory f P) (build node tree levels dir blocks) (build node' tree' levels dir blocks') := by
  rw [build_append, build_append _ _ blocks']
  refine (build_agrees hnode hfit hP htree _ _).map ?_
  rintro built built' ⟨hcid, haddress, hbuilt⟩
  refine ⟨hcid, haddress, ?_⟩
  rw [behind, behind, List.map_append]
  exact hblocks.append hbuilt

/-! ## One importer, twice -/

theorem map_id_links (entries : List (Link κ)) : entries.map (Link.map id) = entries := by
  have hid : Link.map (id : κ → κ) = id := by
    funext e
    rfl
  rw [hid, List.map_id]

theorem map_id_blocks (blocks : List (Block κ)) : blocks.map (Block.map id) = blocks := by
  have hid : Block.map (id : κ → κ) = id := by
    funext block
    rfl
  rw [hid, List.map_id]

/-- A node that is made of checked names, in the order of these, does not depend on the order they
come in. -/
theorem nodesAgree_self {check : List String → Link κ → Except ε (List String)} (hcheck : ChecksNames check)
    (write : List (Link κ) → Except ε (Block κ))
    (hnode : ∀ entries, node entries = entries.foldlM check [] >>= fun _ => write (entries.insertionSort byName)) :
    NodesAgree id (fun _ => True) (fun _ => True) node node := by
  intro entries entries' _ hperm
  rw [hnode, hnode]
  by_cases hnamed : WellNamed entries
  · rw [check_wellNamed hcheck hnamed, check_wellNamed hcheck ((wellNamed_perm hperm).2 hnamed),
      insertionSort_perm hnamed hperm, map_id_links, Except.ok_bind, Except.ok_bind]
    cases write (entries.insertionSort byName) with
    | error e => exact .refused
    | ok block => exact .same ⟨trivial, rfl⟩
  · obtain ⟨e, he⟩ := check_not_wellNamed hcheck hnamed
    obtain ⟨e', he'⟩ := check_not_wellNamed hcheck (mt (wellNamed_perm hperm).1 hnamed)
    rw [he, he', Except.error_bind, Except.error_bind]
    exact .refused

theorem fitting_true : Fitting (fun _ => True) node tree := ⟨fun _ _ _ => trivial, fun _ _ _ _ _ _ _ _ => trivial⟩

theorem filesAgree_self (make : String → Bytes → Except ε (List (Block κ) × κ × ℕ)) :
    FilesAgree id (fun _ => True) (fun _ => True) make make := by
  intro path content _
  cases make path content with
  | error e => exact .refused
  | ok made =>
    refine .same ⟨trivial, ?_⟩
    rw [map_id_blocks]
    rfl

end Site
