import VayuWeb.Base.Worklist
import VayuWeb.Client.WalkSite
import VayuWeb.Spec.SiteFiles

/-!
# What a publish discloses

* `siteWalk_spec`: the registry's walk takes the files that stand in the tree itself under a path that may be shown,
  and meets no link on its way.
* `mem_walkSite`: the client's takes every file that it can open.
* `publish_discloses_iff`: when the client's discloses nothing else than the registry's.
-/

namespace VayuWeb.Disclosure

open Bytes FileSystem
open Client (Dir slashed subdirectory siteFile walkSiteFrom walkSite)
open Relation (ReflTransGen)

section

variable {ν : Type} {fs : ν → Kind ν} {exclude : Option (List Name)} {root entries : List (Name × ν)}
  {above names : List Name} {node : ν} {content : Bytes} {linked : Bool}

/-! ## Paths that may be shown -/

/-- The directory of the manifest. -/
def vayuName : Name := ⟨".vayu", by decide⟩

/-- The name of the manifest. -/
def manifestName : Name := ⟨"manifest.json", by decide⟩

/-- No name starts with a dot. -/
def Undotted (names : List Name) : Prop := ∀ name ∈ names, dotted name.1 = false

/-- A file that may be published. -/
def Shown (names : List Name) : Prop := Undotted names ∨ names = [vayuName, manifestName]

/-- A directory in which there may be one. -/
def Enterable (names : List Name) : Prop := Undotted names ∨ names = [vayuName]

/-- A file that was taken under a path that may be shown, with no link on the way. -/
structure Discreet (t : Taken) : Prop where
  path : t.path = manifestRelative ∨ ∀ segment ∈ Path.split t.path, dotted segment = false
  unlinked : t.linked = false

theorem pathOf_manifest : pathOf [vayuName, manifestName] = manifestRelative := by decide

theorem pathOf_vayu : pathOf [vayuName] = manifestDirectory := by decide

theorem any_dotted (hne : names ≠ []) : (Path.split (pathOf names)).any dotted = false ↔ Undotted names := by
  rw [split_pathOf hne, List.any_eq_false, List.forall_mem_map]
  simp only [Bool.not_eq_true]
  exact Iff.rfl

/-- The exclusion of a file, by its names. -/
theorem excluded_file (hne : names ≠ []) : excludedFromPublish (pathOf names) .file = false ↔ Shown names := by
  have hkind : ¬ (pathOf names = manifestDirectory ∧ EntryKind.file = .directory) := fun h => absurd h.2 (by decide)
  unfold excludedFromPublish Shown
  rw [if_neg hkind]
  by_cases hmanifest : names = [vayuName, manifestName]
  · rw [hmanifest, if_pos ⟨pathOf_manifest, rfl⟩]
    exact iff_of_true rfl (Or.inr rfl)
  · have hpath : ¬ (pathOf names = manifestRelative ∧ EntryKind.file = .file) := by
      intro h
      rw [← pathOf_manifest] at h
      exact hmanifest (pathOf_injective h.1)
    rw [if_neg hpath, any_dotted hne]
    exact ⟨Or.inl, fun h => h.resolve_right hmanifest⟩

/-- The exclusion of a directory, by its names. -/
theorem excluded_directory (hne : names ≠ []) :
    excludedFromPublish (pathOf names) .directory = false ↔ Enterable names := by
  have hkind : ¬ (pathOf names = manifestRelative ∧ EntryKind.directory = .file) := fun h => absurd h.2 (by decide)
  unfold excludedFromPublish Enterable
  by_cases hvayu : names = [vayuName]
  · rw [hvayu, if_pos ⟨pathOf_vayu, rfl⟩]
    exact iff_of_true rfl (Or.inr rfl)
  · have hpath : ¬ (pathOf names = manifestDirectory ∧ EntryKind.directory = .directory) := by
      intro h
      rw [← pathOf_vayu] at h
      exact hvayu (pathOf_injective h.1)
    rw [if_neg hpath, if_neg hkind, any_dotted hne]
    exact ⟨Or.inl, fun h => h.resolve_right hvayu⟩

theorem Undotted.left {a b : List Name} (h : Undotted (a ++ b)) : Undotted a :=
  fun name hname => h name (List.mem_append_left _ hname)

/-- What stands above a directory that may be entered may be entered. -/
theorem enterable_of_append {a b : List Name} (ha : a ≠ []) (h : Enterable (a ++ b)) : Enterable a := by
  rcases h with h | h
  · exact Or.inl h.left
  · cases a with
    | nil => exact absurd rfl ha
    | cons name a =>
      rw [List.cons_append, List.cons.injEq, List.append_eq_nil_iff] at h
      rw [h.1, h.2.1]
      exact Or.inr rfl

/-- The directories of a file that may be shown may be entered. -/
theorem enterable_of_shown {a b : List Name} (ha : a ≠ []) (hb : b ≠ []) (h : Shown (a ++ b)) : Enterable a := by
  rcases h with h | h
  · exact Or.inl h.left
  · cases a with
    | nil => exact absurd rfl ha
    | cons name a =>
      rw [List.cons_append, List.cons.injEq] at h
      cases a with
      | nil =>
        rw [h.1]
        exact Or.inr rfl
      | cons name' a =>
        rw [List.cons_append, List.cons.injEq, List.append_eq_nil_iff] at h
        exact absurd h.2.2.2 hb

/-! ## The tree itself -/

/-- What stands below an entry, through directories only. -/
inductive Below (fs : ν → Kind ν) : Name × ν → List Name → ν → Prop
  | here (entry : Name × ν) : Below fs entry [entry.1] entry.2
  | inside {entry next : Name × ν} {sub : List (Name × ν)} {names : List Name} {target : ν}
      (hdir : fs entry.2 = .directory sub) (hnext : next ∈ sub) (rest : Below fs next names target) :
      Below fs entry (entry.1 :: names) target

/-- What stands in a directory or below. -/
def Stands (fs : ν → Kind ν) (entries : List (Name × ν)) (names : List Name) (node : ν) : Prop :=
  ∃ entry ∈ entries, Below fs entry names node

theorem Below.ne_nil {entry : Name × ν} (h : Below fs entry names node) : names ≠ [] := by
  cases h <;> exact List.cons_ne_nil _ _

/-! ## The registry's walk -/

/-- What a walk has taken of what stands below. -/
structure Walked (fs : ν → Kind ν) (stands : List Name → ν → Prop) (above : List Name) (linked : Bool)
    (taken : List Taken) : Prop where
  unlinked : ∀ names node, stands names node → Enterable (above ++ names.dropLast) → (fs node).isLink = false
  taken : ∀ t, t ∈ taken ↔ ∃ names node content, stands names node ∧ fs node = .file content ∧ Shown (above ++ names) ∧
    t = { path := pathOf (above ++ names), content := content, linked := linked }

/-- **One entry.** -/
theorem siteEntry_spec {walk : String → Bool → List (Name × ν) → Except PublishStop (List Taken)} {entry : Name × ν}
    {part : List Taken} (hwalk : ∀ sub part, walk (pathOf (above ++ [entry.1])) linked sub = .ok part →
      Walked fs (Stands fs sub) (above ++ [entry.1]) linked part)
    (h : siteEntry fs walk (pathOf above) linked entry = .ok part) : Walked fs (Below fs entry) above linked part := by
  have hne : above ++ [entry.1] ≠ [] := by simp
  have hcons : ∀ rest : List Name, above ++ entry.1 :: rest = above ++ [entry.1] ++ rest := by
    intro rest
    rw [List.append_assoc, List.singleton_append]
  unfold siteEntry at h
  rw [← pathOf_concat] at h
  cases hkind : fs entry.2 with
  | link target => simp [hkind, Kind.isLink] at h
  -- neither a file nor a directory: taken by nothing, whether or not it is excluded
  | other =>
    have hpart : part = [] := by
      simp only [hkind, Kind.isLink, Bool.false_eq_true, if_false] at h
      split_ifs at h
      exact (Except.ok.inj h).symm
    refine ⟨?_, ?_⟩
    · intro names node hbelow _
      cases hbelow with
      | here => rw [hkind]; rfl
      | inside hdir _ _ => rw [hkind] at hdir; exact absurd hdir (by simp)
    · intro t
      rw [hpart]
      refine iff_of_false List.not_mem_nil ?_
      rintro ⟨names, node, content, hbelow, hfile, -, -⟩
      cases hbelow with
      | here => rw [hkind] at hfile; exact absurd hfile (by simp)
      | inside hdir _ _ => rw [hkind] at hdir; exact absurd hdir (by simp)
  -- a file is below itself only, so it is taken when it may be shown
  | file content =>
    have hpart : part = if excludedFromPublish (pathOf (above ++ [entry.1])) .file then [] else
        [{ path := pathOf (above ++ [entry.1]), content := content, linked := linked }] := by
      simp only [hkind, Kind.isLink, Bool.or_false, Bool.false_eq_true, if_false] at h
      split_ifs at h ⊢ <;> exact (Except.ok.inj h).symm
    refine ⟨?_, ?_⟩
    · intro names node hbelow _
      cases hbelow with
      | here => rw [hkind]; rfl
      | inside hdir _ _ => rw [hkind] at hdir; exact absurd hdir (by simp)
    · intro t
      rw [hpart]
      by_cases hshown : Shown (above ++ [entry.1])
      · rw [if_neg (by rw [(excluded_file hne).2 hshown]; simp), List.mem_singleton]
        constructor
        · intro ht
          exact ⟨[entry.1], entry.2, content, .here entry, hkind, hshown, ht⟩
        · rintro ⟨names, node, content', hbelow, hfile, -, ht⟩
          cases hbelow with
          | here =>
            rw [hkind, Kind.file.injEq] at hfile
            rw [ht, hfile]
          | inside hdir _ _ => rw [hkind] at hdir; exact absurd hdir (by simp)
      · have hexcluded : excludedFromPublish (pathOf (above ++ [entry.1])) .file = true := by
          by_contra hnot
          exact hshown ((excluded_file hne).1 (by simpa using hnot))
        rw [if_pos hexcluded]
        refine iff_of_false List.not_mem_nil ?_
        rintro ⟨names, node, content', hbelow, -, hshown', -⟩
        cases hbelow with
        | here => exact hshown hshown'
        | inside hdir _ _ => rw [hkind] at hdir; exact absurd hdir (by simp)
  -- a directory is what the walk below it says, with its own name in front
  | directory sub =>
    have hpart : (if excludedFromPublish (pathOf (above ++ [entry.1])) .directory then .ok [] else
        walk (pathOf (above ++ [entry.1])) linked sub) = Except.ok part := by
      simp only [hkind, Kind.isLink, Bool.or_false, Bool.false_eq_true, if_false] at h
      split_ifs at h ⊢ <;> exact h
    by_cases henter : Enterable (above ++ [entry.1])
    · rw [if_neg (by rw [(excluded_directory hne).2 henter]; simp)] at hpart
      have hwalked := hwalk sub part hpart
      refine ⟨?_, ?_⟩
      · intro names node hbelow hdrop
        cases hbelow with
        | here => rw [hkind]; rfl
        | @inside _ next sub' rest _ hdir hnext hrest =>
          rw [hkind, Kind.directory.injEq] at hdir
          rw [← hdir] at hnext
          rw [List.dropLast_cons_of_ne_nil hrest.ne_nil, hcons] at hdrop
          exact hwalked.unlinked rest node ⟨next, hnext, hrest⟩ hdrop
      · intro t
        rw [hwalked.taken]
        constructor
        · rintro ⟨rest, node, content, ⟨next, hnext, hrest⟩, hfile, hshown, ht⟩
          refine ⟨entry.1 :: rest, node, content, .inside hkind hnext hrest, hfile, ?_, ?_⟩
          · rw [hcons]
            exact hshown
          · rw [hcons]
            exact ht
        · rintro ⟨names, node, content, hbelow, hfile, hshown, ht⟩
          cases hbelow with
          | here => rw [hkind] at hfile; exact absurd hfile (by simp)
          | @inside _ next sub' rest _ hdir hnext hrest =>
            rw [hkind, Kind.directory.injEq] at hdir
            rw [← hdir] at hnext
            rw [hcons] at hshown ht
            exact ⟨rest, node, content, ⟨next, hnext, hrest⟩, hfile, hshown, ht⟩
    · -- nothing below is looked at, and nothing below may be shown
      have hexcluded : excludedFromPublish (pathOf (above ++ [entry.1])) .directory = true := by
        by_contra hnot
        exact henter ((excluded_directory hne).1 (by simpa using hnot))
      rw [if_pos hexcluded, Except.ok.injEq] at hpart
      refine ⟨?_, ?_⟩
      · intro names node hbelow hdrop
        cases hbelow with
        | here => rw [hkind]; rfl
        | @inside _ next sub' rest _ hdir hnext hrest =>
          rw [List.dropLast_cons_of_ne_nil hrest.ne_nil, hcons] at hdrop
          exact absurd (enterable_of_append hne hdrop) henter
      · intro t
        rw [← hpart]
        refine iff_of_false List.not_mem_nil ?_
        rintro ⟨names, node, content, hbelow, hfile, hshown, -⟩
        cases hbelow with
        | here => rw [hkind] at hfile; exact absurd hfile (by simp)
        | @inside _ next sub' rest _ hdir hnext hrest =>
          rw [hcons] at hshown
          exact henter (enterable_of_shown hne hrest.ne_nil hshown)

/-- **The registry's walk**, by induction on the levels it goes through. -/
theorem siteWalk_spec (depth : ℕ) : ∀ {above : List Name} {entries : List (Name × ν)} {taken : List Taken},
    siteWalk fs depth (pathOf above) linked entries = .ok taken → Walked fs (Stands fs entries) above linked taken := by
  induction depth with
  | zero =>
    intro above entries taken h
    exact absurd h (by simp [siteWalk])
  | succ depth ih =>
    intro above entries taken h
    rw [siteWalk, Except.bind_eq_ok] at h
    obtain ⟨parts, hparts, h⟩ := h
    rw [Except.pure_eq_ok, Except.ok.injEq] at h
    rw [Except.mapM_eq_ok] at hparts
    have hentry : ∀ entry part, siteEntry fs (siteWalk fs depth) (pathOf above) linked entry = .ok part →
        Walked fs (Below fs entry) above linked part := by
      intro entry part hpart
      exact siteEntry_spec (fun sub part hsub => ih hsub) hpart
    refine ⟨?_, ?_⟩
    · rintro names node ⟨entry, hmem, hbelow⟩ hdrop
      obtain ⟨part, -, hpart⟩ := Except.exists_of_forall₂_left hparts hmem
      exact (hentry entry part hpart).unlinked names node hbelow hdrop
    · intro t
      rw [← h, List.mem_flatten]
      constructor
      · rintro ⟨part, hmem, ht⟩
        obtain ⟨entry, hentry', hpart⟩ := Except.exists_of_forall₂_right hparts hmem
        obtain ⟨names, node, content, hbelow, hrest⟩ := ((hentry entry part hpart).taken t).1 ht
        exact ⟨names, node, content, ⟨entry, hentry', hbelow⟩, hrest⟩
      · rintro ⟨names, node, content, ⟨entry, hentry', hbelow⟩, hrest⟩
        obtain ⟨part, hmem, hpart⟩ := Except.exists_of_forall₂_left hparts hentry'
        exact ⟨part, hmem, ((hentry entry part hpart).taken t).2 ⟨names, node, content, hbelow, hrest⟩⟩

/-- What the registry publishes of a directory. -/
theorem siteFilesFor_spec {depth : ℕ} {directory : String} {taken : List Taken}
    (h : siteFilesFor fs depth directory root = .ok taken) (t : Taken) : t ∈ taken ↔ ∃ names node content,
      Stands fs root names node ∧ fs node = .file content ∧ Shown names ∧
        t = { path := pathOf names, content := content, linked := false } := by
  rw [siteFilesFor, Except.bind_eq_ok] at h
  obtain ⟨files, hfiles, h⟩ := h
  have heq : files = taken := by
    split_ifs at h
    · exact absurd h (by simp)
    · exact Except.ok.inj h
  have hwalk : siteWalk fs depth (pathOf []) false root = .ok taken := by
    rw [← heq]
    exact hfiles
  have hspec := (siteWalk_spec depth hwalk).taken t
  simpa only [List.nil_append] using hspec

/-- A shown file that is no link discloses nothing. -/
theorem Shown.discreet (h : Shown names) (hne : names ≠ []) :
    Discreet { path := pathOf names, content := content, linked := false } := by
  refine ⟨?_, rfl⟩
  rcases h with h | rfl
  · right
    intro segment hsegment
    rw [split_pathOf hne] at hsegment
    obtain ⟨name, hname, rfl⟩ := List.mem_map.1 hsegment
    exact h name hname
  · exact Or.inl pathOf_manifest

/-! ## The client's walk -/

/-- The directories that the walk goes on to. -/
def goesOn (fs : ν → Kind ν) (exclude : Option (List Name)) (dir : Dir ν) : List (Dir ν) :=
  (dir.entries.filterMap (subdirectory fs exclude dir)).reverse

/-- A directory is walked. -/
def Entered (fs : ν → Kind ν) (exclude : Option (List Name)) (root : List (Name × ν)) (dir : Dir ν) : Prop :=
  Worklist.Leads (goesOn fs exclude) { path := [], linked := false, entries := root } dir

/-- When the walk enters a directory. -/
theorem subdirectory_eq_some {dir next : Dir ν} {entry : Name × ν} : subdirectory fs exclude dir entry = some next ↔
    ∃ sub, (fs entry.2).followed fs = .directory sub ∧ ¬ (entry.1.1 = ".git" ∧ dir.path = []) ∧
      some (dir.path ++ [entry.1]) ≠ exclude ∧ ¬ (dotted entry.1.1 ∧ entry.1.1 ≠ ".vayu") ∧
        { path := dir.path ++ [entry.1], linked := dir.linked || (fs entry.2).isLink, entries := sub } = next := by
  unfold subdirectory
  cases hkind : (fs entry.2).followed fs with
  | directory sub =>
    dsimp only
    constructor
    · intro h
      split_ifs at h with hgit hexclude hdotted
      exact ⟨sub, rfl, hgit, hexclude, hdotted, Option.some.inj h⟩
    · rintro ⟨sub', hsub, hgit, hexclude, hdotted, hnext⟩
      rw [Kind.directory.injEq] at hsub
      rw [if_neg hgit, if_neg hexclude, if_neg hdotted, hsub, hnext]
  | file content => simp
  | link target => simp
  | other => simp

/-- When the walk takes a file. -/
theorem siteFile_eq_some {dir : Dir ν} {entry : Name × ν} {t : Taken} : siteFile fs dir entry = some t ↔
    ∃ content, (fs entry.2).followed fs = .file content ∧
      t = { path := slashed (pathOf (dir.path ++ [entry.1])), content := content,
            linked := dir.linked || (fs entry.2).isLink } := by
  unfold siteFile
  cases (fs entry.2).followed fs with
  | file content =>
    dsimp only
    rw [Option.some.injEq]
    constructor
    · intro h
      exact ⟨content, rfl, h.symm⟩
    · rintro ⟨content', hcontent, ht⟩
      rw [Kind.file.injEq] at hcontent
      rw [ht, hcontent]
  | directory sub => simp
  | link target => simp
  | other => simp

/-- Where the walk goes on from a directory. -/
theorem mem_goesOn {dir next : Dir ν} : next ∈ goesOn fs exclude dir ↔
    ∃ entry ∈ dir.entries, subdirectory fs exclude dir entry = some next := by
  rw [goesOn, List.mem_reverse, List.mem_filterMap]

/-- The loop is a walk with a list of what is left. -/
theorem walkSiteFrom_eq (rounds : ℕ) : ∀ (stack : List (Dir ν)) (files : List Taken),
    walkSiteFrom fs exclude rounds stack files =
      Worklist.run (goesOn fs exclude) (fun dir => dir.entries.filterMap (siteFile fs dir)) rounds stack files := by
  induction rounds with
  | zero =>
    intro stack files
    cases stack <;> rfl
  | succ rounds ih =>
    intro stack files
    cases stack with
    | nil => rfl
    | cons dir stack => exact ih _ _

/-- The path lies in a directory that is left out. -/
def Excluded (exclude : Option (List Name)) (names : List Name) : Prop :=
  ∃ e, exclude = some e ∧ e ≠ [] ∧ e <+: names.dropLast

/-- The path lies in a directory whose name begins with a dot, other than `.vayu`. -/
def Hidden (names : List Name) : Prop := ∃ name ∈ names.dropLast, dotted name.1 = true ∧ name.1 ≠ ".vayu"

/-- A file that can be opened below a directory, links followed. -/
inductive Opens (fs : ν → Kind ν) : List (Name × ν) → List Name → Bool → Bytes → Prop
  | file {entries : List (Name × ν)} {entry : Name × ν} {content : Bytes} (hentry : entry ∈ entries)
      (hfile : (fs entry.2).followed fs = .file content) : Opens fs entries [entry.1] (fs entry.2).isLink content
  | inside {entries sub : List (Name × ν)} {entry : Name × ν} {names : List Name} {linked : Bool} {content : Bytes}
      (hentry : entry ∈ entries) (hdir : (fs entry.2).followed fs = .directory sub)
      (rest : Opens fs sub names linked content) :
      Opens fs entries (entry.1 :: names) ((fs entry.2).isLink || linked) content

/-- A file that can be opened, in a directory that is not passed over. -/
structure Listed (fs : ν → Kind ν) (exclude : Option (List Name)) (root : List (Name × ν)) (names : List Name)
    (linked : Bool) (content : Bytes) : Prop where
  opens : Opens fs root names linked content
  not_excluded : ¬ Excluded exclude names
  not_hidden : ¬ Hidden names

theorem Opens.ne_nil (h : Opens fs entries names linked content) : names ≠ [] := by
  cases h <;> exact List.cons_ne_nil _ _

theorem Listed.ne_nil (h : Listed fs exclude root names linked content) : names ≠ [] := h.opens.ne_nil

/-- Below a directory that is left out nothing is walked. -/
theorem Entered.not_excluded {dir : Dir ν} (h : Entered fs exclude root dir) {e : List Name} (he : exclude = some e)
    (hne : e ≠ []) : ¬ e <+: dir.path := by
  unfold Entered Worklist.Leads at h
  induction h with
  | refl =>
    intro hprefix
    exact hne (List.prefix_nil.1 hprefix)
  | tail _ hstep ih =>
    intro hprefix
    obtain ⟨entry, -, hsub⟩ := mem_goesOn.1 hstep
    obtain ⟨sub, -, -, hexclude, -, rfl⟩ := subdirectory_eq_some.1 hsub
    rcases List.prefix_concat_iff.1 hprefix with heq | hprefix
    · exact hexclude (by rw [he, heq])
    · exact ih hprefix

/-- A directory that is walked is not hidden. -/
theorem Entered.not_hidden {dir : Dir ν} (h : Entered fs exclude root dir) :
    ∀ name ∈ dir.path, ¬ (dotted name.1 = true ∧ name.1 ≠ ".vayu") := by
  unfold Entered Worklist.Leads at h
  induction h with
  | refl =>
    intro name hname
    exact absurd hname List.not_mem_nil
  | tail _ hstep ih =>
    obtain ⟨entry, -, hsub⟩ := mem_goesOn.1 hstep
    obtain ⟨sub, -, -, -, hdotted, rfl⟩ := subdirectory_eq_some.1 hsub
    intro name hname
    rcases List.mem_append.1 hname with hname | hname
    · exact ih name hname
    · rw [List.mem_singleton.1 hname]
      exact hdotted

/-- What can be opened below a directory that is walked can be opened below the root. -/
theorem Entered.opens {dir : Dir ν} (h : Entered fs exclude root dir) : ∀ names linked content,
    Opens fs dir.entries names linked content → Opens fs root (dir.path ++ names) (dir.linked || linked) content := by
  unfold Entered Worklist.Leads at h
  induction h with
  | refl =>
    intro names linked content hopens
    rw [List.nil_append, Bool.false_or]
    exact hopens
  | tail _ hstep ih =>
    intro names linked content hopens
    obtain ⟨entry, hentry, hsub⟩ := mem_goesOn.1 hstep
    obtain ⟨sub, hdir, -, -, -, rfl⟩ := subdirectory_eq_some.1 hsub
    have hinside := ih (entry.1 :: names) _ content (.inside hentry hdir hopens)
    rw [List.append_assoc, List.singleton_append, Bool.or_assoc]
    exact hinside

/-- What can be opened below a directory that is walked is taken, by a directory below that. -/
theorem Opens.entered (h : Opens fs entries names linked content) : ∀ {dir : Dir ν}, Entered fs exclude root dir →
    dir.entries = entries → ¬ Excluded exclude (dir.path ++ names) → ¬ Hidden (dir.path ++ names) →
      ∃ last entry, Entered fs exclude root last ∧ entry ∈ last.entries ∧ (fs entry.2).followed fs = .file content ∧
        dir.path ++ names = last.path ++ [entry.1] ∧ (dir.linked || linked) = (last.linked || (fs entry.2).isLink) := by
  induction h with
  | @file _ entry _ hentry hfile =>
    intro dir hdir hentries _ _
    rw [← hentries] at hentry
    exact ⟨dir, entry, hdir, hentry, hfile, rfl, rfl⟩
  | @inside _ sub entry names linked _ hentry hsub hrest ih =>
    intro dir hdir hentries hexcluded hhidden
    have hcons : dir.path ++ entry.1 :: names = dir.path ++ [entry.1] ++ names := by
      rw [List.append_assoc, List.singleton_append]
    rw [hcons] at hexcluded hhidden ⊢
    have hmem : entry.1 ∈ (dir.path ++ [entry.1] ++ names).dropLast := by
      rw [List.dropLast_append_of_ne_nil hrest.ne_nil]
      simp
    -- `.git` is passed over wherever it stands, as its name begins with a dot
    have hdotted : ¬ (dotted entry.1.1 = true ∧ entry.1.1 ≠ ".vayu") := fun hboth => hhidden ⟨entry.1, hmem, hboth⟩
    have hgit : ¬ (entry.1.1 = ".git" ∧ dir.path = []) := by
      rintro ⟨hgit, -⟩
      apply hdotted
      rw [hgit]
      decide
    have hexclude : some (dir.path ++ [entry.1]) ≠ exclude := by
      intro heq
      refine hexcluded ⟨dir.path ++ [entry.1], heq.symm, by simp, ?_⟩
      rw [List.dropLast_append_of_ne_nil hrest.ne_nil]
      exact List.prefix_append _ _
    have hstep : subdirectory fs exclude dir entry =
        some { path := dir.path ++ [entry.1], linked := dir.linked || (fs entry.2).isLink, entries := sub } :=
      subdirectory_eq_some.2 ⟨sub, hsub, hgit, hexclude, hdotted, rfl⟩
    have hentered : Entered fs exclude root
        { path := dir.path ++ [entry.1], linked := dir.linked || (fs entry.2).isLink, entries := sub } := by
      rw [← hentries] at hentry
      exact ReflTransGen.tail hdir (mem_goesOn.2 ⟨entry, hentry, hstep⟩)
    rw [← Bool.or_assoc]
    exact ih hentered rfl hexcluded hhidden

/-- **The client's walk** lists every file that it can open, but in directories that it passes over. -/
theorem mem_walkSite {rounds : ℕ} {files : List Taken} (h : walkSite fs exclude rounds root = some files) (t : Taken) :
    t ∈ files ↔ ∃ names linked content, Listed fs exclude root names linked content ∧
      t = { path := slashed (pathOf names), content := content, linked := linked } := by
  rw [walkSite, Option.map_eq_some_iff] at h
  obtain ⟨found, hfound, rfl⟩ := h
  rw [walkSiteFrom_eq] at hfound
  rw [List.mem_insertionSort, Worklist.run_spec hfound]
  constructor
  · rintro ⟨dir, hdir, hmem⟩
    have hdir : Entered fs exclude root dir := hdir
    obtain ⟨entry, hentry, hfile⟩ := List.mem_filterMap.1 hmem
    obtain ⟨content, hcontent, rfl⟩ := siteFile_eq_some.1 hfile
    refine ⟨_, _, content, ⟨hdir.opens _ _ _ (.file hentry hcontent), ?_, ?_⟩, rfl⟩
    · rintro ⟨e, he, hne, hprefix⟩
      rw [List.dropLast_concat] at hprefix
      exact hdir.not_excluded he hne hprefix
    · rintro ⟨name, hname, hboth⟩
      rw [List.dropLast_concat] at hname
      exact hdir.not_hidden name hname hboth
  · rintro ⟨names, linked, content, hlisted, rfl⟩
    have hroot : Entered fs exclude root { path := [], linked := false, entries := root } := ReflTransGen.refl
    obtain ⟨dir, entry, hdir, hentry, hcontent, hnames, hlinked⟩ :=
      hlisted.opens.entered hroot rfl hlisted.not_excluded hlisted.not_hidden
    rw [List.nil_append] at hnames
    rw [Bool.false_or] at hlinked
    refine ⟨dir, hdir, List.mem_filterMap.2 ⟨entry, hentry, siteFile_eq_some.2 ⟨content, hcontent, ?_⟩⟩⟩
    rw [hnames, hlinked]

/-- A file that is opened without a link stands in the tree itself. -/
theorem Opens.stands (h : Opens fs entries names linked content) :
    linked = false → ∃ node, Stands fs entries names node ∧ fs node = .file content := by
  induction h with
  | @file _ entry _ hentry hfile =>
    intro hlinked
    rw [Kind.followed_of_not_isLink hlinked] at hfile
    exact ⟨entry.2, ⟨entry, hentry, .here entry⟩, hfile⟩
  | inside hentry hsub _ ih =>
    intro hlinked
    rw [Bool.or_eq_false_iff] at hlinked
    rw [Kind.followed_of_not_isLink hlinked.1] at hsub
    obtain ⟨node, ⟨next, hnext, hbelow⟩, hfile⟩ := ih hlinked.2
    exact ⟨node, ⟨_, hentry, .inside hsub hnext hbelow⟩, hfile⟩

/-- A file that stands in the tree itself is opened without a link. -/
theorem Below.opens {entry : Name × ν} (h : Below fs entry names node) (hfile : fs node = .file content) :
    ∀ {entries : List (Name × ν)}, entry ∈ entries → Opens fs entries names false content := by
  induction h with
  | here entry =>
    intro entries hentry
    have hlink : (fs entry.2).isLink = false := by rw [hfile]; rfl
    rw [← hlink]
    refine .file hentry ?_
    rw [Kind.followed_of_not_isLink hlink]
    exact hfile
  | @inside entry next sub names target hsub hnext hrest ih =>
    intro entries hentry
    have hlink : (fs entry.2).isLink = false := by rw [hsub]; rfl
    have hdir : (fs entry.2).followed fs = .directory sub := by
      rw [Kind.followed_of_not_isLink hlink]
      exact hsub
    have hinside := Opens.inside hentry hdir (ih hfile hnext)
    rw [hlink, Bool.false_or] at hinside
    exact hinside

/-- A file that may be shown does not lie in a hidden directory. -/
theorem Shown.not_hidden (h : Shown names) : ¬ Hidden names := by
  rintro ⟨name, hname, hdotted, hvayu⟩
  rcases h with h | rfl
  · have hundotted := h name (List.dropLast_subset _ hname)
    rw [hdotted] at hundotted
    exact absurd hundotted (by simp)
  · rw [List.mem_singleton.1 hname] at hvayu
    exact hvayu rfl

/-- **A file that may be shown is listed**, unless it is left out. -/
theorem listed_of_stands (h : Stands fs root names node) (hfile : fs node = .file content) (hshown : Shown names)
    (hexcluded : ¬ Excluded exclude names) : Listed fs exclude root names false content := by
  obtain ⟨entry, hentry, hbelow⟩ := h
  exact ⟨hbelow.opens hfile hentry, hexcluded, hshown.not_hidden⟩

/-! ## Backslashes -/

/-- What stands between the backslashes of a name. -/
def parts (name : Name) : List String := (name.1.toList.splitOn '\\').map String.ofList

/-- Two names never have the same parts. -/
theorem parts_injective {a b : Name} (h : parts a = parts b) : a = b := by
  have hlists := congrArg (List.map String.toList) h
  have hid : String.toList ∘ String.ofList = id := by
    funext chars
    exact String.toList_ofList
  rw [parts, parts, List.map_map, List.map_map, hid, List.map_id, List.map_id] at hlists
  have ha : ['\\'].intercalate (a.1.toList.splitOn '\\') = a.1.toList := List.intercalate_splitOn '\\'
  apply Subtype.ext
  apply String.toList_inj.1
  rw [← ha, hlists, List.intercalate_splitOn]

theorem parts_ne_nil (name : Name) : parts name ≠ [] := by
  intro h
  exact List.splitOn_ne_nil _ _ (List.map_eq_nil_iff.1 h)

/-- A name that begins with a dot has a part that does. -/
theorem dotted_part {name : Name} (h : dotted name.1 = true) : ∃ part ∈ parts name, dotted part = true := by
  unfold dotted at h
  rw [decide_eq_true_eq] at h
  cases hchars : name.1.toList with
  | nil => rw [hchars] at h; exact absurd h (by simp)
  | cons c chars =>
    rw [hchars, List.head?_cons, Option.some.injEq] at h
    unfold parts
    rw [hchars, h, List.splitOn_cons_eq_if_modifyHead, if_neg (by decide)]
    cases hsplit : chars.splitOn '\\' with
    | nil => exact absurd hsplit (List.splitOn_ne_nil _ _)
    | cons head tail =>
      rw [List.modifyHead_cons, List.map_cons]
      refine ⟨_, List.mem_cons_self, ?_⟩
      simp [dotted]

theorem slashed_append (a b : String) : slashed (a ++ b) = slashed a ++ slashed b := by
  apply String.toList_inj.1
  simp [slashed]

theorem splitOn_map_slash {chars : List Char} (h : '/' ∉ chars) :
    (chars.map fun c => if c = '\\' then '/' else c).splitOn '/' = chars.splitOn '\\' := by
  induction chars with
  | nil => rfl
  | cons c chars ih =>
    rw [List.mem_cons, not_or] at h
    rw [List.map_cons, List.splitOn_cons_eq_if_modifyHead, List.splitOn_cons_eq_if_modifyHead, ih h.2]
    by_cases hc : c = '\\'
    · rw [if_pos hc, hc]
      rfl
    · have hslash : ¬ (c == '/') = true := by simpa using Ne.symm h.1
      have hback : ¬ (c == '\\') = true := by simpa using hc
      rw [if_neg hc, if_neg hslash, if_neg hback]

/-- The segments of a listed path. -/
theorem split_slashed (hne : names ≠ []) : Path.split (slashed (pathOf names)) = names.flatMap parts := by
  induction names with
  | nil => exact absurd rfl hne
  | cons name names ih =>
    have hname : Path.split (slashed name.1) = parts name := by
      rw [Path.split, slashed, String.toList_ofList, splitOn_map_slash name.2.2, parts]
    cases names with
    | nil =>
      rw [List.flatMap_cons, List.flatMap_nil, List.append_nil, ← hname]
      rfl
    | cons next names =>
      have hpath : pathOf (name :: next :: names) = name.1 ++ "/" ++ pathOf (next :: names) := rfl
      have hslash : slashed "/" = "/" := by decide
      rw [hpath, slashed_append, slashed_append, hslash, Path.split_append, hname, ih (List.cons_ne_nil _ _)]
      rfl

theorem notMem_slashed (path : String) : '\\' ∉ (slashed path).toList := by
  rw [slashed, String.toList_ofList]
  intro h
  obtain ⟨c, -, hc⟩ := List.mem_map.1 h
  split_ifs at hc with hback
  · exact absurd hc (by decide)
  · exact hback hc

theorem slashed_of_notMem {path : String} (h : '\\' ∉ path.toList) : slashed path = path := by
  apply String.toList_inj.1
  rw [slashed, String.toList_ofList, List.map_congr_left, List.map_id]
  intro c hc
  rw [if_neg]
  · rfl
  · rintro rfl
    exact h hc

/-- No name of the list has a backslash. -/
def Plain (names : List Name) : Prop := ∀ name ∈ names, '\\' ∉ name.1.toList

/-- Names without a backslash, by their path. -/
theorem plain_iff : Plain names ↔ '\\' ∉ (pathOf names).toList := by
  induction names with
  | nil =>
    refine iff_of_true (fun name hname => absurd hname List.not_mem_nil) ?_
    decide
  | cons name names ih =>
    have hcons : Plain (name :: names) ↔ '\\' ∉ name.1.toList ∧ Plain names := by
      unfold Plain
      rw [List.forall_mem_cons]
    rw [hcons, ih]
    cases names with
    | nil =>
      have hone : pathOf [name] = name.1 := rfl
      have hnil : '\\' ∉ (pathOf []).toList := by decide
      rw [hone]
      exact ⟨fun h => h.1, fun h => ⟨h, hnil⟩⟩
    | cons next names =>
      have hpath : pathOf (name :: next :: names) = name.1 ++ "/" ++ pathOf (next :: names) := rfl
      have hslash : '\\' ∉ "/".toList := by decide
      rw [hpath, String.toList_append, String.toList_append, List.mem_append, List.mem_append]
      constructor
      · rintro ⟨hname, hrest⟩ ((h | h) | h)
        · exact hname h
        · exact hslash h
        · exact hrest h
      · intro h
        exact ⟨fun hname => h (Or.inl (Or.inl hname)), fun hrest => h (Or.inr hrest)⟩

/-- A file of the root whose name reads like the manifest's path. -/
def backslashed : Name := ⟨".vayu\\manifest.json", by decide⟩

/-- What is taken for the manifest. -/
theorem slashed_eq_manifest (hne : names ≠ []) : slashed (pathOf names) = manifestRelative ↔
    names = [vayuName, manifestName] ∨ names = [backslashed] := by
  have hvayu : parts vayuName = [".vayu"] := by decide
  have hmanifest : parts manifestName = ["manifest.json"] := by decide
  have hback : parts backslashed = [".vayu", "manifest.json"] := by decide
  constructor
  · intro h
    have hsplit := split_slashed hne
    have hsegments : Path.split manifestRelative = [".vayu", "manifest.json"] := by decide
    rw [h, hsegments] at hsplit
    cases names with
    | nil => exact absurd rfl hne
    | cons name names =>
      -- a single name is split at its own separator: the one file name that spells the path by itself
      cases names with
      | nil =>
        right
        rw [List.flatMap_cons, List.flatMap_nil, List.append_nil, ← hback] at hsplit
        rw [parts_injective hsplit]
      | cons next names =>
        left
        rw [List.flatMap_cons, List.flatMap_cons] at hsplit
        obtain ⟨p, ps, hp⟩ := List.exists_cons_of_ne_nil (parts_ne_nil name)
        obtain ⟨q, qs, hq⟩ := List.exists_cons_of_ne_nil (parts_ne_nil next)
        rw [hp, hq] at hsplit
        cases ps with
        | cons p' ps => simp at hsplit
        | nil =>
          simp only [List.cons_append, List.nil_append, List.cons.injEq] at hsplit
          obtain ⟨hp', hq', hrest⟩ := hsplit
          rw [eq_comm, List.append_eq_nil_iff] at hrest
          have hnames : names = [] := by
            cases names with
            | nil => rfl
            | cons last names =>
              rw [List.flatMap_cons, List.append_eq_nil_iff] at hrest
              exact absurd hrest.2.1 (parts_ne_nil last)
          rw [← hp', ← hvayu] at hp
          rw [hrest.1, ← hq', ← hmanifest] at hq
          rw [parts_injective hp, parts_injective hq, hnames]
  · rintro (rfl | rfl)
    · decide
    · decide

/-! ## Both walks -/

/-- A file that is listed under a path that may be shown. -/
def Presentable (names : List Name) : Prop :=
  (∀ name ∈ names, ∀ part ∈ parts name, dotted part = false) ∨ names = [vayuName, manifestName] ∨ names = [backslashed]

/-- When a file discloses nothing: it is no link, and its path can be shown. -/
theorem discreet_iff (hne : names ≠ []) :
    Discreet { path := slashed (pathOf names), content := content, linked := linked } ↔
      linked = false ∧ Presentable names := by
  have hparts : (∀ segment ∈ Path.split (slashed (pathOf names)), dotted segment = false) ↔
      ∀ name ∈ names, ∀ part ∈ parts name, dotted part = false := by
    rw [split_slashed hne]
    simp only [List.mem_flatMap]
    exact ⟨fun h name hname part hpart => h part ⟨name, hname, hpart⟩,
      fun h part ⟨name, hname, hpart⟩ => h name hname part hpart⟩
  constructor
  · intro h
    refine ⟨h.unlinked, ?_⟩
    rcases h.path with hpath | hpath
    · exact Or.inr ((slashed_eq_manifest hne).1 hpath)
    · exact Or.inl (hparts.1 hpath)
  · rintro ⟨hlinked, hpresentable⟩
    refine ⟨?_, hlinked⟩
    rcases hpresentable with hall | hmanifest
    · exact Or.inr (hparts.2 hall)
    · exact Or.inl ((slashed_eq_manifest hne).2 hmanifest)

theorem shown_of_undotted (h : ∀ name ∈ names, ∀ part ∈ parts name, dotted part = false) : Shown names := by
  left
  intro name hname
  by_contra hdotted
  rw [Bool.not_eq_false] at hdotted
  obtain ⟨part, hpart, hdot⟩ := dotted_part hdotted
  rw [h name hname part hpart] at hdot
  exact absurd hdot (by simp)

/-- Every file that the client's walk comes to stands in the tree itself, under a path that may be shown. -/
def OnlyPresentable (fs : ν → Kind ν) (exclude : Option (List Name)) (root : List (Name × ν)) : Prop :=
  ∀ names linked content, Listed fs exclude root names linked content → linked = false ∧ Presentable names

/-- What keeps the two walks together, where both take only what may be shown: no file has a backslash in its path or
lies in the directory that is left out, but for the manifest and its namesake in the root. -/
structure Alike (fs : ν → Kind ν) (exclude : Option (List Name)) (root : List (Name × ν)) : Prop where
  plain : ∀ names node content, Stands fs root names node → fs node = .file content → Shown names →
    names ≠ [vayuName, manifestName] → Plain names ∧ ¬ Excluded exclude names
  namesake : ∀ linked content, Listed fs exclude root [backslashed] linked content →
    ∃ node, Stands fs root [vayuName, manifestName] node ∧ fs node = .file content
  excluded : exclude = some [vayuName] → ∀ node content, Stands fs root [vayuName, manifestName] node →
    fs node = .file content → ∃ linked, Listed fs exclude root [backslashed] linked content

/-- Two walks return the same paths with the same contents. -/
def SameFiles (taken listed : List Taken) : Prop :=
  ∀ path content, (∃ t ∈ taken, t.path = path ∧ t.content = content) ↔ ∃ t ∈ listed, t.path = path ∧ t.content = content

theorem plain_manifest : Plain [vayuName, manifestName] := by
  rw [plain_iff]
  decide

/-- **When the two walks return the same.** -/
theorem sameFiles_iff {depth rounds : ℕ} {directory : String} {taken listed : List Taken}
    (htaken : siteFilesFor fs depth directory root = .ok taken)
    (hlisted : walkSite fs exclude rounds root = some listed)
    (honly : OnlyPresentable fs exclude root) : SameFiles taken listed ↔ Alike fs exclude root := by
  -- both sides as sets of paths with contents
  have hleft : ∀ path content, (∃ t ∈ taken, t.path = path ∧ t.content = content) ↔
      ∃ names node, Stands fs root names node ∧ fs node = .file content ∧ Shown names ∧ pathOf names = path := by
    intro path content
    constructor
    · rintro ⟨t, ht, hpath, hcontent⟩
      obtain ⟨names, node, content', hstands, hfile, hshown, rfl⟩ := (siteFilesFor_spec htaken t).1 ht
      dsimp only at hpath hcontent
      rw [hcontent] at hfile
      exact ⟨names, node, hstands, hfile, hshown, hpath⟩
    · rintro ⟨names, node, hstands, hfile, hshown, hpath⟩
      exact ⟨_, (siteFilesFor_spec htaken _).2 ⟨names, node, content, hstands, hfile, hshown, rfl⟩, hpath, rfl⟩
  have hright : ∀ path content, (∃ t ∈ listed, t.path = path ∧ t.content = content) ↔
      ∃ names linked, Listed fs exclude root names linked content ∧ slashed (pathOf names) = path := by
    intro path content
    constructor
    · rintro ⟨t, ht, hpath, hcontent⟩
      obtain ⟨names, linked, content', hnames, rfl⟩ := (mem_walkSite hlisted t).1 ht
      dsimp only at hpath hcontent
      rw [hcontent] at hnames
      exact ⟨names, linked, hnames, hpath⟩
    · rintro ⟨names, linked, hnames, hpath⟩
      exact ⟨_, (mem_walkSite hlisted _).2 ⟨names, linked, content, hnames, rfl⟩, hpath, rfl⟩
  unfold SameFiles
  simp only [hleft, hright]
  constructor
  · intro hsame
    refine ⟨?_, ?_, ?_⟩
    · intro names node content hstands hfile hshown hne
      -- a path of the registry's is one of the client's, which has no backslash
      have hplain : ∀ names node content, Stands fs root names node → fs node = .file content → Shown names →
          Plain names := by
        intro names node content hstands hfile hshown
        obtain ⟨names', linked, -, hpath⟩ := (hsame (pathOf names) content).1 ⟨names, node, hstands, hfile, hshown, rfl⟩
        rw [plain_iff, ← hpath]
        exact notMem_slashed _
      refine ⟨hplain names node content hstands hfile hshown, ?_⟩
      obtain ⟨names', linked, hnames, hpath⟩ :=
        (hsame (pathOf names) content).1 ⟨names, node, hstands, hfile, hshown, rfl⟩
      obtain ⟨rfl, hpresentable⟩ := honly names' linked content hnames
      have hsame' : Plain names' → names' = names := by
        intro hplain'
        rw [slashed_of_notMem (plain_iff.1 hplain')] at hpath
        exact pathOf_injective hpath
      rcases hpresentable with hundotted | hmanifest | hback
      · obtain ⟨node', hstands', hfile'⟩ := hnames.opens.stands rfl
        rw [← hsame' (hplain names' node' content hstands' hfile' (shown_of_undotted hundotted))]
        exact hnames.not_excluded
      · rw [← hsame' (hmanifest ▸ plain_manifest)]
        exact hnames.not_excluded
      · have heq := (slashed_eq_manifest hnames.ne_nil).2 (Or.inr hback)
        rw [hpath, ← pathOf_manifest] at heq
        exact absurd (pathOf_injective heq) hne
    · intro linked content hnames
      have hpath := (slashed_eq_manifest hnames.ne_nil).2 (Or.inr rfl)
      obtain ⟨names, node, hstands, hfile, -, hpath'⟩ :=
        (hsame manifestRelative content).2 ⟨[backslashed], linked, hnames, hpath⟩
      rw [← pathOf_manifest] at hpath'
      rw [pathOf_injective hpath'] at hstands
      exact ⟨node, hstands, hfile⟩
    · intro hexclude node content hstands hfile
      obtain ⟨names, linked, hnames, hpath⟩ := (hsame manifestRelative content).1
        ⟨_, node, hstands, hfile, Or.inr rfl, pathOf_manifest⟩
      rcases (slashed_eq_manifest hnames.ne_nil).1 hpath with rfl | rfl
      · exact absurd ⟨[vayuName], hexclude, by simp, by simp⟩ hnames.not_excluded
      · exact ⟨linked, hnames⟩
  · intro halike path content
    constructor
    · rintro ⟨names, node, hstands, hfile, hshown, rfl⟩
      by_cases hmanifest : names = [vayuName, manifestName]
      · rw [hmanifest] at hstands ⊢
        by_cases hexclude : exclude = some [vayuName]
        · obtain ⟨linked, hnames⟩ := halike.excluded hexclude node content hstands hfile
          refine ⟨[backslashed], linked, hnames, ?_⟩
          rw [pathOf_manifest]
          exact (slashed_eq_manifest hnames.ne_nil).2 (Or.inr rfl)
        · have hexcluded : ¬ Excluded exclude [vayuName, manifestName] := by
            rintro ⟨e, he, hne, hprefix⟩
            apply hexclude
            rw [he]
            have hdrop : [vayuName, manifestName].dropLast = [] ++ [vayuName] := rfl
            rw [hdrop, List.prefix_concat_iff] at hprefix
            rcases hprefix with heq | hnil
            · rw [heq]
              rfl
            · exact absurd (List.prefix_nil.1 hnil) hne
          refine ⟨_, false, listed_of_stands hstands hfile (Or.inr rfl) hexcluded, ?_⟩
          exact slashed_of_notMem (plain_iff.1 plain_manifest)
      · obtain ⟨hplain, hexcluded⟩ := halike.plain names node content hstands hfile hshown hmanifest
        exact ⟨names, false, listed_of_stands hstands hfile hshown hexcluded, slashed_of_notMem (plain_iff.1 hplain)⟩
    · rintro ⟨names, linked, hnames, rfl⟩
      obtain ⟨rfl, hpresentable⟩ := honly names linked content hnames
      rcases hpresentable with hundotted | rfl | rfl
      · obtain ⟨node, hstands, hfile⟩ := hnames.opens.stands rfl
        have hshown := shown_of_undotted hundotted
        have hne : names ≠ [vayuName, manifestName] := by
          rintro rfl
          have hdot := hundotted vayuName List.mem_cons_self ".vayu" (by decide)
          exact absurd hdot (by decide)
        have hplain := (halike.plain names node content hstands hfile hshown hne).1
        exact ⟨names, node, hstands, hfile, hshown, (slashed_of_notMem (plain_iff.1 hplain)).symm⟩
      · obtain ⟨node, hstands, hfile⟩ := hnames.opens.stands rfl
        exact ⟨_, node, hstands, hfile, Or.inr rfl, (slashed_of_notMem (plain_iff.1 plain_manifest)).symm⟩
      · obtain ⟨node, hstands, hfile⟩ := halike.namesake false content hnames
        refine ⟨_, node, hstands, hfile, Or.inr rfl, ?_⟩
        rw [(slashed_eq_manifest hnames.ne_nil).2 (Or.inr rfl)]
        exact pathOf_manifest

/-- **What a publish discloses.** The registry's walk takes only what may be shown. The client's takes only that
exactly when everything that it can open may be shown, and where both return they return the same exactly when they are
alike as well. -/
theorem publish_discloses_iff (directory : String) :
    (∀ depth taken, siteFilesFor fs depth directory root = .ok taken → ∀ t ∈ taken, Discreet t) ∧
      ∀ rounds listed, walkSite fs exclude rounds root = some listed →
        ((∀ t ∈ listed, Discreet t) ↔ OnlyPresentable fs exclude root) ∧
          ∀ depth taken, siteFilesFor fs depth directory root = .ok taken →
            ((∀ t ∈ listed, Discreet t) ∧ SameFiles taken listed ↔
              OnlyPresentable fs exclude root ∧ Alike fs exclude root) := by
  refine ⟨?_, ?_⟩
  · intro depth taken htaken t ht
    obtain ⟨names, node, content, ⟨entry, -, hbelow⟩, -, hshown, rfl⟩ := (siteFilesFor_spec htaken t).1 ht
    exact hshown.discreet hbelow.ne_nil
  · intro rounds listed hlisted
    have honly : (∀ t ∈ listed, Discreet t) ↔ OnlyPresentable fs exclude root := by
      constructor
      · intro h names linked content hnames
        exact (discreet_iff hnames.ne_nil).1 (h _ ((mem_walkSite hlisted _).2 ⟨names, linked, content, hnames, rfl⟩))
      · intro h t ht
        obtain ⟨names, linked, content, hnames, rfl⟩ := (mem_walkSite hlisted t).1 ht
        exact (discreet_iff hnames.ne_nil).2 (h names linked content hnames)
    refine ⟨honly, ?_⟩
    intro depth taken htaken
    rw [honly]
    exact and_congr_right fun hpresentable => sameFiles_iff htaken hlisted hpresentable

end

/-! ## A site of one page -/

/-- The name of a page. -/
def pageName : Name := ⟨"index.html", by decide⟩

/-- A name that starts with a dot. -/
def dotName : Name := ⟨".env", by decide⟩

/-- The only node is a file. -/
def oneFile : Unit → Kind Unit := fun _ => .file [0x68, 0x69]

/-- What both walks return of it. -/
def page : List Taken := [{ path := "index.html", content := [0x68, 0x69], linked := false }]

theorem publish_discloses_iff_page :
    siteFilesFor oneFile 1 "site" [(pageName, ())] = .ok page ∧ walkSite oneFile none 1 [(pageName, ())] = some page ∧
      (∀ t ∈ page, Discreet t) ∧ SameFiles page page := by
  have htaken : siteFilesFor oneFile 1 "site" [(pageName, ())] = .ok page := by decide
  have hwalk : walkSite oneFile none 1 [(pageName, ())] = some page := by decide
  have hnames : ∀ names linked content, Listed oneFile none [(pageName, ())] names linked content →
      names = [pageName] ∧ linked = false := by
    intro names linked content h
    cases h.opens with
    | file hentry _ =>
      rw [List.mem_singleton.1 hentry]
      exact ⟨rfl, rfl⟩
    | inside _ hdir _ => exact absurd hdir (by simp [oneFile, Kind.followed])
  have honly : OnlyPresentable oneFile none [(pageName, ())] := by
    intro names linked content h
    obtain ⟨rfl, rfl⟩ := hnames names linked content h
    exact ⟨rfl, Or.inl (by decide)⟩
  have hstands : ∀ names node, Stands oneFile [(pageName, ())] names node → names = [pageName] := by
    rintro names node ⟨entry, hentry, hbelow⟩
    rw [List.mem_singleton] at hentry
    cases hbelow with
    | here => rw [hentry]
    | inside hdir _ _ => exact absurd hdir (by simp [oneFile])
  have halike : Alike oneFile none [(pageName, ())] := by
    refine ⟨?_, ?_, ?_⟩
    · intro names node content h _ _ _
      rw [hstands names node h]
      refine ⟨?_, ?_⟩
      · rw [plain_iff]
        decide
      · rintro ⟨e, he, -⟩
        exact absurd he (by simp)
    · intro linked content h
      exact absurd (hnames _ _ _ h).1 (by decide)
    · intro h
      exact absurd h (by simp)
  exact ⟨htaken, hwalk, (((publish_discloses_iff "site").2 1 _ hwalk).2 1 _ htaken).2 ⟨honly, halike⟩⟩

/-- A file whose name begins with a dot is listed by the client. -/
theorem dotfile_disclosed : ¬ ∀ (ν : Type) (fs : ν → Kind ν) (exclude : Option (List Name)) (root : List (Name × ν))
    (rounds : ℕ) (listed : List Taken), walkSite fs exclude rounds root = some listed → ∀ t ∈ listed, Discreet t := by
  intro h
  have hwalk : walkSite oneFile none 1 [(dotName, ())] =
      some [{ path := ".env", content := [0x68, 0x69], linked := false }] := by decide
  have hdiscreet := h Unit oneFile none _ 1 _ hwalk _ (List.mem_singleton_self _)
  rcases hdiscreet.path with hpath | hpath
  · exact absurd hpath (by decide)
  · exact absurd (hpath ".env" (by decide)) (by decide)

end VayuWeb.Disclosure
