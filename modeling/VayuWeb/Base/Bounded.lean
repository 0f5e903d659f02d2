import Mathlib.Algebra.Order.BigOperators.Group.List
import VayuWeb.Base.Site

/-!
# Bounds on a built directory

How deep a build goes, and how large what it builds is.

* `buildIn_eq_build`: a stack as deep as the tree builds what one without end builds.
* `buildIn_overflows`: on a shallower one the build fails.
* `tsize_le_weight`: a directory is no larger than the sizes and the names below it.
-/

namespace Site

variable {κ ε : Type} {node : List (Link κ) → Except ε (Block κ)} {tree : Tree κ} {dir : String}

/-! ## The stack -/

/-- A subdirectory's path is its parent's and its name. -/
theorem dirSegments_of_mem (hproper : Proper tree) {name : String} (h : name ∈ subdirectoriesIn tree dir) :
    Path.dirSegments (Path.child dir name) = Path.dirSegments dir ++ [name] := by
  obtain ⟨path, link, rest, hmem, -, hsplit⟩ := mem_subdirectoriesIn.1 h
  have hin : name ∈ Path.split path := by
    rw [hsplit]
    exact List.mem_append_right _ List.mem_cons_self
  exact Path.dirSegments_child (hproper path link hmem name hin) (Path.notMem_of_mem_split hin)

/-- No path goes more than so many segments below a directory. -/
def Within (tree : Tree κ) (dir : String) (n : ℕ) : Prop :=
  ∀ path link rest, (path, link) ∈ tree → Path.split path = Path.dirSegments dir ++ rest → rest.length ≤ n

/-- As many levels as the longest path has characters are enough. -/
theorem within_depth : Within tree "" (depth tree + 1) := by
  intro path link rest hmem hsplit
  have hlength := length_le_depth hmem
  rwa [hsplit] at hlength

/-- Inside a subdirectory there is one level less. -/
theorem Within.child {n : ℕ} (h : Within tree dir (n + 1)) (hproper : Proper tree) {name : String}
    (hname : name ∈ subdirectoriesIn tree dir) : Within tree (Path.child dir name) n := by
  intro path link rest hmem hsplit
  rw [dirSegments_of_mem hproper hname, List.append_assoc, List.singleton_append] at hsplit
  have hlength := h path link (name :: rest) hmem hsplit
  rw [List.length_cons] at hlength
  omega

/-- **A stack as deep as the tree builds what one without end builds.** -/
theorem buildIn_eq_build (overflow : ε) (hproper : Proper tree) {levels frames : ℕ}
    (hwithin : Within tree dir (levels + 1)) (hframes : levels < frames) (blocks : List (Block κ)) :
    buildIn node tree overflow frames dir blocks = build node tree levels dir blocks := by
  obtain ⟨frames, rfl⟩ : ∃ n, frames = n + 1 := ⟨frames - 1, by omega⟩
  induction levels generalizing dir frames blocks with
  | zero =>
    have hnone : subdirectoriesIn tree dir = [] := by
      rw [List.eq_nil_iff_forall_not_mem]
      intro name hname
      obtain ⟨path, link, rest, hmem, hrest, hsplit⟩ := mem_subdirectoriesIn.1 hname
      have hlength := hwithin path link _ hmem hsplit
      rw [List.length_cons] at hlength
      exact hrest (List.length_eq_zero_iff.1 (by omega))
    rw [buildIn, build, hnone]
    rfl
  | succ levels ih =>
    obtain ⟨frames, rfl⟩ : ∃ n, frames = n + 1 := ⟨frames - 1, by omega⟩
    have hsubs : (subdirectoriesIn tree dir).foldlM (enter (buildIn node tree overflow (frames + 1)) dir)
        (entriesIn tree dir, blocks) =
          (subdirectoriesIn tree dir).foldlM (enter (build node tree levels) dir) (entriesIn tree dir, blocks) := by
      refine Except.foldlM_congr (fun name hname state => ?_) _
      rw [enter, enter, ih (hwithin.child hproper hname) _ _ (by omega)]
    rw [buildIn, build, hsubs]

/-- So it does not matter how many levels more are allowed. -/
theorem build_levels (e : ε) (hproper : Proper tree) {levels levels' : ℕ} (h : Within tree dir (levels + 1))
    (h' : Within tree dir (levels' + 1)) (blocks : List (Block κ)) :
    build node tree levels dir blocks = build node tree levels' dir blocks := by
  rw [← buildIn_eq_build e hproper h (Nat.lt_succ_of_le (Nat.le_max_left levels levels')) blocks,
    buildIn_eq_build e hproper h' (Nat.lt_succ_of_le (Nat.le_max_right levels levels')) blocks]

/-- **On a shallower one the build fails.** -/
theorem buildIn_overflows (overflow : ε) (hproper : Proper tree) {frames : ℕ} {path : String} {link : Link κ}
    {rest : List String} (hmem : (path, link) ∈ tree) (hsplit : Path.split path = Path.dirSegments dir ++ rest)
    (hlong : frames < rest.length) (blocks : List (Block κ)) :
    ∃ e, buildIn node tree overflow frames dir blocks = .error e := by
  induction frames generalizing dir rest blocks with
  | zero => exact ⟨overflow, rfl⟩
  | succ frames ih =>
    obtain ⟨name, rest, rfl⟩ := List.exists_cons_of_length_pos (Nat.zero_lt_of_lt hlong)
    rw [List.length_cons] at hlong
    have hrest : rest ≠ [] := List.length_pos_iff.1 (by omega)
    have hname : name ∈ subdirectoriesIn tree dir := mem_subdirectoriesIn.2 ⟨path, link, rest, hmem, hrest, hsplit⟩
    have hsplit' : Path.split path = Path.dirSegments (Path.child dir name) ++ rest := by
      rw [dirSegments_of_mem hproper hname, hsplit, List.append_assoc, List.singleton_append]
    have henter : ∀ state, ∃ e, enter (buildIn node tree overflow frames) dir state name = .error e := by
      intro state
      obtain ⟨e, he⟩ := ih hsplit' (by omega) state.2
      exact ⟨e, by rw [enter, he, Except.error_bind]⟩
    obtain ⟨e, he⟩ := Except.foldlM_of_error hname henter (entriesIn tree dir, blocks)
    exact ⟨e, by rw [buildIn, he, Except.error_bind]⟩

/-! ## Sums over parts -/

section Sums

variable {α β : Type}

theorem sum_filterMap_le {f : α → Option β} {g : β → ℕ} {h : α → ℕ} (l : List α)
    (hle : ∀ x ∈ l, ∀ y, f x = some y → g y ≤ h x) : ((l.filterMap f).map g).sum ≤ (l.map h).sum := by
  induction l with
  | nil => exact Nat.le_refl _
  | cons x l ih =>
    have hrest := ih fun y hy => hle y (List.mem_cons_of_mem _ hy)
    rw [List.map_cons, List.sum_cons]
    cases hx : f x with
    | none =>
      rw [List.filterMap_cons_none hx]
      omega
    | some y =>
      have hhead := hle x List.mem_cons_self y hx
      rw [List.filterMap_cons_some hx, List.map_cons, List.sum_cons]
      omega

theorem sum_map_le {g h : α → ℕ} (l : List α) (hle : ∀ x ∈ l, g x ≤ h x) : (l.map g).sum ≤ (l.map h).sum := by
  have hsum := sum_filterMap_le (f := some) (g := g) (h := h) l fun x hx y hxy => by
    rw [← Option.some.inj hxy]
    exact hle x hx
  rwa [List.filterMap_some] at hsum

/-- What one element adds over names that are all different. -/
theorem sum_named_le {names : List String} (hnodup : names.Nodup) (part : Option String) (n : ℕ) :
    (names.map fun s => if part = some s then n else 0).sum ≤ if part.isSome then n else 0 := by
  induction names with
  | nil => simp
  | cons t names ih =>
    rw [List.nodup_cons] at hnodup
    rw [List.map_cons, List.sum_cons]
    by_cases ht : part = some t
    · have hzero : (names.map fun s => if part = some s then n else 0).sum = 0 := by
        rw [List.sum_eq_zero]
        intro m hm
        obtain ⟨s, hs, rfl⟩ := List.mem_map.1 hm
        rw [if_neg]
        rintro heq
        rw [ht, Option.some.injEq] at heq
        exact hnodup.1 (heq ▸ hs)
      rw [hzero, if_pos ht, ht]
      exact Nat.le_refl _
    · rw [if_neg ht, Nat.zero_add]
      exact ih hnodup.2

/-- The parts of a sum under names that are all different. -/
theorem sum_parts_le {names : List String} (hnodup : names.Nodup) (part : α → Option String) (g : α → ℕ)
    (l : List α) : (names.map fun s => (l.map fun x => if part x = some s then g x else 0).sum).sum ≤
      (l.map fun x => if (part x).isSome then g x else 0).sum := by
  induction l with
  | nil => simp
  | cons x l ih =>
    have hhead := sum_named_le hnodup (part x) (g x)
    simp only [List.map_cons, List.sum_cons]
    rw [List.sum_map_add]
    omega

end Sums

/-! ## The size -/

section Weight

variable (width : String → ℕ) (base : ℕ)

/-- What an entry of the tree adds to a directory above it: its size, and the width of every name
on the way. -/
def share (dir : String) (entry : String × Link κ) : ℕ :=
  match Path.below dir entry.1 with
  | some relative => entry.2.tsize + ((Path.split relative).map fun s => width s + base).sum
  | none => 0

/-- A bound on the size of a directory, by what the tree holds below it. -/
def weight (tree : Tree κ) (dir : String) : ℕ := base + (tree.map (share width base dir)).sum

/-- The subdirectory an entry of the tree stands in. -/
def through (dir : String) (entry : String × Link κ) : Option String :=
  (Path.below dir entry.1).bind fun relative => if '/' ∈ relative.toList then some (Path.head relative) else none

variable {width base}

/-- A directory's weight does not depend on the order of the files. -/
theorem weight_perm {tree' : Tree κ} (h : tree'.Perm tree) (dir : String) :
    weight width base tree' dir = weight width base tree dir := by
  rw [weight, weight, (h.map _).sum_nat]

theorem share_le_root (dir : String) (entry : String × Link κ) :
    share width base dir entry ≤ share width base "" entry := by
  have hroot : Path.below "" entry.1 = some entry.1 := by
    rw [Path.below_eq_some]
    rfl
  rw [share, share, hroot]
  cases hbelow : Path.below dir entry.1 with
  | none => exact Nat.zero_le _
  | some relative =>
    rw [Path.below_eq_some] at hbelow
    simp only [hbelow, List.map_append, List.sum_append]
    omega

/-- No directory weighs more than the root. -/
theorem weight_le_root (tree : Tree κ) (dir : String) :
    weight width base tree dir ≤ weight width base tree "" :=
  Nat.add_le_add_left (sum_map_le _ fun entry _ => share_le_root dir entry) _

/-- What entries add to the size of the directory they stand in. -/
def bulk (width : String → ℕ) (entries : List (Link κ)) : ℕ :=
  (entries.map (·.tsize)).sum + (entries.map fun e => width e.name).sum

theorem bulk_append (entries subs : List (Link κ)) : bulk width (entries ++ subs) =
    bulk width entries + bulk width subs := by
  unfold bulk
  rw [List.map_append, List.map_append, List.sum_append, List.sum_append]
  omega

/-- The entries that stand in a directory itself. -/
theorem bulk_entriesIn_le (tree : Tree κ) (dir : String) : bulk width (entriesIn tree dir) ≤
    (tree.map fun x => if (through dir x).isSome then 0 else share width base dir x).sum := by
  unfold bulk
  rw [← List.sum_map_add]
  refine sum_filterMap_le tree fun x _ e he => ?_
  obtain ⟨relative, hbelow, he⟩ := Option.bind_eq_some_iff.1 he
  split_ifs at he with hslash
  have hthrough : through dir x = none := by
    rw [through, hbelow, Option.bind_some, if_neg hslash]
  rw [Option.some.injEq] at he
  rw [hthrough, if_neg (by simp), share, hbelow, ← he]
  simp only [Path.split_of_notMem hslash, List.map_cons, List.map_nil, List.sum_cons, List.sum_nil]
  omega

/-- The share of an entry grows by the name of the subdirectory it goes through. -/
theorem share_child (hproper : Proper tree) {name : String} (hname : name ∈ subdirectoriesIn tree dir)
    (x : String × Link κ) :
    share width base (Path.child dir name) x + (if through dir x = some name then width name + base else 0) =
      if through dir x = some name then share width base dir x else 0 := by
  by_cases hthrough : through dir x = some name
  · rw [if_pos hthrough, if_pos hthrough]
    rw [through] at hthrough
    obtain ⟨relative, hbelow, hhead⟩ := Option.bind_eq_some_iff.1 hthrough
    split_ifs at hhead with hslash
    rw [Option.some.injEq] at hhead
    obtain ⟨rest, hsplit, hrest⟩ := Path.split_of_mem hslash
    have hbelow' := hbelow
    rw [Path.below_eq_some, hsplit, hhead] at hbelow'
    have hjoin : Path.split (Path.join rest) = rest := by
      refine Path.split_join hrest fun s hs => ?_
      refine @Path.notMem_of_mem_split x.1 _ ?_
      rw [hbelow']
      exact List.mem_append_right _ (List.mem_cons_of_mem _ hs)
    have hchild : Path.below (Path.child dir name) x.1 = some (Path.join rest) := by
      rw [Path.below_eq_some, dirSegments_of_mem hproper hname, hjoin, hbelow', List.append_assoc,
        List.singleton_append]
    rw [share, share, hbelow, hchild]
    simp only [hjoin, hsplit, hhead, List.map_cons, List.sum_cons]
    omega
  · rw [if_neg hthrough, if_neg hthrough, Nat.add_zero, share]
    cases hchild : Path.below (Path.child dir name) x.1 with
    | none => rfl
    | some relative =>
      -- what is below the subdirectory goes through it
      exfalso
      rw [Path.below_eq_some, dirSegments_of_mem hproper hname, List.append_assoc, List.singleton_append] at hchild
      have hslash : ∀ s ∈ name :: Path.split relative, '/' ∉ s.toList := by
        intro s hs
        refine @Path.notMem_of_mem_split x.1 _ ?_
        rw [hchild]
        exact List.mem_append_right _ hs
      have hjoin := Path.split_join (List.cons_ne_nil name (Path.split relative)) hslash
      have hbelow : Path.below dir x.1 = some (Path.join (name :: Path.split relative)) := by
        rw [Path.below_eq_some, hjoin]
        exact hchild
      have hmem : '/' ∈ (Path.join (name :: Path.split relative)).toList := by
        by_contra hnot
        rw [Path.split_of_notMem hnot, List.cons.injEq] at hjoin
        exact Path.split_ne_nil relative hjoin.2.symm
      obtain ⟨rest, hsplit, -⟩ := Path.split_of_mem hmem
      rw [hjoin, List.cons.injEq] at hsplit
      apply hthrough
      rw [through, hbelow, Option.bind_some, if_pos hmem, ← hsplit.1]

/-- The weight of a subdirectory and the width of its name, out of what goes through it. -/
theorem weight_child_le (hproper : Proper tree) {name : String} (hname : name ∈ subdirectoriesIn tree dir) :
    weight width base tree (Path.child dir name) + width name ≤
      (tree.map fun x => if through dir x = some name then share width base dir x else 0).sum := by
  have hsum : (tree.map (share width base (Path.child dir name))).sum +
      (tree.map fun x => if through dir x = some name then width name + base else 0).sum =
        (tree.map fun x => if through dir x = some name then share width base dir x else 0).sum := by
    rw [← List.sum_map_add]
    exact congrArg List.sum (List.map_congr_left fun x _ => share_child hproper hname x)
  have hone : width name + base ≤
      (tree.map fun x => if through dir x = some name then width name + base else 0).sum := by
    rw [subdirectoriesIn, List.mem_eraseDups, List.mem_filterMap] at hname
    obtain ⟨x, hx, hthrough⟩ := hname
    refine List.le_sum_of_mem (List.mem_map.2 ⟨x, hx, ?_⟩)
    exact if_pos hthrough
  rw [weight]
  omega

/-- What stands in a directory itself and what its subdirectories weigh make its weight. -/
theorem bulk_le_weight (hproper : Proper tree) {subs : List (Link κ)}
    (hnames : subs.map (·.name) = subdirectoriesIn tree dir)
    (hsubs : ∀ e ∈ subs, e.tsize ≤ weight width base tree (Path.child dir e.name)) :
    base + bulk width (entriesIn tree dir ++ subs) ≤ weight width base tree dir := by
  have hsplit : (tree.map fun x => if (through dir x).isSome then 0 else share width base dir x).sum +
      (tree.map fun x => if (through dir x).isSome then share width base dir x else 0).sum =
        (tree.map (share width base dir)).sum := by
    rw [← List.sum_map_add]
    refine congrArg List.sum (List.map_congr_left fun x _ => ?_)
    split_ifs <;> omega
  have hdirect := @bulk_entriesIn_le κ width base tree dir
  have hbelow : bulk width subs ≤
      (tree.map fun x => if (through dir x).isSome then share width base dir x else 0).sum := by
    have hnodup : (subs.map (·.name)).Nodup := by
      rw [hnames]
      exact nodup_eraseDups _
    refine Nat.le_trans ?_ (sum_parts_le hnodup (through dir) (share width base dir) tree)
    unfold bulk
    rw [List.map_map, ← List.sum_map_add]
    refine sum_map_le subs fun e he => ?_
    have hname : e.name ∈ subdirectoriesIn tree dir := hnames ▸ List.mem_map_of_mem he
    exact Nat.le_trans (Nat.add_le_add_right (hsubs e he) _) (weight_child_le hproper hname)
  rw [bulk_append, weight]
  omega

/-- **A directory is no larger than the sizes and the names below it.** -/
theorem tsize_le_weight (hproper : Proper tree)
    (hnode : ∀ entries block, node entries = .ok block →
      block.bytes.length ≤ base + (entries.map fun e => width e.name).sum)
    {levels : ℕ} {blocks blocks' : List (Block κ)} {cid : κ} {tsize : ℕ}
    (h : build node tree levels dir blocks = .ok ((cid, tsize), blocks')) : tsize ≤ weight width base tree dir := by
  have hclosed : ∀ {entries : List (Link κ)} {blocks blocks' : List (Block κ)} {cid : κ} {tsize : ℕ},
      close node entries blocks = .ok ((cid, tsize), blocks') → tsize ≤ base + bulk width entries := by
    intro entries blocks blocks' cid tsize h
    obtain ⟨block, hblock, -, rfl, -⟩ := close_eq_ok.1 h
    have hlength := hnode _ _ hblock
    unfold bulk
    omega
  induction levels generalizing dir blocks blocks' cid tsize with
  | zero =>
    have hdirect := @bulk_entriesIn_le κ width base tree dir
    have hle : (tree.map fun x => if (through dir x).isSome then 0 else share width base dir x).sum ≤
        (tree.map (share width base dir)).sum := by
      refine sum_map_le tree fun x _ => ?_
      split_ifs <;> omega
    have htsize := hclosed h
    rw [weight]
    omega
  | succ levels ih =>
    obtain ⟨entries, blocks₁, hfold, hclose⟩ := build_succ_eq_ok h
    obtain ⟨-, subs, rfl, hnames, hentered⟩ := entered_of_foldlM subset_of_build hfold
    refine Nat.le_trans (hclosed hclose) (bulk_le_weight hproper hnames fun e he => ?_)
    obtain ⟨before, after, hchild, -⟩ := hentered e he
    exact ih hchild

end Weight

end Site
