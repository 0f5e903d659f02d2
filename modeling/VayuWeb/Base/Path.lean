import Mathlib.Data.String.Basic

/-!
# Paths with slashes

* `split_injective`: a path is its segments.
* `below_eq_some`: what a path is below a directory, in segments.
-/

namespace Path

/-- What stands between the slashes. -/
def split (path : String) : List String := (path.toList.splitOn '/').map String.ofList

theorem split_ne_nil (path : String) : split path ≠ [] := by
  intro h
  exact List.splitOn_ne_nil '/' path.toList (List.map_eq_nil_iff.1 h)

/-- Two paths never have the same parts. -/
theorem split_injective : Function.Injective split := by
  intro a b h
  have hparts : a.toList.splitOn '/' = b.toList.splitOn '/' := by
    have hlists := congrArg (List.map String.toList) h
    rw [split, split, List.map_map, List.map_map] at hlists
    have hid : String.toList ∘ String.ofList = id := by
      funext chars
      exact String.toList_ofList
    rwa [hid, List.map_id, List.map_id] at hlists
  have ha : ['/'].intercalate (a.toList.splitOn '/') = a.toList := List.intercalate_splitOn '/'
  apply String.toList_inj.1
  rw [← ha, hparts, List.intercalate_splitOn]

/-- A path is split at a separator. -/
theorem split_append (a b : String) : split (a ++ "/" ++ b) = split a ++ split b := by
  have hchars : (a ++ "/" ++ b).toList = a.toList ++ '/' :: b.toList := by
    rw [String.toList_append, String.toList_append, List.append_assoc]
    rfl
  rw [split, hchars, List.splitOn_append_cons_self, List.map_append]
  rfl

theorem split_of_notMem {s : String} (h : '/' ∉ s.toList) : split s = [s] := by
  rw [split, List.splitOn_eq_singleton h, List.map_singleton, String.ofList_toList]

theorem notMem_of_mem_splitOn {chars part : List Char} (h : part ∈ chars.splitOn '/') : '/' ∉ part := by
  induction chars generalizing part with
  | nil =>
    rw [List.splitOn_nil, List.mem_singleton] at h
    rw [h]
    exact List.not_mem_nil
  | cons c chars ih =>
    rw [List.splitOn_cons_eq_if_modifyHead] at h
    split_ifs at h with hc
    · rcases List.mem_cons.1 h with rfl | h
      · exact List.not_mem_nil
      · exact ih h
    · cases hsplit : chars.splitOn '/' with
      | nil => exact absurd hsplit (List.splitOn_ne_nil _ _)
      | cons head tail =>
        rw [hsplit, List.modifyHead_cons] at h
        rcases List.mem_cons.1 h with rfl | h
        · have hhead := @ih head (by rw [hsplit]; exact List.mem_cons_self)
          rw [List.mem_cons, not_or]
          refine ⟨?_, hhead⟩
          intro heq
          rw [← heq] at hc
          exact hc (beq_self_eq_true _)
        · exact ih (by rw [hsplit]; exact List.mem_cons_of_mem _ h)

/-- A segment has no slash. -/
theorem notMem_of_mem_split {path s : String} (h : s ∈ split path) : '/' ∉ s.toList := by
  obtain ⟨part, hpart, rfl⟩ := List.mem_map.1 h
  rw [String.toList_ofList]
  exact notMem_of_mem_splitOn hpart

/-- The path of some segments. -/
def join : List String → String
  | [] => ""
  | [s] => s
  | s :: segments => s ++ "/" ++ join segments

/-- Parts without a separator come back from the path they make. -/
theorem split_join {segments : List String} (hne : segments ≠ []) (h : ∀ s ∈ segments, '/' ∉ s.toList) :
    split (join segments) = segments := by
  induction segments with
  | nil => exact absurd rfl hne
  | cons s segments ih =>
    have hs := split_of_notMem (h s List.mem_cons_self)
    cases segments with
    | nil => exact hs
    | cons s' segments =>
      have hrest := ih (List.cons_ne_nil _ _) fun t ht => h t (List.mem_cons_of_mem _ ht)
      rw [join, split_append, hs, hrest, List.singleton_append]
      exact List.cons_ne_nil _ _

/-- A path comes back from its parts. -/
theorem join_split (path : String) : join (split path) = path :=
  split_injective (split_join (split_ne_nil path) fun _ hs => notMem_of_mem_split hs)

theorem length_split_le (path : String) : (split path).length ≤ path.toList.length + 1 := by
  rw [split, List.length_map]
  induction path.toList with
  | nil => exact Nat.le_refl _
  | cons c chars ih =>
    rw [List.splitOn_cons_eq_if_modifyHead]
    split_ifs
    · rw [List.length_cons, List.length_cons]
      exact Nat.succ_le_succ ih
    · rw [List.length_modifyHead, List.length_cons]
      exact Nat.le_succ_of_le ih

/-! ## Directories -/

/-- What a path is below a directory, whose root is the empty string. -/
def below (dir path : String) : Option String :=
  if dir = "" then some path
  else if (dir ++ "/").toList.isPrefixOf path.toList then
    some (String.ofList (path.toList.drop (dir.toList.length + 1)))
  else none

/-- The path of an entry of a directory. -/
def child (dir name : String) : String := if dir = "" then name else dir ++ "/" ++ name

/-- The segments of a directory. -/
def dirSegments (dir : String) : List String := if dir = "" then [] else split dir

/-- What lies below a directory other than the root. -/
theorem below_eq_some_of_ne {dir path relative : String} (hdir : dir ≠ "") :
    below dir path = some relative ↔ path = dir ++ "/" ++ relative := by
  have hslash : (dir ++ "/").toList.length = dir.toList.length + 1 := by
    rw [String.toList_append, List.length_append]
    rfl
  rw [below, if_neg hdir]
  constructor
  · intro h
    split_ifs at h with hprefix
    obtain ⟨rest, hrest⟩ := List.isPrefixOf_iff_prefix.1 hprefix
    rw [Option.some.injEq, ← hrest, ← hslash, List.drop_left] at h
    apply String.toList_inj.1
    rw [String.toList_append, ← h, String.toList_ofList, hrest]
  · intro h
    have hchars : path.toList = (dir ++ "/").toList ++ relative.toList := by
      rw [h, String.toList_append]
    have hprefix : (dir ++ "/").toList.isPrefixOf path.toList = true := by
      rw [List.isPrefixOf_iff_prefix, hchars]
      exact List.prefix_append _ _
    rw [if_pos hprefix, hchars, ← hslash, List.drop_left, String.ofList_toList]

/-- **A path below a directory**: its segments go on after the directory's. -/
theorem below_eq_some {dir path relative : String} :
    below dir path = some relative ↔ split path = dirSegments dir ++ split relative := by
  by_cases hdir : dir = ""
  · rw [below, if_pos hdir, dirSegments, if_pos hdir, List.nil_append, Option.some.injEq]
    exact split_injective.eq_iff.symm
  · rw [below_eq_some_of_ne hdir, dirSegments, if_neg hdir, ← split_append]
    exact split_injective.eq_iff.symm

/-- The parts of a subdirectory's path. -/
theorem dirSegments_child {dir name : String} (hname : name ≠ "") (hslash : '/' ∉ name.toList) :
    dirSegments (child dir name) = dirSegments dir ++ [name] := by
  by_cases hdir : dir = ""
  · rw [child, if_pos hdir, dirSegments, if_neg hname, dirSegments, if_pos hdir, split_of_notMem hslash,
      List.nil_append]
  · have hne : dir ++ "/" ++ name ≠ "" := by
      intro h
      have hchars := congrArg String.toList h
      simp at hchars
    rw [child, if_neg hdir, dirSegments, if_neg hne, dirSegments, if_neg hdir, split_append, split_of_notMem hslash]

/-! ## The first segment -/

/-- What stands before the first slash. -/
def head (relative : String) : String := String.ofList (relative.toList.takeWhile (· ≠ '/'))

theorem split_of_mem {relative : String} (h : '/' ∈ relative.toList) :
    ∃ rest, split relative = head relative :: rest ∧ rest ≠ [] := by
  obtain ⟨chars, rest, hchars, hnot⟩ := List.eq_append_cons_of_mem h
  have hhead : relative.toList.takeWhile (· ≠ '/') = chars := by
    have hbefore : ∀ c ∈ chars, decide (c ≠ '/') = true := by
      intro c hc
      rw [decide_eq_true_iff]
      rintro rfl
      exact hnot hc
    rw [hchars, List.takeWhile_append_of_pos hbefore]
    simp
  refine ⟨(rest.splitOn '/').map String.ofList, ?_, ?_⟩
  · rw [head, hhead, split, hchars, List.splitOn_append_cons_self_of_not_mem hnot, List.map_cons]
  · intro hnil
    exact List.splitOn_ne_nil '/' rest (List.map_eq_nil_iff.1 hnil)

end Path
