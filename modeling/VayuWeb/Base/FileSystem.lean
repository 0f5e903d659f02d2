import VayuWeb.Base.Bytes
import VayuWeb.Base.Path

/-!
# Trees of files

A node is a path as the system looks it up, its last link not followed. Where a link leads is a node as well, or nothing
when it cannot be followed. Names are text.
-/

namespace FileSystem

/-- The name of an entry. -/
abbrev Name := { name : String // name ≠ "" ∧ '/' ∉ name.toList }

/-- What stands at a node. -/
inductive Kind (ν : Type) where
  | file (content : Bytes)
  | directory (entries : List (Name × ν))
  | link (target : Option ν)
  | other

namespace Kind

variable {ν : Type}

/-- Whether a node is a symbolic link. -/
def isLink : Kind ν → Bool
  | .link _ => true
  | _ => false

/-- What a path opens, its last link followed. -/
def followed (fs : ν → Kind ν) : Kind ν → Kind ν
  | .link (some target) => fs target
  | .link none => .other
  | kind => kind

theorem followed_of_not_isLink {fs : ν → Kind ν} {kind : Kind ν} (h : kind.isLink = false) :
    kind.followed fs = kind := by
  cases kind with
  | link target => exact absurd h (by simp [isLink])
  | _ => rfl

end Kind

/-- A file that a walk has taken, and whether a link was followed on the way to its content. -/
structure Taken where
  path : String
  content : Bytes
  linked : Bool
  deriving DecidableEq, Repr

/-! ## Routes of names -/

/-- A name that begins with a dot. -/
def dotted (name : String) : Bool := name.toList.head? = some '.'

/-- The path of some names. -/
def pathOf (names : List Name) : String := Path.join (names.map (·.1))

/-- A path splits into the names it was made of. -/
theorem split_pathOf {names : List Name} (hne : names ≠ []) : Path.split (pathOf names) = names.map (·.1) := by
  apply Path.split_join
  · intro hnil
    exact hne (List.map_eq_nil_iff.1 hnil)
  · intro s hs
    obtain ⟨name, -, rfl⟩ := List.mem_map.1 hs
    exact name.2.2

theorem pathOf_eq_empty {names : List Name} : pathOf names = "" ↔ names = [] := by
  constructor
  · intro h
    by_contra hne
    have hsplit := split_pathOf hne
    rw [h] at hsplit
    have hempty : Path.split "" = [""] := by decide
    rw [hempty] at hsplit
    have hmem : "" ∈ names.map (·.1) := by
      rw [← hsplit]
      exact List.mem_singleton_self _
    obtain ⟨name, -, hname⟩ := List.mem_map.1 hmem
    exact name.2.1 hname
  · rintro rfl
    rfl

/-- Two lists of names never share a path. -/
theorem pathOf_injective : Function.Injective pathOf := by
  intro a b h
  by_cases ha : a = []
  · rw [ha] at h ⊢
    exact (pathOf_eq_empty.1 h.symm).symm
  · by_cases hb : b = []
    · rw [hb] at h ⊢
      exact pathOf_eq_empty.1 h
    · have hsplit := split_pathOf ha
      rw [h, split_pathOf hb] at hsplit
      exact (List.map_injective_iff.2 Subtype.val_injective hsplit).symm

/-- The path of an entry. -/
theorem pathOf_concat (names : List Name) (name : Name) : pathOf (names ++ [name]) =
    Path.child (pathOf names) name.1 := by
  induction names with
  | nil => rfl
  | cons first names ih =>
    have hne : pathOf (first :: names) ≠ "" := by
      rw [Ne, pathOf_eq_empty]
      exact List.cons_ne_nil _ _
    rw [Path.child, if_neg hne]
    cases names with
    | nil => rfl
    | cons second names =>
      have hne' : pathOf (second :: names) ≠ "" := by
        rw [Ne, pathOf_eq_empty]
        exact List.cons_ne_nil _ _
      rw [Path.child, if_neg hne'] at ih
      change first.1 ++ "/" ++ pathOf (second :: names ++ [name]) = first.1 ++ "/" ++ pathOf (second :: names) ++ "/" ++
        name.1
      rw [ih]
      simp only [String.append_assoc]

end FileSystem
