import Mathlib.Data.List.Sort
import VayuWeb.Base.FileSystem

/-!
# The walk of a site directory (`client/src/bin/vayu.rs`)

The walk keeps a stack of directories, whose top is at the front here. What to exclude is a path below the root.
-/

namespace VayuWeb.Client

open Bytes FileSystem

/-- A directory on the stack, and whether a link was followed on the way to it. -/
structure Dir (ν : Type) where
  path : List Name
  linked : Bool
  entries : List (Name × ν)

/-- `replace('\\', "/")`. -/
def slashed (path : String) : String := String.ofList (path.toList.map fun c => if c = '\\' then '/' else c)

section Walk

variable {ν : Type} (fs : ν → Kind ν) (exclude : Option (List Name))

/-- A directory to walk below this one: `is_dir` follows a link. -/
def subdirectory (dir : Dir ν) (entry : Name × ν) : Option (Dir ν) :=
  match (fs entry.2).followed fs with
  | .directory entries =>
    let path := dir.path ++ [entry.1]
    if entry.1.1 = ".git" ∧ dir.path = [] then none
    else if some path = exclude then none
    else if dotted entry.1.1 ∧ entry.1.1 ≠ ".vayu" then none
    else some { path := path, linked := dir.linked || (fs entry.2).isLink, entries := entries }
  | _ => none

/-- A file of the site: `is_file` follows a link too. -/
def siteFile (dir : Dir ν) (entry : Name × ν) : Option Taken :=
  match (fs entry.2).followed fs with
  | .file content =>
    some
      { path := slashed (pathOf (dir.path ++ [entry.1])), content := content,
        linked := dir.linked || (fs entry.2).isLink }
  | _ => none

/-- The loop, for so many more rounds. -/
def walkSiteFrom : ℕ → List (Dir ν) → List Taken → Option (List Taken)
  | _, [], files => some files
  | 0, _ :: _, _ => none
  | rounds + 1, dir :: stack, files =>
    walkSiteFrom rounds ((dir.entries.filterMap (subdirectory fs exclude dir)).reverse ++ stack)
      (files ++ dir.entries.filterMap (siteFile fs dir))

/-- The order of the paths' bytes. -/
def pathLe (a b : Taken) : Prop := utf8Encode a.path ≤ utf8Encode b.path

instance : DecidableRel pathLe := fun a b => inferInstanceAs (Decidable (utf8Encode a.path ≤ utf8Encode b.path))

/-- The files of a site directory, in order. -/
def walkSite (rounds : ℕ) (root : List (Name × ν)) : Option (List Taken) :=
  (walkSiteFrom fs exclude rounds [{ path := [], linked := false, entries := root }] []).map fun files =>
    files.insertionSort pathLe

end Walk

end VayuWeb.Client
