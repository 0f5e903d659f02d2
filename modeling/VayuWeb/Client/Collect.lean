import VayuWeb.Base.Path
import VayuWeb.Client.Dagnode
import VayuWeb.Client.Publish

/-!
# Walking a whole tree (`client/src/dagnode.rs`)

Both walks keep a stack, whose top is at the front here. A walk that has rounds left over has ended.
-/

namespace VayuWeb.Client.Dagnode

open Bytes BlockStore
open Publish (SiteFile)

/-- What a node links to, in its order. -/
def Node.links : Node → List Cid
  | .raw _ => []
  | .file _ children => children
  | .directory entries => entries.map (·.cid)

section Collect

variable (H : ContentHash) (disk : Disk) (limits : WalkLimits)

/-- The loop of `collect_blocks`, for so many more rounds. -/
def collectBlocksFrom : ℕ → List Cid → List String → List Cid → Option (Except WalkError (List Cid))
  | _, [], _, blocks => some (.ok blocks)
  | 0, _ :: _, _, _ => none
  | fuel + 1, cid :: stack, seen, blocks =>
    -- a cycle in a hostile tree must not become an infinite walk
    if cid.toText ∈ seen then collectBlocksFrom fuel stack seen blocks
    else
      match readNode H disk limits cid with
      | .error error => some (.error error)
      | .ok node => collectBlocksFrom fuel (node.links.reverse ++ stack) (cid.toText :: seen) (blocks ++ [cid])

/-- Every block a tree is made of. -/
def collectBlocks (fuel : ℕ) (root : Cid) : Option (Except WalkError (List Cid)) :=
  collectBlocksFrom H disk limits fuel [root] [] []

/-- The loop of `collect_files`, for so many more rounds. A file is read again by the path that led to it. -/
def collectFilesFrom (root : Cid) : ℕ → List (List String × Cid) → List SiteFile →
    Option (Except WalkError (List SiteFile))
  | _, [], files => some (.ok files)
  | 0, _ :: _, _ => none
  | fuel + 1, (above, cid) :: stack, files =>
    match readNode H disk limits cid with
    | .error error => some (.error error)
    | .ok (.directory entries) =>
      collectFilesFrom root fuel ((entries.map fun entry => (above ++ [entry.name], entry.cid)).reverse ++ stack) files
    | .ok _ =>
      match readPath H disk limits root above with
      | .error error => some (.error error)
      | .ok content => collectFilesFrom root fuel stack (files ++ [{ path := Path.join above, content := content }])

/-- Every file of a tree. -/
def collectFiles (fuel : ℕ) (root : Cid) : Option (Except WalkError (List SiteFile)) :=
  collectFilesFrom H disk limits root fuel [([], root)] []

end Collect

end VayuWeb.Client.Dagnode
