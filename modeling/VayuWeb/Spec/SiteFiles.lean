import VayuWeb.Base.Except
import VayuWeb.Base.FileSystem

/-!
# The files a directory publishes (`registry/src/cli.ts`)

What is reported of excluded entries is left out.
-/

namespace VayuWeb

open Bytes FileSystem

/-- The manifest's path in a site. -/
def manifestRelative : String := ".vayu/manifest.json"

/-- The directory that holds the manifest. -/
def manifestDirectory : String := Path.join (Path.split manifestRelative).dropLast

/-- What an entry of a directory is. -/
inductive EntryKind where
  | file | directory
  deriving DecidableEq, Repr

/-- Whether a path inside a published directory is kept out. The manifest is let in, not the directory it sits in. -/
def excludedFromPublish (rel : String) (kind : EntryKind) : Bool :=
  if rel = manifestDirectory ∧ kind = .directory then false
  else if rel = manifestRelative ∧ kind = .file then false
  else (Path.split rel).any dotted

/-- Why a walk stops. The source's has no bound on its depth: `unfinished` is the model's. -/
inductive PublishStop where
  | usageError (text : String)
  | unfinished
  deriving DecidableEq, Repr

section Walk

variable {ν : Type} (fs : ν → Kind ν)

/-- One entry of a directory. The kind is that of the entry itself, as for `lstat`. -/
def siteEntry (walk : String → Bool → List (Name × ν) → Except PublishStop (List Taken)) (above : String)
    (linked : Bool)
    (entry : Name × ν) : Except PublishStop (List Taken) :=
  let rel := Path.child above entry.1.1
  let kind := fs entry.2
  let linked := linked || kind.isLink
  -- a link is refused by what it is, before its name and its target are looked at
  if kind.isLink then
    .error (.usageError (s!"{rel} is a symbolic link. HOSTING.md requires a publisher to dereference links or " ++
      "refuse the import, because a followed link can pull a private key into a public CID. " ++
      "Replace it with the file it points at, or remove it."))
  else if (utf8Encode entry.1.1).length > 255 then .error (.usageError s!"{rel}: a filename may not exceed 255 bytes")
  else
    match kind with
    | .directory entries => if excludedFromPublish rel .directory then .ok [] else walk rel linked entries
    | .file content =>
      if excludedFromPublish rel .file then .ok [] else .ok [{ path := rel, content := content, linked := linked }]
    -- neither a file nor a directory: a socket or a device is passed over
    | _ => .ok []

/-- The walk through so many levels. -/
def siteWalk : ℕ → String → Bool → List (Name × ν) → Except PublishStop (List Taken)
  | 0, _, _, _ => .error .unfinished
  | depth + 1, above, linked, entries => do
    let taken ← entries.mapM (siteEntry fs (siteWalk depth) above linked)
    return taken.flatten

/-- The files a directory publishes. -/
def siteFilesFor (depth : ℕ) (directory : String) (root : List (Name × ν)) : Except PublishStop (List Taken) := do
  let files ← siteWalk fs depth "" false root
  if files = [] then throw (.usageError s!"{directory} holds no files to publish")
  return files

end Walk

end VayuWeb
