import VayuWeb.Client.Cid

/-!
# The block store (`client/src/store.rs`)

A store is the files of its directory. What the file system makes of a write is a parameter: an
interrupted one leaves a part of its bytes in the temporary file.
-/

namespace VayuWeb.Client.BlockStore

open Bytes

/-- `MAX_BLOCK_BYTES`. -/
def maxBlockBytes : ℕ := 1024 * 1024

/-- Why a block is not stored or not handed out. -/
inductive StoreError where
  | contentIntegrity (cid : String)
  | tooLarge (found : ℕ)
  | io (detail : String)
  | badCid (reason : String)
  deriving DecidableEq, Repr

/-- The error as it is displayed. -/
def StoreError.text : StoreError → String
  | .contentIntegrity cid => s!"CONTENT_INTEGRITY: bytes offered for {cid} hash to something else"
  | .tooLarge found => s!"block is {found} bytes, over the {maxBlockBytes} limit"
  | .io detail => detail
  | .badCid reason => reason

/-- The files of the store's directory by their names. -/
abbrev Disk := String → Option Bytes

/-- A disk without a file. -/
def Disk.empty : Disk := fun _ => none

/-- The disk with one file written. -/
def Disk.write (disk : Disk) (name : String) (bytes : Bytes) : Disk := fun n => if n = name then some bytes else disk n

/-- The disk with one file renamed, over one that stood there. -/
def Disk.rename (disk : Disk) (source target : String) : Disk := fun n =>
  if n = target then disk source else if n = source then none else disk n

/-- What becomes of a write and the rename after it. -/
inductive Fate where
  | done
  | writeFails (written : ℕ) (detail : String)
  | renameFails (detail : String)
  deriving DecidableEq, Repr

section Hash

variable (H : ContentHash)

/-- Whether the bytes hash to the CID, in a time that the digests do not change. -/
def verify (cid : Cid) (bytes : Bytes) : Bool :=
  let digest := (H.sha256 bytes).1
  let diff := (digest.zip cid.digest.1).foldl (fun diff pair => diff ||| (pair.1 ^^^ pair.2)) (0 : UInt8)
  diff == 0 && cid.digest.1.length == digest.length

/-- The sibling that is written before it is renamed: `set_extension` on a name without a dot. -/
def temporary (target : String) : String := target ++ ".tmp"

/-- Write the temporary sibling and rename it into place. -/
def writeInto (fate : Fate) (disk : Disk) (target : String) (bytes : Bytes) : Except StoreError Unit × Disk :=
  match fate with
  | .done => (.ok (), (disk.write (temporary target) bytes).rename (temporary target) target)
  | .writeFails written detail => (.error (.io detail), disk.write (temporary target) (bytes.take written))
  | .renameFails detail => (.error (.io detail), disk.write (temporary target) bytes)

/-- File one block, verified against its CID first. -/
def put (fate : String → Fate) (disk : Disk) (cid : Cid) (bytes : Bytes) : Except StoreError Unit × Disk :=
  if bytes.length > maxBlockBytes then (.error (.tooLarge bytes.length), disk)
  else if ¬ verify H cid bytes then (.error (.contentIntegrity cid.toText), disk)
  else if (disk cid.toText).isSome then (.ok (), disk)
  else writeInto (fate cid.toText) disk cid.toText bytes

/-- Read one block back, verified against its CID again. -/
def get (disk : Disk) (cid : Cid) : Except StoreError (Option Bytes) :=
  match disk cid.toText with
  | none => .ok none
  | some bytes =>
    if bytes.length > maxBlockBytes then .error (.tooLarge bytes.length)
    else if ¬ verify H cid bytes then .error (.contentIntegrity cid.toText)
    else .ok (some bytes)

/-- File every block whose file is not there: how many were written. -/
def putAll (fate : String → Fate) (disk : Disk) : List (Cid × Bytes) → Except StoreError ℕ × Disk
  | [] => (.ok 0, disk)
  | (cid, bytes) :: blocks =>
    if (disk cid.toText).isSome then putAll fate disk blocks
    else match put H fate disk cid bytes with
      | (.error error, disk) => (.error error, disk)
      | (.ok (), disk) => match putAll fate disk blocks with
        | (.ok written, disk) => (.ok (written + 1), disk)
        | (.error error, disk) => (.error error, disk)

end Hash

end VayuWeb.Client.BlockStore
