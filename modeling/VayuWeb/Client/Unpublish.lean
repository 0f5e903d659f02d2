import VayuWeb.Client.Collect
import VayuWeb.Client.Record
import VayuWeb.Client.View

/-!
# Withdrawing a name (`client/src/bin/vayu.rs`)

`cmd_unpublish`, from the view and the store that it has opened. A refusal is its exit code, whose message is left out.
Removing a file succeeds.
-/

namespace VayuWeb.Client

open Bytes

namespace Dagnode

/-- The message of a walk's error. -/
def WalkError.text : WalkError → String
  | .store detail => detail
  | .badLink reason => s!"a link's CID did not decode: {reason}"
  | .notADirectory => "not a directory"
  | .tooDeep => "tree deeper than the traversal budget"
  | .boundExceeded what => what
  | .notFound => "no such path in this tree"

end Dagnode

namespace BlockStore

/-- Remove one block. -/
def remove (disk : Disk) (cid : Cid) : Bool × Disk :=
  if (disk cid.toText).isSome then (true, fun n => if n = cid.toText then none else disk n) else (false, disk)

end BlockStore

namespace View

section Log

variable (C : Crypto) (view : View)

/-- What the chain points at, where that is content. -/
def resolvedRoot (label tld : String) : Except String Cid := do
  match ← view.resolvedPointer C label tld with
  | .cid cid => return cid
  | .alias _ => throw s!"{label}.{tld} points at another name, not content"

/-- The name of a record, unless it was seen before. -/
def noteName (names : List (String × String)) (entry : Entry) : List (String × String) :=
  match peek entry.bytes with
  | .error _ => names
  | .ok peeked =>
    if names.contains (peeked.label, peeked.tld) then names else names ++ [(peeked.label, peeked.tld)]

/-- The names that the log speaks of, in the order of its records. -/
def namesSeen : List (String × String) := view.entries.foldl noteName []

/-- The order of pairs of texts. -/
def nameLe (a b : String × String) : Prop :=
  utf8Encode a.1 < utf8Encode b.1 ∨ utf8Encode a.1 = utf8Encode b.1 ∧ utf8Encode a.2 ≤ utf8Encode b.2

instance : DecidableRel nameLe := fun a b =>
  inferInstanceAs (Decidable (utf8Encode a.1 < utf8Encode b.1 ∨
    utf8Encode a.1 = utf8Encode b.1 ∧ utf8Encode a.2 ≤ utf8Encode b.2))

/-- Every name with a chain, and its tip. -/
def allNames : Except String (List (String × String × Tip)) := do
  let found ← (view.namesSeen.insertionSort nameLe).mapM fun name => do
    let tip ← view.chainTip C name.1 name.2
    return tip.map fun tip => (name.1, name.2, tip)
  return found.filterMap id

end Log

end View

namespace Unpublish

open BlockStore Dagnode

/-- `detail.contains("no record in")`. -/
def saysNoRecord (detail : String) : Bool := detail.toList.tails.any fun tail => "no record in".toList.isPrefixOf tail

/-- How the command ends. -/
inductive Outcome where
  | code (code : ℕ)
  /-- Nothing was unpinned. -/
  | blocked (reason : String)
  | unpinned (removed kept : ℕ)
  deriving DecidableEq, Repr

section Commands

variable (C : Crypto) (H : ContentHash) (view : View) (disk : Disk) (label tld : String)

/-- The blocks that other names reach, or what keeps this from being told. `fuel` is that of each walk. -/
def retain (fuel : ℕ) : List (String × String × Tip) → List String → Option (Except String (List String))
  | [], retained => some (.ok retained)
  | (otherLabel, otherTld, _) :: names, retained =>
    if otherLabel = label ∧ otherTld = tld then retain fuel names retained
    else
      match view.resolvedRoot C otherLabel otherTld with
      | .ok otherRoot =>
        match collectBlocks H disk .standard fuel otherRoot with
        | none => none
        | some (.ok blocks) => retain fuel names (retained ++ blocks.map Cid.toText)
        | some (.error e) =>
          some (.error s!"{otherLabel}.{otherTld} reaches blocks this client cannot read ({e.text})")
      | .error detail =>
        -- a name with no servable entry references no blocks
        if saysNoRecord detail then retain fuel names retained
        else some (.error s!"{otherLabel}.{otherTld}: {detail}")

/-- One turn of the removal. -/
def unpinBlock (retained : List String) (state : Disk × ℕ × ℕ) (block : Cid) : Disk × ℕ × ℕ :=
  let (disk, removed, kept) := state
  if block.toText ∈ retained then (disk, removed, kept + 1)
  else
    match remove disk block with
    | (true, disk) => (disk, removed + 1, kept)
    | (false, disk) => (disk, removed, kept)

/-- The local unpin, bounded by what the view can see. -/
def unpin (fuel : ℕ) (root : Cid) : Option (Outcome × Disk) :=
  match collectBlocks H disk .standard fuel root with
  | none => none
  | some (.error _) => some (.code 1, disk)
  | some (.ok treeBlocks) =>
    match view.allNames C with
    | .error _ => some (.code 2, disk)
    | .ok names =>
      match retain C H view disk label tld fuel names [] with
      | none => none
      | some (.error reason) => some (.blocked reason, disk)
      | some (.ok retained) =>
        let (disk, removed, kept) := treeBlocks.foldl (unpinBlock retained) (disk, 0, 0)
        some (.unpinned removed kept, disk)

/-- Withdraw the pointer: the view with the record, and the root of the tree. -/
def withdraw (identity : Identity C) (now : ℕ) : Except ℕ (View × Cid) :=
  match view.chainTip C label tld with
  | .error _ => .error 2
  | .ok none => .error 1
  | .ok (some tip) =>
    if tip.prev.ownerKey ≠ identity.publicKey then .error 1
    else
      match view.resolvedRoot C label tld with
      | .error _ => .error 1
      | .ok root =>
        match Predecessor.fromBytes C tip.entry.bytes with
        | .error _ => .error 1
        | .ok predecessor =>
          -- no entries: the name remains registered
          match buildUpdate C identity predecessor label tld now [] with
          | .error _ => .error 1
          | .ok record =>
            match view.acceptVerdict C record now 0 with
            | .ok .accept => .ok (view.put C record, root)
            | .ok _ => .error 1
            | .error _ => .error 2

/-- `cmd_unpublish`: the pointer is withdrawn first, then the blocks are unpinned. -/
def cmdUnpublish (fuel : ℕ) (identity : Identity C) (now : ℕ) : Option (Outcome × View × Disk) :=
  match withdraw C view label tld identity now with
  | .error code => some (.code code, view, disk)
  | .ok (after, root) => (unpin C H after disk label tld fuel root).map fun (outcome, disk) => (outcome, after, disk)

end Commands

end Unpublish

end VayuWeb.Client
