import VayuWeb.Client.Cid
import VayuWeb.Client.Verify
import Mathlib.Data.List.Sort

/-!
# The client's view of the log (`client/src/view.rs`)

A directory of accepted records, each in a file named by its hash. The hash of an `Entry` stands
for the hexadecimal text of the source, which is equal and ordered alike. The file system gives
back what was put there.
-/

namespace VayuWeb.Client

open Bytes
open DetCbor (Key Value)

/-! ## Reading a record's fields -/

/-- What `peek` reads. -/
structure Peeked where
  op : String
  label : String
  tld : String
  seq : ℕ
  notBefore : ℕ
  deriving DecidableEq, Repr

/-- A text of a record that is not verified yet. -/
def peekText (members : Members) (name : String) : Except String String :=
  match field members name with
  | some (.text text) => .ok text
  | _ => .error s!"no readable {name}"

/-- The cheap structural read of `verify.rs`. -/
def peek (bytes : Bytes) : Except String Peeked :=
  match decode bytes with
  | .error e => .error s!"does not decode: {e.display}"
  | .ok (.map members) => do
    let op ← peekText members "op"
    let label ← peekText members "name"
    let tld ← peekText members "tld"
    let seq ← uint (← okOr (field members "seq") "no seq")
    let notBefore ← uint (← okOr (field members "notBefore") "no notBefore")
    return { op := op, label := label, tld := tld, seq := seq, notBefore := notBefore }
  | .ok _ => .error "a record is a CBOR map"

/-- The first value under a text key that `read` can read. -/
def findMember {α : Type} (members : Members) (name : String) (read : Value → Option α) : Option α :=
  members.findSome? fun e => if e.1 = .text name then read e.2 else none

/-- A field of a record's bytes, read with `read`. -/
def fieldOf {α : Type} (bytes : Bytes) (name : String) (read : Value → Option α) : Except String α :=
  match decode bytes with
  | .error e => .error e.display
  | .ok (.map members) => okOr (findMember members name read) s!"no readable {name}"
  | .ok _ => .error "a record is a CBOR map"

/-- A byte string of 32 bytes, or nothing. -/
def asBytes32 : Value → Option Bytes
  | .bytes b => if b.length = 32 then some b else none
  | _ => none

/-- An unsigned integer of a stored record. -/
def fieldU64 (bytes : Bytes) (name : String) : Except String ℕ := fieldOf bytes name asUint

/-- The owner of a stored record. -/
def ownerOf (bytes : Bytes) : Except String Bytes := fieldOf bytes "ownerKey" asBytes32

/-- The end of a stored record's term. -/
def notAfterOf (bytes : Bytes) : Except String ℕ := fieldU64 bytes "notAfter"

/-- The predecessor address a record claims. -/
def prevHashOf (bytes : Bytes) : Except String Bytes := fieldOf bytes "prevHash" asBytes32

/-- The suite, 1 where it cannot be read as a byte. -/
def suiteOf (bytes : Bytes) : ℕ :=
  match fieldU64 bytes "suite" with
  | .ok suite => if suite < 256 then suite else 1
  | .error _ => 1

/-- The verdict against a predecessor and nothing else. -/
def verify (C : Crypto) (bytes : Bytes) (previous : Option PrevView) (now windowCount : ℕ) : Verdict :=
  verifyAgainst C bytes { previous := previous, revoked := false, fullyReleased := false, powVerified := false }
    now windowCount

/-! ## Lifecycle -/

/-- `QUARANTINE_SECONDS`. -/
def quarantineSeconds : ℕ := 2592000

/-- When the name returns to the open pool. -/
def quarantineEnd (tip : PrevView) : ℕ :=
  if tip.opText = "RELINQUISH" ∨ tip.opText = "REVOKE" then add tip.notAfter quarantineSeconds
  else add (add tip.notAfter graceSeconds) quarantineSeconds

/-- Whether the tip holds its name no longer. -/
def fullyReleased (tip : PrevView) (now : ℕ) : Bool := quarantineEnd tip ≤ now

/-- Where a name stands at a moment, as it is displayed. -/
def lifecycleState (tip : PrevView) (now : ℕ) : String :=
  if tip.opText = "REVOKE" then
    if now < tip.notAfter then "REVOKED (frozen until expiry)"
    else if now < add tip.notAfter quarantineSeconds then "QUARANTINE (revoked)"
    else "FREE"
  else if tip.opText = "RELINQUISH" ∧ tip.notAfter ≤ now then
    if now < add tip.notAfter quarantineSeconds then "QUARANTINE (relinquished)" else "FREE"
  else if now < tip.notAfter then "LIVE"
  else if now < add tip.notAfter graceSeconds then "GRACE"
  else if now < add (add tip.notAfter graceSeconds) quarantineSeconds then "QUARANTINE"
  else "FREE"

/-! ## The chain of a name -/

namespace View

/-- One accepted record as the log holds it. -/
structure Entry where
  hash : Bytes
  bytes : Bytes
  deriving DecidableEq, Repr

end View

/-- One candidate in a name's history. -/
structure Candidate where
  seq : ℕ
  hash : Bytes
  prevHash : Bytes
  entry : View.Entry
  deriving DecidableEq, Repr

/-- One turn over the candidates of a slot, after the winner `previous` of the slot below. -/
def better (previous : Option Candidate) (best : Option Candidate) (candidate : Candidate) : Option Candidate :=
  let linked : Bool :=
    match previous with
    | none => true
    | some previous => candidate.prevHash = previous.hash
  if ¬ linked then best
  else
    match best with
    | none => some candidate
    | some current => if candidate.hash < current.hash then some candidate else best

/-- The walk up the slots. The chain stands newest first; each turn takes a slot's candidates away,
so that `fuel` turns are enough for as many. -/
def walk : ℕ → List Candidate → List Candidate → List Candidate
  | 0, _, chain => chain
  | fuel + 1, mine, chain =>
    match mine with
    | [] => chain
    | first :: _ =>
      let expectedSeq := chain.length
      if first.seq ≠ expectedSeq then chain
      else
        let group := mine.takeWhile fun candidate => candidate.seq = expectedSeq
        match group.foldl (better chain.head?) none with
        | none => chain
        | some chosen => walk fuel (mine.dropWhile fun candidate => candidate.seq = expectedSeq) (chosen :: chain)

/-- The chain for a name, the smaller hash first in every slot; newest first. -/
def deterministicChain (mine : List Candidate) : List Candidate :=
  walk mine.length (mine.insertionSort fun a b => a.seq ≤ b.seq) []

/-! ## The view -/

/-- A directory of accepted records. -/
structure View where
  files : List View.Entry
  deriving DecidableEq, Repr

/-- The tip of a name's chain, and what a successor needs of it. -/
structure Tip where
  entry : View.Entry
  prev : PrevView
  deriving DecidableEq, Repr

/-- What a name points at, as far as the client can follow it. -/
inductive Pointer where
  | cid (cid : Cid)
  | alias (target : Alias)
  deriving DecidableEq

/-- What a record's entries select. -/
inductive Selected where
  | ipns (text : String)
  | cid (bytes : Bytes)
  | alias (target : Alias)
  deriving DecidableEq

/-- Before and after the last dot. -/
def rsplitOnce (text : String) : Option (String × String) :=
  let chars := text.toList.reverse
  match chars.dropWhile (· ≠ '.') with
  | [] => none
  | _ :: label => some (String.ofList label.reverse, String.ofList (chars.takeWhile (· ≠ '.')).reverse)

/-- The `type` and the value of an entry; nothing at one of them ends the selection, and what is no
map is passed over. -/
def typedEntry (entry : Value) : Option (Option (String × Value)) :=
  match entry with
  | .map fields => do
    let kind ← findMember fields "type" asText
    let value ← findMember fields "value" some
    return some (kind, value)
  | _ => some none

/-- What the first entry of a kind selects: nothing, the end of the selection, or a pointer. -/
def selectKind (typed : List (String × Value)) (wanted : String) : Option (Option Selected) :=
  match typed.find? fun e => e.1 = wanted with
  | none => none
  | some (_, .text text) =>
    if wanted = "ipns" then some (some (.ipns text))
    else if wanted = "alias" then
      some ((rsplitOnce text).map fun (label, tld) => .alias { label := label, tld := tld })
    else none
  | some (_, .bytes bytes) => if wanted = "cid" then some (some (.cid bytes)) else none
  | some _ => none

/-- The selection among one record's entries: `ipns`, then `cid`, then `alias`. -/
def selectedPointer (bytes : Bytes) : Option Selected := do
  let value ← (decode bytes).toOption
  match value with
  | .map members => do
    let entries ← findMember members "records" fun v =>
      match v with
      | .array entries => some entries
      | _ => none
    let typed ← entries.mapM typedEntry
    (["ipns", "cid", "alias"].findSome? (selectKind (typed.filterMap id))).join
  | _ => none

namespace View

/-- A view without a record. -/
def empty : View := { files := [] }

/-- What a file of these bytes is as a candidate for the name. -/
def candidate (C : Crypto) (label tld : String) (entry : Entry) : Option Candidate := do
  let peeked ← (peek entry.bytes).toOption
  if peeked.label ≠ label ∨ peeked.tld ≠ tld then none
  else
    let prevHash ← (prevHashOf entry.bytes).toOption
    return { seq := peeked.seq, hash := recordHashFromBytes C entry.bytes, prevHash := prevHash, entry := entry }

section Log

variable (C : Crypto)

/-- Append an accepted record; a file of its name is left as it is. -/
def put (view : View) (bytes : Bytes) : View :=
  let hash := recordHashFromBytes C bytes
  if view.files.any fun entry => entry.hash = hash then view
  else { files := view.files ++ [{ hash := hash, bytes := bytes }] }

/-- Every readable record, in the order of the hashes. -/
def entries (view : View) : List Entry :=
  (view.files.filter fun entry => (peek entry.bytes).toOption.isSome).insertionSort fun a b => a.hash ≤ b.hash

/-- Everything this peer holds for the name. -/
def candidates (view : View) (label tld : String) : List Candidate :=
  view.entries.filterMap (candidate C label tld)

/-- The chain of a name; newest first. -/
def chain (view : View) (label tld : String) : List Candidate := deterministicChain (view.candidates C label tld)

/-- The current record for a name, by replay. -/
def chainTip (view : View) (label tld : String) : Except String (Option Tip) :=
  match view.chain C label tld with
  | [] => .ok none
  | tip :: below => do
    let peeked ← peek tip.entry.bytes
    -- on a TRANSFER the owner of the record below still controls the name
    let signerKey ←
      if peeked.op = "TRANSFER" then
        match below with
        | before :: _ => ownerOf before.entry.bytes
        | [] => .error "a stored TRANSFER cannot be seq 0"
      else ownerOf tip.entry.bytes
    let notAfter ← notAfterOf tip.entry.bytes
    let ownerKey ← ownerOf tip.entry.bytes
    return some
      { entry := tip.entry
        prev :=
          { opText := peeked.op, seq := peeked.seq, notBefore := peeked.notBefore, notAfter := notAfter,
            ownerKey := ownerKey, signerKey := signerKey, suite := suiteOf tip.entry.bytes, hash := tip.hash,
            revoked := peeked.op = "REVOKE" } }

/-- The verdict for a record as received, against this view. -/
def acceptVerdict (view : View) (bytes : Bytes) (now windowCount : ℕ) : Except String Verdict := do
  let peeked ← peek bytes
  if peeked.op = "REGISTER" then
    match ← view.chainTip C peeked.label peeked.tld with
    | some tip =>
      -- the incumbent itself is judged again
      if tip.entry.hash ≠ recordHashFromBytes C bytes ∧ ¬ fullyReleased tip.prev now then
        return .reject .nameTaken
          (s!"{peeked.label}.{peeked.tld} is held ({lifecycleState tip.prev now}); " ++
            "quarantine ends when the name returns to the open pool")
      else return verify C bytes none now windowCount
    | none => return verify C bytes none now windowCount
  else
    match ← view.chainTip C peeked.label peeked.tld with
    | none => return .reject .noPredecessor s!"{peeked.label}.{peeked.tld} has no accepted history in this view"
    | some tip => return verify C bytes (some tip.prev) now windowCount

/-- Judge again the record that this view holds as the tip of a chain. -/
def judgeHeldTip (view : View) (label tld : String) (now windowCount : ℕ) : Except String Verdict :=
  match view.chain C label tld with
  | [] => .ok (.reject .noPredecessor s!"{label}.{tld} has no accepted history in this view")
  | tip :: below => do
    let peeked ← peek tip.entry.bytes
    if peeked.op = "REGISTER" then return verify C tip.entry.bytes none now windowCount
    else
      match below with
      | [] => return .reject .badSeq "a non-REGISTER cannot be seq 0"
      | before :: settlers => do
        -- the operation is the tip's, not that of the record before it
        let signerKey ←
          if peeked.op = "TRANSFER" then
            match settlers with
            | settler :: _ => ownerOf settler.entry.bytes
            | [] => .error "a stored TRANSFER cannot be seq 0"
          else ownerOf before.entry.bytes
        let parent ← peek before.entry.bytes
        let notAfter ← notAfterOf before.entry.bytes
        let ownerKey ← ownerOf before.entry.bytes
        return verify C tip.entry.bytes
          (some { opText := parent.op, seq := parent.seq, notBefore := parent.notBefore, notAfter := notAfter,
                  ownerKey := ownerKey, signerKey := signerKey, suite := suiteOf before.entry.bytes,
                  hash := before.hash, revoked := false }) now windowCount

/-- What the tip of a chain selects, and only the tip. -/
def pointerOf (label tld : String) (bytes : Bytes) : Except String Pointer :=
  match selectedPointer bytes with
  | some (.cid bytes) =>
    match Cid.fromBytes bytes with
    | .ok cid => .ok (.cid cid)
    | .error _ =>
      .error (s!"{label}.{tld}'s current record selects a malformed content address; " ++
        "refusing it rather than serving an older record")
  | some (.alias target) => .ok (.alias target)
  | some (.ipns text) =>
    .error (s!"{label}.{tld} currently points at an IPNS pointer ({text}); " ++
      "an offline view cannot follow it and will not serve an older snapshot in its place")
  | none => .error s!"no record in {label}.{tld}'s chain carries a servable entry"

/-- What the chain currently points at. -/
def resolvedPointer (view : View) (label tld : String) : Except String Pointer :=
  match view.chain C label tld with
  | [] => .error s!"{label}.{tld} has no accepted history"
  | tip :: _ => pointerOf label tld tip.entry.bytes

end Log

end View

end VayuWeb.Client
