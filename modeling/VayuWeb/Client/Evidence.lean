import VayuWeb.Base.Quoted
import VayuWeb.Client.Verify
import VayuWeb.Spec.Equivocation
import Mathlib.Data.List.DropRight

/-!
# The client's equivocation ledger (`client/src/evidence.rs`)

One JSON object per line. Opening it verifies every line again, and writes the file anew when one was not
recorded.
-/

namespace VayuWeb.Client.Evidence

open Bytes

/-- The name this origin is stored under. -/
def originName : EvidenceOrigin → String
  | .detected => "detected"
  | .received => "received"

/-- `EvidenceOrigin::parse`. -/
def parseOrigin (text : List Char) : Option EvidenceOrigin :=
  if text = "detected".toList then some .detected
  else if text = "received".toList then some .received
  else none

/-- An error of the ledger's file. -/
inductive EvidenceError where
  | malformed (detail : String)
  deriving DecidableEq, Repr

/-- One report as the ledger holds it. -/
structure LedgerEntry where
  origin : EvidenceOrigin
  key : List Char
  a : Bytes
  b : Bytes
  deriving DecidableEq

/-- The two budgets, in one place. -/
structure Limits where
  detected : ℕ
  received : ℕ
  deriving DecidableEq, Repr

/-- `DETECTED_LIMIT`. -/
def detectedLimit : ℕ := 1024

/-- `RECEIVED_LIMIT`. -/
def receivedLimit : ℕ := 256

/-- The budgets the protocol sets. -/
def Limits.protocol : Limits := { detected := detectedLimit, received := receivedLimit }

/-- The budget of an origin. -/
def Limits.get (limits : Limits) : EvidenceOrigin → ℕ
  | .detected => limits.detected
  | .received => limits.received

/-- The identity of the fact one record asserts. -/
def equivocationKey (bytes : Bytes) : Option (List Char) := do
  let decoded ← (decode bytes).toOption
  let record ← (parseRecord decoded).toOption
  return s!"{hexBytes record.ownerKey} {record.tld} {record.label} {record.seq}".toList

/-! ## Lines -/

/-- One ledger line, as a JSON object. -/
def renderEntry (entry : LedgerEntry) : List Char :=
  "\x7b\"origin\": \"".toList ++ (originName entry.origin).toList ++ "\", \"key\": \"".toList ++ entry.key ++
    "\", \"a\": \"".toList ++ (hexBytes entry.a).toList ++ "\", \"b\": \"".toList ++ (hexBytes entry.b).toList ++
    "\"\x7d".toList

/-- The value of one field, if the line has it. -/
def field (line : List Char) (name : String) : Option (List Char) := do
  let rest ← Quoted.after ("\"" ++ name ++ "\": \"").toList line
  Quoted.upTo '"' rest

/-- `to_digit(16)`. -/
def toDigit (c : Char) : Option ℕ :=
  if '0' ≤ c ∧ c ≤ '9' then some (c.toNat - '0'.toNat)
  else if 'a' ≤ c ∧ c ≤ 'f' then some (c.toNat - 'a'.toNat + 10)
  else if 'A' ≤ c ∧ c ≤ 'F' then some (c.toNat - 'A'.toNat + 10)
  else none

/-- Decode a hex string into bytes. Of a text with another character nothing is read, whatever its length. -/
def unhex : List Char → Option Bytes
  | [] => some []
  | [_] => none
  | first :: second :: rest => do
    let high ← toDigit first
    let low ← toDigit second
    let bytes ← unhex rest
    return UInt8.ofNat (high * 16 + low) :: bytes

/-- Read one ledger line. -/
def parseEntry (line : List Char) : Option LedgerEntry := do
  let origin ← parseOrigin (← field line "origin")
  let key ← field line "key"
  let a ← unhex (← field line "a")
  let b ← unhex (← field line "b")
  return { origin := origin, key := key, a := a, b := b }

/-- `char::is_whitespace`. -/
def isWhitespace (c : Char) : Bool :=
  let n := c.toNat
  9 ≤ n && n ≤ 13 || n = 0x20 || n = 0x85 || n = 0xA0 || n = 0x1680 || 0x2000 ≤ n && n ≤ 0x200A || n = 0x2028 ||
    n = 0x2029 || n = 0x202F || n = 0x205F || n = 0x3000

/-- `line.trim()`. -/
def trim (line : List Char) : List Char := (line.dropWhile isWhitespace).rdropWhile isWhitespace

/-- The lines of a text, trimmed, less the empty ones. A carriage return before the end is trimmed. -/
def lines (text : List Char) : List (List Char) :=
  ((text.splitOn '\n').map trim).filter fun line => line ≠ []

/-! ## The ledger -/

/-- The evidence held, what was refused, and the budgets it is held under. -/
structure EvidenceLedger where
  entries : List LedgerEntry
  refusals : Refusals
  /-- The effective budgets. -/
  limits : Limits
  /-- The text of the ledger file, empty while there is none. -/
  file : List Char
  deriving DecidableEq

namespace EvidenceLedger

/-- How much evidence of an origin is held. -/
def count (ledger : EvidenceLedger) (origin : EvidenceOrigin) : ℕ :=
  ledger.entries.countP fun entry => entry.origin = origin

/-- Add one entry to the ledger file. -/
def append (ledger : EvidenceLedger) (entry : LedgerEntry) : EvidenceLedger :=
  { ledger with file := ledger.file ++ renderEntry entry ++ ['\n'] }

/-- Write the ledger out. -/
def write (ledger : EvidenceLedger) : EvidenceLedger :=
  { ledger with file := ledger.entries.flatMap fun entry => renderEntry entry ++ ['\n'] }

/-- Counts evidence that does not verify. -/
def refuseUnverified (ledger : EvidenceLedger) : EvidenceLedger :=
  { ledger with refusals := { ledger.refusals with unverified := ledger.refusals.unverified + 1 } }

/-- Counts evidence that found its origin's budget spent. -/
def refuseFull (ledger : EvidenceLedger) : EvidenceLedger :=
  { ledger with refusals := { ledger.refusals with full := ledger.refusals.full + 1 } }

/-- Counts a line of the file that is not an entry. -/
def refuseUnreadable (ledger : EvidenceLedger) : EvidenceLedger :=
  { ledger with refusals := { ledger.refusals with unreadable := ledger.refusals.unreadable + 1 } }

variable (C : Crypto)

/-- The one door every report comes through. -/
def admit_ (ledger : EvidenceLedger) (a b : Bytes) (origin : EvidenceOrigin) (persist : Bool) :
    Except EvidenceError (RecordOutcome × EvidenceLedger) :=
  if ¬ isEquivocationEvidence C a b then .ok (.unverified, ledger.refuseUnverified)
  else
    match equivocationKey a with
    | none => .error (.malformed "the pair verified but its identity could not be read")
    | some key =>
      if ledger.entries.any fun entry => entry.key = key then .ok (.duplicate, ledger)
      else if ledger.count origin ≥ ledger.limits.get origin then .ok (.full, ledger.refuseFull)
      else
        let entry : LedgerEntry := { origin := origin, key := key, a := a, b := b }
        let ledger := if persist then ledger.append entry else ledger
        .ok (.recorded, { ledger with entries := ledger.entries ++ [entry] })

/-- Record a pair, if it is evidence and the ledger has room. -/
def record (ledger : EvidenceLedger) (a b : Bytes) (origin : EvidenceOrigin) :
    Except EvidenceError (RecordOutcome × EvidenceLedger) :=
  ledger.admit_ C a b origin true

/-- One line of the file, through the same door. -/
def readLine (ledger : EvidenceLedger) (line : List Char) : Except EvidenceError EvidenceLedger :=
  match parseEntry line with
  | none => .ok ledger.refuseUnreadable
  | some entry => do
    let (outcome, ledger) ← ledger.admit_ C entry.a entry.b entry.origin false
    return if outcome ≠ .recorded then ledger.refuseUnreadable else ledger

/-- Open a ledger with budgets no looser than the protocol's, its file holding this text. -/
def openWithLimits (file : List Char) (limits : Limits) : Except EvidenceError EvidenceLedger := do
  let limits : Limits :=
    { detected := min limits.detected detectedLimit, received := min limits.received receivedLimit }
  let ledger : EvidenceLedger :=
    { entries := [], refusals := { unverified := 0, full := 0, unreadable := 0 }, limits := limits, file := file }
  let ledger ← (lines file).foldlM (readLine C) ledger
  -- the repair is durable
  return if ledger.refusals.unreadable > 0 then ledger.write else ledger

/-- Open (or create) the ledger whose file holds this text. -/
def open_ (file : List Char) : Except EvidenceError EvidenceLedger := openWithLimits C file .protocol

end EvidenceLedger

end VayuWeb.Client.Evidence
