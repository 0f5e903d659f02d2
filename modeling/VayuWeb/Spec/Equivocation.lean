import VayuWeb.Spec.Replicate

/-!
# Equivocation on record (`registry/src/equivocation.ts`, `registry/src/store.ts`)

The ledger of reports, and a store that watches for equivocation in what it refuses.
-/

namespace VayuWeb

open Bytes

/-- Whether this node saw the equivocation or was told of it. -/
inductive EvidenceOrigin where
  | detected | received
  deriving DecidableEq, Repr

/-- What became of evidence that was offered to the ledger. -/
inductive RecordOutcome where
  | recorded | duplicate | unverified | full
  deriving DecidableEq, Repr

/-- The two record encodings. -/
structure EquivocationEvidence where
  a : Bytes
  b : Bytes
  deriving DecidableEq, Repr

/-- One report as the ledger holds it. -/
structure LedgerEntry where
  origin : EvidenceOrigin
  key : String
  evidence : EquivocationEvidence
  deriving DecidableEq, Repr

/-- How many reports a ledger turned away, by reason. -/
structure Refusals where
  unverified : ℕ
  full : ℕ
  unreadable : ℕ
  deriving DecidableEq, Repr

/-- A digit in lower case. -/
def hexDigit (n : ℕ) : Char := if n < 10 then Char.ofNat (48 + n) else Char.ofNat (87 + n)

/-- `hex`: two digits for each byte. -/
def hexBytes (bytes : Bytes) : String :=
  String.ofList (bytes.flatMap fun b => [hexDigit (b.toNat / 16), hexDigit (b.toNat % 16)])

/-- The identity of the fact a report is about. -/
def equivocationKey (record : RegistryRecord) : String :=
  s!"{hexBytes record.ownerKey} {record.tld} {record.name} {record.seq}"

/-- The evidence held, the counts of each origin, and the file it is kept in, if any. -/
structure EquivocationLedger where
  held : List LedgerEntry
  /-- The identities of what is held. -/
  byKey : List String
  detected : ℕ
  received : ℕ
  refusals : Refusals
  /-- The file it is kept in, or nothing for an ephemeral ledger. -/
  file : Option Bytes
  deriving DecidableEq

namespace EquivocationLedger

/-- A ledger without a file. -/
def ephemeral : EquivocationLedger :=
  { held := [], byKey := [], detected := 0, received := 0,
    refusals := { unverified := 0, full := 0, unreadable := 0 }, file := none }

/-- How much evidence of an origin is held. -/
def countOf (ledger : EquivocationLedger) : EvidenceOrigin → ℕ
  | .detected => ledger.detected
  | .received => ledger.received

/-- `EQUIVOCATION_LIMITS`: how much evidence of an origin may be held. -/
def budget : EvidenceOrigin → ℕ
  | .detected => 1024
  | .received => 256

/-- There is nothing to be gained by looking for the other half of this record's pair. -/
def settled (ledger : EquivocationLedger) (record : RegistryRecord) (origin : EvidenceOrigin) : Bool :=
  ledger.byKey.contains (equivocationKey record) || ledger.countOf origin ≥ budget origin

/-- Counts evidence that does not verify. -/
def refuseUnverified (ledger : EquivocationLedger) : EquivocationLedger :=
  { ledger with refusals := { ledger.refusals with unverified := ledger.refusals.unverified + 1 } }

/-- Counts evidence that found its origin's budget spent. -/
def refuseFull (ledger : EquivocationLedger) : EquivocationLedger :=
  { ledger with refusals := { ledger.refusals with full := ledger.refusals.full + 1 } }

/-- Write an entry to the file, if there is one. -/
def persist (ledger : EquivocationLedger) (entry : LedgerEntry) : Except Thrown EquivocationLedger :=
  match ledger.file with
  | none => .ok ledger
  | some file => do
    let letter := match entry.origin with
      | .detected => "d"
      | .received => "r"
    let bytes ← (encode (.map [(.text "o", .text letter), (.text "a", .bytes entry.evidence.a),
      (.text "b", .bytes entry.evidence.b)])).mapError .cborError
    let framed ← frame bytes
    return { ledger with file := some (file ++ framed) }

/-- Hold an entry that was written. -/
def hold (ledger : EquivocationLedger) (entry : LedgerEntry) : EquivocationLedger :=
  { ledger with
    held := ledger.held ++ [entry]
    byKey := ledger.byKey ++ [entry.key]
    detected := if entry.origin = .detected then ledger.detected + 1 else ledger.detected
    received := if entry.origin = .received then ledger.received + 1 else ledger.received }

/-- Verify a report and write it down, or say why not. -/
def record (C : Crypto) (ledger : EquivocationLedger) (evidence : EquivocationEvidence) (origin : EvidenceOrigin) :
    Except Thrown (RecordOutcome × EquivocationLedger) := do
  if ¬ (← verifyEquivocation C evidence.a evidence.b) then return (.unverified, ledger.refuseUnverified)
  match parseRecordBytes evidence.a with
  | .error _ => return (.unverified, ledger.refuseUnverified)
  | .ok half =>
    let key := equivocationKey half
    if ledger.byKey.contains key then return (.duplicate, ledger)
    if ledger.countOf origin ≥ budget origin then return (.full, ledger.refuseFull)
    let entry : LedgerEntry := { origin := origin, key := key, evidence := evidence }
    let ledger ← ledger.persist entry
    return (.recorded, ledger.hold entry)

end EquivocationLedger

/-! ## The file -/

/-- What an entry of the file says. -/
structure Report where
  origin : EvidenceOrigin
  evidence : EquivocationEvidence
  deriving DecidableEq, Repr

namespace EquivocationLedger

/-- Bytes a single ledger entry may occupy on disk, framing included. -/
def maxLedgerEntryBytes : ℕ := 2 * limitRecordBytes + 512

/-- One entry of the file, or nothing where it is not one. -/
def parseEntry (bytes : Bytes) : Option Report :=
  match decode bytes with
  | .ok (.map entry) =>
    match CborMap.get? entry "o", CborMap.get? entry "a", CborMap.get? entry "b" with
    | some (.text origin), some (.bytes a), some (.bytes b) =>
      if origin = "d" then some { origin := .detected, evidence := { a := a, b := b } }
      else if origin = "r" then some { origin := .received, evidence := { a := a, b := b } }
      else none
    | _, _, _ => none
  | _ => none

/-- The loop of `readEntries`, for at most `fuel` entries: the reports, and how many entries were unreadable. -/
def readEntriesLoop : ℕ → Bytes → List Report × ℕ
  | 0, _ => ([], 0)
  | fuel + 1, file =>
    match splitAt? lengthPrefixBytes file with
    -- a torn end is no entry, and is not counted as unreadable
    | none => ([], 0)
    | some (lengthBytes, body) =>
      let length := beNat lengthBytes
      -- past a length that cannot be, nothing is read any more
      if length = 0 ∨ length + lengthPrefixBytes > maxLedgerEntryBytes then ([], 1)
      else
        match splitAt? length body with
        | none => ([], 0)
        | some (entry, rest) =>
          match parseEntry entry with
          | none => ([], 1)
          | some report =>
            let (out, unreadable) := readEntriesLoop fuel rest
            (report :: out, unreadable)

/-- Read as many entries as the file yields, and stop at the first one that does not parse. -/
def readEntries (file : Bytes) : List Report × ℕ := readEntriesLoop file.length file

/-- Counts an entry of the file that is not one. -/
def refuseUnreadable (ledger : EquivocationLedger) : EquivocationLedger :=
  { ledger with refusals := { ledger.refusals with unreadable := ledger.refusals.unreadable + 1 } }

/-- Offer an entry of the file as if it came in over a wire. -/
def replay (C : Crypto) (ledger : EquivocationLedger) (report : Report) : Except Thrown EquivocationLedger := do
  let (outcome, ledger) ← ledger.record C report.evidence report.origin
  return if outcome ≠ .recorded then ledger.refuseUnreadable else ledger

/-- Open the ledger whose file holds these bytes, none of them when it is missing. -/
def open_ (C : Crypto) (file : Bytes) : Except Thrown EquivocationLedger := do
  let (reports, unreadable) := readEntries file
  -- the ledger has no file yet, so what is replayed is not written again
  let ledger := { ephemeral with refusals := { ephemeral.refusals with unreadable := unreadable } }
  let ledger ← reports.foldlM (replay C) ledger
  return { ledger with file := some file }

end EquivocationLedger

namespace Store

variable (C : Crypto)

/-- The entry that a refused record may be paired with. -/
def otherHalf (s : Store) (incoming : RegistryRecord) (incomingHash : Bytes) : Option LogEntry :=
  s.entries.find? fun entry =>
    entry.record.seq = incoming.seq &&
      (nameKey entry.record.name entry.record.tld = nameKey incoming.name incoming.tld &&
        (compareBytes entry.record.ownerKey incoming.ownerKey = .eq && entry.hash ≠ incomingHash))

/-- Did the record that was refused equivocate with one that is held? If so, write the pair down. -/
def noteEquivocation (s : Store) (recorder : EquivocationLedger) (bytes : Bytes) : Except Thrown EquivocationLedger :=
  match parseRecordBytes bytes with
  | .error _ => .ok recorder
  | .ok incoming =>
    if (s.names.get? (nameKey incoming.name incoming.tld)).isNone then .ok recorder
    else if recorder.settled incoming .detected then .ok recorder
    else do
      -- one signature, before any scan
      if ¬ (← signedByNamedOwner C incoming) then return recorder
      match s.otherHalf incoming (recordHashFromBytes C bytes) with
      | none => return recorder
      | some entry =>
        let (_, recorder) ← recorder.record C { a := entry.bytes, b := bytes } .detected
        return recorder

/-- `append` of a store that watches for equivocation. -/
def watchedAppend (s : Store) (recorder : EquivocationLedger) (bytes : Bytes) (now : ℕ) :
    Except Thrown (Verdict × Store × EquivocationLedger) :=
  if s.has C bytes then do
    let record ← parseOrThrow bytes
    return (.accept record none true, s, recorder)
  else do
    let verdict ← s.verifyAt C bytes now
    match verdict with
    | .reject .nameTaken _ =>
      let (merged, s) ← s.mergeConflict C bytes now verdict
      -- a record that loses its race may still be one half of an equivocation
      match merged with
      | .accept _ _ _ => return (merged, s, recorder)
      | _ => return (merged, s, ← s.noteEquivocation C recorder bytes)
    | .accept record _ _ =>
      let written ← s.write bytes
      let applied ← written.apply C bytes record
      return (verdict, applied, recorder)
    | _ => return (verdict, s, ← s.noteEquivocation C recorder bytes)

end Store

end VayuWeb
