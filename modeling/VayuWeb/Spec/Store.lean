import VayuWeb.Base.OrdMap
import VayuWeb.Spec.Converge

/-!
# The append-only log and its index (`registry/src/store.ts`)

A `Store` is the log in memory, the index derived from it and the bytes of the log file.
Operations that throw leave the store as it was.
-/

namespace VayuWeb

open Bytes

/-- `LENGTH_PREFIX_BYTES`. -/
def lengthPrefixBytes : ℕ := 4

/-- `MAX_ENTRY_BYTES`. -/
def maxEntryBytes : ℕ := 65536

/-- A record in the log. -/
structure LogEntry where
  index : ℕ
  bytes : Bytes
  record : RegistryRecord
  hash : Bytes
  deriving DecidableEq

/-- One name's current state, as the index holds it. -/
structure NameEntry where
  current : Predecessor
  logIndex : ℕ
  revoked : Bool
  /-- The hash of the REGISTER this name's chain descends from. -/
  rootHash : Bytes
  deriving DecidableEq

/-- The log, the indexes over it, and the bytes of its file. -/
structure Store where
  entries : List LogEntry
  names : OrdMap String NameEntry
  /-- Hashes already held. -/
  seen : List Bytes
  /-- Per TLD, the sorted `notBefore` of every REGISTER and RENEW. -/
  rates : OrdMap String (List ℕ)
  /-- The log file. -/
  file : Bytes
  deriving DecidableEq

/-- A store without a record. -/
def Store.empty : Store := { entries := [], names := [], seen := [], rates := [], file := [] }

/-- Index key for one name. -/
def nameKey (name tld : String) : String := s!"{tld} {name}"

/-! ## Sorted arrays -/

/-- The loop of `lowerBound`, for at most `fuel` halvings. -/
def lowerBoundLoop (sorted : List ℕ) (value : ℤ) : ℕ → ℕ → ℕ → ℕ
  | 0, low, _ => low
  | fuel + 1, low, high =>
    if low < high then
      let mid := (low + high) / 2
      if (sorted.getD mid 0 : ℤ) < value then lowerBoundLoop sorted value fuel (mid + 1) high
      else lowerBoundLoop sorted value fuel low mid
    else low

/-- Index of the first element at least `value` in a sorted array. -/
def lowerBound (sorted : List ℕ) (value : ℤ) : ℕ :=
  lowerBoundLoop sorted value sorted.length 0 sorted.length

/-- Inserts behind every smaller value. -/
def insertSorted (sorted : List ℕ) (value : ℕ) : List ℕ :=
  let at_ := lowerBound sorted value
  sorted.take at_ ++ value :: sorted.drop at_

/-! ## Framing -/

/-- Frame an entry for the log. -/
def frame (bytes : Bytes) : Except Thrown Bytes :=
  if bytes.length > maxEntryBytes then
    .error (.storeError s!"entry of {bytes.length} bytes exceeds {maxEntryBytes}")
  else .ok (beBytes lengthPrefixBytes bytes.length ++ bytes)

/-- The loop of `unframe`, `rest` being the file from `at_` on, for at most `fuel` entries. -/
def unframeLoop : ℕ → ℕ → Bytes → Except Thrown (List Bytes)
  | _, _, [] => .ok []
  | 0, at_, _ => .error (.storeError s!"truncated length prefix at byte {at_}")
  | fuel + 1, at_, rest =>
    match splitAt? lengthPrefixBytes rest with
    | none => .error (.storeError s!"truncated length prefix at byte {at_}")
    | some (lengthBytes, body) =>
      let length := beNat lengthBytes
      -- a length is judged before the bytes that it announces are there
      if length = 0 then .error (.storeError s!"zero-length entry at byte {at_}")
      else if length > maxEntryBytes then
        .error (.storeError s!"entry length {length} at byte {at_} exceeds {maxEntryBytes}")
      else
        match splitAt? length body with
        | none => .error (.storeError s!"truncated entry at byte {at_}: wanted {length} bytes")
        | some (entry, rest) => do
          let entries ← unframeLoop fuel (at_ + lengthPrefixBytes + length) rest
          return entry :: entries

/-- Split a log file into its entries. Every entry takes a byte at least. -/
def unframe (file : Bytes) : Except Thrown (List Bytes) := unframeLoop file.length 0 file

namespace Store

variable (C : Crypto)

/-! ## The view the verifier consults -/

/-- Registrations and renewals in one TLD over the trailing window ending at the epoch of `at_`. -/
def registrationsInWindow (s : Store) (tld : String) (at_ : ℤ) : ℕ :=
  let (start, end_) := rateWindow at_
  match s.rates.get? tld with
  | none => 0
  | some times => lowerBound times end_ - lowerBound times start

/-- The obvious implementation, which scans the log. -/
def registrationsInWindowNaive (s : Store) (tld : String) (at_ : ℤ) : ℕ :=
  let (start, end_) := rateWindow at_
  s.entries.countP fun entry =>
    entry.record.tld = tld && (entry.record.op = .register || entry.record.op = .renew) &&
      (start ≤ entry.record.notBefore && entry.record.notBefore < end_)

/-- The lower of the requirements of the two permitted epochs. -/
def requiredBitsFor (s : Store) (record : RegistryRecord) : ℕ :=
  let thisEpoch := s.registrationsInWindow record.tld record.notBefore
  let previousEpoch := s.registrationsInWindow record.tld (record.notBefore - epochSeconds)
  min (requiredBits (jsLength record.name) thisEpoch) (requiredBits (jsLength record.name) previousEpoch)

/-- Whether a record's proof meets what the store asks of it. -/
def powVerified (s : Store) (record : RegistryRecord) : Except CborError Bool := do
  let rejection ← verifyPow C record.map (s.requiredBitsFor record)
  return rejection.isNone

/-- The record a name stands on. -/
def current (s : Store) (name tld : String) : Option Predecessor :=
  (s.names.get? (nameKey name tld)).map (·.current)

/-- Whether a name is closed for good. -/
def revoked (s : Store) (name tld : String) : Bool :=
  match s.names.get? (nameKey name tld) with
  | some entry => entry.revoked
  | none => false

/-- Whether the record a name stands on holds it no longer. -/
def fullyReleased (previous : Predecessor) (now : ℕ) : Bool := isFullyReleased previous.record now

/-- What the verifier is shown of the store. -/
def view (s : Store) : RegistryView :=
  { current := s.current, fullyReleased := fullyReleased, revoked := s.revoked,
    powVerified := s.powVerified C }

/-- Verifies against the store, at a moment. -/
def verifyAt (s : Store) (bytes : Bytes) (now : ℕ) : Except Thrown Verdict :=
  verify C bytes (s.view C) now false

/-! ## Writing -/

/-- Whether a record is held, by its hash. -/
def has (s : Store) (bytes : Bytes) : Bool := s.seen.contains (recordHashFromBytes C bytes)

/-- Append a framed entry to the log file. -/
def write (s : Store) (bytes : Bytes) : Except Thrown Store := do
  let framed ← frame bytes
  return { s with file := s.file ++ framed }

/-- Enter an accepted record into the log and the index. -/
def apply (s : Store) (bytes : Bytes) (record : RegistryRecord) : Except Thrown Store := do
  let index := s.entries.length
  let hash := recordHashFromBytes C bytes
  let rates :=
    if record.op = .register ∨ record.op = .renew then
      s.rates.set record.tld (insertSorted ((s.rates.get? record.tld).getD []) record.notBefore)
    else s.rates
  let key := nameKey record.name record.tld
  let held := s.names.get? key
  let wasRevoked := match held with | some h => h.revoked | none => false
  let signerKey :=
    match held with
    | some h => if record.op = .transfer then controllingKey h.current record.notBefore else record.ownerKey
    | none => record.ownerKey
  let current ← predecessorFrom C record bytes (some signerKey)
  let entry : NameEntry :=
    { current := current
      logIndex := index
      -- a REGISTER starts a chain: it clears revocation and is its own root
      revoked := if record.op = .register then false else wasRevoked || record.op = .revoke
      rootHash := if record.op = .register then hash else match held with
        | some h => h.rootHash
        | none => hash }
  return { s with
    entries := s.entries ++ [{ index := index, bytes := bytes, record := record, hash := hash }]
    seen := s.seen ++ [hash]
    rates := rates
    names := s.names.set key entry }

/-- The first seq-0 REGISTER of a name in the log. -/
def rootEntryFor (s : Store) (key : String) : Option LogEntry :=
  s.entries.find? fun entry => nameKey entry.record.name entry.record.tld = key &&
    entry.record.op = .register && entry.record.seq = 0

/-- The encoding of a held record. -/
def encodingOf (s : Store) (hash : Bytes) : Option Bytes :=
  (s.entries.find? fun entry => entry.hash = hash).map (·.bytes)

/-- `parseRecordBytes` where the source lets its error escape. -/
def parseOrThrow (bytes : Bytes) : Except Thrown RegistryRecord :=
  match parseRecordBytes bytes with
  | .ok record => .ok record
  | .error e => .error (.recordError e.message)

/-- A held record, as the conflict rules take it. -/
def candidateOf (entry : LogEntry) : Candidate :=
  { record := entry.record, hash := entry.hash, logIndex := some entry.index, valid := true }

/-- Decide a registration that arrived for a held name, by the convergence rule. -/
def mergeConflict (s : Store) (bytes : Bytes) (now : ℕ) (taken : Verdict) :
    Except Thrown (Verdict × Store) :=
  match parseRecordBytes bytes with
  | .error _ => .ok (taken, s)
  | .ok incoming =>
    if incoming.op ≠ .register ∨ incoming.seq ≠ 0 then .ok (taken, s)
    else
      let key := nameKey incoming.name incoming.tld
      match s.names.get? key, s.rootEntryFor key with
      | some held, some root =>
        -- a late claim is not a concurrent claim
        if (incoming.notBefore : ℤ) - root.record.notBefore > maxBackdateSeconds then .ok (taken, s)
        -- equivocation is not a race
        else if compareBytes incoming.ownerKey root.record.ownerKey = .eq then .ok (taken, s)
        else do
          let incomingHash := recordHashFromBytes C bytes
          let order ← compareHashes incomingHash held.rootHash
          if order ≠ .lt then return (taken, s)
          let onMerits ← verify C bytes (s.view C) now true
          match onMerits with
          | .accept _ _ _ =>
            let resolution ← resolveConflict
              [{ record := incoming, hash := incomingHash, logIndex := none, valid := true },
                candidateOf root]
            let won ← compareHashes resolution.winner.hash incomingHash
            if won ≠ .eq then return (taken, s)
            let chain := (s.entries.filter fun e => nameKey e.record.name e.record.tld = key).map candidateOf
            let voided := voidedChain (fun _ => false) (candidateOf root) chain
            let written ← s.write bytes
            let applied ← written.apply C bytes incoming
            return (.accept incoming (some (voided.filterMap fun c => applied.encodingOf c.hash)) false,
              applied)
          | verdict => return (verdict, s)
      | _, _ => .ok (taken, s)

/-- Verify and append. -/
def append (s : Store) (bytes : Bytes) (now : ℕ) : Except Thrown (Verdict × Store) :=
  if s.has C bytes then do
    let record ← parseOrThrow bytes
    return (.accept record none true, s)
  else do
    let verdict ← s.verifyAt C bytes now
    match verdict with
    | .reject .nameTaken _ => s.mergeConflict C bytes now verdict
    | .accept record _ _ =>
      let written ← s.write bytes
      let applied ← written.apply C bytes record
      return (verdict, applied)
    | _ => return (verdict, s)

/-! ## Replay -/

/-- What `open` throws for an entry that is not accepted. -/
def noLongerVerifies (position : ℕ) (verdict : Verdict) : Thrown :=
  let why := match verdict with
    | .reject code _ => code.name
    | _ => "CLOCK_SKEW"
  .storeError s!"log entry {position} no longer verifies: {why}"

/-- One entry of the log, re-verified at its own `notBefore`. -/
def replayStep (s : Store) (position : ℕ) (bytes : Bytes) : Except Thrown Store := do
  let record ← parseOrThrow bytes
  let verdict ← s.verifyAt C bytes record.notBefore
  match verdict with
  | .accept _ _ _ => s.apply C bytes record
  | _ => throw (noLongerVerifies position verdict)

/-- Replays the frames of a file, which `open` reads. -/
def replay (s : Store) : ℕ → List Bytes → Except Thrown Store
  | _, [] => .ok s
  | position, bytes :: rest => do
    let s ← s.replayStep C position bytes
    replay s (position + 1) rest

/-- `Store.open`: replay and re-verify a log file, if there is one. -/
def open_ (file : Option Bytes) : Except Thrown Store :=
  match file with
  | none => .ok empty
  | some file => do
    let raw ← unframe file
    replay C { empty with file := file } 0 raw

end Store

end VayuWeb
