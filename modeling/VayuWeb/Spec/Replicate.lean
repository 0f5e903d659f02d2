import VayuWeb.Spec.Store

/-!
# The replication session (`registry/src/replicate.ts`)

Equivocation evidence, and one conversation with one peer as a state machine over messages.
A session reads and writes the local registry through a `ReplicationSink`, here functions of a
sink state `σ`.
-/

namespace VayuWeb

open Bytes

/-- `PROTOCOL_VERSION`. -/
def protocolVersion : ℕ := 1

/-! ## Limits -/

/-- `LIMITS.messageBytes`. -/
def limitMessageBytes : ℕ := 65536

/-- `LIMITS.wantCount`. -/
def limitWantCount : ℕ := 256

/-- `LIMITS.recordsPerBatch`. -/
def limitRecordsPerBatch : ℕ := 256

/-- `LIMITS.recordBytes`. -/
def limitRecordBytes : ℕ := 4096

/-- `LIMITS.outstandingWants`. -/
def limitOutstandingWants : ℕ := 8

/-- `LIMITS.wantDeadlineSeconds`. -/
def limitWantDeadlineSeconds : ℕ := 60

/-- `LIMITS.deferred`. -/
def limitDeferred : ℕ := 1024

/-- Bytes a RECORDS message spends on everything that is not a record. -/
def recordsEnvelopeBytes : ℕ := 64

/-! ## Messages -/

/-- A message of the replication protocol. -/
inductive Message where
  | hello (v len : ℕ) (root : Bytes)
  | want (from_ count : ℕ)
  | records (from_ : ℕ) (recs : List Bytes)
  | checkpoint (len : ℕ) (treeRoot indexRoot : Bytes) (liveNames : ℕ)
  | equivocation (a b : Bytes)
  deriving DecidableEq, Repr

/-- What one received message did. -/
structure ReceiveOutcome where
  replies : List Message
  applied : ℕ
  rejected : ℕ
  deferred : ℕ
  duplicates : ℕ
  equivocations : List Message
  checkpoints : List Message
  deriving DecidableEq, Repr

/-- The outcome of a message that changes nothing. -/
def ReceiveOutcome.empty : ReceiveOutcome :=
  { replies := [], applied := 0, rejected := 0, deferred := 0, duplicates := 0, equivocations := [],
    checkpoints := [] }

/-! ## Equivocation evidence -/

section Evidence

variable (C : Crypto)

/-- The record is attributable to the key it names as owner, from its own bytes alone. -/
def signedByNamedOwner (record : RegistryRecord) : Except Thrown Bool :=
  match if record.op = .transfer then record.coSig else some record.sig with
  | none => .ok false
  | some signature => do
    let input ← signingInput record.map
    return verifyStrict C record.ownerKey input signature

/-- A record of an evidence pair, as the conflict rules take it. -/
def evidenceCandidate (bytes : Bytes) (record : RegistryRecord) : Candidate :=
  { record := record, hash := recordHashFromBytes C bytes, logIndex := none, valid := true }

/-- Check equivocation evidence from its two encodings alone. -/
def verifyEquivocation (a b : Bytes) : Except Thrown Bool :=
  if a.length > limitRecordBytes ∨ b.length > limitRecordBytes then .ok false
  else
    match parseRecordBytes a, parseRecordBytes b with
    | .ok left, .ok right => do
      if ← isEquivocation (evidenceCandidate C a left) (evidenceCandidate C b right) then
        if ← signedByNamedOwner C left then signedByNamedOwner C right
        else return false
      else return false
    | _, _ => .ok false

end Evidence

/-! ## The session -/

/-- What a session needs from the local registry. An append may throw, and leaves some state
behind either way. -/
structure ReplicationSink (σ : Type) where
  append : σ → Bytes → ℕ → Except Thrown Verdict × σ
  length : σ → ℕ
  encodingAt : σ → ℕ → Option Bytes
  treeRoot : σ → Bytes

/-- A sink over a real log. -/
def sinkOver (C : Crypto) (treeRoot : Store → Bytes) : ReplicationSink Store :=
  { append := fun s bytes now =>
      match s.append C bytes now with
      | .ok (verdict, s) => (.ok verdict, s)
      | .error e => (.error e, s)
    length := fun s => s.entries.length
    encodingAt := fun s index => s.entries[index]?.map (·.bytes)
    treeRoot := treeRoot }

/-- What one end of a replication keeps of the other. -/
structure ReplicationSession where
  helloSent : Bool
  helloReceived : Bool
  /-- The length the remote claims. -/
  remoteLength : ℕ
  /-- When each in-flight WANT was issued, in issue order. -/
  outstanding : List ℕ
  /-- How much of this remote's log has been delivered. -/
  fetchedThrough : ℕ
  /-- How far requests have been aimed into the remote's log. -/
  requestedThrough : ℕ
  deferredQueue : List (Bytes × ℕ)
  deferredKeys : List Bytes
  deriving DecidableEq, Repr

namespace ReplicationSession

/-- A session before any message. -/
def new : ReplicationSession :=
  { helloSent := false, helloReceived := false, remoteLength := 0, outstanding := [],
    fetchedThrough := 0, requestedThrough := 0, deferredQueue := [], deferredKeys := [] }

variable {σ : Type} (C : Crypto) (sink : ReplicationSink σ)

/-- The opening HELLO, or nothing when it has been sent already (`HELLO_REPEATED`). -/
def open_ (p : ReplicationSession) (s : σ) : Option (Message × ReplicationSession) :=
  if p.helloSent then none
  else some (.hello protocolVersion (sink.length s) (sink.treeRoot s), { p with helloSent := true })

/-- Takes in a HELLO: the first one, of the version spoken here. -/
def onHello (p : ReplicationSession) (v len : ℕ) : ReplicationSession :=
  if p.helloReceived then p
  else if v ≠ protocolVersion then p
  else { p with helloReceived := true, remoteLength := len }

/-- The loop of `onWant` from `index` on, for at most `count` records. -/
def serve (s : σ) (budget : ℕ) : ℕ → ℕ → List Bytes → ℕ → List Bytes
  | 0, _, recs, _ => recs
  | count + 1, index, recs, used =>
    if index ≥ sink.length s then recs
    else
      match sink.encodingAt s index with
      | none => recs
      | some encoding =>
        let cost := encoding.length + 3
        if used + cost > budget ∧ recs.length > 0 then recs
        else serve s budget count (index + 1) (recs ++ [encoding]) (used + cost)

/-- What a peer replies to a WANT, from its own log. -/
def onWant (s : σ) (from_ count : ℕ) : ReceiveOutcome :=
  if count = 0 ∨ count > limitWantCount then .empty
  else
    let budget := limitMessageBytes - recordsEnvelopeBytes
    let recs := serve sink s budget count from_ [] 0
    if recs.length = 0 then .empty
    else { ReceiveOutcome.empty with replies := [.records from_ recs] }

/-- Hold a clock-skewed record for later, bounded, oldest evicted first. -/
def holdDeferred (p : ReplicationSession) (bytes : Bytes) (at_ : ℕ) : ReplicationSession :=
  let key := recordHashFromBytes C bytes
  if p.deferredKeys.contains key then p
  else
    let p :=
      if p.deferredQueue.length ≥ limitDeferred then
        match p.deferredQueue with
        | [] => p
        | evicted :: queue =>
          { p with deferredQueue := queue,
                   deferredKeys := p.deferredKeys.erase (recordHashFromBytes C evicted.1) }
      else p
    { p with deferredKeys := p.deferredKeys ++ [key], deferredQueue := p.deferredQueue ++ [(bytes, at_)] }

/-- What the loop of `onRecords` carries: the session, the sink and the counters. -/
structure Batch (σ : Type) where
  session : ReplicationSession
  store : σ
  applied : ℕ
  rejected : ℕ
  deferred : ℕ
  duplicates : ℕ

/-- One record of a batch, applied independently. -/
def applyOne (now : ℕ) (b : Batch σ) (encoding : Bytes) : Batch σ :=
  if encoding.length > limitRecordBytes then { b with rejected := b.rejected + 1 }
  else
    let (verdict, store) := sink.append b.store encoding now
    let b := { b with store := store }
    match verdict with
    | .error _ => { b with rejected := b.rejected + 1 }
    | .ok (.accept _ _ duplicate) =>
      if duplicate then { b with duplicates := b.duplicates + 1 }
      else { b with applied := b.applied + 1 }
    | .ok (.defer _ _) =>
      { b with session := b.session.holdDeferred C encoding now, deferred := b.deferred + 1 }
    | .ok (.reject _ _) => { b with rejected := b.rejected + 1 }

/-- The cursors after a delivery of `n` records from `from_`. -/
def delivered (p : ReplicationSession) (from_ n : ℕ) : ReplicationSession :=
  let p :=
    if from_ ≤ p.fetchedThrough then
      let through := max p.fetchedThrough (from_ + n)
      { p with fetchedThrough := through, requestedThrough := through }
    else p
  { p with outstanding := p.outstanding.drop 1 }

/-- Apply a batch. -/
def onRecords (p : ReplicationSession) (s : σ) (from_ : ℕ) (recs : List Bytes) (now : ℕ) :
    ReceiveOutcome × ReplicationSession × σ :=
  if recs.length > limitRecordsPerBatch then ({ ReceiveOutcome.empty with rejected := 1 }, p, s)
  else
    let b := recs.foldl (applyOne C sink now)
      { session := p, store := s, applied := 0, rejected := 0, deferred := 0, duplicates := 0 }
    ({ ReceiveOutcome.empty with
        applied := b.applied, rejected := b.rejected, deferred := b.deferred,
        duplicates := b.duplicates },
      b.session.delivered from_ recs.length, b.store)

/-- Takes in evidence: kept if it verifies, counted against the peer if not. -/
def onEquivocation (a b : Bytes) : ReceiveOutcome :=
  match verifyEquivocation C a b with
  | .ok true => { ReceiveOutcome.empty with equivocations := [.equivocation a b] }
  | _ => { ReceiveOutcome.empty with rejected := 1 }

/-- Handle one message. -/
def receive (p : ReplicationSession) (s : σ) (message : Message) (now : ℕ) :
    ReceiveOutcome × ReplicationSession × σ :=
  match message with
  | .hello v len _ => (.empty, p.onHello v len, s)
  | .want from_ count => if p.helloReceived then (onWant sink s from_ count, p, s) else (.empty, p, s)
  | .records from_ recs => if p.helloReceived then onRecords C sink p s from_ recs now else (.empty, p, s)
  | .equivocation a b => if p.helloReceived then (onEquivocation C a b, p, s) else (.empty, p, s)
  | .checkpoint len treeRoot indexRoot liveNames =>
    if p.helloReceived then
      ({ ReceiveOutcome.empty with checkpoints := [.checkpoint len treeRoot indexRoot liveNames] }, p, s)
    else (.empty, p, s)

/-- One held record, appended again. -/
def retryOne (now : ℕ) (b : ReplicationSession × σ × ℕ) (held : Bytes × ℕ) :
    ReplicationSession × σ × ℕ :=
  let (verdict, store) := sink.append b.2.1 held.1 now
  match verdict with
  | .error _ => (b.1, store, b.2.2)
  | .ok (.accept _ _ _) => (b.1, store, b.2.2 + 1)
  | .ok (.defer _ _) => (b.1.holdDeferred C held.1 held.2, store, b.2.2)
  | .ok (.reject _ _) => (b.1, store, b.2.2)

/-- Retry held records, returning how many were applied. -/
def retryDeferred (p : ReplicationSession) (s : σ) (now : ℕ) : ReplicationSession × σ × ℕ :=
  p.deferredQueue.foldl (retryOne C sink now) ({ p with deferredQueue := [], deferredKeys := [] }, s, 0)

/-- Drop requests whose deadline has passed, and ask for their range again. -/
def expireWants (p : ReplicationSession) (now : ℕ) : ReplicationSession :=
  let outstanding := p.outstanding.dropWhile fun (at_ : ℕ) => (now : ℤ) - at_ ≥ limitWantDeadlineSeconds
  if outstanding.length < p.outstanding.length then
    { p with outstanding := outstanding, requestedThrough := p.fetchedThrough }
  else p

/-- The next range to request, or nothing. -/
def nextWant (p : ReplicationSession) (now : ℕ) : Option Message × ReplicationSession :=
  if ¬ p.helloReceived then (none, p)
  else
    let p := p.expireWants now
    if p.outstanding.length ≥ limitOutstandingWants then (none, p)
    else if p.requestedThrough ≥ p.remoteLength then (none, p)
    else
      let from_ := p.requestedThrough
      let count := min limitWantCount (p.remoteLength - from_)
      (some (.want from_ count),
        { p with outstanding := p.outstanding ++ [now], requestedThrough := from_ + count })

/-! ## Connections -/

/-- What can happen on a connection: a message comes in, or the driver calls the session. -/
inductive Event where
  | openHello
  | receive (message : Message) (now : ℕ)
  | nextWant (now : ℕ)
  | retryDeferred (now : ℕ)
  deriving DecidableEq, Repr

/-- The session and the sink after an event. -/
def step (c : ReplicationSession × σ) : Event → ReplicationSession × σ
  | .openHello => (match c.1.open_ sink c.2 with | some (_, p) => p | none => c.1, c.2)
  | .receive message now => (c.1.receive C sink c.2 message now).2
  | .nextWant now => ((c.1.nextWant now).2, c.2)
  | .retryDeferred now =>
    let (p, s, _) := c.1.retryDeferred C sink c.2 now
    (p, s)

/-- A whole connection, from a new session. -/
def run (s : σ) (events : List Event) : ReplicationSession × σ := events.foldl (step C sink) (new, s)

end ReplicationSession

end VayuWeb
