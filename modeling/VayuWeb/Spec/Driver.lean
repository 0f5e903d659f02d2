import VayuWeb.Spec.Checkpoint
import VayuWeb.Spec.Equivocation
import VayuWeb.Spec.Messages
import VayuWeb.Spec.Swarm

/-!
# Driving one connection (`registry/src/swarm.ts`)

`drivePeer`: a stream, the de-framer that reads it and the session it is read into, with the registry, the ledger and
the checkpoints that all connections of a process share. The clock is read once for an event.
-/

namespace VayuWeb.Swarm

open Bytes

/-- `EQUIVOCATION_LIMITS.perConnection`. -/
def perConnection : ℕ := 32

/-- What one peer connection reported while it was open. -/
structure PeerOutcome where
  applied : ℕ
  rejected : ℕ
  deferred : ℕ
  duplicates : ℕ
  /-- Equivocation reports that verified, and how many of them were not written down yet. -/
  equivocations : ℕ
  recorded : ℕ
  /-- Reports handed to this peer, and those the budget of one connection held back. -/
  forwarded : ℕ
  withheld : ℕ
  checkpoints : ℕ
  forks : ℕ
  deriving DecidableEq, Repr

/-- The count of a peer that has sent nothing. -/
def PeerOutcome.zero : PeerOutcome :=
  { applied := 0, rejected := 0, deferred := 0, duplicates := 0, equivocations := 0, recorded := 0, forwarded := 0,
    withheld := 0, checkpoints := 0, forks := 0 }

/-- The stream of a connection: what was written to it, and whether it is destroyed. -/
structure PeerStream where
  written : Bytes
  destroyed : Bool
  deriving DecidableEq

/-- What is written to a stream that was destroyed goes nowhere. -/
def PeerStream.write (stream : PeerStream) (bytes : Bytes) : PeerStream :=
  if stream.destroyed then stream else { stream with written := stream.written ++ bytes }

/-- `stream.destroy()`. -/
def PeerStream.destroy (stream : PeerStream) : PeerStream := { stream with destroyed := true }

/-- What all connections of a process share: the registry, and the ledgers if there are any. -/
structure Node (σ : Type) where
  store : σ
  ledger : Option EquivocationLedger
  forks : Option CheckpointLedger

/-- One end of a connection: the stream, the session over it, and what is counted of it. -/
structure Driver where
  stream : PeerStream
  session : ReplicationSession
  deframer : Deframer
  outcome : PeerOutcome
  /-- The evidence was offered. -/
  offered : Bool
  /-- The checkpoint was stated. -/
  stated : Bool

/-- A message written to the stream in its frame. One that cannot be written ends the connection. -/
def PeerStream.send (stream : PeerStream) (message : Message) : PeerStream :=
  match encodeMessage message with
  | .error _ => stream.destroy
  | .ok payload =>
    match frame payload with
    | .error _ => stream.destroy
    | .ok framed => stream.write framed

/-- Messages sent one after the other. -/
def PeerStream.sendAll (stream : PeerStream) (messages : List Message) : PeerStream := messages.foldl send stream

namespace Driver

variable {σ : Type}

/-- Writes messages to the stream, in order. -/
def sendAll (d : Driver) (messages : List Message) : Driver := { d with stream := d.stream.sendAll messages }

/-- The loop of `pump`, for at most `fuel` requests. -/
def wants (now : ℕ) : ℕ → ReplicationSession → List Message × ReplicationSession
  | 0, session => ([], session)
  | fuel + 1, session =>
    match session.nextWant now with
    | (none, session) => ([], session)
    | (some want, session) => (want :: (wants now fuel session).1, (wants now fuel session).2)

/-- Ask for whatever this peer does not have yet. A request takes a slot, so there are no more than the slots. -/
def pump (d : Driver) (now : ℕ) : Driver :=
  if ¬ d.session.helloReceived then d
  else
    let asked := wants now (limitOutstandingWants + 1) d.session
    { d with session := asked.2 }.sendAll asked.1

/-- Hand this peer the evidence that is held, once. -/
def offerEvidence (d : Driver) (ledger : Option EquivocationLedger) : Driver :=
  match ledger with
  | none => d
  | some ledger =>
    if d.offered ∨ ¬ d.session.helloReceived then d
    else
      let budget := min ledger.held.length perConnection
      let reports := (ledger.held.take budget).map fun entry => Message.equivocation entry.evidence.a entry.evidence.b
      let d := { d with offered := true }.sendAll reports
      { d with outcome := { d.outcome with
          forwarded := d.outcome.forwarded + budget
          withheld := d.outcome.withheld + (ledger.held.length - budget) } }

/-- State what this peer's log looks like, once. `mine` is what the caller would state, if it was given a way to. -/
def stateCheckpoint (d : Driver) (mine : Option (Option Checkpoint)) : Driver :=
  match mine with
  | none => d
  | some mine =>
    if d.stated ∨ ¬ d.session.helloReceived then d
    else
      let d := { d with stated := true }
      match mine with
      | none => d
      | some mine => d.sendAll [.checkpoint mine.logLength mine.treeRoot mine.indexRoot mine.liveNames]

variable (C : Crypto)

/-- The loop over the reports of a result. What the ledger throws ends it. -/
def noteReports (ledger : EquivocationLedger) (outcome : PeerOutcome) :
    List Message → Bool × PeerOutcome × EquivocationLedger
  | [] => (true, outcome, ledger)
  | .equivocation a b :: reports =>
    match ledger.record C { a := a, b := b } .received with
    | .error _ => (false, outcome, ledger)
    | .ok (.recorded, ledger) => noteReports ledger { outcome with recorded := outcome.recorded + 1 } reports
    | .ok (_, ledger) => noteReports ledger outcome reports
  | _ :: reports => noteReports ledger outcome reports

/-- Verified by the session, and written down where there is a ledger. -/
def noteAll (ledger : Option EquivocationLedger) (outcome : PeerOutcome) (reports : List Message) :
    Bool × PeerOutcome × Option EquivocationLedger :=
  match ledger with
  | none => (true, outcome, none)
  | some ledger =>
    let noted := noteReports C ledger outcome reports
    (noted.1, noted.2.1, some noted.2.2)

/-- The loop over the checkpoints of a result. -/
def observeEach (forks : CheckpointLedger) (outcome : PeerOutcome) : List Message → PeerOutcome × CheckpointLedger
  | [] => (outcome, forks)
  | .checkpoint len treeRoot indexRoot liveNames :: rest =>
    let (verdict, forks) :=
      forks.observe { logLength := len, treeRoot := treeRoot, indexRoot := indexRoot, liveNames := liveNames }
    observeEach forks (if verdict = .fork then { outcome with forks := outcome.forks + 1 } else outcome) rest
  | _ :: rest => observeEach forks outcome rest

/-- Compared, never resolved, where checkpoints are kept. -/
def observeAll (forks : Option CheckpointLedger) (outcome : PeerOutcome) (checkpoints : List Message) :
    PeerOutcome × Option CheckpointLedger :=
  match forks with
  | none => (outcome, none)
  | some forks =>
    let observed := observeEach forks outcome checkpoints
    (observed.1, some observed.2)

/-- Adds the outcome of one message to the count of the peer. -/
def count (outcome : PeerOutcome) (result : ReceiveOutcome) : PeerOutcome :=
  { outcome with
    applied := outcome.applied + result.applied
    rejected := outcome.rejected + result.rejected
    deferred := outcome.deferred + result.deferred
    duplicates := outcome.duplicates + result.duplicates
    equivocations := outcome.equivocations + result.equivocations.length }

/-- What a received message did, counted and answered. What the ledger throws leaves the rest undone. -/
def record (checkpoints : Option (σ → ℕ → Option Checkpoint)) (d : Driver) (node : Node σ) (result : ReceiveOutcome)
    (now : ℕ) : Bool × Driver × Node σ :=
  let noted := noteAll C node.ledger (count d.outcome result) result.equivocations
  let node := { node with ledger := noted.2.2 }
  if noted.1 = false then (false, { d with outcome := noted.2.1 }, node)
  else
    let outcome := { noted.2.1 with checkpoints := noted.2.1.checkpoints + result.checkpoints.length }
    let observed := observeAll node.forks outcome result.checkpoints
    let node := { node with forks := observed.2 }
    let d := { d with outcome := observed.1 }.sendAll result.replies
    let d := d.offerEvidence node.ledger
    let d := d.stateCheckpoint (checkpoints.map fun mine => mine node.store now)
    (true, d.pump now, node)

variable (sink : ReplicationSink σ) (checkpoints : Option (σ → ℕ → Option Checkpoint))

/-- One message is handed to the session, and what it did is recorded. -/
def receive (d : Driver) (node : Node σ) (message : Message) (now : ℕ) : Bool × Driver × Node σ :=
  let (result, session, store) := d.session.receive C sink node.store message now
  record C checkpoints { d with session := session } { node with store := store } result now

/-- The loop over the payloads of a chunk. A payload that cannot be read is counted and passed over; an error that is
not the protocol's own ends the connection and the loop. -/
def takeAll (now : ℕ) (d : Driver) (node : Node σ) : List Bytes → Driver × Node σ
  | [] => (d, node)
  | payload :: payloads =>
    match decodeMessage payload with
    | .error (.refused _ _) =>
      takeAll now { d with outcome := { d.outcome with rejected := d.outcome.rejected + 1 } } node payloads
    | .error (.cborError _) => ({ d with stream := d.stream.destroy }, node)
    | .ok message =>
      match receive C sink checkpoints d node message now with
      | (true, d, node) => takeAll now d node payloads
      | (false, d, node) => ({ d with stream := d.stream.destroy }, node)

/-- A chunk of data arrives; none does on a stream that was destroyed. -/
def onData (d : Driver) (node : Node σ) (chunk : Bytes) (now : ℕ) : Driver × Node σ :=
  if d.stream.destroyed then (d, node)
  else
    match d.deframer.push chunk with
    | (.error _, deframer) => ({ d with deframer := deframer, stream := d.stream.destroy }, node)
    | (.ok payloads, deframer) => takeAll C sink checkpoints now { d with deframer := deframer } node payloads

/-- The clock-driven half. The heartbeat of a stream that was destroyed is cleared. -/
def heartbeat (d : Driver) (node : Node σ) (now : ℕ) : Driver × Node σ :=
  if d.stream.destroyed then (d, node)
  else
    let (session, store, applied) := d.session.retryDeferred C sink node.store now
    let d := { d with session := session, outcome := { d.outcome with applied := d.outcome.applied + applied } }
    (d.pump now, { node with store := store })

/-- A connection that opens: the HELLO goes out. -/
def drivePeer (node : Node σ) : Driver :=
  let d : Driver :=
    { stream := { written := [], destroyed := false }, session := .new, deframer := .empty, outcome := .zero,
      offered := false, stated := false }
  match d.session.open_ sink node.store with
  | none => d
  | some (hello, session) => { d with session := session }.sendAll [hello]

end Driver

end VayuWeb.Swarm
