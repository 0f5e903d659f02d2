import VayuWeb.Spec.Link

/-!
# A process and its peers (`registry/src/swarm.ts`)

`joinSwarm` drives every connection up to a cap, all of them over one registry and one ledger. Its events come in any
order, with any bytes. It gives its drivers neither checkpoints nor a ledger of forks; other callers of `drivePeer` may.
-/

namespace VayuWeb.Swarm

/-- `SWARM_LIMITS.connections`. -/
def connectionsCap : ℕ := 64

/-- A connection that was taken, and whether its stream has closed. -/
structure Connection where
  driver : Driver
  closed : Bool

/-- The process that joined the swarm: one node, and every connection it has had. -/
structure Process (σ : Type) where
  node : Node σ
  /-- In the order they were taken. -/
  connections : List Connection
  /-- The count of `joinSwarm`. -/
  peers : ℕ

/-- What can happen to the process: a new connection, or an event of an old one. -/
inductive Occurrence where
  | connection
  | data (i : ℕ) (chunk : Bytes) (now : ℕ)
  | heartbeat (i now : ℕ)
  | error (i : ℕ)
  | close (i : ℕ)
  deriving DecidableEq, Repr

namespace Process

variable {σ : Type} (C : Crypto) (sink : ReplicationSink σ) (checkpoints : Option (σ → ℕ → Option Checkpoint))

/-- The process before its first connection. -/
def start (node : Node σ) : Process σ := { node := node, connections := [], peers := 0 }

/-- One connection does something with what is shared; a closed one does nothing. -/
def drive (p : Process σ) (i : ℕ) (act : Driver → Node σ → Driver × Node σ) : Process σ :=
  match p.connections[i]? with
  | none => p
  | some c =>
    if c.closed then p
    else
      let next := act c.driver p.node
      { p with node := next.2, connections := p.connections.set i { c with driver := next.1 } }

/-- One past the cap is destroyed, and takes no place. -/
def connection (p : Process σ) : Process σ :=
  if p.peers ≥ connectionsCap then p
  else
    { p with
      connections := p.connections ++ [{ driver := Driver.drivePeer sink p.node, closed := false }]
      peers := p.peers + 1 }

/-- The `close` handler of a connection, which counts it out once. -/
def close (p : Process σ) (i : ℕ) : Process σ :=
  match p.connections[i]? with
  | none => p
  | some c =>
    if c.closed then p
    else { p with connections := p.connections.set i { c with closed := true }, peers := p.peers - 1 }

/-- One occurrence. -/
def step (p : Process σ) : Occurrence → Process σ
  | .connection => p.connection sink
  | .data i chunk now => p.drive i fun d node => d.onData C sink checkpoints node chunk now
  | .heartbeat i now => p.drive i fun d node => d.heartbeat C sink node now
  | .error i => p.drive i fun d node => ({ d with stream := d.stream.destroy }, node)
  | .close i => p.close i

/-- The process after a sequence of occurrences. -/
def run (node : Node σ) (events : List Occurrence) : Process σ :=
  events.foldl (step C sink checkpoints) (start node)

end Process

end VayuWeb.Swarm
