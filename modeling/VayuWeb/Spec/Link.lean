import VayuWeb.Spec.Driver

/-!
# Two peers and the wire between them (`registry/src/swarm.ts`)

The bytes that each end writes arrive at the other in their order, in pieces of any size. What a process does for its
other connections, or for itself, changes what its connections share.
-/

namespace VayuWeb.Swarm

variable {σ : Type}

/-- One end of a connection. -/
structure End (σ : Type) where
  driver : Driver
  node : Node σ
  /-- How many of the bytes that the other end wrote have arrived. -/
  arrived : ℕ

/-- Two ends, and nothing between them but what each has written. -/
structure Link (σ : Type) where
  here : End σ
  there : End σ

/-- The root that `sinkOver` computes of a log (`registry/src/store.ts`); what throws has none. -/
def treeRootOf (C : Crypto) (s : Store) : Bytes :=
  ((treeOf C (s.entries.map (·.bytes))).bind fun tree => tree.root C).toOption.getD []

namespace Link

/-- The same connection seen from the other end. -/
def swap (l : Link σ) : Link σ := { here := l.there, there := l.here }

/-- What is under way to this end. -/
def underWay (l : Link σ) : Bytes := l.there.driver.stream.written.drop l.here.arrived

/-- Nothing is under way. -/
def Quiet (l : Link σ) : Prop := l.underWay = [] ∧ l.swap.underWay = []

variable (C : Crypto) (sink : ReplicationSink σ) (checkpoints mine theirs : Option (σ → ℕ → Option Checkpoint))

/-- A connection that opens. -/
def connect (here there : Node σ) : Link σ :=
  { here := { driver := Driver.drivePeer sink here, node := here, arrived := 0 }
    there := { driver := Driver.drivePeer sink there, node := there, arrived := 0 } }

/-- The next bytes arrive at this end. -/
def data (l : Link σ) (n now : ℕ) : Link σ :=
  let chunk := l.underWay.take n
  let next := l.here.driver.onData C sink checkpoints l.here.node chunk now
  { l with here := { driver := next.1, node := next.2, arrived := l.here.arrived + chunk.length } }

/-- The heartbeat of this end. -/
def heartbeat (l : Link σ) (now : ℕ) : Link σ :=
  let next := l.here.driver.heartbeat C sink l.here.node now
  { l with here := { l.here with driver := next.1, node := next.2 } }

/-- What a process does for its other connections, or for itself: it appends, and writes down what it is told. -/
inductive Elsewhere : Node σ → Node σ → Prop where
  | append (node : Node σ) (bytes : Bytes) (now : ℕ) :
      Elsewhere node { node with store := (sink.append node.store bytes now).2 }
  | record (node : Node σ) (ledger after : EquivocationLedger) (evidence : EquivocationEvidence)
      (origin : EvidenceOrigin) (outcome : RecordOutcome) :
      node.ledger = some ledger → ledger.record C evidence origin = .ok (outcome, after) →
      Elsewhere node { node with ledger := some after }
  | observe (node : Node σ) (forks : CheckpointLedger) (checkpoint : Checkpoint) :
      node.forks = some forks → Elsewhere node { node with forks := some (forks.observe checkpoint).2 }

/-- What this end does between two instants. -/
inductive Acts (since till : ℕ) : Link σ → Link σ → Prop where
  | data (l : Link σ) (n now : ℕ) : since ≤ now → now < till → Acts since till l (l.data C sink checkpoints n now)
  | heartbeat (l : Link σ) (now : ℕ) : since ≤ now → now < till → Acts since till l (l.heartbeat C sink now)
  | elsewhere (l : Link σ) (node : Node σ) : Elsewhere C sink l.here.node node →
      Acts since till l { l with here := { l.here with node := node } }

/-- Either end acts, each with the checkpoints of its own process. -/
def Step (since till : ℕ) (l l' : Link σ) : Prop :=
  Acts C sink mine since till l l' ∨ Acts C sink theirs since till l.swap l'.swap

/-- Bytes that are under way arrive at either end, and nothing else happens. -/
def Delivery (since till : ℕ) (l l' : Link σ) : Prop :=
  ∃ n now, since ≤ now ∧ now < till ∧
    (l' = l.data C sink mine n now ∨ l'.swap = l.swap.data C sink theirs n now)

variable {C sink mine theirs}

/-- A delivery is a step. -/
theorem Delivery.step {since till : ℕ} {l l' : Link σ} (h : Delivery C sink mine theirs since till l l') :
    Step C sink mine theirs since till l l' := by
  obtain ⟨n, now, hsince, htill, hhere | hthere⟩ := h
  · rw [hhere]
    exact Or.inl (.data l n now hsince htill)
  · have hacts : Acts C sink theirs since till l.swap l'.swap := by
      rw [hthere]
      exact .data l.swap n now hsince htill
    exact Or.inr hacts

end Link

end VayuWeb.Swarm
