import VayuWeb.Spec.Record

/-!
# Name lifecycle (`registry/src/lifecycle.ts`)

Live, grace, quarantine, free: functions of the last accepted record and the clock. Times
are whole seconds; the sums below are exact in the source as long as they are safe integers.
-/

namespace VayuWeb

/-- `GRACE_SECONDS`. -/
def graceSeconds : ℕ := 2592000

/-- `QUARANTINE_SECONDS`. -/
def quarantineSeconds : ℕ := 2592000

/-- Where a name stands in its life. -/
inductive NameState where
  | live | grace | quarantine | free | pending
  deriving DecidableEq, Repr

/-- The instants at which a name changes state. -/
structure Lifecycle where
  liveFrom : ℕ
  liveUntil : ℕ
  graceUntil : ℕ
  quarantineUntil : ℕ
  /-- The name will never accept another record from anyone. -/
  revoked : Bool
  deriving DecidableEq, Repr

/-- The boundaries a record sets for its name. -/
def lifecycleOf (record : RegistryRecord) : Lifecycle :=
  match record.op with
  -- grace is skipped, quarantine still runs
  | .relinquish =>
    { liveFrom := record.notBefore, liveUntil := record.notAfter, graceUntil := record.notAfter,
      quarantineUntil := record.notAfter + quarantineSeconds, revoked := false }
  -- frozen for the rest of the term, then quarantined
  | .revoke =>
    { liveFrom := record.notBefore, liveUntil := record.notBefore, graceUntil := record.notAfter,
      quarantineUntil := record.notAfter + quarantineSeconds, revoked := true }
  | _ =>
    let graceUntil := record.notAfter + graceSeconds
    { liveFrom := record.notBefore, liveUntil := record.notAfter, graceUntil := graceUntil,
      quarantineUntil := graceUntil + quarantineSeconds, revoked := false }

/-- Where a name stands at a moment, by its latest record. -/
def stateAt (record : RegistryRecord) (now : ℕ) : NameState :=
  let life := lifecycleOf record
  if now < life.liveFrom then .pending
  else if now < life.liveUntil then .live
  else if now < life.graceUntil then .grace
  else if now < life.quarantineUntil then .quarantine
  else .free

/-- May a fresh REGISTER take this name? -/
def isFullyReleased (record : RegistryRecord) (now : ℕ) : Bool :=
  now ≥ (lifecycleOf record).quarantineUntil

/-- May a successor of this operation still be accepted? -/
def acceptsSuccessor (record : RegistryRecord) (now : ℕ) (op : Operation) : Bool :=
  let life := lifecycleOf record
  if life.revoked then false
  else if now < life.liveFrom then false
  else if op = .renew then now < life.graceUntil else now < life.liveUntil

end VayuWeb
