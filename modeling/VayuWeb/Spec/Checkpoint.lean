import VayuWeb.Base.OrdMap
import VayuWeb.Spec.Keys
import VayuWeb.Spec.Merkle

/-!
# Checkpoints and light-client verification (`registry/src/checkpoint.ts`)
-/

namespace VayuWeb

open Bytes

/-- `INDEX_ROOT_PREFIX`. -/
def indexRootPrefix : String := "VayuWeb-Registry-Index-v1"

/-- What `indexRoot` may throw. -/
inductive CheckpointError where
  | checkpoint (message : String)
  | key (error : KeyError)
  deriving DecidableEq, Repr

/-- The position of the last dot. -/
def lastDot (chars : List Char) : Option ℕ := (chars.reverse.idxOf? '.').map fun i => chars.length - 1 - i

/-- The `n` key of an index entry. A leading dot is refused like no dot. -/
def indexKey (name : String) : Except CheckpointError Bytes :=
  match lastDot name.toList with
  | some (dot + 1) =>
    let tld := String.ofList (name.toList.drop (dot + 2))
    let label := String.ofList (name.toList.take (dot + 1))
    (currentKey tld label).mapError .key
  | _ => .error (.checkpoint s!"index key '{name}' is not label.tld")

/-- What the index root hashes: the rows in bytewise order. -/
def indexInput (current : OrdMap String Bytes) : Except CheckpointError Bytes := do
  let rows ← current.mapM fun (name, recordHash) => do return (← indexKey name) ++ recordHash
  return utf8Encode indexRootPrefix ++ [0x00] ++ (rows.insertionSort fun a b => compareBytes a b ≠ .gt).flatten

/-- The index root: a hash over the current-name index. -/
def indexRoot (C : Crypto) (current : OrdMap String Bytes) : Except CheckpointError Bytes := do
  return C.blake2b (← indexInput current)

/-! ## Light clients -/

/-- What a light client may conclude. `freshnessUnproven` is true in every answer. -/
structure LightClientAnswer where
  name : String
  verified : Bool
  logLength : ℤ
  observedAt : ℤ
  peersAgreeing : ℤ
  freshnessUnproven : Bool
  detail : String
  deriving DecidableEq, Repr

/-- Verify one name against a claimed `treeRoot` without holding the log. The name is only carried
into the answer. -/
def verifyNameInclusion (C : Crypto) (name : String) (recordBytes : Bytes) (proof : Proof) (treeRoot : Bytes)
    (logLength observedAt peersAgreeing : ℤ) : Except MerkleError LightClientAnswer :=
  let answer (verified : Bool) (detail : String) : LightClientAnswer :=
    { name := name, verified := verified, logLength := logLength, observedAt := observedAt,
      peersAgreeing := peersAgreeing, freshnessUnproven := true, detail := detail }
  if peersAgreeing < 1 then .ok (answer false "no peer supplied this length")
  else if proof.leafIndex ≥ logLength then
    .ok (answer false s!"proof is for leaf {proof.leafIndex} but the log is {logLength} long")
  else do
    if ¬ (← verifyInclusion C recordBytes proof treeRoot) then
      return answer false "inclusion proof does not check out"
    if peersAgreeing = 1 then
      return answer true "present at this length, from a single peer — a withholding peer is undetectable"
    return answer true s!"present at this length, corroborated by {peersAgreeing} peers"

/-! ## The length to trust -/

/-- A claim, and how many peers agree on it. -/
structure Corroborated (α : Type) where
  length : α
  peersAgreeing : ℕ
  deriving DecidableEq, Repr

section Length

variable {α : Type} [LinearOrder α]

/-- How often each length is claimed. -/
def claimCounts (claims : List α) : OrdMap α ℕ :=
  claims.foldl (fun counts claim => counts.set claim ((counts.get? claim).getD 0 + 1)) []

/-- One round of the scan: a longer claim corroborates every shorter length. -/
def corroborate (claims : List α) (quorum : ℤ) (best : Option (Corroborated α)) (length : α) :
    Option (Corroborated α) :=
  let agreeing := claims.countP fun claim => claim ≥ length
  if agreeing ≥ quorum ∧ (best = none ∨ ∃ b ∈ best, length > b.length) then
    some { length := length, peersAgreeing := agreeing }
  else best

/-- The greatest length that at least `quorum` peers reach; the source's default quorum is 2. -/
def greatestCorroboratedLength (claims : List α) (quorum : ℤ) : Option (Corroborated α) :=
  (claimCounts claims).foldl (fun best count => corroborate claims quorum best count.1) none

end Length

/-! ## Forks -/

/-- `CHECKPOINT_INTERVAL`. -/
def checkpointInterval : ℕ := 10000

/-- What a peer commits to at a length: its log, its index and how many names are live. -/
structure Checkpoint where
  logLength : ℕ
  treeRoot : Bytes
  indexRoot : Bytes
  liveNames : ℕ
  deriving DecidableEq, Repr

/-- Should a checkpoint be taken at this length? -/
def isCheckpointLength (logLength : ℕ) : Bool := 0 < logLength && logLength % checkpointInterval = 0

/-- How two checkpoints stand to one another. -/
inductive ComparisonResult where
  | identical | diverged | differentLength | indexDiverged
  deriving DecidableEq, Repr

/-- The first field in which two checkpoints differ decides. -/
def compareCheckpoints (a b : Checkpoint) : ComparisonResult :=
  if a.logLength ≠ b.logLength then .differentLength
  else if a.treeRoot ≠ b.treeRoot then .diverged
  else if a.indexRoot ≠ b.indexRoot then .indexDiverged
  else .identical

/-- Distinct log lengths remembered. -/
def checkpointLengths : ℕ := 64

/-- Fork reports kept. -/
def checkpointForks : ℕ := 32

/-- What observing a checkpoint did. -/
inductive Observation where
  | first | agrees | fork | notACheckpointLength | full
  deriving DecidableEq, Repr

/-- Two checkpoints at one length that do not match. -/
structure ForkReport where
  logLength : ℕ
  first : Checkpoint
  other : Checkpoint
  difference : ComparisonResult
  deriving DecidableEq, Repr

/-- What this peer has been told about the log at each checkpoint length. -/
structure CheckpointLedger where
  seen : OrdMap ℕ Checkpoint
  disagreements : List ForkReport
  refusedCount : ℕ
  deriving DecidableEq, Repr

namespace CheckpointLedger

/-- A ledger that has observed nothing. -/
def empty : CheckpointLedger := { seen := [], disagreements := [], refusedCount := 0 }

/-- Take one checkpoint and say what it did. Past a bound it is refused, and nothing is evicted for it. -/
def observe (ledger : CheckpointLedger) (checkpoint : Checkpoint) : Observation × CheckpointLedger :=
  let refused := { ledger with refusedCount := ledger.refusedCount + 1 }
  if ¬ isCheckpointLength checkpoint.logLength then (.notACheckpointLength, refused)
  else
    match ledger.seen.get? checkpoint.logLength with
    -- the first statement of a length is the one that later ones are compared with
    | none =>
      if ledger.seen.length ≥ checkpointLengths then (.full, refused)
      else (.first, { ledger with seen := ledger.seen.set checkpoint.logLength checkpoint })
    | some held =>
      let difference := compareCheckpoints held checkpoint
      if difference = .identical then (.agrees, ledger)
      -- a fork beyond the bound is reported, but only counted
      else if ledger.disagreements.length < checkpointForks then
        (.fork, { ledger with
          disagreements := ledger.disagreements ++
            [{ logLength := checkpoint.logLength, first := held, other := checkpoint, difference := difference }] })
      else (.fork, refused)

end CheckpointLedger

end VayuWeb
