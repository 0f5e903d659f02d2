import VayuWeb.Base.OrdMap
import VayuWeb.Spec.Fetch

/-!
# Pulling a tree into memory (`registry/src/blockstore.ts`)

`prefetch` walks a tree from its root and keeps every block that it names. A block store is a step
function: to a text that names a block it answers bytes, an error of its own or nothing in time, and
other than before when it is asked again.
-/

namespace VayuWeb.Blockstore

open Content Fetch

/-- What a call rejects with: an error of this package, or one of the store or its codec. -/
inductive Failure where
  | thrown (error : Fetch.Thrown)
  | store (message : String)
  deriving DecidableEq

/-- What comes of `blocks.get(codec.parse(cid))` within the deadline, as bytes. -/
inductive Answer where
  | bytes (bytes : Bytes)
  | fails (failure : Failure)
  | late
  deriving DecidableEq

/-- A block source that is awaited: what it answers for a CID, and the state it is in after that. -/
structure AsyncBlocks (σ : Type) where
  get : String → σ → Answer × σ

/-- `STORE_LIMITS.blockMs`. -/
def blockMs : ℕ := 15000

/-- `PrefetchLimits`: the bounds a walk is given, the last two of them optional. -/
structure PrefetchLimits where
  blocks : ℕ
  timeoutMs : Option ℕ
  totalBytes : Option ℕ
  deriving DecidableEq

/-- The bytes that may be held. -/
def PrefetchLimits.budget (limits : PrefetchLimits) : ℕ := limits.totalBytes.getD (blocksLimit * blockBytesLimit)

/-- A walk: the blocks it holds, what it has to ask for, what it has asked for, and what it weighs. -/
structure Walk where
  held : OrdMap String Bytes
  queue : List String
  seen : List String
  weighed : ℕ
  deriving DecidableEq

/-- A walk that holds nothing yet and has the root to visit. -/
def Walk.start (root : String) : Walk := { held := [], queue := [root], seen := [], weighed := 0 }

/-- Throws a `FetchError`. -/
def refuse {α : Type} (code : FetchRejection) (message : String) : Except Failure α :=
  .error (.thrown (.fetch code message))

/-- The CIDs a block links to. One that cannot be decoded has none. -/
def childrenOf (cid : String) (bytes : Bytes) : Except ContentError (List String) := do
  let decoded ← decodeCid cid
  if decoded.codec ≠ codecDagPb then return []
  match decodeNode bytes with
  | .ok node => return node.links.map (·.cid)
  | .error _ => return []

/-- Weigh a block, hash it and keep it. -/
def keep (H : ContentHash) (limits : PrefetchLimits) (walk : Walk) (cid : String) (bytes : Bytes) :
    Except Failure Walk := do
  if bytes.length > blockBytesLimit then
    refuse .responseTooLarge s!"block for {cid} is {bytes.length} bytes, over the {blockBytesLimit} limit"
  let weighed := walk.weighed + bytes.length
  if weighed > limits.budget then
    refuse .responseTooLarge s!"this tree weighs more than the {limits.budget}-byte budget"
  let expected ← (decodeCid cid).mapError (Failure.thrown ∘ Thrown.content)
  if H.sha256 bytes ≠ expected.digest then
    refuse .contentIntegrity s!"bytes offered for {cid} hash to something else"
  let children ← (childrenOf cid bytes).mapError (Failure.thrown ∘ Thrown.content)
  return { walk with held := walk.held.set cid bytes, queue := walk.queue ++ children, weighed := weighed }

/-- What a walk comes to in so many turns, and the state of the store then; none while it goes on. -/
def prefetchLoop {σ : Type} (H : ContentHash) (blocks : AsyncBlocks σ) (limits : PrefetchLimits) :
    ℕ → Walk → σ → Option (Except Failure (OrdMap String Bytes) × σ)
  | 0, _, _ => none
  | fuel + 1, walk, s =>
    match walk.queue with
    | [] => some (.ok walk.held, s)
    | cid :: queue =>
      -- the same block under one CID is fetched once
      if cid ∈ walk.seen then prefetchLoop H blocks limits fuel { walk with queue := queue } s
      else if walk.held.length ≥ limits.blocks then
        some (refuse .responseTooLarge s!"this tree references more than {limits.blocks} distinct blocks", s)
      else
        match blocks.get cid s with
        | (.late, s) =>
          some (refuse .contentUnavailable s!"no block for {cid} within {limits.timeoutMs.getD blockMs}ms", s)
        | (.fails failure, s) => some (.error failure, s)
        | (.bytes bytes, s) =>
          match keep H limits { walk with queue := queue, seen := cid :: walk.seen } cid bytes with
          | .error failure => some (.error failure, s)
          | .ok walk => prefetchLoop H blocks limits fuel walk s

/-- Walk a tree from its root, in so many turns. -/
def prefetch {σ : Type} (H : ContentHash) (blocks : AsyncBlocks σ) (root : String) (limits : PrefetchLimits)
    (turns : ℕ) (s : σ) : Option (Except Failure (OrdMap String Bytes) × σ) :=
  prefetchLoop H blocks limits turns (.start root) s

/-- The blocks that are held, as a source. -/
def heldSource (held : OrdMap String Bytes) : BlockSource Unit where
  get cid s := (held.get? cid, s)

end VayuWeb.Blockstore
