import VayuWeb.Spec.Verify

/-!
# Convergence (`registry/src/converge.ts`)

Which of two conflicting records wins.
-/

namespace VayuWeb

/-- A candidate in a conflict. -/
structure Candidate where
  record : RegistryRecord
  hash : Bytes
  /-- Position in this peer's log. It explains a decision and never makes one. -/
  logIndex : Option ℕ
  valid : Bool
  deriving DecidableEq

/-- Why a contest was decided as it was. -/
inductive ConflictRule where
  | soleValid | smallerHash
  deriving DecidableEq, Repr

/-- The outcome of a contest. -/
structure Resolution where
  winner : Candidate
  losers : List Candidate
  rule : ConflictRule

/-- Two record hashes as big-endian unsigned integers. -/
def compareHashes (a b : Bytes) : Except Thrown Ordering :=
  if a.length ≠ b.length then
    .error (.convergeError s!"record hashes differ in length: {a.length} vs {b.length}")
  else .ok (compareBytes a b)

/-- Two different records at the same `seq` for one name. -/
def conflicts (a b : Candidate) : Except Thrown Bool :=
  if a.record.name ≠ b.record.name ∨ a.record.tld ≠ b.record.tld then .ok false
  else if a.record.seq ≠ b.record.seq then .ok false
  else do
    let order ← compareHashes a.hash b.hash
    return order ≠ .eq

/-- One owner signing two different records at the same `seq`. -/
def isEquivocation (a b : Candidate) : Except Thrown Bool := do
  if ← conflicts a b then return compareBytes a.record.ownerKey b.record.ownerKey = .eq
  else return false

/-- The candidates other than the one at position `i`. -/
def others (candidates : List Candidate) (i : ℕ) : List Candidate :=
  (candidates.zipIdx.filter fun c => c.2 ≠ i).map Prod.fst

/-- Resolve a conflict between candidates for one name at one `seq`. -/
def resolveConflict (candidates : List Candidate) : Except Thrown Resolution :=
  match candidates with
  | [] => .error (.convergeError "no candidates to resolve")
  | [sole] => .ok { winner := sole, losers := [], rule := .soleValid }
  | first :: rest =>
    match rest.find? fun c => c.record.name ≠ first.record.name ∨ c.record.tld ≠ first.record.tld ∨
        c.record.seq ≠ first.record.seq with
    | some c =>
      if c.record.name ≠ first.record.name ∨ c.record.tld ≠ first.record.tld then
        .error (.convergeError "candidates are for different names")
      else .error (.convergeError "candidates are at different sequence numbers")
    | none =>
      match candidates.zipIdx.filter fun c => c.1.valid with
      | [] => .error (.convergeError "no candidate is valid")
      | [(sole, i)] => .ok { winner := sole, losers := others candidates i, rule := .soleValid }
      | valid =>
        -- sorting compares every candidate with some other, so unequal lengths throw
        match valid.find? fun c => c.1.hash.length ≠ first.hash.length with
        | some c => .error (.convergeError
            s!"record hashes differ in length: {first.hash.length} vs {c.1.hash.length}")
        | none =>
          match valid.insertionSort fun a b => compareBytes a.1.hash b.1.hash ≠ .gt with
          | (winner, i) :: _ =>
            .ok { winner := winner, losers := others candidates i, rule := .smallerHash }
          | [] => .error (.convergeError "no candidate is valid")

/-- A losing record and every successor chained onto it. `isLoser` says which candidate of
`chain` is the losing object itself. -/
def voidedChain (isLoser : Candidate → Bool) (loser : Candidate) (chain : List Candidate) :
    List Candidate :=
  -- sequence order, so a successor is considered after its predecessor
  let ordered := chain.insertionSort fun a b => a.record.seq ≤ b.record.seq
  let step (s : List Candidate × List Bytes) (candidate : Candidate) :=
    if isLoser candidate then s
    else if s.2.any fun h => candidate.record.prevHash = h then
      (s.1 ++ [candidate], s.2 ++ [candidate.hash])
    else s
  (ordered.foldl step ([loser], [loser.hash])).1

end VayuWeb
