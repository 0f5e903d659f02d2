import VayuWeb.Base.Bytes

/-!
# Framing on a peer connection (`registry/src/swarm.ts`)

A message goes over the wire behind its length. `Deframer` keeps the chunks as they arrived and joins
them when a whole frame is there.
-/

namespace VayuWeb.Swarm

open Bytes

/-- `SWARM_LIMITS.frameBytes`, the limit of a replication message. -/
def frameBytes : ℕ := 65536

/-- `SWARM_LIMITS.prefixBytes`. -/
def prefixBytes : ℕ := 4

/-- The codes of a `FramingError`. -/
inductive FramingRejection where
  | frameTooLarge
  | frameEmpty
  deriving DecidableEq, Repr

/-- An error of the framing, with its message. -/
structure FramingError where
  code : FramingRejection
  message : String
  deriving DecidableEq

/-- Length-prefix one message for the wire. -/
def frame (payload : Bytes) : Except FramingError Bytes :=
  if payload.length > frameBytes then
    .error
      { code := .frameTooLarge
        message := s!"FRAME_TOO_LARGE: {payload.length} bytes is over the {frameBytes} frame limit" }
  else .ok (beBytes prefixBytes payload.length ++ payload)

/-! ## The de-framer -/

/-- Chunks as they arrived, and how many bytes they hold; the counters are of the bytes that were
copied and of the work that was done. -/
structure Deframer where
  chunks : List Bytes
  held : ℕ
  copied : ℕ
  work : ℕ
  held_eq : held = chunks.flatten.length

/-- A deframer that holds no bytes. -/
def Deframer.empty : Deframer := { chunks := [], held := 0, copied := 0, work := 0, held_eq := rfl }

/-- Bytes held awaiting the rest of a frame. -/
def Deframer.pending (d : Deframer) : ℕ := d.held

/-- How many bytes were copied so far. -/
def Deframer.copiedBytes (d : Deframer) : ℕ := d.copied

/-- How much work was done so far. -/
def Deframer.workUnits (d : Deframer) : ℕ := d.work

/-- The first bytes of the chunks, read across their boundaries. -/
def fillHeader : ℕ → List Bytes → Bytes
  | _, [] => []
  | wanted, chunk :: chunks => chunk.take wanted ++ fillHeader (wanted - chunk.length) chunks

/-- The declared length. -/
def Deframer.readLength (d : Deframer) : ℕ := beNat (fillHeader prefixBytes d.chunks)

/-- What the loop of `take` joins, the chunks it leaves, and how many it has touched. -/
def takeChunks : ℕ → List Bytes → Bytes × List Bytes × ℕ
  | _, [] => ([], [], 0)
  | 0, chunks => ([], chunks, 0)
  | total + 1, chunk :: chunks =>
    if chunk.length ≤ total + 1 then
      let rest := takeChunks (total + 1 - chunk.length) chunks
      (chunk ++ rest.1, rest.2.1, rest.2.2 + 1)
    else (chunk.take (total + 1), chunk.drop (total + 1) :: chunks, 1)

/-- Taking bytes off the chunks takes them off the whole. -/
theorem takeChunks_spec (total : ℕ) (chunks : List Bytes) :
    (takeChunks total chunks).1 = chunks.flatten.take total ∧
    (takeChunks total chunks).2.1.flatten = chunks.flatten.drop total := by
  induction chunks generalizing total with
  | nil => simp [takeChunks]
  | cons chunk chunks ih =>
    cases total with
    | zero => simp [takeChunks]
    | succ total =>
      rw [takeChunks]
      split_ifs with hle
      · obtain ⟨hjoined, hleft⟩ := ih (total + 1 - chunk.length)
        dsimp only
        rw [hjoined, hleft, List.flatten_cons, List.take_append, List.drop_append, List.take_of_length_le hle,
          List.drop_of_length_le hle, List.nil_append]
        exact ⟨rfl, rfl⟩
      · have hshort : total + 1 ≤ chunk.length := by omega
        rw [List.flatten_cons, List.flatten_cons, List.take_append_of_le_length hshort,
          List.drop_append_of_le_length hshort]
        exact ⟨rfl, rfl⟩

/-- Remove `skip + length` bytes, and answer the last `length` of them. -/
def Deframer.take (d : Deframer) (skip length : ℕ) : Bytes × Deframer :=
  let total := skip + length
  let taken := takeChunks total d.chunks
  (taken.1.drop skip,
    { chunks := taken.2.1
      held := d.held - total
      copied := d.copied + total
      work := d.work + taken.2.2
      held_eq := by rw [(takeChunks_spec total d.chunks).2, List.length_drop, d.held_eq] })

/-- The loop of `push`. -/
def Deframer.drain : ℕ → Deframer → Except FramingError (List Bytes) × Deframer
  | 0, d => (.ok [], d)
  | fuel + 1, d =>
    -- a prefix that is not complete waits for the next chunk
    if d.held < prefixBytes then (.ok [], d)
    else
      let length := d.readLength
      -- refused by its declared length, without buffering it
      if length > frameBytes then
        (.error
          { code := .frameTooLarge
            message := s!"FRAME_TOO_LARGE: a peer declared a {length}-byte frame, over the {frameBytes} limit" }, d)
      else if length = 0 then
        (.error { code := .frameEmpty, message := "FRAME_EMPTY: a zero-length frame carries no message" }, d)
      else if d.held < prefixBytes + length then (.ok [], d)
      else
        let (payload, d) := d.take prefixBytes length
        let (out, d) := d.drain fuel
        (out.map (payload :: ·), d)

/-- What arrived, behind what is held. -/
def Deframer.hold (d : Deframer) (chunk : Bytes) : Deframer :=
  if chunk.length > 0 then
    { chunks := d.chunks ++ [chunk]
      held := d.held + chunk.length
      copied := d.copied + chunk.length
      work := d.work + 1
      held_eq := by rw [List.flatten_append, List.length_append, d.held_eq, List.flatten_singleton] }
  else d

/-- Feed bytes: every payload they completed, in order. A refusal answers none. -/
def Deframer.push (d : Deframer) (chunk : Bytes) : Except FramingError (List Bytes) × Deframer :=
  (d.hold chunk).drain ((d.hold chunk).held + 1)

/-- Chunks pushed in order, until the first refusal. -/
def Deframer.feed (d : Deframer) : List Bytes → List Bytes × Except FramingError Deframer
  | [] => ([], .ok d)
  | chunk :: chunks =>
    match d.push chunk with
    | (.ok payloads, d) => (payloads ++ (d.feed chunks).1, (d.feed chunks).2)
    | (.error e, _) => ([], .error e)

end VayuWeb.Swarm
