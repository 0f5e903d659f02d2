import VayuWeb.Spec.Lifecycle

/-!
# Verification against registry state (`registry/src/verify.ts`)

`admitBytes` is the framing and schema stage, a function of the bytes alone; `judge` is the rest,
against a `RegistryView` and a clock. `verify` is one after the other.
-/

namespace VayuWeb

open Bytes

/-- `TERM_SECONDS`. -/
def termSeconds : ℕ := 31536000

/-- `RENEWAL_WINDOW_SECONDS`. -/
def renewalWindowSeconds : ℕ := 5184000

/-- `MIN_INTERVAL_SECONDS`. -/
def minIntervalSeconds : ℕ := 300

/-- `MAX_CLOCK_SKEW_SECONDS`. -/
def maxClockSkewSeconds : ℕ := 300

/-- `MAX_BACKDATE_SECONDS`. -/
def maxBackdateSeconds : ℕ := 86400

/-- `SETTLEMENT_SECONDS`. -/
def settlementSeconds : ℕ := 1209600

/-- Why a record is neither accepted nor refused yet. -/
inductive DeferralReason where
  | clockSkew
  deriving DecidableEq, Repr

/-- What the verifier says of a record. -/
inductive Verdict where
  /-- `voided`: the records voided by winning a convergence conflict. `duplicate`: the record
  was already held. -/
  | accept (record : RegistryRecord) (voided : Option (List Bytes)) (duplicate : Bool)
  | reject (code : VerifyRejection) (detail : String)
  | defer (reason : DeferralReason) (detail : String)
  deriving DecidableEq

/-- The accepted predecessor for one name, the hash of its exact bytes and the key it was
accepted under. -/
structure Predecessor where
  record : RegistryRecord
  hash : Bytes
  signerKey : Bytes
  deriving DecidableEq

/-- The key a successor must be signed by, given its predecessor and its own `notBefore`. -/
def controllingKey (previous : Predecessor) (at_ : ℕ) : Bytes :=
  let prev := previous.record
  if prev.op = .transfer ∧ at_ < prev.notBefore + settlementSeconds then previous.signerKey
  else prev.ownerKey

/-- The verifier's own linearised log. -/
structure RegistryView where
  current : String → String → Option Predecessor
  fullyReleased : Predecessor → ℕ → Bool
  revoked : String → String → Bool
  powVerified : RegistryRecord → Except CborError Bool

/-- The verdict of the clock: ahead of it by too much, or behind. -/
def clockVerdict (notBefore now : ℕ) : Option Verdict :=
  if notBefore > now + maxClockSkewSeconds then
    some (.defer .clockSkew s!"notBefore {notBefore} is ahead of the verifier clock")
  else if (notBefore : ℤ) < now - maxBackdateSeconds then
    some (.reject .backdated s!"notBefore {notBefore} is more than a day in the past")
  else none

/-! ## Framing and schema -/

/-- The checks on the bytes alone: size, canonical form, schema. -/
def admitBytes (bytes : Bytes) : Except (VerifyRejection × String) RegistryRecord :=
  if bytes.length > maxRecordBytes then
    .error (.tooLarge, s!"{bytes.length} bytes exceeds {maxRecordBytes}")
  else
    match decode bytes with
    | .error e => .error (.nonCanonical, e.message)
    | .ok (.map map) =>
      match parseRecord map with
      | .error e => .error (e.code, e.message)
      | .ok record =>
        match encode (.map map) with
        | .error e => .error (.nonCanonical, e.message)
        | .ok out =>
          -- what the decoder lets pass but the encoder would write otherwise
          if out ≠ bytes then
            .error (.nonCanonical, "bytes are not the deterministic encoding of their content")
          else .ok record
    | .ok _ => .error (.notAMap, "record must be a CBOR map")

/-! ## State -/

/-- `previous` still keeps the name from being registered. -/
def isHeld (previous : Option Predecessor) (state : RegistryView) (now : ℕ) : Bool :=
  match previous with
  | none => false
  | some p => !state.fullyReleased p now

/-- The rules of a REGISTER: a fresh chain, a name nobody holds, a full term, work and a signature. -/
def verifyRegister (C : Crypto) (record : RegistryRecord) (input : Bytes)
    (previous : Option Predecessor) (state : RegistryView) (now : ℕ) (ignoreIncumbent : Bool) :
    Except Thrown Verdict :=
  if record.seq ≠ 0 ∨ ¬ isZeroHash record.prevHash then
    .ok (.reject .badChain "REGISTER must carry seq 0 and a zero prevHash")
  else if isHeld previous state now ∧ ¬ ignoreIncumbent then
    .ok (.reject .nameTaken s!"{record.name}.{record.tld} is held")
  else if (record.notAfter : ℤ) - record.notBefore ≠ termSeconds then
    .ok (.reject .badTerm "a registration term is exactly one year")
  else if ¬ verifyStrict C record.ownerKey input record.sig then
    .ok (.reject .badSig "signature does not verify under ownerKey")
  else
    -- the signature is checked first, the memory-hard hash only for a record that is signed
    match state.powVerified record with
    | .error e => .error (.cborError e)
    | .ok false => .ok (.reject .badPow "proof of work does not meet the required difficulty")
    | .ok true =>
      match clockVerdict record.notBefore now with
      | some clock => .ok clock
      | none => .ok (.accept record none false)

/-- The rules an operation adds to those of every successor. -/
def verifyOperation (C : Crypto) (record prev : RegistryRecord) (input : Bytes)
    (state : RegistryView) : Except Thrown Verdict :=
  match record.op with
  | .update =>
    if record.notAfter ≠ prev.notAfter then
      .ok (.reject .badTerm "UPDATE must not change notAfter")
    else .ok (.accept record none false)
  | .renew =>
    let base := max prev.notAfter record.notBefore
    if record.powProof.isNone then .ok (.reject .missingPow "RENEW requires a proof of work")
    else if (record.notBefore : ℤ) < prev.notAfter - renewalWindowSeconds then
      .ok (.reject .tooSoon "the renewal window opens 60 days before expiry")
    else if record.notAfter ≠ base + termSeconds then
      .ok (.reject .badTerm s!"RENEW must set notAfter to {base + termSeconds}")
    else
      match state.powVerified record with
      | .error e => .error (.cborError e)
      | .ok false => .ok (.reject .badPow "proof of work does not meet the required difficulty")
      | .ok true => .ok (.accept record none false)
  | .transfer =>
    let remaining : ℤ := record.notAfter - record.notBefore
    if record.ownerKey = prev.ownerKey then
      .ok (.reject .badOwner "TRANSFER must name a different ownerKey")
    else if record.notAfter ≠ prev.notAfter then
      .ok (.reject .badTerm "TRANSFER must not change notAfter")
    -- a transfer must be able to settle inside the term it transfers
    else if remaining < settlementSeconds then
      .ok (.reject .unsettled
        s!"a transfer needs {settlementSeconds}s of term left to settle in; {remaining}s remain")
    else
      match record.coSig with
      | none => .ok (.reject .badCosig "coSig does not verify under the incoming ownerKey")
      | some coSig =>
        if ¬ verifyStrict C record.ownerKey input coSig then
          .ok (.reject .badCosig "coSig does not verify under the incoming ownerKey")
        else .ok (.accept record none false)
  | .relinquish =>
    if record.entries.length ≠ 0 then
      .ok (.reject .badRecordEntry "RELINQUISH must carry no entries")
    else if record.notAfter ≠ record.notBefore then
      .ok (.reject .badTerm "RELINQUISH must expire immediately")
    else .ok (.accept record none false)
  | .revoke =>
    if record.entries.length ≠ 0 then
      .ok (.reject .badRecordEntry "REVOKE must carry no entries")
    else if record.notAfter ≠ prev.notAfter then
      .ok (.reject .badTerm "REVOKE must not change notAfter")
    else .ok (.accept record none false)
  | .register => .ok (.reject .unknownOp "REGISTER reached the successor path")

/-- The successor is refused while its predecessor, a transfer, has not settled. -/
def isUnsettled (record prev : RegistryRecord) : Bool :=
  prev.op = .transfer && record.notBefore < prev.notBefore + settlementSeconds &&
    record.op ≠ .transfer

/-- The rules of a record with a predecessor. -/
def verifySuccessor (C : Crypto) (record : RegistryRecord) (input : Bytes)
    (previous : Option Predecessor) (state : RegistryView) (now : ℕ) : Except Thrown Verdict :=
  match previous with
  | none =>
    .ok (.reject .noPredecessor s!"{record.name}.{record.tld} has no accepted history")
  | some previous =>
    let prev := previous.record
    if record.seq ≠ prev.seq + 1 then
      .ok (.reject .badSeq s!"seq {record.seq} does not follow {prev.seq}")
    else if record.prevHash ≠ previous.hash then
      .ok (.reject .badChain "prevHash does not match the predecessor")
    else if record.notBefore < prev.notBefore + minIntervalSeconds then
      .ok (.reject .tooSoon "notBefore is less than 300s after the predecessor")
    else if record.suite < prev.suite then
      .ok (.reject .suiteDowngrade
        s!"suite {record.suite} is below the predecessor's {prev.suite}; suites move forward only")
    else if state.revoked record.name record.tld then
      .ok (.reject .revoked "the name has been revoked and accepts no further records")
    else if ¬ acceptsSuccessor prev now record.op then
      .ok (.reject .expired
        s!"{record.name}.{record.tld} is not live enough for {record.op.name}")
    else if isUnsettled record prev then
      .ok (.reject .unsettled
        (s!"a transfer of {record.name}.{record.tld} settles at {prev.notBefore + settlementSeconds}; " ++
          "only TRANSFER is accepted until then"))
    -- inside a settlement window the transferor's key still signs
    else if ¬ verifyStrict C (controllingKey previous record.notBefore) input record.sig then
      .ok (.reject .badSig "signature does not verify under the controlling key")
    else
      match clockVerdict record.notBefore now with
      | some clock => .ok clock
      | none =>
        if record.op ≠ .transfer ∧ record.ownerKey ≠ prev.ownerKey then
          .ok (.reject .badOwner s!"{record.op.name} must not change ownerKey")
        else if record.op ≠ .renew ∧ record.powProof.isSome then
          .ok (.reject .unexpectedPow s!"{record.op.name} must carry powProof null")
        else verifyOperation C record prev input state

/-- Judge an admitted record against state and clock. -/
def judge (C : Crypto) (record : RegistryRecord) (state : RegistryView) (now : ℕ)
    (ignoreIncumbent : Bool) : Except Thrown Verdict := do
  let input ← signingInput record.map
  let previous := state.current record.name record.tld
  if record.op = .register then
    verifyRegister C record input previous state now ignoreIncumbent
  else verifySuccessor C record input previous state now

/-- Verify a record as received, in its exact serialised bytes. -/
def verify (C : Crypto) (bytes : Bytes) (state : RegistryView) (now : ℕ) (ignoreIncumbent : Bool) :
    Except Thrown Verdict :=
  match admitBytes bytes with
  | .error (code, detail) => .ok (.reject code detail)
  | .ok record => judge C record state now ignoreIncumbent

/-- A predecessor from the exact bytes it was accepted as. -/
def predecessorFrom (C : Crypto) (record : RegistryRecord) (bytes : Bytes)
    (signerKey : Option Bytes) : Except Thrown Predecessor :=
  if record.op = .transfer ∧ signerKey.isNone then
    .error (.error ("predecessorFrom: a TRANSFER needs its transferor key. ownerKey names the recipient, and " ++
      "until the record settles the transferor is still the controlling key."))
  else
    .ok { record := record, hash := recordHashFromBytes C bytes,
          signerKey := signerKey.getD record.ownerKey }

end VayuWeb
