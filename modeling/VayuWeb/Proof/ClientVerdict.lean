import VayuWeb.Proof.ClientEvidence

/-!
# One record, two verdicts

* `Same`: what it means for the two verifiers to decide alike. Where both refuse on one condition
  with one code the rest decides (`same_refuse_iff`); a check that each makes with its own library
  has to come out alike besides (`same_check_iff`).
* `SameLog`: the two verifiers know the same of the record's name.
* `SignaturesAgree`: where they come to a signature, their Ed25519 libraries give one answer.
* `verdicts_agree_iff`: when they decide alike on a record the registry admits.
-/

namespace VayuWeb.Client

open Bytes
open DetCbor (Key Value Canonical)

/-! ## Outcomes -/

/-- What a verdict comes to. -/
inductive Outcome where
  | accept
  | reject (code : VerifyRejection)
  | defer (reason : String)
  deriving DecidableEq, Repr

/-- The text the client has for a deferral. -/
def reasonName : DeferralReason → String
  | .clockSkew => "CLOCK_SKEW"

/-- A verdict of the registry, down to its code. -/
def registryOutcome : VayuWeb.Verdict → Outcome
  | .accept _ _ _ => .accept
  | .reject code _ => .reject code
  | .defer reason _ => .defer (reasonName reason)

/-- A verdict of the client, down to its code. -/
def clientOutcome : Verdict → Outcome
  | .accept => .accept
  | .reject code _ => .reject code
  | .defer reason _ => .defer reason

/-- The registry decides, and as the client does. -/
def Same (x : Except Thrown VayuWeb.Verdict) (y : Verdict) : Prop :=
  ∃ verdict, x = .ok verdict ∧ registryOutcome verdict = clientOutcome y

theorem same_refuse {bad bad' : Prop} [Decidable bad] [Decidable bad'] {code : VerifyRejection}
    {detail detail' : String} {x : Except Thrown VayuWeb.Verdict} {y : Verdict} (hbad : bad ↔ bad')
    (hrest : ¬ bad → Same x y) :
    Same (if bad then .ok (.reject code detail) else x) (if bad' then .reject code detail' else y) := by
  by_cases h : bad
  · rw [if_pos h, if_pos (hbad.1 h)]
    exact ⟨_, rfl, rfl⟩
  · rw [if_neg h, if_neg fun h' => h (hbad.2 h')]
    exact hrest h

/-- Where both refuse on one condition with one code, the rest decides. -/
theorem same_refuse_iff {bad bad' : Prop} [Decidable bad] [Decidable bad'] {code : VerifyRejection}
    {detail detail' : String} {x : Except Thrown VayuWeb.Verdict} {y : Verdict} (hbad : bad ↔ bad') :
    Same (if bad then .ok (.reject code detail) else x) (if bad' then .reject code detail' else y) ↔
      (¬ bad → Same x y) := by
  constructor
  · intro h hnot
    rw [if_neg hnot, if_neg fun h' => hnot (hbad.2 h')] at h
    exact h
  · exact same_refuse hbad

theorem same_accept {r : RegistryRecord} {voided : Option (List Bytes)} {duplicate : Bool} :
    Same (.ok (.accept r voided duplicate)) .accept := ⟨_, rfl, rfl⟩

/-- Neither verifier decides for this code. -/
def Avoids (code : VerifyRejection) (x : Except Thrown VayuWeb.Verdict) (y : Verdict) : Prop :=
  (∀ verdict, x = .ok verdict → registryOutcome verdict ≠ .reject code) ∧ clientOutcome y ≠ .reject code

/-- Two that decide alike avoid what one of them avoids. -/
theorem Same.avoids {code : VerifyRejection} {x : Except Thrown VayuWeb.Verdict} {y : Verdict}
    (h : Same x y) (hy : clientOutcome y ≠ .reject code) : Avoids code x y := by
  obtain ⟨verdict, hx, houtcome⟩ := h
  refine ⟨?_, hy⟩
  intro verdict' hx'
  obtain rfl : verdict = verdict' := Except.ok.inj (hx.symm.trans hx')
  rw [houtcome]
  exact hy

theorem avoids_refuse {bad bad' : Prop} [Decidable bad] [Decidable bad'] {code code' : VerifyRejection}
    {detail detail' : String} {x : Except Thrown VayuWeb.Verdict} {y : Verdict} (hcode : code' ≠ code)
    (h : Avoids code x y) :
    Avoids code (if bad then .ok (.reject code' detail) else x)
      (if bad' then .reject code' detail' else y) := by
  obtain ⟨hx, hy⟩ := h
  constructor
  · intro verdict hverdict
    split_ifs at hverdict
    · rw [Except.ok.injEq] at hverdict
      rw [← hverdict, registryOutcome, ne_eq, Outcome.reject.injEq]
      exact hcode
    · exact hx verdict hverdict
  · split_ifs
    · rw [clientOutcome, ne_eq, Outcome.reject.injEq]
      exact hcode
    · exact hy

/-- Where each refuses on a condition of its own with a code that the rest avoids, the two
conditions have to be one. -/
theorem same_check_iff {bad bad' : Prop} [Decidable bad] [Decidable bad'] {code : VerifyRejection}
    {detail detail' : String} {x : Except Thrown VayuWeb.Verdict} {y : Verdict} (h : Avoids code x y) :
    Same (if bad then .ok (.reject code detail) else x) (if bad' then .reject code detail' else y) ↔
      (bad ↔ bad') ∧ (¬ bad → Same x y) := by
  obtain ⟨hx, hy⟩ := h
  -- `code` is avoided by both remainders, so it is answered alike only when both checks answer it
  by_cases hbad : bad
  · by_cases hbad' : bad'
    · rw [if_pos hbad, if_pos hbad']
      exact ⟨fun _ => ⟨iff_of_true hbad hbad', fun hnot => absurd hbad hnot⟩, fun _ => ⟨_, rfl, rfl⟩⟩
    · rw [if_pos hbad, if_neg hbad']
      constructor
      · rintro ⟨verdict, hverdict, houtcome⟩
        rw [Except.ok.injEq] at hverdict
        rw [← hverdict] at houtcome
        exact absurd houtcome.symm hy
      · rintro ⟨hone, -⟩
        exact absurd (hone.1 hbad) hbad'
  · by_cases hbad' : bad'
    · rw [if_neg hbad, if_pos hbad']
      constructor
      · rintro ⟨verdict, hverdict, houtcome⟩
        exact absurd houtcome (hx verdict hverdict)
      · rintro ⟨hone, -⟩
        exact absurd (hone.2 hbad') hbad
    · rw [if_neg hbad, if_neg hbad']
      exact ⟨fun hsame => ⟨iff_of_false hbad hbad', fun _ => hsame⟩, fun hboth => hboth.2 hbad⟩

/-! ## Signatures -/

section Signatures

variable (C : Crypto) (dalek : Bytes → Bytes → Bytes → Bool)

/-- The registry's library and the client's, `dalek`, give one answer on a signature. -/
def OneAnswer (publicKey message signature : Bytes) : Prop :=
  verifyStrict C publicKey message signature = verifySignature (C.withEd25519 dalek) publicKey message signature

variable {C dalek}

/-- One answer, said of refusals. -/
theorem oneAnswer_iff {publicKey message signature : Bytes} : OneAnswer C dalek publicKey message signature ↔
    (¬ verifyStrict C publicKey message signature = true ↔
      ¬ verifySignature (C.withEd25519 dalek) publicKey message signature = true) := by
  unfold OneAnswer
  rw [not_iff_not, Bool.eq_iff_iff]

/-- One library gives one answer, on keys of the right length. -/
theorem oneAnswer_self {publicKey message signature : Bytes} (h : publicKey.length = 32) :
    OneAnswer C C.ed25519Verify publicKey message signature := (verifySignature_eq h).symm

end Signatures

/-! ## Sums that do not overflow -/

theorem add_eq {a b : ℕ} (h : a + b < 2 ^ 64) : add a b = a + b := Nat.mod_eq_of_lt h

theorem saturatingAdd_lt {a b n : ℕ} (hn : n < maxU64) : saturatingAdd a b < n ↔ a + b < n := by
  unfold saturatingAdd
  omega

theorem lt_saturatingAdd {a b n : ℕ} (h : a + b ≤ maxU64) : n < saturatingAdd a b ↔ n < a + b := by
  unfold saturatingAdd
  omega

theorem maxSafeInteger_lt : maxSafeInteger + 2 ^ 32 < maxU64 := by decide

/-! ## The clock -/

/-- The two clocks give the same verdict on a time that is a safe integer. -/
theorem clockVerdict_same {notBefore now : ℕ} (h : notBefore ≤ maxSafeInteger) :
    (VayuWeb.clockVerdict notBefore now).map registryOutcome =
      (clockVerdict notBefore now).map clientOutcome := by
  have hsafe := maxSafeInteger_lt
  have hskew : notBefore > saturatingAdd now maxClockSkew ↔ notBefore > now + maxClockSkewSeconds :=
    saturatingAdd_lt (by omega)
  unfold VayuWeb.clockVerdict clockVerdict
  by_cases hahead : notBefore > now + maxClockSkewSeconds
  · rw [if_pos hahead, if_pos (hskew.2 hahead)]
    rfl
  · rw [if_neg hahead, if_neg fun h' => hahead (hskew.1 h')]
    have hback : (notBefore : ℤ) < now - maxBackdateSeconds ↔ notBefore < now - maxBackdate := by
      unfold maxBackdateSeconds maxBackdate
      omega
    by_cases hbehind : notBefore < now - maxBackdate
    · rw [if_pos hbehind, if_pos (hback.2 hbehind)]
      rfl
    · rw [if_neg hbehind, if_neg fun h' => hbehind (hback.1 h')]
      rfl

/-- The clock decides, or lets the rest decide, on both sides. -/
theorem clockVerdict_cases {notBefore : ℕ} (now : ℕ) (h : notBefore ≤ maxSafeInteger) :
    (VayuWeb.clockVerdict notBefore now = none ∧ clockVerdict notBefore now = none) ∨
      ∃ clock clock', VayuWeb.clockVerdict notBefore now = some clock ∧
        clockVerdict notBefore now = some clock' ∧ registryOutcome clock = clientOutcome clock' := by
  have hmap : (VayuWeb.clockVerdict notBefore now).map registryOutcome =
      (clockVerdict notBefore now).map clientOutcome := clockVerdict_same h
  cases hregistry : VayuWeb.clockVerdict notBefore now with
  | none =>
    rw [hregistry, Option.map_none, eq_comm, Option.map_eq_none_iff] at hmap
    exact Or.inl ⟨rfl, hmap⟩
  | some clock =>
    rw [hregistry, Option.map_some, eq_comm, Option.map_eq_some_iff] at hmap
    obtain ⟨clock', hclient, houtcome⟩ := hmap
    exact Or.inr ⟨clock, clock', rfl, hclient, houtcome.symm⟩

/-- The clock has codes of its own. -/
theorem clockVerdict_ne {notBefore now : ℕ} {code : VerifyRejection} {clock : Verdict}
    (h : clockVerdict notBefore now = some clock) (hcode : VerifyRejection.backdated ≠ code) :
    clientOutcome clock ≠ .reject code := by
  unfold clockVerdict at h
  split_ifs at h
  · rw [Option.some.injEq] at h
    rw [← h]
    simp [clientOutcome]
  · rw [Option.some.injEq] at h
    rw [← h, clientOutcome, ne_eq, Outcome.reject.injEq]
    exact hcode

/-! ## The predecessor -/

section Predecessors

variable {C : Crypto} {bytes : Bytes} {r : RegistryRecord} {signerKey : Option Bytes}
  {previous : VayuWeb.Predecessor} {prev : PrevView}

/-- The two views of one accepted record. -/
structure PrevAgrees (previous : VayuWeb.Predecessor) (prev : PrevView) : Prop where
  opText : prev.opText = previous.record.op.name
  seq : prev.seq = previous.record.seq
  notBefore : prev.notBefore = previous.record.notBefore
  notAfter : prev.notAfter = previous.record.notAfter
  ownerKey : prev.ownerKey = previous.record.ownerKey
  signerKey : previous.record.op = .transfer → prev.signerKey = previous.signerKey
  suite : prev.suite = previous.record.suite
  hash : prev.hash = previous.hash
  revoked : prev.revoked = false
  seq_le : previous.record.seq ≤ VayuWeb.maxSeq
  notBefore_le : previous.record.notBefore ≤ maxSafeInteger
  notAfter_le : previous.record.notAfter ≤ maxSafeInteger
  term : previous.record.notBefore ≤ previous.record.notAfter
  ownerKey_length : previous.record.ownerKey.length = 32
  signerKey_length : previous.record.op = .transfer → previous.signerKey.length = 32
  suite_eq : previous.record.suite = launchSuite

/-- The client's view of an admitted record. -/
theorem prevView_eq (h : admitBytes bytes = .ok r)
    (hprev : predecessorFrom C r bytes signerKey = .ok previous) :
    prevView C bytes signerKey =
      .ok { opText := r.op.name, seq := r.seq, notBefore := r.notBefore, notAfter := r.notAfter,
            ownerKey := r.ownerKey, signerKey := if r.op = .transfer then previous.signerKey else r.ownerKey,
            suite := r.suite, hash := recordHashFromBytes C bytes, revoked := false } := by
  obtain ⟨es, hes⟩ := admission_of_admit h
  have hp : Parsed es (recordOf es r) := parsed_recordOf hes
  have hkey : key32 (.bytes r.ownerKey) = .ok r.ownerKey := if_pos hp.ownerKey_length
  have hsuite : suiteByte r.suite = .ok r.suite := by
    have heq : r.suite = launchSuite := hp.suite_eq
    rw [heq]
    rfl
  -- the signer stored with a TRANSFER is its transferor, with anything else its own owner
  have hsigner : signerOf r.op.name r.ownerKey signerKey =
      .ok (if r.op = .transfer then previous.signerKey else r.ownerKey) := by
    unfold predecessorFrom at hprev
    unfold signerOf
    by_cases hop : r.op = .transfer
    · rw [if_pos (name_transfer.2 hop), if_pos hop]
      cases signerKey with
      | none => simp [hop] at hprev
      | some key =>
        rw [if_neg (by simp), Except.ok.injEq] at hprev
        rw [← hprev]
        rfl
    · rw [if_neg fun hname => hop (name_transfer.1 hname), if_neg hop]
  have hop : field es "op" = some (.text r.op.name) := hp.op
  have howner : field es "ownerKey" = some (.bytes r.ownerKey) := hp.ownerKey
  have hseq : field es "seq" = some (.uint r.seq) := hp.seq
  have hfrom : field es "notBefore" = some (.uint r.notBefore) := hp.notBefore
  have huntil : field es "notAfter" = some (.uint r.notAfter) := hp.notAfter
  have hnumber : field es "suite" = some (.uint r.suite) := hp.suite
  unfold prevView
  rw [decode_eq_ok.2 ⟨hes.canonical, hes.bytes⟩]
  simp only [prevUint, hop, howner, hseq, hfrom, huntil, hnumber, okOr, uint, asText, Option.bind_some,
    Except.ok_bind, hkey, hsuite, hsigner]
  rfl

/-- One accepted record, as each side took it from the bytes and the key that signed them. -/
def AcceptedAs (C : Crypto) (previous : VayuWeb.Predecessor) (prev : PrevView) : Prop :=
  ∃ bytes r signerKey, admitBytes bytes = .ok r ∧ (∀ key, signerKey = some key → key.length = 32) ∧
    predecessorFrom C r bytes signerKey = .ok previous ∧ prevView C bytes signerKey = .ok prev

/-- What the client keeps of an accepted predecessor agrees with what the registry keeps. -/
theorem prevAgrees_of_accepted (h : AcceptedAs C previous prev) : PrevAgrees previous prev := by
  obtain ⟨bytes, r, signerKey, hadm, hlen, hprevious, hprev⟩ := h
  obtain ⟨es, hes⟩ := admission_of_admit hadm
  rw [prevView_eq hadm hprevious, Except.ok.injEq] at hprev
  have hp := hes.parsed
  unfold predecessorFrom at hprevious
  split_ifs at hprevious with hnone
  rw [Except.ok.injEq] at hprevious
  subst hprev hprevious
  have hsafe : r.notAfter ≤ maxSafeInteger := (meets_recordOf hes).safe
  exact
    { opText := rfl, seq := rfl, notBefore := rfl, notAfter := rfl, ownerKey := rfl,
      signerKey := fun hop => if_pos hop, suite := rfl, hash := rfl, revoked := rfl, seq_le := hp.seq_le,
      notBefore_le := le_trans hp.term hsafe, notAfter_le := hsafe, term := hp.term,
      ownerKey_length := hp.ownerKey_length,
      signerKey_length := by
        intro hop
        cases signerKey with
        | none => exact absurd ⟨hop, rfl⟩ hnone
        | some key => exact hlen key rfl
      suite_eq := hp.suite_eq }

end Predecessors

/-! ## The record -/

/-- Both implementations admit these bytes, each as its own record. -/
structure BothAdmit (b : Bytes) (r : RegistryRecord) (p : ParsedRecord) : Prop where
  registry : admitBytes b = .ok r
  client : parseBytes b = .ok p

section Verdicts

variable {C : Crypto} {dalek : Bytes → Bytes → Bytes → Bool} {b input : Bytes} {r : RegistryRecord}
  {p : ParsedRecord} {es : Members}
  {state : RegistryView} {known : Known} {previous : VayuWeb.Predecessor} {prev : PrevView}
  {now windowCount : ℕ}

theorem BothAdmit.parsed (h : BothAdmit b r p) : Parsed p.map p := by
  obtain ⟨-, es, -, -, hp⟩ := parseBytes_eq_ok.1 h.client
  rw [hp.map]
  exact hp

theorem BothAdmit.meets_agrees (h : BothAdmit b r p) : MeetsRegistry p ∧ Agrees r p := by
  obtain ⟨p', hparse, hmeets, hagrees⟩ := parses_of_admits h.registry
  obtain rfl : p' = p := Except.ok.inj (hparse.symm.trans h.client)
  exact ⟨hmeets, hagrees⟩

/-- A record both admit is the same to both. -/
theorem BothAdmit.agrees (h : BothAdmit b r p) : Agrees r p := h.meets_agrees.2

/-- The map both records were read from. -/
theorem BothAdmit.admission (h : BothAdmit b r p) : Admission b r p.map := by
  obtain ⟨es, hes⟩ := admission_of_admit h.registry
  obtain ⟨-, fs, hc, hencoded, hp⟩ := parseBytes_eq_ok.1 h.client
  have heq := DetCbor.encode_append_inj hc hes.canonical (r := []) (s := [])
    (by rw [List.append_nil, List.append_nil, ← hencoded, ← hes.bytes])
  rw [hp.map, Value.map.inj heq.1]
  exact hes

theorem BothAdmit.notAfter_le (h : BothAdmit b r p) : p.notAfter ≤ maxSafeInteger := h.meets_agrees.1.safe

/-- A REGISTER and a RENEW carry a proof. -/
theorem BothAdmit.pow (h : BothAdmit b r p) :
    (p.powBits.isSome = true ↔ r.op = .register ∨ r.op = .renew) ∧
      (p.powNonce.isSome = true ↔ r.op = .register ∨ r.op = .renew) := by
  obtain ⟨pow, hpow, hbits, hnonce⟩ := h.parsed.pow
  obtain ⟨-, hcarries⟩ := parsePow_eq_ok.1 hpow
  rw [h.agrees.op, name_register, name_renew] at hcarries
  rw [hbits, hnonce, Option.isSome_map, Option.isSome_map]
  exact ⟨hcarries, hcarries⟩

theorem BothAdmit.powProof (h : BothAdmit b r p) : r.powProof.isSome = p.powBits.isSome := by
  rw [h.agrees.powBits, Option.isSome_map]

theorem BothAdmit.entryCount (h : BothAdmit b r p) : entryCount p.map = r.entries.length := by
  obtain ⟨entries, hrecords, hreads⟩ := h.agrees.entries
  unfold Client.entryCount
  rw [hrecords]
  exact hreads.length_eq

theorem BothAdmit.isZeroHash (h : BothAdmit b r p) :
    isZeroHash (field p.map "prevHash") = VayuWeb.isZeroHash r.prevHash := by
  have hlen : r.prevHash.length = 32 := h.admission.parsed.prevHash_length
  rw [h.agrees.prevHash, Bool.eq_iff_iff]
  simp only [Client.isZeroHash, VayuWeb.isZeroHash, VayuWeb.zeroHash, recordHashLength, List.all_eq_true,
    decide_eq_true_eq, List.eq_replicate_iff, hlen, true_and]

theorem BothAdmit.prevHashMatches (h : BothAdmit b r p) (expected : Bytes) :
    prevHashMatches p.map expected = decide (r.prevHash = expected) := by
  unfold Client.prevHashMatches
  rw [h.agrees.prevHash]

/-! ## Proof of work -/

/-- With text keys a proof of work is refused with one code alone. -/
theorem checkPow_eq_some {verdict : Verdict} (htext : TextKeys p.map) (hbits : p.powBits.isSome = true)
    (hnonce : p.powNonce.isSome = true) (h : checkPow C p windowCount = some verdict) :
    ∃ detail, verdict = .reject .badPow detail := by
  have hcore : coreOf p.map = .ok (signedPart p.map) := coreOf_eq_ok.2 ⟨htext, rfl⟩
  obtain ⟨bits, hb⟩ := Option.isSome_iff_exists.1 hbits
  obtain ⟨nonce, hn⟩ := Option.isSome_iff_exists.1 hnonce
  unfold checkPow at h
  simp only [hb, hn, hcore] at h
  split at h
  · rw [Option.some.injEq] at h
    exact ⟨_, h.symm⟩
  · split at h
    · rw [Option.some.injEq] at h
      exact ⟨_, h.symm⟩
    · split at h
      · rw [Option.some.injEq] at h
        exact ⟨_, h.symm⟩
      · simp at h

/-- A proof of work is no business of the Ed25519 library. -/
theorem powVerdict_withEd25519 :
    powVerdict (C.withEd25519 dalek) p known windowCount = powVerdict C p known windowCount := rfl

/-- The registry's proof of work and the client's. -/
theorem powVerified_cases (htext : TextKeys p.map) (hbits : p.powBits.isSome = true)
    (hnonce : p.powNonce.isSome = true)
    (h : state.powVerified r = .ok (known.powVerified || (checkPow C p windowCount).isNone)) :
    (state.powVerified r = .ok true ∧ powVerdict C p known windowCount = none) ∨
      (state.powVerified r = .ok false ∧
        ∃ detail, powVerdict C p known windowCount = some (.reject .badPow detail)) := by
  unfold powVerdict
  cases hknown : known.powVerified with
  | true =>
    left
    simp [h, hknown]
  | false =>
    cases hcheck : checkPow C p windowCount with
    | none =>
      left
      simp [h, hknown, hcheck]
    | some verdict =>
      obtain ⟨detail, rfl⟩ := checkPow_eq_some htext hbits hnonce hcheck
      right
      simp [h, hknown, hcheck]

/-! ## Registrations -/

/-- The verifiers come to the signature of a REGISTER: it opens a chain, on a name that nobody
holds, for one term. -/
structure RegisterAsks (r : RegistryRecord) (state : RegistryView) (now : ℕ) : Prop where
  seq : r.seq = 0
  prevHash : VayuWeb.isZeroHash r.prevHash = true
  free : isHeld (state.current r.name r.tld) state now = false
  term : r.notAfter = r.notBefore + VayuWeb.termSeconds

/-- **Two REGISTERs are decided alike** exactly when the two libraries are, if asked. -/
theorem same_register_iff (h : BothAdmit b r p) (htext : TextKeys p.map) (hop : r.op = .register)
    (hprevious : state.current r.name r.tld = none ∧ known.previous = none ∨
      ∃ previous prev, state.current r.name r.tld = some previous ∧ known.previous = some prev ∧
        known.fullyReleased = state.fullyReleased previous now)
    (hpow : state.powVerified r = .ok (known.powVerified || (checkPow C p windowCount).isNone)) :
    Same (VayuWeb.verifyRegister C r input (state.current r.name r.tld) state now false)
        (verifyRegister (C.withEd25519 dalek) p input known now windowCount) ↔
      (RegisterAsks r state now → OneAnswer C dalek r.ownerKey input r.sig) := by
  have hp := h.parsed
  have hr := h.agrees
  have hopens : (r.seq ≠ 0 ∨ ¬ VayuWeb.isZeroHash r.prevHash = true) ↔
      (p.seq ≠ 0 ∨ ¬ isZeroHash (field p.map "prevHash") = true) := by rw [hr.seq, h.isZeroHash]
  have hheld : isHeld (state.current r.name r.tld) state now = true ∧ ¬ false = true ↔
      known.previous.isSome = true ∧ ¬ known.fullyReleased = true := by
    rcases hprevious with ⟨hcurrent, hnone⟩ | ⟨previous, prev, hcurrent, hsome, hreleased⟩
    · simp [hcurrent, hnone, isHeld]
    · simp [hcurrent, hsome, isHeld, hreleased]
  have hterm : (r.notAfter : ℤ) - r.notBefore ≠ VayuWeb.termSeconds ↔
      p.notAfter - p.notBefore ≠ termSeconds := by
    have hle := hp.term
    rw [← hr.notAfter, ← hr.notBefore]
    simp only [termSeconds, VayuWeb.termSeconds]
    omega
  -- what comes after the signature is decided alike, and not for the signature
  have hasked : ∀ {x y}, Same x y → clientOutcome y ≠ .reject .badSig →
      ((¬ (r.seq ≠ 0 ∨ ¬ VayuWeb.isZeroHash r.prevHash = true) →
        ¬ (isHeld (state.current r.name r.tld) state now = true ∧ ¬ false = true) →
          ¬ (r.notAfter : ℤ) - r.notBefore ≠ VayuWeb.termSeconds →
            Same (if ¬ verifyStrict C r.ownerKey input r.sig = true then
                .ok (.reject .badSig "signature does not verify under ownerKey") else x)
              (if ¬ verifySignature (C.withEd25519 dalek) r.ownerKey input r.sig = true then
                .reject .badSig "signature does not verify under ownerKey" else y)) ↔
        (RegisterAsks r state now → OneAnswer C dalek r.ownerKey input r.sig)) := by
    intro x y hrest hcode
    rw [same_check_iff (hrest.avoids hcode), ← oneAnswer_iff]
    constructor
    · intro hsame hasks
      have hopens' : ¬ (r.seq ≠ 0 ∨ ¬ VayuWeb.isZeroHash r.prevHash = true) := by
        rw [not_or, not_not, not_not]
        exact ⟨hasks.seq, hasks.prevHash⟩
      have hheld' : ¬ (isHeld (state.current r.name r.tld) state now = true ∧ ¬ false = true) := by
        rw [hasks.free]
        simp
      have hterm' : ¬ (r.notAfter : ℤ) - r.notBefore ≠ VayuWeb.termSeconds := by
        rw [hasks.term]
        push_cast
        omega
      exact (hsame hopens' hheld' hterm').1
    · intro hone hopens' hheld' hterm'
      rw [not_or, not_not, not_not] at hopens'
      refine ⟨hone ⟨hopens'.1, hopens'.2, ?_, ?_⟩, fun _ => hrest⟩
      · simpa using hheld'
      · omega
  unfold VayuWeb.verifyRegister verifyRegister
  rw [same_refuse_iff hopens, same_refuse_iff hheld, same_refuse_iff hterm, powVerdict_withEd25519, hr.ownerKey,
    hr.sig]
  rcases powVerified_cases htext (h.pow.1.2 (Or.inl hop)) (h.pow.2.2 (Or.inl hop)) hpow with
    ⟨hregistry, hclient⟩ | ⟨hregistry, detail, hclient⟩
  · rw [hregistry, hclient]
    have hsafe : r.notBefore ≤ maxSafeInteger := by
      rw [← hr.notBefore]
      exact le_trans hp.term h.notAfter_le
    rw [hr.notBefore]
    rcases clockVerdict_cases now hsafe with
      ⟨hnone, hnone'⟩ | ⟨clock, clock', hclock, hclock', houtcome⟩
    · simp only [hnone, hnone']
      exact hasked same_accept (by simp [clientOutcome])
    · simp only [hclock, hclock']
      exact hasked ⟨clock, rfl, houtcome⟩ (clockVerdict_ne hclock' (by decide))
  · rw [hregistry, hclient]
    exact hasked ⟨_, rfl, rfl⟩ (by simp [clientOutcome])

/-! ## Successors -/

/-- The verifiers come to the countersignature of a TRANSFER: it names another owner, keeps the term
and leaves enough of it to settle in. -/
structure CoSigAsks (r prev : RegistryRecord) : Prop where
  transfer : r.op = .transfer
  newOwner : r.ownerKey ≠ prev.ownerKey
  keeps : r.notAfter = prev.notAfter
  settles : r.notBefore + VayuWeb.settlementSeconds ≤ r.notAfter

/-- **Operations are decided alike** exactly when the two libraries are on a countersignature, if
asked. -/
theorem same_operation_iff (h : BothAdmit b r p) (htext : TextKeys p.map) (hop : r.op ≠ .register)
    (hprev : PrevAgrees previous prev)
    (hpow : state.powVerified r = .ok (known.powVerified || (checkPow C p windowCount).isNone)) :
    Same (VayuWeb.verifyOperation C r previous.record input state)
        (verifyOperation (C.withEd25519 dalek) p prev input known windowCount) ↔
      (CoSigAsks r previous.record → ∀ coSig, r.coSig = some coSig → OneAnswer C dalek r.ownerKey input coSig) := by
  have hp := h.parsed
  have hr := h.agrees
  have hterm := hp.term
  rw [hr.notAfter, hr.notBefore] at hterm
  have huntil := hprev.notAfter_le
  have hsafe := h.notAfter_le
  rw [hr.notAfter] at hsafe
  have hmax : maxSafeInteger + 2 ^ 32 < maxU64 := maxSafeInteger_lt
  have hkeep : r.notAfter ≠ previous.record.notAfter ↔ p.notAfter ≠ prev.notAfter := by
    rw [hr.notAfter, hprev.notAfter]
  have hempty : r.entries.length ≠ 0 ↔ entryCount p.map ≠ 0 := by rw [h.entryCount]
  -- but for a TRANSFER nothing is asked of the libraries
  have hnone : ∀ {x y}, r.op ≠ .transfer → Same x y → (Same x y ↔ (CoSigAsks r previous.record →
      ∀ coSig, r.coSig = some coSig → OneAnswer C dalek r.ownerKey input coSig)) :=
    fun hnot hsame => iff_of_true hsame fun hasks => absurd hasks.transfer hnot
  unfold VayuWeb.verifyOperation verifyOperation
  rw [hr.op]
  cases hcase : r.op with
  | register => exact absurd hcase hop
  | update =>
    simp only [Operation.name, String.reduceEq, reduceIte]
    apply hnone (by rw [hcase]; decide)
    apply same_refuse hkeep
    intro _
    exact same_accept
  | renew =>
    simp only [Operation.name, String.reduceEq, reduceIte]
    apply hnone (by rw [hcase]; decide)
    apply same_refuse
    · rw [← Option.not_isSome, ← Option.not_isSome, h.powProof]
    intro _
    apply same_refuse
    · rw [hr.notBefore, hprev.notAfter]
      simp only [renewalWindowSeconds, VayuWeb.renewalWindowSeconds]
      omega
    intro _
    have hbase : max previous.record.notAfter r.notBefore + termSeconds < 2 ^ 64 := by
      simp only [termSeconds, maxU64] at hmax ⊢
      omega
    apply same_refuse
    · rw [hr.notAfter, hr.notBefore, hprev.notAfter, add_eq hbase]
      rfl
    intro _
    rw [powVerdict_withEd25519]
    rcases powVerified_cases htext (h.pow.1.2 (Or.inr hcase)) (h.pow.2.2 (Or.inr hcase)) hpow with
      ⟨hregistry, hclient⟩ | ⟨hregistry, detail, hclient⟩
    · rw [hregistry, hclient]
      exact same_accept
    · rw [hregistry, hclient]
      exact ⟨_, rfl, rfl⟩
  | transfer =>
    simp only [Operation.name, String.reduceEq, reduceIte]
    have howner : r.ownerKey = previous.record.ownerKey ↔ p.ownerKey = prev.ownerKey := by
      rw [hr.ownerKey, hprev.ownerKey]
    have hremains : (r.notAfter : ℤ) - r.notBefore < VayuWeb.settlementSeconds ↔
        p.notAfter - p.notBefore < settlementSeconds := by
      rw [hr.notAfter, hr.notBefore]
      simp only [settlementSeconds, VayuWeb.settlementSeconds]
      omega
    have hasks : CoSigAsks r previous.record ↔ ¬ r.ownerKey = previous.record.ownerKey ∧
        ¬ r.notAfter ≠ previous.record.notAfter ∧
          ¬ (r.notAfter : ℤ) - r.notBefore < VayuWeb.settlementSeconds := by
      rw [not_not]
      constructor
      · intro hall
        have hsettles := hall.settles
        exact ⟨hall.newOwner, hall.keeps, by omega⟩
      · rintro ⟨hnew, hkeeps, hsettles⟩
        exact ⟨hcase, hnew, hkeeps, by omega⟩
    rw [same_refuse_iff howner, same_refuse_iff hkeep, same_refuse_iff hremains, hr.coSig, hasks, and_imp, and_imp,
      hr.ownerKey]
    refine forall_congr' fun _ => forall_congr' fun _ => forall_congr' fun _ => ?_
    cases r.coSig with
    | none => exact iff_of_true ⟨_, rfl, rfl⟩ (by simp)
    | some coSig =>
      dsimp only
      rw [same_check_iff (same_accept.avoids (by simp [clientOutcome])), ← oneAnswer_iff]
      constructor
      · rintro ⟨hone, -⟩ coSig' hsome
        rw [← Option.some.inj hsome]
        exact hone
      · intro hone
        exact ⟨hone coSig rfl, fun _ => same_accept⟩
  | relinquish =>
    simp only [Operation.name, String.reduceEq, reduceIte]
    apply hnone (by rw [hcase]; decide)
    apply same_refuse hempty
    intro _
    apply same_refuse
    · rw [hr.notAfter, hr.notBefore]
    intro _
    exact same_accept
  | revoke =>
    simp only [Operation.name, String.reduceEq, reduceIte]
    apply hnone (by rw [hcase]; decide)
    apply same_refuse hempty
    intro _
    apply same_refuse hkeep
    intro _
    exact same_accept

/-- The client's operations have the registry's codes. -/
theorem verifyOperation_ne {code : VerifyRejection} (h : BothAdmit b r p) (htext : TextKeys p.map)
    (hcode : code ∉ operationCodes) :
    clientOutcome (verifyOperation C p prev input known windowCount) ≠ .reject code := by
  have hrefuse : ∀ {code' : VerifyRejection} {detail : String}, code' ∈ operationCodes →
      clientOutcome (.reject code' detail) ≠ .reject code := by
    intro code' detail hmem heq
    rw [clientOutcome, Outcome.reject.injEq] at heq
    exact hcode (heq ▸ hmem)
  have haccept : clientOutcome .accept ≠ .reject code := by simp [clientOutcome]
  unfold verifyOperation
  split_ifs with _ _ hrenew
  any_goals exact haccept
  any_goals exact hrefuse (by decide)
  · -- past its own rules a RENEW is refused for its proof of work
    have hop : r.op = .renew := name_renew.1 (h.agrees.op ▸ hrenew)
    dsimp only
    split_ifs
    · exact hrefuse (by decide)
    · split
      · rename_i verdict hverdict
        unfold powVerdict at hverdict
        split_ifs at hverdict
        obtain ⟨detail, rfl⟩ :=
          checkPow_eq_some htext (h.pow.1.2 (Or.inr hop)) (h.pow.2.2 (Or.inr hop)) hverdict
        exact hrefuse (by decide)
      · exact haccept
  · -- and a TRANSFER for its countersignature
    split
    · exact hrefuse (by decide)
    · split_ifs
      · exact haccept
      · exact hrefuse (by decide)

/-- The rules of an operation use codes of their own. -/
theorem operation_avoids {code : VerifyRejection} (h : BothAdmit b r p) (htext : TextKeys p.map)
    (hcode : code ∉ operationCodes) :
    Avoids code (VayuWeb.verifyOperation C r previous.record input state)
      (verifyOperation (C.withEd25519 dalek) p prev input known windowCount) := by
  refine ⟨?_, verifyOperation_ne h htext hcode⟩
  intro verdict hverdict heq
  cases verdict with
  | accept => simp [registryOutcome] at heq
  | defer => simp [registryOutcome] at heq
  | reject code' detail =>
    rw [registryOutcome, Outcome.reject.injEq] at heq
    rw [heq] at hverdict
    exact hcode (verifyOperation_code hverdict)

/-- A RENEW after a RELINQUISH, at an instant that would be grace after any other record. -/
structure RenewsRelinquished (r : RegistryRecord) (previous : VayuWeb.Predecessor) (now : ℕ) : Prop where
  renews : r.op = .renew
  relinquished : previous.record.op = .relinquish
  seq : r.seq = previous.record.seq + 1
  prevHash : r.prevHash = previous.hash
  interval : previous.record.notBefore + VayuWeb.minIntervalSeconds ≤ r.notBefore
  ended : previous.record.notAfter ≤ now
  grace : now < previous.record.notAfter + VayuWeb.graceSeconds

/-- Elsewhere the two liveness rules are one. -/
theorem acceptsSuccessor_eq (hprev : PrevAgrees previous prev) (hlive : previous.record.op ≠ .revoke)
    (hrenew : r.op = .renew → previous.record.op = .relinquish → previous.record.notAfter ≤ now →
      ¬ now < previous.record.notAfter + VayuWeb.graceSeconds) :
    VayuWeb.acceptsSuccessor previous.record now r.op = acceptsSuccessor prev now r.op.name := by
  have hterm := hprev.term
  have hmax : maxSafeInteger + 2 ^ 32 < maxU64 := maxSafeInteger_lt
  have huntil := hprev.notAfter_le
  have hgrace : now < saturatingAdd prev.notAfter graceSeconds ↔
      now < previous.record.notAfter + VayuWeb.graceSeconds := by
    rw [hprev.notAfter]
    apply lt_saturatingAdd
    simp only [graceSeconds]
    omega
  have hdecide : decide (now < saturatingAdd prev.notAfter graceSeconds) =
      decide (now < previous.record.notAfter + VayuWeb.graceSeconds) := decide_eq_decide.2 hgrace
  have hname : prev.opText = "REVOKE" ↔ previous.record.op = .revoke := by
    rw [hprev.opText]
    exact (name_inj : _ ↔ previous.record.op = .revoke)
  have hrevoked : ¬ prev.opText = "REVOKE" := fun h => hlive (hname.1 h)
  unfold VayuWeb.acceptsSuccessor acceptsSuccessor
  dsimp only
  by_cases hop : r.op = .renew
  · -- a RENEW is answered through grace, which a RELINQUISH has not on the registry's side
    rw [if_pos (name_renew.2 hop), if_pos hop, hdecide, hprev.notBefore]
    have hlate := hrenew hop
    cases hcase : previous.record.op with
    | revoke => exact absurd hcase hlive
    | relinquish =>
      have hlate' := hlate hcase
      simp only [lifecycleOf, hcase, Bool.false_eq_true, if_false]
      split_ifs
      · rfl
      · rw [decide_eq_decide]
        omega
    | _ => simp only [lifecycleOf, hcase, Bool.false_eq_true, if_false]
  -- the other operations end with the term on both sides
  · rw [if_neg fun h => hop (name_renew.1 h), if_neg hop, if_neg hrevoked, hprev.notBefore, hprev.notAfter]
    cases hcase : previous.record.op with
    | revoke => exact absurd hcase hlive
    | _ => simp only [lifecycleOf, hcase, Bool.false_eq_true, if_false]

/-- Both programs see the same records as unsettled. -/
theorem isUnsettled_eq (hr : Agrees r p) (hprev : PrevAgrees previous prev) :
    VayuWeb.isUnsettled r previous.record = isUnsettled p prev := by
  have hmax : maxSafeInteger + 2 ^ 32 < maxU64 := maxSafeInteger_lt
  have hfrom := hprev.notBefore_le
  have hsum : previous.record.notBefore + settlementSeconds < 2 ^ 64 := by
    simp only [settlementSeconds, maxU64] at hmax ⊢
    omega
  have hname : prev.opText = "TRANSFER" ↔ previous.record.op = .transfer := by
    rw [hprev.opText, name_transfer]
  have hname' : p.op = "TRANSFER" ↔ r.op = .transfer := by rw [hr.op, name_transfer]
  unfold VayuWeb.isUnsettled isUnsettled settlesAt
  by_cases hop : previous.record.op = .transfer
  · rw [if_pos (hname.2 hop), hr.notBefore, hprev.notBefore, add_eq hsum]
    simp only [hop, decide_true, Bool.true_and, ne_eq, hname']
    rfl
  · rw [if_neg fun h => hop (hname.1 h)]
    simp [hop]

/-- The key both verifiers expect a successor to be signed by. -/
theorem controllingKey_eq (hprev : PrevAgrees previous prev) (at_ : ℕ) :
    controllingKey prev at_ = VayuWeb.controllingKey previous at_ ∧
      (VayuWeb.controllingKey previous at_).length = 32 := by
  have hmax : maxSafeInteger + 2 ^ 32 < maxU64 := maxSafeInteger_lt
  have hfrom := hprev.notBefore_le
  have hsum : previous.record.notBefore + settlementSeconds < 2 ^ 64 := by
    simp only [settlementSeconds, maxU64] at hmax ⊢
    omega
  have hname : prev.opText = "TRANSFER" ↔ previous.record.op = .transfer := by
    rw [hprev.opText, name_transfer]
  -- within the 2^64 that a term leaves free, the client's wrapping sum is the plain one
  have hpending : (prev.opText = "TRANSFER" ∧ at_ < add prev.notBefore settlementSeconds) ↔
      previous.record.op = .transfer ∧ at_ < previous.record.notBefore + VayuWeb.settlementSeconds := by
    rw [hname, hprev.notBefore, add_eq hsum]
    rfl
  unfold controllingKey VayuWeb.controllingKey
  by_cases h : previous.record.op = .transfer ∧
      at_ < previous.record.notBefore + VayuWeb.settlementSeconds
  · rw [if_pos (hpending.2 h)]
    dsimp only
    rw [if_pos h]
    exact ⟨hprev.signerKey h.1, hprev.signerKey_length h.1⟩
  · rw [if_neg fun h' => h (hpending.1 h')]
    dsimp only
    rw [if_neg h]
    exact ⟨hprev.ownerKey, hprev.ownerKey_length⟩

/-- The verifiers come to the owner's signature of a successor: it follows, in its turn, on a name
that is live for it. -/
structure SuccessorAsks (r : RegistryRecord) (previous : VayuWeb.Predecessor) (state : RegistryView) (now : ℕ) :
    Prop where
  seq : r.seq = previous.record.seq + 1
  prevHash : r.prevHash = previous.hash
  interval : previous.record.notBefore + VayuWeb.minIntervalSeconds ≤ r.notBefore
  isOpen : state.revoked r.name r.tld = false
  live : VayuWeb.acceptsSuccessor previous.record now r.op = true
  settled : VayuWeb.isUnsettled r previous.record = false

/-- What the two libraries have to agree on of a successor: its owner's signature, and where that
holds, and the clock and the other rules let it pass, the countersignature of a TRANSFER. -/
structure SuccessorSigned (C : Crypto) (dalek : Bytes → Bytes → Bytes → Bool) (r : RegistryRecord) (input : Bytes)
    (previous : VayuWeb.Predecessor) (now : ℕ) : Prop where
  sig : OneAnswer C dalek (VayuWeb.controllingKey previous r.notBefore) input r.sig
  coSig : verifyStrict C (VayuWeb.controllingKey previous r.notBefore) input r.sig = true →
    VayuWeb.clockVerdict r.notBefore now = none → CoSigAsks r previous.record →
      ∀ coSig, r.coSig = some coSig → OneAnswer C dalek r.ownerKey input coSig

/-- **Two successors are decided alike** exactly when the two libraries are on its signatures, if
asked. -/
theorem same_successor_iff (h : BothAdmit b r p) (htext : TextKeys p.map) (hop : r.op ≠ .register)
    (hcurrent : known.previous = some prev) (hprev : PrevAgrees previous prev)
    (hrevoked : known.revoked = state.revoked r.name r.tld)
    (hlive : previous.record.op = .revoke → state.revoked r.name r.tld = true)
    (hpow : state.powVerified r = .ok (known.powVerified || (checkPow C p windowCount).isNone))
    (hrenew : state.revoked r.name r.tld = false → ¬ RenewsRelinquished r previous now) :
    Same (VayuWeb.verifySuccessor C r input (some previous) state now)
        (verifySuccessor (C.withEd25519 dalek) p input known now windowCount) ↔
      (SuccessorAsks r previous state now → SuccessorSigned C dalek r input previous now) := by
  have hp := h.parsed
  have hr := h.agrees
  have hmax : maxSafeInteger + 2 ^ 32 < maxU64 := maxSafeInteger_lt
  have hseq := hprev.seq_le
  have hfrom := hprev.notBefore_le
  have hnext : previous.record.seq + 1 < 2 ^ 64 := by
    simp only [VayuWeb.maxSeq] at hseq
    omega
  have hinterval : previous.record.notBefore + minIntervalSeconds < 2 ^ 64 := by
    simp only [minIntervalSeconds, maxU64] at hmax ⊢
    omega
  have hsafe : r.notBefore ≤ maxSafeInteger := by
    rw [← hr.notBefore]
    exact le_trans hp.term h.notAfter_le
  obtain ⟨hkey, hlength⟩ := controllingKey_eq hprev r.notBefore
  have hbadSeq : r.seq ≠ previous.record.seq + 1 ↔ p.seq ≠ add prev.seq 1 := by
    rw [hr.seq, hprev.seq, add_eq hnext]
  have hbadChain : r.prevHash ≠ previous.hash ↔ ¬ prevHashMatches p.map prev.hash = true := by
    rw [h.prevHashMatches, hprev.hash, decide_eq_true_eq]
  have hearly : r.notBefore < previous.record.notBefore + VayuWeb.minIntervalSeconds ↔
      p.notBefore < add prev.notBefore minIntervalSeconds := by
    rw [hr.notBefore, hprev.notBefore, add_eq hinterval]
    rfl
  have hsuite : r.suite < previous.record.suite ↔ p.suite < prev.suite := by rw [hr.suite, hprev.suite]
  have hsuite' : ¬ r.suite < previous.record.suite := by
    rw [← hr.suite, hp.suite_eq, hprev.suite_eq]
    exact Nat.lt_irrefl _
  have hclosed : state.revoked r.name r.tld = true ↔ known.revoked = true ∨ prev.revoked = true := by
    rw [hrevoked, hprev.revoked]
    simp
  have hunsettled : VayuWeb.isUnsettled r previous.record = true ↔ isUnsettled p prev = true := by
    rw [isUnsettled_eq hr hprev]
  -- where the rules before it are met, liveness is one rule
  have haccepts : ¬ r.seq ≠ previous.record.seq + 1 → ¬ r.prevHash ≠ previous.hash →
      ¬ r.notBefore < previous.record.notBefore + VayuWeb.minIntervalSeconds →
        ¬ state.revoked r.name r.tld = true →
          (¬ VayuWeb.acceptsSuccessor previous.record now r.op = true ↔ ¬ acceptsSuccessor prev now p.op = true) := by
    intro hseq' hchain hgap hopen
    rw [Bool.not_eq_true] at hopen
    have hnot : previous.record.op ≠ .revoke := by
      intro hrevoke
      rw [hlive hrevoke] at hopen
      simp at hopen
    have heq : VayuWeb.acceptsSuccessor previous.record now r.op = acceptsSuccessor prev now r.op.name := by
      apply acceptsSuccessor_eq hprev hnot
      intro hrenews hrelinquished hended hgrace
      exact hrenew hopen
        { renews := hrenews, relinquished := hrelinquished, seq := not_not.1 hseq', prevHash := not_not.1 hchain,
          interval := Nat.le_of_not_lt hgap, ended := hended, grace := hgrace }
    rw [heq, hr.op]
  -- after the signature: the clock, the owner, the proof of work, the operation
  have hsigned : ∀ {x y}, Avoids .badSig x y →
      (Same x y ↔ (VayuWeb.clockVerdict r.notBefore now = none → CoSigAsks r previous.record →
        ∀ coSig, r.coSig = some coSig → OneAnswer C dalek r.ownerKey input coSig)) →
      (Same (if ¬ verifyStrict C (VayuWeb.controllingKey previous r.notBefore) input r.sig = true then
            .ok (.reject .badSig "signature does not verify under the controlling key") else x)
          (if ¬ verifySignature (C.withEd25519 dalek) (VayuWeb.controllingKey previous r.notBefore) input r.sig = true
            then .reject .badSig "signature does not verify under the controlling key" else y) ↔
        SuccessorSigned C dalek r input previous now) := by
    intro x y havoids hrest
    rw [same_check_iff havoids, ← oneAnswer_iff, not_not, hrest]
    exact ⟨fun hboth => ⟨hboth.1, hboth.2⟩, fun hboth => ⟨hboth.sig, hboth.coSig⟩⟩
  have hasks : SuccessorAsks r previous state now ↔ ¬ r.seq ≠ previous.record.seq + 1 ∧
      ¬ r.prevHash ≠ previous.hash ∧
      ¬ r.notBefore < previous.record.notBefore + VayuWeb.minIntervalSeconds ∧
      ¬ r.suite < previous.record.suite ∧ ¬ state.revoked r.name r.tld = true ∧
      ¬ ¬ VayuWeb.acceptsSuccessor previous.record now r.op = true ∧
      ¬ VayuWeb.isUnsettled r previous.record = true := by
    rw [not_not, not_not, not_not, Bool.not_eq_true, Bool.not_eq_true]
    constructor
    · intro hall
      exact ⟨hall.seq, hall.prevHash, Nat.not_lt.2 hall.interval, hsuite', hall.isOpen, hall.live, hall.settled⟩
    · rintro ⟨hfollows, hchain, hgap, -, hopen, haccepted, hsettled⟩
      exact ⟨hfollows, hchain, Nat.le_of_not_lt hgap, hopen, haccepted, hsettled⟩
  unfold VayuWeb.verifySuccessor verifySuccessor
  rw [hcurrent]
  dsimp only
  rw [same_refuse_iff hbadSeq, same_refuse_iff hbadChain, same_refuse_iff hearly, same_refuse_iff hsuite,
    same_refuse_iff hclosed, hasks]
  simp only [and_imp]
  refine imp_congr_right fun hfollows => imp_congr_right fun hchain => imp_congr_right fun hgap =>
    imp_congr_right fun _ => imp_congr_right fun hopen => ?_
  rw [same_refuse_iff (haccepts hfollows hchain hgap hopen), same_refuse_iff hunsettled]
  refine imp_congr_right fun _ => imp_congr_right fun _ => ?_
  rw [hr.notBefore, hkey, hr.sig]
  rcases clockVerdict_cases now hsafe with ⟨hnone, hnone'⟩ | ⟨clock, clock', hclock, hclock', houtcome⟩
  · have howner : r.op ≠ .transfer ∧ r.ownerKey ≠ previous.record.ownerKey ↔
        p.op ≠ "TRANSFER" ∧ p.ownerKey ≠ prev.ownerKey := by
      simp only [hr.op, hr.ownerKey, hprev.ownerKey, ne_eq, name_transfer]
    have hunpaid : r.op ≠ .renew ∧ r.powProof.isSome = true ↔ p.op ≠ "RENEW" ∧ p.powBits.isSome = true := by
      simp only [h.powProof, hr.op, ne_eq, name_renew]
    simp only [hnone, hnone']
    apply hsigned
    · apply avoids_refuse (by decide)
      apply avoids_refuse (by decide)
      exact operation_avoids h htext (by decide)
    · rw [same_refuse_iff howner, same_refuse_iff hunpaid, same_operation_iff h htext hop hprev hpow]
      constructor
      · intro hrest _ hall
        -- a TRANSFER may change the owner, and carries no proof of work
        have hpow' : ¬ (r.op ≠ .renew ∧ r.powProof.isSome = true) := by
          rw [h.powProof, h.pow.1, hall.transfer]
          simp
        exact hrest (fun hbad => hbad.1 hall.transfer) hpow' hall
      · intro hrest _ _
        exact hrest hnone
  · simp only [hclock, hclock']
    have hsame : Same (.ok clock) clock' := ⟨clock, rfl, houtcome⟩
    apply hsigned
    · exact hsame.avoids (clockVerdict_ne hclock' (by decide))
    · exact iff_of_true hsame fun hnot => absurd (hclock.symm.trans hnot) (by simp)

/-- The registry refuses such a RENEW as expired. -/
theorem successor_expired {verdict : VayuWeb.Verdict} (hopen : state.revoked r.name r.tld = false)
    (hrenews : RenewsRelinquished r previous now) (h : BothAdmit b r p) (hprev : PrevAgrees previous prev)
    (hv : VayuWeb.verifySuccessor C r input (some previous) state now = .ok verdict) :
    registryOutcome verdict = .reject .expired := by
  have hended := hrenews.ended
  have hsuite : ¬ r.suite < previous.record.suite := by
    rw [← h.agrees.suite, h.parsed.suite_eq, hprev.suite_eq]
    exact Nat.lt_irrefl _
  have hlive : VayuWeb.acceptsSuccessor previous.record now r.op = false := by
    simp only [VayuWeb.acceptsSuccessor, lifecycleOf, hrenews.renews, hrenews.relinquished, if_true,
      Bool.false_eq_true, if_false]
    split_ifs
    · rfl
    · rw [decide_eq_false_iff_not]
      omega
  unfold VayuWeb.verifySuccessor at hv
  dsimp only at hv
  rw [if_neg (not_not.2 hrenews.seq), if_neg (not_not.2 hrenews.prevHash),
    if_neg (Nat.not_lt.2 hrenews.interval), if_neg hsuite, if_neg (by simp [hopen]),
    if_pos (by simp [hlive]), Except.ok.injEq] at hv
  rw [← hv]
  rfl

/-- Past the liveness rule the client refuses no RENEW as expired. -/
theorem successor_ne_expired (h : BothAdmit b r p) (htext : TextKeys p.map) (hcurrent : known.previous = some prev)
    (hprev : PrevAgrees previous prev) (hrevoked : known.revoked = false)
    (hrenews : RenewsRelinquished r previous now) :
    clientOutcome (verifySuccessor C p input known now windowCount) ≠ .reject .expired := by
  have hr := h.agrees
  have hmax : maxSafeInteger + 2 ^ 32 < maxU64 := maxSafeInteger_lt
  have hseq := hprev.seq_le
  have hfrom := hprev.notBefore_le
  have huntil := hprev.notAfter_le
  have hterm := hprev.term
  have hname : p.op = "RENEW" := by rw [hr.op, name_renew]; exact hrenews.renews
  have hnext : previous.record.seq + 1 < 2 ^ 64 := by
    simp only [VayuWeb.maxSeq] at hseq
    omega
  have hinterval : previous.record.notBefore + minIntervalSeconds < 2 ^ 64 := by
    simp only [minIntervalSeconds, maxU64] at hmax ⊢
    omega
  -- the rules before liveness are met, and liveness is
  have hseq' : ¬ p.seq ≠ add prev.seq 1 := by
    rw [hr.seq, hprev.seq, add_eq hnext]
    exact not_not.2 hrenews.seq
  have hchain : ¬ ¬ prevHashMatches p.map prev.hash = true := by
    rw [h.prevHashMatches, hprev.hash]
    simpa using hrenews.prevHash
  have hgap : ¬ p.notBefore < add prev.notBefore minIntervalSeconds := by
    have hle := hrenews.interval
    rw [hr.notBefore, hprev.notBefore, add_eq hinterval]
    exact Nat.not_lt.2 hle
  have hsuite : ¬ p.suite < prev.suite := by
    rw [h.parsed.suite_eq, hprev.suite, hprev.suite_eq]
    exact Nat.lt_irrefl _
  have hopen : ¬ (known.revoked = true ∨ prev.revoked = true) := by
    rw [hrevoked, hprev.revoked]
    simp
  have hlive : ¬ ¬ acceptsSuccessor prev now p.op = true := by
    have hended := hrenews.ended
    have hgrace := hrenews.grace
    have hsum : now < saturatingAdd prev.notAfter graceSeconds := by
      rw [lt_saturatingAdd]
      · rw [hprev.notAfter]
        exact hgrace
      · rw [hprev.notAfter]
        simp only [graceSeconds]
        omega
    unfold acceptsSuccessor
    dsimp only
    rw [if_neg, if_pos hname, decide_eq_true_eq]
    · exact not_not.2 hsum
    · rw [hprev.notBefore]
      omega
  unfold verifySuccessor
  rw [hcurrent]
  dsimp only
  rw [if_neg hseq', if_neg hchain, if_neg hgap, if_neg hsuite, if_neg hopen, if_neg hlive]
  split
  · simp [clientOutcome]
  split
  · simp [clientOutcome]
  split
  · rename_i clock hclock
    exact clockVerdict_ne hclock (by decide)
  split
  · simp [clientOutcome]
  split
  · simp [clientOutcome]
  exact verifyOperation_ne h htext (by decide)

/-! ## The two verdicts -/

theorem textKeys_iff (hr : Agrees r p) : TextKeys p.map ↔ ∀ e ∈ r.map, ∃ s, e.1 = .text s := by
  rw [hr.map, List.forall_mem_map]
  rfl

/-- What the two verifiers know of the record's name is the same, and consistent. -/
structure SameLog (C : Crypto) (r : RegistryRecord) (p : ParsedRecord) (state : RegistryView) (known : Known)
    (now windowCount : ℕ) : Prop where
  previous : (state.current r.name r.tld = none ∧ known.previous = none) ∨
    ∃ previous prev, state.current r.name r.tld = some previous ∧ known.previous = some prev ∧
      AcceptedAs C previous prev ∧ known.fullyReleased = state.fullyReleased previous now ∧
      (previous.record.op = .revoke → state.revoked r.name r.tld = true)
  revoked : known.revoked = state.revoked r.name r.tld
  pow : state.powVerified r = .ok (known.powVerified || (checkPow C p windowCount).isNone)

/-- Without text keys the client finds no core to verify. -/
theorem judge_byteKey (htext : ¬ TextKeys p.map) :
    clientOutcome (judge C p known now windowCount) = .reject .nonCanonical := by
  unfold judge
  cases hcore : coreOf p.map with
  | error e => rfl
  | ok core => exact absurd (coreOf_eq_ok.1 hcore).1 htext

/-- The client's verdict on a parsed record, by its operation. -/
theorem judge_textKeys (h : BothAdmit b r p) (htext : TextKeys p.map) :
    judge C p known now windowCount =
      if p.op = "REGISTER" then verifyRegister C p (messageOf p.map) known now windowCount
      else verifySuccessor C p (messageOf p.map) known now windowCount := by
  unfold judge
  rw [coreOf_eq_ok.2 ⟨htext, rfl⟩]
  dsimp only
  rw [encodeCore_signedPart h.admission.canonical htext]
  dsimp only
  rw [h.parsed.suite_eq]
  rfl

/-- The registry's verdict on an admitted record, by its operation. -/
theorem judge_registry (h : BothAdmit b r p) :
    VayuWeb.judge C r state now false =
      if r.op = .register then
        VayuWeb.verifyRegister C r (messageOf p.map) (state.current r.name r.tld) state now false
      else VayuWeb.verifySuccessor C r (messageOf p.map) (state.current r.name r.tld) state now := by
  unfold VayuWeb.judge
  rw [registry_signingInput h.admission]
  rfl

/-- The registry's verdict on an admitted record is never that its bytes are not canonical. -/
theorem judge_ne_nonCanonical (h : BothAdmit b r p) {verdict : VayuWeb.Verdict}
    (hv : VayuWeb.judge C r state now false = .ok verdict) :
    registryOutcome verdict ≠ .reject .nonCanonical := by
  rw [judge_registry h] at hv
  cases verdict with
  | accept => simp [registryOutcome]
  | defer => simp [registryOutcome]
  | reject code detail =>
    split_ifs at hv with hop
    · have hcode := verifyRegister_code hv
      intro heq
      rw [Outcome.reject.inj heq] at hcode
      exact absurd hcode (by decide)
    · have hcode := verifySuccessor_code hv
      intro heq
      rw [Outcome.reject.inj heq] at hcode
      exact absurd hcode (by decide)

/-- **The two Ed25519 libraries agree where the verifiers ask them**: on the signature of a REGISTER,
or on those of a successor of the record that holds the name. -/
structure SignaturesAgree (C : Crypto) (dalek : Bytes → Bytes → Bytes → Bool) (r : RegistryRecord) (input : Bytes)
    (state : RegistryView) (now : ℕ) : Prop where
  register : r.op = .register → RegisterAsks r state now → OneAnswer C dalek r.ownerKey input r.sig
  successor : r.op ≠ .register → ∀ previous, state.current r.name r.tld = some previous →
    SuccessorAsks r previous state now → SuccessorSigned C dalek r input previous now

/-- **The two verdicts are one** on every record whose keys are text and which does not renew a
name after its owner gave it up, where the two Ed25519 libraries agree on the signatures they are
asked about. -/
theorem verdicts_agree_iff (h : BothAdmit b r p) (hlog : SameLog C r p state known now windowCount) :
    Same (VayuWeb.verify C b state now false)
        (verifyAgainst (C.withEd25519 dalek) b known now windowCount) ↔
      TextKeys p.map ∧
        (¬ ∃ previous, state.current r.name r.tld = some previous ∧
          state.revoked r.name r.tld = false ∧ RenewsRelinquished r previous now) ∧
        SignaturesAgree C dalek r (messageOf p.map) state now := by
  have hregistry : VayuWeb.verify C b state now false = VayuWeb.judge C r state now false := by
    unfold VayuWeb.verify
    rw [h.registry]
  have hclient : verifyAgainst (C.withEd25519 dalek) b known now windowCount =
      judge (C.withEd25519 dalek) p known now windowCount := by
    unfold verifyAgainst
    rw [h.client]
  rw [hregistry, hclient]
  by_cases htext : TextKeys p.map
  swap
  · -- the client refuses as not canonical, the registry does not
    constructor
    · rintro ⟨verdict, hverdict, houtcome⟩
      rw [judge_byteKey htext] at houtcome
      exact absurd houtcome (judge_ne_nonCanonical h hverdict)
    · intro hall
      exact absurd hall.1 htext
  rw [judge_textKeys h htext, judge_registry h, h.agrees.op]
  -- both judge a REGISTER apart from the successors
  by_cases hop : r.op = .register
  · rw [if_pos hop, if_pos (name_register.2 hop), same_register_iff h htext hop ?_ hlog.pow]
    · constructor
      · intro hone
        refine ⟨htext, ?_, fun _ => hone, fun hnot => absurd hop hnot⟩
        rintro ⟨previous, -, -, hrenews⟩
        rw [hrenews.renews] at hop
        simp at hop
      · intro hall
        exact hall.2.2.register hop
    · rcases hlog.previous with hnone | ⟨previous, prev, hcurrent, hsome, -, hreleased, -⟩
      · exact Or.inl hnone
      · exact Or.inr ⟨previous, prev, hcurrent, hsome, hreleased⟩
  · rw [if_neg hop, if_neg fun hname => hop (name_register.1 hname)]
    -- a successor of a name nobody holds is refused alike, before any signature is looked at
    rcases hlog.previous with ⟨hcurrent, hnone⟩ | ⟨previous, prev, hcurrent, hsome, haccepted, -, hlive⟩
    · rw [hcurrent]
      have hsame : Same (VayuWeb.verifySuccessor C r (messageOf p.map) none state now)
          (verifySuccessor (C.withEd25519 dalek) p (messageOf p.map) known now windowCount) := by
        unfold VayuWeb.verifySuccessor verifySuccessor
        rw [hnone]
        exact ⟨_, rfl, rfl⟩
      refine iff_of_true hsame ⟨htext, ?_, fun hreg => absurd hreg hop, ?_⟩
      · rintro ⟨previous, hprevious, -⟩
        simp at hprevious
      · intro _ previous hprevious
        rw [hcurrent] at hprevious
        simp at hprevious
    · have hprev : PrevAgrees previous prev := prevAgrees_of_accepted haccepted
      rw [hcurrent]
      by_cases hrenews : state.revoked r.name r.tld = false ∧ RenewsRelinquished r previous now
      · -- the registry refuses as expired, the client does not
        constructor
        · rintro ⟨verdict, hverdict, houtcome⟩
          have hexpired : registryOutcome verdict = .reject .expired :=
            successor_expired hrenews.1 hrenews.2 h hprev hverdict
          rw [hexpired] at houtcome
          exact absurd houtcome.symm
            (successor_ne_expired h htext hsome hprev (hlog.revoked.trans hrenews.1) hrenews.2)
        · rintro ⟨-, hnot, -⟩
          exact absurd ⟨previous, rfl, hrenews⟩ hnot
      · rw [same_successor_iff h htext hop hsome hprev hlog.revoked hlive hlog.pow
          fun hopen hboth => hrenews ⟨hopen, hboth⟩]
        constructor
        · intro hone
          refine ⟨htext, ?_, fun hreg => absurd hreg hop, ?_⟩
          · rintro ⟨previous', hprevious, hboth⟩
            obtain rfl : previous = previous' := Option.some.inj hprevious
            exact hrenews hboth
          · intro _ previous' hprevious
            rw [hcurrent, Option.some.injEq] at hprevious
            rw [← hprevious]
            exact hone
        · intro hall
          exact hall.2.2.successor hop previous hcurrent

end Verdicts

/-! ## A record the verifiers judge differently -/

/-- A sample record as the registry's predecessor. -/
def samplePrevious (s : Sample.SampleRecord) : VayuWeb.Predecessor :=
  { record := s.record, hash := recordHashFromBytes Sample.crypto s.bytes, signerKey := s.owner }

/-- A sample record as the client's. -/
def samplePrev (s : Sample.SampleRecord) : PrevView :=
  { opText := s.op.name, seq := s.seq, notBefore := s.notBefore, notAfter := s.notAfter, ownerKey := s.owner,
    signerKey := s.owner, suite := 1, hash := recordHashFromBytes Sample.crypto s.bytes, revoked := false }

/-- A log whose only name is held by this record, and which takes every proof of work. -/
def sampleView (s : Sample.SampleRecord) : RegistryView :=
  { current := fun _ _ => some (samplePrevious s), fullyReleased := fun p now => isFullyReleased p.record now,
    revoked := fun _ _ => false, powVerified := fun _ => .ok true }

/-- What a log that ends in a sample record says about its name. -/
def sampleKnown (s : Sample.SampleRecord) : Known :=
  { previous := some (samplePrev s), revoked := false, fullyReleased := false, powVerified := true }

theorem textKeys_update : ∀ e ∈ Sample.update.record.map, ∃ s, e.1 = .text s := by
  simp [Sample.update, Sample.SampleRecord.record, Sample.SampleRecord.fields, Sample.textField,
    Sample.uintField, Sample.bytesField, Sample.powField]

/-- What is known of a name that a sample record holds. -/
theorem sameLog_sample {s : Sample.SampleRecord} {r : RegistryRecord} {p : ParsedRecord} {now windowCount : ℕ}
    (hs : admitBytes s.bytes = .ok s.record) (hop : s.op ≠ .transfer) (hop' : s.op ≠ .revoke)
    (hheld : isFullyReleased s.record now = false) :
    SameLog Sample.crypto r p (sampleView s) (sampleKnown s) now windowCount := by
  have hop1 : s.record.op ≠ .transfer := hop
  have hprevious : predecessorFrom Sample.crypto s.record s.bytes none = .ok (samplePrevious s) := by
    unfold predecessorFrom
    rw [if_neg fun h => hop1 h.1]
    rfl
  have hprev : prevView Sample.crypto s.bytes none = .ok (samplePrev s) := by
    rw [prevView_eq hs hprevious, if_neg hop1]
    rfl
  refine { previous := Or.inr ⟨samplePrevious s, samplePrev s, rfl, rfl, ?_, hheld.symm, ?_⟩,
           revoked := rfl, pow := rfl }
  · exact ⟨s.bytes, s.record, none, hs, by simp, hprevious, hprev⟩
  · intro hrevoke
    exact absurd hrevoke hop'

/-- The first holder's UPDATE, with one library on both sides. -/
theorem verdicts_agree_update :
    Same (VayuWeb.verify Sample.crypto Sample.update.bytes (sampleView Sample.first) 1700000000 false)
      (verifyAgainst (Sample.crypto.withEd25519 Sample.crypto.ed25519Verify) Sample.update.bytes
        (sampleKnown Sample.first) 1700000000 0) := by
  obtain ⟨p, hparse, -, -⟩ := parses_of_admits Sample.update_ok.admitted
  have h : BothAdmit Sample.update.bytes Sample.update.record p := ⟨Sample.update_ok.admitted, hparse⟩
  have hlog : SameLog Sample.crypto Sample.update.record p (sampleView Sample.first)
      (sampleKnown Sample.first) 1700000000 0 :=
    sameLog_sample Sample.first_ok.admitted (by decide) (by decide) (by decide)
  have howner : Sample.ownerA.length = 32 := by decide
  refine (verdicts_agree_iff h hlog).2 ⟨?_, ?_, ?_⟩
  · exact (textKeys_iff h.agrees).2 textKeys_update
  · rintro ⟨previous, -, -, hrenews⟩
    exact absurd hrenews.renews (by decide)
  · refine ⟨fun _ _ => oneAnswer_self howner, fun _ previous hprevious _ => ?_⟩
    have hkey : VayuWeb.controllingKey previous Sample.update.record.notBefore = Sample.ownerA := by
      rw [← Option.some.inj hprevious]
      decide
    refine ⟨?_, fun _ _ _ coSig _ => oneAnswer_self howner⟩
    rw [hkey]
    exact oneAnswer_self howner

/-- After `relinquish` the registry refuses `renew`, and the client takes it. -/
theorem verdicts_renew :
    admitBytes Sample.relinquish.bytes = .ok Sample.relinquish.record ∧
      admitBytes Sample.renew.bytes = .ok Sample.renew.record ∧
      (VayuWeb.verify Sample.crypto Sample.renew.bytes (sampleView Sample.relinquish) 1699914200 false).map
        registryOutcome = .ok (.reject .expired) ∧
      verifyAgainst Sample.crypto Sample.renew.bytes (sampleKnown Sample.relinquish) 1699914200 0 = .accept := by
  decide +kernel

/-- An owner who has given a name up is taken by the client to renew it. -/
theorem verdicts_disagree : ¬ ∀ (C : Crypto) (b : Bytes) (r : RegistryRecord) (p : ParsedRecord)
    (state : RegistryView) (known : Known) (now windowCount : ℕ), BothAdmit b r p →
    SameLog C r p state known now windowCount →
    Same (VayuWeb.verify C b state now false) (verifyAgainst C b known now windowCount) := by
  intro h
  obtain ⟨hrelinquish, hrenew, hregistry, hclient⟩ := verdicts_renew
  obtain ⟨p, hparse, -, -⟩ := parses_of_admits hrenew
  obtain ⟨verdict, hverdict, houtcome⟩ := h Sample.crypto Sample.renew.bytes Sample.renew.record p
    (sampleView Sample.relinquish) (sampleKnown Sample.relinquish) 1699914200 0 ⟨hrenew, hparse⟩
    (sameLog_sample hrelinquish (by decide) (by decide) (by decide))
  have houtcome' : registryOutcome verdict = .reject .expired := by
    rw [hverdict] at hregistry
    exact Except.ok.inj hregistry
  rw [houtcome', hclient] at houtcome
  simp [clientOutcome] at houtcome

end VayuWeb.Client
