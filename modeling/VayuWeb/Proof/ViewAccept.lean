import VayuWeb.Client.View
import VayuWeb.Proof.ClientParse

/-!
# What the view reads of a record, and what its acceptance says

* `peek_eq`, `ownerOf_eq` and their like: the view reads what the verifier parses.
* `register_of_accept`, `successor_of_accept`: what `verify` has checked of a record it accepts.
* `verify_signerKey`: a verdict does not depend on a key that does not control the record.
-/

namespace VayuWeb.Client

open Bytes
open DetCbor (Key Value)

/-! ## What the view reads of a record -/

/-- The predecessor address of a parsed record. -/
def ParsedRecord.prevHash (p : ParsedRecord) : Bytes := ((field p.map "prevHash").bind asBytes32).getD []

/-- A field that is there is found and read. -/
theorem findMember_of_field {α : Type} {es : Members} {name : String} {v : Value} {read : Value → Option α} {a : α}
    (hfield : field es name = some v) (hread : read v = some a) : findMember es name read = some a := by
  induction es with
  | nil => simp [field] at hfield
  | cons e es ih =>
    obtain ⟨k, value⟩ := e
    rw [field] at hfield
    rw [findMember, List.findSome?_cons]
    by_cases hk : k = .text name
    · rw [if_pos hk, Option.some.injEq] at hfield
      rw [if_pos hk, hfield, hread]
    · rw [if_neg hk] at hfield
      rw [if_neg hk]
      exact ih hfield

section Parsed

variable {bytes : Bytes} {p : ParsedRecord}

/-- What is parsed was decoded and fits the schema. -/
theorem parsed_of_parseBytes (h : parseBytes bytes = .ok p) :
    decode bytes = .ok (.map p.map) ∧ Parsed p.map p := by
  obtain ⟨-, es, hcanonical, hbytes, hparsed⟩ := parseBytes_eq_ok.1 h
  obtain rfl : p.map = es := hparsed.map
  exact ⟨decode_eq_ok.2 ⟨hcanonical, hbytes⟩, hparsed⟩

/-- A field of a stored record is read. -/
theorem fieldOf_eq {α : Type} {name : String} {v : Value} {read : Value → Option α} {a : α}
    (h : parseBytes bytes = .ok p) (hfield : field p.map name = some v) (hread : read v = some a) :
    fieldOf bytes name read = .ok a := by
  unfold fieldOf
  rw [(parsed_of_parseBytes h).1]
  simp only [findMember_of_field hfield hread]
  rfl

/-- What a peek shows of a record that parses. -/
theorem peek_eq (h : parseBytes bytes = .ok p) : peek bytes =
    .ok { op := p.op, label := p.label, tld := p.tld, seq := p.seq, notBefore := p.notBefore } := by
  obtain ⟨hdecode, hparsed⟩ := parsed_of_parseBytes h
  unfold peek peekText
  simp only [hdecode, hparsed.op, hparsed.label, hparsed.tld, hparsed.seq, hparsed.notBefore]
  rfl

theorem ownerOf_eq (h : parseBytes bytes = .ok p) : ownerOf bytes = .ok p.ownerKey := by
  obtain ⟨-, hparsed⟩ := parsed_of_parseBytes h
  apply fieldOf_eq h hparsed.ownerKey
  exact if_pos hparsed.ownerKey_length

theorem notAfterOf_eq (h : parseBytes bytes = .ok p) : notAfterOf bytes = .ok p.notAfter :=
  fieldOf_eq h (parsed_of_parseBytes h).2.notAfter rfl

theorem suiteOf_eq (h : parseBytes bytes = .ok p) : suiteOf bytes = p.suite := by
  obtain ⟨-, hparsed⟩ := parsed_of_parseBytes h
  have hsuite : fieldU64 bytes "suite" = .ok p.suite := fieldOf_eq h hparsed.suite rfl
  have hbyte : p.suite < 256 := by
    rw [hparsed.suite_eq]
    decide
  unfold suiteOf
  simp only [hsuite, hbyte, if_true]

theorem field_prevHash (h : parseBytes bytes = .ok p) : field p.map "prevHash" = some (.bytes p.prevHash) ∧
    p.prevHash.length = 32 := by
  obtain ⟨hash, hfield, hlength⟩ := (parsed_of_parseBytes h).2.prevHash
  have hprev : p.prevHash = hash := by
    unfold ParsedRecord.prevHash
    rw [hfield]
    simp only [Option.bind_some, asBytes32, hlength, if_true, Option.getD_some]
  rw [hprev]
  exact ⟨hfield, hlength⟩

theorem prevHashOf_eq (h : parseBytes bytes = .ok p) : prevHashOf bytes = .ok p.prevHash := by
  obtain ⟨hfield, hlength⟩ := field_prevHash h
  exact fieldOf_eq h hfield (if_pos hlength)

theorem prevHash_of_matches (h : parseBytes bytes = .ok p) {expected : Bytes}
    (hmatches : prevHashMatches p.map expected = true) : p.prevHash = expected := by
  unfold prevHashMatches at hmatches
  rw [(field_prevHash h).1] at hmatches
  exact of_decide_eq_true hmatches

end Parsed

/-! ## What an acceptance says -/

section Accept

variable {C : Crypto} {bytes : Bytes} {p : ParsedRecord} {previous : Option PrevView} {prev : PrevView}
  {now windowCount : ℕ}

/-- The record's signature holds under this key. -/
def SignedUnder (C : Crypto) (p : ParsedRecord) (key : Bytes) : Prop :=
  ∃ core coreCbor, coreOf p.map = .ok core ∧ encodeCore core = .ok coreCbor ∧
    verifySignature C key (signingInput coreCbor p.suite) p.sig = true

/-- The key that a record's signature is verified under. -/
def signingKey (previous : Option PrevView) (p : ParsedRecord) : Bytes :=
  match previous with
  | none => p.ownerKey
  | some prev => controllingKey prev p.notBefore

/-- What an accepted registration meets. -/
structure RegisterOK (C : Crypto) (p : ParsedRecord) : Prop where
  op : p.op = "REGISTER"
  seq : p.seq = 0
  signed : SignedUnder C p p.ownerKey

/-- What an accepted successor meets. -/
structure SuccessorOK (C : Crypto) (p : ParsedRecord) (prev : PrevView) : Prop where
  op : p.op ≠ "REGISTER"
  seq : p.seq = add prev.seq 1
  prevHash : prevHashMatches p.map prev.hash = true
  live : prev.revoked = false
  settled : isUnsettled p prev = false
  signed : SignedUnder C p (controllingKey prev p.notBefore)
  owner_eq : p.op ≠ "TRANSFER" → p.ownerKey = prev.ownerKey
  owner_ne : p.op = "TRANSFER" → p.ownerKey ≠ prev.ownerKey

theorem clockVerdict_ne_accept {notBefore : ℕ} : clockVerdict notBefore now ≠ some .accept := by
  unfold clockVerdict
  split_ifs
  · simp
  · simp
  · simp

/-- What is accepted parses. -/
theorem parses_of_accept (h : verify C bytes previous now windowCount = .accept) :
    ∃ p, parseBytes bytes = .ok p := by
  unfold verify verifyAgainst at h
  cases hp : parseBytes bytes with
  | ok p => exact ⟨p, rfl⟩
  | error verdict =>
    simp only [hp] at h
    subst h
    exact absurd hp refuses_parseBytes

/-- The two paths of the verdict. -/
theorem verify_eq (hp : parseBytes bytes = .ok p) (h : verify C bytes previous now windowCount = .accept) :
    ∃ core coreCbor, coreOf p.map = .ok core ∧ encodeCore core = .ok coreCbor ∧
      (if p.op = "REGISTER" then
        verifyRegister C p (signingInput coreCbor p.suite)
          { previous := previous, revoked := false, fullyReleased := false, powVerified := false } now windowCount
      else
        verifySuccessor C p (signingInput coreCbor p.suite)
          { previous := previous, revoked := false, fullyReleased := false, powVerified := false } now windowCount) =
        .accept := by
  unfold verify verifyAgainst judge at h
  simp only [hp] at h
  cases hcore : coreOf p.map with
  | error e => simp [hcore] at h
  | ok core =>
    simp only [hcore] at h
    cases hcbor : encodeCore core with
    | error e => simp [hcbor] at h
    | ok coreCbor =>
      simp only [hcbor] at h
      exact ⟨core, coreCbor, rfl, hcbor, h⟩

/-- What holds of an accepted REGISTER. -/
theorem register_of_accept (hp : parseBytes bytes = .ok p) (hop : p.op = "REGISTER")
    (h : verify C bytes previous now windowCount = .accept) : RegisterOK C p := by
  obtain ⟨core, coreCbor, hcore, hcbor, h⟩ := verify_eq hp h
  rw [if_pos hop] at h
  unfold verifyRegister at h
  split_ifs at h with hchain hheld hterm hsig
  obtain ⟨hseq, -⟩ := not_or.1 hchain
  exact ⟨hop, Decidable.not_not.1 hseq, core, coreCbor, hcore, hcbor, by simpa using hsig⟩

/-- Past a check whose failure is a rejection. -/
theorem ite_reject {bad : Prop} [Decidable bad] {code : VerifyRejection} {detail : String} {verdict : Verdict}
    (h : (if bad then .reject code detail else verdict) = Verdict.accept) : ¬ bad ∧ verdict = .accept := by
  by_cases hbad : bad
  · rw [if_pos hbad] at h
    exact absurd h (by simp)
  · rw [if_neg hbad] at h
    exact ⟨hbad, h⟩

/-- A TRANSFER names another owner. -/
theorem operation_owner {input : Bytes} {known : Known}
    (h : verifyOperation C p prev input known windowCount = .accept) (hop : p.op = "TRANSFER") :
    p.ownerKey ≠ prev.ownerKey := by
  unfold verifyOperation at h
  rw [if_neg (by rw [hop]; decide), if_neg (by rw [hop]; decide), if_pos hop] at h
  exact (ite_reject h).1

/-- What holds of an accepted successor. -/
theorem successor_of_accept (hp : parseBytes bytes = .ok p) (hop : p.op ≠ "REGISTER")
    (h : verify C bytes previous now windowCount = .accept) :
    ∃ prev, previous = some prev ∧ SuccessorOK C p prev := by
  obtain ⟨core, coreCbor, hcore, hcbor, h⟩ := verify_eq hp h
  rw [if_neg hop] at h
  unfold verifySuccessor at h
  cases previous with
  | none => exact absurd h (by simp)
  | some prev =>
    simp only at h
    obtain ⟨hseq, h⟩ := ite_reject h
    obtain ⟨hhash, h⟩ := ite_reject h
    obtain ⟨-, h⟩ := ite_reject h
    obtain ⟨-, h⟩ := ite_reject h
    obtain ⟨hrevoked, h⟩ := ite_reject h
    obtain ⟨-, h⟩ := ite_reject h
    obtain ⟨hsettled, h⟩ := ite_reject h
    obtain ⟨hsig, h⟩ := ite_reject h
    cases hclock : clockVerdict p.notBefore now with
    | some clock =>
      simp only [hclock] at h
      subst h
      exact absurd hclock clockVerdict_ne_accept
    | none =>
      simp only [hclock] at h
      obtain ⟨howner, h⟩ := ite_reject h
      obtain ⟨-, h⟩ := ite_reject h
      refine ⟨prev, rfl, hop, Decidable.not_not.1 hseq, Decidable.not_not.1 hhash, ?_, ?_,
        ⟨core, coreCbor, hcore, hcbor, Decidable.not_not.1 hsig⟩, ?_, operation_owner h⟩
      · simpa using hrevoked
      · simpa using hsettled
      · intro hne
        by_contra hkey
        exact howner ⟨hne, hkey⟩

/-! ### Terms and clocks -/

theorem checkPow_ne_accept : checkPow C p windowCount ≠ some .accept := by
  unfold checkPow
  split
  · simp only
    split_ifs
    · simp
    · split
      · simp
      · split
        · simp
        · split_ifs <;> simp
  · simp

theorem powVerdict_ne_accept {known : Known} : powVerdict C p known windowCount ≠ some .accept := by
  unfold powVerdict
  split_ifs
  · simp
  · exact checkPow_ne_accept

/-- A record's times fit 64 bits. -/
theorem notAfter_lt (hp : parseBytes bytes = .ok p) : p.notAfter < 2 ^ 64 := by
  obtain ⟨-, es, hcanonical, -, hparsed⟩ := parseBytes_eq_ok.1 hp
  have hfits := ((DetCbor.canonical_map.1 hcanonical).2.2 _ (field_mem hparsed.notAfter)).2
  simpa [DetCbor.Canonical] using hfits

/-- What the clock lets through. -/
theorem clockVerdict_eq_none {notBefore : ℕ} :
    clockVerdict notBefore now = none ↔ notBefore ≤ saturatingAdd now maxClockSkew ∧ now ≤ notBefore + maxBackdate := by
  unfold clockVerdict
  split_ifs with hskew hbackdate
  · simp only [false_iff]
    omega
  · simp only [false_iff]
    omega
  · simp only [true_iff]
    omega

/-- **The term and the clock of an accepted registration.** -/
theorem term_of_accept (hp : parseBytes bytes = .ok p) (hop : p.op = "REGISTER")
    (h : verify C bytes none now windowCount = .accept) :
    p.notAfter = p.notBefore + termSeconds ∧ clockVerdict p.notBefore now = none := by
  obtain ⟨core, coreCbor, -, -, h⟩ := verify_eq hp h
  rw [if_pos hop] at h
  unfold verifyRegister at h
  obtain ⟨-, h⟩ := ite_reject h
  obtain ⟨-, h⟩ := ite_reject h
  obtain ⟨hterm, h⟩ := ite_reject h
  obtain ⟨-, h⟩ := ite_reject h
  have hsum : p.notAfter - p.notBefore = termSeconds := Decidable.not_not.1 hterm
  have hpos : 0 < termSeconds := by decide
  refine ⟨by omega, ?_⟩
  cases hpow : powVerdict C p { previous := none, revoked := false, fullyReleased := false, powVerified := false }
      windowCount with
  | some verdict =>
    simp only [hpow] at h
    rw [h] at hpow
    exact absurd hpow powVerdict_ne_accept
  | none =>
    simp only [hpow] at h
    cases hclock : clockVerdict p.notBefore now with
    | some clock =>
      simp only [hclock] at h
      rw [h] at hclock
      exact absurd hclock clockVerdict_ne_accept
    | none => rfl

/-- What the term of an accepted successor is. -/
inductive SuccessorTerm (p : ParsedRecord) (prev : PrevView) : Prop
  | kept (op : p.op = "UPDATE" ∨ p.op = "TRANSFER" ∨ p.op = "REVOKE") (notAfter : p.notAfter = prev.notAfter)
  | renewed (op : p.op = "RENEW") (window : prev.notAfter ≤ p.notBefore + renewalWindowSeconds)
  | ended (op : p.op = "RELINQUISH") (notAfter : p.notAfter = p.notBefore)

/-- The term an operation leaves. -/
theorem term_of_operation {input : Bytes} {known : Known}
    (h : verifyOperation C p prev input known windowCount = .accept) : SuccessorTerm p prev := by
  unfold verifyOperation at h
  by_cases hupdate : p.op = "UPDATE"
  · rw [if_pos hupdate] at h
    exact .kept (Or.inl hupdate) (Decidable.not_not.1 (ite_reject h).1)
  rw [if_neg hupdate] at h
  by_cases hrenew : p.op = "RENEW"
  · rw [if_pos hrenew] at h
    obtain ⟨-, h⟩ := ite_reject h
    obtain ⟨hwindow, -⟩ := ite_reject h
    exact .renewed hrenew (by omega)
  rw [if_neg hrenew] at h
  by_cases htransfer : p.op = "TRANSFER"
  · rw [if_pos htransfer] at h
    obtain ⟨-, h⟩ := ite_reject h
    exact .kept (Or.inr (Or.inl htransfer)) (Decidable.not_not.1 (ite_reject h).1)
  rw [if_neg htransfer] at h
  by_cases hrelinquish : p.op = "RELINQUISH"
  · rw [if_pos hrelinquish] at h
    obtain ⟨-, h⟩ := ite_reject h
    exact .ended hrelinquish (Decidable.not_not.1 (ite_reject h).1)
  rw [if_neg hrelinquish] at h
  by_cases hrevoke : p.op = "REVOKE"
  · rw [if_pos hrevoke] at h
    obtain ⟨-, h⟩ := ite_reject h
    exact .kept (Or.inr (Or.inr hrevoke)) (Decidable.not_not.1 (ite_reject h).1)
  · rw [if_neg hrevoke] at h
    simp at h

/-- **The term and the clock of an accepted successor**, and when its predecessor was live. -/
theorem successor_term (hp : parseBytes bytes = .ok p) (hop : p.op ≠ "REGISTER")
    (h : verify C bytes (some prev) now windowCount = .accept) :
    acceptsSuccessor prev now p.op = true ∧ clockVerdict p.notBefore now = none ∧ SuccessorTerm p prev := by
  obtain ⟨core, coreCbor, -, -, h⟩ := verify_eq hp h
  rw [if_neg hop] at h
  unfold verifySuccessor at h
  simp only at h
  obtain ⟨-, h⟩ := ite_reject h
  obtain ⟨-, h⟩ := ite_reject h
  obtain ⟨-, h⟩ := ite_reject h
  obtain ⟨-, h⟩ := ite_reject h
  obtain ⟨-, h⟩ := ite_reject h
  obtain ⟨haccepts, h⟩ := ite_reject h
  obtain ⟨-, h⟩ := ite_reject h
  obtain ⟨-, h⟩ := ite_reject h
  cases hclock : clockVerdict p.notBefore now with
  | some clock =>
    simp only [hclock] at h
    rw [h] at hclock
    exact absurd hclock clockVerdict_ne_accept
  | none =>
    simp only [hclock] at h
    obtain ⟨-, h⟩ := ite_reject h
    obtain ⟨-, h⟩ := ite_reject h
    exact ⟨Decidable.not_not.1 haccepts, rfl, term_of_operation h⟩

/-- **An accepted registration at another clock.** -/
theorem register_later (hp : parseBytes bytes = .ok p) (hop : p.op = "REGISTER")
    (h : verify C bytes none now windowCount = .accept) (later : ℕ) :
    verify C bytes none later windowCount = .accept ↔ clockVerdict p.notBefore later = none := by
  constructor
  · intro hlater
    exact (term_of_accept hp hop hlater).2
  · intro hclock
    obtain ⟨core, coreCbor, hcore, hcbor, h⟩ := verify_eq hp h
    rw [if_pos hop] at h
    unfold verify verifyAgainst judge
    simp only [hp, hcore, hcbor, if_pos hop]
    unfold verifyRegister at h ⊢
    obtain ⟨hchain, h⟩ := ite_reject h
    obtain ⟨hheld, h⟩ := ite_reject h
    obtain ⟨hterm, h⟩ := ite_reject h
    obtain ⟨hsig, h⟩ := ite_reject h
    rw [if_neg hchain, if_neg hheld, if_neg hterm, if_neg hsig]
    cases hpow : powVerdict C p { previous := none, revoked := false, fullyReleased := false, powVerified := false }
        windowCount with
    | none => simp only [hclock]
    | some verdict =>
      simp only [hpow] at h
      rw [h] at hpow
      exact absurd hpow powVerdict_ne_accept

/-- **An accepted successor at another clock.** -/
theorem successor_later (hp : parseBytes bytes = .ok p) (hop : p.op ≠ "REGISTER")
    (h : verify C bytes (some prev) now windowCount = .accept) (later : ℕ) :
    verify C bytes (some prev) later windowCount = .accept ↔
      acceptsSuccessor prev later p.op = true ∧ clockVerdict p.notBefore later = none := by
  constructor
  · intro hlater
    obtain ⟨haccepts, hclock, -⟩ := successor_term hp hop hlater
    exact ⟨haccepts, hclock⟩
  · intro ⟨haccepts, hclock⟩
    obtain ⟨-, hclockNow, -⟩ := successor_term hp hop h
    obtain ⟨core, coreCbor, hcore, hcbor, h⟩ := verify_eq hp h
    rw [if_neg hop] at h
    unfold verify verifyAgainst judge
    simp only [hp, hcore, hcbor, if_neg hop]
    unfold verifySuccessor at h ⊢
    simp only [hclock, hclockNow] at h ⊢
    -- of all the checks the clock stands in two, and these are the ones assumed
    obtain ⟨hseq, h⟩ := ite_reject h
    obtain ⟨hhash, h⟩ := ite_reject h
    obtain ⟨hinterval, h⟩ := ite_reject h
    obtain ⟨hsuite, h⟩ := ite_reject h
    obtain ⟨hrevoked, h⟩ := ite_reject h
    obtain ⟨-, h⟩ := ite_reject h
    obtain ⟨hsettled, h⟩ := ite_reject h
    obtain ⟨hsig, h⟩ := ite_reject h
    obtain ⟨howner, h⟩ := ite_reject h
    obtain ⟨hpow, h⟩ := ite_reject h
    rw [if_neg hseq, if_neg hhash, if_neg hinterval, if_neg hsuite, if_neg hrevoked,
      if_neg (not_not.2 haccepts), if_neg hsettled, if_neg hsig, if_neg howner, if_neg hpow]
    exact h
/-- A key that does not control the record does not change its verdict. -/
theorem verify_signerKey {key : Bytes} (hp : parseBytes bytes = .ok p) (hop : p.op ≠ "REGISTER")
    (h : verify C bytes (some prev) now windowCount = .accept)
    (hkey : p.op = "TRANSFER" → prev.opText = "TRANSFER" → key = prev.signerKey) :
    verify C bytes (some { prev with signerKey := key, revoked := false }) now windowCount = .accept := by
  obtain ⟨prev', hprev, hok⟩ := successor_of_accept hp hop h
  obtain rfl : prev = prev' := Option.some.inj hprev
  obtain ⟨core, coreCbor, hcore, hcbor, h⟩ := verify_eq hp h
  rw [if_neg hop] at h
  have hcontrol : controllingKey { prev with signerKey := key, revoked := false } p.notBefore =
      controllingKey prev p.notBefore := by
    unfold controllingKey
    by_cases hwindow : prev.opText = "TRANSFER" ∧ p.notBefore < add prev.notBefore settlementSeconds
    · obtain ⟨htransfer, hlt⟩ := hwindow
      have hsettled := hok.settled
      simp only [isUnsettled, settlesAt, htransfer, if_true, hlt, decide_true, Bool.true_and,
        decide_eq_false_iff_not, not_not] at hsettled
      rw [if_pos ⟨htransfer, hlt⟩, if_pos ⟨htransfer, hlt⟩]
      exact hkey hsettled htransfer
    · rw [if_neg hwindow, if_neg hwindow]
  unfold verify verifyAgainst judge
  simp only [hp, hcore, hcbor, if_neg hop]
  rw [← h]
  unfold verifySuccessor
  simp only [hcontrol, hok.live]
  rfl

end Accept

end VayuWeb.Client
