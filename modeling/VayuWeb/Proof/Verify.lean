import VayuWeb.Proof.Admit

/-!
# What acceptance means

* `verifyRegister_accept`, `verifySuccessor_accept`: the conditions under which a registration
  and a successor are accepted, each an equivalence.
* `verify_accept`: acceptance of a byte string.
* `judge_nameTaken`: what is refused for a name that is taken.
-/

namespace VayuWeb

variable {C : Crypto} {record prev : RegistryRecord} {input : Bytes} {previous : Option Predecessor}
  {state : RegistryView} {now : ℕ} {ignoreIncumbent : Bool}

/-- When the clock has nothing against a record. -/
theorem clockVerdict_eq_none {notBefore now : ℕ} : clockVerdict notBefore now = none ↔
    notBefore ≤ now + maxClockSkewSeconds ∧ now ≤ notBefore + maxBackdateSeconds := by
  unfold clockVerdict maxClockSkewSeconds maxBackdateSeconds
  split_ifs <;> simp <;> omega

/-- What a registration must satisfy. -/
structure RegisterOK (C : Crypto) (record : RegistryRecord) (input : Bytes)
    (previous : Option Predecessor) (state : RegistryView) (now : ℕ) (ignoreIncumbent : Bool) :
    Prop where
  seq : record.seq = 0
  prevHash : record.prevHash = zeroHash
  free : isHeld previous state now = true → ignoreIncumbent = true
  term : record.notAfter = record.notBefore + termSeconds
  sig : verifyStrict C record.ownerKey input record.sig = true
  pow : state.powVerified record = .ok true
  skew : record.notBefore ≤ now + maxClockSkewSeconds
  backdate : now ≤ record.notBefore + maxBackdateSeconds

theorem clockVerdict_not_accept {notBefore now : ℕ} {r : RegistryRecord} {v : Option (List Bytes)}
    {d : Bool} : clockVerdict notBefore now ≠ some (.accept r v d) := by
  unfold clockVerdict; split_ifs <;> simp

/-- When a REGISTER is accepted. -/
theorem verifyRegister_accept {r : RegistryRecord} {v : Option (List Bytes)} {d : Bool} :
    verifyRegister C record input previous state now ignoreIncumbent = .ok (.accept r v d) ↔
      RegisterOK C record input previous state now ignoreIncumbent ∧ r = record ∧ v = none ∧
        d = false := by
  unfold verifyRegister
  constructor
  -- the refusals in the source's order, each of them one field of `RegisterOK`
  · intro h
    split at h
    · simp at h
    rename_i h1
    split at h
    · simp at h
    rename_i h2
    split at h
    · simp at h
    rename_i h3
    split at h
    · simp at h
    · rename_i h4
      simp only [isZeroHash, decide_eq_true_eq, not_or, Decidable.not_not] at h1
      simp only [not_and, Bool.not_eq_true, Bool.not_eq_false] at h2
      have h3' : record.notAfter = record.notBefore + termSeconds := by
        simp only [ne_eq, Decidable.not_not] at h3; omega
      simp only [Bool.not_eq_true, Bool.not_eq_false] at h4
      split at h
      · simp at h
      · simp at h
      · rename_i hpow
        split at h
        · rename_i clock hc
          simp only [Except.ok.injEq] at h
          rw [h] at hc
          exact absurd hc clockVerdict_not_accept
        · rename_i hc
          obtain ⟨hs, hb⟩ := clockVerdict_eq_none.1 hc
          simp only [Except.ok.injEq, Verdict.accept.injEq] at h
          obtain ⟨rfl, rfl, rfl⟩ := h
          exact ⟨⟨h1.1, h1.2, h2, h3', h4, hpow, hs, hb⟩, rfl, rfl, rfl⟩
  · rintro ⟨hr, rfl, rfl, rfl⟩
    have hc : clockVerdict r.notBefore now = none := clockVerdict_eq_none.2 ⟨hr.skew, hr.backdate⟩
    rw [if_neg (by simp [hr.seq, hr.prevHash, isZeroHash]), if_neg (by simpa using hr.free),
      if_neg (by have := hr.term; omega), if_neg (by simp [hr.sig]), hr.pow]
    simp only [hc]

/-- What each operation asks of a successor beyond what all of them ask. -/
def OperationOK (C : Crypto) (record prev : RegistryRecord) (input : Bytes) (state : RegistryView) :
    Prop :=
  match record.op with
  | .update => record.notAfter = prev.notAfter
  | .renew => record.powProof.isSome ∧ prev.notAfter ≤ record.notBefore + renewalWindowSeconds ∧
      record.notAfter = max prev.notAfter record.notBefore + termSeconds ∧
      state.powVerified record = .ok true
  | .transfer => record.ownerKey ≠ prev.ownerKey ∧ record.notAfter = prev.notAfter ∧
      record.notBefore + settlementSeconds ≤ record.notAfter ∧
      ∃ coSig, record.coSig = some coSig ∧ verifyStrict C record.ownerKey input coSig = true
  | .relinquish => record.entries.length = 0 ∧ record.notAfter = record.notBefore
  | .revoke => record.entries.length = 0 ∧ record.notAfter = prev.notAfter
  | .register => False

/-- When the rules of an operation accept. -/
theorem verifyOperation_accept {r : RegistryRecord} {v : Option (List Bytes)} {d : Bool} :
    verifyOperation C record prev input state = .ok (.accept r v d) ↔
      OperationOK C record prev input state ∧ r = record ∧ v = none ∧ d = false := by
  have hacc : ∀ {P : Prop}, P → ((Except.ok (Verdict.accept record none false) : Except Thrown Verdict) =
      .ok (.accept r v d) ↔ P ∧ r = record ∧ v = none ∧ d = false) := by
    intro P hP; simp [hP, eq_comm]
  unfold verifyOperation OperationOK
  -- one case for each operation, and in it one for each refusal, in the source's order
  cases record.op with
  | register => simp
  | update =>
    simp only
    split_ifs with h
    · simp [h]
    · exact hacc (by simpa using h)
  | renew =>
    simp only
    split_ifs with h1 h2 h3
    · simp only [Except.ok.injEq, reduceCtorEq, false_iff]
      rintro ⟨⟨hp, -⟩, -⟩; simp_all
    · simp only [Except.ok.injEq, reduceCtorEq, false_iff]
      rintro ⟨⟨-, hp, -⟩, -⟩; omega
    · simp only [Except.ok.injEq, reduceCtorEq, false_iff]
      rintro ⟨⟨-, -, hp, -⟩, -⟩; exact h3 hp
    · split
      · rename_i hp; simp [hp]
      · rename_i hp; simp [hp]
      · rename_i hp
        refine hacc ⟨?_, by omega, by simpa using h3, hp⟩
        cases hpp : record.powProof <;> simp_all
  | transfer =>
    simp only
    split_ifs with h1 h2 h3
    · simp [h1]
    · simp only [Except.ok.injEq, reduceCtorEq, false_iff]
      rintro ⟨⟨-, hp, -⟩, -⟩; exact h2 hp
    · simp only [Except.ok.injEq, reduceCtorEq, false_iff]
      rintro ⟨⟨-, -, hp, -⟩, -⟩; omega
    · split
      · rename_i hc; simp [hc]
      · rename_i coSig hc
        split
        · rename_i h4
          simp only [Except.ok.injEq, reduceCtorEq, false_iff]
          rintro ⟨⟨-, -, -, c, hc', hv⟩, -⟩
          rw [hc, Option.some.injEq] at hc'; subst hc'
          exact h4 hv
        · rename_i h4
          exact hacc ⟨h1, by simpa using h2, by omega, coSig, hc, by simpa using h4⟩
  | relinquish =>
    simp only
    split_ifs with h1 h2
    · simp [h1]
    · simp only [Except.ok.injEq, reduceCtorEq, false_iff]
      rintro ⟨⟨-, hp⟩, -⟩; exact h2 hp
    · exact hacc ⟨by simpa using h1, by simpa using h2⟩
  | revoke =>
    simp only
    split_ifs with h1 h2
    · simp [h1]
    · simp only [Except.ok.injEq, reduceCtorEq, false_iff]
      rintro ⟨⟨-, hp⟩, -⟩; exact h2 hp
    · exact hacc ⟨by simpa using h1, by simpa using h2⟩

/-- What a successor must satisfy. -/
structure SuccessorOK (C : Crypto) (record : RegistryRecord) (input : Bytes) (previous : Predecessor)
    (state : RegistryView) (now : ℕ) : Prop where
  seq : record.seq = previous.record.seq + 1
  prevHash : record.prevHash = previous.hash
  interval : previous.record.notBefore + minIntervalSeconds ≤ record.notBefore
  suite : previous.record.suite ≤ record.suite
  revoked : state.revoked record.name record.tld = false
  live : acceptsSuccessor previous.record now record.op = true
  settled : isUnsettled record previous.record = false
  sig : verifyStrict C (controllingKey previous record.notBefore) input record.sig = true
  skew : record.notBefore ≤ now + maxClockSkewSeconds
  backdate : now ≤ record.notBefore + maxBackdateSeconds
  owner : record.op ≠ .transfer → record.ownerKey = previous.record.ownerKey
  pow : record.op ≠ .renew → record.powProof = none
  operation : OperationOK C record previous.record input state

/-- When a successor is accepted. -/
theorem verifySuccessor_accept {r : RegistryRecord} {v : Option (List Bytes)} {d : Bool} :
    verifySuccessor C record input previous state now = .ok (.accept r v d) ↔
      (∃ p, previous = some p ∧ SuccessorOK C record input p state now) ∧ r = record ∧ v = none ∧
        d = false := by
  unfold verifySuccessor
  cases previous with
  | none => simp
  | some p =>
    simp only [Option.some.injEq, exists_eq_left']
    constructor
    -- the refusals in the source's order, each of them one field of `SuccessorOK`
    · intro h
      split at h
      · simp at h
      rename_i h1
      split at h
      · simp at h
      rename_i h2
      split at h
      · simp at h
      rename_i h3
      split at h
      · simp at h
      rename_i h4
      split at h
      · simp at h
      rename_i h5
      split at h
      · simp at h
      rename_i h6
      split at h
      · simp at h
      rename_i h7
      split at h
      · simp at h
      rename_i h8
      split at h
      · rename_i clock hc
        simp only [Except.ok.injEq] at h
        rw [h] at hc
        exact absurd hc clockVerdict_not_accept
      · rename_i hc
        obtain ⟨hs, hb⟩ := clockVerdict_eq_none.1 hc
        split at h
        · simp at h
        rename_i h9
        split at h
        · simp at h
        rename_i h10
        obtain ⟨hop, hr⟩ := verifyOperation_accept.1 h
        refine ⟨⟨by simpa using h1, by simpa using h2, by omega, by omega, by simpa using h5,
          by simpa using h6, by simpa using h7, by simpa using h8, hs, hb, ?_, ?_, hop⟩, hr⟩
        · intro ho; by_contra hk; exact h9 ⟨ho, hk⟩
        · intro ho
          by_contra hk
          exact h10 ⟨ho, by cases hp : record.powProof <;> simp_all⟩
    -- with every field met no refusal applies, and the operation decides
    · rintro ⟨hs, rfl, rfl, rfl⟩
      have hc : clockVerdict r.notBefore now = none := clockVerdict_eq_none.2 ⟨hs.skew, hs.backdate⟩
      rw [if_neg (by simp [hs.seq]), if_neg (by simp [hs.prevHash]),
        if_neg (by have := hs.interval; omega), if_neg (by have := hs.suite; omega),
        if_neg (by simp [hs.revoked]), if_neg (by simp [hs.live]), if_neg (by simp [hs.settled]),
        if_neg (by simp [hs.sig])]
      simp only [hc]
      rw [if_neg (by simpa using hs.owner), if_neg]
      · exact verifyOperation_accept.2 ⟨hs.operation, rfl, rfl, rfl⟩
      · rintro ⟨ho, hp⟩; simp [hs.pow ho] at hp

/-- An admitted record is accepted as a registration or as a successor. -/
def JudgedOK (C : Crypto) (record : RegistryRecord) (state : RegistryView) (now : ℕ)
    (ignoreIncumbent : Bool) : Prop :=
  ∃ input, signingInput record.map = .ok input ∧
    ((record.op = .register ∧
        RegisterOK C record input (state.current record.name record.tld) state now ignoreIncumbent) ∨
      (record.op ≠ .register ∧ ∃ p, state.current record.name record.tld = some p ∧
        SuccessorOK C record input p state now))

/-- When an admitted record is accepted. -/
theorem judge_accept {r : RegistryRecord} {v : Option (List Bytes)} {d : Bool} :
    judge C record state now ignoreIncumbent = .ok (.accept r v d) ↔
      JudgedOK C record state now ignoreIncumbent ∧ r = record ∧ v = none ∧ d = false := by
  unfold judge JudgedOK
  rw [Except.bind_eq_ok]
  constructor
  · rintro ⟨input, hin, h⟩
    split_ifs at h with hop
    · obtain ⟨hok, hr⟩ := verifyRegister_accept.1 h
      exact ⟨⟨input, hin, Or.inl ⟨hop, hok⟩⟩, hr⟩
    · obtain ⟨⟨p, hp, hok⟩, hr⟩ := verifySuccessor_accept.1 h
      exact ⟨⟨input, hin, Or.inr ⟨hop, p, hp, hok⟩⟩, hr⟩
  · rintro ⟨⟨input, hin, ⟨hop, hok⟩ | ⟨hop, p, hp, hok⟩⟩, hr⟩
    · exact ⟨input, hin, by rw [if_pos hop]; exact verifyRegister_accept.2 ⟨hok, hr⟩⟩
    · exact ⟨input, hin, by rw [if_neg hop]; exact verifySuccessor_accept.2 ⟨⟨p, hp, hok⟩, hr⟩⟩

/-- **Acceptance**: the bytes are admitted, and their record passes against state and clock. -/
theorem verify_accept {b : Bytes} {r : RegistryRecord} {v : Option (List Bytes)} {d : Bool} :
    verify C b state now ignoreIncumbent = .ok (.accept r v d) ↔
      admitBytes b = .ok r ∧ JudgedOK C r state now ignoreIncumbent ∧ v = none ∧ d = false := by
  unfold verify
  cases h : admitBytes b with
  | error e => simp
  | ok record =>
    rw [judge_accept]
    simp only [Except.ok.injEq]
    constructor
    · rintro ⟨hj, rfl, hv⟩; exact ⟨rfl, hj, hv⟩
    · rintro ⟨rfl, hj, hv⟩; exact ⟨hj, rfl, hv⟩

/-! ## The codes of a refusal -/

/-- The codes the rules of the single operations refuse with. -/
def operationCodes : List VerifyRejection :=
  [.badTerm, .missingPow, .tooSoon, .badPow, .badOwner, .unsettled, .badCosig, .badRecordEntry, .unknownOp]

/-- The codes a successor is refused with. -/
def successorCodes : List VerifyRejection :=
  [.noPredecessor, .badSeq, .badChain, .suiteDowngrade, .revoked, .expired, .badSig, .backdated,
    .unexpectedPow] ++ operationCodes

/-- The codes a registration is refused with. -/
def registerCodes : List VerifyRejection := [.badChain, .nameTaken, .badTerm, .badSig, .badPow, .backdated]

theorem clockVerdict_code {notBefore now : ℕ} {code : VerifyRejection} {detail : String}
    (h : clockVerdict notBefore now = some (.reject code detail)) : code = .backdated := by
  unfold clockVerdict at h
  split_ifs at h
  · simp at h
  · simp only [Option.some.injEq, Verdict.reject.injEq] at h
    exact h.1.symm

/-- The codes the rules of an operation refuse with. -/
theorem verifyOperation_code {code : VerifyRejection} {detail : String}
    (h : verifyOperation C record prev input state = .ok (.reject code detail)) :
    code ∈ operationCodes := by
  have hcode : ∀ {c : VerifyRejection} {d : String}, c ∈ operationCodes →
      (Except.ok (Verdict.reject c d) : Except Thrown Verdict) = .ok (.reject code detail) →
        code ∈ operationCodes := by
    intro c d hc heq
    simp only [Except.ok.injEq, Verdict.reject.injEq] at heq
    rw [← heq.1]
    exact hc
  unfold verifyOperation at h
  -- every refusal of the operation's own rules is one of its own codes
  cases hop : record.op <;> simp only [hop] at h
  case register => exact hcode (by decide) h
  case renew =>
    iterate 3 (split at h; · exact hcode (by decide) h)
    split at h
    · simp at h
    · exact hcode (by decide) h
    · simp at h
  case transfer =>
    iterate 3 (split at h; · exact hcode (by decide) h)
    split at h
    · exact hcode (by decide) h
    · split at h
      · exact hcode (by decide) h
      · simp at h
  case update =>
    split at h
    · exact hcode (by decide) h
    · simp at h
  all_goals
    iterate 2 (split at h; · exact hcode (by decide) h)
    simp at h

/-- The codes a successor is refused with. -/
theorem verifySuccessor_code {code : VerifyRejection} {detail : String}
    (h : verifySuccessor C record input previous state now = .ok (.reject code detail)) :
    code ∈ successorCodes := by
  have hcode : ∀ {c : VerifyRejection} {d : String}, c ∈ successorCodes →
      (Except.ok (Verdict.reject c d) : Except Thrown Verdict) = .ok (.reject code detail) →
        code ∈ successorCodes := by
    intro c d hc heq
    simp only [Except.ok.injEq, Verdict.reject.injEq] at heq
    rw [← heq.1]
    exact hc
  unfold verifySuccessor at h
  cases previous with
  | none => exact hcode (by decide) h
  | some p =>
    simp only at h
    iterate 8 (split at h; · exact hcode (by decide) h)
    split at h
    · rename_i clock hc
      simp only [Except.ok.injEq] at h
      rw [h] at hc
      rw [clockVerdict_code hc]
      decide
    · iterate 2 (split at h; · exact hcode (by decide) h)
      exact List.mem_append_right _ (verifyOperation_code h)

/-- The codes a REGISTER is refused with. -/
theorem verifyRegister_code {code : VerifyRejection} {detail : String}
    (h : verifyRegister C record input previous state now ignoreIncumbent = .ok (.reject code detail)) :
    code ∈ registerCodes := by
  have hcode : ∀ {c : VerifyRejection} {d : String}, c ∈ registerCodes →
      (Except.ok (Verdict.reject c d) : Except Thrown Verdict) = .ok (.reject code detail) →
        code ∈ registerCodes := by
    intro c d hc heq
    simp only [Except.ok.injEq, Verdict.reject.injEq] at heq
    rw [← heq.1]
    exact hc
  unfold verifyRegister at h
  iterate 4 (split at h; · exact hcode (by decide) h)
  split at h
  · simp at h
  · exact hcode (by decide) h
  · split at h
    · rename_i clock hc
      simp only [Except.ok.injEq] at h
      rw [h] at hc
      rw [clockVerdict_code hc]
      decide
    · simp at h

/-! ## A name that is taken -/

/-- When a REGISTER finds its name taken. -/
theorem verifyRegister_nameTaken {detail : String}
    (h : verifyRegister C record input previous state now ignoreIncumbent =
      .ok (.reject .nameTaken detail)) :
    record.seq = 0 ∧ isHeld previous state now = true ∧ ignoreIncumbent = false := by
  unfold verifyRegister at h
  split at h
  · simp at h
  rename_i h1
  simp only [not_or, Decidable.not_not] at h1
  split at h
  · rename_i h2
    exact ⟨h1.1, h2.1, by simpa using h2.2⟩
  iterate 2 (split at h; · simp at h)
  split at h
  · simp at h
  · simp at h
  · split at h
    · rename_i clock hc
      simp only [Except.ok.injEq] at h
      rw [h] at hc
      exact absurd (clockVerdict_code hc) (by decide)
    · simp at h

/-- A record is refused for a name that is taken when it is a registration of a held name. -/
theorem judge_nameTaken {detail : String}
    (h : judge C record state now ignoreIncumbent = .ok (.reject .nameTaken detail)) :
    record.op = .register ∧ record.seq = 0 ∧
      isHeld (state.current record.name record.tld) state now = true := by
  obtain ⟨input, -, h⟩ := Except.bind_eq_ok.1 h
  split at h
  · rename_i hop
    obtain ⟨hseq, hheld, -⟩ := verifyRegister_nameTaken h
    exact ⟨hop, hseq, hheld⟩
  · exact absurd (verifySuccessor_code h) (by decide)

/-- A well-formed registration of a held name is refused for that, whatever else is wrong with
it. -/
theorem verify_taken {b : Bytes} {r : RegistryRecord} (hb : admitBytes b = .ok r)
    (hop : r.op = .register) (hseq : r.seq = 0) (hprev : r.prevHash = zeroHash)
    (hheld : isHeld (state.current r.name r.tld) state now = true) :
    verify C b state now false = .ok (.reject .nameTaken s!"{r.name}.{r.tld} is held") := by
  obtain ⟨es, hes⟩ := admission_of_admit hb
  unfold verify
  rw [hb]
  simp only [judge, signingInput_eq hes, Except.ok_bind, hop, if_true]
  unfold verifyRegister
  rw [if_neg (by simp [hseq, hprev, isZeroHash]), if_pos ⟨hheld, by simp⟩]

end VayuWeb
