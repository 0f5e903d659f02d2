import VayuWeb.Proof.Verify
import VayuWeb.Proof.Sample

/-!
# Encodings that share a signature

* `signingInput_eq_iff`: two admitted records have one signing input exactly when they agree
  on every field but `sig` and `coSig`.
* `accepted_bytes_eq_iff`: accepted encodings of one signed message are equal exactly when both
  or neither carry `coSig`.
* `evidence_signs_two_messages_iff`: verifying equivocation evidence holds two messages exactly
  when its records differ in a field the signature covers.
-/

namespace VayuWeb

open Bytes
open DetCbor (Key Value Canonical)

/-! ## Reading a map -/

/-- What a map without repeated keys has under a key. -/
theorem get?_eq_some_iff {m : CborMap} (hnd : (m.map Prod.fst).Nodup) {k : String} {v : CborValue} :
    m.get? k = some v ↔ (Key.text k, v) ∈ m := by
  induction m with
  | nil => simp [CborMap.get?]
  | cons e m ih =>
    obtain ⟨k', v'⟩ := e
    simp only [List.map_cons, List.nodup_cons] at hnd
    simp only [CborMap.get?, List.mem_cons, Prod.mk.injEq]
    split_ifs with hk
    · subst hk
      simp only [Option.some.injEq, true_and]
      constructor
      · rintro rfl; exact Or.inl rfl
      · rintro (rfl | h)
        · rfl
        · exact absurd (List.mem_map_of_mem (f := Prod.fst) h) hnd.1
    · rw [ih hnd.2]
      constructor
      · exact Or.inr
      · rintro (⟨rfl, -⟩ | h)
        · exact absurd rfl hk
        · exact h

theorem has_eq_isSome (m : CborMap) (k : String) : m.has k = (m.get? k).isSome := by
  induction m with
  | nil => rfl
  | cons e m ih =>
    obtain ⟨k', v'⟩ := e
    simp only [CborMap.has, List.any_cons, CborMap.get?] at ih ⊢
    split_ifs with hk <;> simp [hk, ih]

/-- The fields that are not signed. -/
theorem isSignatureField_iff {k : Key} :
    isSignatureField k = true ↔ k = .text "sig" ∨ k = .text "coSig" := by
  cases k <;> simp [isSignatureField, signatureFields]

section Wire

variable {b b₁ b₂ : Bytes} {r r₁ r₂ : RegistryRecord} {es es₁ es₂ : List (Key × Value)}

/-- No field of an admitted record is repeated. -/
theorem Admission.keys_nodup (h : Admission b r es) : (r.map.map Prod.fst).Nodup := by
  rw [h.map, List.map_map]
  exact sortedKeys_nodup (DetCbor.canonical_map.1 h.canonical).2.1

/-- An entry of one record is on the wire of another when it is in that record's map. -/
theorem Admission.mem_iff (h₁ : Admission b₁ r₁ es₁) (h₂ : Admission b₂ r₂ es₂) {e : Key × Value}
    (he : e ∈ es₁) : (e.1, ofWire e.2) ∈ r₂.map ↔ e ∈ es₂ := by
  rw [h₂.map, List.mem_map]
  constructor
  · rintro ⟨e', he', heq⟩
    simp only [Prod.mk.injEq] at heq
    have hv : e'.2 = e.2 :=
      ofWire_inj ((DetCbor.canonical_map.1 h₂.canonical).2.2 e' he').2
        ((DetCbor.canonical_map.1 h₁.canonical).2.2 e he).2 (entriesKeys_bomFree h₂.bomFree e' he').2
        (entriesKeys_bomFree h₁.bomFree e he).2 heq.2
    rwa [show e = e' from Prod.ext heq.1.symm hv.symm]
  · intro h; exact ⟨e, h, rfl⟩

/-- The fields of an admitted record, decoded and on the wire. -/
theorem Admission.mem_map (h : Admission b r es) {kv : Key × CborValue} :
    kv ∈ r.map ↔ ∃ e ∈ es, (e.1, ofWire e.2) = kv := by
  rw [h.map, List.mem_map]

/-- The order of entries adds nothing: sorted maps with the same entries are equal. -/
theorem sortedKeys_ext {es₁ es₂ : List (Key × Value)} (h₁ : DetCbor.SortedKeys es₁)
    (h₂ : DetCbor.SortedKeys es₂) (h : ∀ e, e ∈ es₁ ↔ e ∈ es₂) : es₁ = es₂ := by
  have : Std.Irrefl fun e f : Key × Value => e.1.encode < f.1.encode := ⟨fun e => List.lt_irrefl _⟩
  exact List.Pairwise.eq_of_mem_iff h₁ h₂ h

/-- **One map, one encoding.** -/
theorem Admission.ext (h₁ : Admission b₁ r₁ es₁) (h₂ : Admission b₂ r₂ es₂)
    (h : ∀ kv, kv ∈ r₁.map ↔ kv ∈ r₂.map) : b₁ = b₂ := by
  have hes : es₁ = es₂ := by
    refine sortedKeys_ext (DetCbor.canonical_map.1 h₁.canonical).2.1
      (DetCbor.canonical_map.1 h₂.canonical).2.1 fun e => ⟨fun he => ?_, fun he => ?_⟩
    · exact (h₁.mem_iff h₂ he).1 ((h _).1 (h₁.mem_map.2 ⟨e, he, rfl⟩))
    · exact (h₂.mem_iff h₁ he).1 ((h _).2 (h₂.mem_map.2 ⟨e, he, rfl⟩))
  rw [h₁.bytes, h₂.bytes, hes]

/-- **One signing input, one record but for its signature fields.** -/
theorem signingInput_eq_iff (h₁ : Admission b₁ r₁ es₁) (h₂ : Admission b₂ r₂ es₂) :
    signingInput r₁.map = signingInput r₂.map ↔
      ∀ k v, isSignatureField k = false → ((k, v) ∈ r₁.map ↔ (k, v) ∈ r₂.map) := by
  constructor
  · intro h k v hk
    have hes := signedPart_eq_of_signingInput_eq h₁ h₂ h
    have hmem : ∀ e : Key × Value, isSignatureField e.1 = false → (e ∈ es₁ ↔ e ∈ es₂) := by
      intro e he
      have h1 : e ∈ es₁ ↔ e ∈ signedPart es₁ := by simp [signedPart, he]
      have h2 : e ∈ es₂ ↔ e ∈ signedPart es₂ := by simp [signedPart, he]
      rw [h1, h2, hes]
    rw [h₁.mem_map, h₂.mem_map]
    constructor
    · rintro ⟨e, he, heq⟩
      simp only [Prod.mk.injEq] at heq
      exact ⟨e, (hmem e (by rw [heq.1]; exact hk)).1 he, by rw [heq.1, heq.2]⟩
    · rintro ⟨e, he, heq⟩
      simp only [Prod.mk.injEq] at heq
      exact ⟨e, (hmem e (by rw [heq.1]; exact hk)).2 he, by rw [heq.1, heq.2]⟩
  · intro h
    have hes : signedPart es₁ = signedPart es₂ := by
      have hs₁ := (DetCbor.canonical_map.1 h₁.canonical).2.1
      have hs₂ := (DetCbor.canonical_map.1 h₂.canonical).2.1
      -- sorted members are fixed by which they are
      refine sortedKeys_ext (List.Pairwise.filter _ hs₁) (List.Pairwise.filter _ hs₂) fun e => ?_
      simp only [signedPart, List.mem_filter, decide_eq_true_eq, Bool.not_eq_true]
      refine and_congr_left fun hk => ⟨fun he => ?_, fun he => ?_⟩
      · exact (h₁.mem_iff h₂ he).1 ((h _ _ hk).1 (h₁.mem_map.2 ⟨e, he, rfl⟩))
      · exact (h₂.mem_iff h₁ he).1 ((h _ _ hk).2 (h₂.mem_map.2 ⟨e, he, rfl⟩))
    rw [signingInput_eq h₁, signingInput_eq h₂, hes]

/-- Records that share their signing input and their signature fields are the same bytes. -/
theorem bytes_eq_of_fields_eq (h₁ : Admission b₁ r₁ es₁) (h₂ : Admission b₂ r₂ es₂)
    (hin : signingInput r₁.map = signingInput r₂.map) (hsig : r₁.map.get? "sig" = r₂.map.get? "sig")
    (hco : r₁.map.get? "coSig" = r₂.map.get? "coSig") : b₁ = b₂ := by
  refine h₁.ext h₂ fun ⟨k, v⟩ => ?_
  cases hk : isSignatureField k with
  | false => exact (signingInput_eq_iff h₁ h₂).1 hin k v hk
  | true =>
    rcases isSignatureField_iff.1 hk with rfl | rfl
    · rw [← get?_eq_some_iff h₁.keys_nodup, ← get?_eq_some_iff h₂.keys_nodup, hsig]
    · rw [← get?_eq_some_iff h₁.keys_nodup, ← get?_eq_some_iff h₂.keys_nodup, hco]

end Wire

/-! ## Accepted encodings of one signed message -/

/-- `verify` accepts the bytes against this view and clock. -/
def Accepts (C : Crypto) (bytes : Bytes) (state : RegistryView) (now : ℕ) : Prop :=
  ∃ record voided duplicate, verify C bytes state now false = .ok (.accept record voided duplicate)

/-- What is accepted was admitted. -/
theorem Accepts.admitted {C : Crypto} {b : Bytes} {state : RegistryView} {now : ℕ} {m : CborMap}
    (h : Accepts C b state now) (hd : decode b = .ok (.map m)) :
    ∃ r es, Admission b r es ∧ r.map = m := by
  obtain ⟨r, v, d, hv⟩ := h
  have hr := (verify_accept.1 hv).1
  obtain ⟨es, hes⟩ := admission_of_admit hr
  have hm := (admit_eq_ok.1 hr).2.1
  rw [hd, Except.ok.injEq, CborValue.map.injEq] at hm
  exact ⟨r, es, hes, hm.symm⟩

variable {C : Crypto} {a b b₁ b₂ : Bytes} {m₁ m₂ : CborMap} {state : RegistryView} {now : ℕ}

/-- **Accepted encodings of one signed message are equal exactly when both or neither carry
`coSig`**: off TRANSFER the schema admits the field as null and admits it absent, and no
signature covers it. -/
theorem accepted_bytes_eq_iff (h₁ : Accepts C b₁ state now) (h₂ : Accepts C b₂ state now)
    (hd₁ : decode b₁ = .ok (.map m₁)) (hd₂ : decode b₂ = .ok (.map m₂))
    (hin : signingInput m₁ = signingInput m₂) (hsig : m₁.get? "sig" = m₂.get? "sig")
    (hco : m₁.get? "op" = some (.text "TRANSFER") → m₁.get? "coSig" = m₂.get? "coSig") :
    b₁ = b₂ ↔ (m₁.has "coSig" = m₂.has "coSig") := by
  obtain ⟨r₁, es₁, ha₁, rfl⟩ := h₁.admitted hd₁
  obtain ⟨r₂, es₂, ha₂, rfl⟩ := h₂.admitted hd₂
  constructor
  · rintro rfl
    rw [hd₁, Except.ok.injEq, CborValue.map.injEq] at hd₂
    rw [hd₂]
  · intro hhas
    refine bytes_eq_of_fields_eq ha₁ ha₂ hin hsig ?_
    rw [has_eq_isSome, has_eq_isSome] at hhas
    rcases ha₁.parsed.coSig with ⟨hop, -⟩ | ⟨hop₁, -, hg₁⟩
    · exact hco (by rw [ha₁.parsed.op, hop]; rfl)
    · rcases ha₂.parsed.coSig with ⟨hop₂, -⟩ | ⟨hop₂, -, hg₂⟩
      · -- the two operations are the same, since signatures cover `op`
        have hop := (signingInput_eq_iff ha₁ ha₂).1 hin (.text "op") (.text r₁.op.name) rfl
        rw [← get?_eq_some_iff ha₁.keys_nodup, ← get?_eq_some_iff ha₂.keys_nodup] at hop
        have h2 := hop.1 ha₁.parsed.op
        rw [ha₂.parsed.op, hop₂, Option.some.injEq, CborValue.text.injEq] at h2
        exact absurd (by revert h2; cases r₁.op <;> decide) hop₁
      · rcases hg₁ with h1 | h1 <;> rcases hg₂ with h2 | h2 <;> rw [h1, h2] at hhas ⊢ <;>
          simp at hhas

/-- The view of a store that holds `first`. -/
def afterFirst : RegistryView := (Sample.enter .empty Sample.first).view Sample.crypto

theorem accepts_update : Accepts Sample.crypto Sample.update.bytes afterFirst 1700000000 :=
  ⟨_, _, _, verify_accept.2 ⟨Sample.update_ok.admitted, Sample.update_ok.judged, rfl, rfl⟩⟩

theorem accepts_updateNull : Accepts Sample.crypto Sample.updateNull.bytes afterFirst 1700000000 :=
  ⟨_, _, _, verify_accept.2 ⟨Sample.updateNull_ok.admitted, Sample.updateNull_ok.judged, rfl, rfl⟩⟩

theorem decode_update : decode Sample.update.bytes = .ok (.map Sample.update.record.map) :=
  (admit_eq_ok.1 Sample.update_ok.admitted).2.1

theorem decode_updateNull : decode Sample.updateNull.bytes = .ok (.map Sample.updateNull.record.map) :=
  (admit_eq_ok.1 Sample.updateNull_ok.admitted).2.1

/-- `coSig` is no part of what is signed. -/
theorem signingInput_updateNull :
    signingInput Sample.updateNull.record.map = signingInput Sample.update.record.map := by
  have hcore : core Sample.updateNull.record.map = core Sample.update.record.map := rfl
  have hsuite : Sample.updateNull.record.map.get? "suite" = Sample.update.record.map.get? "suite" := rfl
  unfold signingInput
  rw [hcore, hsuite]

theorem update_not_transfer : Sample.update.record.map.get? "op" ≠ some (.text "TRANSFER") := by
  rw [(admit_eq_ok.1 Sample.update_ok.admitted).2.2.1.op]
  simp [Sample.SampleRecord.record, Sample.update, Operation.name]

/-- The two encodings of one signed UPDATE. -/
theorem accepted_bytes_update :
    Sample.update.bytes = Sample.updateNull.bytes ↔
      (Sample.update.record.map.has "coSig" = Sample.updateNull.record.map.has "coSig") :=
  accepted_bytes_eq_iff accepts_update accepts_updateNull decode_update decode_updateNull
    signingInput_updateNull.symm rfl fun hop => absurd hop update_not_transfer

/-- An accepted UPDATE stays accepted, under another hash, when `coSig: null` is added. -/
theorem accepted_bytes_malleable : ¬ ∀ (C : Crypto) (state : RegistryView) (now : ℕ) (b₁ b₂ : Bytes)
    (m₁ m₂ : CborMap), Accepts C b₁ state now → Accepts C b₂ state now →
      decode b₁ = .ok (.map m₁) → decode b₂ = .ok (.map m₂) → signingInput m₁ = signingInput m₂ →
      m₁.get? "sig" = m₂.get? "sig" →
      (m₁.get? "op" = some (.text "TRANSFER") → m₁.get? "coSig" = m₂.get? "coSig") → b₁ = b₂ := by
  intro h
  have heq := h _ _ _ _ _ _ _ accepts_update accepts_updateNull decode_update decode_updateNull
    signingInput_updateNull.symm rfl fun hop => absurd hop update_not_transfer
  have hdecode := decode_update
  rw [heq, decode_updateNull, Except.ok.injEq, CborValue.map.injEq] at hdecode
  have hnull : Sample.updateNull.record.map.has "coSig" = true := rfl
  rw [hdecode, show Sample.update.record.map.has "coSig" = false from rfl] at hnull
  simp at hnull

/-! ## Equivocation evidence -/

/-- The named owner's signature: `coSig` on a TRANSFER, `sig` on the rest. -/
def ownerSignature (record : RegistryRecord) : Option Bytes :=
  if record.op = .transfer then record.coSig else some record.sig

/-- When the registry attributes a record to its owner. -/
theorem signedByNamedOwner_eq_true {r : RegistryRecord} : signedByNamedOwner C r = .ok true ↔
    ∃ signature input, ownerSignature r = some signature ∧ signingInput r.map = .ok input ∧
      verifyStrict C r.ownerKey input signature = true := by
  unfold signedByNamedOwner ownerSignature
  split
  · rename_i h; simp [h]
  · rename_i signature h
    simp only [h, Except.bind_eq_ok, Except.pure_eq_ok, Except.ok.injEq, Option.some.injEq]
    constructor
    · rintro ⟨input, hin, hv⟩; exact ⟨_, _, rfl, hin, hv⟩
    · rintro ⟨_, _, rfl, hin, hv⟩; exact ⟨_, hin, hv⟩

/-- A successor is signed by the owner it names. -/
theorem SuccessorOK.signed {r : RegistryRecord} {input : Bytes} {p : Predecessor}
    (h : SuccessorOK C r input p state now) : ∃ signature, ownerSignature r = some signature ∧
      verifyStrict C r.ownerKey input signature = true := by
  unfold ownerSignature
  by_cases hop : r.op = .transfer
  · have hoper := h.operation
    unfold OperationOK at hoper
    rw [hop] at hoper
    obtain ⟨-, -, -, coSig, hco, hv⟩ := hoper
    exact ⟨coSig, by rw [if_pos hop, hco], hv⟩
  · -- a settled predecessor is controlled by the owner it names
    have hcontrol : controllingKey p r.notBefore = r.ownerKey := by
      rw [h.owner hop]
      have hsettled := h.settled
      unfold isUnsettled at hsettled
      unfold controllingKey
      simp only
      rw [if_neg]
      rintro ⟨htransfer, hearly⟩
      simp [htransfer, hearly, hop] at hsettled
    exact ⟨r.sig, if_neg hop, by rw [← hcontrol]; exact h.sig⟩

/-- A record the verifier passes is signed by the owner it names, on either path. -/
theorem JudgedOK.signed {r : RegistryRecord} {ignore : Bool} (h : JudgedOK C r state now ignore) :
    signedByNamedOwner C r = .ok true := by
  rw [signedByNamedOwner_eq_true]
  obtain ⟨input, hinput, ⟨hop, hr⟩ | ⟨-, p, -, hs⟩⟩ := h
  · refine ⟨r.sig, input, ?_, hinput, hr.sig⟩
    unfold ownerSignature
    rw [if_neg (by simp [hop])]
  · obtain ⟨signature, hsig, hv⟩ := hs.signed
    exact ⟨signature, input, hsig, hinput, hv⟩

/-- What verifying evidence consists of. -/
structure Evidence (C : Crypto) (a b : Bytes) (left right : RegistryRecord) : Prop where
  admitLeft : admitBytes a = .ok left
  admitRight : admitBytes b = .ok right
  name : left.name = right.name
  tld : left.tld = right.tld
  seq : left.seq = right.seq
  hash : recordHashFromBytes C a ≠ recordHashFromBytes C b
  owner : left.ownerKey = right.ownerKey
  signedLeft : signedByNamedOwner C left = .ok true
  signedRight : signedByNamedOwner C right = .ok true

/-- When two records are an equivocation. -/
theorem isEquivocation_evidence {left right : RegistryRecord} :
    isEquivocation (evidenceCandidate C a left) (evidenceCandidate C b right) =
      .ok (decide (left.name = right.name ∧ left.tld = right.tld ∧ left.seq = right.seq ∧
        recordHashFromBytes C a ≠ recordHashFromBytes C b ∧ left.ownerKey = right.ownerKey)) := by
  have hlen : (recordHashFromBytes C a).length = (recordHashFromBytes C b).length := by
    simp only [recordHashFromBytes, C.length_blake2b]
  unfold isEquivocation conflicts compareHashes evidenceCandidate
  simp only [hlen, ne_eq, not_true_eq_false, if_false, Except.ok_bind, Except.pure_eq_ok]
  by_cases hn : left.name = right.name ∧ left.tld = right.tld
  · obtain ⟨hn, ht⟩ := hn
    by_cases hs : left.seq = right.seq
    · simp only [hn, ht, hs, not_true_eq_false, or_self, if_false, Except.ok_bind, compareBytes_eq,
        true_and]
      by_cases hh : recordHashFromBytes C a = recordHashFromBytes C b <;> simp [hh]
    · simp [hn, ht, hs]
  · have hn' : ¬ left.name = right.name ∨ ¬ left.tld = right.tld := by
      rwa [not_and_or] at hn
    simp only [hn', if_true, Except.ok_bind, Bool.false_eq_true, if_false, Except.ok.injEq]
    symm; rw [decide_eq_false_iff_not]
    rintro ⟨h1, h2, -⟩; exact hn ⟨h1, h2⟩

/-- **Verifying evidence**, spelled out. -/
theorem verifyEquivocation_eq_true : verifyEquivocation C a b = .ok true ↔
    ∃ left right, Evidence C a b left right := by
  unfold verifyEquivocation limitRecordBytes
  constructor
  · intro h
    split at h
    · simp at h
    split at h
    · rename_i left right hl hr
      rw [isEquivocation_evidence] at h
      simp only [Except.ok_bind] at h
      split at h
      · rename_i hd
        -- the fields that must agree, the hashes that must not, then both signatures
        simp only [decide_eq_true_eq] at hd
        obtain ⟨hn, ht, hs, hh, ho⟩ := hd
        obtain ⟨sl, hsl, h⟩ := Except.bind_eq_ok.1 h
        cases sl with
        | false => simp at h
        | true =>
          exact ⟨left, right, parseRecordBytes_eq_ok.1 hl, parseRecordBytes_eq_ok.1 hr, hn, ht, hs, hh, ho,
            hsl, h⟩
      · simp at h
    · simp at h
  · rintro ⟨left, right, h⟩
    have hl := (admit_eq_ok.1 h.admitLeft).1
    have hr := (admit_eq_ok.1 h.admitRight).1
    rw [if_neg (by omega), parseRecordBytes_eq_ok.2 h.admitLeft, parseRecordBytes_eq_ok.2 h.admitRight]
    simp only [isEquivocation_evidence, h.name, h.tld, h.seq, h.hash, h.owner, ne_eq, not_false_eq_true,
      and_self, decide_true, Except.ok_bind, if_true, h.signedLeft, h.signedRight]

/-- Of two records signed by the owners they name, the fields decide. -/
theorem verifyEquivocation_eq {a b : Bytes} {left right : RegistryRecord} (ha : admitBytes a = .ok left)
    (hb : admitBytes b = .ok right) (hl : signedByNamedOwner C left = .ok true)
    (hr : signedByNamedOwner C right = .ok true) : verifyEquivocation C a b =
      .ok (decide (left.name = right.name ∧ left.tld = right.tld ∧ left.seq = right.seq ∧
        recordHashFromBytes C a ≠ recordHashFromBytes C b ∧ left.ownerKey = right.ownerKey)) := by
  have hlena := (admit_eq_ok.1 ha).1
  have hlenb := (admit_eq_ok.1 hb).1
  unfold verifyEquivocation limitRecordBytes
  rw [if_neg (by omega), parseRecordBytes_eq_ok.2 ha, parseRecordBytes_eq_ok.2 hb]
  simp only [isEquivocation_evidence, Except.ok_bind, hl, hr, if_true]
  split <;> simp_all

/-- The key both maps name as `ownerKey` signed the signing inputs of both, and they differ. -/
def SignsTwoMessages (C : Crypto) (m₁ m₂ : CborMap) : Prop :=
  ∃ key s₁ s₂ in₁ in₂, m₁.get? "ownerKey" = some (.bytes key) ∧ m₂.get? "ownerKey" = some (.bytes key) ∧
    signingInput m₁ = .ok in₁ ∧ signingInput m₂ = .ok in₂ ∧
    verifyStrict C key in₁ s₁ = true ∧ verifyStrict C key in₂ s₂ = true ∧ in₁ ≠ in₂

/-- **Verifying evidence holds two different messages signed by the key both records name
exactly when the records differ in a field other than `sig` and `coSig`.** Re-wrapping one
signed message in another `coSig`, or a TRANSFER in another `sig`, verifies too. -/
theorem evidence_signs_two_messages_iff (h : verifyEquivocation C a b = .ok true)
    (hd₁ : decode a = .ok (.map m₁)) (hd₂ : decode b = .ok (.map m₂)) :
    SignsTwoMessages C m₁ m₂ ↔
      ∃ k v, k ≠ .text "sig" ∧ k ≠ .text "coSig" ∧ ¬ ((k, v) ∈ m₁ ↔ (k, v) ∈ m₂) := by
  obtain ⟨left, right, he⟩ := verifyEquivocation_eq_true.1 h
  obtain ⟨es₁, ha₁⟩ := admission_of_admit he.admitLeft
  obtain ⟨es₂, ha₂⟩ := admission_of_admit he.admitRight
  have hm₁ := (admit_eq_ok.1 he.admitLeft).2.1
  have hm₂ := (admit_eq_ok.1 he.admitRight).2.1
  rw [hd₁, Except.ok.injEq, CborValue.map.injEq] at hm₁
  rw [hd₂, Except.ok.injEq, CborValue.map.injEq] at hm₂
  subst hm₁ hm₂
  obtain ⟨s₁, in₁, -, hin₁, hv₁⟩ := signedByNamedOwner_eq_true.1 he.signedLeft
  obtain ⟨s₂, in₂, -, hin₂, hv₂⟩ := signedByNamedOwner_eq_true.1 he.signedRight
  have hiff := signingInput_eq_iff ha₁ ha₂
  constructor
  · rintro ⟨-, -, -, in₁', in₂', -, -, h1, h2, -, -, hne⟩
    by_contra hall
    apply hne
    -- differing in the signature fields alone, both would sign one message
    have heq : signingInput left.map = signingInput right.map := by
      rw [hiff]
      intro k v hk
      by_contra hkv
      refine hall ⟨k, v, ?_, ?_, hkv⟩
      · rintro rfl; simp [isSignatureField, signatureFields] at hk
      · rintro rfl; simp [isSignatureField, signatureFields] at hk
    rw [h1, h2, Except.ok.injEq] at heq
    exact heq
  · rintro ⟨k, v, hk1, hk2, hkv⟩
    refine ⟨left.ownerKey, s₁, s₂, in₁, in₂, ha₁.parsed.ownerKey, ?_, hin₁, hin₂, hv₁, ?_, ?_⟩
    · rw [he.owner]; exact ha₂.parsed.ownerKey
    · rw [he.owner]; exact hv₂
    -- one message for both would make the maps agree outside the signature fields
    · rintro rfl
      refine hkv (hiff.1 (by rw [hin₁, hin₂]) k v ?_)
      cases hf : isSignatureField k with
      | false => rfl
      | true => rcases isSignatureField_iff.1 hf with h' | h' <;> contradiction

/-- The two registrations of one owner. -/
theorem evidence_registrations : verifyEquivocation Sample.crypto Sample.first.bytes Sample.again.bytes =
    .ok true := by
  rw [verifyEquivocation_eq Sample.first_ok.admitted Sample.again_ok.admitted Sample.first_ok.judged.signed
    Sample.again_ok.judged.signed]
  have hne : recordHashFromBytes Sample.crypto Sample.first.bytes ≠
      recordHashFromBytes Sample.crypto Sample.again.bytes := by
    have hfresh := Sample.again_ok.fresh
    intro heq
    simp [Store.has, Sample.enter, Store.empty, heq] at hfresh
  simpa [Sample.SampleRecord.record, Sample.first, Sample.again] using hne

theorem evidence_signs_registrations :
    SignsTwoMessages Sample.crypto Sample.first.record.map Sample.again.record.map ↔
      ∃ k v, k ≠ .text "sig" ∧ k ≠ .text "coSig" ∧
        ¬ ((k, v) ∈ Sample.first.record.map ↔ (k, v) ∈ Sample.again.record.map) :=
  evidence_signs_two_messages_iff evidence_registrations (admit_eq_ok.1 Sample.first_ok.admitted).2.1
    (admit_eq_ok.1 Sample.again_ok.admitted).2.1

/-- One signed UPDATE, with and without `coSig: null`, is evidence against its owner. -/
theorem evidence_manufactured : ¬ ∀ (C : Crypto) (a b : Bytes) (m₁ m₂ : CborMap),
    verifyEquivocation C a b = .ok true → decode a = .ok (.map m₁) → decode b = .ok (.map m₂) →
      SignsTwoMessages C m₁ m₂ := by
  intro h
  have htrue : verifyEquivocation Sample.crypto Sample.update.bytes Sample.updateNull.bytes = .ok true := by
    rw [verifyEquivocation_eq Sample.update_ok.admitted Sample.updateNull_ok.admitted
      Sample.update_ok.judged.signed Sample.updateNull_ok.judged.signed]
    have hne := Sample.hash_update_ne
    simpa [Sample.SampleRecord.record, Sample.update, Sample.updateNull] using hne
  obtain ⟨-, -, -, in₁, in₂, -, -, h1, h2, -, -, hne⟩ :=
    h Sample.crypto Sample.update.bytes Sample.updateNull.bytes _ _ htrue decode_update decode_updateNull
  rw [signingInput_updateNull, h1, Except.ok.injEq] at h2
  exact hne h2

end VayuWeb
