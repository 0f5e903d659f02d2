import VayuWeb.Proof.ClientSchema
import VayuWeb.Proof.Malleability

/-!
# Equivocation evidence on both sides

* `isEquivocationEvidence_eq_true`, `verifyEquivocation_iff`: each checker spelled out over the
  records the client parses.
* `evidence_agrees_iff`: when the two checkers agree.
-/

namespace VayuWeb.Client

open Bytes
open DetCbor (Key Value Canonical)

/-! ## The signing input -/

/-- No key of the map is a byte string. -/
def TextKeys (es : Members) : Prop := ∀ e ∈ es, ∃ s, e.1 = .text s

theorem encode_of_canonical {v : Value} (h : Canonical 33 v) : encode v = .ok v.encode :=
  encode_of_decode (decode_eq_ok.2 ⟨h, rfl⟩)

/-- The core of a map with text keys is what the registry's signature covers. -/
theorem coreOf_eq_ok {es core : Members} :
    coreOf es = .ok core ↔ TextKeys es ∧ core = signedPart es := by
  induction es generalizing core with
  | nil =>
    simp only [coreOf, TextKeys, signedPart, List.filter_nil, Except.ok.injEq, List.not_mem_nil,
      false_imp_iff, implies_true, true_and]
    exact eq_comm
  | cons e es ih =>
    obtain ⟨k, v⟩ := e
    cases k with
    | bytes b => simp [coreOf, TextKeys]
    | text name =>
      have hkeys : TextKeys ((.text name, v) :: es) ↔ TextKeys es := by
        simp [TextKeys]
      simp only [coreOf, Except.bind_eq_ok, ih, hkeys]
      have hsame : signatureFields.contains name = isSignatureField (.text name) := rfl
      rw [hsame]
      -- a signature field is left out of the core, any other is kept
      constructor
      · rintro ⟨core', ⟨htext, rfl⟩, h⟩
        refine ⟨htext, ?_⟩
        cases hsig : isSignatureField (.text name) with
        | true =>
          rw [if_pos hsig, Except.pure_eq_ok, Except.ok.injEq] at h
          rw [← h]
          simp [signedPart, hsig]
        | false =>
          rw [if_neg (by simp [hsig]), Except.pure_eq_ok, Except.ok.injEq] at h
          rw [← h]
          simp [signedPart, hsig]
      · rintro ⟨htext, rfl⟩
        refine ⟨_, ⟨htext, rfl⟩, ?_⟩
        cases hsig : isSignatureField (.text name) with
        | true =>
          rw [if_pos rfl, Except.pure_eq_ok]
          simp [signedPart, hsig]
        | false =>
          rw [if_neg (by simp), Except.pure_eq_ok]
          simp [signedPart, hsig]

/-- What is signed has no signatures to leave out. -/
theorem signedPart_idem (es : Members) : signedPart (signedPart es) = signedPart es := by
  simp [signedPart, List.filter_filter]

theorem textKeys_signedPart {es : Members} (h : TextKeys es) : TextKeys (signedPart es) :=
  fun e he => h e (List.mem_of_mem_filter he)

/-- What both sides sign and verify: the encoding of the map less its signature fields. -/
def messageOf (es : Members) : Bytes :=
  signingInput (Value.map (signedPart es)).encode launchSuite

/-- The client signs the canonical encoding of what is signed. -/
theorem encodeCore_signedPart {es : Members} (hc : Canonical 33 (.map es)) (htext : TextKeys es) :
    encodeCore (signedPart es) = .ok (Value.map (signedPart es)).encode := by
  have hcore : coreOf (signedPart es) = .ok (signedPart es) :=
    coreOf_eq_ok.2 ⟨textKeys_signedPart htext, (signedPart_idem es).symm⟩
  unfold encodeCore
  rw [hcore]
  exact encode_of_canonical (canonical_filter _ hc)

/-- The registry's signing input is the same message. -/
theorem registry_signingInput {b : Bytes} {r : RegistryRecord} {es : Members} (h : Admission b r es) :
    VayuWeb.signingInput r.map = .ok (messageOf es) :=
  signingInput_eq h

/-- The two signature checks differ on a key of another length alone. -/
theorem verifySignature_eq {C : Crypto} {publicKey message signature : Bytes}
    (h : publicKey.length = 32) :
    verifySignature C publicKey message signature = verifyStrict C publicKey message signature := by
  unfold verifySignature verifyStrict
  rw [if_neg (show ¬ publicKey.length ≠ publicKeyLength from not_not.2 h)]

/-! ## Attribution -/

section Evidence

variable {C : Crypto} {a b bytes : Bytes} {p q : ParsedRecord} {es : Members}

/-- The named owner's signature verifies over the map less its signature fields. -/
def Signed (C : Crypto) (p : ParsedRecord) : Prop :=
  ∃ signature, attributableSignature p = some signature ∧
    verifySignature C p.ownerKey (messageOf p.map) signature = true

/-- When the client attributes a record to its owner. -/
theorem attributable_eq_true (hc : Canonical 33 (.map es)) (hp : Parsed es p) :
    attributable C p = true ↔ TextKeys p.map ∧ Signed C p := by
  unfold attributable Signed messageOf
  rw [hp.map, hp.suite_eq]
  cases hcore : coreOf es with
  | error e =>
    have hnot : ¬ TextKeys es := by
      intro htext
      rw [coreOf_eq_ok.2 ⟨htext, rfl⟩] at hcore
      simp at hcore
    simp [hnot]
  | ok core =>
    obtain ⟨htext, rfl⟩ := coreOf_eq_ok.1 hcore
    simp only [encodeCore_signedPart hc htext, htext, true_and]
    cases attributableSignature p <;> simp

/-- When the client reads one half of an evidence pair. -/
theorem parseHalf_eq_some {h : Bytes} : parseHalf C bytes = some (p, h) ↔
    h = recordHashFromBytes C bytes ∧ ∃ es, Canonical 33 (.map es) ∧ bytes = (Value.map es).encode ∧
      Parsed es p := by
  unfold parseHalf
  cases hd : decode bytes with
  | error e =>
    simp only [Except.toOption_error, Option.bind_eq_bind, Option.bind_none, reduceCtorEq, false_iff, not_and,
      not_exists]
    intro _ es hc hb
    rw [decode_eq_ok.2 ⟨hc, hb⟩] at hd
    simp at hd
  | ok v =>
    have hencode := encode_of_decode hd
    obtain ⟨hcanonical, hbytes⟩ := decode_eq_ok.1 hd
    simp only [Except.toOption_ok, Option.bind_eq_bind, Option.bind_some, hencode, ne_eq, not_true_eq_false,
      if_false, Option.bind_eq_some_iff, Except.toOption_eq_some, parseRecord_eq_ok]
    constructor
    · rintro ⟨p', ⟨es, rfl, hp⟩, heq⟩
      simp only [Option.pure_def, Option.some.injEq, Prod.mk.injEq] at heq
      obtain ⟨rfl, rfl⟩ := heq
      exact ⟨rfl, es, hcanonical, hbytes, hp⟩
    · rintro ⟨rfl, es, hc, hb, hp⟩
      rw [decode_eq_ok.2 ⟨hc, hb⟩, Except.ok.injEq] at hd
      exact ⟨p, ⟨es, hd.symm, hp⟩, rfl⟩

/-- Two halves that conflict: one slot, one owner, two hashes, and each signed by that owner. -/
structure DoublySigned (C : Crypto) (a b : Bytes) (p q : ParsedRecord) : Prop where
  parseLeft : parseBytes a = .ok p
  parseRight : parseBytes b = .ok q
  label : p.label = q.label
  tld : p.tld = q.tld
  seq : p.seq = q.seq
  owner : p.ownerKey = q.ownerKey
  hash : recordHashFromBytes C a ≠ recordHashFromBytes C b
  signedLeft : Signed C p
  signedRight : Signed C q

/-- **The client's checker**: a conflict whose maps have text keys. -/
theorem isEquivocationEvidence_eq_true : isEquivocationEvidence C a b = true ↔
    ∃ p q, DoublySigned C a b p q ∧ TextKeys p.map ∧ TextKeys q.map := by
  unfold isEquivocationEvidence
  constructor
  · intro h
    split at h
    · simp at h
    rename_i hframe
    split at h
    -- both halves parse, conflict and are signed; each failed check gives the answer false
    · rename_i left leftHash right rightHash hleft hright
      simp only [not_or, Nat.not_lt, gt_iff_lt] at hframe
      obtain ⟨rfl, es, hc, hbytes, hp⟩ := parseHalf_eq_some.1 hleft
      obtain ⟨rfl, fs, hc', hbytes', hq⟩ := parseHalf_eq_some.1 hright
      simp only at h
      split at h
      · simp at h
      rename_i hconflicts
      rw [not_not] at hconflicts
      obtain ⟨hlabel, htld, hseq, howner, hhash⟩ := hconflicts
      rw [Bool.and_eq_true, attributable_eq_true hc hp, attributable_eq_true hc' hq] at h
      exact ⟨left, right, ⟨parseBytes_eq_ok.2 ⟨hframe.2.1, es, hc, hbytes, hp⟩,
        parseBytes_eq_ok.2 ⟨hframe.2.2, fs, hc', hbytes', hq⟩, hlabel, htld, hseq, howner, hhash, h.1.2,
        h.2.2⟩, h.1.1, h.2.1⟩
    · simp at h
  · rintro ⟨p, q, h, hkeys, hkeys'⟩
    obtain ⟨hlen, es, hc, hbytes, hp⟩ := parseBytes_eq_ok.1 h.parseLeft
    obtain ⟨hlen', fs, hc', hbytes', hq⟩ := parseBytes_eq_ok.1 h.parseRight
    have hne : a ≠ b := by
      rintro rfl
      exact h.hash rfl
    rw [if_neg (by simp only [not_or, gt_iff_lt, Nat.not_lt]; exact ⟨hne, hlen, hlen'⟩),
      parseHalf_eq_some.2 ⟨rfl, es, hc, hbytes, hp⟩, parseHalf_eq_some.2 ⟨rfl, fs, hc', hbytes', hq⟩]
    simp only [h.label, h.tld, h.seq, h.owner, ne_eq, h.hash, not_false_eq_true, and_self, not_true_eq_false,
      if_false, Bool.and_eq_true]
    exact ⟨(attributable_eq_true hc hp).2 ⟨hkeys, h.signedLeft⟩,
      (attributable_eq_true hc' hq).2 ⟨hkeys', h.signedRight⟩⟩

/-! ## The registry's checker over the client's records -/

/-- Both programs look at the same signature. -/
theorem attributableSignature_eq {r : RegistryRecord} (h : Agrees r p) :
    attributableSignature p = ownerSignature r := by
  unfold attributableSignature ownerSignature
  rw [h.op, h.coSig, h.sig]
  by_cases hop : r.op = .transfer
  · rw [if_pos (name_transfer.2 hop), if_pos hop]
  · rw [if_neg fun hname => hop (name_transfer.1 hname), if_neg hop]

/-- Both programs attribute a record they both admit alike. -/
theorem signedByNamedOwner_iff {r : RegistryRecord} (hbytes : admitBytes bytes = .ok r)
    (hparse : parseBytes bytes = .ok p) (h : Agrees r p) :
    signedByNamedOwner C r = .ok true ↔ Signed C p := by
  obtain ⟨es, hes⟩ := admission_of_admit hbytes
  obtain ⟨-, fs, hc, hencoded, hp⟩ := parseBytes_eq_ok.1 hparse
  have hmap : p.map = es := by
    have heq := DetCbor.encode_append_inj hc hes.canonical (r := []) (s := [])
      (by rw [List.append_nil, List.append_nil, ← hencoded, ← hes.bytes])
    rw [hp.map]
    exact Value.map.inj heq.1
  have hkey : p.ownerKey.length = 32 := hp.ownerKey_length
  rw [signedByNamedOwner_eq_true]
  unfold Signed
  rw [attributableSignature_eq h, hmap, registry_signingInput hes]
  constructor
  · rintro ⟨signature, input, hsig, hinput, hv⟩
    rw [Except.ok.injEq] at hinput
    refine ⟨signature, hsig, ?_⟩
    rw [verifySignature_eq hkey, hinput, h.ownerKey]
    exact hv
  · rintro ⟨signature, hsig, hv⟩
    rw [verifySignature_eq hkey, h.ownerKey] at hv
    exact ⟨signature, _, hsig, rfl, hv⟩

/-- **The registry's checker**: a conflict whose records meet its schema. -/
theorem verifyEquivocation_iff : verifyEquivocation C a b = .ok true ↔
    ∃ p q, DoublySigned C a b p q ∧ MeetsRegistry p ∧ MeetsRegistry q := by
  rw [verifyEquivocation_eq_true]
  constructor
  · rintro ⟨left, right, h⟩
    obtain ⟨p, hp, hm, hleft⟩ := parses_of_admits h.admitLeft
    obtain ⟨q, hq, hm', hright⟩ := parses_of_admits h.admitRight
    refine ⟨p, q, ⟨hp, hq, ?_, ?_, ?_, ?_, h.hash, ?_, ?_⟩, hm, hm'⟩
    · rw [hleft.label, hright.label, h.name]
    · rw [hleft.tld, hright.tld, h.tld]
    · rw [hleft.seq, hright.seq, h.seq]
    · rw [hleft.ownerKey, hright.ownerKey, h.owner]
    · exact (signedByNamedOwner_iff h.admitLeft hp hleft).1 h.signedLeft
    · exact (signedByNamedOwner_iff h.admitRight hq hright).1 h.signedRight
  · rintro ⟨p, q, h, hm, hm'⟩
    obtain ⟨left, hadmit, hleft⟩ := admits_of_parses h.parseLeft hm
    obtain ⟨right, hadmit', hright⟩ := admits_of_parses h.parseRight hm'
    refine ⟨left, right, hadmit, hadmit', ?_, ?_, ?_, h.hash, ?_, ?_, ?_⟩
    · rw [← hleft.label, ← hright.label, h.label]
    · rw [← hleft.tld, ← hright.tld, h.tld]
    · rw [← hleft.seq, ← hright.seq, h.seq]
    · rw [← hleft.ownerKey, ← hright.ownerKey, h.owner]
    · exact (signedByNamedOwner_iff hadmit h.parseLeft hleft).2 h.signedLeft
    · exact (signedByNamedOwner_iff hadmit' h.parseRight hright).2 h.signedRight

/-- The registry answers on every admitted record. -/
theorem signedByNamedOwner_ok {r : RegistryRecord} (h : admitBytes bytes = .ok r) :
    ∃ signed, signedByNamedOwner C r = .ok signed := by
  obtain ⟨es, hes⟩ := admission_of_admit h
  unfold signedByNamedOwner
  split
  · exact ⟨_, rfl⟩
  · rw [registry_signingInput hes]
    exact ⟨_, rfl⟩

/-- The registry's checker throws on no input. -/
theorem verifyEquivocation_ok (C : Crypto) (a b : Bytes) : ∃ verdict, verifyEquivocation C a b = .ok verdict := by
  unfold verifyEquivocation
  split_ifs with hlen
  · exact ⟨_, rfl⟩
  split
  · rename_i left right hleft hright
    rw [isEquivocation_evidence]
    simp only [Except.ok_bind]
    split_ifs with hconflict
    · obtain ⟨signed, hsigned⟩ := signedByNamedOwner_ok (C := C) (parseRecordBytes_eq_ok.1 hleft)
      rw [hsigned]
      simp only [Except.ok_bind]
      split_ifs
      · exact signedByNamedOwner_ok (parseRecordBytes_eq_ok.1 hright)
      · exact ⟨_, rfl⟩
    · exact ⟨_, rfl⟩
  · exact ⟨_, rfl⟩

/-- **The two checkers agree exactly when every conflict meets both schemas or neither**: the
registry's rules, which the client's parser lacks, and text keys, without which the client finds
no core. -/
theorem evidence_agrees_iff (C : Crypto) (a b : Bytes) :
    verifyEquivocation C a b = .ok (isEquivocationEvidence C a b) ↔
      ∀ p q, DoublySigned C a b p q →
        (MeetsRegistry p ∧ MeetsRegistry q ↔ TextKeys p.map ∧ TextKeys q.map) := by
  -- the halves of a conflict are determined by the bytes
  have hunique : ∀ p q p' q', DoublySigned C a b p q → DoublySigned C a b p' q' → p' = p ∧ q' = q := by
    intro p q p' q' h h'
    have hp := h.parseLeft.symm.trans h'.parseLeft
    have hq := h.parseRight.symm.trans h'.parseRight
    exact ⟨(Except.ok.inj hp).symm, (Except.ok.inj hq).symm⟩
  have hregistry : verifyEquivocation C a b = .ok (isEquivocationEvidence C a b) ↔
      (verifyEquivocation C a b = .ok true ↔ isEquivocationEvidence C a b = true) := by
    obtain ⟨verdict, hverdict⟩ := verifyEquivocation_ok C a b
    rw [hverdict, Except.ok.injEq, Except.ok.injEq, Bool.eq_iff_iff]
  rw [hregistry, verifyEquivocation_iff, isEquivocationEvidence_eq_true]
  constructor
  · intro h p q hpq
    constructor
    · rintro ⟨hm, hm'⟩
      obtain ⟨p', q', hpq', hkeys⟩ := h.1 ⟨p, q, hpq, hm, hm'⟩
      obtain ⟨rfl, rfl⟩ := hunique p q p' q' hpq hpq'
      exact hkeys
    · rintro ⟨hkeys, hkeys'⟩
      obtain ⟨p', q', hpq', hm⟩ := h.2 ⟨p, q, hpq, hkeys, hkeys'⟩
      obtain ⟨rfl, rfl⟩ := hunique p q p' q' hpq hpq'
      exact hm
  · intro h
    constructor
    · rintro ⟨p, q, hpq, hm⟩
      exact ⟨p, q, hpq, (h p q hpq).1 hm⟩
    · rintro ⟨p, q, hpq, hkeys⟩
      exact ⟨p, q, hpq, (h p q hpq).2 hkeys⟩

end Evidence

/-! ## A pair the checkers judge differently -/

/-- `update` with its own signature for a countersignature, which no signature covers. -/
def cosigned : Sample.SampleRecord := { Sample.update with coSig := some Sample.update.sig }

/-- The sample primitives, with the digest of `cosigned`. -/
def cosignedCrypto : Crypto :=
  { Sample.crypto with
    blake2b := fun bytes =>
      if bytes = withDomain recordHashPrefix cosigned.bytes [] then
        Sample.literal 32 0x157661150bebac6743f7ed4d2accf90991bc377fc1fe10891e7a94e1af99595f
      else Sample.crypto.blake2b bytes
    length_blake2b := by
      intro bytes
      split_ifs
      · rfl
      · exact Sample.crypto.length_blake2b bytes }

theorem evidence_cosigned :
    isEquivocationEvidence cosignedCrypto cosigned.bytes Sample.revoke.bytes = true ∧
      verifyEquivocation cosignedCrypto cosigned.bytes Sample.revoke.bytes = .ok false := by
  decide +kernel

/-- An UPDATE and a REVOKE of one owner at one `seq` are evidence to the client and none to the
registry, once anybody has added a `coSig` to the UPDATE. -/
theorem evidence_disagrees : ¬ ∀ (C : Crypto) (a b : Bytes),
    verifyEquivocation C a b = .ok (isEquivocationEvidence C a b) := by
  intro h
  have hagree := h cosignedCrypto cosigned.bytes Sample.revoke.bytes
  rw [evidence_cosigned.1, evidence_cosigned.2] at hagree
  simp at hagree

end VayuWeb.Client
