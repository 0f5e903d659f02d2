import VayuWeb.Spec.Verify
import VayuWeb.Proof.CborRoundTrip

/-!
# Admitted records

What framing and schema let through.

* `parseRecord_eq_ok`: every field of a parsed record, as it stands in the map.
* `admit_eq_ok`, `parseRecordBytes_eq_ok`: the verifier's stage and the store's parser admit
  the same bytes as the same record.
* `admission_of_admit`: admitted bytes are the encoding of a canonical map without byte order
  marks, and the record's map is that map.
* `signingInput_eq`: the signing input covers that map less its signature fields.
-/

namespace VayuWeb

open Bytes
open DetCbor (Key Value Canonical)

/-! ## Fields -/

section Fields

variable {m : CborMap} {key : String}

theorem uintField_eq_ok {n : ℕ} : uintField m key = .ok n ↔ m.get? key = some (.number n) := by
  unfold uintField fail; split <;> simp_all

theorem textField_eq_ok {s : String} : textField m key = .ok s ↔ m.get? key = some (.text s) := by
  unfold textField fail; split <;> simp_all

theorem bytesField_eq_ok {n : ℕ} {b : Bytes} :
    bytesField m key n = .ok b ↔ m.get? key = some (.bytes b) ∧ b.length = n := by
  unfold bytesField fail
  split
  · simp_all
  · rename_i value hv
    simp only [hv, Option.some.injEq, CborValue.bytes.injEq]
    split_ifs with hn
    · simp only [false_iff, not_and]
      rintro rfl; exact hn
    · simp only [Except.ok.injEq]
      constructor
      · rintro rfl; exact ⟨rfl, by simpa using hn⟩
      · rintro ⟨rfl, -⟩; rfl
  · rename_i hv; simp_all

/-- A name is an operation's exactly where it is that operation's own. -/
theorem operation_ofName {s : String} {op : Operation} :
    Operation.ofName s = some op ↔ s = op.name := by
  constructor
  · intro h
    have := List.find?_some h
    simpa [eq_comm] using this
  · rintro rfl; cases op <;> decide

/-- When the operation of a record is read. -/
theorem opField_eq_ok {op : Operation} :
    opField m = .ok op ↔ m.get? "op" = some (.text op.name) := by
  simp only [opField, Except.bind_eq_ok, textField_eq_ok]
  constructor
  · rintro ⟨s, hs, h⟩
    split at h
    · simp [fail] at h
    · rename_i op' ho
      simp only [Except.pure_eq_ok, Except.ok.injEq] at h; subst h
      rw [hs, operation_ofName.1 ho]
  · intro h
    exact ⟨_, h, by rw [operation_ofName.2 rfl]; rfl⟩

/-- When the label of a record is read. -/
theorem nameField_eq_ok {name : String} :
    nameField m = .ok name ↔ m.get? "name" = some (.text name) ∧ labelRejection name = none := by
  simp only [nameField, Except.bind_eq_ok, textField_eq_ok]
  constructor
  · rintro ⟨s, hs, h⟩
    split at h
    · simp [fail] at h
    · rename_i hl
      simp only [Except.pure_eq_ok, Except.ok.injEq] at h; subst h
      exact ⟨hs, hl⟩
  · rintro ⟨h, hl⟩
    exact ⟨_, h, by rw [hl]; rfl⟩

/-- When the suite of a record is read. -/
theorem suiteField_eq_ok {p : ℕ × Suite} :
    suiteField m = .ok p ↔ m.get? "suite" = some (.number p.1) ∧ suiteOf p.1 = some p.2 := by
  simp only [suiteField, Except.bind_eq_ok, uintField_eq_ok]
  constructor
  · rintro ⟨n, hn, h⟩
    split at h
    · simp [fail] at h
    · rename_i suite hs
      simp only [Except.pure_eq_ok, Except.ok.injEq] at h; subst h
      exact ⟨hn, hs⟩
  · rintro ⟨h, hs⟩
    exact ⟨_, h, by rw [hs]; rfl⟩

/-- `coSig` is a signature on a TRANSFER, and absent or null on everything else. -/
theorem parseCoSig_eq_ok {op : Operation} {suite : Suite} {c : Option Bytes} :
    parseCoSig op suite m = .ok c ↔
      (op = .transfer ∧ ∃ b, c = some b ∧ m.get? "coSig" = some (.bytes b) ∧
        b.length = suite.signatureLength) ∨
      (op ≠ .transfer ∧ c = none ∧ (m.get? "coSig" = none ∨ m.get? "coSig" = some .null)) := by
  -- the field alone: absent and null are the same
  have hfield : ∀ c, coSigField suite m = .ok c ↔
      (∃ b, c = some b ∧ m.get? "coSig" = some (.bytes b) ∧ b.length = suite.signatureLength) ∨
      (c = none ∧ (m.get? "coSig" = none ∨ m.get? "coSig" = some .null)) := by
    intro c
    unfold coSigField
    split
    · rename_i hg; simp [hg, eq_comm]
    · rename_i hg; simp [hg, eq_comm]
    · rename_i b hb
      simp only [Except.bind_eq_ok, check_eq_ok, Except.pure_eq_ok, Except.ok.injEq, hb]
      constructor
      · rintro ⟨-, hl, rfl⟩; exact Or.inl ⟨b, rfl, rfl, by simpa using hl⟩
      · rintro (⟨b', rfl, hb', hl⟩ | ⟨-, h | h⟩)
        · simp only [Option.some.injEq, CborValue.bytes.injEq] at hb'; subst hb'
          exact ⟨(), by simpa using hl, rfl⟩
        · simp at h
        · simp at h
    · simp_all [fail]
  simp only [parseCoSig, Except.bind_eq_ok, check_eq_ok, hfield, Except.pure_eq_ok, Except.ok.injEq]
  constructor
  · rintro ⟨c', hc' | hc', -, h1, -, h2, rfl⟩
    · obtain ⟨b, rfl, hb, hl⟩ := hc'
      exact Or.inl ⟨by simpa using h2, b, rfl, hb, hl⟩
    · obtain ⟨rfl, hg⟩ := hc'
      exact Or.inr ⟨by simpa using h1, rfl, hg⟩
  · rintro (⟨rfl, b, rfl, hb, hl⟩ | ⟨hop, rfl, hg⟩)
    · exact ⟨_, Or.inl ⟨b, rfl, hb, hl⟩, (), by simp, (), by simp, rfl⟩
    · exact ⟨_, Or.inr ⟨rfl, hg⟩, (), by simp [hop], (), by simp, rfl⟩

end Fields

/-- The fields of a record parsed from `m`, as they stand in it. -/
structure Parsed (m : CborMap) (r : RegistryRecord) : Prop where
  map : r.map = m
  version : m.get? "version" = some (.number r.version)
  version_eq : r.version = supportedVersion
  suite : m.get? "suite" = some (.number r.suite)
  suite_eq : r.suite = 1
  op : m.get? "op" = some (.text r.op.name)
  name : m.get? "name" = some (.text r.name)
  label : labelRejection r.name = none
  tld : m.get? "tld" = some (.text r.tld)
  ratified : isRatifiedTld r.tld = true
  ownerKey : m.get? "ownerKey" = some (.bytes r.ownerKey)
  ownerKey_length : r.ownerKey.length = 32
  ownerKey_order : isSmallOrderKey r.ownerKey = false
  seq : m.get? "seq" = some (.number r.seq)
  seq_le : r.seq ≤ maxSeq
  notBefore : m.get? "notBefore" = some (.number r.notBefore)
  notAfter : m.get? "notAfter" = some (.number r.notAfter)
  term : r.notBefore ≤ r.notAfter
  entries : parseEntries m = .ok r.entries
  aliases : checkAliases r.name r.tld r.entries = .ok ()
  powProof : parsePow r.op m = .ok r.powProof
  prevHash : m.get? "prevHash" = some (.bytes r.prevHash)
  prevHash_length : r.prevHash.length = 32
  sig : m.get? "sig" = some (.bytes r.sig)
  sig_length : r.sig.length = 64
  coSig : (r.op = .transfer ∧ ∃ b, r.coSig = some b ∧ m.get? "coSig" = some (.bytes b) ∧ b.length = 64) ∨
    (r.op ≠ .transfer ∧ r.coSig = none ∧ (m.get? "coSig" = none ∨ m.get? "coSig" = some .null))

theorem suiteOf_one : ∃ suite, suiteOf 1 = some suite := ⟨_, rfl⟩

/-- **A map parses exactly as the record its fields spell.** -/
theorem parseRecord_eq_ok {m : CborMap} {r : RegistryRecord} :
    parseRecord m = .ok r ↔ Parsed m r := by
  -- each check of the parser is one field of `Parsed`
  simp only [parseRecord, Except.bind_eq_ok, check_eq_ok, uintField_eq_ok, textField_eq_ok,
    bytesField_eq_ok, suiteField_eq_ok, opField_eq_ok, nameField_eq_ok, Except.pure_eq_ok,
    Except.ok.injEq]
  constructor
  · rintro ⟨version, hver, -, hver1, ⟨suiteId, suite⟩, ⟨hsid, hsuite⟩, op, hop, name, ⟨hname, hlabel⟩,
      tld, htld, -, hrat, ownerKey, ⟨hkey, hkeyl⟩, -, hord, seq, hseq, -, hseql, nb, hnb, na, hna, -,
      hterm, entries, hent, _, hal, pow, hpow, prevHash, ⟨hph, hphl⟩, sig, ⟨hsig, hsigl⟩, coSig, hco,
      rfl⟩
    obtain ⟨rfl, hpk, hsl, -, hed⟩ := suiteOf_eq_some hsuite
    rw [hsl] at hsigl
    rw [not_and] at hord
    rw [parseCoSig_eq_ok, hsl] at hco
    exact { map := rfl, version := hver, version_eq := by simpa using hver1, suite := hsid,
            suite_eq := rfl, op := hop, name := hname, label := hlabel, tld := htld,
            ratified := by simpa using hrat, ownerKey := hkey, ownerKey_length := by rw [hkeyl, hpk],
            ownerKey_order := by simpa using hord hed, seq := hseq, seq_le := by simpa using hseql,
            notBefore := hnb, notAfter := hna, term := by simpa using hterm, entries := hent,
            aliases := hal, powProof := hpow, prevHash := hph, prevHash_length := hphl, sig := hsig,
            sig_length := hsigl, coSig := hco }
  · intro h
    obtain ⟨suite, hsuite⟩ := suiteOf_one
    obtain ⟨-, hpk, hsl, -, hed⟩ := suiteOf_eq_some hsuite
    refine ⟨_, h.version, (), by simp [h.version_eq], (r.suite, suite), ⟨h.suite, by rw [h.suite_eq, hsuite]⟩,
      _, h.op, _, ⟨h.name, h.label⟩, _, h.tld, (), by simp [h.ratified], _,
      ⟨h.ownerKey, by rw [h.ownerKey_length, hpk]⟩, (), by simp [h.ownerKey_order], _, h.seq, (),
      by simpa using h.seq_le, _, h.notBefore, _, h.notAfter, (), by simpa using h.term, _, h.entries, (),
      h.aliases, _, h.powProof, _, ⟨h.prevHash, h.prevHash_length⟩, _,
      ⟨h.sig, by rw [h.sig_length, hsl]⟩, r.coSig, ?_, ?_⟩
    · rw [parseCoSig_eq_ok, hsl]; exact h.coSig
    · rw [← h.map]

/-! ## The two parsers of bytes -/

/-- Bytes are deterministic exactly where they decode to what encodes to them. -/
theorem isDeterministic_iff {b : Bytes} :
    isDeterministic b = true ↔ ∃ v, decode b = .ok v ∧ encode v = .ok b := by
  unfold isDeterministic
  cases hd : decode b with
  | error e => simp
  | ok v =>
    cases he : encode v with
    | error e => simp [he]
    | ok out => simp [he, compareBytes_eq]

theorem admit_eq_ok {b : Bytes} {r : RegistryRecord} :
    admitBytes b = .ok r ↔ b.length ≤ 4096 ∧ decode b = .ok (.map r.map) ∧ Parsed r.map r ∧
      encode (.map r.map) = .ok b := by
  unfold admitBytes
  rw [show maxRecordBytes = 4096 from maxActiveRecordBytes_eq]
  constructor
  · intro h
    split at h
    · simp at h
    rename_i hlen
    split at h
    · simp at h
    · rename_i m hd
      split at h
      · simp at h
      rename_i r' hp
      split at h
      · simp at h
      rename_i out he
      split at h
      · simp at h
      rename_i hout
      simp only [Except.ok.injEq] at h; subst h
      have hP := parseRecord_eq_ok.1 hp
      simp only [ne_eq, Decidable.not_not] at hout; subst hout
      have hm := hP.map
      rw [hm]
      exact ⟨by omega, hd, hP, he⟩
    · simp at h
  · rintro ⟨hlen, hd, hP, he⟩
    rw [if_neg (by omega), hd]
    simp only [parseRecord_eq_ok.2 hP, he, ne_eq, not_true_eq_false, if_false]

/-- The throwing parser and the verifier's admit the same bytes as the same record. -/
theorem parseRecordBytes_eq_ok {b : Bytes} {r : RegistryRecord} :
    parseRecordBytes b = .ok r ↔ admitBytes b = .ok r := by
  rw [admit_eq_ok]
  unfold parseRecordBytes fail
  rw [show maxRecordBytes = 4096 from maxActiveRecordBytes_eq]
  constructor
  · intro h
    split at h
    · simp at h
    rename_i hlen
    split at h
    · simp at h
    rename_i hdet
    -- the deterministic check is the decoder followed by the encoder
    simp only [Bool.not_eq_true, Bool.not_eq_false] at hdet
    obtain ⟨v, hd, he⟩ := isDeterministic_iff.1 hdet
    rw [hd] at h
    cases v with
    | map m =>
      simp only [Except.bind_eq_ok, check_eq_ok, Except.pure_eq_ok, Except.ok.injEq] at h
      obtain ⟨r', hp, -, -, rfl⟩ := h
      have hP := parseRecord_eq_ok.1 hp
      have hm := hP.map
      rw [hm]
      exact ⟨by omega, hd, hP, he⟩
    | _ => simp at h
  · rintro ⟨hlen, hd, hP, he⟩
    have hdet : isDeterministic b = true := isDeterministic_iff.2 ⟨_, hd, he⟩
    have hlimit : ¬ b.length > recordLimit r.suite := by
      rw [hP.suite_eq, show recordLimit 1 = 4096 from rfl]; omega
    rw [if_neg (by omega), if_neg (by simp [hdet]), hd]
    exact Except.bind_eq_ok.2 ⟨r, parseRecord_eq_ok.2 hP, Except.bind_eq_ok.2 ⟨(), check_eq_ok.2 hlimit, rfl⟩⟩

/-! ## What stands behind an admitted record -/

/-- `b` is admitted as `r`, and `es` is the map it spells. -/
structure Admission (b : Bytes) (r : RegistryRecord) (es : List (Key × Value)) : Prop where
  canonical : Canonical 33 (.map es)
  bomFree : (Value.map es).hasBom = false
  bytes : b = (Value.map es).encode
  map : r.map = es.map fun e => (e.1, ofWire e.2)
  parsed : Parsed r.map r
  length : b.length ≤ 4096

theorem decode_eq_map {b : Bytes} {m : CborMap} (h : decode b = .ok (.map m)) :
    ∃ es, DetCbor.parse 33 b = some (.map es) ∧ ofWireEntries [] es = m := by
  obtain ⟨w, hw, hm⟩ := decode_eq_ok.1 h
  cases w with
  | map es => exact ⟨es, hw, by simpa [ofWire] using hm⟩
  | uint n => simp only [ofWire] at hm; split_ifs at hm
  | _ => simp [ofWire] at hm

/-- Bytes that encode back contain no text with a byte order mark. -/
theorem bomFree_of_reencodes {b : Bytes} {v : CborValue} (hd : decode b = .ok v)
    (he : encode v = .ok b) : BomFree b := by
  refine (roundTrips_iff b).1 fun v' hv' => ?_
  rw [hd, Except.ok.injEq] at hv'
  rw [← hv']; exact he

theorem entriesKeys_bomFree {es : List (Key × Value)} (h : (Value.map es).hasBom = false) :
    ∀ e ∈ es, e.1.toValue.hasBom = false ∧ e.2.hasBom = false := by
  rw [Value.hasBom, DetCbor.entriesHaveBom_eq_any, List.any_eq_false] at h
  simpa using h

/-- **Admitted bytes are the encoding of the map their record was parsed from.** -/
theorem admission_of_admit {b : Bytes} {r : RegistryRecord} (h : admitBytes b = .ok r) :
    ∃ es, Admission b r es := by
  obtain ⟨hlen, hd, hP, he⟩ := admit_eq_ok.1 h
  obtain ⟨es, hw, hm⟩ := decode_eq_map hd
  have hb : (Value.map es).hasBom = false := bomFree_of_reencodes hd he _ hw
  obtain ⟨hc, hbytes⟩ := DetCbor.parse_eq_some.1 hw
  refine ⟨es, hc, hb, hbytes, ?_, hP, hlen⟩
  rw [← hm]
  exact ofWireEntries_of_not_hasBom (DetCbor.canonical_map.1 hc).2.1 fun e he =>
    (entriesKeys_bomFree hb e he).1

theorem Admission.admitBytes {b : Bytes} {r : RegistryRecord} {es : List (Key × Value)}
    (h : Admission b r es) : VayuWeb.admitBytes b = .ok r := by
  have henc : encode (.map r.map) = .ok b := by
    have := encodeValue_ofWire 33 (.map es) h.canonical h.bomFree
    rw [ofWire, ofWireEntries_of_not_hasBom (DetCbor.canonical_map.1 h.canonical).2.1 fun e he =>
      (entriesKeys_bomFree h.bomFree e he).1, ← h.map, ← h.bytes] at this
    exact this
  refine admit_eq_ok.2 ⟨h.length, ?_, h.parsed, henc⟩
  refine decode_eq_ok.2 ⟨.map es, DetCbor.parse_eq_some.2 ⟨h.canonical, h.bytes⟩, ?_⟩
  rw [ofWire, ofWireEntries_of_not_hasBom (DetCbor.canonical_map.1 h.canonical).2.1 fun e he =>
      (entriesKeys_bomFree h.bomFree e he).1, ← h.map]

/-- A record has one admitted encoding. -/
theorem bytes_eq_of_admit {b b' : Bytes} {r : RegistryRecord} (h : admitBytes b = .ok r)
    (h' : admitBytes b' = .ok r) : b = b' := by
  obtain ⟨-, -, -, hencode⟩ := admit_eq_ok.1 h
  obtain ⟨-, -, -, hencode'⟩ := admit_eq_ok.1 h'
  rw [hencode, Except.ok.injEq] at hencode'
  exact hencode'

/-- A value is its encoding: distinct canonical values without byte order marks decode to
distinct ones. -/
theorem ofWire_inj {lv : ℕ} {v w : Value} (hv : Canonical lv v) (hw : Canonical lv w)
    (hbv : v.hasBom = false) (hbw : w.hasBom = false) (h : ofWire v = ofWire w) : v = w := by
  have h1 := encodeValue_ofWire lv v hv hbv
  rw [h, encodeValue_ofWire lv w hw hbw, Except.ok.injEq] at h1
  exact (DetCbor.encode_append_inj hv hw (r := []) (s := []) (by simp [h1])).1

/-! ## The signing input -/

/-- The entries a signature covers. -/
def signedPart (es : List (Key × Value)) : List (Key × Value) :=
  es.filter fun e => ¬ isSignatureField e.1

/-- A canonical map stays so without some of its entries. -/
theorem canonical_filter {lv : ℕ} {es : List (Key × Value)} (p : Key × Value → Bool)
    (h : Canonical lv (.map es)) : Canonical lv (.map (es.filter p)) := by
  cases lv with
  | zero => exact h.elim
  | succ lv =>
    obtain ⟨hn, hs, hall⟩ := DetCbor.canonical_map.1 h
    have hle := List.length_filter_le p es
    exact DetCbor.canonical_map.2 ⟨by omega, List.Pairwise.filter _ hs, fun e he =>
      hall e (List.mem_of_mem_filter he)⟩

theorem hasBom_filter {es : List (Key × Value)} (p : Key × Value → Bool)
    (h : (Value.map es).hasBom = false) : (Value.map (es.filter p)).hasBom = false := by
  rw [Value.hasBom, DetCbor.entriesHaveBom_eq_any, List.any_eq_false] at h ⊢
  exact fun e he => h e (List.mem_of_mem_filter he)

/-- A canonical map without byte order marks is written as it stands. -/
theorem encode_map_ofWire {es : List (Key × Value)} (hc : Canonical 33 (.map es))
    (hb : (Value.map es).hasBom = false) :
    encode (.map (es.map fun e => (e.1, ofWire e.2))) = .ok (Value.map es).encode := by
  have h := encodeValue_ofWire 33 (.map es) hc hb
  rwa [ofWire, ofWireEntries_of_not_hasBom (DetCbor.canonical_map.1 hc).2.1 fun e he =>
    (entriesKeys_bomFree hb e he).1] at h

/-- The signed part of a record, on the wire and as decoded. -/
theorem core_map (es : List (Key × Value)) :
    core (es.map fun e => (e.1, ofWire e.2)) = (signedPart es).map fun e => (e.1, ofWire e.2) := by
  simp only [core, signedPart, List.filter_map]; rfl

/-- **An admitted record has a signing input**: its map less the signature fields. -/
theorem signingInput_eq {b : Bytes} {r : RegistryRecord} {es : List (Key × Value)}
    (h : Admission b r es) : signingInput r.map =
      .ok (withDomain recordSigningPrefix (Value.map (signedPart es)).encode [1]) := by
  unfold signingInput
  rw [h.parsed.suite, h.parsed.suite_eq]
  have henc : encode (.map ((signedPart es).map fun e => (e.1, ofWire e.2))) =
      .ok (Value.map (signedPart es)).encode :=
    encode_map_ofWire (canonical_filter _ h.canonical) (hasBom_filter _ h.bomFree)
  simp only [h.map, core_map, henc]
  rfl

/-- Records with one signing input agree on everything but their signature fields. -/
theorem signedPart_eq_of_signingInput_eq {b₁ b₂ : Bytes} {r₁ r₂ : RegistryRecord}
    {es₁ es₂ : List (Key × Value)} (h₁ : Admission b₁ r₁ es₁) (h₂ : Admission b₂ r₂ es₂)
    (h : signingInput r₁.map = signingInput r₂.map) : signedPart es₁ = signedPart es₂ := by
  rw [signingInput_eq h₁, signingInput_eq h₂, Except.ok.injEq] at h
  have henc : (Value.map (signedPart es₁)).encode = (Value.map (signedPart es₂)).encode := by
    unfold withDomain at h
    exact List.append_cancel_left h
  have := (DetCbor.encode_append_inj (r := []) (s := []) (canonical_filter _ h₁.canonical)
    (canonical_filter _ h₂.canonical) (by simpa [signedPart] using henc)).1
  simpa [signedPart] using this

end VayuWeb
