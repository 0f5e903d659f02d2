import VayuWeb.Proof.ClientEntries

/-!
# The registry admits less than the client parses

* `MeetsRegistry`: the rules of the registry's schema that the client's lacks.
* `admitBytes_iff`: the registry admits the bytes the client parses as a record that meets them.
* `Agrees`: the two then hold the same fields.
-/

namespace VayuWeb.Client

open Bytes
open DetCbor (Key Value Canonical)

/-! ## Proof of work -/

/-- What both schemas ask of a proof. -/
structure ProofFits (proof : Members) (bits : ℕ) (nonce : Bytes) : Prop where
  alg : field proof "alg" = some (.text powAlgorithm)
  fixed : ∀ name ∈ ["m", "t", "p", "salt"], field proof name = none
  bits_eq : field proof "bits" = some (.uint bits)
  nonce_eq : field proof "nonce" = some (.bytes nonce)
  nonce_length : nonce.length = powNonceLength

theorem parseBits_eq_ok {proof : Members} {bits : ℕ} :
    parseBits proof = .ok bits ↔ field proof "bits" = some (.uint bits) ∧ bits < 2 ^ 32 := by
  unfold parseBits badShape
  split
  · simp_all
  · rename_i n hn
    simp only [hn, Option.some.injEq, Value.uint.injEq]
    split_ifs with h
    · simp only [Except.ok.injEq]
      constructor
      · rintro rfl; exact ⟨rfl, h⟩
      · rintro ⟨rfl, -⟩; rfl
    · simp only [false_iff, not_and]
      rintro rfl; exact h
  · rename_i hn; simp_all

theorem parseNonce_eq_ok {proof : Members} {nonce : Bytes} :
    parseNonce proof = .ok nonce ↔
      field proof "nonce" = some (.bytes nonce) ∧ nonce.length = powNonceLength := by
  unfold parseNonce badShape
  split
  · simp_all
  · rename_i n hn
    simp only [hn, Option.some.injEq, Value.bytes.injEq]
    split_ifs with h
    · simp only [Except.ok.injEq]
      constructor
      · rintro rfl; exact ⟨rfl, h⟩
      · rintro ⟨rfl, -⟩; rfl
    · simp only [false_iff, not_and]
      rintro rfl; exact h
  · rename_i hn; simp_all

theorem find?_forbidden_eq_none {proof : Members} :
    (["m", "t", "p", "salt"].find? fun name => (field proof name).isSome) = none ↔
      ∀ name ∈ ["m", "t", "p", "salt"], field proof name = none := by
  rw [List.find?_eq_none]
  simp only [Bool.not_eq_true, Option.isSome_eq_false_iff, Option.isNone_iff_eq_none]

/-- When the client takes a proof. -/
theorem parseProof_eq_ok {proof : Members} {bits : ℕ} {nonce : Bytes} :
    parseProof proof = .ok (bits, nonce) ↔ ProofFits proof bits nonce ∧ bits < 2 ^ 32 := by
  unfold parseProof
  constructor
  · intro h
    split at h
    · simp [badShape] at h
    · rename_i alg halg
      rw [Except.bind_eq_ok] at h
      obtain ⟨_, hname, h⟩ := h
      rw [refuse_eq_ok, ne_eq, not_not] at hname
      subst hname
      split at h
      · simp [badShape] at h
      · rename_i hfixed
        simp only [Except.bind_eq_ok, parseBits_eq_ok, parseNonce_eq_ok, Except.pure_eq_ok, Except.ok.injEq,
          Prod.mk.injEq] at h
        obtain ⟨_, ⟨hbits, hlt⟩, _, ⟨hnonce, hlen⟩, rfl, rfl⟩ := h
        exact ⟨⟨halg, find?_forbidden_eq_none.1 hfixed, hbits, hnonce, hlen⟩, hlt⟩
    · simp [badShape] at h
  · rintro ⟨h, hlt⟩
    rw [h.alg]
    refine Except.bind_eq_ok.2 ⟨(), refuse_eq_ok.2 (by simp), ?_⟩
    rw [find?_forbidden_eq_none.2 h.fixed]
    simp only [Except.bind_eq_ok, parseBits_eq_ok, parseNonce_eq_ok, Except.pure_eq_ok, Except.ok.injEq]
    exact ⟨bits, ⟨h.bits_eq, hlt⟩, nonce, ⟨h.nonce_eq, h.nonce_length⟩, rfl⟩

section Registry

variable {lv : ℕ} {es : Members}

theorem has_ofWire {name : String} :
    CborMap.has (es.map fun e => (e.1, ofWire e.2)) name = (field es name).isSome := by
  induction es with
  | nil => rfl
  | cons e es ih =>
    obtain ⟨k, v⟩ := e
    simp only [List.map_cons, CborMap.has, List.any_cons, field] at ih ⊢
    split_ifs with hk
    · simp [hk]
    · simp [hk, ih]

/-- The proof of work the registry reads: at most 256 bits and at least one. -/
theorem parsePowProof_eq_ok {v : Value} {proof : PowProof} (hc : Canonical lv v) (hb : v.hasBom = false) :
    parsePowProof (ofWire v) = .ok proof ↔ ∃ fields, v = .map fields ∧
      ProofFits fields proof.bits proof.nonce ∧ 1 ≤ proof.bits ∧ proof.bits ≤ 256 ∧
        proof.alg = powAlgorithm := by
  cases v with
  | map fields =>
    rw [ofWire_map_eq hc hb]
    simp only [parsePowProof, Except.bind_eq_ok, VayuWeb.textField_eq_ok, get?_ofWire_text hb, check_eq_ok,
      ne_eq, not_not, Value.map.injEq, exists_eq_left']
    constructor
    · rintro ⟨alg, halg, -, hname, h⟩
      subst hname
      split at h
      · simp [fail] at h
      · rename_i hfixed
        simp only [Except.bind_eq_ok, VayuWeb.bytesField_eq_ok, get?_ofWire_bytes, VayuWeb.uintField_eq_ok,
          get?_ofWire_number, check_eq_ok, Except.pure_eq_ok, Except.ok.injEq] at h
        obtain ⟨nonce, ⟨hnonce, hlen⟩, bits, ⟨hbits, -⟩, -, hrange, rfl⟩ := h
        rw [not_or] at hrange
        simp only [forbiddenPowKeys, has_ofWire] at hfixed
        exact ⟨⟨halg, find?_forbidden_eq_none.1 hfixed, hbits, hnonce, hlen⟩,
          Nat.one_le_iff_ne_zero.2 hrange.1, Nat.le_of_not_lt hrange.2, rfl⟩
    · rintro ⟨h, hpos, hle, halg⟩
      refine ⟨powAlgorithm, h.alg, (), rfl, ?_⟩
      have hfixed : forbiddenPowKeys.find? (fun key =>
          CborMap.has (fields.map fun e => (e.1, ofWire e.2)) key) = none := by
        simp only [forbiddenPowKeys, has_ofWire]
        exact find?_forbidden_eq_none.2 h.fixed
      rw [hfixed]
      simp only [Except.bind_eq_ok, VayuWeb.bytesField_eq_ok, get?_ofWire_bytes, VayuWeb.uintField_eq_ok,
        get?_ofWire_number, check_eq_ok, Except.pure_eq_ok, Except.ok.injEq]
      have hsafe : (256 : ℕ) ≤ maxSafeInteger := by decide
      refine ⟨proof.nonce, ⟨h.nonce_eq, h.nonce_length⟩, proof.bits, ⟨h.bits_eq, by omega⟩, (), by omega, ?_⟩
      obtain ⟨alg, nonce, bits⟩ := proof
      simp only at halg
      rw [halg]
  -- anything but a map is refused at once
  | _ =>
    constructor
    · intro h
      simp only [ofWire] at h
      first
        | (split_ifs at h <;> simp [parsePowProof, fail] at h)
        | simp [parsePowProof, fail] at h
    · rintro ⟨fields, h, -⟩
      simp at h

/-- The field `powProof` as the registry reads it: null, or a proof. -/
theorem registryPow_eq_ok {pow : Option PowProof} (hc : Canonical (lv + 1) (.map es))
    (hb : (Value.map es).hasBom = false) :
    VayuWeb.powField (es.map fun e => (e.1, ofWire e.2)) = .ok pow ↔
      (field es "powProof" = some .null ∧ pow = none) ∨
        ∃ fields proof, field es "powProof" = some (.map fields) ∧
          ProofFits fields proof.bits proof.nonce ∧ 1 ≤ proof.bits ∧ proof.bits ≤ 256 ∧
          proof.alg = powAlgorithm ∧ pow = some proof := by
  unfold VayuWeb.powField
  rw [get?_ofWire]
  cases hfield : field es "powProof" with
  | none => simp [fail]
  | some v =>
    have hbv := field_bomFree hb hfield
    have hcv := field_canonical hc hfield
    rw [Option.map_some]
    by_cases hnull : v = .null
    · subst hnull
      simp [ofWire, eq_comm]
    · have hne : ofWire v ≠ .null := fun h => hnull (ofWire_eq_null.1 h)
      split
      · rename_i h; simp at h
      · rename_i h
        exact absurd (Option.some.inj h) hne
      · rename_i rawPow _ h
        rw [← Option.some.inj h]
        simp only [Except.bind_eq_ok, parsePowProof_eq_ok hcv hbv, Except.pure_eq_ok, Except.ok.injEq,
          Option.some.injEq, hnull, false_and, false_or]
        constructor
        · rintro ⟨proof, ⟨fields, rfl, hfits, hpos, hle, halg⟩, rfl⟩
          exact ⟨fields, proof, rfl, hfits, hpos, hle, halg, rfl⟩
        · rintro ⟨fields, proof, rfl, hfits, hpos, hle, halg, rfl⟩
          exact ⟨proof, ⟨fields, rfl, hfits, hpos, hle, halg⟩, rfl⟩

end Registry

/-- The field `powProof` as the client reads it. -/
theorem powField_eq_ok {es : Members} {pow : Option (ℕ × Bytes)} : powField es = .ok pow ↔
    (field es "powProof" = some .null ∧ pow = none) ∨
      ∃ fields bits nonce, field es "powProof" = some (.map fields) ∧ ProofFits fields bits nonce ∧
        bits < 2 ^ 32 ∧ pow = some (bits, nonce) := by
  unfold powField
  cases field es "powProof" with
  | none => simp
  | some v =>
    cases v with
    | null => simp [eq_comm]
    | map fields =>
      simp only [Except.bind_eq_ok, Except.pure_eq_ok, Except.ok.injEq, Option.some.injEq, reduceCtorEq,
        false_and, false_or, Value.map.injEq]
      constructor
      · rintro ⟨⟨bits, nonce⟩, h, rfl⟩
        obtain ⟨hfits, hlt⟩ := parseProof_eq_ok.1 h
        exact ⟨fields, bits, nonce, rfl, hfits, hlt, rfl⟩
      · rintro ⟨fields', bits, nonce, rfl, hfits, hlt, rfl⟩
        exact ⟨(bits, nonce), parseProof_eq_ok.2 ⟨hfits, hlt⟩, rfl⟩
    | _ => simp [badShape]

/-- Which operations carry a proof. -/
theorem parsePow_eq_ok {es : Members} {op : String} {pow : Option (ℕ × Bytes)} :
    parsePow op es = .ok pow ↔ powField es = .ok pow ∧
      (pow.isSome = true ↔ op = "REGISTER" ∨ op = "RENEW") := by
  simp only [parsePow, Except.bind_eq_ok, refuse_eq_ok, Except.pure_eq_ok, Except.ok.injEq]
  constructor
  · rintro ⟨pow', hpow, -, h1, -, h2, rfl⟩
    refine ⟨hpow, ?_⟩
    by_cases hneeds : op = "REGISTER" ∨ op = "RENEW"
    · cases pow' <;> simp_all
    · cases pow' <;> simp_all
  · rintro ⟨hpow, h⟩
    refine ⟨pow, hpow, (), ?_, (), ?_, rfl⟩
    · cases pow <;> simp_all
    · cases pow <;> simp_all

/-- When the registry takes a proof. -/
theorem registryParsePow_eq_ok {m : CborMap} {op : Operation} {pow : Option PowProof} :
    VayuWeb.parsePow op m = .ok pow ↔ VayuWeb.powField m = .ok pow ∧
      (pow.isSome = true ↔ op = .register ∨ op = .renew) := by
  simp only [VayuWeb.parsePow, Except.bind_eq_ok, check_eq_ok, Except.pure_eq_ok, Except.ok.injEq, needsPow,
    Bool.or_eq_true, decide_eq_true_eq]
  constructor
  · rintro ⟨pow', hpow, -, h1, -, h2, rfl⟩
    refine ⟨hpow, ?_⟩
    by_cases hneeds : op = .register ∨ op = .renew
    · cases pow' <;> simp_all
    · cases pow' <;> simp_all
  · rintro ⟨hpow, h⟩
    refine ⟨pow, hpow, (), ?_, (), ?_, rfl⟩
    · cases pow <;> simp_all
    · cases pow <;> simp_all

/-! ## Records -/

/-- The rules of the registry's schema that the client's lacks. -/
structure MeetsRegistry (p : ParsedRecord) : Prop where
  bomFree : (Value.map p.map).hasBom = false
  safe : p.notAfter ≤ maxSafeInteger
  ipns : ∀ entries, field p.map "records" = some (.array entries) → ListUnits entries
  bits : ∀ bits, p.powBits = some bits → 1 ≤ bits ∧ bits ≤ 256
  coSig : p.op = "TRANSFER" ↔ p.coSig.isSome = true

/-- One record, as each side holds it. -/
structure Agrees (r : RegistryRecord) (p : ParsedRecord) : Prop where
  map : r.map = p.map.map fun e => (e.1, ofWire e.2)
  op : p.op = r.op.name
  label : p.label = r.name
  tld : p.tld = r.tld
  seq : p.seq = r.seq
  notBefore : p.notBefore = r.notBefore
  notAfter : p.notAfter = r.notAfter
  ownerKey : p.ownerKey = r.ownerKey
  sig : p.sig = r.sig
  coSig : p.coSig = r.coSig
  suite : p.suite = r.suite
  powBits : p.powBits = r.powProof.map (·.bits)
  powNonce : p.powNonce = r.powProof.map (·.nonce)
  prevHash : field p.map "prevHash" = some (.bytes r.prevHash)
  entries : ∃ entries, field p.map "records" = some (.array entries) ∧ List.Forall₂ Reads entries r.entries

theorem name_mem (op : Operation) : op.name ∈ operationNames := by
  cases op <;> decide

theorem ofName_of_mem {op : String} (h : op ∈ operationNames) : ∃ o : Operation, op = o.name := by
  simp only [operationNames, List.mem_cons, List.not_mem_nil, or_false] at h
  rcases h with rfl | rfl | rfl | rfl | rfl | rfl
  · exact ⟨.register, rfl⟩
  · exact ⟨.renew, rfl⟩
  · exact ⟨.update, rfl⟩
  · exact ⟨.transfer, rfl⟩
  · exact ⟨.relinquish, rfl⟩
  · exact ⟨.revoke, rfl⟩

theorem name_inj {o o' : Operation} : o.name = o'.name ↔ o = o' := by
  constructor
  · intro h
    have h1 : Operation.ofName o.name = some o := operation_ofName.2 rfl
    have h2 : Operation.ofName o.name = some o' := operation_ofName.2 h
    exact Option.some.inj (h1.symm.trans h2)
  · rintro rfl
    rfl

theorem name_register {o : Operation} : o.name = "REGISTER" ↔ o = .register :=
  (name_inj : o.name = Operation.register.name ↔ o = .register)

theorem name_renew {o : Operation} : o.name = "RENEW" ↔ o = .renew :=
  (name_inj : o.name = Operation.renew.name ↔ o = .renew)

theorem name_transfer {o : Operation} : o.name = "TRANSFER" ↔ o = .transfer :=
  (name_inj : o.name = Operation.transfer.name ↔ o = .transfer)

/-- The record of the registry as the client holds it, read from the entries `es`. -/
def recordOf (es : Members) (r : RegistryRecord) : ParsedRecord :=
  { map := es, op := r.op.name, label := r.name, tld := r.tld, seq := r.seq, notBefore := r.notBefore,
    notAfter := r.notAfter, ownerKey := r.ownerKey, sig := r.sig, coSig := r.coSig, suite := r.suite,
    powBits := r.powProof.map (·.bits), powNonce := r.powProof.map (·.nonce) }

section Admitted

variable {b : Bytes} {r : RegistryRecord} {es : Members}

/-- The fields the registry's map has under the wire's keys. -/
theorem wire_parsed (h : Admission b r es) : VayuWeb.Parsed (es.map fun e => (e.1, ofWire e.2)) r := by
  rw [← h.map]
  exact h.parsed

/-- The client reads the proof of an admitted record. -/
theorem parsePow_of_admission (h : Admission b r es) :
    parsePow r.op.name es = .ok (r.powProof.map fun proof => (proof.bits, proof.nonce)) := by
  obtain ⟨hpow, hcarries⟩ := registryParsePow_eq_ok.1 (wire_parsed h).powProof
  rw [parsePow_eq_ok, Option.isSome_map, name_register, name_renew]
  refine ⟨powField_eq_ok.2 ?_, hcarries⟩
  rcases (registryPow_eq_ok h.canonical h.bomFree).1 hpow with
    ⟨hnull, hnone⟩ | ⟨fields, proof, hmap, hfits, -, hmax, -, hsome⟩
  · exact Or.inl ⟨hnull, by rw [hnone]; rfl⟩
  · exact Or.inr ⟨fields, proof.bits, proof.nonce, hmap, hfits, by omega, by rw [hsome]; rfl⟩

theorem bits_of_admission (h : Admission b r es) {bits : ℕ} (hbits : r.powProof.map (·.bits) = some bits) :
    1 ≤ bits ∧ bits ≤ 256 := by
  obtain ⟨hpow, -⟩ := registryParsePow_eq_ok.1 (wire_parsed h).powProof
  obtain ⟨proof, hproof, rfl⟩ := Option.map_eq_some_iff.1 hbits
  rcases (registryPow_eq_ok h.canonical h.bomFree).1 hpow with
    ⟨-, hnone⟩ | ⟨-, proof', -, -, hpos, hmax, -, hsome⟩
  · rw [hnone] at hproof
    simp at hproof
  · rw [hsome, Option.some.injEq] at hproof
    rw [← hproof]
    exact ⟨hpos, hmax⟩

/-- The client reads the second signature of an admitted record. -/
theorem parseCoSig_of_admission (h : Admission b r es) : parseCoSig es = .ok r.coSig := by
  rw [parseCoSig_eq_ok]
  rcases (wire_parsed h).coSig with ⟨-, c, hsome, hget, hlen⟩ | ⟨-, hnone, hget⟩
  · exact Or.inl ⟨c, hsome, get?_ofWire_bytes.1 hget, hlen⟩
  · refine Or.inr ⟨hnone, hget.imp get?_ofWire_eq_none.1 fun hnull => ?_⟩
    obtain ⟨v, hv, hw⟩ := get?_ofWire_eq.1 hnull
    rwa [ofWire_eq_null.1 hw] at hv

/-- The entries the registry has read, as they stand on the wire. -/
theorem entries_of_admission (h : Admission b r es) : ∃ entries,
    field es "records" = some (.array entries) ∧ entries.length ≤ maxRecordEntries ∧
      ListFits r.name r.tld entries ∧ ListUnits entries ∧ List.Forall₂ Reads entries r.entries := by
  have hp := wire_parsed h
  obtain ⟨entries, hrecords, hle, hreads⟩ := (parseEntries_eq_ok h.canonical h.bomFree).1 hp.entries
  obtain ⟨entries', hrecords', -, hfit, hunits⟩ :=
    (registryEntries_eq_ok h.canonical h.bomFree).1 ⟨r.entries, hp.entries, hp.aliases⟩
  obtain rfl : entries = entries' := Value.array.inj (Option.some.inj (hrecords.symm.trans hrecords'))
  exact ⟨entries, hrecords, hle, hfit, hunits, hreads⟩

/-- The client parses every admitted record. -/
theorem parsed_recordOf (h : Admission b r es) : Parsed es (recordOf es r) := by
  have hp := wire_parsed h
  have hb := h.bomFree
  obtain ⟨entries, hrecords, hle, hfit, -⟩ := entries_of_admission h
  have hversion := (get?_ofWire_number.1 hp.version).1
  rw [hp.version_eq] at hversion
  exact
    { map := rfl, version := hversion
      suite := (get?_ofWire_number.1 hp.suite).1, suite_eq := hp.suite_eq
      op := (get?_ofWire_text hb).1 hp.op, op_mem := name_mem r.op
      label := (get?_ofWire_text hb).1 hp.name, label_ok := labelRejection_eq_none.2 hp.label
      tld := (get?_ofWire_text hb).1 hp.tld, ratified := by rw [isRatifiedTld_eq]; exact hp.ratified
      ownerKey := get?_ofWire_bytes.1 hp.ownerKey, ownerKey_length := hp.ownerKey_length
      ownerKey_order := hp.ownerKey_order
      seq := (get?_ofWire_number.1 hp.seq).1, seq_le := hp.seq_le
      notBefore := (get?_ofWire_number.1 hp.notBefore).1
      notAfter := (get?_ofWire_number.1 hp.notAfter).1, term := hp.term
      entries := checkEntries_eq_ok.2 ⟨entries, hrecords, hle, hfit⟩
      pow := ⟨_, parsePow_of_admission h, by rw [Option.map_map]; rfl, by rw [Option.map_map]; rfl⟩
      sig := get?_ofWire_bytes.1 hp.sig, sig_length := hp.sig_length
      prevHash := ⟨r.prevHash, get?_ofWire_bytes.1 hp.prevHash, hp.prevHash_length⟩
      coSig := parseCoSig_of_admission h }

theorem meets_recordOf (h : Admission b r es) : MeetsRegistry (recordOf es r) := by
  have hp := wire_parsed h
  obtain ⟨entries, hrecords, -, -, hunits, -⟩ := entries_of_admission h
  refine ⟨h.bomFree, (get?_ofWire_number.1 hp.notAfter).2, ?_, fun bits => bits_of_admission h, ?_⟩
  · intro entries' hrecords'
    obtain rfl : entries = entries' := Value.array.inj (Option.some.inj (hrecords.symm.trans hrecords'))
    exact hunits
  · simp only [recordOf, name_transfer]
    rcases hp.coSig with ⟨hop, c, hsome, -⟩ | ⟨hop, hnone, -⟩
    · simp [hop, hsome]
    · simp [hop, hnone]

/-- What the client parses agrees with what the registry admitted. -/
theorem agrees_recordOf (h : Admission b r es) : Agrees r (recordOf es r) := by
  obtain ⟨entries, hrecords, -, -, -, hreads⟩ := entries_of_admission h
  exact { map := h.map, op := rfl, label := rfl, tld := rfl, seq := rfl, notBefore := rfl, notAfter := rfl,
          ownerKey := rfl, sig := rfl, coSig := rfl, suite := rfl, powBits := rfl, powNonce := rfl,
          prevHash := get?_ofWire_bytes.1 (wire_parsed h).prevHash,
          entries := ⟨entries, hrecords, hreads⟩ }

end Admitted

/-- **What the registry admits the client parses**, as the same record. -/
theorem parses_of_admits {b : Bytes} {r : RegistryRecord} (h : admitBytes b = .ok r) :
    ∃ p, parseBytes b = .ok p ∧ MeetsRegistry p ∧ Agrees r p := by
  obtain ⟨es, hes⟩ := admission_of_admit h
  exact ⟨recordOf es r, parseBytes_eq_ok.2 ⟨hes.length, es, hes.canonical, hes.bytes, parsed_recordOf hes⟩,
    meets_recordOf hes, agrees_recordOf hes⟩

/-! ## The other way -/

/-- The proof of work the registry reads. -/
def proofOf (p : ParsedRecord) : Option PowProof :=
  match p.powBits, p.powNonce with
  | some bits, some nonce => some { alg := powAlgorithm, nonce := nonce, bits := bits }
  | _, _ => none

/-- The record of the client as the registry holds it. -/
def registryOf (es : Members) (p : ParsedRecord) (op : Operation) (entries : List RecordEntry)
    (prevHash : Bytes) : RegistryRecord :=
  { version := VayuWeb.supportedVersion, suite := launchSuite, op := op, name := p.label, tld := p.tld,
    ownerKey := p.ownerKey, seq := p.seq, notBefore := p.notBefore, notAfter := p.notAfter,
    entries := entries, powProof := proofOf p, prevHash := prevHash, sig := p.sig, coSig := p.coSig,
    map := es.map fun e => (e.1, ofWire e.2) }

/-- **What the client parses the registry admits, when it meets the registry's rules.** -/
theorem admits_of_parses {b : Bytes} {p : ParsedRecord} (h : parseBytes b = .ok p)
    (hm : MeetsRegistry p) : ∃ r, admitBytes b = .ok r ∧ Agrees r p := by
  obtain ⟨hlen, es, hc, hbytes, hp⟩ := parseBytes_eq_ok.1 h
  obtain ⟨hb, hsafe, hipns, hbits, hco⟩ := hm
  rw [hp.map] at hb hipns
  obtain ⟨entries, hrecords, hle, hfit⟩ := checkEntries_eq_ok.1 hp.entries
  obtain ⟨res, hres, haliases⟩ := (registryEntries_eq_ok hc hb).2
    ⟨entries, hrecords, hle, hfit, hipns entries hrecords⟩
  obtain ⟨op, hop⟩ := ofName_of_mem hp.op_mem
  obtain ⟨pow, hpow, hpowBits, hpowNonce⟩ := hp.pow
  obtain ⟨hpowField, hcarries⟩ := parsePow_eq_ok.1 hpow
  obtain ⟨prevHash, hprev, hprevLength⟩ := hp.prevHash
  -- both read the same three members of `powProof`, and differ in the bits they allow
  have hproof : proofOf p = pow.map fun q => { alg := powAlgorithm, nonce := q.2, bits := q.1 } := by
    unfold proofOf
    rw [hpowBits, hpowNonce]
    cases pow <;> rfl
  have hparsePow : VayuWeb.parsePow op (es.map fun e => (e.1, ofWire e.2)) = .ok (proofOf p) := by
    rw [registryParsePow_eq_ok, hproof, Option.isSome_map, ← name_register, ← name_renew, ← hop]
    refine ⟨(registryPow_eq_ok hc hb).2 ?_, hcarries⟩
    rcases powField_eq_ok.1 hpowField with ⟨hnull, rfl⟩ | ⟨fields, bits, nonce, hmap, hfits, -, rfl⟩
    · exact Or.inl ⟨hnull, rfl⟩
    · obtain ⟨hpos, hmax⟩ := hbits bits hpowBits
      exact Or.inr ⟨fields, ⟨powAlgorithm, nonce, bits⟩, hmap, hfits, hpos, hmax, rfl, rfl⟩
  -- a `coSig` of null counts as absent on both sides
  have hcoSig : (op = .transfer ∧ ∃ c, p.coSig = some c ∧
        CborMap.get? (es.map fun e => (e.1, ofWire e.2)) "coSig" = some (.bytes c) ∧ c.length = 64) ∨
      (op ≠ .transfer ∧ p.coSig = none ∧
        (CborMap.get? (es.map fun e => (e.1, ofWire e.2)) "coSig" = none ∨
          CborMap.get? (es.map fun e => (e.1, ofWire e.2)) "coSig" = some .null)) := by
    rw [hop, name_transfer] at hco
    rcases parseCoSig_eq_ok.1 hp.coSig with ⟨c, hsome, hget, hlen⟩ | ⟨hnone, hget⟩
    · exact Or.inl ⟨hco.2 (by rw [hsome]; rfl), c, hsome, get?_ofWire_bytes.2 hget, hlen⟩
    · refine Or.inr ⟨fun htransfer => ?_, hnone, hget.imp get?_ofWire_eq_none.2 fun hnull => ?_⟩
      · have := hco.1 htransfer
        rw [hnone] at this
        simp at this
      · exact get?_ofWire_eq.2 ⟨_, hnull, rfl⟩
  have hsafeSeq : maxSeq ≤ maxSafeInteger := by decide
  have hone : 1 ≤ maxSafeInteger := by decide
  have hseq := hp.seq_le
  have hterm := hp.term
  have hsuite := hp.suite
  rw [hp.suite_eq] at hsuite
  have hparsed : VayuWeb.Parsed (es.map fun e => (e.1, ofWire e.2)) (registryOf es p op res prevHash) :=
    { map := rfl, version := get?_ofWire_number.2 ⟨hp.version, hone⟩, version_eq := rfl
      suite := get?_ofWire_number.2 ⟨hsuite, hone⟩, suite_eq := rfl
      op := (get?_ofWire_text hb).2 (by rw [hp.op, hop]; rfl)
      name := (get?_ofWire_text hb).2 hp.label, label := labelRejection_eq_none.1 hp.label_ok
      tld := (get?_ofWire_text hb).2 hp.tld, ratified := by rw [← isRatifiedTld_eq]; exact hp.ratified
      ownerKey := get?_ofWire_bytes.2 hp.ownerKey, ownerKey_length := hp.ownerKey_length
      ownerKey_order := hp.ownerKey_order
      seq := get?_ofWire_number.2 ⟨hp.seq, by simp only [registryOf]; omega⟩, seq_le := hseq
      notBefore := get?_ofWire_number.2 ⟨hp.notBefore, by simp only [registryOf]; omega⟩
      notAfter := get?_ofWire_number.2 ⟨hp.notAfter, hsafe⟩, term := hterm
      entries := hres, aliases := haliases, powProof := hparsePow
      prevHash := get?_ofWire_bytes.2 hprev, prevHash_length := hprevLength
      sig := get?_ofWire_bytes.2 hp.sig, sig_length := hp.sig_length, coSig := hcoSig }
  have hadmission : Admission b (registryOf es p op res prevHash) es :=
    ⟨hc, hb, hbytes, rfl, hparsed, hlen⟩
  refine ⟨_, hadmission.admitBytes, ?_⟩
  obtain ⟨entries', hrecords', -, hreads⟩ := (parseEntries_eq_ok hc hb).1 hres
  have hmap := hp.map
  exact { map := by rw [hmap]; rfl, op := hop, label := rfl, tld := rfl, seq := rfl, notBefore := rfl,
          notAfter := rfl, ownerKey := rfl, sig := rfl, coSig := rfl, suite := hp.suite_eq
          powBits := by simp only [registryOf, hproof, hpowBits, Option.map_map]; rfl
          powNonce := by simp only [registryOf, hproof, hpowNonce, Option.map_map]; rfl
          prevHash := by rw [hmap]; exact hprev
          entries := ⟨entries', by rw [hmap]; exact hrecords', hreads⟩ }

/-- **The registry admits exactly what the client parses and its stricter rules allow.** -/
theorem admitBytes_iff {b : Bytes} : (∃ r, admitBytes b = .ok r) ↔
    ∃ p, parseBytes b = .ok p ∧ MeetsRegistry p := by
  constructor
  · rintro ⟨r, hr⟩
    obtain ⟨p, hp, hm, -⟩ := parses_of_admits hr
    exact ⟨p, hp, hm⟩
  · rintro ⟨p, hp, hm⟩
    obtain ⟨r, hr, -⟩ := admits_of_parses hp hm
    exact ⟨r, hr⟩

end VayuWeb.Client
