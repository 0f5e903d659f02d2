import VayuWeb.Client.Verify
import VayuWeb.Proof.Admit
import VayuWeb.Proof.ClientCbor
import VayuWeb.Proof.ClientNames

/-!
# The client's schema and the registry's

* `parseBytes_eq_ok`: every field of a record the client parses, as it stands on the wire.
* `admitBytes_iff`: the registry admits exactly the records the client parses that meet its
  stricter rules (`MeetsRegistry`), and both read the same fields.
-/

namespace VayuWeb.Client

open Bytes
open DetCbor (Key Value Canonical)

/-! ## Inversion of the client's parser -/

theorem refuse_eq_ok {bad : Prop} [Decidable bad] {code : VerifyRejection} {detail : String} {u : Unit} :
    refuse bad code detail = .ok u ↔ ¬ bad := by
  unfold refuse
  split_ifs with h <;> simp [h]

section Fields

variable {es : Members} {name : String}

theorem uintField_eq_ok {n : ℕ} : uintField es name = .ok n ↔ field es name = some (.uint n) := by
  unfold uintField
  split <;> simp_all

theorem textField_eq_ok {s : String} : textField es name = .ok s ↔ field es name = some (.text s) := by
  unfold textField
  split <;> simp_all

theorem bytesField_eq_ok {n : ℕ} {b : Bytes} :
    bytesField es name n = .ok b ↔ field es name = some (.bytes b) ∧ b.length = n := by
  unfold bytesField
  split
  · simp_all
  · rename_i value hv
    simp only [hv, Option.some.injEq, Value.bytes.injEq]
    split_ifs with hn
    · simp only [Except.ok.injEq]
      constructor
      · rintro rfl; exact ⟨rfl, hn⟩
      · rintro ⟨rfl, -⟩; rfl
    · simp only [false_iff, not_and]
      rintro rfl; exact hn
  · rename_i hv
    simp_all

theorem checkLabel_eq_ok {label : String} {u : Unit} :
    checkLabel label = .ok u ↔ labelRejection label = none := by
  unfold checkLabel
  cases labelRejection label <;> simp

/-- When the client takes the second signature. -/
theorem parseCoSig_eq_ok {c : Option Bytes} : parseCoSig es = .ok c ↔
    (∃ b, c = some b ∧ field es "coSig" = some (.bytes b) ∧ b.length = 64) ∨
      (c = none ∧ (field es "coSig" = none ∨ field es "coSig" = some .null)) := by
  unfold parseCoSig
  split
  · rename_i hg; simp [hg, eq_comm]
  · rename_i hg; simp [hg, eq_comm]
  · rename_i b hb
    split_ifs with hl
    · simp only [Except.ok.injEq, hb, Option.some.injEq, Value.bytes.injEq]
      constructor
      · rintro rfl; exact Or.inl ⟨b, rfl, rfl, hl⟩
      · rintro (⟨b', rfl, rfl, -⟩ | ⟨-, h | h⟩)
        · rfl
        · simp at h
        · simp at h
    · simp only [reduceCtorEq, hb, Option.some.injEq, Value.bytes.injEq, false_iff]
      rintro (⟨b', -, rfl, hl'⟩ | ⟨-, h | h⟩)
      · exact hl hl'
      · simp at h
      · simp at h
  · simp_all

/-- A field is an entry of the map. -/
theorem field_mem {v : Value} (h : field es name = some v) : (Key.text name, v) ∈ es := by
  induction es with
  | nil => simp [field] at h
  | cons e es ih =>
    obtain ⟨k, w⟩ := e
    simp only [field] at h
    split_ifs at h with hk
    · rw [Option.some.injEq] at h
      rw [hk, h]
      exact List.mem_cons_self
    · exact List.mem_cons_of_mem _ (ih h)

/-- The registry reads a field as what stands there on the wire. -/
theorem get?_ofWire : CborMap.get? (es.map fun e => (e.1, ofWire e.2)) name = (field es name).map ofWire := by
  induction es with
  | nil => rfl
  | cons e es ih =>
    obtain ⟨k, v⟩ := e
    simp only [List.map_cons, CborMap.get?, field]
    split_ifs
    · rfl
    · exact ih

end Fields

/-- The fields of a record the client parses from `es`, as they stand in it. -/
structure Parsed (es : Members) (p : ParsedRecord) : Prop where
  map : p.map = es
  version : field es "version" = some (.uint supportedVersion)
  suite : field es "suite" = some (.uint p.suite)
  suite_eq : p.suite = launchSuite
  op : field es "op" = some (.text p.op)
  op_mem : p.op ∈ operationNames
  label : field es "name" = some (.text p.label)
  label_ok : labelRejection p.label = none
  tld : field es "tld" = some (.text p.tld)
  ratified : isRatifiedTld p.tld = true
  ownerKey : field es "ownerKey" = some (.bytes p.ownerKey)
  ownerKey_length : p.ownerKey.length = 32
  ownerKey_order : isSmallOrderKey p.ownerKey = false
  seq : field es "seq" = some (.uint p.seq)
  seq_le : p.seq ≤ maxSeq
  notBefore : field es "notBefore" = some (.uint p.notBefore)
  notAfter : field es "notAfter" = some (.uint p.notAfter)
  term : p.notBefore ≤ p.notAfter
  entries : checkEntries es p.label p.tld = .ok ()
  pow : ∃ pow, parsePow p.op es = .ok pow ∧ p.powBits = pow.map Prod.fst ∧ p.powNonce = pow.map Prod.snd
  sig : field es "sig" = some (.bytes p.sig)
  sig_length : p.sig.length = 64
  prevHash : ∃ h, field es "prevHash" = some (.bytes h) ∧ h.length = 32
  coSig : parseCoSig es = .ok p.coSig

/-- **A map parses exactly as the record its fields spell.** -/
theorem parseRecord_eq_ok {v : Value} {p : ParsedRecord} :
    parseRecord v = .ok p ↔ ∃ es, v = .map es ∧ Parsed es p := by
  cases v with
  | map es =>
    -- each check of the parser is one field of `Parsed`
    simp only [parseRecord, Except.bind_eq_ok, refuse_eq_ok, uintField_eq_ok, textField_eq_ok,
      bytesField_eq_ok, checkLabel_eq_ok, Except.pure_eq_ok, Except.ok.injEq, Value.map.injEq,
      exists_eq_left']
    constructor
    · rintro ⟨version, hver, -, hver1, suite, hsuite, -, hsuite1, -, -, op, hop, -, hopm, label, hlabel, -,
        hlok, tld, htld, -, hrat, key, ⟨hkey, hkeyl⟩, -, hord, seq, hseq, -, hseql, nb, hnb, na, hna, -,
        hterm, _, hent, pow, hpow, sig, ⟨hsig, hsigl⟩, prev, hprev, coSig, hco, rfl⟩
      have hver2 : version = supportedVersion := by simpa using hver1
      exact { map := rfl, version := by rw [hver, hver2], suite := hsuite, suite_eq := by simpa using hsuite1,
              op := hop, op_mem := by simpa using hopm, label := hlabel, label_ok := hlok, tld := htld,
              ratified := by simpa using hrat, ownerKey := hkey, ownerKey_length := hkeyl,
              ownerKey_order := by simpa using hord, seq := hseq, seq_le := by simpa using hseql,
              notBefore := hnb, notAfter := hna, term := by simpa using hterm, entries := hent,
              pow := ⟨pow, hpow, rfl, rfl⟩, sig := hsig, sig_length := hsigl, prevHash := ⟨prev, hprev⟩,
              coSig := hco }
    · intro h
      obtain ⟨pow, hpow, hbits, hnonce⟩ := h.pow
      obtain ⟨prev, hprev⟩ := h.prevHash
      have hsuite := h.suite_eq
      refine ⟨_, h.version, (), by simp, _, h.suite, (), by simp [h.suite_eq], (), ?_, _, h.op, (),
        by simpa using h.op_mem, _, h.label, (), h.label_ok, _, h.tld, (), by simp [h.ratified], _,
        ⟨h.ownerKey, h.ownerKey_length⟩, (), by simp [h.ownerKey_order], _, h.seq, (),
        by simpa using h.seq_le, _, h.notBefore, _, h.notAfter, (), by simpa using h.term, (), h.entries, _,
        hpow, _, ⟨h.sig, h.sig_length⟩, _, hprev, _, h.coSig, ?_⟩
      · rw [h.suite_eq]
        decide
      · rw [← hbits, ← hnonce, ← h.map]
  | _ => simp [parseRecord]

/-- **What the client parses**: the deterministic encoding of a map that parses. -/
theorem parseBytes_eq_ok {b : Bytes} {p : ParsedRecord} :
    parseBytes b = .ok p ↔ b.length ≤ maxRecordBytes ∧
      ∃ es, Canonical 33 (.map es) ∧ b = (Value.map es).encode ∧ Parsed es p := by
  unfold parseBytes
  by_cases hlen : b.length > maxRecordBytes
  · rw [if_pos hlen]
    simp only [reduceCtorEq, false_iff, not_and]
    omega
  · rw [if_neg hlen]
    have hle : b.length ≤ maxRecordBytes := by omega
    cases hd : decode b with
    | error e =>
      simp only [reduceCtorEq, false_iff, not_and, not_exists]
      intro _ es hc hb
      rw [decode_eq_ok.2 ⟨hc, hb⟩] at hd
      simp at hd
    | ok v =>
      have hencode := encode_of_decode hd
      obtain ⟨hcanonical, hbytes⟩ := decode_eq_ok.1 hd
      simp only [hencode, if_true, hle, true_and]
      rw [parseRecord_eq_ok]
      constructor
      · rintro ⟨es, rfl, hp⟩
        exact ⟨es, hcanonical, hbytes, hp⟩
      · rintro ⟨es, hc, hb, hp⟩
        rw [decode_eq_ok.2 ⟨hc, hb⟩, Except.ok.injEq] at hd
        exact ⟨es, hd.symm, hp⟩

/-! ## Refusals -/

section Refusals

/-- When it fails it does not accept. -/
def Refuses {α : Type} (x : Except Verdict α) : Prop := x ≠ .error .accept

theorem Refuses.bind {α β : Type} {x : Except Verdict α} {f : α → Except Verdict β} (hx : Refuses x)
    (hf : ∀ a, Refuses (f a)) : Refuses (x >>= f) := by
  cases x with
  | ok a => exact hf a
  | error verdict =>
    intro h
    rw [Except.error_bind, Except.error.injEq] at h
    exact hx (congrArg Except.error h)

theorem refuses_ok {α : Type} (a : α) : Refuses (.ok a : Except Verdict α) := by simp [Refuses]

theorem refuses_reject {α : Type} (code : VerifyRejection) (detail : String) :
    Refuses (.error (.reject code detail) : Except Verdict α) := by simp [Refuses]

theorem refuses_refuse {bad : Prop} [Decidable bad] {code : VerifyRejection} {detail : String} :
    Refuses (refuse bad code detail) := by
  unfold refuse
  split_ifs
  · exact refuses_reject code detail
  · exact refuses_ok ()

theorem refuses_foldlM {α β : Type} {f : β → α → Except Verdict β} (hf : ∀ b a, Refuses (f b a)) (l : List α) (b : β) :
    Refuses (l.foldlM f b) := by
  induction l generalizing b with
  | nil => exact refuses_ok b
  | cons a l ih =>
    rw [List.foldlM_cons]
    exact (hf b a).bind ih

variable {es : Members} {name : String}

theorem refuses_uintField : Refuses (uintField es name) := by
  unfold uintField
  split <;> simp [Refuses, missing, wrongType]

theorem refuses_textField : Refuses (textField es name) := by
  unfold textField
  split <;> simp [Refuses, missing, wrongType]

theorem refuses_bytesField {n : ℕ} : Refuses (bytesField es name n) := by
  unfold bytesField
  split
  · simp [Refuses, missing]
  · split_ifs <;> simp [Refuses, wrongType]
  · simp [Refuses, wrongType]

theorem refuses_checkLabel {label : String} : Refuses (checkLabel label) := by
  unfold checkLabel
  split <;> simp [Refuses]

theorem refuses_badEntry {α : Type} {detail : String} : Refuses (badEntry detail : Except Verdict α) := by
  simp [Refuses, badEntry]

theorem refuses_badShape {α : Type} {detail : String} : Refuses (badShape detail : Except Verdict α) := by
  simp [Refuses, badShape]

theorem refuses_checkTtl : Refuses (checkTtl es) := by
  unfold checkTtl
  split
  · exact refuses_ok ()
  · split
    · exact refuses_badEntry
    · exact refuses_refuse

theorem refuses_checkKind {label tld kind : String} {total aliasCount : ℕ} {value : Value} :
    Refuses (checkKind label tld total aliasCount kind value) := by
  unfold checkKind
  repeat' split
  all_goals first | exact refuses_badEntry | exact refuses_ok _

theorem refuses_checkEntry {label tld : String} {total aliasCount : ℕ} {entry : Value} :
    Refuses (checkEntry label tld total aliasCount entry) := by
  unfold checkEntry
  split
  · split
    · exact refuses_badEntry
    · split
      · exact refuses_badEntry
      · exact refuses_checkTtl.bind fun _ => refuses_refuse.bind fun _ => refuses_checkKind
    · exact refuses_badEntry
  · exact refuses_badEntry

theorem refuses_checkEntries {label tld : String} : Refuses (checkEntries es label tld) := by
  unfold checkEntries
  split
  · simp [Refuses, missing]
  · exact refuses_refuse.bind fun _ =>
      (refuses_foldlM (fun _ _ => refuses_checkEntry) _ _).bind fun _ => refuses_ok _
  · simp [Refuses, wrongType]

theorem refuses_parseProof : Refuses (parseProof es) := by
  unfold parseProof
  split
  · exact refuses_badShape
  · refine refuses_refuse.bind fun _ => ?_
    split
    · exact refuses_badShape
    · refine Refuses.bind ?_ fun _ => Refuses.bind ?_ fun _ => refuses_ok _
      · unfold parseBits
        repeat' split
        all_goals first | exact refuses_badShape | exact refuses_ok _
      · unfold parseNonce
        repeat' split
        all_goals first | exact refuses_badShape | exact refuses_ok _
  · exact refuses_badShape

theorem refuses_parsePow {op : String} : Refuses (parsePow op es) := by
  unfold parsePow
  refine Refuses.bind ?_ fun pow => refuses_refuse.bind fun _ => refuses_refuse.bind fun _ => refuses_ok _
  unfold powField
  split
  · simp [Refuses, missing]
  · exact refuses_ok _
  · exact refuses_parseProof.bind fun _ => refuses_ok _
  · exact refuses_badShape

theorem refuses_parseCoSig : Refuses (parseCoSig es) := by
  unfold parseCoSig
  repeat' split
  all_goals simp [Refuses]

/-- Parsing a record refuses, it never defers or accepts. -/
theorem refuses_parseRecord {v : Value} : Refuses (parseRecord v) := by
  unfold parseRecord
  split
  · refine refuses_uintField.bind fun _ => refuses_refuse.bind fun _ => refuses_uintField.bind fun _ =>
      refuses_refuse.bind fun _ => refuses_refuse.bind fun _ => refuses_textField.bind fun _ =>
      refuses_refuse.bind fun _ => refuses_textField.bind fun _ => refuses_checkLabel.bind fun _ =>
      refuses_textField.bind fun _ => refuses_refuse.bind fun _ => refuses_bytesField.bind fun _ =>
      refuses_refuse.bind fun _ => refuses_uintField.bind fun _ => refuses_refuse.bind fun _ =>
      refuses_uintField.bind fun _ => refuses_uintField.bind fun _ => refuses_refuse.bind fun _ =>
      refuses_checkEntries.bind fun _ => refuses_parsePow.bind fun _ => refuses_bytesField.bind fun _ =>
      refuses_bytesField.bind fun _ => refuses_parseCoSig.bind fun _ => refuses_ok _
  · exact refuses_reject _ _

/-- Parsing bytes refuses, it never defers or accepts. -/
theorem refuses_parseBytes {bytes : Bytes} : Refuses (parseBytes bytes) := by
  unfold parseBytes
  split_ifs
  · exact refuses_reject _ _
  · split
    · exact refuses_reject _ _
    · split
      · split_ifs
        · exact refuses_parseRecord
        · exact refuses_reject _ _
      · exact refuses_reject _ _

end Refusals

end VayuWeb.Client
