import VayuWeb.Base.Base32
import VayuWeb.Base.Chunks
import VayuWeb.Base.Varint
import VayuWeb.Spec.Cbor

/-!
# Content addressing (`registry/src/content.ts`)

SHA-256 is a parameter. A digest has its 32 bytes by type, so that the checks of a digest's length
against 32 that follow a hash do not occur.
-/

namespace VayuWeb

/-- A sha2-256 digest. -/
abbrev Digest := { digest : Bytes // digest.length = 32 }

/-- The hash that addresses content. -/
structure ContentHash where
  sha256 : Bytes → Digest

end VayuWeb

namespace VayuWeb.Content

open Bytes

/-- `CID_PARAMETERS.version`. -/
def version : ℕ := 1

/-- `CID_PARAMETERS.chunkBytes`. -/
def chunkBytes : ℕ := 262144

/-- `CID_PARAMETERS.codecRaw`. -/
def codecRaw : ℕ := 0x55

/-- `CID_PARAMETERS.codecDagPb`. -/
def codecDagPb : ℕ := 0x70

/-- `CID_PARAMETERS.multihashSha2_256`. -/
def multihashSha2_256 : ℕ := 0x12

/-- `CID_PARAMETERS.digestBytes`. -/
def digestBytes : ℕ := 32

/-- `MULTIBASE_BASE32`. -/
def multibaseBase32 : String := "b"

/-- An error of the content layer, with its message. -/
structure ContentError where
  message : String
  deriving DecidableEq, Repr

/-- A character between the quotes of `JSON.stringify`. -/
def jsonChar (c : Char) : String :=
  if c = '"' then "\\\""
  else if c = '\\' then "\\\\"
  else if c.toNat = 8 then "\\b"
  else if c = '\t' then "\\t"
  else if c = '\n' then "\\n"
  else if c.toNat = 12 then "\\f"
  else if c = '\r' then "\\r"
  else if c.toNat < 32 then "\\u00" ++ (if c.toNat < 16 then "0" else "1") ++ String.ofList
    (Nat.toDigits 16 (c.toNat % 16))
  else String.singleton c

/-- `JSON.stringify` of a string. -/
def jsonString (text : String) : String := "\"" ++ String.join (text.toList.map jsonChar) ++ "\""

/-- `base32Decode`: the bytes of a text, or the character that is not of the alphabet. -/
def base32Decode (text : String) : Except ContentError Bytes :=
  match Base32.decode text with
  | some bytes => .ok bytes
  | none =>
    -- the first character that is not of the alphabet
    let character := (text.toList.find? fun c => Base32.indexOf c = none).getD ' '
    .error ⟨jsonString (String.singleton character) ++ " is not a base32 character"⟩

/-- A CID, taken apart. -/
structure Cid where
  version : ℕ
  codec : ℕ
  digest : Digest
  deriving DecidableEq

/-- Unsigned LEB128. -/
def varint (value : ℕ) : Except ContentError Bytes :=
  if value ≤ maxSafeInteger then .ok (Varint.encode value)
  else .error ⟨s!"varint values are non-negative integers, got {value}"⟩

/-- More than eight groups are refused; what a rounded sum of eight is makes no difference, as only
small constants are accepted. -/
def readVarint (bytes : Bytes) : Except ContentError (ℕ × Bytes) :=
  match Varint.read 8 bytes with
  | .ok result => .ok result
  | .error .truncated => .error ⟨"truncated varint"⟩
  | .error .tooLong => .error ⟨"varint is too long"⟩

/-- The binary form. -/
def cidBytes (cid : Cid) : Except ContentError Bytes := do
  return (← varint cid.version) ++ (← varint cid.codec) ++ (← varint multihashSha2_256) ++
    (← varint cid.digest.1.length) ++ cid.digest.1

/-- The text form. -/
def encodeCid (cid : Cid) : Except ContentError String := do
  return multibaseBase32 ++ Base32.encode (← cidBytes cid)

/-- `n.toString(16)`. -/
def hex (n : ℕ) : String := String.ofList (Nat.toDigits 16 n)

/-- The fields of a CID, each checked as it is read. -/
def cidFromBytes (bytes : Bytes) : Except ContentError Cid := do
  let (v, bytes) ← readVarint bytes
  if v ≠ version then throw ⟨s!"only CIDv1 is used, got v{v}"⟩
  let (codec, bytes) ← readVarint bytes
  if codec ≠ codecRaw ∧ codec ≠ codecDagPb then throw ⟨s!"codec 0x{hex codec} is not raw or dag-pb"⟩
  let (multihash, bytes) ← readVarint bytes
  if multihash ≠ multihashSha2_256 then
    throw ⟨s!"only sha2-256 is used, got multihash code 0x{hex multihash}"⟩
  let (length, digest) ← readVarint bytes
  if length ≠ digestBytes then throw ⟨s!"a sha2-256 digest is {digestBytes} bytes, got {length}"⟩
  if h : digest.length = 32 then return { version := v, codec := codec, digest := ⟨digest, h⟩ }
  else throw ⟨s!"digest is {digest.length} bytes, header declared {length}"⟩

/-- `decodeCid`: the text form, which carries the multibase prefix. -/
def decodeCid (text : String) : Except ContentError Cid := do
  match text.toList with
  | 'b' :: encoded => cidFromBytes (← base32Decode (String.ofList encoded))
  | _ => throw ⟨s!"expected a {multibaseBase32}-prefixed base32 CID; CIDv0 and other multibases are not used"⟩

/-- Fixed-size pieces; the empty input is one empty piece. -/
def chunk (bytes : Bytes) (size : ℕ) : Except ContentError (List Bytes) :=
  if size = 0 then .error ⟨"chunk size must be positive"⟩
  else if bytes = [] then .ok [[]]
  else .ok (Chunks.split size bytes.length bytes)

/-- The CID of a raw leaf. -/
def rawLeafCid (H : ContentHash) (bytes : Bytes) : Except ContentError String :=
  if bytes.length > chunkBytes then
    .error ⟨s!"a raw leaf is at most {chunkBytes} bytes; {bytes.length} needs a DAG"⟩
  else encodeCid { version := 1, codec := codecRaw, digest := H.sha256 bytes }

/-! ## What comes back -/

/-- When a number is written, and how. -/
theorem varint_eq_ok {value : ℕ} {bytes : Bytes} :
    varint value = .ok bytes ↔ value ≤ maxSafeInteger ∧ bytes = Varint.encode value := by
  rw [varint]
  split_ifs with h
  · simp [h, eq_comm]
  · simp [h]

theorem varint_ok {value : ℕ} (h : value ≤ maxSafeInteger) : varint value = .ok (Varint.encode value) :=
  varint_eq_ok.2 ⟨h, rfl⟩

/-- The four constants of a CID's head, each in one group. -/
theorem readVarint_small {n : ℕ} (hn : n < 128) (rest : Bytes) :
    readVarint (Varint.encode n ++ rest) = .ok (n, rest) := by
  have hgroups : Varint.read 8 (Varint.encode n ++ rest) = .ok (n, rest) := by
    rw [Varint.encode, Varint.groups, if_pos hn]
    exact Varint.read_small hn rest
  rw [readVarint, hgroups]

/-- The codecs that the specification admits. -/
def Admitted (cid : Cid) : Prop := cid.version = version ∧ (cid.codec = codecRaw ∨ cid.codec = codecDagPb)

theorem Admitted.codec_lt {cid : Cid} (h : Admitted cid) : cid.codec < 128 := by
  rcases h.2 with hcodec | hcodec
  · rw [hcodec]
    decide
  · rw [hcodec]
    decide

theorem version_lt : version < 128 := by decide

theorem multihash_lt : multihashSha2_256 < 128 := by decide

theorem digestBytes_lt : digestBytes < 128 := by decide

theorem small_le_safe {n : ℕ} (h : n < 128) : n ≤ maxSafeInteger := Nat.le_trans (Nat.le_of_lt h) (by decide)

/-- The bytes of a CID, whatever its codec. -/
def bytesOf (cid : Cid) : Bytes :=
  Varint.encode cid.version ++ Varint.encode cid.codec ++ Varint.encode multihashSha2_256 ++
    Varint.encode digestBytes ++ cid.digest.1

/-- What is written for a CID of safe numbers. -/
theorem cidBytes_eq {cid : Cid} (hversion : cid.version ≤ maxSafeInteger) (hcodec : cid.codec ≤ maxSafeInteger) :
    cidBytes cid = .ok (bytesOf cid) := by
  have hdigest : cid.digest.1.length = digestBytes := cid.digest.2
  rw [cidBytes, hdigest, varint_ok hversion, varint_ok hcodec, varint_ok (small_le_safe multihash_lt),
    varint_ok (small_le_safe digestBytes_lt)]
  rfl

/-- The text of a CID. -/
def textOf (cid : Cid) : String := multibaseBase32 ++ Base32.encode (bytesOf cid)

/-- The text of a CID of safe numbers. -/
theorem encodeCid_eq {cid : Cid} (hversion : cid.version ≤ maxSafeInteger) (hcodec : cid.codec ≤ maxSafeInteger) :
    encodeCid cid = .ok (textOf cid) := by
  rw [encodeCid, cidBytes_eq hversion hcodec]
  rfl

theorem encodeCid_admitted {cid : Cid} (h : Admitted cid) : encodeCid cid = .ok (textOf cid) := by
  have hversion : cid.version ≤ maxSafeInteger := by
    rw [h.1]
    exact small_le_safe version_lt
  exact encodeCid_eq hversion (small_le_safe h.codec_lt)

/-- An admitted CID comes back from its bytes. -/
theorem cidFromBytes_bytesOf {cid : Cid} (h : Admitted cid) : cidFromBytes (bytesOf cid) = .ok cid := by
  have hcodec : ¬ (cid.codec ≠ codecRaw ∧ cid.codec ≠ codecDagPb) := by
    intro hne
    exact h.2.elim hne.1 hne.2
  have hread : bytesOf cid = Varint.encode version ++ (Varint.encode cid.codec ++
      (Varint.encode multihashSha2_256 ++ (Varint.encode digestBytes ++ cid.digest.1))) := by
    rw [bytesOf, h.1, List.append_assoc, List.append_assoc, List.append_assoc]
  rw [cidFromBytes, hread, readVarint_small version_lt]
  simp only [Except.ok_bind, ne_eq, not_true_eq_false, if_false]
  rw [readVarint_small h.codec_lt]
  simp only [Except.ok_bind]
  rw [if_neg hcodec, readVarint_small multihash_lt]
  simp only [Except.ok_bind, not_true_eq_false, if_false]
  rw [readVarint_small digestBytes_lt]
  simp only [Except.ok_bind, not_true_eq_false, if_false, dif_pos cid.digest.2, ← h.1, Except.pure_eq_ok]

/-- **The text form reads back.** -/
theorem decodeCid_textOf {cid : Cid} (h : Admitted cid) : decodeCid (textOf cid) = .ok cid := by
  have htext : (textOf cid).toList = 'b' :: (Base32.encode (bytesOf cid)).toList := by
    rw [textOf, String.toList_append]
    rfl
  have hdecode : base32Decode (Base32.encode (bytesOf cid)) = .ok (bytesOf cid) := by
    rw [base32Decode, Base32.decode_encode]
  rw [decodeCid, htext]
  simp only [String.ofList_toList, hdecode, Except.ok_bind]
  exact cidFromBytes_bytesOf h

/-- Two admitted CIDs never share a text. -/
theorem textOf_injective {cid cid' : Cid} (h : Admitted cid) (h' : Admitted cid') (heq : textOf cid = textOf cid') :
    cid = cid' := by
  have hdecode := decodeCid_textOf h
  rw [heq, decodeCid_textOf h', Except.ok.injEq] at hdecode
  exact hdecode.symm

/-- What is decoded is admitted. -/
theorem decodeCid_admitted {text : String} {cid : Cid} (h : decodeCid text = .ok cid) : Admitted cid := by
  have hbytes : ∀ {bytes : Bytes}, cidFromBytes bytes = .ok cid → Admitted cid := by
    intro bytes hbytes
    simp only [cidFromBytes, Except.guarded_eq_ok, Except.bind_eq_ok, Prod.exists] at hbytes
    obtain ⟨v, rest, -, hversion, codec, rest', -, hcodec, multihash, rest'', -, -, length, digest, -, -, hcid⟩ :=
        hbytes
    split_ifs at hcid with hdigest
    rw [Except.pure_eq_ok, Except.ok.injEq] at hcid
    rw [← hcid]
    refine ⟨not_not.1 hversion, ?_⟩
    change codec = codecRaw ∨ codec = codecDagPb
    tauto
  rw [decodeCid] at h
  split at h
  · obtain ⟨bytes, -, h⟩ := Except.bind_eq_ok.1 h
    exact hbytes h
  · simp at h

end VayuWeb.Content
