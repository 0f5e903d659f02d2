import VayuWeb.Spec.Content

/-!
# Content identifiers (`client/src/cid.rs`)

The digest of a `Cid` is an array of 32 bytes in the source.
-/

namespace VayuWeb.Client

open Bytes

/-- `CID_VERSION`. -/
def cidVersion : ℕ := 1

/-- `CHUNK_BYTES`. -/
def chunkBytes : ℕ := 262144

/-- `MAX_LINKS`. -/
def maxLinks : ℕ := 174

/-- `CODEC_RAW`. -/
def codecRaw : ℕ := 0x55

/-- `CODEC_DAG_PB`. -/
def codecDagPb : ℕ := 0x70

/-- `MULTIHASH_SHA2_256`. -/
def multihashSha2_256 : ℕ := 0x12

/-- `DIGEST_BYTES`. -/
def digestBytes : ℕ := 32

/-- An error of the CID layer. -/
inductive ContentError where
  | badCid (reason : String)
  deriving DecidableEq, Repr

/-- A CID, taken apart. -/
structure Cid where
  version : ℕ
  codec : ℕ
  digest : Digest
  deriving DecidableEq

/-- A varint that ends. What is shifted beyond the 64th bit is lost. -/
def readVarint (bytes : Bytes) : Except ContentError (ℕ × Bytes) :=
  match Varint.read 10 bytes with
  | .ok (value, rest) => .ok (value % 2 ^ 64, rest)
  | .error .truncated => .error (.badCid "truncated varint")
  | .error .tooLong => .error (.badCid "varint is too long")

/-- Fixed-size pieces; `fuel` of them at most. -/
def chunksOf : ℕ → Bytes → List Bytes
  | 0, _ => []
  | fuel + 1, bytes =>
    if bytes = [] then [] else bytes.take chunkBytes :: chunksOf fuel (bytes.drop chunkBytes)

/-- The empty input is one empty chunk. -/
def chunk (bytes : Bytes) : List Bytes := if bytes = [] then [[]] else chunksOf bytes.length bytes

section Hash

variable (H : ContentHash)

/-- The CID of a raw leaf. -/
def Cid.rawFromBytes (bytes : Bytes) : Cid := { version := cidVersion, codec := codecRaw, digest := H.sha256 bytes }

end Hash

/-- The binary form a registry record carries. -/
def Cid.toBytes (cid : Cid) : Bytes :=
  Varint.encode cid.version ++ Varint.encode cid.codec ++ Varint.encode multihashSha2_256 ++
    Varint.encode digestBytes ++ cid.digest.1

/-- The fields of a CID, each checked as it is read. -/
def Cid.fromBytes (bytes : Bytes) : Except ContentError Cid := do
  let (version, bytes) ← readVarint bytes
  if version ≠ cidVersion then throw (.badCid "only CIDv1 is used")
  let (codec, bytes) ← readVarint bytes
  if codec ≠ codecRaw ∧ codec ≠ codecDagPb then throw (.badCid "codec is neither raw nor dag-pb")
  let (multihash, bytes) ← readVarint bytes
  if multihash ≠ multihashSha2_256 then throw (.badCid "only sha2-256 is used")
  let (length, bytes) ← readVarint bytes
  if length ≠ digestBytes then throw (.badCid "a sha2-256 digest is 32 bytes")
  if h : bytes.length = 32 then return { version := version, codec := codec, digest := ⟨bytes, h⟩ }
  else throw (.badCid "digest length disagrees with the bytes present")

/-- The text form, which names a block's file. -/
def Cid.toText (cid : Cid) : String := "b" ++ Base32.encode cid.toBytes

/-- `base32_decode`. It goes by bytes; those of a character beyond ASCII are not of the alphabet either. -/
def base32Decode (text : String) : Except ContentError Bytes :=
  match Base32.decode text with
  | some bytes => .ok bytes
  | none => .error (.badCid "character is not base32")

/-- Decode the text form. -/
def Cid.fromText (text : String) : Except ContentError Cid :=
  match text.toList with
  | 'b' :: encoded => do
    let bytes ← base32Decode (String.ofList encoded)
    Cid.fromBytes bytes
  | _ => .error (.badCid "the multibase prefix must be lowercase base32 'b'")

end VayuWeb.Client
