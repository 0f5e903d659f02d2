import VayuWeb.Client.Cbor
import VayuWeb.Spec.Signature

/-!
# Domain separation and signatures in the client (`client/src/domain.rs`, `client/src/identity.rs`)
-/

namespace VayuWeb.Client

open Bytes
open DetCbor (Key Value)

/-- The entries of a record map, in the order they stand. -/
abbrev Members := List (Key × Value)

/-- `RECORD_SIGNING_PREFIX`. -/
def recordSigningPrefix : String := "VayuWeb-Registry-Record-v1"

/-- `RECORD_HASH_PREFIX`. -/
def recordHashPrefix : String := "VayuWeb-Registry-Hash-v1"

/-- `SIGNATURE_FIELDS`. -/
def signatureFields : List String := ["sig", "coSig"]

/-- A body behind the prefix that separates its domain. -/
def withDomain (domain : String) (body extra : Bytes) : Bytes :=
  utf8Encode domain ++ [0x00] ++ extra ++ body

/-- The record map without its signature fields. A byte string key is an error. -/
def coreOf : Members → Except CborError Members
  | [] => .ok []
  | (.bytes _, _) :: _ => .error .badMapKey
  | (.text name, value) :: record => do
    let core ← coreOf record
    if signatureFields.contains name then return core else return (.text name, value) :: core

/-- What is signed of a record: its bytes without the signatures. -/
def encodeCore (record : Members) : Except CborError Bytes := do
  let core ← coreOf record
  encode (.map core)

/-- What the owner's signature is computed over. -/
def signingInput (coreCbor : Bytes) (suite : ℕ) : Bytes :=
  withDomain recordSigningPrefix coreCbor [UInt8.ofNat suite]

/-- The hash of a record, from its encoding. -/
def recordHashFromBytes (C : Crypto) (recordBytes : Bytes) : Bytes :=
  C.blake2b (withDomain recordHashPrefix recordBytes [])

/-! ## Identities -/

/-- `Identity::verify`. `verify_strict` refuses a public key of small order. -/
def verifySignature (C : Crypto) (publicKey message signature : Bytes) : Bool :=
  if signature.length ≠ signatureLength then false
  else if isSmallOrderKey publicKey then false
  else C.ed25519Verify signature message publicKey

/-- A key pair: `sign` is the Ed25519 library under the secret seed, or nothing when that seed has
the wrong length. What it signs verifies under the public key. -/
structure Identity (C : Crypto) where
  publicKey : Bytes
  sign : Bytes → Option Bytes
  length_publicKey : publicKey.length = 32
  length_sign : ∀ message signature, sign message = some signature → signature.length = 64
  sign_verifies : ∀ message signature, sign message = some signature →
    verifySignature C publicKey message signature = true

end VayuWeb.Client
