import VayuWeb.Spec.Cbor
import VayuWeb.Spec.Signature

/-!
# Domain separation, hashing and signing input (`registry/src/domain.ts`)
-/

namespace VayuWeb

open Bytes
open DetCbor (Key)

/-- `RECORD_SIGNING_PREFIX`. -/
def recordSigningPrefix : String := "VayuWeb-Registry-Record-v1"

/-- `RECORD_HASH_PREFIX`. -/
def recordHashPrefix : String := "VayuWeb-Registry-Hash-v1"

/-- `RECORD_HASH_LENGTH`. -/
def recordHashLength : ℕ := 32

/-- `ZERO_HASH`, which stands for a predecessor where there is none. -/
def zeroHash : Bytes := List.replicate recordHashLength 0

/-- Fields excluded from the signing input, because they carry the signatures themselves. -/
def signatureFields : List String := ["sig", "coSig"]

/-- What a function of the source may throw. -/
inductive Thrown where
  | cborError (e : CborError)
  | convergeError (text : String)
  | storeError (text : String)
  | recordError (message : String)
  | error (text : String)
  deriving DecidableEq, Repr

/-- A body behind the prefix that separates its domain. -/
def withDomain (domain : String) (body : Bytes) (extra : Bytes) : Bytes :=
  utf8Encode domain ++ [0x00] ++ extra ++ body

/-- Whether a key of the record is left out of what is signed. -/
def isSignatureField : Key → Bool
  | .text s => signatureFields.contains s
  | .bytes _ => false

/-- The record map without its signature fields. -/
def core (record : CborMap) : CborMap := record.filter fun e => ¬ isSignatureField e.1

/-- What a record without a suite in one byte throws. -/
def badSuite : Thrown :=
  .error "signingInput: a record needs an integer `suite` in 0..255 (CRYPTO-AGILITY 4.3)"

/-- The exact bytes an Ed25519 signature is made over. -/
def signingInput (record : CborMap) : Except Thrown Bytes :=
  match CborMap.get? record "suite" with
  | some (.number suite) =>
    if suite > 255 then .error badSuite
    else
      match encode (.map (core record)) with
      | .ok body => .ok (withDomain recordSigningPrefix body [UInt8.ofNat suite])
      | .error e => .error (.cborError e)
  | _ => .error badSuite

/-- The record hash, over the bytes as they arrived. -/
def recordHashFromBytes (C : Crypto) (recordBytes : Bytes) : Bytes :=
  C.blake2b (withDomain recordHashPrefix recordBytes [])

/-- Whether a hash names no predecessor. -/
def isZeroHash (hash : Bytes) : Bool := hash = zeroHash

end VayuWeb
