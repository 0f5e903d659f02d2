import VayuWeb.Spec.Domain
import VayuWeb.Spec.Names
import Mathlib.Data.Int.Notation

/-!
# Argon2id proof of work (`registry/src/pow.ts`)
-/

namespace VayuWeb

open Bytes

/-- `POW_ALGORITHM`. -/
def powAlgorithm : String := "argon2id-v19-m65536-t2-p1"

/-- `POW_NONCE_LENGTH`. -/
def powNonceLength : ℕ := 16

/-- `POW_SALT_PREFIX`. -/
def powSaltPrefix : String := "vayuweb-pow-v1"

/-- `POW_SALT_LENGTH`. -/
def powSaltLength : ℕ := 16

/-- `MAX_DIFFICULTY_BITS`. -/
def maxDifficultyBits : ℕ := 20

/-- `EPOCH_SECONDS`. -/
def epochSeconds : ℤ := 3600

/-- `RATE_WINDOW_SECONDS`. -/
def rateWindowSeconds : ℤ := 2592000

/-- `RATE_FLOOR`. -/
def rateFloor : ℕ := 512

/-- Base difficulty by label length. -/
def baseBits (labelLength : ℕ) : ℕ :=
  if labelLength ≤ 2 then 10
  else if labelLength = 3 then 9
  else if labelLength = 4 then 8
  else if labelLength ≤ 6 then 7
  else if labelLength ≤ 9 then 6
  else if labelLength ≤ 15 then 5
  else 4

/-- Every doubling of the window's volume above the floor adds a bit. -/
def requiredBits (labelLength windowCount : ℕ) : ℕ :=
  let base := baseBits labelLength
  let rate := if windowCount < rateFloor then 0 else min 8 (Nat.log2 (windowCount / rateFloor))
  min maxDifficultyBits (base + rate)

/-- The half-open trailing window, start and end, whose registrations feed the rate term. -/
def rateWindow (notBefore : ℤ) : ℤ × ℤ :=
  let epoch := notBefore / epochSeconds
  let end_ := epoch * epochSeconds
  (end_ - rateWindowSeconds, end_)

/-- The record without `sig` and without `powProof.nonce`. -/
def powSaltPreimage (record : CborMap) : Except CborError Bytes := do
  let stripped := CborMap.delete record "sig"
  let stripped :=
    match CborMap.get? stripped "powProof" with
    | some (.map proof) => CborMap.set stripped (.text "powProof") (.map (CborMap.delete proof "nonce"))
    | _ => stripped
  let body ← encode (.map stripped)
  return utf8Encode powSaltPrefix ++ body

/-- The salt of a record's proof, which binds the proof to the record. -/
def powSalt (C : Crypto) (record : CborMap) : Except CborError Bytes := do
  let preimage ← powSaltPreimage record
  return (C.sha256 preimage).take powSaltLength

/-- The tag of a nonce under a salt. -/
def powTag (C : Crypto) (nonce salt : Bytes) : Bytes := C.argon2id nonce salt

/-- The loop of `tagSatisfies`, whose counter keeps `wrap` of a sum: leading zero bits over the whole tag, most
significant bit first. -/
def leadingBits (wrap : ℕ → ℕ) (tag : Bytes) : ℕ :=
  let examine (s : ℕ × ℕ) (byte : UInt8) : ℕ × ℕ :=
    [7, 6, 5, 4, 3, 2, 1, 0].foldl (fun (leading, stillZero) shift =>
      let isZero := if byte.toNat / 2 ^ shift % 2 = 0 then 1 else 0
      let stillZero := stillZero * isZero
      (wrap (leading + stillZero), stillZero)) s
  (tag.foldl examine (0, 1)).1

/-- The tag has so many leading zero bits. -/
def tagSatisfies (tag : Bytes) (bits : ℕ) : Bool := decide (leadingBits id tag ≥ bits)

/-- Why a proof is refused. -/
inductive PowRejection where
  | powBadAlgorithm | powBadNonce | powInsufficientDifficulty | powTagFails
  deriving DecidableEq, Repr

/-- Why a record's proof fails the difficulty the verifier computed, or nothing. -/
def verifyPow (C : Crypto) (record : CborMap) (requiredBitsForRecord : ℕ) :
    Except CborError (Option PowRejection) :=
  match CborMap.get? record "powProof" with
  | some (.map proof) =>
    match CborMap.get? proof "alg" with
    | some (.text alg) =>
      if alg ≠ powAlgorithm then .ok (some .powBadAlgorithm)
      else
        match CborMap.get? proof "nonce" with
        | some (.bytes nonce) =>
          if nonce.length ≠ powNonceLength then .ok (some .powBadNonce)
          else
            match CborMap.get? proof "bits" with
            | some (.number claimed) =>
              -- what is claimed is compared first, so a low claim costs no memory-hard hash
              if claimed < requiredBitsForRecord then .ok (some .powInsufficientDifficulty)
              else do
                let salt ← powSalt C record
                let tag := powTag C nonce salt
                if tagSatisfies tag claimed then return none else return some .powTagFails
            | _ => .ok (some .powInsufficientDifficulty)
        | _ => .ok (some .powBadNonce)
    | _ => .ok (some .powBadAlgorithm)
  | _ => .ok (some .powBadAlgorithm)

end VayuWeb
