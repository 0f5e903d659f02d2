import VayuWeb.Client.Domain
import VayuWeb.Spec.Pow

/-!
# Argon2id proof of work in the client (`client/src/pow.rs`)
-/

namespace VayuWeb.Client

open Bytes
open DetCbor (Key Value)

/-- `POW_ALGORITHM`. -/
def powAlgorithm : String := "argon2id-v19-m65536-t2-p1"

/-- `POW_NONCE_LENGTH`. -/
def powNonceLength : ℕ := 16

/-- `POW_SALT_PREFIX`. -/
def powSaltPrefix : String := "vayuweb-pow-v1"

/-- `POW_SALT_LENGTH`. -/
def powSaltLength : ℕ := 16

/-- `MAX_DIFFICULTY_BITS`. -/
def maxDifficultyBits : ℕ := 20

/-- `RATE_FLOOR`. -/
def rateFloor : ℕ := 512

/-- The bits a label costs by its length. -/
def baseBits (labelLength : ℕ) : ℕ :=
  if labelLength ≤ 2 then 10
  else if labelLength = 3 then 9
  else if labelLength = 4 then 8
  else if labelLength ≤ 6 then 7
  else if labelLength ≤ 9 then 6
  else if labelLength ≤ 15 then 5
  else 4

/-- The bits a registration costs: its length and the rate of its TLD, up to the most there is. -/
def requiredBits (labelLength windowCount : ℕ) : ℕ :=
  let base := baseBits labelLength
  let rate := if windowCount < rateFloor then 0 else min (Nat.log2 (windowCount / rateFloor)) 8
  min (base + rate) maxDifficultyBits

/-- The entries of `powProof` without the nonce. -/
def withoutNonce : Members → Except CborError Members
  | [] => .ok []
  | (.bytes _, _) :: _ => .error .badMapKey
  | (.text name, value) :: proof => do
    let stripped ← withoutNonce proof
    if name = "nonce" then return stripped else return (.text name, value) :: stripped

/-- The entries of a record without `sig` and without `powProof.nonce`. -/
def stripped : Members → Except CborError Members
  | [] => .ok []
  | (.bytes _, _) :: _ => .error .badMapKey
  | (.text name, value) :: record =>
    if name = "sig" then stripped record
    else if name = "powProof" then
      match value with
      | .map proof => do
        let proof ← withoutNonce proof
        let rest ← stripped record
        return (.text name, .map proof) :: rest
      | _ => .error .badMapKey
    else do
      let rest ← stripped record
      return (.text name, value) :: rest

/-- What the salt of a record's proof is hashed from. -/
def powSaltPreimage (record : Members) : Except CborError Bytes := do
  let record ← stripped record
  let body ← encode (.map record)
  return utf8Encode powSaltPrefix ++ body

section Work

variable (C : Crypto)

/-- The salt of a record's proof, which binds the proof to the record. -/
def powSalt (record : Members) : Except CborError Bytes := do
  let preimage ← powSaltPreimage record
  return (C.sha256 preimage).take powSaltLength

/-- The tag of a nonce under a salt. -/
def powTag (nonce salt : Bytes) : Bytes := C.argon2id nonce salt

/-- Leading zero bits over the whole tag; the loop is the registry's. -/
def tagSatisfies (tag : Bytes) (bits : ℕ) : Bool := VayuWeb.tagSatisfies tag bits

/-- `tag_satisfies` of a slice of any length, with its 32-bit counter. -/
def tagSatisfiesU32 (tag : Bytes) (bits : ℕ) : Bool := decide (leadingBits (· % 2 ^ 32) tag ≥ bits)

/-- `increment_nonce` on the bytes from the last one on. -/
def incrementFrom : Bytes → Bytes
  | [] => []
  | byte :: rest => if byte = 0xff then 0 :: incrementFrom rest else (byte + 1) :: rest

/-- Big-endian increment. -/
def incrementNonce (nonce : Bytes) : Bytes := (incrementFrom nonce.reverse).reverse

/-- Why no proof was found. -/
inductive SolveError where
  | encode (error : CborError)
  | salt (error : CborError)
  | exhausted
  deriving DecidableEq, Repr

/-- The loop of `solve`, for at most `limit` evaluations after `nonce`. -/
def search (salt : Bytes) (bits : ℕ) : ℕ → Bytes → Except SolveError Bytes
  | 0, _ => .error .exhausted
  | limit + 1, nonce =>
    let nonce := incrementNonce nonce
    if tagSatisfies (powTag C nonce salt) bits then .ok nonce else search salt bits limit nonce

/-- A nonce that satisfies `bits`. -/
def solve (record : Members) (bits limit : ℕ) : Except SolveError Bytes :=
  match powSalt C record with
  | .error error => .error (.salt error)
  | .ok salt => search C salt bits limit (List.replicate powNonceLength 0)

end Work

end VayuWeb.Client
