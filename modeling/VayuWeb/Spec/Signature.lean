import VayuWeb.Base.Bytes

/-!
# Primitives and strict signatures (`registry/src/signature.ts`)

The cryptographic libraries are parameters: `Crypto` collects the functions that one implementation
calls, each with the length its documentation fixes. The hashes have one meaning whoever calls them.
The Ed25519 libraries differ, so an implementation that is compared with another has its own
(`Crypto.withEd25519`).
-/

namespace VayuWeb

open Bytes

/-- The third-party primitives, as one implementation calls them. -/
structure Crypto where
  /-- The Ed25519 library on a signature, a message and a key: in the registry
  `ed25519.verify(signature, message, publicKey, { zip215: false })`, false when it throws; in the
  client `verify_strict`. -/
  ed25519Verify : Bytes → Bytes → Bytes → Bool
  /-- `blake2b(_, { dkLen: 32 })`. -/
  blake2b : Bytes → Bytes
  sha256 : Bytes → Bytes
  /-- `argon2id(password, salt)` at the protocol's fixed parameters. -/
  argon2id : Bytes → Bytes → Bytes
  length_blake2b : ∀ b, (blake2b b).length = 32

/-- The same hashes with another Ed25519 library. -/
def Crypto.withEd25519 (C : Crypto) (verify : Bytes → Bytes → Bytes → Bool) : Crypto :=
  { C with ed25519Verify := verify }

/-- `PUBLIC_KEY_LENGTH`. -/
def publicKeyLength : ℕ := 32

/-- `SIGNATURE_LENGTH`. -/
def signatureLength : ℕ := 64

/-- Encodings of the points of order 1, 2, 4 or 8, spelled in hexadecimal in the source. -/
def smallOrderEncodings : List Bytes :=
  [beBytes 32 0x0000000000000000000000000000000000000000000000000000000000000000,
   beBytes 32 0x0100000000000000000000000000000000000000000000000000000000000000,
   beBytes 32 0x0000000000000000000000000000000000000000000000000000000000000080,
   beBytes 32 0x0100000000000000000000000000000000000000000000000000000000000080,
   beBytes 32 0xe0eb7a7c3b41b8ae1656e3faf19fc46ada098deb9c32b1fd866205165f49b800,
   beBytes 32 0xe0eb7a7c3b41b8ae1656e3faf19fc46ada098deb9c32b1fd866205165f49b880,
   beBytes 32 0x5f9c95bca3508c24b1d0b1559c83ef5b04445cc4581c8e86d8224eddd09f1157,
   beBytes 32 0x5f9c95bca3508c24b1d0b1559c83ef5b04445cc4581c8e86d8224eddd09f11d7,
   beBytes 32 0xecffffffffffffffffffffffffffffffffffffffffffffffffffffffffffff7f,
   beBytes 32 0xecffffffffffffffffffffffffffffffffffffffffffffffffffffffffffffff,
   beBytes 32 0xedffffffffffffffffffffffffffffffffffffffffffffffffffffffffffff7f,
   beBytes 32 0xedffffffffffffffffffffffffffffffffffffffffffffffffffffffffffffff,
   beBytes 32 0xeeffffffffffffffffffffffffffffffffffffffffffffffffffffffffffff7f,
   beBytes 32 0xeeffffffffffffffffffffffffffffffffffffffffffffffffffffffffffffff]

/-- Whether a key is one of the points that accept signatures nobody made. -/
def isSmallOrderKey (key : Bytes) : Bool :=
  key.length = publicKeyLength && smallOrderEncodings.contains key

/-- Strict verification: false for every failure mode. -/
def verifyStrict (C : Crypto) (publicKey message signature : Bytes) : Bool :=
  if publicKey.length ≠ publicKeyLength then false
  else if signature.length ≠ signatureLength then false
  else if isSmallOrderKey publicKey then false
  else C.ed25519Verify signature message publicKey

end VayuWeb
