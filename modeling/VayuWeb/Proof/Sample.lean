import VayuWeb.Proof.Store
import VayuWeb.Spec.Replicate
import Mathlib.Data.List.TakeDrop

/-!
# Sample records

Records of one name with real signatures, digests and proofs of work, and the `Crypto` that
knows them: on the inputs these records give rise to it answers as the real primitives do,
and it answers everything else with a refusal or with zeros.
-/

namespace VayuWeb.Sample

open Bytes
open DetCbor (Key Value)

/-- The `k` low bytes of `n`, most significant byte first, before `bytes`. -/
def literalBefore : ℕ → ℕ → Bytes → Bytes
  | 0, _, bytes => bytes
  | k + 1, n, bytes => literalBefore k (n / 256) (UInt8.ofNat n :: bytes)

/-- A byte string of `k` bytes, written as a number. -/
def literal (k n : ℕ) : Bytes := literalBefore k n []

/-! ## Records -/

/-- What tells one sample record from another. -/
structure SampleRecord where
  op : Operation
  owner : Bytes
  seq : ℕ
  notBefore : ℕ
  notAfter : ℕ
  /-- The nonce of its proof of work, or nothing for a null one. -/
  nonce : Option Bytes
  prevHash : Bytes
  sig : Bytes
  /-- It carries `coSig: null`. -/
  coSigNull : Bool
  /-- The recipient's signature, on a TRANSFER. -/
  coSig : Option Bytes := none
  /-- Who signs it. -/
  signer : Bytes := owner

/-- A text under a text key. -/
def textField (key value : String) : Key × Value := (.text key, .text value)

/-- An unsigned integer under a text key. -/
def uintField (key : String) (value : ℕ) : Key × Value := (.text key, .uint value)

/-- A byte string under a text key. -/
def bytesField (key : String) (value : Bytes) : Key × Value := (.text key, .bytes value)

/-- A proof of four bits, or `null`. -/
def powField : Option Bytes → Key × Value
  | none => (.text "powProof", .null)
  | some nonce => (.text "powProof", .map [textField "alg" "argon2id-v19-m65536-t2-p1",
      uintField "bits" 4, bytesField "nonce" nonce])

/-- The map a sample record is on the wire. -/
def SampleRecord.fields (s : SampleRecord) : List (Key × Value) :=
  [textField "op" s.op.name, uintField "seq" s.seq, bytesField "sig" s.sig, textField "tld" "abacus",
    textField "name" "observatory-lantern"] ++
  (if s.coSigNull then [(.text "coSig", .null)] else (s.coSig.map (bytesField "coSig")).toList) ++
  [uintField "suite" 1, (.text "records", .array []), uintField "version" 1,
    uintField "notAfter" s.notAfter, bytesField "ownerKey" s.owner, powField s.nonce,
    bytesField "prevHash" s.prevHash, uintField "notBefore" s.notBefore]

/-- The encoding of a sample record. -/
def SampleRecord.bytes (s : SampleRecord) : Bytes := (Value.map s.fields).encode

/-- The record it is read as. -/
def SampleRecord.record (s : SampleRecord) : RegistryRecord :=
  { version := 1, suite := 1, op := s.op, name := "observatory-lantern", tld := "abacus",
    ownerKey := s.owner, seq := s.seq, notBefore := s.notBefore, notAfter := s.notAfter, entries := [],
    powProof := s.nonce.map fun nonce => { alg := "argon2id-v19-m65536-t2-p1", nonce := nonce, bits := 4 },
    prevHash := s.prevHash, sig := s.sig, coSig := s.coSig,
    map := s.fields.map fun e => (e.1, ofWire e.2) }

/-- What its signature is made over. -/
def SampleRecord.message (s : SampleRecord) : Bytes :=
  withDomain recordSigningPrefix
    (Value.map (s.fields.filter fun e => ¬ isSignatureField e.1)).encode [1]

/-- What its salt is the digest of. -/
def SampleRecord.saltPreimage (s : SampleRecord) : Bytes :=
  let unsalted := s.fields.filterMap fun e =>
    match e with
    | (.text "sig", _) => none
    | (.text "powProof", .map proof) =>
      some (.text "powProof", .map (proof.filter fun e => e.1 ≠ .text "nonce"))
    | e => some e
  utf8Encode powSaltPrefix ++ (Value.map unsalted).encode

/-- A public key. -/
def ownerA : Bytes := literal 32 0x8a88e3dd7409f195fd52db2d3cba5d72ca6709bf1d94121bf3748801b40f6f5c

/-- A second one. -/
def ownerB : Bytes := literal 32 0x6e7a1cdd29b0b78fd13af4c5598feff4ef2a97166e3ca6f2e4fbfccd80505bf1

/-- A third one. -/
def ownerC : Bytes := literal 32 0x8139770ea87d175f56a35466c34c7ecccb8d8a91b4ee37a25df60f5b8fc9b394

/-- A registration. -/
def first : SampleRecord :=
  { op := .register, owner := ownerA, seq := 0, notBefore := 1699913600, notAfter := 1731449600,
    nonce := some (literal 16 0x0000000000000000000000000000000a),
    prevHash := zeroHash,
    sig :=
      literal 32 0x84d28e36fe9c7b689434b24d168797e1ec6d62052b364a0e6f7ed031a6cf43c0 ++
        literal 32 0xbef3ccb37f38efd67a5aa9d015131c84483ace34df7ef3f7d1eb9e1b74e12b04,
    coSigNull := false }

/-- A registration of the same name a day later, by another owner, with a smaller hash. -/
def rival : SampleRecord :=
  { op := .register, owner := ownerC, seq := 0, notBefore := 1700000000, notAfter := 1731536000,
    nonce := some (literal 16 0x00000000000000000000000000000019),
    prevHash := zeroHash,
    sig :=
      literal 32 0xef1f36c729ce895b15aea3c2e6367638eb395d9f92848ea62edd7134e9ec4739 ++
        literal 32 0x36d5329dd3c07c9583112845c83afebe483d46b7883a02cc80fa473e6e29e800,
    coSigNull := false }

/-- A third registration, 300 seconds later still, with the smallest hash. -/
def late : SampleRecord :=
  { op := .register, owner := ownerB, seq := 0, notBefore := 1700000300, notAfter := 1731536300,
    nonce := some (literal 16 0x0000000000000000000000000000000d),
    prevHash := zeroHash,
    sig :=
      literal 32 0xdac24fb5a0f64caf211874cc736077f40cfcd51b0b3e829afb70af5f96db9331 ++
        literal 32 0x3743df2b473762f9e0ff4a15dca9eef23383df48c9fbeafb626413a0eca18605,
    coSigNull := false }

/-- The first owner's registration of the name once it is released. -/
def again : SampleRecord :=
  { op := .register, owner := ownerA, seq := 0, notBefore := 1736633600, notAfter := 1768169600,
    nonce := some (literal 16 0x0000000000000000000000000000000b),
    prevHash := zeroHash,
    sig :=
      literal 32 0xbd378fbd906f8b9e55cd9448a8fd7d9bf3e77391263ab7efa628a4157309aead ++
        literal 32 0xcd5f53feb6ac6c7fbdadf82cfc519fa04263fde801b548421baedea048d68802,
    coSigNull := false }

/-- The first owner's UPDATE of `first`. -/
def update : SampleRecord :=
  { op := .update, owner := ownerA, seq := 1, notBefore := 1699913900, notAfter := 1731449600,
    nonce := none,
    prevHash := literal 32 0x8a284924ea22b1c9a66450d805961323cbfc18c9bdb71cfe952fd2fc01223e8d,
    sig :=
      literal 32 0xb1bc1eefe56c5ab8723b75ee2afd7eae26375f86e132d37626bdb77ce92ce1e0 ++
        literal 32 0xc2bceb7a55d03f44c204c952dea9c319b5adbe6c528517d135515099bbcad506,
    coSigNull := false }

/-- The first owner's REVOKE of `first`, at the same `seq`. -/
def revoke : SampleRecord :=
  { op := .revoke, owner := ownerA, seq := 1, notBefore := 1699913900, notAfter := 1731449600,
    nonce := none,
    prevHash := literal 32 0x8a284924ea22b1c9a66450d805961323cbfc18c9bdb71cfe952fd2fc01223e8d,
    sig :=
      literal 32 0xda8432c3cda1405f6446d43e3b11bef00fc67286006278113c1df0e8c4727f41 ++
        literal 32 0x656c07c4f0c9e9725b80fca14c1847a4f1b764b28961ed40fec8064df31f680e,
    coSigNull := false }

/-- The first owner's RELINQUISH of `first`, at the same `seq`. -/
def relinquish : SampleRecord :=
  { op := .relinquish, owner := ownerA, seq := 1, notBefore := 1699913900, notAfter := 1699913900,
    nonce := none,
    prevHash := literal 32 0x8a284924ea22b1c9a66450d805961323cbfc18c9bdb71cfe952fd2fc01223e8d,
    sig :=
      literal 32 0xe5b10c0091dd66230bd8187f7af3b060b300a0de04dba21eb9a83bb6ceffdb80 ++
        literal 32 0x5b94fe211ae1629a26a2756236e9bf355299abe62db7370b285f0fb061c6f206,
    coSigNull := false }

/-- A RENEW of `relinquish`, 300 seconds later. -/
def renew : SampleRecord :=
  { op := .renew, owner := ownerA, seq := 2, notBefore := 1699914200, notAfter := 1731450200,
    nonce := some (literal 16 0x00000000000000000000000000000000),
    prevHash := literal 32 0x72f98275e0aea945f571ecd834a80bec9656e8dffe65f6aa2a4a755e1cdb0b03,
    sig :=
      literal 32 0x225b06e3a311131831156ed32a591c87f70298a1e4f4d08d7e8804459621adbf ++
        literal 32 0x8012f9608b283d3cd454426c8b856f4acd58ebef9477108e3ee1d1b70d15c403,
    coSigNull := false }

/-- The first owner hands the name over to the owner of `late`. -/
def transfer : SampleRecord :=
  { op := .transfer, owner := ownerB, seq := 1, notBefore := 1699913900, notAfter := 1731449600,
    nonce := none,
    prevHash := literal 32 0x8a284924ea22b1c9a66450d805961323cbfc18c9bdb71cfe952fd2fc01223e8d,
    sig :=
      literal 32 0x898265e92f4d3319b44390413fd54892dd93717a67cca153bb6acfcddc77941e ++
        literal 32 0x01483b937a4cd1b0dcf0970bd315a22c423814f5279f128a533188a2d03bb904,
    coSigNull := false
    coSig :=
      some (literal 32 0x86006288b78056b5d589ff9bf56ff2a98fa09fa08a71d6aba412f51d7b9b36f3 ++
        literal 32 0x100f0d8adb9a5ce99119f2f050e82b4115fc0cd3c939e185879442ca86a92806)
    signer := ownerA }

/-- The first owner's RELINQUISH of `first`, signed in its last second for 300 seconds later. -/
def relinquishLate : SampleRecord :=
  { op := .relinquish, owner := ownerA, seq := 1, notBefore := 1731449899, notAfter := 1731449899,
    nonce := none,
    prevHash := literal 32 0x8a284924ea22b1c9a66450d805961323cbfc18c9bdb71cfe952fd2fc01223e8d,
    sig :=
      literal 32 0x845f297f5321f626d3032bec9484b4cf3909f6130592658ac4b177c177ac2250 ++
        literal 32 0xcc97efad7de6f41c8aa1ee7f524bf136b60cf10659718e636886c1b316630f02,
    coSigNull := false }

/-- `update` with `coSig: null` added, which no signature covers. -/
def updateNull : SampleRecord := { update with coSigNull := true }

/-! ## The primitives on these records -/

/-- The value a table has, or nothing. -/
def find {α : Type} [DecidableEq α] (table : List (α × Bytes)) (a : α) : Bytes :=
  ((table.find? fun e => e.1 = a).map Prod.snd).getD []

/-- The sample records. -/
def signed : List SampleRecord :=
  [first, rival, late, again, update, revoke, relinquish, renew, transfer, relinquishLate]

/-- BLAKE2b-256 of the domain-separated bytes. -/
def digests : List (Bytes × Bytes) :=
  [(withDomain recordHashPrefix first.bytes [],
    literal 32 0x8a284924ea22b1c9a66450d805961323cbfc18c9bdb71cfe952fd2fc01223e8d),
   (withDomain recordHashPrefix rival.bytes [],
    literal 32 0x444d4da527c8ff977a7f6f34f6bcd22ba643426262f102ca538329c6cc530d0c),
   (withDomain recordHashPrefix late.bytes [],
    literal 32 0x326c0b18c9f8236b44eff898d3106ac95e07c2736bc52dfc8ab91ea203c3a372),
   (withDomain recordHashPrefix again.bytes [],
    literal 32 0x93b27df433acc08031281cbdbf30d4075c9d5891aaf6bff47c7c3408719c42c8),
   (withDomain recordHashPrefix update.bytes [],
    literal 32 0x63c7ff0ed5645676ebaa537a5f91e4121403c030d5097a5bfe8455f25d1921a5),
   (withDomain recordHashPrefix updateNull.bytes [],
    literal 32 0x550904f529d7e03d53df98e8a68584b6dbfbb7a5c16cac384d36115f9a5c25b3),
   (withDomain recordHashPrefix revoke.bytes [],
    literal 32 0x0ff8aeb23bd1a39b1bdda5a20eac2d4c0515f5d3d572f25f22088093c396542a),
   (withDomain recordHashPrefix relinquish.bytes [],
    literal 32 0x72f98275e0aea945f571ecd834a80bec9656e8dffe65f6aa2a4a755e1cdb0b03),
   (withDomain recordHashPrefix renew.bytes [],
    literal 32 0x73cf7dffbfd0f37d82f382da9f1ce07725732f36ab95f675c7b76ef552fd4eb3),
   (withDomain recordHashPrefix transfer.bytes [],
    literal 32 0xf4960f1404fedec0102d7bf68e7b7cd8acebf9c973e41bedc96bc9f3b9073808),
   (withDomain recordHashPrefix relinquishLate.bytes [],
    literal 32 0x0b871f79ae3954334e4c57d5a3ebf72493ce14df6cdb5aa46cfa6a911e21c8bd)]

/-- SHA-256 of the salt preimages. -/
def saltDigests : List (Bytes × Bytes) :=
  [(first.saltPreimage,
    literal 32 0x00aea6505faedcaafacabcb71dec80e933a4a692634d2727d6c00c91bab97b2a),
   (rival.saltPreimage,
    literal 32 0xbde34e4293cf972c183102ec2dca92f14066ec1b7ffd27a87ac3a4db35d7698c),
   (late.saltPreimage,
    literal 32 0x02255fa8379fcfbf0f737f58b4150ea2bc3a1c689758a483dec0ff48034e4f17),
   (again.saltPreimage,
    literal 32 0x4d3d71952ec2d6144f283bf8450ac657819aef35cd93dcaadfddb6df0ed939be)]

/-- Argon2id of nonce and salt. -/
def tags : List (Bytes × Bytes) :=
  [(literal 16 0x0000000000000000000000000000000a ++ literal 16 0x00aea6505faedcaafacabcb71dec80e9,
    literal 32 0x0b0a80d8e7890afa56126265adca405392b15fa63e16e74c4a45a9d29b0145a8),
   (literal 16 0x00000000000000000000000000000019 ++ literal 16 0xbde34e4293cf972c183102ec2dca92f1,
    literal 32 0x0d769dc1a3185830eff06acb3d628f1bb5fae325745d2dfca2cb2453e7e8a4b7),
   (literal 16 0x0000000000000000000000000000000d ++ literal 16 0x02255fa8379fcfbf0f737f58b4150ea2,
    literal 32 0x062c206b52deb8812797bcdbbea441a9c370f53025ecd393e6e3b63c41be3049),
   (literal 16 0x0000000000000000000000000000000b ++ literal 16 0x4d3d71952ec2d6144f283bf8450ac657,
    literal 32 0x0fbb899ebb2351ad3ed1f1f9410a9343f38a3ffa5a0c34d73a129428c7106fa1)]

/-- The primitives, on the inputs the sample records give rise to. -/
def crypto : Crypto :=
  { ed25519Verify := fun signature message publicKey => signed.any fun s =>
      (s.sig = signature && s.signer = publicKey || s.coSig = some signature && s.owner = publicKey) &&
        s.message = message
    blake2b := fun b => (find digests b).takeD 32 0
    sha256 := find saltDigests
    argon2id := fun nonce salt => find tags (nonce ++ salt)
    length_blake2b := fun _ => List.takeD_length _ _ _ }

/-! ## Appends of these records -/

/-- The store with a sample record entered. -/
def enter (s : Store) (sample : SampleRecord) : Store := s.extend crypto sample.bytes sample.record

/-- A sample record that comes to a store at some clock, and what it displaces there. -/
structure Arrival where
  store : Store
  sample : SampleRecord
  now : ℕ
  voided : Option (List Bytes)

/-- The store of an arrival accepts its record and is left as it says. -/
abbrev Arrival.Accepted (a : Arrival) : Prop :=
  a.store.append crypto a.sample.bytes a.now =
    .ok (.accept a.sample.record a.voided false, enter a.store a.sample)

/-- What becomes of each sample record: `rival` displaces `first`; the owner of `first` updates it,
hands it over and gives it up; once the name is released its first owner registers it again. -/
def arrivals : { as : List Arrival // ∀ a ∈ as, a.Accepted } :=
  ⟨[⟨.empty, first, 1700000000, none⟩, ⟨.empty, late, 1700000000, none⟩,
    ⟨enter .empty first, rival, 1700000000, some [first.bytes]⟩,
    ⟨enter .empty first, update, 1700000000, none⟩, ⟨enter .empty first, updateNull, 1700000000, none⟩,
    ⟨enter .empty first, again, 1736633600, none⟩, ⟨enter .empty first, transfer, 1700000000, none⟩,
    ⟨enter .empty first, relinquishLate, 1731449599, none⟩], by
      -- one after the other, as all of them at once take the kernel a gigabyte
      iterate 8 refine List.forall_mem_cons.2 ⟨by decide +kernel, ?_⟩
      exact fun a h => absurd h List.not_mem_nil⟩

theorem append_first : Store.append crypto .empty first.bytes 1700000000 =
    .ok (.accept first.record none false, enter .empty first) :=
  arrivals.2 ⟨.empty, first, 1700000000, none⟩ (by simp [arrivals])

theorem append_late : Store.append crypto .empty late.bytes 1700000000 =
    .ok (.accept late.record none false, enter .empty late) :=
  arrivals.2 ⟨.empty, late, 1700000000, none⟩ (by simp [arrivals])

theorem append_rival : Store.append crypto (enter .empty first) rival.bytes 1700000000 =
    .ok (.accept rival.record (some [first.bytes]) false, enter (enter .empty first) rival) :=
  arrivals.2 ⟨enter .empty first, rival, 1700000000, some [first.bytes]⟩ (by simp [arrivals])

theorem append_update : Store.append crypto (enter .empty first) update.bytes 1700000000 =
    .ok (.accept update.record none false, enter (enter .empty first) update) :=
  arrivals.2 ⟨enter .empty first, update, 1700000000, none⟩ (by simp [arrivals])

theorem append_updateNull : Store.append crypto (enter .empty first) updateNull.bytes 1700000000 =
    .ok (.accept updateNull.record none false, enter (enter .empty first) updateNull) :=
  arrivals.2 ⟨enter .empty first, updateNull, 1700000000, none⟩ (by simp [arrivals])

theorem append_again : Store.append crypto (enter .empty first) again.bytes 1736633600 =
    .ok (.accept again.record none false, enter (enter .empty first) again) :=
  arrivals.2 ⟨enter .empty first, again, 1736633600, none⟩ (by simp [arrivals])

theorem append_transfer : Store.append crypto (enter .empty first) transfer.bytes 1700000000 =
    .ok (.accept transfer.record none false, enter (enter .empty first) transfer) :=
  arrivals.2 ⟨enter .empty first, transfer, 1700000000, none⟩ (by simp [arrivals])

theorem append_relinquishLate :
    Store.append crypto (enter .empty first) relinquishLate.bytes 1731449599 =
      .ok (.accept relinquishLate.record none false, enter (enter .empty first) relinquishLate) :=
  arrivals.2 ⟨enter .empty first, relinquishLate, 1731449599, none⟩ (by simp [arrivals])

theorem first_ok : OrdinaryOK crypto .empty first.bytes 1700000000 first.record :=
  ordinary_of_append append_first

theorem late_ok : OrdinaryOK crypto .empty late.bytes 1700000000 late.record :=
  ordinary_of_append append_late

theorem update_ok : OrdinaryOK crypto (enter .empty first) update.bytes 1700000000 update.record :=
  ordinary_of_append append_update

theorem updateNull_ok :
    OrdinaryOK crypto (enter .empty first) updateNull.bytes 1700000000 updateNull.record :=
  ordinary_of_append append_updateNull

theorem again_ok : OrdinaryOK crypto (enter .empty first) again.bytes 1736633600 again.record :=
  ordinary_of_append append_again

theorem rival_ok : ∃ held root,
    MergeOK crypto (enter .empty first) rival.bytes 1700000000 rival.record held root :=
  merge_of_append append_rival

/-- The record hash covers `coSig`. -/
theorem hash_update_ne :
    recordHashFromBytes crypto update.bytes ≠ recordHashFromBytes crypto updateNull.bytes := by
  decide +kernel

theorem hash_late_lt :
    recordHashFromBytes crypto late.bytes < recordHashFromBytes crypto first.bytes := by
  decide +kernel

end VayuWeb.Sample
