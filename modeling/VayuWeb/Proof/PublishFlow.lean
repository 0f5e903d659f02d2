import VayuWeb.Client.PublishFlow
import VayuWeb.Proof.ClientBuild
import VayuWeb.Proof.ClientImport
import VayuWeb.Proof.Pinned
import VayuWeb.Proof.Sample

/-!
# What a publish leaves

* `publishSite_keeps`: whatever becomes of a publish, what could be read can be read.
* `publishSite_record`: the record decodes, and its one entry is the root.
* `published_delivers_iff`: when the tree that a published record points at can be read.
-/

namespace VayuWeb.Client.PublishFlow

open Bytes BlockStore Publish
open Dagnode (Readable items consistent_items)
open Site (bytesOfBlocks)
open DetCbor (Key Value)

section

variable {φ : Type} {C : Crypto} {H : ContentHash} {doctor : Doctor φ} {fate : String → Fate} {disk disk' : Disk}
  {request : PublishRequest C} {published : Published} {blocks : List Block} {root : Cid}

/-! ## The flow -/

/-- Where no duplicate is found no path is repeated. -/
theorem nodup_of_duplicatePath {files : List SiteFile} {seen : List String} (hseen : seen.Nodup)
    (h : duplicatePath seen files = none) : (files.map (·.path)).Nodup ∧ ∀ file ∈ files, file.path ∉ seen := by
  induction files generalizing seen with
  | nil => simp
  | cons file files ih =>
    rw [duplicatePath] at h
    split_ifs at h with hmem
    obtain ⟨hnodup, hfresh⟩ := ih (List.nodup_cons.2 ⟨hmem, hseen⟩) h
    constructor
    · rw [List.map_cons, List.nodup_cons]
      refine ⟨?_, hnodup⟩
      intro hin
      obtain ⟨file', hfile', heq⟩ := List.mem_map.1 hin
      exact hfresh file' hfile' (by rw [heq]; exact List.mem_cons_self)
    · intro file' hfile'
      rcases List.mem_cons.1 hfile' with rfl | hfile'
      · exact hmem
      · exact fun hin => hfresh file' hfile' (List.mem_cons_of_mem _ hin)

/-- **What a publish that succeeds has done.** -/
theorem publishSite_eq_ok (h : publishSite C H doctor fate disk request = (.ok published, disk')) :
    (request.files.map (·.path)).Nodup ∧ ∃ blocks, importSite H request.files = .ok (blocks, published.root) ∧
      putAll H fate disk (items blocks) = (.ok published.newlyPinned, disk') ∧
        signPointer C request [{ value := .cid published.root.toBytes, ttl := none }] = .ok published.record := by
  rw [publishSite] at h
  cases hduplicate : duplicatePath [] request.files with
  | some path => simp [hduplicate] at h
  | none =>
    refine ⟨(nodup_of_duplicatePath List.nodup_nil hduplicate).1, ?_⟩
    simp only [hduplicate] at h
    split_ifs at h with hfindings
    · simp at h
    · rcases himport : importSite H request.files with error | ⟨blocks, root⟩
      · simp [himport] at h
      · simp only [himport] at h
        rcases hput : putAll H fate disk (items blocks) with ⟨error | written, disk₁⟩
        · simp only [show (blocks.map fun block => (block.cid, block.bytes)) = items blocks from rfl, hput] at h
          simp at h
        · simp only [show (blocks.map fun block => (block.cid, block.bytes)) = items blocks from rfl, hput] at h
          rcases hsign : signPointer C request [{ value := .cid root.toBytes, ttl := none }] with error | record
          · simp [hsign] at h
          · simp only [hsign, Prod.mk.injEq, Except.ok.injEq] at h
            obtain ⟨rfl, rfl⟩ := h
            exact ⟨blocks, rfl, hput, hsign⟩

/-- The directory after a publish is as before, or as the pinning leaves it. -/
theorem publishSite_disk : (publishSite C H doctor fate disk request).2 = disk ∨
    ∃ blocks, (publishSite C H doctor fate disk request).2 = (putAll H fate disk (items blocks)).2 := by
  rw [publishSite]
  cases duplicatePath [] request.files with
  | some path => exact Or.inl rfl
  | none =>
    simp only
    split_ifs with hfindings
    · exact Or.inl rfl
    · rcases importSite H request.files with error | ⟨blocks, root⟩
      · exact Or.inl rfl
      · refine Or.inr ⟨blocks, ?_⟩
        simp only [show (blocks.map fun block => (block.cid, block.bytes)) = items blocks from rfl]
        rcases putAll H fate disk (items blocks) with ⟨error | written, disk₁⟩
        · rfl
        · simp only
          cases signPointer C request [{ value := .cid root.toBytes, ttl := none }] with
          | error error => rfl
          | ok record => rfl

/-- **Whatever becomes of a publish**, what could be read can be read. -/
theorem publishSite_keeps {cid : Cid} {bytes : Bytes} (h : get H disk cid = .ok (some bytes)) :
    get H (publishSite C H doctor fate disk request).2 cid = .ok (some bytes) := by
  obtain ⟨hfile, hle, hdigest⟩ := get_eq_ok_some.1 h
  rw [get_eq_ok_some]
  refine ⟨?_, hle, hdigest⟩
  rcases @publishSite_disk φ C H doctor fate disk request with hsame | ⟨blocks, hput⟩
  · rw [hsame]
    exact hfile
  · rw [hput, putAll_keeps cid (by rw [hfile]; rfl)]
    exact hfile

/-! ## The record -/

/-- The types of the source: its numbers have 64 bits and its hash 32 bytes. -/
structure Typed (request : PublishRequest C) : Prop where
  now : request.now < 2 ^ 64
  notAfter : ∀ previous, request.predecessor = some previous → previous.notAfter < 2 ^ 64
  hash : ∀ previous, request.predecessor = some previous → previous.hash.length = 32

/-- The record that bytes hold has one entry, this CID. -/
def PointsAt (record : Bytes) (cid : Cid) : Prop :=
  ∃ members, decode record = .ok (.map members) ∧ field members "records" = some (.array [cidEntry cid.toBytes])

/-- A proof is encoded. -/
theorem encodable_proofValue {n bits : ℕ} {nonce : Bytes} (hbits : bits < 2 ^ 64)
    (hnonce : nonce.length = powNonceLength) :
    Encodable (n + 1) (proofValue bits nonce) := by
  have hlength : nonce.length < 2 ^ 64 := by
    rw [hnonce]
    decide
  have hkeys : ∀ name ∈ ["alg", "bits", "nonce"], (Key.text name).Fits := by
    simp only [Key.Fits]
    decide
  refine encodable_map (by decide : 3 < 2 ^ 64) (by simp) ?_
  intro e he
  simp only [List.mem_cons, List.not_mem_nil, or_false] at he
  rcases he with rfl | rfl | rfl
  · exact ⟨hkeys _ (by decide), encodable_text (by decide)⟩
  · exact ⟨hkeys _ (by decide), encodable_uint hbits⟩
  · exact ⟨hkeys _ (by decide), encodable_bytes hlength⟩

/-- A record that one key signs and whose fields have the widths of the source can be written. -/
theorem encodable_skeleton {n : ℕ} {op label tld : String} {ownerKey prevHash signature : Bytes}
    {seq notBefore notAfter : ℕ} {records : Value} {proof : Option (ℕ × Bytes)} (hop : (utf8Encode op).length < 2 ^ 64)
    (hname : checkName label tld = .ok ()) (howner : ownerKey.length = 32) (hprev : prevHash.length = 32)
    (hsignature : signature.length = 64) (hseq : seq < 2 ^ 64) (hbefore : notBefore < 2 ^ 64)
    (hafter : notAfter < 2 ^ 64)
    (hproof : ∀ bits nonce, proof = some (bits, nonce) → bits < 2 ^ 64 ∧ nonce.length = powNonceLength)
    (hrecords : Encodable (n + 1) records) :
    Encodable (n + 2) (.map (skeleton op label tld ownerKey seq notBefore notAfter records proof prevHash ++
      [(.text "sig", .bytes signature)])) := by
  obtain ⟨hlabel, htld⟩ := length_of_checkName hname
  have hlabel' : (utf8Encode label).length < 2 ^ 64 := Nat.lt_of_le_of_lt hlabel (by decide)
  have htld' : (utf8Encode tld).length < 2 ^ 64 := Nat.lt_of_le_of_lt htld (by decide)
  have hwide : ∀ {b : Bytes} {m : ℕ}, b.length = m → m < 2 ^ 64 → b.length < 2 ^ 64 := fun h hm => h.trans_lt hm
  have hkeys : ∀ name ∈ ["version", "suite", "op", "name", "tld", "ownerKey", "seq", "notBefore", "notAfter", "records",
      "powProof", "prevHash", "sig"], (Key.text name).Fits := by
    simp only [Key.Fits]
    decide
  refine encodable_map (by decide : 13 < 2 ^ 64) (by simp [skeleton]) ?_
  intro e he
  simp only [skeleton, List.cons_append, List.nil_append, List.mem_cons, List.not_mem_nil, or_false] at he
  -- the thirteen members, in the skeleton's order
  rcases he with rfl | rfl | rfl | rfl | rfl | rfl | rfl | rfl | rfl | rfl | rfl | rfl | rfl
  · exact ⟨hkeys _ (by decide), encodable_uint (by decide)⟩
  · exact ⟨hkeys _ (by decide), encodable_uint (by decide)⟩
  · exact ⟨hkeys _ (by decide), encodable_text hop⟩
  · exact ⟨hkeys _ (by decide), encodable_text hlabel'⟩
  · exact ⟨hkeys _ (by decide), encodable_text htld'⟩
  · exact ⟨hkeys _ (by decide), encodable_bytes (hwide howner (by decide))⟩
  · exact ⟨hkeys _ (by decide), encodable_uint hseq⟩
  · exact ⟨hkeys _ (by decide), encodable_uint hbefore⟩
  · exact ⟨hkeys _ (by decide), encodable_uint hafter⟩
  · exact ⟨hkeys _ (by decide), hrecords⟩
  · refine ⟨hkeys _ (by decide), ?_⟩
    cases proof with
    | none => exact encodable_null
    | some proof =>
      obtain ⟨hbits, hnonce⟩ := hproof proof.1 proof.2 rfl
      exact encodable_proofValue hbits hnonce
  · exact ⟨hkeys _ (by decide), encodable_bytes (hwide hprev (by decide))⟩
  · exact ⟨hkeys _ (by decide), encodable_bytes (hwide hsignature (by decide))⟩

/-- The wire form of a CID entry can be written. -/
theorem encodable_cid {n : ℕ} {cid : Bytes} (h : cid.length ≤ 64) :
    Encodable (n + 2) (.array [.map [(.text "type", .text "cid"), (.text "value", .bytes cid),
      (.text "ttl", .uint defaultTtl)]]) := by
  have hkeys : ∀ name ∈ ["type", "value", "ttl"], (Key.text name).Fits := by
    simp only [Key.Fits]
    decide
  refine encodable_array (by decide : 1 < 2 ^ 64) ?_
  intro x hx
  rw [List.mem_singleton] at hx
  rw [hx]
  refine encodable_map (by decide : 3 < 2 ^ 64) (by simp) ?_
  intro e he
  simp only [List.mem_cons, List.not_mem_nil, or_false] at he
  rcases he with rfl | rfl | rfl
  · exact ⟨hkeys _ (by decide), encodable_text (by decide)⟩
  · exact ⟨hkeys _ (by decide), encodable_bytes (Nat.lt_of_le_of_lt h (by decide))⟩
  · exact ⟨hkeys _ (by decide), encodable_uint (by decide)⟩

/-- A record whose entries are this CID and whose fields have the widths of the source points at it. -/
theorem pointsAt_of_encodeMap {op label tld : String} {ownerKey prevHash signature : Bytes}
    {seq notBefore notAfter : ℕ} {records : Value} {proof : Option (ℕ × Bytes)} {record : Bytes}
    (hop : (utf8Encode op).length < 2 ^ 64) (hname : checkName label tld = .ok ()) (howner : ownerKey.length = 32)
    (hprev : prevHash.length = 32) (hsignature : signature.length = 64) (hseq : seq < 2 ^ 64)
    (hbefore : notBefore < 2 ^ 64) (hafter : notAfter < 2 ^ 64)
    (hproof : ∀ bits nonce, proof = some (bits, nonce) → bits < 2 ^ 64 ∧ nonce.length = powNonceLength)
    (hrecords : entriesField [{ value := .cid root.toBytes, ttl := none }] = .ok records)
    (h : encodeMap (skeleton op label tld ownerKey seq notBefore notAfter records proof prevHash ++
      [(.text "sig", .bytes signature)]) = .ok record) : PointsAt record root := by
  obtain ⟨-, hlength, rfl⟩ := entriesField_cid hrecords
  have hvalue := @encodable_skeleton 30 op label tld ownerKey prevHash signature seq notBefore notAfter _ proof hop
    hname
    howner hprev hsignature hseq hbefore hafter hproof (encodable_cid hlength)
  have hdecode := decode_of_encodeMap hvalue h
  rw [DetCbor.sorted_map] at hdecode
  refine ⟨_, hdecode, ?_⟩
  rw [← sorted_cidEntry]
  refine field_sorted (by simp [skeleton]) ?_
  simp [skeleton]

/-- **The record of a publish that succeeds** points at its root. -/
theorem pointsAt_of_signPointer (htyped : Typed request) {record : Bytes}
    (h : signPointer C request [{ value := .cid root.toBytes, ttl := none }] = .ok record) : PointsAt record root := by
  have hadd : ∀ a b : ℕ, add a b < 2 ^ 64 := fun a b => Nat.mod_lt _ (by decide)
  rw [signPointer] at h
  cases hpredecessor : request.predecessor with
  | none =>
    simp only [hpredecessor] at h
    obtain ⟨hname, records, nonce, signature, hrecords, hnonce, hsignature, hencode⟩ := register_members h
    refine pointsAt_of_encodeMap (by decide) hname request.identity.length_publicKey (by decide) hsignature (by decide)
      htyped.now (hadd _ _) ?_ hrecords hencode
    intro bits nonce' heq
    rw [Option.some.injEq, Prod.mk.injEq] at heq
    obtain ⟨rfl, rfl⟩ := heq
    refine ⟨Nat.lt_of_le_of_lt (Nat.min_le_right _ _) (by decide), hnonce⟩
  | some previous =>
    simp only [hpredecessor] at h
    obtain ⟨hname, records, signature, hrecords, hsignature, hencode⟩ := update_members h
    refine pointsAt_of_encodeMap (by decide) hname request.identity.length_publicKey (htyped.hash _ hpredecessor)
      hsignature (hadd _ _) htyped.now (htyped.notAfter _ hpredecessor) ?_ hrecords hencode
    intro bits nonce heq
    cases heq

/-! ## The pinning -/

/-- Every block's file was absent, or was the block. -/
def Clear (disk : Disk) (blocks : List Block) : Prop :=
  ∀ block ∈ blocks, disk block.cid.toText = none ∨
    (disk block.cid.toText = some block.bytes ∧ block.bytes.length ≤ maxBlockBytes)

/-- **What a run of `put_all` leaves can be read** exactly when the directory was clear: a file that
is there is taken for the block. -/
theorem readable_putAll_iff (hinj : Set.InjOn H.sha256 (bytesOfBlocks blocks))
    (haddressed : ∀ block ∈ blocks, Addressed H block) {written : ℕ}
    (hput : putAll H fate disk (items blocks) = (.ok written, disk')) :
    Readable H disk' blocks ↔ Clear disk blocks := by
  have hdisk : disk' = (putAll H fate disk (items blocks)).2 := by rw [hput]
  constructor
  · intro hreadable block hblock
    obtain ⟨hfile, hle, -⟩ := get_eq_ok_some.1 (hreadable block hblock)
    rcases hbefore : disk block.cid.toText with _ | bytes
    · exact Or.inl rfl
    · have hkept := @putAll_keeps H fate disk (items blocks) block.cid (by rw [hbefore]; rfl)
      rw [← hdisk, hfile, hbefore] at hkept
      exact Or.inr ⟨hkept.symm, hle⟩
  · intro hclear block hblock
    rw [get_eq_ok_some]
    rcases hclear block hblock with habsent | ⟨hfile, hle⟩
    · obtain ⟨hfile, hle⟩ := putAll_eq_ok (consistent_items hinj haddressed) hput (List.mem_map_of_mem hblock) habsent
      exact ⟨hfile, hle, (haddressed block hblock).2.symm⟩
    · have hkept := @putAll_keeps H fate disk (items blocks) block.cid (by rw [hfile]; rfl)
      rw [← hdisk, hfile] at hkept
      exact ⟨hkept, hle, (haddressed block hblock).2.symm⟩

/-- A publish delivers: its root is the tree's, its record points there, and the tree can be read. -/
def Delivers (H : ContentHash) (disk : Disk) (published : Published) (blocks : List Block) (root : Cid) : Prop :=
  published.root = root ∧ PointsAt published.record root ∧ Readable H disk blocks

/-- **When a published pointer points at content that can be read**: no file stood under the name of
a block of the tree but the block itself. Whatever becomes of the publish, what could be read can be
read. -/
theorem published_delivers_iff (C : Crypto) (H : ContentHash) (doctor : Doctor φ) (fate : String → Fate) (disk : Disk)
    (request : PublishRequest C) (htyped : Typed request) :
    (∀ published disk', publishSite C H doctor fate disk request = (.ok published, disk') →
        ∃ blocks root, importSite H request.files = .ok (blocks, root) ∧
          (Set.InjOn H.sha256 (bytesOfBlocks blocks) → (Delivers H disk' published blocks root ↔ Clear disk blocks))) ∧
      ∀ cid bytes, get H disk cid = .ok (some bytes) →
        get H (publishSite C H doctor fate disk request).2 cid = .ok (some bytes) := by
  constructor
  · intro published disk' h
    obtain ⟨hpaths, blocks, himport, hput, hsign⟩ := publishSite_eq_ok h
    obtain ⟨tree, himported⟩ := imported_of_importSite himport hpaths
    refine ⟨blocks, published.root, himport, ?_⟩
    intro hinj
    rw [← readable_putAll_iff hinj himported.addressed hput]
    constructor
    · rintro ⟨-, -, hreadable⟩
      exact hreadable
    · intro hreadable
      exact ⟨rfl, pointsAt_of_signPointer htyped hsign, hreadable⟩
  · intro cid bytes h
    exact publishSite_keeps h

/-- A publish whose every stage succeeds. -/
theorem publishSite_of_stages {written : ℕ} {record : Bytes} (hduplicate : duplicatePath [] request.files = none)
    (hfindings : (doctor.check request.files).any doctor.isError = false)
    (himport : importSite H request.files = .ok (blocks, root))
    (hput : putAll H fate disk (items blocks) = (.ok written, disk'))
    (hsign : signPointer C request [{ value := .cid root.toBytes, ttl := none }] = .ok record) :
    ∃ published, publishSite C H doctor fate disk request = (.ok published, disk') ∧ published.root = root ∧
      published.record = record := by
  rw [publishSite]
  have hput' : putAll H fate disk (blocks.map fun block => (block.cid, block.bytes)) = (.ok written, disk') := hput
  simp only [hduplicate, hfindings, himport, hput', hsign]
  exact ⟨_, rfl, rfl, rfl⟩

end

/-! ## A site of one page -/

namespace OnePage

open Sample (literal)

/-- A page. -/
def page : Bytes := utf8Encode "<!doctype html><title>t</title><p>hi</p>"

/-- The digest of the page. -/
def pageDigest : Digest :=
  ⟨literal 32 0x2d2be4067ea0b9f4a77d59f39b227a9c9bd40a5cf081993a29b2a8f6ddd7c1a0, by decide⟩

/-- The digest of the site. -/
def rootDigest : Digest :=
  ⟨literal 32 0x9443857f9bfeb9c2a46247d6470691ef105b99cb0056b3216bb0f4414af81604, by decide⟩

/-- SHA-256 on the two blocks. -/
def hash : ContentHash where
  sha256 bytes := if bytes = page then pageDigest else rootDigest

/-- The directory of the site. -/
def rootBlock : Bytes := encodePbNode [⟨Cid.rawFromBytes hash page, "index.html", 40⟩] Publish.unixfsDirectory

/-- The CID of the site. -/
def rootCid : Cid := (dagPbBlock hash rootBlock).cid

/-- The blocks of the site. -/
def blocks : List Block := [leafOf hash page, dagPbBlock hash rootBlock]

/-- The signature of the update. -/
def signature : Bytes :=
  literal 32 0x63d73f5ac860e29e5d02682e121decaf2b5f9d57d47c1162e8eb24cea92289dc ++
    literal 32 0x885cbdca008080ee4b72600e3a6af9c74bf536f37e031c2fdf00928315076d0e

/-- The registration that the publish follows. -/
def previous : Predecessor :=
  { seq := 0, op := .register, notBefore := 1699913600, notAfter := 1731449600,
    hash := literal 32 0x8a284924ea22b1c9a66450d805961323cbfc18c9bdb71cfe952fd2fc01223e8d, revoked := false,
    entries := [] }

/-- The update that points the name at the site. -/
def members : Members :=
  skeleton "UPDATE" "observatory-lantern" "abacus" Sample.ownerA 1 1699913900 1731449600
    (.array [.map [(.text "type", .text "cid"), (.text "value", .bytes rootCid.toBytes),
      (.text "ttl", .uint defaultTtl)]])
    none previous.hash

/-- What is signed of it. -/
def message : Bytes := ((encodeMap members).map fun core => signingInput core launchSuite).toOption.getD []

/-- The sample primitives, with the one signature on the record. -/
def crypto : Crypto :=
  { Sample.crypto with
    ed25519Verify := fun signature' message' publicKey =>
      signature' = signature && message' = message && publicKey = Sample.ownerA }

theorem length_ownerA : Sample.ownerA.length = 32 := by decide +kernel

/-- A key pair that signs the record. -/
def identity : Identity crypto where
  publicKey := Sample.ownerA
  sign message' := if message' = message then some signature else none
  length_publicKey := length_ownerA
  length_sign := by
    intro message' signature' h
    rw [Option.ite_none_right_eq_some, Option.some.injEq] at h
    rw [← h.2]
    decide +kernel
  sign_verifies := by
    intro message' signature' h
    rw [Option.ite_none_right_eq_some, Option.some.injEq] at h
    rw [h.1, ← h.2]
    decide +kernel

/-- The request that publishes the page. -/
def request : PublishRequest crypto where
  identity := identity
  label := "observatory-lantern"
  tld := "abacus"
  files := [⟨"index.html", page⟩]
  now := 1699913900
  predecessor := some previous
  windowCount := 0
  powLimit := 0

/-- The page has no findings. -/
def doctor : Doctor String where
  check _ := []
  isError _ := true

/-- The encoding of the signed update. -/
def record : Bytes := (encodeMap (members ++ [(.text "sig", .bytes signature)])).toOption.getD []

theorem importSite_request : importSite hash request.files = .ok (blocks, rootCid) := by decide +kernel

theorem signPointer_request :
    signPointer crypto request [{ value := .cid rootCid.toBytes, ttl := none }] = .ok record := by decide +kernel

theorem addressed : ∀ block ∈ blocks, Addressed hash block := by
  obtain ⟨tree, himported⟩ := imported_of_importSite importSite_request (by decide)
  exact himported.addressed

theorem injOn_blocks : Set.InjOn hash.sha256 (bytesOfBlocks blocks) :=
  Site.injOn_blocks (fun block hblock => List.mem_map_of_mem hblock) (by decide +kernel)

theorem typed : Typed request where
  now := by decide
  notAfter previous' h := by
    obtain rfl : previous = previous' := Option.some.inj h
    decide
  hash previous' h := by
    obtain rfl : previous = previous' := Option.some.inj h
    decide +kernel

/-- The publish succeeds whatever the directory holds. -/
theorem publishSite_request (disk : Disk) : ∃ published written disk',
    publishSite crypto hash doctor (fun _ => .done) disk request = (.ok published, disk') ∧
      putAll hash (fun _ => .done) disk (items blocks) = (.ok written, disk') ∧ published.root = rootCid := by
  obtain ⟨written, disk', hput⟩ := @putAll_succeeds hash (fun _ => .done) disk (items blocks) (fun _ => rfl) (by
    decide +kernel)
  obtain ⟨published, h, hroot, -⟩ := @publishSite_of_stages String crypto hash doctor
    (fun _ => .done) disk disk' request
    blocks rootCid written record (by decide) rfl importSite_request hput signPointer_request
  exact ⟨published, written, disk', h, hput, hroot⟩

end OnePage

open OnePage in
/-- Over an empty directory the page's pointer points at what can be read. -/
theorem published_delivers_one_page : ∃ published disk',
    publishSite crypto hash doctor (fun _ => .done) Disk.empty request = (.ok published, disk') ∧
      Delivers hash disk' published blocks rootCid := by
  obtain ⟨published, written, disk', h, -, -⟩ := publishSite_request Disk.empty
  obtain ⟨blocks', root, himport, hdelivers⟩ :=
    (published_delivers_iff crypto hash doctor (fun _ => .done) Disk.empty request typed).1 published disk' h
  rw [importSite_request, Except.ok.injEq, Prod.mk.injEq] at himport
  obtain ⟨rfl, rfl⟩ := himport
  exact ⟨published, disk', h, (hdelivers injOn_blocks).2 fun _ _ => Or.inl rfl⟩

open OnePage in
/-- **An empty file under the name of the page's block** is taken for the block: the publish signs a
pointer at a page that cannot be read. -/
theorem not_delivered_over_empty_file : ∃ published disk',
    publishSite crypto hash doctor (fun _ => .done) (Disk.empty.write (leafOf hash page).cid.toText []) request =
        (.ok published, disk') ∧ importSite hash request.files = .ok (blocks, published.root) ∧
      leafOf hash page ∈ blocks ∧ get hash disk' (leafOf hash page).cid ≠ .ok (some page) := by
  obtain ⟨published, written, disk', h, hput, hroot⟩ :=
    publishSite_request (Disk.empty.write (leafOf hash page).cid.toText [])
  refine ⟨published, disk', h, by rw [hroot, importSite_request], List.mem_cons_self, ?_⟩
  intro hget
  have hkept := @putAll_keeps hash (fun _ => .done) (Disk.empty.write (leafOf hash page).cid.toText []) (items blocks)
    (leafOf hash page).cid (by rw [Disk.write, if_pos rfl]; rfl)
  have hfile : disk' (leafOf hash page).cid.toText = some page := (get_eq_ok_some.1 hget).1
  simp only [hput, hfile, Disk.write, if_true, Option.some.injEq] at hkept
  have hne : page ≠ [] := by decide +kernel
  exact hne hkept

end VayuWeb.Client.PublishFlow
