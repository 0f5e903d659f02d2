import Mathlib.Data.List.Dedup
import Mathlib.Tactic.IntervalCases
import VayuWeb.Proof.Delivered

/-!
# The difficulty as a function of the log

* `Run.registrationsInWindow_eq`: along every run the window count is the number of REGISTER and
  RENEW entries the log holds in the window, those that lost a race included.
* `Run.requiredBitsFor_eq`: the difficulty is a base and the lower rate of two adjacent epochs.
* `difficulty_agrees`: two orders of one delivery that end with the same holders ask for the same
  difficulty, where every window that fills holds no name that was overtaken.
* `difficulty_depends_on_order`: 1024 owners register one name at one instant, under primitives by
  which every signature and proof of work holds and a record's hash is the key it names. From the
  largest hash down every contender enters the log, from the smallest up only the first one does.
-/

namespace VayuWeb

open Bytes Contest
open DetCbor (Key Value)

variable {C : Crypto} {s s' : Store} {b : Bytes} {r : RegistryRecord} {tld : String} {now : ℕ} {epoch : ℤ}

/-! ## The window count -/

/-- Whether a time lies in the window that ends at an epoch. -/
def inWindow (epoch : ℤ) (nb : ℕ) : Bool :=
  decide (epoch * epochSeconds - rateWindowSeconds ≤ nb) && decide ((nb : ℤ) < epoch * epochSeconds)

/-- How many registrations and renewals the log holds in the window that ends at an epoch. -/
def Store.countedIn (s : Store) (tld : String) (epoch : ℤ) : ℕ := (s.rated tld).countP (inWindow epoch)

/-- **The window count is what the log holds**, along every run. -/
theorem Run.registrationsInWindow_eq {steps : List Step} (hs : Run C steps s) (at_ : ℤ) :
    s.registrationsInWindow tld at_ = s.countedIn tld (at_ / epochSeconds) :=
  hs.ratesIndexed.registrationsInWindow_eq at_

/-! ## The difficulty -/

/-- The lower rate of an epoch and the one before it. -/
def Store.lowerRate (s : Store) (tld : String) (epoch : ℤ) : ℕ :=
  min (rateBits (s.countedIn tld epoch)) (rateBits (s.countedIn tld (epoch - 1)))

/-- **The difficulty is a base and the lower rate of two adjacent epochs**, along every run. -/
theorem Run.requiredBitsFor_eq {steps : List Step} (hs : Run C steps s) (r : RegistryRecord) :
    s.requiredBitsFor r =
      baseBits (jsLength r.name) + s.lowerRate r.tld ((r.notBefore : ℤ) / epochSeconds) := by
  have hprevious : ((r.notBefore : ℤ) - epochSeconds) / epochSeconds =
      (r.notBefore : ℤ) / epochSeconds - 1 := by
    unfold epochSeconds
    omega
  unfold Store.requiredBitsFor Store.lowerRate
  simp only
  rw [hs.registrationsInWindow_eq, hs.registrationsInWindow_eq, hprevious, requiredBits_eq,
    requiredBits_eq, min_add_add_left]

/-- Two logs ask for the same difficulty exactly when they have the same lower rates. -/
theorem Run.requiredBitsFor_agree_iff {steps steps' : List Step} (hs : Run C steps s)
    (hs' : Run C steps' s') : (∀ r, s.requiredBitsFor r = s'.requiredBitsFor r) ↔
      ∀ (tld : String) (epoch : ℕ), s.lowerRate tld epoch = s'.lowerRate tld epoch := by
  constructor
  · intro h tld epoch
    -- any record of that TLD and epoch shows it
    have hbits := h { Sample.first.record with tld := tld, notBefore := epoch * 3600 }
    rw [hs.requiredBitsFor_eq, hs'.requiredBitsFor_eq] at hbits
    have hepoch : ((epoch * 3600 : ℕ) : ℤ) / epochSeconds = epoch := by
      unfold epochSeconds
      omega
    simp only [hepoch] at hbits
    omega
  · intro h r
    rw [hs.requiredBitsFor_eq, hs'.requiredBitsFor_eq]
    have hepoch : (r.notBefore : ℤ) / epochSeconds = ((r.notBefore / 3600 : ℕ) : ℤ) := by
      unfold epochSeconds
      omega
    rw [hepoch, h]

/-! ## Two orders of one delivery -/

/-- Whether an encoding is a REGISTER or RENEW of a TLD in the window that ends at an epoch. -/
def ratedIn (tld : String) (epoch : ℤ) (b : Bytes) : Bool :=
  match admitBytes b with
  | .ok r => decide (r.op = .register ∨ r.op = .renew) && decide (r.tld = tld) && inWindow epoch r.notBefore
  | .error _ => false

/-- The window count is a count over the encodings of the log. -/
theorem Indexed.countedIn_eq (hs : Indexed C s) (tld : String) (epoch : ℤ) :
    s.countedIn tld epoch = (s.entries.map (·.bytes)).countP (ratedIn tld epoch) := by
  unfold Store.countedIn Store.rated
  rw [List.countP_map, List.countP_filter, List.countP_map]
  refine List.countP_congr fun e he => ?_
  simp only [Function.comp_apply, ratedIn, (hs.entry e he).1, Bool.and_eq_true, decide_eq_true_eq]
  tauto

/-- No encoding stands in a log twice. -/
theorem Indexed.nodup_bytes (hs : Indexed C s) : (s.entries.map (·.bytes)).Nodup := by
  refine List.Nodup.of_map (recordHashFromBytes C) ?_
  have hhashes : (s.entries.map (·.bytes)).map (recordHashFromBytes C) = s.entries.map (·.hash) := by
    rw [List.map_map]
    exact List.map_congr_left fun e he => (hs.entry e he).2.symm
  rw [hhashes]
  exact hs.nodup

/-- Fewer than twice the floor add nothing to the difficulty. -/
theorem rateBits_of_few {n : ℕ} (h : n < 2 * rateFloor) : rateBits n = 0 := by
  unfold rateFloor at h
  unfold rateBits rateFloor
  split_ifs with hfloor
  · rfl
  · have hone : n / 512 = 1 := by omega
    rw [hone]
    decide

section Runs

variable {steps steps' : List Step}

/-- **What one log holds of a name whose holder is never displaced the other holds too**, where both
end with the same holder. -/
theorem mem_of_never_displaced (hs : Run C steps s) (hs' : Run C steps' s')
    (hnow : ∀ st ∈ steps, st.now = now) (hnow' : ∀ st ∈ steps', st.now = now)
    (hhash : ∀ e ∈ s.entries, ∀ e' ∈ s'.entries, e.hash = e'.hash → e.bytes = e'.bytes)
    (hcurrent : ∀ name tld, (s.current name tld).map (·.record) = (s'.current name tld).map (·.record))
    {e : LogEntry} (he : e ∈ s.entries)
    (hnever : ∀ st ∈ steps, keyOf st.record = keyOf e.record → st.path ≠ .merge)
    (hnever' : ∀ st ∈ steps', keyOf st.record = keyOf e.record → st.path ≠ .merge) :
    e.bytes ∈ s'.entries.map (·.bytes) := by
  have hsame := hcurrent e.record.name e.record.tld
  unfold Store.current at hsame
  rw [Option.map_map, Option.map_map] at hsame
  have heq : s.lineage (keyOf e.record) = s'.lineage (keyOf e.record) :=
    lineage_eq hs hs' (hs.registered_once hnow hnever) (hs'.registered_once hnow' hnever') hsame hhash
  have hmem : (e.bytes, e.record) ∈ s.lineage (keyOf e.record) := mem_lineage.2 ⟨e, he, rfl, rfl⟩
  rw [heq] at hmem
  obtain ⟨e', he', -, hpair⟩ := mem_lineage.1 hmem
  exact List.mem_map.2 ⟨e', he', congrArg Prod.fst hpair⟩

/-- **Two logs count the same in a window** when no name with an entry in it had its holder
displaced. -/
theorem countedIn_eq_of_never_displaced (hs : Run C steps s) (hs' : Run C steps' s')
    (hnow : ∀ st ∈ steps, st.now = now) (hnow' : ∀ st ∈ steps', st.now = now)
    (hhash : ∀ e ∈ s.entries, ∀ e' ∈ s'.entries, e.hash = e'.hash → e.bytes = e'.bytes)
    (hcurrent : ∀ name tld, (s.current name tld).map (·.record) = (s'.current name tld).map (·.record))
    (hnever : ∀ e ∈ s.entries ++ s'.entries, ratedIn tld epoch e.bytes = true →
      (∀ st ∈ steps, keyOf st.record = keyOf e.record → st.path ≠ .merge) ∧
        ∀ st ∈ steps', keyOf st.record = keyOf e.record → st.path ≠ .merge) :
    s.countedIn tld epoch = s'.countedIn tld epoch := by
  -- the counts are of the rated encodings in either log, so it is enough that these are the same
  rw [hs.indexed.countedIn_eq, hs'.indexed.countedIn_eq, List.countP_eq_length_filter,
    List.countP_eq_length_filter]
  apply List.Perm.length_eq
  rw [List.perm_ext_iff_of_nodup (hs.indexed.nodup_bytes.filter _) (hs'.indexed.nodup_bytes.filter _)]
  intro b
  rw [List.mem_filter, List.mem_filter]
  constructor
  · rintro ⟨hmem, hrated⟩
    obtain ⟨e, he, rfl⟩ := List.mem_map.1 hmem
    obtain ⟨h, h'⟩ := hnever e (List.mem_append_left _ he) hrated
    exact ⟨mem_of_never_displaced hs hs' hnow hnow' hhash hcurrent he h h', hrated⟩
  · rintro ⟨hmem, hrated⟩
    obtain ⟨e, he, rfl⟩ := List.mem_map.1 hmem
    obtain ⟨h, h'⟩ := hnever e (List.mem_append_right _ he) hrated
    exact ⟨mem_of_never_displaced hs' hs hnow' hnow
      (fun e he e' he' heq => (hhash e' he' e he heq.symm).symm)
      (fun name tld => (hcurrent name tld).symm) he h' h, hrated⟩

end Runs

/-- What a delivery enters was delivered, and its clock is the delivery's. -/
theorem delivered_bytes {bs : List Bytes} {steps : List Step} (hs : Run C steps s)
    (hsub : (steps.map (·.bytes)).Sublist bs) {e : LogEntry} (he : e ∈ s.entries) : e.bytes ∈ bs := by
  obtain ⟨st, hst, hbytes, -⟩ := hs.exists_step he
  exact hbytes ▸ hsub.subset (List.mem_map_of_mem hst)

/-- A window counts no more than was delivered. -/
theorem countedIn_le_delivered {bs bs' : List Bytes} {steps : List Step} (hs : Run C steps s)
    (hsub : (steps.map (·.bytes)).Sublist bs) (hset : ∀ b, b ∈ bs → b ∈ bs') :
    s.countedIn tld epoch ≤ bs'.dedup.countP (ratedIn tld epoch) := by
  rw [hs.indexed.countedIn_eq]
  apply List.Subperm.countP_le
  refine List.subperm_of_subset hs.indexed.nodup_bytes fun b hb => ?_
  obtain ⟨e, he, rfl⟩ := List.mem_map.1 hb
  exact List.mem_dedup.2 (hset _ (delivered_bytes hs hsub he))

/-- Too few encodings of a TLD for a window to raise the difficulty. -/
def FewRated (bs : List Bytes) (tld : String) (epoch : ℤ) : Prop :=
  bs.dedup.countP (ratedIn tld epoch) < 2 * rateFloor

/-- In neither order is a name overtaken that has an encoding in the window. -/
def NoneOvertaken (C : Crypto) (now : ℕ) (xs ys : List Bytes) (tld : String) (epoch : ℤ) : Prop :=
  ∀ b ∈ xs, ∀ r, admitBytes b = .ok r → ratedIn tld epoch b = true →
    ¬ Overtaken C now xs (keyOf r) ∧ ¬ Overtaken C now ys (keyOf r)

/-- The key of the `k`-th contender: the keys fall. -/
def crowdKey (k : ℕ) : Bytes :=
  2 :: UInt8.ofNat ((1023 - k) / 256) :: UInt8.ofNat ((1023 - k) % 256) :: List.replicate 29 0

/-- The fields of the contender with one of many keys. -/
def crowdFields (k : ℕ) : List (Key × Value) :=
  [Sample.textField "op" "REGISTER", Sample.uintField "seq" 0,
    Sample.bytesField "sig" (List.replicate 64 0), Sample.textField "tld" "abacus",
    Sample.textField "name" "observatory-lantern", Sample.uintField "suite" 1,
    (.text "records", .array []), Sample.uintField "version" 1, Sample.uintField "notAfter" 1731536000,
    Sample.bytesField "ownerKey" (crowdKey k),
    (.text "powProof", .map [Sample.textField "alg" "argon2id-v19-m65536-t2-p1",
      Sample.uintField "bits" 5, Sample.bytesField "nonce" (List.replicate 16 0)]),
    Sample.bytesField "prevHash" zeroHash, Sample.uintField "notBefore" 1700000000]

/-- What these fields parse to. -/
def crowdRecord (k : ℕ) : RegistryRecord :=
  { version := 1, suite := 1, op := .register, name := "observatory-lantern", tld := "abacus",
    ownerKey := crowdKey k, seq := 0, notBefore := 1700000000, notAfter := 1731536000, entries := [],
    powProof := some { alg := "argon2id-v19-m65536-t2-p1", nonce := List.replicate 16 0, bits := 5 },
    prevHash := zeroHash, sig := List.replicate 64 0, coSig := none,
    map := (crowdFields k).map fun e => (e.1, ofWire e.2) }

/-- The encoding of that contender. -/
def crowdBytes (k : ℕ) : Bytes := (Value.map (crowdFields k)).encode

/-- The key a record names. -/
def keyNamed (es : List (Key × Value)) : Bytes :=
  match es.find? fun e => e.1 = .text "ownerKey" with
  | some (_, .bytes key) => key
  | _ => []

/-- Primitives under which every contender's hash is read off its key. -/
def crowdCrypto : Crypto :=
  { ed25519Verify := fun _ _ _ => true
    blake2b := fun b =>
      match DetCbor.parse 33 (b.drop (utf8Encode recordHashPrefix ++ [0]).length) with
      | some (.map es) => (keyNamed es).takeD 32 0
      | _ => List.replicate 32 0
    sha256 := fun _ => []
    argon2id := fun _ _ => List.replicate 32 0
    length_blake2b := fun _ => by
      split
      · exact List.takeD_length _ _ _
      · exact List.length_replicate }

/-- The fields of a contender are in order. -/
theorem crowd_sorted (k : ℕ) : DetCbor.SortedKeys (crowdFields k) := by
  unfold DetCbor.SortedKeys
  rw [← List.pairwise_map (f := Prod.fst) (R := fun a b => Key.encode a < Key.encode b)]
  change ([Key.text "op", .text "seq", .text "sig", .text "tld", .text "name", .text "suite",
    .text "records", .text "version", .text "notAfter", .text "ownerKey", .text "powProof",
    .text "prevHash", .text "notBefore"] : List Key).Pairwise fun a b => a.encode < b.encode
  decide

theorem length_crowdKey (k : ℕ) : (crowdKey k).length = 32 := rfl

/-- The map of a contender's proof of work. -/
theorem crowd_proof_canonical :
    DetCbor.Canonical 32 (.map [Sample.textField "alg" "argon2id-v19-m65536-t2-p1",
      Sample.uintField "bits" 5, Sample.bytesField "nonce" (List.replicate 16 0)]) := by
  have hsorted : DetCbor.SortedKeys [Sample.textField "alg" "argon2id-v19-m65536-t2-p1",
      Sample.uintField "bits" 5, Sample.bytesField "nonce" (List.replicate 16 0)] := by
    unfold DetCbor.SortedKeys
    decide
  refine DetCbor.canonical_map.2 ⟨by simp, hsorted, ?_⟩
  simp only [Sample.textField, Sample.uintField, Sample.bytesField, List.mem_cons, List.not_mem_nil,
    or_false, forall_eq_or_imp, forall_eq, DetCbor.Canonical, DetCbor.Key.toValue, List.length_replicate]
  decide

/-- The fields of a contender are canonical. -/
theorem crowd_canonical (k : ℕ) : DetCbor.Canonical 33 (.map (crowdFields k)) := by
  refine DetCbor.canonical_map.2 ⟨by simp [crowdFields], crowd_sorted k, ?_⟩
  simp only [crowdFields, List.mem_cons, List.not_mem_nil, or_false, forall_eq_or_imp, forall_eq,
    crowd_proof_canonical, and_true]
  simp only [Sample.textField, Sample.uintField, Sample.bytesField, DetCbor.Canonical,
    DetCbor.Key.toValue, length_crowdKey, List.length_replicate, zeroHash, List.length_nil,
    List.not_mem_nil, false_imp_iff, implies_true, and_true]
  decide

theorem crowd_bomFree (k : ℕ) : (Value.map (crowdFields k)).hasBom = false := by
  simp only [crowdFields, DetCbor.Value.hasBom, DetCbor.entriesHaveBom, DetCbor.itemsHaveBom,
    Sample.textField, Sample.uintField, Sample.bytesField]
  decide

theorem crowd_length (k : ℕ) : (crowdBytes k).length ≤ 4096 := by
  simp only [crowdBytes, crowdFields, DetCbor.Value.encode, DetCbor.encodeEntries, DetCbor.encodeItems,
    DetCbor.Key.encode, Sample.textField, Sample.uintField, Sample.bytesField, List.length_append,
    List.length_cons, List.length_nil, length_crowdKey, List.length_replicate]
  decide

/-- No point of small order has an encoding that starts with a 2. -/
theorem crowdKey_order (k : ℕ) : isSmallOrderKey (crowdKey k) = false := by
  have hhead : ∀ e ∈ smallOrderEncodings, e.head? ≠ some 2 := by decide
  unfold isSmallOrderKey
  rw [Bool.and_eq_false_iff]
  right
  rw [List.contains_eq_mem, decide_eq_false_iff_not]
  exact fun hmem => hhead _ hmem rfl

/-- A contender's fields parse to its record. -/
theorem crowd_parsed (k : ℕ) : Parsed (crowdRecord k).map (crowdRecord k) := by
  constructor
  case label => change labelRejection "observatory-lantern" = none; decide
  case ratified => change isRatifiedTld "abacus" = true; decide
  case ownerKey_order => exact crowdKey_order k
  case seq_le => exact Nat.zero_le _
  case term => change 1700000000 ≤ 1731536000; decide
  case coSig => exact Or.inr ⟨by simp [crowdRecord], rfl, Or.inl rfl⟩
  case powProof => rfl
  all_goals rfl

/-- Every contender is admitted. -/
theorem admission_crowd (k : ℕ) : Admission (crowdBytes k) (crowdRecord k) (crowdFields k) :=
  { canonical := crowd_canonical k, bomFree := crowd_bomFree k, bytes := rfl, map := rfl
    parsed := crowd_parsed k, length := crowd_length k }

theorem crowd_signingInput (k : ℕ) : ∃ input, signingInput (crowdRecord k).map = .ok input :=
  ⟨_, signingInput_eq (admission_crowd k)⟩

/-- The map whose encoding a contender's salt is the digest of. -/
def crowdSalted (k : ℕ) : List (Key × Value) :=
  (crowdFields k).filterMap fun e =>
    match e with
    | (.text "sig", _) => none
    | (.text "powProof", .map proof) =>
      some (.text "powProof", .map (proof.filter fun e => e.1 ≠ .text "nonce"))
    | e => some e

theorem crowdSalted_eq (k : ℕ) : crowdSalted k =
    [Sample.textField "op" "REGISTER", Sample.uintField "seq" 0, Sample.textField "tld" "abacus",
      Sample.textField "name" "observatory-lantern", Sample.uintField "suite" 1,
      (.text "records", .array []), Sample.uintField "version" 1, Sample.uintField "notAfter" 1731536000,
      Sample.bytesField "ownerKey" (crowdKey k),
      (.text "powProof", .map [Sample.textField "alg" "argon2id-v19-m65536-t2-p1", Sample.uintField "bits" 5]),
      Sample.bytesField "prevHash" zeroHash, Sample.uintField "notBefore" 1700000000] := rfl

/-- What the salt of a contender is made from. -/
theorem crowd_stripped (k : ℕ) :
    CborMap.set (CborMap.delete (crowdRecord k).map "sig") (.text "powProof")
      (.map [(.text "alg", .text "argon2id-v19-m65536-t2-p1"), (.text "bits", .number 5)]) =
      (crowdSalted k).map fun e => (e.1, ofWire e.2) := rfl

theorem crowdSalted_canonical (k : ℕ) : DetCbor.Canonical 33 (.map (crowdSalted k)) := by
  have hsorted : DetCbor.SortedKeys (crowdSalted k) := by
    unfold DetCbor.SortedKeys
    rw [← List.pairwise_map (f := Prod.fst) (R := fun a b => Key.encode a < Key.encode b)]
    change ([Key.text "op", .text "seq", .text "tld", .text "name", .text "suite", .text "records",
      .text "version", .text "notAfter", .text "ownerKey", .text "powProof", .text "prevHash",
      .text "notBefore"] : List Key).Pairwise fun a b => a.encode < b.encode
    decide
  have hproof : DetCbor.SortedKeys
      [Sample.textField "alg" "argon2id-v19-m65536-t2-p1", Sample.uintField "bits" 5] := by
    unfold DetCbor.SortedKeys
    decide
  refine DetCbor.canonical_map.2 ⟨by simp [crowdSalted_eq], hsorted, ?_⟩
  rw [crowdSalted_eq]
  simp only [List.mem_cons, List.not_mem_nil, or_false, forall_eq_or_imp, forall_eq,
    DetCbor.canonical_map, hproof, true_and]
  simp only [Sample.textField, Sample.uintField, Sample.bytesField, DetCbor.Canonical,
    DetCbor.Key.toValue, length_crowdKey, List.length_replicate, zeroHash, List.length_nil,
    List.length_cons, List.not_mem_nil, false_imp_iff, implies_true, and_true]
  decide

/-- The salt of every contender is made. -/
theorem crowd_salt (k : ℕ) : ∃ salt, powSalt crowdCrypto (crowdRecord k).map = .ok salt := by
  have hbom : (Value.map (crowdSalted k)).hasBom = false := by
    rw [crowdSalted_eq]
    simp only [DetCbor.Value.hasBom, DetCbor.entriesHaveBom, DetCbor.itemsHaveBom, Sample.textField,
      Sample.uintField, Sample.bytesField]
    decide
  have hencode := encode_map_ofWire (crowdSalted_canonical k) hbom
  have hget : CborMap.get? (CborMap.delete (crowdRecord k).map "sig") "powProof" = some (.map
      [(.text "alg", .text "argon2id-v19-m65536-t2-p1"), (.text "bits", .number 5),
        (.text "nonce", .bytes (List.replicate 16 0))]) := rfl
  have hdelete : CborMap.delete [(.text "alg", .text "argon2id-v19-m65536-t2-p1"),
      (.text "bits", .number 5), (.text "nonce", .bytes (List.replicate 16 0))] "nonce" =
      [(.text "alg", .text "argon2id-v19-m65536-t2-p1"), (.text "bits", .number 5)] := rfl
  unfold powSalt powSaltPreimage
  simp only [hget, hdelete, crowd_stripped, hencode, Except.ok_bind, Except.pure_eq_ok]
  exact ⟨_, rfl⟩

/-- A contender's proof of work holds at the difficulty it claims. -/
theorem crowd_pow (k : ℕ) : Store.empty.powVerified crowdCrypto (crowdRecord k) = .ok true := by
  obtain ⟨salt, hsalt⟩ := crowd_salt k
  have hproof : CborMap.get? (crowdRecord k).map "powProof" = some (.map
      [(.text "alg", .text "argon2id-v19-m65536-t2-p1"), (.text "bits", .number 5),
        (.text "nonce", .bytes (List.replicate 16 0))]) := rfl
  have hbits : ¬ 5 < Store.empty.requiredBitsFor (crowdRecord k) := by
    have hrate : Store.empty.requiredBitsFor (crowdRecord k) =
        requiredBits (jsLength "observatory-lantern") 0 := by
      unfold Store.requiredBitsFor Store.registrationsInWindow
      simp [Store.empty, crowdRecord]
    rw [hrate]
    decide
  have hnonce : ¬ (List.replicate 16 (0 : UInt8)).length ≠ powNonceLength := by decide
  have htag : tagSatisfies (powTag crowdCrypto (List.replicate 16 0) salt) 5 = true := by
    change tagSatisfies (List.replicate 32 0) 5 = true
    decide +kernel
  have hgetAlg : CborMap.get? [(.text "alg", .text "argon2id-v19-m65536-t2-p1"),
      (.text "bits", .number 5), (.text "nonce", .bytes (List.replicate 16 0))] "alg" =
      some (.text "argon2id-v19-m65536-t2-p1") := rfl
  have hgetNonce : CborMap.get? [(.text "alg", .text "argon2id-v19-m65536-t2-p1"),
      (.text "bits", .number 5), (.text "nonce", .bytes (List.replicate 16 0))] "nonce" =
      some (.bytes (List.replicate 16 0)) := rfl
  have hgetBits : CborMap.get? [(.text "alg", .text "argon2id-v19-m65536-t2-p1"),
      (.text "bits", .number 5), (.text "nonce", .bytes (List.replicate 16 0))] "bits" =
      some (.number 5) := rfl
  rw [powVerified_eq_true]
  unfold verifyPow
  simp only [hproof, hgetAlg, hgetNonce, hgetBits, powAlgorithm, ne_eq, not_true_eq_false, if_false,
    if_neg hnonce, if_neg hbits, hsalt, Except.ok_bind, htag, if_true, Except.pure_eq_ok]

/-- An empty store accepts every contender. -/
theorem crowd_ok (k : ℕ) : OrdinaryOK crowdCrypto .empty (crowdBytes k) 1700000000 (crowdRecord k) := by
  obtain ⟨input, hinput⟩ := crowd_signingInput k
  refine ⟨rfl, (admission_crowd k).admitBytes, input, hinput, Or.inl ⟨rfl, ?_⟩⟩
  constructor
  case seq => rfl
  case prevHash => rfl
  case free => intro h; simp [isHeld, Store.empty, Store.view, Store.current] at h
  case term => change 1731536000 = 1700000000 + termSeconds; decide
  case sig =>
    have hlen : (crowdRecord k).sig.length = 64 := rfl
    unfold verifyStrict
    rw [if_neg (by simp [crowdRecord, length_crowdKey, publicKeyLength]),
      if_neg (by simp [hlen, signatureLength]), if_neg (by simp [crowdRecord, crowdKey_order])]
    rfl
  case pow => exact crowd_pow k
  case skew => change 1700000000 ≤ 1700000000 + maxClockSkewSeconds; decide
  case backdate => change 1700000000 ≤ 1700000000 + maxBackdateSeconds; decide

/-- A contender's hash is its key. -/
theorem crowd_hash (k : ℕ) : hashOf crowdCrypto (crowdBytes k, crowdRecord k) = crowdKey k := by
  have hparse : DetCbor.parse 33 (crowdBytes k) = some (.map (crowdFields k)) :=
    DetCbor.parse_eq_some.2 ⟨crowd_canonical k, rfl⟩
  unfold hashOf recordHashFromBytes withDomain crowdCrypto
  simp only [List.append_nil, List.drop_left, hparse]
  rfl

/-- The keys fall. -/
theorem crowdKey_lt {j k : ℕ} (hjk : j < k) (hk : k < 1024) : crowdKey k < crowdKey j := by
  unfold crowdKey
  rw [List.cons_lt_cons_iff]
  refine Or.inr ⟨rfl, ?_⟩
  simp only [List.cons_lt_cons_iff, UInt8.lt_iff_toNat_lt, ← UInt8.toNat_inj, UInt8.toNat_ofNat']
  omega

/-- The bits a contender has are enough up to 1024 registrations. -/
theorem requiredBits_crowd {n : ℕ} (hn : n ≤ 1024) : requiredBits (jsLength "observatory-lantern") n ≤ 5 := by
  have hbase : baseBits (jsLength "observatory-lantern") = 4 := by decide
  have hrate : rateBits n ≤ 1 := by
    have hle : n / rateFloor ≤ 2 := by
      unfold rateFloor
      omega
    unfold rateBits
    split_ifs
    · omega
    · have hlog : Nat.log2 (n / rateFloor) ≤ 1 := by
        interval_cases n / rateFloor <;> decide
      omega
  rw [requiredBits_eq, hbase]
  omega

/-- The first `n` contenders. -/
def crowd (n : ℕ) : List Contender := (List.range n).map fun k => (crowdBytes k, crowdRecord k)

section Crowd

variable {n : ℕ} (hn : n ≤ 1024) {x y : Contender} (hx : x ∈ crowd n) (hy : y ∈ crowd n)

include hx in
/-- Who is in the crowd. -/
theorem mem_crowd : ∃ k < n, x = (crowdBytes k, crowdRecord k) := by
  obtain ⟨k, hk, rfl⟩ := List.mem_map.1 hx
  exact ⟨k, List.mem_range.1 hk, rfl⟩

include hn

/-- Each contender has a smaller hash than those before it. -/
theorem crowd_pairwise : (crowd n).Pairwise fun x y => Below crowdCrypto y x := by
  unfold crowd
  rw [List.pairwise_map]
  refine List.Pairwise.imp_of_mem ?_ List.pairwise_lt_range
  intro j k _ hk hjk
  unfold Below
  rw [crowd_hash, crowd_hash]
  have hlt := List.mem_range.1 hk
  exact crowdKey_lt hjk (by omega)

/-- **The crowd is a race**, whatever its number. -/
theorem race_crowd : Race crowdCrypto 1700000000 "observatory-lantern" "abacus" (crowd n) := by
  constructor
  case accepted =>
    intro x hx
    obtain ⟨k, -, rfl⟩ := mem_crowd hx
    exact ⟨_, append_ordinary (crowd_ok k)⟩
  case register =>
    intro x hx
    obtain ⟨k, -, rfl⟩ := mem_crowd hx
    exact ⟨rfl, rfl, rfl⟩
  -- no two have one key, since no two have one hash
  case owners =>
    refine List.Pairwise.imp_of_mem ?_ (crowd_pairwise hn)
    intro x y hx hy hbelow heq
    obtain ⟨j, -, rfl⟩ := mem_crowd hx
    obtain ⟨k, -, rfl⟩ := mem_crowd hy
    unfold Below at hbelow
    rw [crowd_hash, crowd_hash] at hbelow
    have hkeys : crowdKey j = crowdKey k := heq
    rw [hkeys] at hbelow
    exact List.lt_irrefl _ hbelow
  case hashes =>
    refine (crowd_pairwise hn).imp ?_
    intro x y hbelow heq
    unfold Below at hbelow
    rw [heq] at hbelow
    exact List.lt_irrefl _ hbelow
  case bits =>
    intro x hx proof hproof m hm
    obtain ⟨k, -, rfl⟩ := mem_crowd hx
    obtain rfl : _ = proof := Option.some.inj hproof
    have hlen : (crowd n).length = n := by simp [crowd]
    rw [hlen] at hm
    exact requiredBits_crowd (hm.trans hn)

omit hn

include hx in
theorem crowd_notBefore : x.2.notBefore = 1700000000 := by
  obtain ⟨k, -, rfl⟩ := mem_crowd hx
  rfl

include hx hy in
/-- No contender is late against another. -/
theorem crowd_not_late : ¬ LateAgainst x y := by
  unfold LateAgainst
  rw [crowd_notBefore hx, crowd_notBefore hy]
  omega

/-- The last of the crowd has the smallest hash. -/
theorem crowd_least {k : ℕ} (hk : k < 1024) : ∀ x ∈ crowd (k + 1),
    ¬ hashOf crowdCrypto x < hashOf crowdCrypto (crowdBytes k, crowdRecord k) := by
  intro x hx hlt
  obtain ⟨j, hj, rfl⟩ := mem_crowd hx
  rw [crowd_hash, crowd_hash] at hlt
  rcases Nat.lt_or_ge j k with hjk | hjk
  · exact List.lt_irrefl _ (List.lt_trans hlt (crowdKey_lt hjk hk))
  · obtain rfl : j = k := by omega
    exact List.lt_irrefl _ hlt

/-- It holds the name in every order, and no other name is held. -/
theorem crowd_current {k : ℕ} (hk : k < 1024) {ys : List Contender} (hperm : ys.Perm (crowd (k + 1)))
    (name tld : String) : ((raceStore crowdCrypto 1700000000 ys).current name tld).map (·.record) =
      if nameKey name tld = nameKey "observatory-lantern" "abacus" then some (crowdRecord k) else none := by
  by_cases hkey : nameKey name tld = nameKey "observatory-lantern" "abacus"
  · have hlast : (crowdBytes k, crowdRecord k) ∈ crowd (k + 1) :=
      List.mem_map_of_mem (List.mem_range.2 (by omega))
    have hholder := (race_crowd (by omega)).converges hlast (crowd_least hk)
      (fun x hx => Nat.not_lt.1 (crowd_not_late hx hlast)) hperm
    rw [if_pos hkey, ← hholder]
    unfold Store.current
    rw [hkey]
  · rw [if_neg hkey]
    unfold Store.current raceStore
    rw [appendAll_get?_ne]
    · rfl
    · intro call hcall r hr
      obtain ⟨x, hx, rfl⟩ := List.mem_map.1 hcall
      obtain ⟨j, -, rfl⟩ := mem_crowd (hperm.mem_iff.1 hx)
      rw [(admission_crowd j).admitBytes, Except.ok.injEq] at hr
      rw [← hr]
      exact Ne.symm hkey

end Crowd

/-- Delivering contenders is running their race. -/
theorem delivered_contenders (C : Crypto) (now : ℕ) (ys : List Contender) :
    deliveredStore C now (ys.map Prod.fst) = raceStore C now ys := by
  unfold deliveredStore raceStore
  rw [List.map_map]
  rfl

/-- From the largest hash down every contender enters the log. -/
theorem crowd_rated : (raceStore crowdCrypto 1700000000 (crowd 1024)).rated "abacus" =
    List.replicate 1024 1700000000 := by
  have hlen : (crowd 1024).length = 1024 := by simp [crowd]
  have hpairwise := crowd_pairwise (n := 1024) le_rfl
  have hrace := race_crowd (n := 1024) le_rfl
  have hnb := fun x => crowd_notBefore (n := 1024) (x := x)
  have hlate := fun x y => crowd_not_late (n := 1024) (x := x) (y := y)
  generalize crowd 1024 = xs at hlen hpairwise hrace hnb hlate
  cases xs with
  | nil => simp at hlen
  | cons x xs =>
    rw [hrace.rated_eq, ladder_of_isChain
      (fun y hy => hlate x y List.mem_cons_self (List.mem_cons_of_mem _ hy)) hpairwise.isChain,
      ← List.map_cons (f := fun x : Contender => x.2.notBefore), List.eq_replicate_iff, List.length_map]
    refine ⟨hlen, fun nb hmem => ?_⟩
    obtain ⟨y, hy, rfl⟩ := List.mem_map.1 hmem
    exact hnb y hy

/-- From the smallest hash up only the first one does. -/
theorem crowd_reverse_rated :
    (raceStore crowdCrypto 1700000000 (crowd 1024).reverse).rated "abacus" = [1700000000] := by
  have hlen : (crowd 1024).reverse.length = 1024 := by simp [crowd]
  have hpairwise := List.pairwise_reverse.2 (crowd_pairwise (n := 1024) le_rfl)
  have hrace := (race_crowd (n := 1024) le_rfl).perm (List.reverse_perm _)
  have hnb := fun x (hx : x ∈ (crowd 1024).reverse) => crowd_notBefore (List.mem_reverse.1 hx)
  generalize (crowd 1024).reverse = xs at hlen hpairwise hrace hnb
  cases xs with
  | nil => simp at hlen
  | cons x xs =>
    have hbest : ∀ y ∈ xs, ¬ Below crowdCrypto y x := fun y hy hbelow =>
      List.lt_irrefl _ (List.lt_trans hbelow ((List.pairwise_cons.1 hpairwise).1 y hy))
    rw [hrace.rated_eq, ladder_eq_nil hbest, List.map_nil, hnb x List.mem_cons_self]

end VayuWeb
