import VayuWeb.Client.Record
import VayuWeb.Client.Verify
import VayuWeb.Proof.ClientCbor
import VayuWeb.Proof.ClientNames
import VayuWeb.Proof.ClientParse

/-!
# What the client's builders write

* `field_sorted`: a map's members are found after it was written in order.
* `decode_of_encodeMap`: what is encoded decodes.
* `register_members`, `update_members`: the map whose encoding a builder returns.
-/

namespace VayuWeb.Client

open Bytes
open DetCbor (Key Value)

/-! ## Members -/

/-- The field a map has under a name. -/
theorem field_eq_some {es : Members} (hnodup : (es.map Prod.fst).Nodup) {name : String} {v : Value} :
    field es name = some v ↔ (Key.text name, v) ∈ es := by
  refine ⟨field_mem, ?_⟩
  induction es with
  | nil => simp
  | cons e es ih =>
    obtain ⟨k, w⟩ := e
    rw [List.map_cons, List.nodup_cons] at hnodup
    intro h
    rw [field]
    rcases List.mem_cons.1 h with heq | hmem
    · rw [Prod.mk.injEq] at heq
      rw [if_pos heq.1.symm, heq.2]
    · have hne : k ≠ Key.text name := by
        intro heq
        rw [heq] at hnodup
        exact hnodup.1 (List.mem_map.2 ⟨(Key.text name, v), hmem, rfl⟩)
      rw [if_neg hne]
      exact ih hnodup.2 hmem

/-- A member of a map is found after the map was put in order. -/
theorem field_sorted {es : Members} (hnodup : (es.map Prod.fst).Nodup) {name : String} {v : Value}
    (h : (Key.text name, v) ∈ es) :
    field ((DetCbor.sortByKey es).map fun e => (e.1, e.2.sorted)) name = some v.sorted := by
  have hperm := DetCbor.sortByKey_perm es
  have hkeys : ((DetCbor.sortByKey es).map fun e => (e.1, e.2.sorted)).map Prod.fst =
      (DetCbor.sortByKey es).map Prod.fst := by
    rw [List.map_map]
    rfl
  have hsorted : (((DetCbor.sortByKey es).map fun e => (e.1, e.2.sorted)).map Prod.fst).Nodup := by
    rw [hkeys]
    exact (hperm.map _).nodup_iff.2 hnodup
  rw [field_eq_some hsorted]
  exact List.mem_map.2 ⟨_, hperm.mem_iff.2 h, rfl⟩

/-! ## What can be written -/

/-- `v` can be written, and nests at most `n` levels. -/
structure Encodable (n : ℕ) (v : Value) : Prop where
  fits : v.Fits
  distinct : v.KeysDistinct
  depth : v.depth ≤ n

theorem encodable_uint {n m : ℕ} (h : m < 2 ^ 64) : Encodable n (.uint m) :=
  ⟨by rwa [Value.Fits], by rw [Value.KeysDistinct] <;> simp, by rw [Value.depth] <;> simp⟩

theorem encodable_bytes {n : ℕ} {b : Bytes} (h : b.length < 2 ^ 64) : Encodable n (.bytes b) :=
  ⟨by rwa [Value.Fits], by rw [Value.KeysDistinct] <;> simp, by rw [Value.depth] <;> simp⟩

theorem encodable_text {n : ℕ} {s : String} (h : (utf8Encode s).length < 2 ^ 64) : Encodable n (.text s) :=
  ⟨by rwa [Value.Fits], by rw [Value.KeysDistinct] <;> simp, by rw [Value.depth] <;> simp⟩

theorem encodable_null {n : ℕ} : Encodable n .null :=
  ⟨by rw [Value.Fits]; trivial, by rw [Value.KeysDistinct] <;> simp, by rw [Value.depth] <;> simp⟩

/-- An array of values that are encoded is encoded. -/
theorem encodable_array {n : ℕ} {xs : List Value} (hlength : xs.length < 2 ^ 64) (h : ∀ x ∈ xs, Encodable n x) :
    Encodable (n + 1) (.array xs) := by
  refine ⟨?_, ?_, ?_⟩
  · rw [Value.Fits, DetCbor.itemsFit_iff]
    exact ⟨hlength, fun x hx => (h x hx).fits⟩
  · rw [Value.KeysDistinct, DetCbor.itemsKeysDistinct_iff]
    exact fun x hx => (h x hx).distinct
  · have hdepth : DetCbor.itemsDepth xs < n + 1 + 1 :=
      DetCbor.itemsDepth_lt.2 fun x hx => Nat.lt_succ_of_le (h x hx).depth
    rw [Value.depth]
    omega

/-- A map of values that are encoded is encoded. -/
theorem encodable_map {n : ℕ} {es : Members} (hlength : es.length < 2 ^ 64) (hnodup : (es.map Prod.fst).Nodup)
    (h : ∀ e ∈ es, e.1.Fits ∧ Encodable n e.2) : Encodable (n + 1) (.map es) := by
  refine ⟨?_, ?_, ?_⟩
  · rw [Value.Fits, DetCbor.entriesFit_iff]
    exact ⟨hlength, fun e he => ⟨(h e he).1, (h e he).2.fits⟩⟩
  · rw [Value.KeysDistinct, DetCbor.entriesKeysDistinct_iff]
    exact ⟨hnodup, fun e he => (h e he).2.distinct⟩
  · have hdepth : DetCbor.entriesDepth es < n + 1 + 1 :=
      DetCbor.entriesDepth_lt.2 fun e he => Nat.lt_succ_of_le (h e he).2.depth
    rw [Value.depth]
    omega

/-- **What is encoded decodes**, to the value in order. -/
theorem decode_of_encodeMap {es : Members} {bytes : Bytes} (hvalue : Encodable maxDepth (.map es))
    (h : encodeMap es = .ok bytes) : decode bytes = .ok (Value.map es).sorted := by
  obtain ⟨b, hencode, hdecode⟩ := decode_of_encode hvalue.fits hvalue.distinct hvalue.depth
  rw [encodeMap, hencode, Except.ok.injEq] at h
  rw [← h]
  exact hdecode

/-! ## Names -/

theorem length_ascii {s : String} (h : ∀ c ∈ s.toList, c.toNat < 128) : (utf8Encode s).length = s.toList.length := by
  rw [utf8Encode_of_ascii h, List.length_map]

/-- A label that is taken is short. -/
theorem length_label {label : String} (h : labelRejection label = none) :
    (utf8Encode label).length ≤ maxLabelLength := by
  rw [labelRejection] at h
  split_ifs at h with h1 h2 h3
  have hascii : ∀ c ∈ label.toList, c.toNat < 128 :=
    fun c hc => isLabelCharacter_lt (List.all_eq_true.1 h3 c hc)
  rw [length_ascii hascii]
  exact Nat.not_lt.1 h2

/-- A TLD of the right shape is short. -/
theorem length_tld {tld : String} (h : isWellShapedTld tld = true) : (utf8Encode tld).length ≤ maxTldLength := by
  rw [isWellShapedTld] at h
  split_ifs at h with hlength
  cases hchars : tld.toList with
  | nil => simp [hchars] at h
  | cons first rest =>
    simp only [hchars, Bool.if_false_right, Bool.and_eq_true, decide_eq_true_eq] at h
    obtain ⟨hfirst, hrest⟩ := h
    have hascii : ∀ c ∈ tld.toList, c.toNat < 128 := by
      intro c hc
      rw [hchars, List.mem_cons] at hc
      rcases hc with rfl | hc
      · exact isLowercase_lt hfirst
      · have hr := List.all_eq_true.1 hrest c hc
        rw [Bool.or_eq_true] at hr
        exact hr.elim isLowercase_lt isDigit_lt
    rw [length_ascii hascii]
    exact hlength.2

theorem length_of_checkName {label tld : String} (h : checkName label tld = .ok ()) :
    (utf8Encode label).length ≤ maxLabelLength ∧ (utf8Encode tld).length ≤ maxTldLength := by
  rw [checkName] at h
  cases hname : nameRejection label tld with
  | some rejection => simp [hname] at h
  | none =>
    rw [nameRejection] at hname
    split_ifs at hname with hshape hratified
    exact ⟨length_label hname, length_tld hshape⟩

/-! ## Builders -/

variable {C : Crypto}

theorem okOr_eq_ok {ε α : Type} {x : Option α} {error : ε} {a : α} : okOr x error = .ok a ↔ x = some a := by
  cases x with
  | none => simp [okOr]
  | some b => simp [okOr]

/-- A record that one key signs is the map and the signature. -/
theorem signed_members {record : Members} {signer : Identity C} {bytes : Bytes}
    (h : signWithoutPow C record signer none = .ok bytes) :
    ∃ signature, signature.length = 64 ∧ encodeMap (record ++ [(.text "sig", .bytes signature)]) = .ok bytes := by
  rw [signWithoutPow] at h
  simp only [Except.bind_eq_ok, okOr_eq_ok] at h
  obtain ⟨core, -, signature, hsign, h⟩ := h
  exact ⟨signature, signer.length_sign _ _ hsign, h⟩

theorem length_incrementFrom (nonce : Bytes) : (incrementFrom nonce).length = nonce.length := by
  induction nonce with
  | nil => rfl
  | cons byte rest ih =>
    rw [incrementFrom]
    split_ifs
    · rw [List.length_cons, List.length_cons, ih]
    · rfl

/-- The nonce that is found has the length of the first. -/
theorem length_search {salt : Bytes} {bits limit : ℕ} {start nonce : Bytes}
    (h : search C salt bits limit start = .ok nonce) : nonce.length = start.length := by
  induction limit generalizing start with
  | zero => simp [search] at h
  | succ limit ih =>
    have hlength : (incrementNonce start).length = start.length := by
      rw [incrementNonce, List.length_reverse, length_incrementFrom, List.length_reverse]
    rw [search] at h
    split_ifs at h
    · rw [Except.ok.injEq] at h
      rw [← h, hlength]
    · rw [ih h, hlength]

theorem length_solve {record : Members} {bits limit : ℕ} {nonce : Bytes} (h : solve C record bits limit = .ok nonce) :
    nonce.length = powNonceLength := by
  rw [solve] at h
  cases hsalt : powSalt C record with
  | error error => simp [hsalt] at h
  | ok salt =>
    rw [hsalt] at h
    rw [length_search h, List.length_replicate]

/-- Setting a proof changes nothing else. -/
theorem setProof_skeleton {op label tld : String} {ownerKey prevHash nonce nonce' : Bytes}
    {seq notBefore notAfter bits bits' : ℕ} {entries : Value} :
    setProof (skeleton op label tld ownerKey seq notBefore notAfter entries (some (bits, nonce)) prevHash)
        (proofValue bits' nonce') =
      skeleton op label tld ownerKey seq notBefore notAfter entries (some (bits', nonce')) prevHash := by
  simp [setProof, skeleton]

/-- **What `build_register` returns**: the encoding of a map with these entries. -/
theorem register_members {identity : Identity C} {label tld : String} {now windowCount limit : ℕ} {entries : List Entry}
    {bytes : Bytes} (h : buildRegister C identity label tld now entries windowCount none limit = .ok bytes) :
    checkName label tld = .ok () ∧ ∃ records nonce signature, entriesField entries = .ok records ∧
      nonce.length = powNonceLength ∧ signature.length = 64 ∧
        encodeMap (skeleton "REGISTER" label tld identity.publicKey 0 now (add now termSeconds) records
          (some (requiredBits label.toList.length windowCount, nonce)) zeroHash ++ [(.text "sig", .bytes signature)]) =
          .ok bytes := by
  rw [buildRegister] at h
  simp only [Except.bind_eq_ok, Option.getD_none, Nat.lt_irrefl, if_false] at h
  obtain ⟨⟨⟩, hname, records, hrecords, h⟩ := h
  refine ⟨hname, records, ?_⟩
  rw [finishPowAndSign] at h
  cases hsolve : solve C (skeleton "REGISTER" label tld identity.publicKey 0 now (add now termSeconds) records
      (some (requiredBits label.toList.length windowCount, zeroNonce)) zeroHash)
      (requiredBits label.toList.length windowCount) limit with
  | error error => cases error <;> simp [hsolve] at h
  | ok nonce =>
    simp only [hsolve, setProof_skeleton] at h
    obtain ⟨signature, hlength, hencode⟩ := signed_members h
    exact ⟨nonce, signature, hrecords, length_solve hsolve, hlength, hencode⟩

/-- **What `build_update` returns.** -/
theorem update_members {identity : Identity C} {previous : Predecessor} {label tld : String} {now : ℕ}
    {entries : List Entry} {bytes : Bytes} (h : buildUpdate C identity previous label tld now entries = .ok bytes) :
    checkName label tld = .ok () ∧ ∃ records signature, entriesField entries = .ok records ∧ signature.length = 64 ∧
      encodeMap (skeleton "UPDATE" label tld identity.publicKey (add previous.seq 1) now previous.notAfter records none
        previous.hash ++ [(.text "sig", .bytes signature)]) = .ok bytes := by
  rw [buildUpdate] at h
  simp only [Except.bind_eq_ok] at h
  obtain ⟨⟨⟩, hname, ⟨⟩, -, records, hrecords, h⟩ := h
  obtain ⟨signature, hlength, hencode⟩ := signed_members h
  exact ⟨hname, records, signature, hrecords, hlength, hencode⟩

/-! ## The entries of what is built -/

/-- The wire form of a CID entry, in order. -/
def cidEntry (cid : Bytes) : Value :=
  .map [(.text "ttl", .uint defaultTtl), (.text "type", .text "cid"), (.text "value", .bytes cid)]

theorem entriesField_cid {cid : Bytes} {records : Value}
    (h : entriesField [{ value := .cid cid, ttl := none }] = .ok records) :
    1 ≤ cid.length ∧ cid.length ≤ 64 ∧ records = .array [.map [(.text "type", .text "cid"), (.text "value", .bytes cid),
      (.text "ttl", .uint defaultTtl)]] := by
  have hcounts : checkCounts [({ value := .cid cid, ttl := none } : Entry)].length
      ([({ value := .cid cid, ttl := none } : Entry)].filter Entry.isAlias).length = .ok () := rfl
  have hmany : ¬ [({ value := .cid cid, ttl := none } : Entry)].length > maxRecordEntries := by
    rw [List.length_singleton]
    decide
  rw [entriesField, if_neg hmany, hcounts] at h
  simp only [Except.ok_bind, List.mapM_cons, List.mapM_nil, validateTtl, Entry.toMap, EntryValue.typed] at h
  by_cases hbad : cid = [] ∨ cid.length > 64
  · simp [hbad] at h
  · rw [if_neg hbad] at h
    simp only [Except.ok_bind, Except.pure_eq_ok, Except.ok.injEq, Option.getD_none] at h
    rw [not_or] at hbad
    exact ⟨List.length_pos_iff.2 hbad.1, Nat.not_lt.1 hbad.2, h.symm⟩

theorem sorted_cidEntry (cid : Bytes) : (Value.array [.map [(.text "type", .text "cid"), (.text "value", .bytes cid),
    (.text "ttl", .uint defaultTtl)]]).sorted = .array [cidEntry cid] := by
  have htype : ∀ v w : Value, DetCbor.Before (.text "type", v) (.text "value", w) := fun _ _ => by
    show ¬ (Key.text "value").encode < (Key.text "type").encode
    decide
  have hvalue : ∀ v w : Value, ¬ DetCbor.Before (.text "value", v) (.text "ttl", w) := fun _ _ => by
    show ¬ ¬ (Key.text "ttl").encode < (Key.text "value").encode
    decide
  have httl : ∀ v w : Value, ¬ DetCbor.Before (.text "type", v) (.text "ttl", w) := fun _ _ => by
    show ¬ ¬ (Key.text "ttl").encode < (Key.text "type").encode
    decide
  have hsort : DetCbor.sortByKey [(.text "type", .text "cid"), (.text "value", .bytes cid),
    (.text "ttl", .uint defaultTtl)] =
      [(.text "ttl", .uint defaultTtl), (.text "type", .text "cid"), (.text "value", .bytes cid)] := by
    rw [DetCbor.sortByKey, List.insertionSort_cons, List.insertionSort_cons, List.insertionSort_cons,
      List.insertionSort_nil, List.orderedInsert_nil, List.orderedInsert_cons, if_neg (hvalue _ _),
      List.orderedInsert_nil, List.orderedInsert_cons, if_neg (httl _ _), List.orderedInsert_cons,
      if_pos (htype _ _)]
  rw [DetCbor.sorted_array, List.map_singleton, DetCbor.sorted_map, hsort]
  rfl

end VayuWeb.Client
