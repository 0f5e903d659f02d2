import VayuWeb.Proof.CborBuild
import VayuWeb.Spec.Messages

/-!
# What a peer encodes, another decodes

An encoder checks less than the decoder does: a root's width, how many entries a list has and how
long each is. A message that passes those too is read back.

* `Message.decode_encode_iff`, `BlockExchange.BlockMessage.decode_encode_iff`: when a message comes
  back as it was sent.
* `messages_return`: both protocols.
-/

namespace VayuWeb

open Bytes
open DetCbor (Key Value)

section

variable {ρ : Type}

/-- When a map is written. -/
theorem writeMap_eq_ok {map : CborMap} {bytes : Bytes} :
    (writeMap map : Except (Refusal ρ) Bytes) = .ok bytes ↔ encode (.map map) = .ok bytes := by
  rw [writeMap]
  cases encode (.map map) <;> simp [Except.mapError]

/-- When a size is taken. -/
theorem checkSize_eq_ok {tooLarge : ρ} {describe : ℕ → String} {bytes : Bytes} {limit : ℕ} :
    checkSize tooLarge describe bytes limit = .ok () ↔ bytes.length ≤ limit := by
  rw [checkSize]
  split_ifs with h
  · simp [h]
  · simpa using h

/-- A number that is there is read. -/
theorem readUint_of_get? {malformed : ρ} {map : CborMap} {key : String} {n : ℕ}
    (h : CborMap.get? map key = some (.number n)) : readUint malformed map key = .ok n := by
  rw [readUint, h]

end

/-! ## Fields of a message -/

/-- The entries of a map, each under a name. -/
def entries (fs : List (String × Value)) : List (Key × Value) := fs.map fun f => (.text f.1, f.2)

/-- A value that carries no byte order mark and no key twice. -/
structure Plain (v : Value) : Prop where
  bom : v.hasBom = false
  distinct : v.KeysDistinct

theorem plain_uint (n : ℕ) : Plain (.uint n) := by
  constructor
  · simp [Value.hasBom]
  · simp [Value.KeysDistinct]

theorem plain_bytes (b : Bytes) : Plain (.bytes b) := by
  constructor
  · simp [Value.hasBom]
  · simp [Value.KeysDistinct]

theorem plain_text {s : String} (h : DetCbor.startsWithBom s = false) : Plain (.text s) := by
  constructor
  · simpa [Value.hasBom] using h
  · simp [Value.KeysDistinct]

/-- An array of plain values is plain. -/
theorem plain_array {xs : List Value} (h : ∀ x ∈ xs, Plain x) : Plain (.array xs) where
  bom := hasBom_array.2 fun x hx => (h x hx).bom
  distinct := by
    rw [Value.KeysDistinct, DetCbor.itemsKeysDistinct_iff]
    exact fun x hx => (h x hx).distinct

/-- The fields of a message: names that differ, values that are plain, and the type among them. -/
structure Fields (type : String) (fs : List (String × Value)) : Prop where
  names : (fs.map Prod.fst).Nodup
  unmarked : ∀ name ∈ fs.map Prod.fst, DetCbor.startsWithBom name = false
  plain : ∀ f ∈ fs, Plain f.2
  typed : ("t", .text type) ∈ fs

namespace Fields

variable {type : String} {fs : List (String × Value)} {bytes : Bytes}

theorem nodup (h : Fields type fs) : ((entries fs).map Prod.fst).Nodup := by
  have hkeys : (entries fs).map Prod.fst = (fs.map Prod.fst).map Key.text := by
    rw [entries, List.map_map, List.map_map]
    rfl
  rw [hkeys]
  refine h.names.map ?_
  intro a b hab
  exact Key.text.inj hab

/-- The fields of a message are plain. -/
theorem plainMap (h : Fields type fs) : Plain (.map (entries fs)) where
  bom := by
    rw [hasBom_map]
    intro e he
    obtain ⟨f, hf, rfl⟩ := List.mem_map.1 he
    have hname := h.unmarked f.1 (List.mem_map_of_mem hf)
    exact ⟨by simpa [Key.toValue, Value.hasBom] using hname, (h.plain f hf).bom⟩
  distinct := by
    rw [Value.KeysDistinct, DetCbor.entriesKeysDistinct_iff]
    refine ⟨h.nodup, ?_⟩
    intro e he
    obtain ⟨f, hf, rfl⟩ := List.mem_map.1 he
    exact (h.plain f hf).distinct

/-- **The map of a message is read back**, and every field of it is found. -/
theorem readMap {ρ : Type} {nonCanonical malformed : ρ} (hfs : Fields type fs)
    (h : encode (.map (built (entries fs))) = .ok bytes) :
    ∃ m, VayuWeb.readMap nonCanonical malformed bytes = .ok (m, type) ∧
      ∀ name v, (name, v) ∈ fs → CborMap.get? m name = some (ofWire v.sorted) := by
  obtain ⟨m, hm, hget⟩ := get?_sorted hfs.plainMap.bom hfs.nodup
  have hfield : ∀ name v, (name, v) ∈ fs → CborMap.get? m name = some (ofWire v.sorted) := by
    intro name v hmem
    exact hget name v (List.mem_map.2 ⟨(name, v), hmem, rfl⟩)
  have htext : ofWire (Value.text type).sorted = .text type := by
    have hbom := (hfs.plain _ hfs.typed).bom
    rw [Value.hasBom] at hbom
    simp [Value.sorted, ofWire, dropBom_of_not hbom]
  refine ⟨m, ?_, hfield⟩
  rw [VayuWeb.readMap, decode_of_encode hfs.plainMap.bom hfs.plainMap.distinct h, hm]
  simp only [hfield "t" _ hfs.typed, htext]

end Fields

/-- A list of byte strings. -/
def byteStrings (xs : List Bytes) : Value := .array (xs.map .bytes)

theorem plain_byteStrings (xs : List Bytes) : Plain (byteStrings xs) := by
  refine plain_array ?_
  intro x hx
  obtain ⟨bytes, -, rfl⟩ := List.mem_map.1 hx
  exact plain_bytes bytes

theorem ofWire_byteStrings (xs : List Bytes) : ofWire (byteStrings xs) = .array (xs.map .bytes) := by
  rw [byteStrings, ofWire, ofWireItems_eq_map, List.map_map]
  refine congrArg CborValue.array (List.map_congr_left fun x _ => ?_)
  rw [Function.comp_apply, ofWire]

theorem sorted_byteStrings (xs : List Bytes) : (byteStrings xs).sorted = byteStrings xs := by
  rw [byteStrings, DetCbor.sorted_array, List.map_map]
  refine congrArg Value.array (List.map_congr_left fun x _ => ?_)
  rw [Function.comp_apply, Value.sorted]
  all_goals simp

theorem ofWire_uint {n : ℕ} (h : n ≤ maxSafeInteger) : ofWire (.uint n) = .number n := by
  rw [ofWire, if_pos h]

theorem ofWire_text {s : String} (h : DetCbor.startsWithBom s = false) : ofWire (.text s) = .text s := by
  rw [ofWire, dropBom_of_not h]

theorem ofWire_bytes (b : Bytes) : ofWire (.bytes b) = .bytes b := by
  rw [ofWire]

/-! ## Replication -/

namespace Message

/-- Every number of the message is one that JavaScript counts exactly. -/
def Safe : Message → Prop
  | .hello v len _ => v ≤ maxSafeInteger ∧ len ≤ maxSafeInteger
  | .want from_ count => from_ ≤ maxSafeInteger ∧ count ≤ maxSafeInteger
  | .records from_ _ => from_ ≤ maxSafeInteger
  | .checkpoint len _ _ liveNames => len ≤ maxSafeInteger ∧ liveNames ≤ maxSafeInteger
  | .equivocation _ _ => True

/-- The roots of the message are 32 bytes, and a batch is within its limit. -/
def Receivable : Message → Prop
  | .hello _ _ root => root.length = 32
  | .records _ recs => recs.length ≤ limitRecordsPerBatch
  | .checkpoint _ treeRoot indexRoot _ => treeRoot.length = 32 ∧ indexRoot.length = 32
  | .want _ _ | .equivocation _ _ => True

/-- The `t` of a message. -/
def type : Message → String
  | .hello _ _ _ => "HELLO"
  | .want _ _ => "WANT"
  | .records _ _ => "RECORDS"
  | .checkpoint _ _ _ _ => "CHECKPOINT"
  | .equivocation _ _ => "EQUIVOCATION"

/-- The message's fields after its type. -/
def body : Message → List (String × Value)
  | .hello v len root => [("v", .uint v), ("len", .uint len), ("root", .bytes root)]
  | .want from_ count => [("from", .uint from_), ("count", .uint count)]
  | .records from_ recs => [("from", .uint from_), ("recs", byteStrings recs)]
  | .checkpoint len treeRoot indexRoot liveNames =>
    [("len", .uint len), ("treeRoot", .bytes treeRoot), ("indexRoot", .bytes indexRoot), ("liveNames", .uint liveNames)]
  | .equivocation a b => [("a", .bytes a), ("b", .bytes b)]

/-- The fields of a message, its type first. -/
def fields (m : Message) : List (String × Value) := ("t", .text m.type) :: m.body

theorem unmarked_type (m : Message) : DetCbor.startsWithBom m.type = false := by
  cases m <;> simp only [type] <;> decide

/-- The map of a message is built from its fields. -/
theorem toMap_eq {m : Message} (h : m.Safe) : m.toMap = built (entries m.fields) := by
  rw [fields, entries, built, List.map_cons, List.map_cons, ofWire_text m.unmarked_type]
  cases m with
  | hello v len root => simp only [toMap, type, body, List.map_cons, List.map_nil, ofWire_uint h.1, ofWire_uint h.2,
      ofWire_bytes]
  | want from_ count => simp only [toMap, type, body, List.map_cons, List.map_nil, ofWire_uint h.1, ofWire_uint h.2]
  | records from_ recs =>
    have hfrom : from_ ≤ maxSafeInteger := h
    simp only [toMap, type, body, List.map_cons, List.map_nil, ofWire_uint hfrom, ofWire_byteStrings]
  | checkpoint len treeRoot indexRoot liveNames =>
    simp only [toMap, type, body, List.map_cons, List.map_nil, ofWire_uint h.1, ofWire_uint h.2, ofWire_bytes]
  | equivocation a b => simp only [toMap, type, body, List.map_cons, List.map_nil, ofWire_bytes]

theorem fields_ok (m : Message) : Fields m.type m.fields where
  names := by cases m <;> simp [fields, body]
  unmarked := by
    cases m <;> simp only [fields, body, List.map_cons, List.map_nil, List.forall_mem_cons] <;> simp <;> decide
  plain := by
    rw [fields, List.forall_mem_cons]
    refine ⟨plain_text m.unmarked_type, ?_⟩
    cases m <;> simp [body, plain_uint, plain_bytes, plain_byteStrings]
  typed := List.mem_cons_self

/-- What an encoder wrote is within the size, and its map is read back. -/
theorem readMap_of_encode {m : Message} {bytes : Bytes} (hsafe : m.Safe) (h : encodeMessage m = .ok bytes) :
    bytes.length ≤ limitMessageBytes ∧
      ∃ map, readMap ReplicationRejection.nonCanonical .malformed bytes = .ok (map, m.type) ∧
        ∀ name v, (name, v) ∈ m.fields → CborMap.get? map name = some (ofWire v.sorted) := by
  rw [encodeMessage, Except.bind_eq_ok] at h
  obtain ⟨written, hwrite, h⟩ := h
  obtain ⟨_, hsize, h⟩ := Except.bind_eq_ok.1 h
  have hwritten : written = bytes := Except.ok.inj h
  rw [hwritten] at hsize hwrite
  rw [writeMap_eq_ok, toMap_eq hsafe] at hwrite
  exact ⟨checkSize_eq_ok.1 hsize, m.fields_ok.readMap hwrite⟩

theorem uint_of_get? {map : CborMap} {key : String} {n : ℕ} (hn : n ≤ maxSafeInteger)
    (h : CborMap.get? map key = some (ofWire (Value.uint n).sorted)) : uint map key = .ok n := by
  rw [Value.sorted, ofWire_uint hn] at h
  · exact readUint_of_get? h
  all_goals simp

theorem bstr_of_get? {map : CborMap} {key : String} {b : Bytes}
    (h : CborMap.get? map key = some (ofWire (Value.bytes b).sorted)) : bstr map key none = .ok b := by
  rw [Value.sorted, ofWire_bytes] at h
  · rw [bstr, h]
  all_goals simp

/-- A byte string of a fixed width is read exactly when it has it. -/
theorem bstr_fixed {map : CborMap} {key : String} {b : Bytes}
    (h : CborMap.get? map key = some (ofWire (Value.bytes b).sorted)) (n : ℕ) :
    (b.length = n → bstr map key (some n) = .ok b) ∧ (b.length ≠ n → ∃ e, bstr map key (some n) = .error e) := by
  rw [Value.sorted, ofWire_bytes] at h
  · rw [bstr, h]
    exact ⟨fun hn => if_neg (not_not.2 hn), fun hn => ⟨_, if_pos hn⟩⟩
  all_goals simp

theorem recordEntries (recs : List Bytes) : recs.mapM (recordEntry ∘ CborValue.bytes) = .ok recs := by
  rw [Except.mapM_eq_ok, List.forall₂_same]
  exact fun _ _ => rfl

/-- **A message comes back as it was sent** exactly when its roots and its batch are what the
decoder takes. -/
theorem decode_encode_iff {m : Message} {bytes : Bytes} (hsafe : m.Safe) (h : encodeMessage m = .ok bytes) :
    decodeMessage bytes = .ok m ↔ m.Receivable := by
  obtain ⟨hsize, map, hread, hget⟩ := readMap_of_encode hsafe h
  rw [decodeMessage, checkSize_eq_ok.2 hsize, Except.ok_bind, hread, Except.ok_bind]
  -- for each type the decoder reads the members that the encoder wrote, within its own bounds
  cases m with
  | hello v len root =>
    have hv := uint_of_get? hsafe.1 (hget "v" _ (by simp [fields, body]))
    have hlen := uint_of_get? hsafe.2 (hget "len" _ (by simp [fields, body]))
    have hroot := bstr_fixed (hget "root" (.bytes root) (by simp [fields, body])) 32
    by_cases hwidth : root.length = 32
    · simp [type, hv, hlen, hroot.1 hwidth, Receivable, hwidth]
    · obtain ⟨e, he⟩ := hroot.2 hwidth
      simp [type, hv, hlen, he, Receivable, hwidth]
  | want from_ count =>
    have hfrom := uint_of_get? hsafe.1 (hget "from" _ (by simp [fields, body]))
    have hcount := uint_of_get? hsafe.2 (hget "count" _ (by simp [fields, body]))
    simp [type, hfrom, hcount, Receivable]
  | records from_ recs =>
    have hfrom := uint_of_get? hsafe (hget "from" _ (by simp [fields, body]))
    have hrecs := hget "recs" (byteStrings recs) (by simp [fields, body])
    rw [sorted_byteStrings, ofWire_byteStrings] at hrecs
    by_cases hcount : limitRecordsPerBatch < recs.length
    · simp [type, hrecs, Receivable, hcount]
    · simp [type, hfrom, hrecs, recordEntries, Receivable, hcount, Nat.le_of_not_lt hcount]
  | checkpoint len treeRoot indexRoot liveNames =>
    have hlen := uint_of_get? hsafe.1 (hget "len" _ (by simp [fields, body]))
    have hlive := uint_of_get? hsafe.2 (hget "liveNames" _ (by simp [fields, body]))
    have htree := bstr_fixed (hget "treeRoot" (.bytes treeRoot) (by simp [fields, body])) 32
    have hindex := bstr_fixed (hget "indexRoot" (.bytes indexRoot) (by simp [fields, body])) 32
    by_cases hwidth : treeRoot.length = 32
    · by_cases hwidth' : indexRoot.length = 32
      · simp [type, hlen, hlive, htree.1 hwidth, hindex.1 hwidth', Receivable, hwidth, hwidth']
      · obtain ⟨e, he⟩ := hindex.2 hwidth'
        simp [type, hlen, htree.1 hwidth, he, Receivable, hwidth']
    · obtain ⟨e, he⟩ := htree.2 hwidth
      simp [type, hlen, he, Receivable, hwidth]
  | equivocation a b =>
    have ha := bstr_of_get? (hget "a" (.bytes a) (by simp [fields, body]))
    have hb := bstr_of_get? (hget "b" (.bytes b) (by simp [fields, body]))
    simp [type, ha, hb, Receivable]

end Message

/-! ## Block exchange -/

namespace BlockExchange

namespace BlockMessage

/-- Every number of the message is one that JavaScript counts exactly. -/
def Safe : BlockMessage → Prop
  | .bhello v max => v ≤ maxSafeInteger ∧ max ≤ maxSafeInteger
  | .bwant _ | .blocks _ | .bdone _ => True

/-- The lists of the message are within their limits, and so is each entry. -/
def Receivable : BlockMessage → Prop
  | .bhello _ _ => True
  | .bwant cids | .bdone cids => cids.length ≤ limitWantCids ∧ ∀ cid ∈ cids, cid.length ≤ limitCidBytes
  | .blocks blks => blks.length ≤ limitBlocksPerMessage ∧ ∀ block ∈ blks, block.length ≤ limitBlockBytes

/-- The `t` of a block message. -/
def type : BlockMessage → String
  | .bhello _ _ => "BHELLO"
  | .bwant _ => "BWANT"
  | .blocks _ => "BLOCKS"
  | .bdone _ => "BDONE"

/-- The message's fields after its type. -/
def body : BlockMessage → List (String × Value)
  | .bhello v max => [("v", .uint v), ("max", .uint max)]
  | .bwant cids | .bdone cids => [("cids", byteStrings cids)]
  | .blocks blks => [("blks", byteStrings blks)]

/-- The fields of a block message, its type first. -/
def fields (m : BlockMessage) : List (String × Value) := ("t", .text m.type) :: m.body

theorem unmarked_type (m : BlockMessage) : DetCbor.startsWithBom m.type = false := by
  cases m <;> simp only [type] <;> decide

theorem toMap_eq {m : BlockMessage} (h : m.Safe) : m.toMap = built (entries m.fields) := by
  rw [fields, entries, built, List.map_cons, List.map_cons, ofWire_text m.unmarked_type]
  cases m with
  | bhello v max => simp only [toMap, type, body, List.map_cons, List.map_nil, ofWire_uint h.1, ofWire_uint h.2]
  | bwant cids => simp only [toMap, type, body, List.map_cons, List.map_nil, ofWire_byteStrings]
  | blocks blks => simp only [toMap, type, body, List.map_cons, List.map_nil, ofWire_byteStrings]
  | bdone cids => simp only [toMap, type, body, List.map_cons, List.map_nil, ofWire_byteStrings]

theorem fields_ok (m : BlockMessage) : Fields m.type m.fields where
  names := by cases m <;> simp [fields, body]
  unmarked := by
    cases m <;> simp only [fields, body, List.map_cons, List.map_nil, List.forall_mem_cons] <;> simp <;> decide
  plain := by
    rw [fields, List.forall_mem_cons]
    refine ⟨plain_text m.unmarked_type, ?_⟩
    cases m <;> simp [body, plain_uint, plain_byteStrings]
  typed := List.mem_cons_self

/-- What was encoded is read back with all its fields. -/
theorem readMap_of_encode {m : BlockMessage} {bytes : Bytes} (hsafe : m.Safe) (h : encodeBlockMessage m = .ok bytes) :
    bytes.length ≤ BlockExchange.limitMessageBytes ∧
      ∃ map, readMap BlockExchangeRejection.nonCanonical .malformed bytes = .ok (map, m.type) ∧
        ∀ name v, (name, v) ∈ m.fields → CborMap.get? map name = some (ofWire v.sorted) := by
  rw [encodeBlockMessage, Except.bind_eq_ok] at h
  obtain ⟨-, -, h⟩ := h
  obtain ⟨written, hwrite, h⟩ := Except.bind_eq_ok.1 h
  obtain ⟨_, hsize, h⟩ := Except.bind_eq_ok.1 h
  have hwritten : written = bytes := Except.ok.inj h
  rw [hwritten] at hsize hwrite
  rw [writeMap_eq_ok, toMap_eq hsafe] at hwrite
  exact ⟨checkSize_eq_ok.1 hsize, m.fields_ok.readMap hwrite⟩

/-- A list of byte strings is read exactly when it is within both limits. -/
theorem bstrArray_iff {map : CborMap} {key : String} {xs : List Bytes} {limit each : ℕ}
    (h : CborMap.get? map key = some (ofWire (byteStrings xs).sorted)) :
    bstrArray map key limit each = .ok xs ↔ xs.length ≤ limit ∧ ∀ x ∈ xs, x.length ≤ each := by
  rw [sorted_byteStrings, ofWire_byteStrings] at h
  simp only [bstrArray, h, List.length_map]
  split_ifs with hlimit
  · simp only [false_iff, not_and]
    omega
  · rw [Except.mapM_eq_ok, List.forall₂_map_left_iff, List.forall₂_same]
    refine ⟨fun hall => ⟨by omega, fun x hx => ?_⟩, fun hall x hx => ?_⟩
    · have hx' := hall x hx
      rw [bstrEntry] at hx'
      split_ifs at hx' with heach
      omega
    · have hx' := hall.2 x hx
      exact if_neg (by omega)

/-- **A message comes back as it was sent** exactly when its lists are within the limits. -/
theorem decode_encode_iff {m : BlockMessage} {bytes : Bytes} (hsafe : m.Safe) (h : encodeBlockMessage m = .ok bytes) :
    decodeBlockMessage bytes = .ok m ↔ m.Receivable := by
  obtain ⟨hsize, map, hread, hget⟩ := readMap_of_encode hsafe h
  have hcheck : checkMessageSize bytes = .ok () := checkSize_eq_ok.2 hsize
  rw [decodeBlockMessage, hcheck, Except.ok_bind, hread, Except.ok_bind]
  cases m with
  | bhello v max =>
    have hv := hget "v" (.uint v) (by simp [fields, body])
    have hmax := hget "max" (.uint max) (by simp [fields, body])
    simp only [Value.sorted, ofWire_uint hsafe.1, ofWire_uint hsafe.2] at hv hmax
    simp [type, uint, readUint_of_get? hv, readUint_of_get? hmax, Receivable]
  | bwant cids =>
    rw [Receivable, ← bstrArray_iff (hget "cids" _ (by simp [fields, body]))]
    cases hcids : bstrArray map "cids" limitWantCids limitCidBytes <;> simp [type, hcids]
  | blocks blks =>
    rw [Receivable, ← bstrArray_iff (hget "blks" _ (by simp [fields, body]))]
    cases hblks : bstrArray map "blks" limitBlocksPerMessage limitBlockBytes <;> simp [type, hblks]
  | bdone cids =>
    rw [Receivable, ← bstrArray_iff (hget "cids" _ (by simp [fields, body]))]
    cases hcids : bstrArray map "cids" limitWantCids limitCidBytes <;> simp [type, hcids]

end BlockMessage

end BlockExchange

/-! ## Both protocols -/

/-- **Exactly the messages that a receiver takes come back as they were sent**, in both protocols. -/
theorem messages_return (m : Message) (m' : BlockExchange.BlockMessage) (bytes : Bytes) :
    (m.Safe → encodeMessage m = .ok bytes → (decodeMessage bytes = .ok m ↔ m.Receivable)) ∧
    (m'.Safe → BlockExchange.encodeBlockMessage m' = .ok bytes →
      (BlockExchange.decodeBlockMessage bytes = .ok m' ↔ m'.Receivable)) :=
  ⟨Message.decode_encode_iff, BlockExchange.BlockMessage.decode_encode_iff⟩

theorem messages_return_two_messages :
    (∃ bytes, encodeMessage (.want 7 256) = .ok bytes ∧ decodeMessage bytes = .ok (.want 7 256)) ∧
    ∃ bytes, BlockExchange.encodeBlockMessage (.bwant [[1], [2]]) = .ok bytes ∧
      BlockExchange.decodeBlockMessage bytes = .ok (.bwant [[1], [2]]) := by
  have hwant : Message.Safe (.want 7 256) := by
    constructor <;> decide
  have hbwant : BlockExchange.BlockMessage.Safe (.bwant [[1], [2]]) := trivial
  have hreceivable : BlockExchange.BlockMessage.Receivable (.bwant [[1], [2]]) := by
    constructor <;> decide
  exact ⟨⟨_, rfl, ((messages_return (.want 7 256) (.bwant []) _).1 hwant rfl).2 trivial⟩,
    ⟨_, rfl, ((messages_return (.want 0 0) (.bwant [[1], [2]]) _).2 hbwant rfl).2 hreceivable⟩⟩

/-- **A request for a 65-byte identifier, and an empty root**: both are sent, and neither is
received. -/
theorem not_messages_return :
    (∃ bytes, BlockExchange.encodeBlockMessage (.bwant [List.replicate 65 0]) = .ok bytes ∧
      (BlockExchange.decodeBlockMessage bytes).toOption = none) ∧
    ∃ bytes, encodeMessage (.hello 1 0 []) = .ok bytes ∧ (decodeMessage bytes).toOption = none :=
  ⟨⟨_, rfl, by decide +kernel⟩, ⟨_, rfl, by decide +kernel⟩⟩

end VayuWeb
