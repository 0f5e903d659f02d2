import VayuWeb.Client.Replicate
import VayuWeb.Proof.BlockCodecs
import VayuWeb.Proof.ClientBuild

/-!
# The two codecs of replication

Both decoders put a message together from the fields of one map. The registry drops byte order marks from keys and
text, and counts to 2^53 - 1.

* `registry_decode`, `client_decode`: each decoder is the judge of its own reading of the map.
* `judge_message`: a reading that has the fields of a message.
* `replication_codecs_agree`: when the encoders agree, what each decoder makes of what the client wrote, and bytes on
  which the decoders agree.
-/

namespace VayuWeb.ReplicateCodecs

open DetCbor (Key Value)
open BlockCodecs (Reading plain marked plain_value marked_value registryClass registry_type registry_number
  registry_items client_number client_items mapError_bind values_of_encode byteStrings_fit)

variable {es : List (Key × Value)} {top : ℕ} {type key : String} {m : Message} {b : Bytes}

/-! ## A message from its fields -/

section

variable {ε ε' : Type}

/-- How a decoder puts a message together, from what it reads under a name. -/
def assemble (numberAt : String → Except ε ℕ) (bytesAt : String → Option ℕ → Except ε Bytes)
    (batch : Except ε (List Bytes))
    (unknown : ε) (type : String) : Except ε Message :=
  if type = "HELLO" then do return .hello (← numberAt "v") (← numberAt "len") (← bytesAt "root" (some 32))
  else if type = "WANT" then do return .want (← numberAt "from") (← numberAt "count")
  else if type = "RECORDS" then do
    let recs ← batch
    return .records (← numberAt "from") recs
  else if type = "CHECKPOINT" then do
    return .checkpoint (← numberAt "len") (← bytesAt "treeRoot" (some 32)) (← bytesAt "indexRoot" (some 32))
      (← numberAt "liveNames")
  else if type = "EQUIVOCATION" then do return .equivocation (← bytesAt "a" none) (← bytesAt "b" none)
  else .error unknown

variable {numberAt : String → Except ε ℕ} {bytesAt : String → Option ℕ → Except ε Bytes} {batch : Except ε (List Bytes)}
  {unknown : ε}

theorem mapError_assemble (g : ε → ε') : (assemble numberAt bytesAt batch unknown type).mapError g =
    assemble (fun key => (numberAt key).mapError g) (fun key width => (bytesAt key width).mapError g) (batch.mapError g)
      (g unknown) type := by
  unfold assemble
  split_ifs
  · simp only [mapError_bind]
    rfl
  · simp only [mapError_bind]
    rfl
  · simp only [mapError_bind]
    rfl
  · simp only [mapError_bind]
    rfl
  · simp only [mapError_bind]
    rfl
  · rfl

end

/-- The number under a name. -/
def number (top : ℕ) (f : Reading) (key : String) : Except ReplicationRejection ℕ := f.number .malformed top key

/-- The byte string under a name, of the length that is asked for. -/
def bytes (f : Reading) (key : String) (width : Option ℕ) : Except ReplicationRejection Bytes :=
  match f.value key with
  | some (.bytes bytes) => if ∀ n ∈ width, bytes.length = n then .ok bytes else .error .malformed
  | _ => .error .malformed

/-- One record of a batch. -/
def entry : Value → Except ReplicationRejection Bytes
  | .bytes bytes => .ok bytes
  | _ => .error .malformed

/-- The records of a batch. -/
def batch (f : Reading) : Except ReplicationRejection (List Bytes) :=
  f.items .malformed .limitExceeded "recs" 256 entry

/-- What a decoder that counts to `top` makes of a reading. -/
def judge (top : ℕ) (f : Reading) : Except ReplicationRejection Message :=
  match f.type with
  | none => .error .malformed
  | some type => assemble (number top f) (bytes f) (batch f) .unknownType type

/-! ## The decoders -/

/-- The class of a client's refusal. -/
def clientClass : Client.Replicate.ReplicationError → Option ReplicationRejection
  | .tooLarge _ => some .tooLarge
  | .nonCanonical _ => some .nonCanonical
  | .malformed _ => some .malformed
  | .unknownType _ => some .unknownType
  | .limitExceeded _ => some .limitExceeded

/-- A decoder that judges the entries of the map it parses. -/
def outcome (read : List (Key × Value) → Except ReplicationRejection Message) (b : Bytes) :
    Except (Option ReplicationRejection) Message :=
  if b.length > 65536 then .error (some .tooLarge)
  else
    match DetCbor.parse 33 b with
    | none => .error (some .nonCanonical)
    | some (.map es) => (read es).mapError some
    | some _ => .error (some .malformed)

theorem registry_numbers (key : String) : (uint (ofWireEntries [] es) key).mapError registryClass =
    (number maxSafeInteger (marked es) key).mapError some :=
  registry_number

theorem registry_bytes (key : String) (width : Option ℕ) : (bstr (ofWireEntries [] es) key width).mapError
    registryClass =
    (bytes (marked es) key width).mapError some := by
  rw [bstr, get?_ofWireEntries, bytes, marked_value]
  cases lastNamed es key with
  | none => rfl
  | some w =>
    cases w with
    | bytes b =>
      simp only [Option.map_some, Option.some_or, ofWire]
      cases width with
      | none => rfl
      | some n =>
        by_cases hn : b.length = n
        · simp [hn, Except.mapError]
        · simp [hn, Except.mapError, registryClass]
    | uint n =>
      simp only [Option.map_some, Option.some_or, ofWire]
      split_ifs <;> rfl
    | _ => simp [ofWire, registryClass, Except.mapError]

theorem registry_entry (x : Value) :
    (recordEntry (ofWire x)).mapError registryClass = (entry x).mapError some := by
  cases x with
  | uint n =>
    rw [ofWire]
    split_ifs <;> rfl
  | _ => simp [ofWire, recordEntry, entry, registryClass, Except.mapError]

/-- The batch that the registry reads. -/
def registryBatch (map : CborMap) : Except ReplicationError (List Bytes) :=
  match CborMap.get? map "recs" with
  | some (.array recs) =>
    if recs.length > limitRecordsPerBatch then
      .error (.refused .limitExceeded s!"batch of {recs.length} exceeds the {limitRecordsPerBatch} limit")
    else recs.mapM recordEntry
  | _ => .error (.refused .malformed "recs must be an array")

/-- The registry reads a batch as the shared reading does. -/
theorem registry_batch :
    (registryBatch (ofWireEntries [] es)).mapError registryClass = (batch (marked es)).mapError some :=
  registry_items (fun n => s!"batch of {n} exceeds the {limitRecordsPerBatch} limit") registry_entry

/-- The registry puts a message together from the fields of its map. -/
theorem registry_assemble (map : CborMap) (type : String)
    (hread : readMap ReplicationRejection.nonCanonical .malformed b =
    .ok (map, type)) (hsize : ¬ b.length > 65536) : decodeMessage b = assemble (uint map) (bstr map) (registryBatch map)
      (.refused .unknownType s!"unknown message type {Content.jsonString type}") type := by
  unfold decodeMessage checkSize limitMessageBytes
  rw [if_neg hsize, Except.ok_bind, hread, Except.ok_bind]
  have hrecords : (match CborMap.get? map "recs" with
      | some (.array recs) => do
        if recs.length > limitRecordsPerBatch then
          throw (.refused .limitExceeded s!"batch of {recs.length} exceeds the {limitRecordsPerBatch} limit")
        let out ← recs.mapM recordEntry
        return .records (← uint map "from") out
      | _ => throw (.refused .malformed "recs must be an array")) =
      (do
        let recs ← registryBatch map
        return .records (← uint map "from") recs : Except ReplicationError Message) := by
    unfold registryBatch
    cases CborMap.get? map "recs" with
    | none => rfl
    | some v =>
      cases v with
      | array recs =>
        dsimp only
        split_ifs <;> rfl
      | _ => rfl
  unfold assemble
  rw [← hrecords]
  rfl

/-- **The registry judges the marked reading.** -/
theorem registry_decode (b : Bytes) : (decodeMessage b).mapError registryClass =
    outcome (fun es => judge maxSafeInteger (marked es)) b := by
  unfold outcome
  by_cases hsize : b.length > 65536
  · rw [if_pos hsize, decodeMessage, checkSize, limitMessageBytes, if_pos hsize]
    rfl
  rw [if_neg hsize]
  -- an error of `readMap` is the answer of the whole decoder
  have hstops : ∀ e, readMap ReplicationRejection.nonCanonical .malformed b = .error e →
      decodeMessage b = .error e := by
    intro e hread
    rw [decodeMessage, checkSize, limitMessageBytes, if_neg hsize, Except.ok_bind, hread]
    rfl
  -- what the wire parser reads decides what the registry's own decoder reads
  cases hparse : DetCbor.parse 33 b with
  | none =>
    cases hdecode : decode b with
    | error e =>
      rw [hstops _ (by rw [readMap, hdecode])]
      rfl
    | ok v =>
      obtain ⟨w, hw, -⟩ := decode_eq_ok.1 hdecode
      rw [hparse] at hw
      exact absurd hw (by simp)
  | some w =>
    cases w with
    | map es =>
      have hread := registry_type ReplicationRejection.nonCanonical .malformed hparse
      cases htype : (marked es).type with
      | none =>
        rw [htype] at hread
        rw [hstops _ hread]
        simp only [judge, htype]
        rfl
      | some type =>
        rw [htype] at hread
        rw [registry_assemble _ _ hread hsize, mapError_assemble]
        simp only [judge, htype, mapError_assemble, registry_numbers, registry_bytes, registry_batch]
        rfl
    -- a number is a number or, above 2^53 - 1, a bigint, and neither is a map
    | uint n =>
      have hread : readMap ReplicationRejection.nonCanonical .malformed b =
          .error (.refused .malformed "message is not a map") := by
        rw [readMap, decode_eq_ok.2 ⟨.uint n, hparse, rfl⟩, ofWire]
        split_ifs <;> rfl
      rw [hstops _ hread]
      rfl
    | _ =>
      have hread : readMap ReplicationRejection.nonCanonical .malformed b =
          .error (.refused .malformed "message is not a map") := by
        rw [readMap, decode_eq_ok.2 ⟨_, hparse, rfl⟩]
        simp [ofWire]
      rw [hstops _ hread]
      rfl

theorem client_numbers (hcanonical : DetCbor.Canonical 33 (.map es)) (key : String) :
    (Client.Replicate.uintField es key).mapError clientClass = (number (2 ^ 64 - 1) (plain es) key).mapError some :=
  client_number hcanonical rfl rfl

theorem client_bytes (key : String) (width : Option ℕ) : (Client.Replicate.bstrField es key width).mapError
    clientClass =
    (bytes (plain es) key width).mapError some := by
  rw [Client.Replicate.bstrField, bytes, plain_value]
  cases Client.field es key with
  | none => rfl
  | some w =>
    cases w with
    | bytes b =>
      cases width with
      | none => rfl
      | some n =>
        by_cases hn : b.length = n
        · simp [hn, Except.mapError]
        · simp [hn, Except.mapError, clientClass]
    | _ => rfl

theorem client_entry (x : Value) : (Client.Replicate.recordEntry x).mapError clientClass = (entry x).mapError some := by
  cases x <;> rfl

/-- The client reads a batch as the shared reading does. -/
theorem client_batch : (Client.Replicate.batchOf es).mapError clientClass = (batch (plain es)).mapError some := by
  rw [batch, ← client_items (.malformed "recs is required") (.malformed "recs must be an array")
    (fun n => .limitExceeded s!"batch of {n} exceeds the {Client.Replicate.recordsPerBatch} limit") client_entry
    rfl rfl fun _ => rfl]
  rfl

/-- The client judges a message as the shared reading does. -/
theorem client_messageOf (hcanonical : DetCbor.Canonical 33 (.map es)) (htype : (plain es).type = some type) :
    (Client.Replicate.messageOf es type).mapError clientClass = (judge (2 ^ 64 - 1) (plain es)).mapError some := by
  have hassemble : Client.Replicate.messageOf es type = assemble (Client.Replicate.uintField es)
      (Client.Replicate.bstrField es) (Client.Replicate.batchOf es) (.unknownType type) type := rfl
  rw [hassemble]
  simp only [judge, htype, mapError_assemble, client_numbers hcanonical, client_bytes, client_batch]
  rfl

/-- **The client judges the plain reading.** -/
theorem client_decode (b : Bytes) : (Client.Replicate.decodeMessage b).mapError clientClass =
    outcome (fun es => judge (2 ^ 64 - 1) (plain es)) b := by
  unfold outcome
  by_cases hsize : b.length > 65536
  · rw [if_pos hsize, Client.Replicate.decodeMessage, Client.Replicate.messageBytes, if_pos hsize]
    rfl
  rw [if_neg hsize]
  cases hparse : DetCbor.parse 33 b with
  | none =>
    cases hdecode : Client.decode b with
    | error e =>
      rw [Client.Replicate.decodeMessage, Client.Replicate.messageBytes, if_neg hsize, hdecode]
      rfl
    | ok v =>
      have hw := DetCbor.parse_eq_some.2 (Client.decode_eq_ok.1 hdecode)
      rw [show Client.maxDepth + 1 = 33 from rfl, hparse] at hw
      exact absurd hw (by simp)
  | some w =>
    have hcanonical := DetCbor.parse_eq_some.1 hparse
    have hdecode : Client.decode b = .ok w := Client.decode_eq_ok.2 hcanonical
    rw [Client.Replicate.decodeMessage, Client.Replicate.messageBytes, if_neg hsize, hdecode, Except.mapError]
    simp only [Except.ok_bind, Client.encode_of_decode hdecode, Except.mapError, ne_eq, not_true_eq_false, if_false]
    cases w with
    | map es =>
      simp only
      cases htype : Client.Blockx.typeText es with
      | none =>
        have huntyped : (plain es).type = none := htype
        simp only [judge, huntyped]
        rfl
      | some type => exact client_messageOf hcanonical.1 htype
    | _ => rfl

/-! ## A reading that has the fields of a message -/

/-- No number of the message is above `top`. -/
def Counted (top : ℕ) : Message → Prop
  | .hello v len _ => v ≤ top ∧ len ≤ top
  | .want from_ count => from_ ≤ top ∧ count ≤ top
  | .records from_ _ => from_ ≤ top
  | .checkpoint len _ _ liveNames => len ≤ top ∧ liveNames ≤ top
  | .equivocation _ _ => True

/-- Counts within the safe integers are safe. -/
theorem counted_iff_safe : Counted maxSafeInteger m ↔ m.Safe := by cases m <;> rfl

theorem number_of_value (top : ℕ) {f : Reading} {n : ℕ} (h : f.value key = some (.uint n)) :
    number top f key = if n ≤ top then .ok n else .error .malformed := by
  rw [number, Reading.number, h]

theorem bytes_of_value {f : Reading} {b : Bytes} (h : f.value key = some (.bytes b)) (width : Option ℕ) :
    bytes f key width = if ∀ n ∈ width, b.length = n then .ok b else .error .malformed := by
  rw [bytes, h]

theorem batch_of_value {f : Reading} {recs : List Bytes} (h : f.value "recs" = some (byteStrings recs)) :
    batch f = if recs.length > 256 then .error .limitExceeded else .ok recs := by
  have hentries : recs.mapM (entry ∘ Value.bytes) = .ok recs := by
    rw [Except.mapM_eq_ok, List.forall₂_same]
    exact fun _ _ => rfl
  rw [batch, Reading.items, h, byteStrings]
  simp only [List.length_map, List.mapM_map, hentries]

/-- **A message is judged to be itself** exactly when its roots and its batch are what the decoder takes, and it
counts that far. -/
theorem judge_message {f : Reading} (htype : f.type = some m.type) (hfields : ∀ x ∈ m.body, f.value x.1 = some x.2) :
    judge top f = .ok m ↔ m.Receivable ∧ Counted top m := by
  -- for each type, what each member reads as and which bound it is held to
  cases m with
  | hello v len root =>
    have hv := number_of_value top (hfields ("v", .uint v) (by simp [Message.body]))
    have hlen := number_of_value top (hfields ("len", .uint len) (by simp [Message.body]))
    have hroot := bytes_of_value (hfields ("root", .bytes root) (by simp [Message.body])) (some 32)
    simp only [judge, htype, Message.type, assemble, hv, hlen, hroot, Message.Receivable, Counted]
    by_cases hwidth : root.length = 32 <;> by_cases hcv : v ≤ top <;> by_cases hclen : len ≤ top <;>
      simp [hwidth, hcv, hclen]
  | want from_ count =>
    have hfrom := number_of_value top (hfields ("from", .uint from_) (by simp [Message.body]))
    have hcount := number_of_value top (hfields ("count", .uint count) (by simp [Message.body]))
    simp only [judge, htype, Message.type, assemble, hfrom, hcount, Message.Receivable, Counted]
    by_cases hcfrom : from_ ≤ top <;> by_cases hccount : count ≤ top <;> simp [hcfrom, hccount]
  | records from_ recs =>
    have hfrom := number_of_value top (hfields ("from", .uint from_) (by simp [Message.body]))
    have hrecs := batch_of_value (hfields ("recs", byteStrings recs) (by simp [Message.body]))
    simp only [judge, htype, Message.type, assemble, hfrom, hrecs, Message.Receivable, Counted, limitRecordsPerBatch]
    by_cases hlimit : recs.length > 256
    · have hnot : ¬ recs.length ≤ 256 := by omega
      simp [hlimit, hnot]
    · have hle : recs.length ≤ 256 := by omega
      by_cases hcfrom : from_ ≤ top <;> simp [hlimit, hle, hcfrom]
  | checkpoint len treeRoot indexRoot liveNames =>
    have hlen := number_of_value top (hfields ("len", .uint len) (by simp [Message.body]))
    have hlive := number_of_value top (hfields ("liveNames", .uint liveNames) (by simp [Message.body]))
    have htree := bytes_of_value (hfields ("treeRoot", .bytes treeRoot) (by simp [Message.body])) (some 32)
    have hindex := bytes_of_value (hfields ("indexRoot", .bytes indexRoot) (by simp [Message.body])) (some 32)
    simp only [judge, htype, Message.type, assemble, hlen, hlive, htree, hindex, Message.Receivable, Counted]
    by_cases hwidth : treeRoot.length = 32 <;> by_cases hwidth' : indexRoot.length = 32 <;>
      by_cases hclen : len ≤ top <;> by_cases hclive : liveNames ≤ top <;> simp [hwidth, hwidth', hclen, hclive]
  | equivocation a b =>
    have ha := bytes_of_value (hfields ("a", .bytes a) (by simp [Message.body])) none
    have hb := bytes_of_value (hfields ("b", .bytes b) (by simp [Message.body])) none
    simp [judge, htype, Message.type, assemble, ha, hb, Message.Receivable, Counted]

/-! ## Readings that are the same -/

/-- No name of the map and no type of it begins with a byte order mark, and none of its numbers is above 2^53 - 1. -/
structure Common (es : List (Key × Value)) : Prop where
  names : ∀ s v, (Key.text s, v) ∈ es → DetCbor.startsWithBom s = false
  type : ∀ s, (Key.text "t", Value.text s) ∈ es → DetCbor.startsWithBom s = false
  counts : ∀ k n, (k, Value.uint n) ∈ es → n ≤ maxSafeInteger

theorem keyOfWire_eq_text {k : Key} (hname : ∀ s, k = .text s → DetCbor.startsWithBom s = false) {name : String} :
    keyOfWire k = .text name ↔ k = .text name := by
  cases k with
  | bytes b => exact Iff.rfl
  | text s =>
    rw [keyOfWire, dropBom_of_not (hname s rfl)]

/-- The registry finds under a name what the client finds. -/
theorem lastNamed_eq_field (hnodup : (es.map Prod.fst).Nodup)
    (hnames : ∀ s v, (Key.text s, v) ∈ es → DetCbor.startsWithBom s = false) (name : String) :
    lastNamed es name = Client.field es name := by
  -- the last entry of the name, in a list where none begins with a mark
  have hmem : ∀ v, lastNamed es name = some v → (Key.text name, v) ∈ es := by
    intro v h
    unfold lastNamed at h
    obtain ⟨e, hfind, rfl⟩ := Option.map_eq_some_iff.1 h
    have hin := List.mem_reverse.1 (List.mem_of_find?_eq_some hfind)
    have hkey : keyOfWire e.1 = .text name := by simpa using List.find?_some hfind
    rw [keyOfWire_eq_text fun s hs => hnames s e.2 (hs ▸ hin)] at hkey
    exact hkey ▸ hin
  cases hfield : Client.field es name with
  | some v =>
    have hin := Client.field_mem hfield
    cases hlast : lastNamed es name with
    | some w =>
      have hw := (Client.field_eq_some hnodup).2 (hmem w hlast)
      rw [hfield] at hw
      exact hw.symm
    | none =>
      unfold lastNamed at hlast
      rw [Option.map_eq_none_iff, List.find?_eq_none] at hlast
      have hnot := hlast _ (List.mem_reverse.2 hin)
      rw [decide_eq_true_eq, keyOfWire_eq_text fun s hs => hnames s v (hs ▸ hin)] at hnot
      exact absurd rfl hnot
  | none =>
    cases hlast : lastNamed es name with
    | none => rfl
    | some w =>
      rw [(Client.field_eq_some hnodup).2 (hmem w hlast)] at hfield
      cases hfield

/-- The type that the client reads is the text under `t`. -/
theorem typeText_eq (hnodup : (es.map Prod.fst).Nodup) :
    Client.Blockx.typeText es = match Client.field es "t" with
      | some (.text s) => some s
      | _ => none := by
  induction es with
  | nil => rfl
  | cons e es ih =>
    obtain ⟨k, v⟩ := e
    rw [List.map_cons, List.nodup_cons] at hnodup
    have hrest := ih hnodup.2
    unfold Client.Blockx.typeText at hrest ⊢
    rw [List.findSome?_cons, Client.field]
    by_cases hk : k = .text "t"
    · subst hk
      have hnone : Client.field es "t" = none := by
        cases hfield : Client.field es "t" with
        | none => rfl
        | some w => exact absurd (List.mem_map_of_mem (Client.field_mem hfield)) hnodup.1
      -- the keys are distinct, so the first member of the name is the only one
      rw [hnone] at hrest
      rw [if_pos rfl]
      cases v with
      | text s => rfl
      | _ => exact hrest
    · rw [if_neg hk]
      cases k with
      | bytes b => exact hrest
      | text name =>
        have hname : name ≠ "t" := fun heq => hk (heq ▸ rfl)
        cases v with
        | text s =>
          dsimp only
          rw [if_neg hname]
          exact hrest
        | _ => exact hrest

/-- **The two readings of such a map are one.** -/
theorem marked_eq_plain (hnodup : (es.map Prod.fst).Nodup)
    (hnames : ∀ s v, (Key.text s, v) ∈ es → DetCbor.startsWithBom s = false)
    (htype : ∀ s, (Key.text "t", Value.text s) ∈ es → DetCbor.startsWithBom s = false) : marked es = plain es := by
  unfold marked plain
  rw [typeText_eq hnodup]
  congr 1
  · rw [lastNamed_eq_field hnodup hnames]
    cases hfield : Client.field es "t" with
    | none => rfl
    | some v =>
      cases v with
      | text s =>
        dsimp only
        rw [dropBom_of_not (htype s (Client.field_mem hfield))]
      | _ => rfl
  · funext name
    exact lastNamed_eq_field hnodup hnames name

/-- How far a decoder counts makes no difference to a map whose numbers are small. -/
theorem judge_of_counts {f : Reading} {small : ℕ} (hle : small ≤ top)
    (hcounts : ∀ key n, f.value key = some (.uint n) → n ≤ small) : judge small f = judge top f := by
  have hnumber : number small f = number top f := by
    funext key
    unfold number Reading.number
    split
    · rename_i n hvalue
      have hn := hcounts key n hvalue
      rw [if_pos hn, if_pos (hn.trans hle)]
    · rfl
  rw [judge, judge, hnumber]

/-! ## The encoders -/

/-- Every number and every length is one that 64 bits hold. -/
def Representable : Message → Prop
  | .hello v len root => v < 2 ^ 64 ∧ len < 2 ^ 64 ∧ root.length < 2 ^ 64
  | .want from_ count => from_ < 2 ^ 64 ∧ count < 2 ^ 64
  | .records from_ recs => from_ < 2 ^ 64 ∧ recs.length < 2 ^ 64 ∧ ∀ x ∈ recs, x.length < 2 ^ 64
  | .checkpoint len treeRoot indexRoot liveNames =>
    len < 2 ^ 64 ∧ treeRoot.length < 2 ^ 64 ∧ indexRoot.length < 2 ^ 64 ∧ liveNames < 2 ^ 64
  | .equivocation a b => a.length < 2 ^ 64 ∧ b.length < 2 ^ 64

theorem counted_of_representable (hm : Representable m) : Counted (2 ^ 64 - 1) m := by
  cases m <;> simp only [Representable, Counted] at hm ⊢ <;> omega

/-- What both encoders write. -/
def written (m : Message) : Bytes := (Value.map (entries m.fields)).sorted.encode

theorem fields_fit (hm : Representable m) : (Value.map (entries m.fields)).Fits := by
  have hkeys : ∀ name ∈ ["t", "v", "len", "root", "from", "count", "recs", "treeRoot", "indexRoot", "liveNames", "a",
    "b"],
      (Key.text name).Fits := by
    simp only [List.forall_mem_cons, DetCbor.Key.Fits]
    decide
  simp only [List.forall_mem_cons] at hkeys
  have htype : (Value.text m.type).Fits := by
    cases m <;> simp only [Message.type, Value.Fits] <;> decide
  have huint : ∀ n < 2 ^ 64, (Value.uint n).Fits := by
    intro n hn
    rw [Value.Fits]
    exact hn
  have hbytes : ∀ b : Bytes, b.length < 2 ^ 64 → (Value.bytes b).Fits := by
    intro b hb
    rw [Value.Fits]
    exact hb
  rw [Value.Fits, DetCbor.entriesFit_iff]
  cases m with
  | hello v len root =>
    obtain ⟨hv, hlen, hroot⟩ := hm
    simp [entries, Message.fields, Message.body, hkeys, htype, huint v hv, huint len hlen, hbytes root hroot]
  | want from_ count =>
    obtain ⟨hfrom, hcount⟩ := hm
    simp [entries, Message.fields, Message.body, hkeys, htype, huint from_ hfrom, huint count hcount]
  | records from_ recs =>
    obtain ⟨hfrom, hrecs⟩ := hm
    simp [entries, Message.fields, Message.body, hkeys, htype, huint from_ hfrom, byteStrings_fit hrecs]
  | checkpoint len treeRoot indexRoot liveNames =>
    obtain ⟨hlen, htree, hindex, hlive⟩ := hm
    simp [entries, Message.fields, Message.body, hkeys, htype, huint len hlen, huint liveNames hlive,
      hbytes treeRoot htree, hbytes indexRoot hindex]
  | equivocation a b =>
    obtain ⟨ha, hb⟩ := hm
    simp [entries, Message.fields, Message.body, hkeys, htype, hbytes a ha, hbytes b hb]

theorem fields_depth (m : Message) : (Value.map (entries m.fields)).depth < 33 := by
  rw [Value.depth, DetCbor.entriesDepth_lt]
  cases m <;> simp [entries, Message.fields, Message.body, Value.depth, BlockCodecs.byteStrings_depth]

/-- What the registry writes for a message. -/
theorem registry_write (hm : Representable m) (hsafe : m.Safe) : encode (.map m.toMap) = .ok (written m) := by
  rw [Message.toMap_eq hsafe]
  exact encode_built m.fields_ok.plainMap.bom m.fields_ok.plainMap.distinct (fields_fit hm) (fields_depth m)

/-- What the client writes for a message. -/
theorem client_write (hm : Representable m) : Client.encode (.map (entries m.fields)) = .ok (written m) :=
  Client.encodeValue_eq_ok _ _ (fields_fit hm) m.fields_ok.plainMap.distinct (fields_depth m)

/-- The registry writes no number above its count. -/
theorem safe_of_registry_write (h : encode (.map m.toMap) = .ok b) : m.Safe := by
  have hnumber : ∀ key n, (key, CborValue.number n) ∈ m.toMap → n ≤ maxSafeInteger := by
    intro key n hmem
    obtain ⟨out, hout⟩ := values_of_encode h _ hmem
    by_contra hover
    rw [encodeValue, assertUint, if_neg hover] at hout
    cases hout
  cases m with
  | hello v len root =>
    exact ⟨hnumber (.text "v") v (by simp [Message.toMap]), hnumber (.text "len") len (by simp [Message.toMap])⟩
  | want from_ count =>
    exact ⟨hnumber (.text "from") from_ (by simp [Message.toMap]),
      hnumber (.text "count") count (by simp [Message.toMap])⟩
  | records from_ recs => exact hnumber (.text "from") from_ (by simp [Message.toMap])
  | checkpoint len treeRoot indexRoot liveNames =>
    exact ⟨hnumber (.text "len") len (by simp [Message.toMap]),
      hnumber (.text "liveNames") liveNames (by simp [Message.toMap])⟩
  | equivocation a b => trivial

/-- What an encoder answers once its message is written. -/
def sized (bytes : Bytes) : Option Bytes := if bytes.length > 65536 then none else some bytes

/-- What the registry's encoder returns for a message whose counts are safe. -/
theorem registry_encode (hm : Representable m) (hsafe : m.Safe) : (encodeMessage m).toOption = sized (written m) := by
  unfold encodeMessage checkSize sized limitMessageBytes
  rw [writeMap_eq_ok.2 (registry_write hm hsafe), Except.ok_bind]
  split_ifs <;> rfl

/-- The registry refuses a message with a count that is not safe. -/
theorem registry_refuses (hover : ¬ m.Safe) : (encodeMessage m).toOption = none := by
  unfold encodeMessage
  cases hwrite : (writeMap m.toMap : Except ReplicationError Bytes) with
  | error e => rfl
  | ok bytes => exact absurd (safe_of_registry_write (writeMap_eq_ok.1 hwrite)) hover

/-- What the client's encoder returns for a message. -/
theorem client_encode (hm : Representable m) : (Client.Replicate.encodeMessage m).toOption = sized (written m) := by
  have hmembers : (Key.text "t", Value.text (Client.Replicate.typeName m)) :: Client.Replicate.membersOf m =
      entries m.fields := by
    cases m <;> rfl
  unfold Client.Replicate.encodeMessage sized Client.Replicate.messageBytes
  rw [hmembers, client_write hm, Except.mapError, Except.ok_bind]
  split_ifs <;> rfl

/-- **The encoders agree on a message** exactly when the registry counts its numbers, or it is too large for both. -/
theorem encoders_agree_iff (hm : Representable m) :
    (encodeMessage m).toOption = (Client.Replicate.encodeMessage m).toOption ↔
      m.Safe ∨ (written m).length > 65536 := by
  rw [client_encode hm]
  by_cases hsafe : m.Safe
  · rw [registry_encode hm hsafe]
    exact iff_of_true rfl (Or.inl hsafe)
  · rw [registry_refuses hsafe, sized]
    by_cases hsize : (written m).length > 65536
    · rw [if_pos hsize]
      exact iff_of_true rfl (Or.inr hsize)
    · rw [if_neg hsize]
      exact iff_of_false (by simp) (not_or.2 ⟨hsafe, hsize⟩)

/-! ## Both codecs -/

/-- The map of a message, in its order. -/
def sortedEntries (m : Message) : List (Key × Value) :=
  (DetCbor.sortByKey (entries m.fields)).map fun e => (e.1, e.2.sorted)

theorem keys_sortedEntries (m : Message) : ((sortedEntries m).map Prod.fst).Perm ((entries m.fields).map Prod.fst) := by
  rw [sortedEntries, List.map_map]
  exact (DetCbor.sortByKey_perm _).map _

theorem nodup_sortedEntries (m : Message) : ((sortedEntries m).map Prod.fst).Nodup :=
  (keys_sortedEntries m).nodup_iff.2 m.fields_ok.nodup

/-- What was written parses to the sorted fields. -/
theorem parse_written (hm : Representable m) : DetCbor.parse 33 (written m) = some (.map (sortedEntries m)) := by
  apply DetCbor.parse_eq_some.2
  have hcanonical := DetCbor.canonical_sorted 33 _ (fields_fit hm) m.fields_ok.plainMap.distinct (fields_depth m)
  rw [DetCbor.sorted_map] at hcanonical
  exact ⟨hcanonical, by rw [written, DetCbor.sorted_map, sortedEntries]⟩

/-- Every field of a message is in its order already. -/
theorem sorted_field {x : String × Value} (hx : x ∈ m.fields) : x.2.sorted = x.2 := by
  have hatom : ∀ v : Value, (∃ s, v = .text s) ∨ (∃ n, v = .uint n) ∨ (∃ b, v = .bytes b) ∨ (∃ xs, v = byteStrings xs) →
      v.sorted = v := by
    rintro v (⟨s, rfl⟩ | ⟨n, rfl⟩ | ⟨b, rfl⟩ | ⟨xs, rfl⟩)
    · simp [Value.sorted]
    · simp [Value.sorted]
    · simp [Value.sorted]
    · exact sorted_byteStrings xs
  apply hatom
  cases m <;> simp only [Message.fields, Message.body, List.mem_cons, List.not_mem_nil, or_false] at hx <;>
    rcases hx with rfl | rfl | rfl | rfl | rfl <;> simp

/-- A field is found in what was written. -/
theorem field_sortedEntries {x : String × Value} (hx : x ∈ m.fields) :
    Client.field (sortedEntries m) x.1 = some x.2 := by
  have hfield := Client.field_sorted m.fields_ok.nodup (List.mem_map.2 ⟨x, hx, rfl⟩)
  rw [sorted_field hx] at hfield
  exact hfield

/-- No name and no type of a message begins with a byte order mark. -/
theorem marked_sortedEntries (m : Message) : marked (sortedEntries m) = plain (sortedEntries m) := by
  have hentry : ∀ s v, (Key.text s, v) ∈ sortedEntries m → ∃ x ∈ m.fields, x.1 = s ∧ x.2 = v := by
    intro s v hmem
    obtain ⟨e, he, heq⟩ := List.mem_map.1 hmem
    obtain ⟨x, hx, rfl⟩ := List.mem_map.1 ((DetCbor.sortByKey_perm _).mem_iff.1 he)
    obtain ⟨hkey, hvalue⟩ := Prod.mk.inj heq
    exact ⟨x, hx, Key.text.inj hkey, (sorted_field hx).symm.trans hvalue⟩
  apply marked_eq_plain (nodup_sortedEntries m)
  · intro s v hmem
    obtain ⟨x, hx, rfl, -⟩ := hentry s v hmem
    exact m.fields_ok.unmarked _ (List.mem_map_of_mem hx)
  · intro s hmem
    obtain ⟨x, hx, hname, hvalue⟩ := hentry "t" _ hmem
    have hbom := (m.fields_ok.plain x hx).bom
    rw [hvalue] at hbom
    simpa [Value.hasBom] using hbom

theorem type_sortedEntries (m : Message) : (plain (sortedEntries m)).type = some m.type := by
  change Client.Blockx.typeText (sortedEntries m) = some m.type
  rw [typeText_eq (nodup_sortedEntries m), field_sortedEntries m.fields_ok.typed]

theorem eq_ok_of_mapError {ε ε' : Type} {g : ε → ε'} {x : Except ε Message} :
    x.mapError g = .ok m ↔ x = .ok m := by
  cases x <;> simp [Except.mapError]

/-- **What is written is read back**, by each decoder as far as it counts. -/
theorem decode_written (hm : Representable m) (hsize : ¬ (written m).length > 65536) :
    (Client.Replicate.decodeMessage (written m) = .ok m ↔ m.Receivable) ∧
      (decodeMessage (written m) = .ok m ↔ m.Receivable ∧ m.Safe) := by
  have hfields : ∀ x ∈ m.body, (plain (sortedEntries m)).value x.1 = some x.2 := fun x hx =>
    field_sortedEntries (List.mem_cons_of_mem _ hx)
  have hjudge : ∀ top, judge top (plain (sortedEntries m)) = .ok m ↔ m.Receivable ∧ Counted top m := fun top =>
    judge_message (type_sortedEntries m) hfields
  constructor
  · rw [← eq_ok_of_mapError (g := clientClass), client_decode, outcome, if_neg hsize, parse_written hm]
    dsimp only
    rw [eq_ok_of_mapError, hjudge]
    exact and_iff_left (counted_of_representable hm)
  · rw [← eq_ok_of_mapError (g := registryClass), registry_decode, outcome, if_neg hsize, parse_written hm]
    dsimp only
    rw [eq_ok_of_mapError, marked_sortedEntries, hjudge, counted_iff_safe]

/-- **The decoders agree on bytes** that are too long, or hold no map, or one that both read alike. -/
theorem decoders_agree (b : Bytes)
    (hcommon : ∀ es, DetCbor.Canonical 33 (.map es) → b = (Value.map es).encode → Common es) :
    (decodeMessage b).mapError registryClass = (Client.Replicate.decodeMessage b).mapError clientClass := by
  rw [registry_decode, client_decode, outcome, outcome]
  by_cases hsize : b.length > 65536
  · rw [if_pos hsize, if_pos hsize]
  rw [if_neg hsize, if_neg hsize]
  cases hparse : DetCbor.parse 33 b with
  | none => rfl
  | some w =>
    obtain ⟨hcanonical, hbytes⟩ := DetCbor.parse_eq_some.1 hparse
    cases w with
    | map es =>
      obtain ⟨hnames, htype, hcounts⟩ := hcommon es hcanonical hbytes
      have hnodup := sortedKeys_nodup (DetCbor.canonical_map.1 hcanonical).2.1
      have hle : maxSafeInteger ≤ 2 ^ 64 - 1 := by decide
      have hjudge := judge_of_counts (f := plain es) hle fun key n h => hcounts _ n (Client.field_mem h)
      dsimp only
      rw [marked_eq_plain hnodup hnames htype, hjudge]
    | _ => rfl

/-- **The two codecs of replication.** The encoders agree on a message unless it counts higher than the registry does;
what the client writes it reads back, and so does the registry, if the message is one a receiver takes; and the decoders
give one answer, refusals and their codes included, on all bytes without a stray byte order mark or a number
above 2^53 - 1. -/
theorem replication_codecs_agree (m : Message) (hm : Representable m) (b : Bytes) :
    ((encodeMessage m).toOption = (Client.Replicate.encodeMessage m).toOption ↔ m.Safe ∨ (written m).length > 65536) ∧
    (∀ out, Client.Replicate.encodeMessage m = .ok out →
      (Client.Replicate.decodeMessage out = .ok m ↔ m.Receivable) ∧
      (decodeMessage out = .ok m ↔ m.Receivable ∧ m.Safe)) ∧
    ((∀ es, DetCbor.Canonical 33 (.map es) → b = (Value.map es).encode → Common es) →
      (decodeMessage b).mapError registryClass = (Client.Replicate.decodeMessage b).mapError clientClass) := by
  refine ⟨encoders_agree_iff hm, ?_, decoders_agree b⟩
  intro out hout
  have hclient := client_encode hm
  rw [hout, sized] at hclient
  by_cases hsize : (written m).length > 65536
  · rw [if_pos hsize] at hclient
    cases hclient
  · rw [if_neg hsize] at hclient
    obtain rfl := Option.some.inj hclient
    exact decode_written hm hsize

/-- A request for 256 records from the seventh on. -/
def wantBytes : Bytes :=
  [0xa3, 0x61, 0x74, 0x64, 0x57, 0x41, 0x4e, 0x54, 0x64, 0x66, 0x72, 0x6f, 0x6d, 0x07, 0x65, 0x63, 0x6f, 0x75, 0x6e,
   0x74, 0x19, 0x01, 0x00]

/-- The request as a message and as bytes. -/
theorem replication_codecs_agree_want :
    (encodeMessage (.want 7 256)).toOption = (Client.Replicate.encodeMessage (.want 7 256)).toOption ∧
      Client.Replicate.decodeMessage wantBytes = .ok (.want 7 256) ∧
      (decodeMessage wantBytes).mapError registryClass =
        (Client.Replicate.decodeMessage wantBytes).mapError clientClass := by
  obtain ⟨hencode, -, hdecode⟩ := replication_codecs_agree (.want 7 256) ⟨by decide, by decide⟩ wantBytes
  refine ⟨hencode.2 (Or.inl ⟨by decide, by decide⟩), by decide +kernel, hdecode ?_⟩
  intro es hcanonical hbytes
  have hparse := DetCbor.parse_eq_some.2 ⟨hcanonical, hbytes⟩
  have hmap : DetCbor.parse 33 wantBytes =
      some (.map [(.text "t", .text "WANT"), (.text "from", .uint 7), (.text "count", .uint 256)]) := rfl
  obtain rfl := Value.map.inj (Option.some.inj (hmap.symm.trans hparse))
  refine ⟨?_, ?_, ?_⟩
  · intro s v h
    simp only [List.mem_cons, Prod.mk.injEq, Key.text.injEq, List.not_mem_nil, or_false] at h
    rcases h with ⟨rfl, -⟩ | ⟨rfl, -⟩ | ⟨rfl, -⟩
    · decide
    · decide
    · decide
  · intro s h
    simp only [List.mem_cons, Prod.mk.injEq, Value.text.injEq, reduceCtorEq, and_false, List.not_mem_nil, or_false] at h
    rw [h.2]
    decide
  · intro k n h
    simp only [List.mem_cons, Prod.mk.injEq, Value.uint.injEq, reduceCtorEq, and_false, List.not_mem_nil, or_false,
      false_or] at h
    rcases h with ⟨-, rfl⟩ | ⟨-, rfl⟩
    · decide
    · decide

end VayuWeb.ReplicateCodecs
