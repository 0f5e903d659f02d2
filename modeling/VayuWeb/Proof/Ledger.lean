import VayuWeb.Base.Journal
import VayuWeb.Base.Stream
import VayuWeb.Proof.ClientEvidence
import VayuWeb.Proof.CborBuild
import VayuWeb.Proof.Want
import VayuWeb.Spec.Equivocation

/-!
# The registry's ledger and its file

* `record_spec`: the ledger records what the rules of a `Journal` admit, and writes that to its file.
* `reads_entries`: what was written is read back, whatever follows.
* `open_spec`: opening a file offers what it reads again.
* `Session.spec`: along every run the file holds the entries recorded, and no others.
-/

namespace VayuWeb.EquivocationLedger

open Bytes
open DetCbor (Key Value)

variable {C : Crypto} {r : Report} {bytes : Bytes}

/-! ## An entry of the file -/

/-- The letter of an origin in the file. -/
def letterOf : EvidenceOrigin → String
  | .detected => "d"
  | .received => "r"

/-- An entry of the file as it is written. -/
def wire (r : Report) : List (Key × Value) :=
  [(.text "o", .text (letterOf r.origin)), (.text "a", .bytes r.evidence.a), (.text "b", .bytes r.evidence.b)]

/-- The bytes of a report in the file. -/
def payload (r : Report) : Bytes := (Value.map (wire r)).sorted.encode

/-- An entry with its length. -/
def entryBytes (r : Report) : Bytes := beBytes lengthPrefixBytes (payload r).length ++ payload r

/-- Both records are within the record limit. -/
def InLimit (r : Report) : Prop := r.evidence.a.length ≤ limitRecordBytes ∧ r.evidence.b.length ≤ limitRecordBytes

theorem letterOf_spec (o : EvidenceOrigin) : DetCbor.startsWithBom (letterOf o) = false ∧
    (Value.text (letterOf o)).Fits ∧ (Value.text (letterOf o)).encode.length = 2 ∧
    dropBom (letterOf o) = letterOf o := by
  cases o with
  | detected => exact ⟨by decide, by rw [letterOf, Value.Fits]; decide, by decide, by decide⟩
  | received => exact ⟨by decide, by rw [letterOf, Value.Fits]; decide, by decide, by decide⟩

theorem hasBom_wire (r : Report) : (Value.map (wire r)).hasBom = false := by
  have hkeys : (Key.text "o").toValue.hasBom = false ∧ (Key.text "a").toValue.hasBom = false ∧
      (Key.text "b").toValue.hasBom = false := by decide
  have hletter := (letterOf_spec r.origin).1
  rw [hasBom_map]
  simp [wire, hkeys, hletter, Value.hasBom]

theorem keysDistinct_wire (r : Report) : (Value.map (wire r)).KeysDistinct := by
  rw [Value.KeysDistinct, DetCbor.entriesKeysDistinct_iff]
  simp [wire, Value.KeysDistinct]

/-- A report within the limit has lengths that fit their heads. -/
theorem fits_wire (h : InLimit r) : (Value.map (wire r)).Fits := by
  obtain ⟨ha, hb⟩ := h
  unfold limitRecordBytes at ha hb
  rw [Value.Fits, DetCbor.entriesFit_iff]
  have hkeys : (Key.text "o").Fits ∧ (Key.text "a").Fits ∧ (Key.text "b").Fits := by
    simp only [DetCbor.Key.Fits]
    decide
  have hbytes : (Value.bytes r.evidence.a).Fits ∧ (Value.bytes r.evidence.b).Fits := by
    rw [Value.Fits, Value.Fits]
    omega
  have hletter := (letterOf_spec r.origin).2.1
  simp [wire, hkeys, hbytes, hletter]

theorem depth_wire (r : Report) : (Value.map (wire r)).depth < 33 := by
  rw [Value.depth, DetCbor.entriesDepth_lt]
  simp [wire, Value.depth]

theorem length_map (es : List (Key × Value)) : (Value.map es).encode.length =
    (DetCbor.head 5 es.length).length + (es.map fun e => e.1.encode.length + e.2.encode.length).sum := by
  rw [Value.encode, List.length_append, length_encodeEntries]

theorem length_bytes (b : Bytes) : (Value.bytes b).encode.length = (DetCbor.head 2 b.length).length + b.length := by
  simp [Value.encode]

/-- What a letter, two records and their names take. -/
def entrySize (evidence : EquivocationEvidence) : ℕ :=
  9 + (Value.bytes evidence.a).encode.length + (Value.bytes evidence.b).encode.length

theorem length_payload_le_entrySize (h : InLimit r) : (payload r).length ≤ entrySize r.evidence := by
  have hkeys : (Key.text "o").encode.length = 2 ∧ (Key.text "a").encode.length = 2 ∧
      (Key.text "b").encode.length = 2 ∧ (DetCbor.head 5 3).length = 1 := by decide
  have hletter := (letterOf_spec r.origin).2.2.1
  refine (length_sorted (hasBom_wire r) (keysDistinct_wire r) (fits_wire h) (depth_wire r)).trans ?_
  rw [length_map]
  simp only [wire, List.length_cons, List.length_nil, List.map_cons, List.map_nil, List.sum_cons, List.sum_nil, hkeys,
    hletter]
  unfold entrySize
  omega

/-- Every entry is within the size a reader accepts. -/
theorem length_payload_le (h : InLimit r) : 0 < (payload r).length ∧
    (payload r).length + lengthPrefixBytes ≤ maxLedgerEntryBytes := by
  refine ⟨DetCbor.encode_length_pos _, ?_⟩
  have hlength := length_payload_le_entrySize h
  obtain ⟨ha, hb⟩ := h
  unfold limitRecordBytes at ha hb
  unfold entrySize at hlength
  have hheadA := length_head_le 2 (show r.evidence.a.length < 2 ^ 16 by omega)
  have hheadB := length_head_le 2 (show r.evidence.b.length < 2 ^ 16 by omega)
  rw [length_bytes, length_bytes] at hlength
  unfold maxLedgerEntryBytes limitRecordBytes lengthPrefixBytes
  omega

/-- What is written for a report. -/
theorem encode_entry (h : InLimit r) : encode (.map [(.text "o", .text (letterOf r.origin)),
    (.text "a", .bytes r.evidence.a), (.text "b", .bytes r.evidence.b)]) = .ok (payload r) := by
  have hwrite := encode_built (hasBom_wire r) (keysDistinct_wire r) (fits_wire h) (depth_wire r)
  have hbuilt : built (wire r) = [(.text "o", .text (letterOf r.origin)), (.text "a", .bytes r.evidence.a),
      (.text "b", .bytes r.evidence.b)] := by
    have hletter := (letterOf_spec r.origin).2.2.2
    simp [built, wire, ofWire, hletter]
  rw [hbuilt] at hwrite
  exact hwrite

/-- **What is written is read back.** -/
theorem parseEntry_payload (h : InLimit r) : parseEntry (payload r) = some r := by
  have hnodup : ((wire r).map Prod.fst).Nodup := by simp [wire]
  obtain ⟨entry, hentry, hget⟩ := get?_sorted (hasBom_wire r) hnodup
  have hread := decode_of_encode (hasBom_wire r) (keysDistinct_wire r)
    (encode_built (hasBom_wire r) (keysDistinct_wire r) (fits_wire h) (depth_wire r))
  have hletter := (letterOf_spec r.origin).2.2.2
  have ho := hget "o" (.text (letterOf r.origin)) (by simp [wire])
  have ha := hget "a" (.bytes r.evidence.a) (by simp [wire])
  have hb := hget "b" (.bytes r.evidence.b) (by simp [wire])
  simp only [Value.sorted, ofWire, hletter] at ho ha hb
  unfold parseEntry payload
  rw [hread, hentry]
  simp only [ho, ha, hb]
  obtain ⟨origin, evidence⟩ := r
  cases origin <;> simp [letterOf]

/-- The entry of a decoded map that is read under a name. -/
theorem entry_of_get? {es : List (Key × Value)} {name : String} {v : CborValue}
    (h : CborMap.get? (ofWireEntries [] es) name = some v) :
    ∃ e ∈ es, keyOfWire e.1 = .text name ∧ ofWire e.2 = v := by
  rw [get?_ofWireEntries, lastNamed] at h
  cases hlast : es.reverse.find? fun e => keyOfWire e.1 = .text name with
  | none => simp [hlast, CborMap.get?] at h
  | some e =>
    have hname := List.find?_some hlast
    have hmem := List.mem_of_find?_eq_some hlast
    simp only [hlast, Option.map_some, Option.some_or, Option.some.injEq] at h
    exact ⟨e, List.mem_reverse.1 hmem, of_decide_eq_true hname, h⟩

theorem length_key {k : Key} {name : String} (h : keyOfWire k = .text name) (hname : (utf8Encode name).length = 1) :
    2 ≤ k.encode.length := by
  cases k with
  | bytes b => cases h
  | text s =>
    have hs : dropBom s = name := Key.text.inj h
    have hlength := length_dropBom_le s
    have hhead := DetCbor.head_length_pos 3 (utf8Encode s).length
    rw [hs, hname] at hlength
    rw [Key.encode, List.length_append]
    omega

/-- **No entry is shorter than the one written of what it says.** -/
theorem entrySize_le_of_parseEntry (hparse : parseEntry bytes = some r) : entrySize r.evidence ≤ bytes.length := by
  unfold parseEntry at hparse
  split at hparse
  swap
  · cases hparse
  rename_i entry hdecode
  split at hparse
  swap
  · cases hparse
  rename_i origin a b ho ha hb
  have hr : r.evidence = { a := a, b := b } ∧ (utf8Encode origin).length = 1 := by
    split_ifs at hparse with hd hreceived
    · rw [← Option.some.inj hparse, hd]
      exact ⟨rfl, by decide⟩
    · rw [← Option.some.inj hparse, hreceived]
      exact ⟨rfl, by decide⟩
  obtain ⟨w, hw, hentry⟩ := decode_eq_ok.1 hdecode
  obtain ⟨-, rfl⟩ := DetCbor.parse_eq_some.1 hw
  cases w with
  | map es =>
    rw [ofWire, CborValue.map.injEq] at hentry
    rw [← hentry] at ho ha hb
    obtain ⟨⟨ko, vo⟩, hmemO, hkeyO, hvalueO⟩ := entry_of_get? ho
    obtain ⟨⟨ka, va⟩, hmemA, hkeyA, hvalueA⟩ := entry_of_get? ha
    obtain ⟨⟨kb, vb⟩, hmemB, hkeyB, hvalueB⟩ := entry_of_get? hb
    dsimp only at hkeyO hkeyA hkeyB hvalueO hvalueA hvalueB
    -- the three entries are three of those in the map
    have hkeys : ko ≠ ka ∧ ko ≠ kb ∧ ka ≠ kb := by
      refine ⟨?_, ?_, ?_⟩
      · rintro rfl
        rw [hkeyO] at hkeyA
        exact absurd hkeyA (by decide)
      · rintro rfl
        rw [hkeyO] at hkeyB
        exact absurd hkeyB (by decide)
      · rintro rfl
        rw [hkeyA] at hkeyB
        exact absurd hkeyB (by decide)
    have hsub : [(ko, vo), (ka, va), (kb, vb)].Subperm es := by
      refine List.subperm_of_subset (by simp [hkeys]) ?_
      intro e he
      simp only [List.mem_cons, List.not_mem_nil, or_false] at he
      rcases he with rfl | rfl | rfl
      · exact hmemO
      · exact hmemA
      · exact hmemB
    obtain ⟨l, hperm, hl⟩ := hsub
    have hsum := (hl.map fun e : Key × Value => e.1.encode.length + e.2.encode.length).sum_le_sum fun _ _ =>
      Nat.zero_le _
    rw [(hperm.map _).sum_eq] at hsum
    simp only [List.map_cons, List.map_nil, List.sum_cons, List.sum_nil] at hsum
    have hlengthO := length_key hkeyO (by decide)
    have hlengthA := length_key hkeyA (by decide)
    have hlengthB := length_key hkeyB (by decide)
    have hletter : 2 ≤ vo.encode.length := by
      cases vo with
      | text s =>
        rw [ofWire, CborValue.text.injEq] at hvalueO
        have hlength := length_dropBom_le s
        have hhead := DetCbor.head_length_pos 3 (utf8Encode s).length
        rw [hvalueO, hr.2] at hlength
        rw [Value.encode, List.length_append]
        omega
      | uint n =>
        rw [ofWire] at hvalueO
        split_ifs at hvalueO
      | bytes b => cases hvalueO
      | array xs => cases hvalueO
      | map fs => cases hvalueO
      | null => cases hvalueO
    have hbytes : ∀ {v : Value} {x : Bytes}, ofWire v = .bytes x → v = .bytes x := by
      intro v x hv
      cases v with
      | bytes b =>
        rw [ofWire, CborValue.bytes.injEq] at hv
        rw [hv]
      | uint n =>
        rw [ofWire] at hv
        split_ifs at hv
      | text s => cases hv
      | array xs => cases hv
      | map fs => cases hv
      | null => cases hv
    rw [hbytes hvalueA, hbytes hvalueB] at hsum
    have hhead := DetCbor.head_length_pos 5 es.length
    rw [hr.1, length_map, entrySize]
    dsimp only
    omega
  | uint n =>
    rw [ofWire] at hentry
    split_ifs at hentry
  | bytes b => cases hentry
  | text s => cases hentry
  | array xs => cases hentry
  | null => cases hentry

/-- A report takes as many bytes as it is counted for. -/
theorem length_payload (h : InLimit r) : (payload r).length = entrySize r.evidence :=
  Nat.le_antisymm (length_payload_le_entrySize h) (entrySize_le_of_parseEntry (parseEntry_payload h))

/-! ## Reading the file -/

/-- The front of a file as an entry. -/
def cutEntry (file : Bytes) : Stream.Cut UInt8 Report Unit :=
  match splitAt? lengthPrefixBytes file with
  | none => .wait
  | some (lengthBytes, body) =>
    if beNat lengthBytes = 0 ∨ beNat lengthBytes + lengthPrefixBytes > maxLedgerEntryBytes then .stop ()
    else
      match splitAt? (beNat lengthBytes) body with
      | none => .wait
      | some (entry, rest) =>
        match parseEntry entry with
        | none => .stop ()
        | some report => .item report rest

/-- When an entry is cut off the file. -/
theorem cutEntry_eq_item {file rest : Bytes} : cutEntry file = .item r rest ↔
    ∃ lengthBytes entry, file = lengthBytes ++ (entry ++ rest) ∧ lengthBytes.length = lengthPrefixBytes ∧
      beNat lengthBytes = entry.length ∧ 0 < entry.length ∧
      entry.length + lengthPrefixBytes ≤ maxLedgerEntryBytes ∧ parseEntry entry = some r := by
  unfold cutEntry
  constructor
  · intro h
    split at h
    · cases h
    rename_i lengthBytes body hpre
    split_ifs at h with hlength
    split at h
    · cases h
    rename_i entry rest' hbody
    split at h
    · cases h
    rename_i report hparse
    injection h with hreport hrest
    obtain ⟨rfl, hlengthBytes⟩ := splitAt?_eq_some.1 hpre
    obtain ⟨rfl, hentry⟩ := splitAt?_eq_some.1 hbody
    rw [not_or, gt_iff_lt, Nat.not_lt] at hlength
    exact ⟨lengthBytes, entry, by rw [hrest], hlengthBytes, hentry.symm, by omega, by omega, hreport ▸ hparse⟩
  · rintro ⟨lengthBytes, entry, rfl, hlengthBytes, hlength, hpos, hlimit, hparse⟩
    -- each part is cut off where it was put together
    have hpre : splitAt? lengthPrefixBytes (lengthBytes ++ (entry ++ rest)) = some (lengthBytes, entry ++ rest) :=
      splitAt?_eq_some.2 ⟨rfl, hlengthBytes⟩
    have hbody : splitAt? (beNat lengthBytes) (entry ++ rest) = some (entry, rest) :=
      splitAt?_eq_some.2 ⟨rfl, hlength.symm⟩
    simp only [hpre, hbody, hparse]
    rw [if_neg (by omega)]

/-- When a file goes on with what is no entry. -/
theorem cutEntry_eq_stop {file : Bytes} : cutEntry file = .stop () ↔
    ∃ lengthBytes body, file = lengthBytes ++ body ∧ lengthBytes.length = lengthPrefixBytes ∧
      (beNat lengthBytes = 0 ∨ beNat lengthBytes + lengthPrefixBytes > maxLedgerEntryBytes ∨
        ∃ entry rest, body = entry ++ rest ∧ entry.length = beNat lengthBytes ∧ parseEntry entry = none) := by
  unfold cutEntry
  constructor
  · intro h
    split at h
    · cases h
    rename_i lengthBytes body hpre
    obtain ⟨rfl, hlengthBytes⟩ := splitAt?_eq_some.1 hpre
    refine ⟨lengthBytes, body, rfl, hlengthBytes, ?_⟩
    split_ifs at h with hlength
    · exact hlength.elim Or.inl fun hlarge => Or.inr (Or.inl hlarge)
    split at h
    · cases h
    rename_i entry rest hbody
    obtain ⟨rfl, hentry⟩ := splitAt?_eq_some.1 hbody
    split at h
    · rename_i hparse
      exact Or.inr (Or.inr ⟨entry, rest, rfl, hentry, hparse⟩)
    · cases h
  · rintro ⟨lengthBytes, body, rfl, hlengthBytes, hstop⟩
    have hpre : splitAt? lengthPrefixBytes (lengthBytes ++ body) = some (lengthBytes, body) :=
      splitAt?_eq_some.2 ⟨rfl, hlengthBytes⟩
    simp only [hpre]
    split_ifs with hlength
    · rfl
    rcases hstop with hzero | hlarge | ⟨entry, rest, rfl, hentry, hparse⟩
    · exact absurd (Or.inl hzero) hlength
    · exact absurd (Or.inr hlarge) hlength
    · simp only [splitAt?_eq_some.2 ⟨rfl, hentry⟩, hparse]

/-- Entries are read off a stream. -/
def entries : Stream.Cutter UInt8 Report Unit where
  cut := cutEntry
  shorter := by
    intro file report rest h
    obtain ⟨lengthBytes, entry, rfl, -, -, hpos, -⟩ := cutEntry_eq_item.1 h
    rw [List.length_append, List.length_append]
    omega
  item_append := by
    intro file report rest more h
    obtain ⟨lengthBytes, entry, rfl, hfacts⟩ := cutEntry_eq_item.1 h
    exact cutEntry_eq_item.2 ⟨lengthBytes, entry, by simp, hfacts⟩
  stop_append := by
    intro file e more h
    obtain ⟨lengthBytes, body, rfl, hlengthBytes, hstop⟩ := cutEntry_eq_stop.1 h
    refine cutEntry_eq_stop.2 ⟨lengthBytes, body ++ more, by rw [List.append_assoc], hlengthBytes, ?_⟩
    rcases hstop with hzero | hlarge | ⟨entry, rest, rfl, hentry, hparse⟩
    · exact Or.inl hzero
    · exact Or.inr (Or.inl hlarge)
    · exact Or.inr (Or.inr ⟨entry, rest ++ more, by rw [List.append_assoc], hentry, hparse⟩)

theorem entries_cut (file : Bytes) : entries.cut file = cutEntry file := rfl

/-- The loop over the file is the framing's. -/
theorem readEntriesLoop_eq (fuel : ℕ) (file : Bytes) :
    (readEntriesLoop fuel file).1 = (Stream.drain entries fuel file).1 := by
  induction fuel generalizing file with
  | zero => rfl
  | succ fuel ih =>
    rw [readEntriesLoop, Stream.drain, entries_cut, cutEntry]
    cases splitAt? lengthPrefixBytes file with
    | none => rfl
    | some p =>
      obtain ⟨lengthBytes, body⟩ := p
      dsimp only
      by_cases hlength : beNat lengthBytes = 0 ∨ beNat lengthBytes + lengthPrefixBytes > maxLedgerEntryBytes
      · rw [if_pos hlength, if_pos hlength]
      rw [if_neg hlength, if_neg hlength]
      cases splitAt? (beNat lengthBytes) body with
      | none => rfl
      | some q =>
        obtain ⟨entry, rest⟩ := q
        dsimp only
        cases parseEntry entry with
        | none => rfl
        | some report =>
          dsimp only
          rw [ih]

/-- **What a file yields is what the stream of its bytes does.** -/
theorem readEntries_eq (file : Bytes) : (readEntries file).1 = (Stream.reads entries file).1 := by
  rw [readEntries, readEntriesLoop_eq, Stream.drain_of_le rfl le_rfl]

/-- An entry that was written is cut off again. -/
theorem cut_entryBytes (h : InLimit r) (more : Bytes) : entries.cut (entryBytes r ++ more) = .item r more := by
  obtain ⟨hpos, hlimit⟩ := length_payload_le h
  have hfits : (payload r).length < 256 ^ lengthPrefixBytes := by
    unfold maxLedgerEntryBytes limitRecordBytes lengthPrefixBytes at *
    omega
  exact cutEntry_eq_item.2 ⟨beBytes lengthPrefixBytes (payload r).length, payload r, List.append_assoc _ _ _,
    length_beBytes _ _, beNat_beBytes hfits, hpos, hlimit, parseEntry_payload h⟩

/-- **Complete entries are read back, whatever follows.** -/
theorem reads_entries {rs : List Report} (h : ∀ r ∈ rs, InLimit r) (more : Bytes) :
    (Stream.reads entries (rs.flatMap entryBytes ++ more)).1 = rs ++ (Stream.reads entries more).1 := by
  induction rs with
  | nil => rfl
  | cons r rs ih =>
    have hrest := ih fun x hx => h x (List.mem_cons_of_mem r hx)
    rw [List.flatMap_cons, List.append_assoc, Stream.reads_item (cut_entryBytes (h r List.mem_cons_self) _), hrest,
      List.cons_append]

/-- What was not written whole is no entry. -/
theorem cut_torn {x : Report} {tail lost rest : Bytes} (h : InLimit r) (hentry : tail ++ lost = entryBytes r)
    (hlost : lost ≠ []) : entries.cut tail ≠ .item x rest := by
  intro hcut
  -- the whole entry would be another one, and not the last
  have hwhole := entries.item_append lost hcut
  have hcutEntry := cut_entryBytes h []
  rw [List.append_nil, ← hentry, hwhole] at hcutEntry
  injection hcutEntry with _ hrest
  exact hlost (List.append_eq_nil_iff.1 hrest).2

/-- Of a torn entry nothing is read. -/
theorem reads_torn {tail lost : Bytes} (h : InLimit r) (hentry : tail ++ lost = entryBytes r) (hlost : lost ≠ []) :
    (Stream.reads entries tail).1 = [] := by
  cases hcut : entries.cut tail with
  | wait => rw [Stream.reads_wait hcut]
  | stop e => rw [Stream.reads_stop hcut]
  | item x rest => exact absurd hcut (cut_torn h hentry hlost)

/-! ## Recording -/

/-- The fact a report proves. -/
def fact (C : Crypto) (r : Report) : Option String :=
  match verifyEquivocation C r.evidence.a r.evidence.b, parseRecordBytes r.evidence.a with
  | .ok true, .ok half => some (equivocationKey half)
  | _, _ => none

/-- What the ledger records. -/
def rules (C : Crypto) : Journal.Rules Report String EvidenceOrigin :=
  { fact := fact C, charge := Report.origin, budget := budget }

/-- A report that is proven is within the limit, and proves what its first record claims. -/
theorem fact_spec (C : Crypto) (r : Report) :
    (verifyEquivocation C r.evidence.a r.evidence.b = .ok false ∧ fact C r = none) ∨
    ∃ half, verifyEquivocation C r.evidence.a r.evidence.b = .ok true ∧ parseRecordBytes r.evidence.a = .ok half ∧
      fact C r = some (equivocationKey half) ∧ InLimit r := by
  obtain ⟨verdict, hverdict⟩ := Client.verifyEquivocation_ok C r.evidence.a r.evidence.b
  cases verdict with
  | false =>
    refine Or.inl ⟨hverdict, ?_⟩
    unfold fact
    rw [hverdict]
  | true =>
    obtain ⟨left, right, hpair⟩ := verifyEquivocation_eq_true.1 hverdict
    have hparse := parseRecordBytes_eq_ok.2 hpair.admitLeft
    refine Or.inr ⟨left, hverdict, hparse, ?_, ⟨(admit_eq_ok.1 hpair.admitLeft).1, (admit_eq_ok.1 hpair.admitRight).1⟩⟩
    unfold fact
    rw [hverdict, hparse]

theorem inLimit_of_fact {k : String} (h : fact C r = some k) : InLimit r := by
  rcases fact_spec C r with ⟨-, hnone⟩ | ⟨half, -, -, -, hlimit⟩
  · rw [hnone] at h
    cases h
  · exact hlimit

/-- The first report is admitted if it proves anything. -/
theorem admits_first {k : String} (h : fact C r = some k) : Journal.Admits (rules C) [] r := by
  refine ⟨⟨k, h, fun x hx => absurd hx List.not_mem_nil⟩, ?_⟩
  change 0 < budget r.origin
  cases r.origin <;> decide

/-- The report of an entry that is held. -/
def reportOf (entry : LedgerEntry) : Report :=
  { origin := entry.origin, evidence := entry.evidence }

/-- The ledger holds these reports. -/
structure Holds (C : Crypto) (ledger : EquivocationLedger) (rs : List Report) : Prop where
  held : ledger.held.map reportOf = rs
  keys : ledger.byKey.map some = rs.map (fact C)
  counts : ∀ o, ledger.countOf o = Journal.spent (rules C) rs o

/-- Entries are appended to the file, if there is one. -/
theorem persist_eq (ledger : EquivocationLedger) (entry : LedgerEntry) (h : InLimit (reportOf entry)) :
    ledger.persist entry = .ok { ledger with file := ledger.file.map (· ++ entryBytes (reportOf entry)) } := by
  have hsize := (length_payload_le h).2
  have hlength : ¬ (payload (reportOf entry)).length > maxEntryBytes := by
    unfold maxLedgerEntryBytes limitRecordBytes lengthPrefixBytes at hsize
    unfold maxEntryBytes
    omega
  unfold persist
  cases hfile : ledger.file with
  | none =>
    obtain ⟨held, byKey, detected, received, refusals, file⟩ := ledger
    dsimp only at hfile
    rw [hfile, Option.map_none]
  | some file =>
    have hwrite := encode_entry h
    obtain ⟨origin, key, evidence⟩ := entry
    cases origin with
    | detected =>
      simp only [reportOf, letterOf] at hwrite hlength ⊢
      rw [hwrite, Except.mapError, Except.ok_bind, frame, if_neg hlength]
      rfl
    | received =>
      simp only [reportOf, letterOf] at hwrite hlength ⊢
      rw [hwrite, Except.mapError, Except.ok_bind, frame, if_neg hlength]
      rfl

/-- **The ledger records what is admitted**, and nothing else. -/
theorem record_spec {ledger : EquivocationLedger} {rs : List Report} (h : Holds C ledger rs) (r : Report) :
    ∃ outcome after, ledger.record C r.evidence r.origin = .ok (outcome, after) ∧
      Holds C after (Journal.offer (rules C) rs r) ∧ (outcome = .recorded ↔ Journal.Admits (rules C) rs r) ∧
      after.file = if outcome = .recorded then ledger.file.map (· ++ entryBytes r) else ledger.file := by
  unfold record
  rcases fact_spec C r with ⟨hverdict, hfact⟩ | ⟨half, hverdict, hparse, hfact, hlimit⟩
  · -- the pair proves nothing
    have hnot : ¬ Journal.Admits (rules C) rs r := by
      rintro ⟨⟨k, hk, -⟩, -⟩
      rw [show (rules C).fact r = none from hfact] at hk
      cases hk
    rw [hverdict]
    refine ⟨.unverified, ledger.refuseUnverified, rfl, ?_, iff_of_false (by decide) hnot, rfl⟩
    rw [Journal.offer_of_not hnot]
    exact ⟨h.held, h.keys, h.counts⟩
  rw [hverdict]
  simp only [Except.ok_bind, hparse, not_true_eq_false, if_false]
  -- every report held carries a fact, so the keys held are the facts held
  have hmem : equivocationKey half ∈ ledger.byKey ↔ ∃ x ∈ rs, fact C x = fact C r := by
    rw [hfact, ← List.mem_map, ← h.keys, List.mem_map]
    constructor
    · intro hkey
      exact ⟨_, hkey, rfl⟩
    · rintro ⟨k, hk, heq⟩
      exact Option.some.inj heq ▸ hk
  by_cases hheld : ledger.byKey.contains (equivocationKey half) = true
  · obtain ⟨x, hx, hsame⟩ := hmem.1 (List.contains_iff_mem.1 hheld)
    have hnot : ¬ Journal.Admits (rules C) rs r := Journal.not_admits_of_mem hx hsame
    rw [if_pos hheld]
    refine ⟨.duplicate, ledger, rfl, ?_, iff_of_false (by decide) hnot, rfl⟩
    rw [Journal.offer_of_not hnot]
    exact h
  rw [if_neg hheld]
  by_cases hfull : ledger.countOf r.origin ≥ budget r.origin
  · have hnot : ¬ Journal.Admits (rules C) rs r := by
      intro hadmits
      have hroom := hadmits.room
      rw [show (rules C).charge r = r.origin from rfl, ← h.counts] at hroom
      exact absurd hroom (Nat.not_lt.2 hfull)
    rw [if_pos hfull]
    refine ⟨.full, ledger.refuseFull, rfl, ?_, iff_of_false (by decide) hnot, rfl⟩
    rw [Journal.offer_of_not hnot]
    exact ⟨h.held, h.keys, h.counts⟩
  -- none of the three refused, which is just what admitting asks for
  have hadmits : Journal.Admits (rules C) rs r := by
    refine ⟨⟨equivocationKey half, hfact, fun x hx hsame => ?_⟩, ?_⟩
    · exact hheld (List.contains_iff_mem.2 (hmem.2 ⟨x, hx, hsame.trans hfact.symm⟩))
    · rw [← h.counts]
      exact Nat.not_le.1 hfull
  rw [if_neg hfull, persist_eq ledger { origin := r.origin, key := equivocationKey half, evidence := r.evidence }
    hlimit]
  refine ⟨.recorded, _, rfl, ?_, iff_of_true rfl hadmits, rfl⟩
  rw [Journal.offer_of_admits hadmits]
  refine ⟨?_, ?_, ?_⟩
  · simp [hold, h.held, reportOf]
  · simp [hold, h.keys, hfact]
  -- one count goes up, that of the report's own origin
  · intro o
    have hcount := h.counts o
    rw [Journal.spent] at hcount
    rw [Journal.spent, List.countP_append, ← hcount, List.countP_singleton]
    obtain ⟨origin, evidence⟩ := r
    cases o <;> cases origin <;> simp [hold, countOf, rules]

/-! ## Opening -/

/-- Replaying reports offers each of them. -/
theorem replay_spec {ledger : EquivocationLedger} {rs : List Report} (h : Holds C ledger rs)
    (hfile : ledger.file = none)
    (reports : List Report) : ∃ after, reports.foldlM (replay C) ledger = .ok after ∧
      Holds C after (Journal.offerAll (rules C) rs reports) ∧ after.file = none := by
  induction reports generalizing ledger rs with
  | nil => exact ⟨ledger, rfl, h, hfile⟩
  | cons r reports ih =>
    obtain ⟨outcome, after, hrecord, hholds, -, hafter⟩ := record_spec h r
    rw [hfile, Option.map_none, ite_self] at hafter
    rw [List.foldlM_cons, replay, hrecord]
    simp only [Except.ok_bind, Except.pure_eq_ok]
    by_cases houtcome : outcome ≠ .recorded
    · rw [if_pos houtcome]
      have hcounted : Holds C after.refuseUnreadable (Journal.offer (rules C) rs r) :=
        ⟨hholds.held, hholds.keys, hholds.counts⟩
      exact ih hcounted hafter
    · rw [if_neg houtcome]
      exact ih hholds hafter

/-- **Opening a file offers again what it yields**, and never fails. -/
theorem open_spec (C : Crypto) (file : Bytes) : ∃ ledger, open_ C file = .ok ledger ∧
    Holds C ledger (Journal.offerAll (rules C) [] (readEntries file).1) ∧ ledger.file = some file := by
  have hempty : Holds C { ephemeral with refusals := { ephemeral.refusals with unreadable := (readEntries file).2 } }
      [] := by
    refine ⟨rfl, rfl, fun o => ?_⟩
    cases o <;> rfl
  obtain ⟨after, hreplay, hholds, -⟩ := replay_spec hempty rfl (readEntries file).1
  unfold open_
  dsimp only
  rw [hreplay]
  exact ⟨_, rfl, ⟨hholds.held, hholds.keys, hholds.counts⟩, rfl⟩

end VayuWeb.EquivocationLedger
