import VayuWeb.Proof.Messages
import VayuWeb.Proof.Sample
import VayuWeb.Spec.Replicate

/-!
# What a WANT is answered with

* `serve_slice`: the loop of `onWant` collects entries of the log one after the other, within its
  budget and its count.
* `encode_records`: a batch within the budget is encoded.
* `want_answered`: the reply travels.
-/

namespace VayuWeb

open Bytes
open DetCbor (Key Value)

variable {σ : Type} {sink : ReplicationSink σ} {s : σ} {log recs : List Bytes} {budget count index used from_ : ℕ}

/-! ## The loop -/

/-- The sink serves this log. -/
structure Serves (sink : ReplicationSink σ) (s : σ) (log : List Bytes) : Prop where
  length : sink.length s = log.length
  encodingAt : ∀ index, sink.encodingAt s index = log[index]?

/-- A store serves the encodings in its log. -/
theorem sinkOver_serves (C : Crypto) (treeRoot : Store → Bytes) (s : Store) :
    Serves (sinkOver C treeRoot) s (s.entries.map (·.bytes)) where
  length := (List.length_map _).symm
  encodingAt _ := (List.getElem?_map ..).symm

/-- What the records cost, each with the head that is charged for it. -/
def recordsCost (recs : List Bytes) : ℕ := (recs.map fun r => r.length + 3).sum

/-- What one more record costs. -/
theorem recordsCost_append (recs : List Bytes) (r : Bytes) :
    recordsCost (recs ++ [r]) = recordsCost recs + (r.length + 3) := by
  simp [recordsCost]

/-- **The loop collects a slice of the log**, within its budget where every entry alone is. It stops
at once only after a record, at the count, or past the end. -/
theorem serve_slice (hserves : Serves sink s log) (hfits : ∀ e ∈ log, e.length + 3 ≤ budget) (count : ℕ) :
    ∀ index recs, recordsCost recs ≤ budget → ∃ n ≤ count,
      ReplicationSession.serve sink s budget count index recs (recordsCost recs) = recs ++ (log.drop index).take n ∧
      recordsCost (recs ++ (log.drop index).take n) ≤ budget ∧
      (n = 0 → recs ≠ [] ∨ count = 0 ∨ log.length ≤ index) := by
  induction count with
  | zero =>
    -- the loop stops at the end of the log, or when the budget is spent with something collected
    intro index recs hbudget
    refine ⟨0, le_refl 0, ?_, ?_, fun _ => Or.inr (Or.inl rfl)⟩
    · rw [ReplicationSession.serve, List.take_zero, List.append_nil]
    · rwa [List.take_zero, List.append_nil]
  | succ count ih =>
    intro index recs hbudget
    have hstop : (log.length ≤ index ∨ recs ≠ []) → ∃ n ≤ count + 1, recs = recs ++ (log.drop index).take n ∧
        recordsCost (recs ++ (log.drop index).take n) ≤ budget ∧
        (n = 0 → recs ≠ [] ∨ count + 1 = 0 ∨ log.length ≤ index) := by
      intro hwhy
      refine ⟨0, Nat.zero_le _, ?_, ?_, fun _ => ?_⟩
      · rw [List.take_zero, List.append_nil]
      · rwa [List.take_zero, List.append_nil]
      · rcases hwhy with hend | hrecs
        · exact Or.inr (Or.inr hend)
        · exact Or.inl hrecs
    unfold ReplicationSession.serve
    rw [hserves.length, hserves.encodingAt]
    by_cases hend : index ≥ log.length
    · rw [if_pos hend]
      exact hstop (Or.inl hend)
    · have hin : index < log.length := Nat.lt_of_not_le hend
      rw [if_neg hend, List.getElem?_eq_getElem hin]
      simp only
      by_cases hcut : recordsCost recs + (log[index].length + 3) > budget ∧ recs.length > 0
      · rw [if_pos hcut]
        exact hstop (Or.inr (List.ne_nil_of_length_pos hcut.2))
      · rw [if_neg hcut, ← recordsCost_append]
        have hone := hfits _ (List.getElem_mem hin)
        -- the first record always fits, since one alone is below the budget
        have hnext : recordsCost (recs ++ [log[index]]) ≤ budget := by
          rw [recordsCost_append]
          by_cases hnil : recs = []
          · subst hnil
            change 0 + (log[index].length + 3) ≤ budget
            omega
          · have hpos := List.length_pos_iff.2 hnil
            omega
        obtain ⟨n, hn, hserve, hcost, -⟩ := ih (index + 1) (recs ++ [log[index]]) hnext
        have hslice : (log.drop index).take (n + 1) = log[index] :: (log.drop (index + 1)).take n := by
          rw [List.drop_eq_getElem_cons hin, List.take_succ_cons]
        have hassoc : recs ++ (log.drop index).take (n + 1) =
            recs ++ [log[index]] ++ (log.drop (index + 1)).take n := by
          rw [hslice, List.append_assoc, List.singleton_append]
        refine ⟨n + 1, Nat.succ_le_succ hn, ?_, ?_, fun h => absurd h (Nat.succ_ne_zero n)⟩
        · rw [hassoc, hserve]
        · rw [hassoc]
          exact hcost

/-! ## The batch -/

theorem length_head_le (major : ℕ) {n : ℕ} (hk : n < 2 ^ 16) : (DetCbor.head major n).length ≤ 3 := by
  have h := DetCbor.head_length_mono major (Nat.le_pred_of_lt hk)
  exact h.trans (by unfold DetCbor.head; split_ifs <;> simp_all)

/-- A message that fits is encoded. -/
theorem Message.encode_of_fits {m : Message} (hsafe : m.Safe) (hfits : (Value.map (entries m.fields)).Fits)
    (hdepth : (Value.map (entries m.fields)).depth < 33)
    (hsize : (Value.map (entries m.fields)).encode.length ≤ limitMessageBytes) :
    ∃ bytes, encodeMessage m = .ok bytes := by
  have hplain := m.fields_ok.plainMap
  have hwrite := encode_built hplain.bom hplain.distinct hfits hdepth
  have hlength := length_sorted hplain.bom hplain.distinct hfits hdepth
  rw [← Message.toMap_eq hsafe] at hwrite
  refine ⟨(Value.map (entries m.fields)).sorted.encode, ?_⟩
  rw [encodeMessage, writeMap_eq_ok.2 hwrite, Except.ok_bind, checkSize_eq_ok.2 (hlength.trans hsize), Except.ok_bind]
  rfl

/-- A batch within the budget is encoded. -/
theorem encode_records (hfrom : from_ ≤ maxSafeInteger) (hcount : recs.length ≤ limitRecordsPerBatch)
    (hsizes : ∀ r ∈ recs, r.length ≤ limitRecordBytes)
    (hcost : recordsCost recs ≤ limitMessageBytes - recordsEnvelopeBytes) :
    ∃ bytes, encodeMessage (.records from_ recs) = .ok bytes := by
  unfold limitRecordsPerBatch at hcount
  unfold limitRecordBytes at hsizes
  unfold maxSafeInteger at hfrom
  have hentries : entries (Message.records from_ recs).fields =
      [(.text "t", .text "RECORDS"), (.text "from", .uint from_), (.text "recs", byteStrings recs)] := rfl
  have hkeys : (Key.text "t").encode.length = 2 ∧ (Key.text "from").encode.length = 5 ∧
      (Key.text "recs").encode.length = 5 ∧ (Value.text "RECORDS").encode.length = 8 ∧
      (DetCbor.head 5 3).length = 1 := by decide
  -- the encoder refuses a value that is too long, too deep or too large in all; none is
  apply Message.encode_of_fits
  · exact hfrom
  · rw [hentries, Value.Fits, DetCbor.entriesFit_iff]
    have hrecs : (byteStrings recs).Fits := by
      rw [byteStrings, Value.Fits, DetCbor.itemsFit_iff, List.length_map, List.forall_mem_map]
      refine ⟨by omega, ?_⟩
      intro r hr
      have hsize := hsizes r hr
      rw [Value.Fits]
      omega
    have htext : (Key.text "t").Fits ∧ (Key.text "from").Fits ∧ (Key.text "recs").Fits ∧
        (Value.text "RECORDS").Fits := by
      simp only [DetCbor.Key.Fits, Value.Fits]
      decide
    have hnumber : (Value.uint from_).Fits := by
      rw [Value.Fits]
      omega
    simp [hrecs, htext, hnumber]
  · rw [hentries, Value.depth, DetCbor.entriesDepth_lt]
    have hrecs : (byteStrings recs).depth < 32 := by
      rw [byteStrings, Value.depth, DetCbor.itemsDepth_lt, List.forall_mem_map]
      intro r _
      rw [Value.depth] <;> simp
    simp [hrecs, Value.depth]
  -- the envelope's bytes are what `recordsEnvelopeBytes` sets aside
  · have hlength : (byteStrings recs).encode.length = (DetCbor.head 4 recs.length).length +
        (recs.map fun r => (DetCbor.head 2 r.length).length + r.length).sum := by
      rw [byteStrings, Value.encode, List.length_append, length_encodeItems, List.length_map, List.map_map]
      simp [Function.comp_def, Value.encode]
    have hsum : (recs.map fun r => (DetCbor.head 2 r.length).length + r.length).sum ≤ recordsCost recs := by
      apply List.sum_le_sum
      intro r hr
      have hsize := hsizes r hr
      have hhead := length_head_le 2 (show r.length < 2 ^ 16 by omega)
      omega
    have harray := length_head_le 4 (show recs.length < 2 ^ 16 by omega)
    have hnumber : (Value.uint from_).encode.length ≤ 9 := by
      rw [Value.encode, DetCbor.head]
      split_ifs <;> simp
    obtain ⟨ht, hfrom', hrecs, htype, hhead⟩ := hkeys
    rw [hentries, Value.encode, List.length_append, length_encodeEntries]
    simp only [List.length_cons, List.length_nil, List.map_cons, List.map_nil, List.sum_cons, List.sum_nil, ht, hfrom',
      hrecs, htype, hlength, hhead]
    unfold limitMessageBytes recordsEnvelopeBytes at hcost
    unfold limitMessageBytes
    omega

/-! ## The request -/

/-- What a decoder takes for a number is one. -/
theorem readMap_number {bytes : Bytes} {map : CborMap} {type key : String} {n : ℕ}
    (h : readMap ReplicationRejection.nonCanonical .malformed bytes = .ok (map, type))
    (hget : CborMap.get? map key = some (.number n)) : n ≤ maxSafeInteger := by
  unfold readMap at h
  split at h
  · simp at h
  · rename_i m hdecode
    obtain ⟨w, -, hw⟩ := decode_eq_ok.1 hdecode
    have hmap : m = map := by
      split at h
      · exact (Prod.mk.inj (Except.ok.inj h)).1
      · simp at h
    subst hmap
    cases w with
    | map es =>
      rw [ofWire, CborValue.map.injEq] at hw
      rw [← hw] at hget
      exact get?_map_number hget
    | uint n =>
      rw [ofWire] at hw
      split_ifs at hw
    | bytes b => simp [ofWire] at hw
    | text s => simp [ofWire] at hw
    | array xs => simp [ofWire] at hw
    | null => simp [ofWire] at hw
  · simp at h

theorem uint_eq_ok {map : CborMap} {key : String} {n : ℕ} (h : uint map key = .ok n) :
    CborMap.get? map key = some (.number n) := by
  unfold uint readUint at h
  split at h
  · rename_i value hget
    rw [hget, Except.ok.inj h]
  · simp at h

/-- A WANT starts at a safe integer. -/
theorem from_le_of_decode {bytes : Bytes} (h : decodeMessage bytes = .ok (.want from_ count)) :
    from_ ≤ maxSafeInteger := by
  unfold decodeMessage at h
  obtain ⟨_, -, h⟩ := Except.bind_eq_ok.1 h
  obtain ⟨⟨map, type⟩, hread, h⟩ := Except.bind_eq_ok.1 h
  simp only at h
  by_cases hhello : type = "HELLO"
  · rw [if_pos hhello] at h
    simp [Except.bind_eq_ok] at h
  rw [if_neg hhello] at h
  by_cases hwant : type = "WANT"
  · rw [if_pos hwant] at h
    obtain ⟨n, hfrom, h⟩ := Except.bind_eq_ok.1 h
    obtain ⟨m, -, h⟩ := Except.bind_eq_ok.1 h
    rw [Except.pure_eq_ok, Except.ok.injEq, Message.want.injEq] at h
    rw [← h.1]
    exact readMap_number hread (uint_eq_ok hfrom)
  · -- no other type makes a WANT
    rw [if_neg hwant] at h
    split_ifs at h
    · split at h
      · split_ifs at h
        · simp at h
        · simp [Except.bind_eq_ok] at h
      · simp at h
    · simp [Except.bind_eq_ok] at h
    · simp [Except.bind_eq_ok] at h

/-- **A WANT is answered by a message that travels**, when it asks for 1 to 256 records: the reply is
read back by its receiver, and carries the entries of the log from where the request starts, at
least one of them when the log reaches that far. Any other request is answered with nothing. -/
theorem want_answered (hserves : Serves sink s log) (hsizes : ∀ e ∈ log, e.length ≤ limitRecordBytes) (bytes : Bytes)
    (from_ count : ℕ) (haccepted : decodeMessage bytes = .ok (.want from_ count)) :
    (∀ reply ∈ (ReplicationSession.onWant sink s from_ count).replies, ∃ n encoded, 1 ≤ n ∧ n ≤ count ∧
        from_ + n ≤ log.length ∧ reply = .records from_ ((log.drop from_).take n) ∧
        encodeMessage reply = .ok encoded ∧ decodeMessage encoded = .ok reply) ∧
      (1 ≤ count ∧ count ≤ limitWantCount ∧ from_ < log.length →
        ∃ reply, (ReplicationSession.onWant sink s from_ count).replies = [reply]) ∧
      (¬ (1 ≤ count ∧ count ≤ limitWantCount ∧ from_ < log.length) →
        (ReplicationSession.onWant sink s from_ count).replies = []) := by
  have hfrom := from_le_of_decode haccepted
  have hfits : ∀ e ∈ log, e.length + 3 ≤ limitMessageBytes - recordsEnvelopeBytes := by
    intro e he
    have hsize := hsizes e he
    unfold limitRecordBytes at hsize
    unfold limitMessageBytes recordsEnvelopeBytes
    omega
  -- a count of zero or above the limit is refused before the log is looked at
  by_cases hcount : count = 0 ∨ count > limitWantCount
  · have hempty : (ReplicationSession.onWant sink s from_ count).replies = [] := by
      rw [ReplicationSession.onWant, if_pos hcount]
      rfl
    rw [hempty]
    refine ⟨fun reply hreply => absurd hreply List.not_mem_nil, ?_, fun _ => rfl⟩
    intro hasked
    omega
  · obtain ⟨n, hn, hserve, hcost, hstop⟩ := serve_slice hserves hfits count from_ [] (Nat.zero_le _)
    rw [List.nil_append] at hserve hcost
    change ReplicationSession.serve sink s _ count from_ [] 0 = _ at hserve
    by_cases hnil : (log.drop from_).take n = []
    · -- nothing was collected, so the log ends before the request
      have hend : log.length ≤ from_ := by
        rw [List.take_eq_nil_iff, List.drop_eq_nil_iff] at hnil
        rcases hnil with hzero | hend
        · rcases hstop hzero with habsurd | hzero | hend
          · exact absurd rfl habsurd
          · exact absurd (Or.inl hzero) hcount
          · exact hend
        · exact hend
      have hempty : (ReplicationSession.onWant sink s from_ count).replies = [] := by
        rw [ReplicationSession.onWant, if_neg hcount]
        simp only [hserve, hnil, List.length_nil, if_true]
        rfl
      rw [hempty]
      refine ⟨fun reply hreply => absurd hreply List.not_mem_nil, ?_, fun _ => rfl⟩
      intro hasked
      omega
    · have hreplies : (ReplicationSession.onWant sink s from_ count).replies =
          [.records from_ ((log.drop from_).take n)] := by
        rw [ReplicationSession.onWant, if_neg hcount]
        simp only [hserve]
        rw [if_neg (fun h => hnil (List.length_eq_zero_iff.1 h))]
      rw [hreplies]
      have hlength := List.length_take_le n (log.drop from_)
      have hstart : from_ < log.length := by
        by_contra hend
        rw [List.drop_eq_nil_of_le (Nat.le_of_not_lt hend), List.take_nil] at hnil
        exact hnil rfl
      refine ⟨?_, fun _ => ⟨_, rfl⟩, fun hnot => absurd ⟨by omega, by omega, hstart⟩ hnot⟩
      intro reply hreply
      rw [List.mem_singleton] at hreply
      subst hreply
      have hslice : (log.drop from_).take n = (log.drop from_).take (min n (log.length - from_)) := by
        rw [← List.length_drop, ← List.take_eq_take_min]
      -- the slice is not empty, so it takes at least one record
      have hpos : min n (log.length - from_) ≠ 0 := by
        intro hzero
        rw [hslice, hzero, List.take_zero] at hnil
        exact hnil rfl
      have hrecs : ((log.drop from_).take n).length ≤ limitRecordsPerBatch := by
        have hle : n ≤ limitWantCount := hn.trans (by omega)
        exact (List.length_take_le n _).trans hle
      have hrecord : ∀ r ∈ (log.drop from_).take n, r.length ≤ limitRecordBytes := by
        intro r hr
        exact hsizes r (List.mem_of_mem_drop (List.mem_of_mem_take hr))
      obtain ⟨encoded, hencoded⟩ := encode_records hfrom hrecs hrecord hcost
      have hdecoded := (Message.decode_encode_iff (m := .records from_ _) hfrom hencoded).2 hrecs
      exact ⟨min n (log.length - from_), encoded, by omega, by omega, by omega, by rw [← hslice], hencoded, hdecoded⟩

/-! ## A log of one record -/

/-- A WANT for `count` records from the start. -/
def wantBytes (count : ℕ) : Bytes :=
  (Value.map [(.text "t", .text "WANT"), (.text "from", .uint 0), (.text "count", .uint count)]).encode

theorem decode_wantBytes : decodeMessage (wantBytes 256) = .ok (.want 0 256) ∧
    decodeMessage (wantBytes 300) = .ok (.want 0 300) := by decide +kernel

theorem first_sizes : ∀ e ∈ (Sample.enter .empty Sample.first).entries.map (·.bytes), e.length ≤ limitRecordBytes := by
  decide +kernel

/-- A peer that holds the first sample record. -/
def firstSink : ReplicationSink Store := sinkOver Sample.crypto fun _ => []

theorem want_answered_first : ∃ reply,
    (ReplicationSession.onWant firstSink (Sample.enter .empty Sample.first) 0 256).replies = [reply] ∧
      ∃ encoded, encodeMessage reply = .ok encoded ∧ decodeMessage encoded = .ok reply := by
  have hserves := sinkOver_serves Sample.crypto (fun _ => []) (Sample.enter .empty Sample.first)
  obtain ⟨hall, hone, -⟩ := want_answered hserves first_sizes (wantBytes 256) 0 256 decode_wantBytes.1
  obtain ⟨reply, hreply⟩ := hone (by decide)
  obtain ⟨n, encoded, -, -, -, -, hencoded, hdecoded⟩ := hall reply (by rw [hreply]; exact List.mem_cons_self)
  exact ⟨reply, hreply, encoded, hencoded, hdecoded⟩

/-- A WANT for more records than a batch may hold is accepted and not answered. -/
theorem want_unanswered : ¬ ∀ (σ : Type) (sink : ReplicationSink σ) (s : σ) (log : List Bytes) (bytes : Bytes)
    (from_ count : ℕ), Serves sink s log → (∀ e ∈ log, e.length ≤ limitRecordBytes) →
      decodeMessage bytes = .ok (.want from_ count) → from_ < log.length →
        ∃ recs, recs ≠ [] ∧ .records from_ recs ∈ (ReplicationSession.onWant sink s from_ count).replies := by
  intro h
  obtain ⟨recs, -, hmem⟩ := h Store firstSink (Sample.enter .empty Sample.first) _ (wantBytes 300) 0 300
    (sinkOver_serves Sample.crypto _ _) first_sizes decode_wantBytes.2 (by decide)
  exact absurd hmem List.not_mem_nil

end VayuWeb
