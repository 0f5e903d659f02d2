import VayuWeb.Proof.Framing
import VayuWeb.Proof.Want
import VayuWeb.Spec.Driver

/-!
# Messages that travel

A message travels when it is written in a frame and what is read from the frame is the message.

* `travels_small`, `travels_records`: whatever a driver sends travels, given what its numbers and byte strings are.
* `sendAll_of_travels`: the stream of a driver whose messages travel holds their frames.
* `push_wire`: a de-framer fed any part of the frames yields the messages it completes, and keeps the rest.
-/

namespace VayuWeb

open Bytes
open DetCbor (Key Value)

namespace Message

/-- The encoding of a message, if it has one. -/
def encoding (m : Message) : Bytes := (encodeMessage m).toOption.getD []

/-- The encoding in its frame. -/
def framed (m : Message) : Bytes := beBytes Swarm.prefixBytes m.encoding.length ++ m.encoding

/-- A message that is encoded within the limit of a frame, and decoded as it was. -/
structure Travels (m : Message) : Prop where
  encoded : encodeMessage m = .ok m.encoding
  bounded : m.encoding.length ≤ Swarm.frameBytes
  decoded : decodeMessage m.encoding = .ok m

theorem Travels.ne_nil {m : Message} (h : m.Travels) : m.encoding ≠ [] := by
  intro hnil
  have hdecoded := h.decoded
  rw [hnil] at hdecoded
  have hrefused : (decodeMessage []).toOption = none := by decide
  rw [hdecoded] at hrefused
  cases hrefused

theorem Travels.frame {m : Message} (h : m.Travels) : Swarm.frame m.encoding = .ok m.framed := by
  unfold Swarm.frame
  rw [if_neg (Nat.not_lt.2 h.bounded)]
  rfl

/-- What is encoded, with numbers and roots as they should be, travels. -/
theorem travels_of_encode {m : Message} {bytes : Bytes} (hsafe : m.Safe) (hreceivable : m.Receivable)
    (h : encodeMessage m = .ok bytes) : m.Travels := by
  have hencoding : m.encoding = bytes := by
    unfold encoding
    rw [h]
    rfl
  constructor
  case encoded => rw [hencoding, h]
  case bounded =>
    rw [hencoding]
    exact (readMap_of_encode hsafe h).1
  case decoded =>
    rw [hencoding]
    exact (decode_encode_iff hsafe h).2 hreceivable

/-- A batch within the bounds travels. -/
theorem travels_records {from_ : ℕ} {recs : List Bytes} (hfrom : from_ ≤ maxSafeInteger)
    (hcount : recs.length ≤ limitRecordsPerBatch) (hsizes : ∀ r ∈ recs, r.length ≤ limitRecordBytes)
    (hcost : recordsCost recs ≤ limitMessageBytes - recordsEnvelopeBytes) : (Message.records from_ recs).Travels := by
  obtain ⟨bytes, h⟩ := encode_records hfrom hcount hsizes hcost
  exact travels_of_encode hfrom hcount h

/-- A number that is exact, or a byte string within the limit of a record. -/
def Small (v : Value) : Prop :=
  (∃ n, v = .uint n ∧ n ≤ maxSafeInteger) ∨ ∃ b : Bytes, v = .bytes b ∧ b.length ≤ limitRecordBytes

/-- A small value fits into a message. -/
theorem Small.fits {v : Value} (h : Small v) : v.Fits ∧ v.depth < 32 ∧ v.encode.length ≤ 4105 := by
  rcases h with ⟨n, rfl, hn⟩ | ⟨b, rfl, hb⟩
  · unfold maxSafeInteger at hn
    refine ⟨?_, ?_, ?_⟩
    · rw [Value.Fits]
      omega
    · rw [Value.depth] <;> simp
    · rw [Value.encode, DetCbor.head]
      split_ifs <;> simp
  · unfold limitRecordBytes at hb
    refine ⟨?_, ?_, ?_⟩
    · rw [Value.Fits]
      omega
    · rw [Value.depth] <;> simp
    · have hhead := length_head_le 2 (show b.length < 2 ^ 16 by omega)
      rw [Value.encode, List.length_append]
      omega

/-- The names of the fields are short. -/
theorem key_body {m : Message} {f : String × Value} (hf : f ∈ m.body) :
    (Key.text f.1).Fits ∧ (Key.text f.1).encode.length ≤ 10 := by
  have hname : f.1 ∈ ["v", "len", "root", "from", "count", "recs", "treeRoot", "indexRoot", "liveNames", "a", "b"] := by
    cases m <;> simp only [body, List.mem_cons, List.not_mem_nil, or_false] at hf <;>
      rcases hf with rfl | rfl | rfl | rfl <;>
      simp
  have hall : ∀ name ∈ ["v", "len", "root", "from", "count", "recs", "treeRoot", "indexRoot", "liveNames", "a", "b"],
      (Key.text name).Fits ∧ (Key.text name).encode.length ≤ 10 := by
    simp only [DetCbor.Key.Fits]
    decide
  exact hall _ hname

/-- **A message of small fields travels.** -/
theorem travels_small {m : Message} (hsafe : m.Safe) (hreceivable : m.Receivable) (hsmall : ∀ f ∈ m.body, Small f.2) :
    m.Travels := by
  have htype : (Key.text "t").Fits ∧ (Key.text "t").encode.length ≤ 10 ∧ (Value.text m.type).Fits ∧
      (Value.text m.type).depth < 32 ∧ (Value.text m.type).encode.length ≤ 4105 := by
    have hdepth : (Value.text m.type).depth < 32 := by rw [Value.depth] <;> simp
    have hrest : (Value.text m.type).Fits ∧ (Value.text m.type).encode.length ≤ 4105 := by
      cases m <;> simp only [type, Value.Fits] <;> decide
    refine ⟨?_, by decide, hrest.1, hdepth, hrest.2⟩
    simp only [DetCbor.Key.Fits]
    decide
  have hlength : m.body.length ≤ 4 := by cases m <;> simp [body]
  have hentries : ∀ f ∈ m.fields, (Key.text f.1).Fits ∧ (Key.text f.1).encode.length ≤ 10 ∧ f.2.Fits ∧
      f.2.depth < 32 ∧ f.2.encode.length ≤ 4105 := by
    intro f hf
    rcases List.mem_cons.1 hf with rfl | hf
    · exact htype
    · obtain ⟨hkeyfits, hkey⟩ := key_body hf
      exact ⟨hkeyfits, hkey, (hsmall f hf).fits⟩
  have hentry : ∀ e ∈ entries m.fields, e.1.Fits ∧ e.1.encode.length ≤ 10 ∧ e.2.Fits ∧ e.2.depth < 32 ∧
      e.2.encode.length ≤ 4105 := by
    intro e he
    obtain ⟨f, hf, rfl⟩ := List.mem_map.1 he
    exact hentries f hf
  have hcount : (entries m.fields).length ≤ 5 := by
    unfold entries fields
    rw [List.length_map, List.length_cons]
    omega
  have hfits : (Value.map (entries m.fields)).Fits := by
    rw [Value.Fits, DetCbor.entriesFit_iff]
    exact ⟨by omega, fun e he => ⟨(hentry e he).1, (hentry e he).2.2.1⟩⟩
  have hdepth : (Value.map (entries m.fields)).depth < 33 := by
    rw [Value.depth, DetCbor.entriesDepth_lt]
    exact fun e he => (hentry e he).2.2.2.1
  have hsize : (Value.map (entries m.fields)).encode.length ≤ limitMessageBytes := by
    have hsum : ((entries m.fields).map fun e => e.1.encode.length + e.2.encode.length).sum ≤
        ((entries m.fields).map fun _ => 4115).sum := by
      apply List.sum_le_sum
      intro e he
      have hboth := hentry e he
      omega
    have hhead := length_head_le 5 (show (entries m.fields).length < 2 ^ 16 by omega)
    rw [List.map_const', List.sum_replicate_nat] at hsum
    rw [Value.encode, List.length_append, length_encodeEntries]
    unfold limitMessageBytes
    omega
  obtain ⟨bytes, h⟩ := encode_of_fits hsafe hfits hdepth hsize
  exact travels_of_encode hsafe hreceivable h

/-- A WANT of safe numbers travels. -/
theorem travels_want {from_ count : ℕ} (hfrom : from_ ≤ maxSafeInteger) (hcount : count ≤ maxSafeInteger) :
    (Message.want from_ count).Travels := by
  refine travels_small (m := .want from_ count) ⟨hfrom, hcount⟩ trivial ?_
  intro f hf
  simp only [body, List.mem_cons, List.not_mem_nil, or_false] at hf
  rcases hf with rfl | rfl
  · exact Or.inl ⟨from_, rfl, hfrom⟩
  · exact Or.inl ⟨count, rfl, hcount⟩

/-- A HELLO travels. -/
theorem travels_hello {len : ℕ} {root : Bytes} (hlen : len ≤ maxSafeInteger) (hroot : root.length = 32) :
    (Message.hello protocolVersion len root).Travels := by
  refine travels_small (m := .hello protocolVersion len root) ⟨by decide, hlen⟩ hroot ?_
  intro f hf
  simp only [body, List.mem_cons, List.not_mem_nil, or_false] at hf
  rcases hf with rfl | rfl | rfl
  · exact Or.inl ⟨protocolVersion, rfl, by decide⟩
  · exact Or.inl ⟨len, rfl, hlen⟩
  · exact Or.inr ⟨root, rfl, by rw [hroot]; decide⟩

/-- Evidence of short records travels. -/
theorem travels_equivocation {a b : Bytes} (ha : a.length ≤ limitRecordBytes) (hb : b.length ≤ limitRecordBytes) :
    (Message.equivocation a b).Travels := by
  refine travels_small (m := .equivocation a b) trivial trivial ?_
  intro f hf
  simp only [body, List.mem_cons, List.not_mem_nil, or_false] at hf
  rcases hf with rfl | rfl
  · exact Or.inr ⟨a, rfl, ha⟩
  · exact Or.inr ⟨b, rfl, hb⟩

end Message

namespace Swarm

open Stream

/-- The frames of messages, one after the other. -/
def wire (ms : List Message) : Bytes := (ms.map Message.framed).flatten

@[simp] theorem wire_nil : wire [] = [] := rfl

@[simp] theorem wire_cons (m : Message) (ms : List Message) : wire (m :: ms) = m.framed ++ wire ms := rfl

@[simp] theorem wire_append (ms more : List Message) : wire (ms ++ more) = wire ms ++ wire more := by
  unfold wire
  rw [List.map_append, List.flatten_append]

/-- **Messages that travel are written in their frames.** -/
theorem sendAll_of_travels {stream : PeerStream} {ms : List Message} (hopen : stream.destroyed = false)
    (h : ∀ m ∈ ms, m.Travels) :
    stream.sendAll ms = { written := stream.written ++ wire ms, destroyed := false } := by
  induction ms generalizing stream with
  | nil =>
    obtain ⟨written, destroyed⟩ := stream
    simp only at hopen
    rw [hopen, wire_nil, List.append_nil]
    rfl
  | cons m ms ih =>
    have hm := h m List.mem_cons_self
    have hsend : stream.send m = { written := stream.written ++ m.framed, destroyed := false } := by
      unfold PeerStream.send
      rw [hm.encoded]
      simp only [hm.frame]
      unfold PeerStream.write
      rw [if_neg (by rw [hopen]; decide), hopen]
    have hrest := ih (show (stream.send m).destroyed = false by rw [hsend]) fun m' hm' =>
      h m' (List.mem_cons_of_mem m hm')
    rw [hsend] at hrest
    unfold PeerStream.sendAll at hrest ⊢
    rw [List.foldl_cons, hsend, hrest, wire_cons, List.append_assoc]

/-! ## Reading the wire -/

/-- The first message is cut off the wire. -/
theorem cut_wire_cons {m : Message} (h : m.Travels) (ms : List Message) :
    framing.cut (wire (m :: ms)) = .item m.encoding (wire ms) := by
  rw [wire_cons]
  exact cutFrame_frame h.frame h.ne_nil (wire ms)

/-- What arrives of the frames, read as far as it goes: some messages, and what waits for the rest. -/
theorem reads_wire {ms : List Message} (h : ∀ m ∈ ms, m.Travels) {bytes rest : Bytes}
    (hwire : bytes ++ rest = wire ms) :
    ∃ k waiting, reads framing bytes = ((ms.take k).map Message.encoding, .ok waiting) ∧
      waiting ++ rest = wire (ms.drop k) := by
  induction ms generalizing bytes with
  | nil =>
    rw [wire_nil, List.append_eq_nil_iff] at hwire
    refine ⟨0, [], ?_, by rw [hwire.2]; rfl⟩
    rw [hwire.1]
    exact reads_wait cutFrame_nil
  | cons m ms ih =>
    have hm := h m List.mem_cons_self
    cases hcut : framing.cut bytes with
    | wait =>
      refine ⟨0, bytes, ?_, hwire⟩
      exact reads_wait hcut
    | stop e =>
      have hstop := framing.stop_append rest hcut
      rw [hwire, cut_wire_cons hm] at hstop
      cases hstop
    | item payload left =>
      have hitem := framing.item_append rest hcut
      rw [hwire, cut_wire_cons hm] at hitem
      injection hitem with hpayload hleft
      obtain ⟨k, waiting, hreads, hrest⟩ := ih (fun m' hm' => h m' (List.mem_cons_of_mem m hm')) hleft.symm
      refine ⟨k + 1, waiting, ?_, hrest⟩
      rw [reads_item hcut, hreads, ← hpayload]
      rfl

/-- **A de-framer fed any part of the frames** yields the messages it completes, and keeps the rest. -/
theorem push_wire {ms : List Message} (h : ∀ m ∈ ms, m.Travels) {d : Deframer} {chunk rest : Bytes}
    (hwire : d.chunks.flatten ++ chunk ++ rest = wire ms) :
    ∃ k, (d.push chunk).1 = .ok ((ms.take k).map Message.encoding) ∧
      (d.push chunk).2.chunks.flatten ++ rest = wire (ms.drop k) ∧
      framing.cut (d.push chunk).2.chunks.flatten = .wait := by
  obtain ⟨k, waiting, hreads, hrest⟩ := reads_wire h hwire
  obtain ⟨hpayloads, hpending⟩ := (push_spec d chunk).2 waiting (by rw [hreads])
  refine ⟨k, ?_, ?_, ?_⟩
  · rw [hpayloads, hreads]
  · rw [hpending, hrest]
  · rw [hpending]
    exact cut_of_reads hreads

/-- Where all has arrived and no frame is complete, there is no message. -/
theorem nil_of_wait {ms : List Message} (h : ∀ m ∈ ms, m.Travels) (hwait : framing.cut (wire ms) = .wait) :
    ms = [] := by
  cases ms with
  | nil => rfl
  | cons m ms =>
    rw [cut_wire_cons (h m List.mem_cons_self)] at hwait
    cases hwait

end Swarm

end VayuWeb
