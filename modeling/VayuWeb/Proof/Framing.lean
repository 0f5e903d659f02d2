import VayuWeb.Base.Stream
import VayuWeb.Spec.Swarm

/-!
# Frames do not depend on the chunks

A frame is read off the front of a stream, by its length and nothing behind it (`framing`). The chunks a
`Deframer` holds are one such stream (`push_spec`), so chunks of every size deliver the same messages
(`feed_frames`), and cost no more than in proportion to their bytes (`costs_linear`).
-/

namespace VayuWeb.Swarm

open Bytes Stream

/-! ## Reading a frame -/

/-- The error of a frame over the limit. -/
def tooLarge (length : ℕ) : FramingError :=
  { code := .frameTooLarge
    message := s!"FRAME_TOO_LARGE: a peer declared a {length}-byte frame, over the {frameBytes} limit" }

/-- The error of an empty frame. -/
def emptyFrame : FramingError :=
  { code := .frameEmpty, message := "FRAME_EMPTY: a zero-length frame carries no message" }

/-- The front of a stream as a frame. -/
def cutFrame (bytes : Bytes) : Cut UInt8 Bytes FramingError :=
  if bytes.length < prefixBytes then .wait
  else
    let length := beNat (bytes.take prefixBytes)
    if length > frameBytes then .stop (tooLarge length)
    else if length = 0 then .stop emptyFrame
    else if bytes.length < prefixBytes + length then .wait
    else .item ((bytes.take (prefixBytes + length)).drop prefixBytes) (bytes.drop (prefixBytes + length))

/-- What a frame's front says does not depend on what follows. -/
theorem take_append_of_front {bytes : Bytes} (more : Bytes) {n : ℕ} (h : n ≤ bytes.length) :
    (bytes ++ more).take n = bytes.take n := List.take_append_of_le_length h

/-- Frames are read off a stream. -/
def framing : Cutter UInt8 Bytes FramingError where
  cut := cutFrame
  shorter := by
    intro bytes payload rest h
    unfold cutFrame at h
    dsimp only at h
    split_ifs at h with hheader hlarge hzero hshort
    injection h with hpayload hrest
    rw [← hrest, List.length_drop]
    omega
  item_append := by
    intro bytes payload rest more h
    unfold cutFrame at h
    dsimp only at h
    split_ifs at h with hheader hlarge hzero hshort
    injection h with hpayload hrest
    unfold cutFrame
    have hlength : ¬ (bytes ++ more).length < prefixBytes := by
      rw [List.length_append]
      omega
    have hfront := take_append_of_front more (Nat.not_lt.1 hheader)
    have hwhole := take_append_of_front more (Nat.not_lt.1 hshort)
    have hfits : ¬ (bytes ++ more).length < prefixBytes + beNat (bytes.take prefixBytes) := by
      rw [List.length_append]
      omega
    rw [if_neg hlength]
    simp only [hfront]
    rw [if_neg hlarge, if_neg hzero, if_neg hfits, hwhole, hpayload,
      List.drop_append_of_le_length (Nat.not_lt.1 hshort), hrest]
  stop_append := by
    intro bytes e more h
    unfold cutFrame at h ⊢
    dsimp only at h ⊢
    by_cases hheader : bytes.length < prefixBytes
    · rw [if_pos hheader] at h
      cases h
    have hlength : ¬ (bytes ++ more).length < prefixBytes := by
      rw [List.length_append]
      omega
    rw [if_neg hheader] at h
    rw [if_neg hlength, take_append_of_front more (Nat.not_lt.1 hheader)]
    split_ifs at h with hlarge hzero
    · rw [if_pos hlarge]
      exact h
    · rw [if_neg hlarge, if_pos hzero]
      exact h

theorem framing_cut (bytes : Bytes) : framing.cut bytes = cutFrame bytes := rfl

theorem cutFrame_nil : framing.cut [] = .wait := rfl

/-! ## The chunks as one stream -/

/-- The header is filled from the front of what is held. -/
theorem fillHeader_eq (wanted : ℕ) (chunks : List Bytes) : fillHeader wanted chunks = chunks.flatten.take wanted := by
  induction chunks generalizing wanted with
  | nil => rw [fillHeader, List.flatten_nil, List.take_nil]
  | cons chunk chunks ih => rw [fillHeader, ih, List.flatten_cons, List.take_append]

/-- The length is read from the front of what is held. -/
theorem readLength_eq (d : Deframer) : d.readLength = beNat (d.chunks.flatten.take prefixBytes) := by
  unfold Deframer.readLength
  rw [fillHeader_eq]

/-- Taking a frame leaves the bytes behind it. -/
theorem take_chunks (d : Deframer) (skip length : ℕ) :
    (d.take skip length).1 = (d.chunks.flatten.take (skip + length)).drop skip ∧
    (d.take skip length).2.chunks.flatten = d.chunks.flatten.drop (skip + length) := by
  unfold Deframer.take
  dsimp only
  rw [(takeChunks_spec (skip + length) d.chunks).1]
  exact ⟨rfl, (takeChunks_spec (skip + length) d.chunks).2⟩

/-- What the loop answers is what the stream it holds reads as. -/
theorem drain_spec (fuel : ℕ) (d : Deframer) :
    (∀ e, (Stream.drain framing fuel d.chunks.flatten).2 = .error e → (d.drain fuel).1 = .error e) ∧
    (∀ rest, (Stream.drain framing fuel d.chunks.flatten).2 = .ok rest →
      (d.drain fuel).1 = .ok (Stream.drain framing fuel d.chunks.flatten).1 ∧
      (d.drain fuel).2.chunks.flatten = rest) := by
  induction fuel generalizing d with
  | zero =>
    refine ⟨fun e h => (by cases h), fun rest h => ?_⟩
    cases h
    exact ⟨rfl, rfl⟩
  | succ fuel ih =>
    obtain ⟨hpayload, hleft⟩ := take_chunks d prefixBytes (beNat (d.chunks.flatten.take prefixBytes))
    have ih := ih (d.take prefixBytes (beNat (d.chunks.flatten.take prefixBytes))).2
    rw [hleft] at ih
    rw [Stream.drain, Deframer.drain, readLength_eq]
    rw [framing_cut]
    unfold cutFrame
    rw [d.held_eq]
    dsimp only
    -- one branch of the loop after the other, each as the frame reader has it
    by_cases hheader : d.chunks.flatten.length < prefixBytes
    · rw [if_pos hheader, if_pos hheader]
      refine ⟨fun e h => (by cases h), fun rest h => ?_⟩
      cases h
      exact ⟨rfl, rfl⟩
    rw [if_neg hheader, if_neg hheader]
    by_cases hlarge : beNat (d.chunks.flatten.take prefixBytes) > frameBytes
    · rw [if_pos hlarge, if_pos hlarge]
      refine ⟨fun e h => ?_, fun rest h => (by cases h)⟩
      cases h
      rfl
    rw [if_neg hlarge, if_neg hlarge]
    by_cases hzero : beNat (d.chunks.flatten.take prefixBytes) = 0
    · rw [if_pos hzero, if_pos hzero]
      refine ⟨fun e h => ?_, fun rest h => (by cases h)⟩
      cases h
      rfl
    rw [if_neg hzero, if_neg hzero]
    by_cases hshort : d.chunks.flatten.length < prefixBytes + beNat (d.chunks.flatten.take prefixBytes)
    · rw [if_pos hshort, if_pos hshort]
      refine ⟨fun e h => (by cases h), fun rest h => ?_⟩
      cases h
      exact ⟨rfl, rfl⟩
    rw [if_neg hshort, if_neg hshort]
    dsimp only
    refine ⟨fun e h => ?_, fun rest h => ?_⟩
    · rw [ih.1 e h]
      rfl
    · obtain ⟨hout, hrest⟩ := ih.2 rest h
      rw [hout, hpayload]
      exact ⟨rfl, hrest⟩

/-- A chunk goes behind what is held. -/
theorem hold_chunks (d : Deframer) (chunk : Bytes) :
    (d.hold chunk).chunks.flatten = d.chunks.flatten ++ chunk := by
  unfold Deframer.hold
  split_ifs with hchunk
  · rw [List.flatten_append, List.flatten_singleton]
  · have hnil : chunk = [] := List.length_eq_zero_iff.1 (by omega)
    rw [hnil, List.append_nil]

/-- Draining cuts off every frame there is, or stops where the framing does. -/
theorem drain_all (d : Deframer) :
    (∀ e, (reads framing d.chunks.flatten).2 = .error e → (d.drain (d.held + 1)).1 = .error e) ∧
    (∀ rest, (reads framing d.chunks.flatten).2 = .ok rest →
      (d.drain (d.held + 1)).1 = .ok (reads framing d.chunks.flatten).1 ∧
      (d.drain (d.held + 1)).2.chunks.flatten = rest) := by
  have hdrain := drain_spec (d.held + 1) d
  have hfuel : d.chunks.flatten.length < d.held + 1 := by
    rw [d.held_eq]
    omega
  rw [drain_eq_reads hfuel] at hdrain
  exact hdrain

/-- **A push** reads what was held with what arrived. -/
theorem push_spec (d : Deframer) (chunk : Bytes) :
    (∀ e, (reads framing (d.chunks.flatten ++ chunk)).2 = .error e → (d.push chunk).1 = .error e) ∧
    (∀ rest, (reads framing (d.chunks.flatten ++ chunk)).2 = .ok rest →
      (d.push chunk).1 = .ok (reads framing (d.chunks.flatten ++ chunk)).1 ∧
      (d.push chunk).2.chunks.flatten = rest) := by
  have hall := drain_all (d.hold chunk)
  rw [hold_chunks] at hall
  exact hall

/-- **Chunks pushed in order** are pieces of one stream. -/
theorem feed_eq (d : Deframer) (chunks : List Bytes) :
    (d.feed chunks).1 = (Stream.feed framing d.chunks.flatten chunks).1 ∧
    (d.feed chunks).2.map (fun d => d.chunks.flatten) = (Stream.feed framing d.chunks.flatten chunks).2 := by
  induction chunks generalizing d with
  | nil => exact ⟨rfl, rfl⟩
  | cons chunk chunks ih =>
    obtain ⟨hstop, hpush⟩ := push_spec d chunk
    rw [Deframer.feed, Stream.feed]
    cases hread : (reads framing (d.chunks.flatten ++ chunk)).2 with
    | error e =>
      have hfirst := hstop e hread
      rw [show d.push chunk = ((d.push chunk).1, (d.push chunk).2) from rfl, hfirst]
      exact ⟨rfl, rfl⟩
    | ok rest =>
      obtain ⟨hfirst, hrest⟩ := hpush rest hread
      rw [show d.push chunk = ((d.push chunk).1, (d.push chunk).2) from rfl, hfirst]
      dsimp only
      obtain ⟨hout, hend⟩ := ih (d.push chunk).2
      rw [hrest] at hout hend
      rw [hout]
      exact ⟨rfl, hend⟩

/-! ## What a stream costs -/

/-- The copies and the work, against what has arrived. Each byte is copied as it is held and as it is taken, and a
frame of five bytes or more touches one chunk that it does not use up. -/
structure Deframer.Costs (d : Deframer) (received : ℕ) : Prop where
  copied : d.copiedBytes + d.pending = 2 * received
  work : 5 * (d.workUnits + d.chunks.length) + d.pending ≤ 11 * received

theorem takeChunks_touched (total : ℕ) (chunks : List Bytes) :
    (takeChunks total chunks).2.2 + (takeChunks total chunks).2.1.length ≤ chunks.length + 1 := by
  induction chunks generalizing total with
  | nil => simp [takeChunks]
  | cons chunk chunks ih =>
    cases total with
    | zero => simp [takeChunks]
    | succ total =>
      rw [takeChunks]
      split_ifs with hle
      · have hrest := ih (total + 1 - chunk.length)
        simp only [List.length_cons]
        omega
      · simp only [List.length_cons]
        omega

variable {d : Deframer} {received : ℕ}

/-- A chunk pays for itself. -/
theorem Deframer.Costs.hold (h : d.Costs received) (chunk : Bytes) :
    (d.hold chunk).Costs (received + chunk.length) := by
  obtain ⟨hcopied, hwork⟩ := h
  unfold Deframer.copiedBytes Deframer.pending at hcopied
  unfold Deframer.workUnits Deframer.pending at hwork
  unfold Deframer.hold
  split_ifs with hchunk
  · refine ⟨?_, ?_⟩
    · unfold Deframer.copiedBytes Deframer.pending
      simp only
      omega
    · unfold Deframer.workUnits Deframer.pending
      simp only [List.length_append, List.length_singleton]
      omega
  · have hnone : received + chunk.length = received := by omega
    rw [hnone]
    exact ⟨hcopied, hwork⟩

/-- A frame is paid for by its bytes. -/
theorem Deframer.Costs.take (h : d.Costs received) {skip length : ℕ} (hframe : 5 ≤ skip + length)
    (hheld : skip + length ≤ d.held) : (d.take skip length).2.Costs received := by
  obtain ⟨hcopied, hwork⟩ := h
  have htouched := takeChunks_touched (skip + length) d.chunks
  unfold Deframer.copiedBytes Deframer.pending at hcopied
  unfold Deframer.workUnits Deframer.pending at hwork
  refine ⟨?_, ?_⟩
  · unfold Deframer.take Deframer.copiedBytes Deframer.pending
    simp only
    omega
  · unfold Deframer.take Deframer.workUnits Deframer.pending
    simp only
    omega

/-- Draining is paid for by what was received. -/
theorem Deframer.Costs.drain (h : d.Costs received) (fuel : ℕ) : (d.drain fuel).2.Costs received := by
  induction fuel generalizing d with
  | zero => exact h
  | succ fuel ih =>
    rw [Deframer.drain]
    dsimp only
    split_ifs with hheader hlarge hzero hshort
    · exact h
    · exact h
    · exact h
    · exact h
    · have hframe : 5 ≤ prefixBytes + d.readLength := by
        unfold prefixBytes
        omega
      exact ih (h.take hframe (Nat.not_lt.1 hshort))

/-- **Receiving costs as much as arrives**, however it is cut up: every byte is copied twice at most, and the work is a
little over twice the bytes. -/
theorem costs_linear (chunks : List Bytes) :
    (chunks.foldl (fun d chunk => (d.push chunk).2) Deframer.empty).copiedBytes ≤ 2 * chunks.flatten.length ∧
      5 * (chunks.foldl (fun d chunk => (d.push chunk).2) Deframer.empty).workUnits ≤ 11 * chunks.flatten.length := by
  have hcosts : (chunks.foldl (fun d chunk => (d.push chunk).2) Deframer.empty).Costs chunks.flatten.length := by
    induction chunks using List.reverseRecOn with
    | nil => exact ⟨rfl, le_rfl⟩
    | append_singleton chunks chunk ih =>
      rw [List.foldl_append, List.flatten_append, List.flatten_singleton, List.length_append]
      exact (ih.hold chunk).drain _
  obtain ⟨hcopied, hwork⟩ := hcosts
  constructor <;> omega

/-! ## Frames -/

/-- What the framing writes for a payload. -/
theorem frame_eq {payload framed : Bytes} (h : frame payload = .ok framed) :
    payload.length ≤ frameBytes ∧ framed = beBytes prefixBytes payload.length ++ payload := by
  unfold frame at h
  split_ifs at h with hlarge
  cases h
  exact ⟨Nat.not_lt.1 hlarge, rfl⟩

/-- The length of a payload is read back. -/
theorem beNat_length {payload : Bytes} (h : payload.length ≤ frameBytes) :
    beNat (beBytes prefixBytes payload.length) = payload.length := by
  apply beNat_beBytes
  unfold frameBytes at h
  unfold prefixBytes
  omega

/-- A frame is read back, whatever follows it. -/
theorem cutFrame_frame {payload framed : Bytes} (h : frame payload = .ok framed) (hne : payload ≠ []) (more : Bytes) :
    framing.cut (framed ++ more) = .item payload more := by
  obtain ⟨hfit, rfl⟩ := frame_eq h
  have hpos := List.length_pos_iff.2 hne
  rw [framing_cut]
  unfold cutFrame
  have hheader : (beBytes prefixBytes payload.length ++ payload ++ more).take prefixBytes =
      beBytes prefixBytes payload.length := by
    rw [List.append_assoc]
    exact List.take_left' (length_beBytes _ _)
  have hwhole : (beBytes prefixBytes payload.length ++ payload).length = prefixBytes + payload.length := by
    rw [List.length_append, length_beBytes]
  rw [hheader, beNat_length hfit, List.length_append, hwhole]
  dsimp only
  rw [if_neg (by omega), if_neg (by omega), if_neg (by omega), if_neg (by omega), ← hwhole,
    List.take_left, List.drop_left, List.drop_left' (length_beBytes _ _)]

/-- Less than a whole frame. -/
def Truncated (tail : Bytes) : Prop := ∃ payload framed, frame payload = .ok framed ∧ tail <+: framed ∧ tail ≠ framed

/-- A truncated frame waits for the rest of it. -/
theorem cutFrame_truncated {tail : Bytes} (h : Truncated tail) : framing.cut tail = .wait := by
  obtain ⟨payload, framed, hframe, ⟨rest, hrest⟩, hproper⟩ := h
  obtain ⟨hfit, rfl⟩ := frame_eq hframe
  have hlength := congrArg List.length hrest
  rw [List.length_append, List.length_append, length_beBytes] at hlength
  have hpos : 0 < rest.length := by
    by_contra hzero
    have hnil : rest = [] := List.length_eq_zero_iff.1 (by omega)
    rw [hnil, List.append_nil] at hrest
    exact hproper hrest
  rw [framing_cut]
  unfold cutFrame
  by_cases hheader : tail.length < prefixBytes
  · rw [if_pos hheader]
  · have hfront : tail.take prefixBytes = beBytes prefixBytes payload.length := by
      rw [← @List.take_append_of_le_length _ _ rest _ (Nat.not_lt.1 hheader), hrest]
      exact List.take_left' (length_beBytes _ _)
    rw [if_neg hheader, hfront, beNat_length hfit]
    dsimp only
    rw [if_neg (by omega), if_neg (by omega), if_pos (by omega)]

/-- Frames read as their messages, and what follows them waits. -/
theorem reads_frames {messages frames : List Bytes} (h : messages.mapM frame = .ok frames)
    (hne : ∀ m ∈ messages, m ≠ []) {tail : Bytes} (htail : framing.cut tail = .wait) :
    reads framing (frames.flatten ++ tail) = (messages, .ok tail) := by
  induction messages generalizing frames with
  | nil =>
    cases h
    exact reads_wait htail
  | cons m messages ih =>
    rw [List.mapM_cons] at h
    cases hm : frame m with
    | error e =>
      rw [hm] at h
      cases h
    | ok framed =>
      cases hms : messages.mapM frame with
      | error e =>
        rw [hm, hms] at h
        cases h
      | ok rest =>
        rw [hm, hms] at h
        cases h
        have hrest := ih hms fun m' hm' => hne m' (List.mem_cons_of_mem _ hm')
        rw [List.flatten_cons, List.append_assoc, reads_item (cutFrame_frame hm (hne m List.mem_cons_self) _), hrest]

/-- **Framing does not depend on the chunks.** Frames of messages that are not empty, a truncated one
behind them at most, deliver the messages, and hold what is left. Two ways to cut one stream deliver
messages that agree as far as both go, and refuse or hold the same. -/
theorem feed_frames {messages frames : List Bytes} (hframes : messages.mapM frame = .ok frames)
    (hne : ∀ m ∈ messages, m ≠ []) {tail : Bytes} (htail : tail = [] ∨ Truncated tail) {chunks : List Bytes}
    (hchunks : chunks.flatten = frames.flatten ++ tail) {xs ys : List Bytes} (hsame : xs.flatten = ys.flatten) :
    (∃ d, Deframer.empty.feed chunks = (messages, .ok d) ∧ d.chunks.flatten = tail ∧ d.pending = tail.length) ∧
    ((Deframer.empty.feed xs).1 <+: (Deframer.empty.feed ys).1 ∨
      (Deframer.empty.feed ys).1 <+: (Deframer.empty.feed xs).1) ∧
    (Deframer.empty.feed xs).2.map (fun d => d.chunks.flatten) =
      (Deframer.empty.feed ys).2.map (fun d => d.chunks.flatten) ∧
    (∀ d, (Deframer.empty.feed xs).2 = .ok d → (Deframer.empty.feed xs).1 = (Deframer.empty.feed ys).1) := by
  -- what is left over at the end is not a frame yet
  have hwait : framing.cut tail = .wait := by
    rcases htail with rfl | htail
    · exact cutFrame_nil
    · exact cutFrame_truncated htail
  obtain ⟨hout, hend⟩ := feed_eq .empty chunks
  obtain ⟨hxs, hxs'⟩ := feed_eq .empty xs
  obtain ⟨hys, hys'⟩ := feed_eq .empty ys
  have hempty : Deframer.empty.chunks.flatten = [] := rfl
  rw [hempty] at hout hend hxs hxs' hys hys'
  obtain ⟨hagree, hsameEnd, hall⟩ := feed_agree cutFrame_nil hsame
  obtain ⟨-, hstop, hitems⟩ := feed_spec cutFrame_nil chunks
  rw [List.nil_append, hchunks, reads_frames hframes hne hwait] at hstop hitems
  -- the deframer is the framing's reader, so its answers depend on the bytes and not on the chunks
  refine ⟨?_, ?_, ?_, ?_⟩
  · cases hfinal : (Deframer.empty.feed chunks).2 with
    | error e =>
      rw [hfinal, hstop] at hend
      cases hend
    | ok d =>
      rw [hfinal, hstop] at hend
      have hheld : d.chunks.flatten = tail := Except.ok.inj hend
      refine ⟨d, Prod.ext (hout.trans (hitems tail hstop)) hfinal, hheld, ?_⟩
      unfold Deframer.pending
      rw [d.held_eq, hheld]
  · rw [hxs, hys]
    exact hagree
  · rw [hxs', hys', hsameEnd]
  · intro d hd
    rw [hd] at hxs'
    rw [hxs, hys]
    exact hall d.chunks.flatten hxs'.symm

/-- Two messages, and two bytes of a third frame. -/
theorem feed_frames_two :
    (∃ d, Deframer.empty.feed [[0, 0], [0, 1, 7, 0, 0], [0], [2, 8, 9, 0, 0]] = ([[7], [8, 9]], .ok d) ∧
      d.chunks.flatten = [0, 0] ∧ d.pending = [(0 : UInt8), 0].length) ∧
    ((Deframer.empty.feed [[0], [0]]).1 <+: (Deframer.empty.feed [[0, 0]]).1 ∨
      (Deframer.empty.feed [[0, 0]]).1 <+: (Deframer.empty.feed [[0], [0]]).1) ∧
    (Deframer.empty.feed [[0], [0]]).2.map (fun d => d.chunks.flatten) =
      (Deframer.empty.feed [[0, 0]]).2.map (fun d => d.chunks.flatten) ∧
    (∀ d, (Deframer.empty.feed [[0], [0]]).2 = .ok d →
      (Deframer.empty.feed [[0], [0]]).1 = (Deframer.empty.feed [[0, 0]]).1) :=
  @feed_frames [[7], [8, 9]] [[0, 0, 0, 1, 7], [0, 0, 0, 2, 8, 9]]
    rfl (by decide) [0, 0] (.inr ⟨[1], [0, 0, 0, 1, 1], rfl, by decide, by decide⟩) _ rfl _ _ rfl

/-- An empty message has a frame, which is refused; and what is delivered before a refusal depends on
where the chunks end. -/
theorem empty_message_refused : frame [] = .ok [0, 0, 0, 0] ∧
    (Deframer.empty.feed [[0, 0, 0, 0]]).1 = [] ∧
    (Deframer.empty.feed [[0, 0, 0, 0]]).2.map (fun d => d.chunks.flatten) = .error emptyFrame ∧
    (Deframer.empty.feed [[0, 0, 0, 1, 7], [0, 0, 0, 0]]).1 = [[7]] ∧
    (Deframer.empty.feed [[0, 0, 0, 1, 7, 0, 0, 0, 0]]).1 = [] :=
  ⟨rfl, rfl, rfl, rfl, rfl⟩

end VayuWeb.Swarm
