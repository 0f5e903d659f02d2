import VayuWeb.Spec.Serve

/-!
# One request in chunks

A connection collects chunks until the blank line of the head is there, and refuses a buffer that is over
the head bound before that. The bound is on all that has arrived, so a chunk that completes the head and
brings much of the body with it is refused (`serve_iff`).
-/

namespace VayuWeb.Serve

open Search

/-- Bytes that are one request: a head that ends at its first blank line, is read, and is within the head
bound, and the body of the length that it declares. -/
structure IsRequest (head body : Bytes) (parsed : RequestHead) (frame : Framing) : Prop where
  first : indexOf headTerminator (head ++ headTerminator ++ body) = some head.length
  parses : parseHead (latin1 head) = .ok parsed
  frames : framing parsed.headers bodyBytes = .ok frame
  within : head.length + headTerminator.length ≤ headBytes
  length_eq : body.length = frame.length

/-- The bytes of a request on the wire. -/
def wire (head body : Bytes) : Bytes := head ++ headTerminator ++ body

/-- The chunks that complete the head stay within the head bound, with what they bring of the body. -/
def HeadFits (head : Bytes) (chunks : List Bytes) : Prop :=
  ∃ n, head.length + headTerminator.length ≤ (chunks.take n).flatten.length ∧
    (chunks.take n).flatten.length ≤ headBytes

variable {head body : Bytes} {parsed : RequestHead} {frame : Framing} {chunks : List Bytes}

theorem length_wire : (wire head body).length = head.length + headTerminator.length + body.length := by
  unfold wire
  rw [List.length_append, List.length_append]

/-- What has been answered is not answered again. -/
theorem serve_done {acceptsBody : Bool} {c : Connection} (h : c.done = true) : c.serve acceptsBody chunks = [] := by
  induction chunks with
  | nil => rfl
  | cons chunk chunks ih =>
    rw [Connection.serve, Connection.onData, if_pos h]
    exact ih

/-! ## After the head -/

/-- **Once the head is read** the rest of the body is waited for, and the request is handed on. -/
theorem serve_settled {buffer : Bytes} (hlength : body.length = frame.length)
    (hbuffer : buffer ++ chunks.flatten = wire head body)
    (hhead : head.length + headTerminator.length ≤ buffer.length) :
    let c : Connection :=
      { buffer := buffer, done := false, head := some { headEnd := head.length, parsed := parsed, frame := frame } }
    (c.settle { headEnd := head.length, parsed := parsed, frame := frame }).2.toList ++
      (c.settle { headEnd := head.length, parsed := parsed, frame := frame }).1.serve true chunks =
      [.respond { parsed with body := body }] := by
  induction chunks generalizing buffer with
  | nil =>
    rw [List.flatten_nil, List.append_nil] at hbuffer
    have htotal := @length_wire head body
    rw [← hbuffer] at htotal
    have hbody : buffer.drop (head.length + headTerminator.length) = body := by
      rw [hbuffer]
      unfold wire
      exact List.drop_left' (List.length_append)
    unfold Connection.settle
    dsimp only
    rw [if_neg (by omega), if_neg (by omega), hbody]
    rfl
  | cons chunk chunks ih =>
    have htotal := congrArg List.length hbuffer
    rw [List.length_append, length_wire] at htotal
    by_cases hwhole : buffer.length = (wire head body).length
    · -- the body is there, and what follows is empty
      have hrest : (chunk :: chunks).flatten = [] := by
        rw [← List.length_eq_zero_iff]
        rw [length_wire] at hwhole
        omega
      rw [hrest, List.append_nil] at hbuffer
      have hbody : buffer.drop (head.length + headTerminator.length) = body := by
        rw [hbuffer]
        unfold wire
        exact List.drop_left' (List.length_append)
      rw [length_wire] at hwhole
      unfold Connection.settle
      dsimp only
      rw [if_neg (by omega), if_neg (by omega), hbody]
      dsimp only
      rw [serve_done rfl]
      rfl
    -- the body is not complete: this chunk is only stored, whatever the buffer held
    · rw [length_wire] at hwhole
      rw [List.flatten_cons, ← List.append_assoc] at hbuffer
      have hnext := ih hbuffer (by rw [List.length_append]; omega)
      have hwait : ∀ c : Connection, c.buffer = buffer →
          c.settle { headEnd := head.length, parsed := parsed, frame := frame } = (c, none) := by
        intro c hc
        unfold Connection.settle
        dsimp only
        rw [hc, if_neg (by omega), if_pos (by omega)]
      dsimp only at hnext ⊢
      rw [hwait _ rfl, Connection.serve, Connection.onData]
      exact hnext

/-! ## Before the head -/

/-- What was read of a request is its front. -/
theorem take_of_append {buffer : Bytes} (hbuffer : buffer ++ chunks.flatten = wire head body) :
    (wire head body).take buffer.length = buffer := by
  rw [← hbuffer]
  exact List.take_left

/-- A request's head is read off a buffer that has all of it. -/
theorem readHead_wire (h : IsRequest head body parsed frame) {buffer : Bytes}
    (hbuffer : buffer ++ chunks.flatten = wire head body)
    (hhead : head.length + headTerminator.length ≤ buffer.length) :
    readHead buffer head.length = .ok { headEnd := head.length, parsed := parsed, frame := frame } := by
  have hfront : buffer.take head.length = head := by
    rw [← take_of_append hbuffer, List.take_take, Nat.min_eq_left (by omega)]
    unfold wire
    rw [List.append_assoc]
    exact List.take_left
  unfold readHead
  rw [hfront, h.parses]
  change (framing parsed.headers bodyBytes).bind _ = _
  rw [h.frames]
  rfl

/-- **Before the head is complete** chunks are collected; the one that completes it decides. -/
theorem serve_collecting (h : IsRequest head body parsed frame) {buffer : Bytes}
    (hbuffer : buffer ++ chunks.flatten = wire head body)
    (hshort : buffer.length < head.length + headTerminator.length) :
    ((∃ n, head.length + headTerminator.length ≤ buffer.length + (chunks.take n).flatten.length ∧
        buffer.length + (chunks.take n).flatten.length ≤ headBytes) →
      Connection.serve true { buffer := buffer, done := false, head := none } chunks =
        [.respond { parsed with body := body }]) ∧
    ((¬ ∃ n, head.length + headTerminator.length ≤ buffer.length + (chunks.take n).flatten.length ∧
        buffer.length + (chunks.take n).flatten.length ≤ headBytes) →
      Connection.serve true { buffer := buffer, done := false, head := none } chunks = [.refuse .headTooLarge]) := by
  have hwithin := h.within
  have hlength := @length_wire head body
  induction chunks generalizing buffer with
  | nil =>
    rw [List.flatten_nil, List.append_nil] at hbuffer
    rw [← hbuffer] at hlength
    omega
  | cons chunk chunks ih =>
    rw [List.flatten_cons, ← List.append_assoc] at hbuffer
    have hfront := take_of_append hbuffer
    rw [Connection.serve, Connection.onData]
    simp only [Bool.false_eq_true, if_false]
    by_cases hcomplete : head.length + headTerminator.length ≤ (buffer ++ chunk).length
    · by_cases hlarge : (buffer ++ chunk).length > headBytes
      · -- the buffer is over the bound with the head in it
        rw [if_pos hlarge]
        refine ⟨?_, fun _ => ?_⟩
        · rintro ⟨n, hn, hle⟩
          exfalso
          cases n with
          | zero =>
            rw [List.take_zero, List.flatten_nil, List.length_nil] at hn
            omega
          | succ n =>
            rw [List.take_succ_cons, List.flatten_cons, List.length_append] at hle
            rw [List.length_append] at hlarge
            omega
        · unfold Connection.refuse
          dsimp only
          rw [serve_done rfl]
          rfl
      · have hfound : indexOf headTerminator (buffer ++ chunk) = some head.length := by
          rw [← hfront]
          exact indexOf_of_take h.first hcomplete
        have hread := readHead_wire h hbuffer hcomplete
        have hsettled := @serve_settled head body parsed frame _ _ h.length_eq hbuffer hcomplete
        rw [if_neg hlarge, hfound]
        dsimp only
        rw [hread]
        dsimp only at hsettled ⊢
        simp only [not_true_eq_false, false_and, if_false]
        refine ⟨fun _ => hsettled, fun hnot => absurd ⟨1, ?_, ?_⟩ hnot⟩
        · rw [List.take_succ_cons, List.take_zero, List.flatten_singleton]
          rw [List.length_append] at hcomplete
          exact hcomplete
        · rw [List.take_succ_cons, List.take_zero, List.flatten_singleton]
          rw [List.length_append] at hlarge
          omega
    · -- no blank line yet
      have hmissing : indexOf headTerminator (buffer ++ chunk) = none := by
        rw [← hfront]
        exact indexOf_of_short h.first (Nat.not_le.1 hcomplete) (List.cons_ne_nil _ _)
      rw [if_neg (by omega), hmissing]
      dsimp only
      obtain ⟨hyes, hno⟩ := ih hbuffer (Nat.not_le.1 hcomplete)
      -- the chunks that complete the head are one more, counted from here
      have hshift : (∃ n, head.length + headTerminator.length ≤ buffer.length +
        ((chunk :: chunks).take n).flatten.length ∧
          buffer.length + ((chunk :: chunks).take n).flatten.length ≤ headBytes) ↔
          ∃ n, head.length + headTerminator.length ≤ (buffer ++ chunk).length + (chunks.take n).flatten.length ∧
            (buffer ++ chunk).length + (chunks.take n).flatten.length ≤ headBytes := by
        constructor
        · rintro ⟨n, hn, hle⟩
          cases n with
          | zero =>
            rw [List.take_zero, List.flatten_nil, List.length_nil] at hn
            omega
          | succ n =>
            rw [List.take_succ_cons, List.flatten_cons, List.length_append] at hn hle
            refine ⟨n, ?_, ?_⟩
            · rw [List.length_append]
              omega
            · rw [List.length_append]
              omega
        · rintro ⟨n, hn, hle⟩
          rw [List.length_append] at hn hle
          refine ⟨n + 1, ?_, ?_⟩
          · rw [List.take_succ_cons, List.flatten_cons, List.length_append]
            omega
          · rw [List.take_succ_cons, List.flatten_cons, List.length_append]
            omega
      rw [hshift]
      exact ⟨hyes, hno⟩

/-- A request whose head is complete within the bound is handed on. -/
theorem serve_of_fits (h : IsRequest head body parsed frame) (hchunks : chunks.flatten = wire head body)
    (hfits : HeadFits head chunks) :
    Connection.serve true .fresh chunks = [.respond { parsed with body := body }] := by
  have hpos : (0 : ℕ) < head.length + headTerminator.length := Nat.add_pos_right _ (by decide)
  have hwire : [] ++ chunks.flatten = wire head body := by rw [List.nil_append, hchunks]
  obtain ⟨hyes, -⟩ := serve_collecting h hwire hpos
  simp only [List.length_nil, Nat.zero_add] at hyes
  exact hyes hfits

/-- **A request is handed on once, with its head and its body**, exactly when the chunks that complete
its head stay within the head bound. -/
theorem serve_iff (h : IsRequest head body parsed frame) (hchunks : chunks.flatten = wire head body) :
    Connection.serve true .fresh chunks = [.respond { parsed with body := body }] ↔ HeadFits head chunks := by
  have hpos : (0 : ℕ) < head.length + headTerminator.length := Nat.add_pos_right _ (by decide)
  have hwire : [] ++ chunks.flatten = wire head body := by rw [List.nil_append, hchunks]
  obtain ⟨hyes, hno⟩ := serve_collecting h hwire hpos
  simp only [List.length_nil, Nat.zero_add] at hyes hno
  by_cases hfits : HeadFits head chunks
  · exact iff_of_true (hyes hfits) hfits
  · refine iff_of_false (fun hresponds => ?_) hfits
    have hrefused := hno hfits
    rw [show Connection.fresh = { buffer := [], done := false, head := none } from rfl, hrefused] at hresponds
    cases hresponds

/-! ## A request of two parts -/

/-- A line has no blank line in it. -/
theorem indexOf_line {line rest : Bytes} (h : 13 ∉ line) :
    indexOf headTerminator (line ++ rest) = (indexOf headTerminator rest).map (· + line.length) := by
  induction line with
  | nil => cases hrest : indexOf headTerminator rest <;> simp [hrest]
  | cons b line ih =>
    rw [List.mem_cons, not_or] at h
    obtain ⟨hb, hline⟩ := h
    have hnot : ¬ headTerminator <+: b :: (line ++ rest) := by
      rintro ⟨tail, htail⟩
      exact hb (List.cons.inj htail).1
    rw [List.cons_append, indexOf_cons hnot, ih hline, Option.map_map]
    congr 1

/-- A line end that another line follows is no blank line. -/
theorem indexOf_break {u : UInt8} {rest : Bytes} (h : u ≠ 13) :
    indexOf headTerminator (13 :: 10 :: u :: rest) = (indexOf headTerminator (u :: rest)).map (· + 2) := by
  have hfirst : ¬ headTerminator <+: 13 :: 10 :: u :: rest := by
    rintro ⟨tail, htail⟩
    exact h (List.cons.inj (List.cons.inj (List.cons.inj htail).2).2).1.symm
  have hsecond : ¬ headTerminator <+: 10 :: u :: rest := by
    rintro ⟨tail, htail⟩
    exact absurd (List.cons.inj htail).1 (by decide)
  rw [indexOf_cons hfirst, indexOf_cons hsecond, Option.map_map]
  congr 1

/-- A line is split off at its break. -/
theorem splitLines_line {line : Utf16} (h : 13 ∉ line) (rest : Utf16) :
    splitLines (line ++ 13 :: 10 :: rest) = line :: splitLines rest := by
  induction line with
  | nil => rw [List.nil_append, splitLines, if_pos ⟨rfl, rfl⟩]
  | cons u line ih =>
    rw [List.mem_cons, not_or] at h
    obtain ⟨hu, hline'⟩ := h
    have hrest := ih hline'
    rw [List.cons_append]
    cases hline : line ++ 13 :: 10 :: rest with
    | nil => cases line <;> cases hline
    | cons v tail =>
      rw [hline] at hrest
      rw [splitLines, if_neg fun hcr => hu hcr.1.symm, hrest]

theorem splitLines_last {line : Utf16} (h : 13 ∉ line) : splitLines line = [line] := by
  induction line with
  | nil => rfl
  | cons u line ih =>
    rw [List.mem_cons, not_or] at h
    obtain ⟨hu, hline'⟩ := h
    have hrest := ih hline'
    cases line with
    | nil => rfl
    | cons v tail => rw [splitLines, if_neg fun hcr => hu hcr.1.symm, hrest]

/-- The octets of an ASCII text. -/
def octets (text : String) : Bytes := text.toList.map fun c => UInt8.ofNat c.toNat

/-- A header line of more than half the head bound. -/
def largeLine : Bytes := octets "x:" ++ List.replicate 9000 97

/-- A head close to the bound. -/
def largeHead : Bytes :=
  octets "POST / HTTP/1.1" ++ 13 :: 10 :: (octets "content-length: 8192" ++ 13 :: 10 :: largeLine)

/-- A body of the largest length. -/
def largeBody : Bytes := List.replicate 8192 0

/-- What that head parses to. -/
def largeParsed : RequestHead :=
  { method := Utf16.of "POST"
    target := Utf16.of "/"
    headers :=
      [(Utf16.of "content-length", Utf16.of "8192"), (Utf16.of "x", trim (latin1 (List.replicate 9000 97)))]
    body := [] }

theorem length_largeHead : largeHead.length = 9041 := by
  unfold largeHead largeLine
  simp only [List.length_append, List.length_cons, List.length_replicate]
  rfl

theorem largeHead_parses : parseHead (latin1 largeHead) = .ok largeParsed := by
  have hfirst : 13 ∉ latin1 (octets "POST / HTTP/1.1") := by decide
  have hsecond : 13 ∉ latin1 (octets "content-length: 8192") := by decide
  have hthird : 13 ∉ latin1 largeLine := by
    intro hmem
    unfold latin1 largeLine at hmem
    rw [List.map_append, List.mem_append, List.map_replicate] at hmem
    rcases hmem with hmem | hmem
    · exact absurd hmem (by decide)
    · exact absurd (List.eq_of_mem_replicate hmem) (by decide)
  have hlines : splitLines (latin1 largeHead) =
      [latin1 (octets "POST / HTTP/1.1"), latin1 (octets "content-length: 8192"), latin1 largeLine] := by
    have hhead : latin1 largeHead = latin1 (octets "POST / HTTP/1.1") ++ 13 :: 10 ::
        (latin1 (octets "content-length: 8192") ++ 13 :: 10 :: latin1 largeLine) := by
      unfold largeHead latin1
      rw [List.map_append, List.map_cons, List.map_cons, List.map_append, List.map_cons, List.map_cons]
      rfl
    rw [hhead, splitLines_line hfirst, splitLines_line hsecond, splitLines_last hthird]
  have hline : latin1 largeLine = 120 :: 58 :: latin1 (List.replicate 9000 97) := rfl
  unfold parseHead largeParsed
  rw [hlines, hline]
  -- what the long line holds after its colon is of no account
  generalize latin1 (List.replicate 9000 97) = value
  rfl

theorem isRequest_large : IsRequest largeHead largeBody largeParsed (.fixed 8192) where
  first := by
    have hthird : 13 ∉ octets "x:" ++ List.replicate 9000 (97 : UInt8) := by
      intro hmem
      rcases List.mem_append.1 hmem with hmem | hmem
      · exact absurd hmem (by decide)
      · exact absurd (List.eq_of_mem_replicate hmem) (by decide)
    have hend : indexOf headTerminator (headTerminator ++ largeBody) = some 0 :=
      indexOf_of_front (List.prefix_append _ _)
    have hlast := @indexOf_line _ (headTerminator ++ largeBody) hthird
    rw [hend] at hlast
    have hsplit : largeHead ++ headTerminator ++ largeBody = octets "POST / HTTP/1.1" ++ 13 :: 10 ::
        (octets "content-length: 8192" ++ 13 :: 10 :: (largeLine ++ (headTerminator ++ largeBody))) := by
      unfold largeHead
      simp only [List.append_assoc, List.cons_append]
    have hbreak : indexOf headTerminator (13 :: 10 :: (largeLine ++ (headTerminator ++ largeBody))) =
        (indexOf headTerminator (largeLine ++ (headTerminator ++ largeBody))).map (· + 2) :=
      indexOf_break (by decide)
    have hbreak' : indexOf headTerminator (13 :: 10 ::
        (octets "content-length: 8192" ++ 13 :: 10 :: (largeLine ++ (headTerminator ++ largeBody)))) =
        (indexOf headTerminator
          (octets "content-length: 8192" ++ 13 :: 10 :: (largeLine ++ (headTerminator ++ largeBody)))).map (· + 2) :=
      indexOf_break (by decide)
    rw [hsplit, indexOf_line (by decide), hbreak', indexOf_line (by decide), hbreak]
    unfold largeLine
    rw [hlast, length_largeHead]
    simp only [List.length_append, List.length_replicate]
    rfl
  parses := largeHead_parses
  frames := by decide
  within := by
    rw [length_largeHead]
    decide
  length_eq := List.length_replicate

/-- A request that is within both bounds and arrives at once is refused for its head. -/
theorem request_at_once_refused :
    IsRequest largeHead largeBody largeParsed (.fixed 8192) ∧
    Connection.serve true .fresh [wire largeHead largeBody] = [.refuse .headTooLarge] := by
  refine ⟨isRequest_large, ?_⟩
  have hlength : (wire largeHead largeBody).length = 17237 := by
    rw [length_wire, length_largeHead]
    unfold largeBody
    rw [List.length_replicate]
    rfl
  rw [Connection.serve, Connection.onData]
  simp only [Connection.fresh, Bool.false_eq_true, if_false, List.nil_append]
  rw [if_pos (by rw [hlength]; decide)]
  rfl

/-- The head of a request with a body of two octets. -/
def shortHead : Bytes := octets "POST / HTTP/1.1\r\ncontent-length: 2"

/-- What the head of a short request parses to. -/
def shortParsed : RequestHead :=
  { method := Utf16.of "POST", target := Utf16.of "/", headers := [(Utf16.of "content-length", Utf16.of "2")],
    body := [] }

/-- A request whose body is cut in two, its head with the one part. -/
theorem serve_iff_two :
    Connection.serve true .fresh [octets "POST / HTTP/1.1\r\ncontent-length: 2\r\n\r\nh", octets "i"] =
      [.respond { shortParsed with body := octets "hi" }] ↔
    HeadFits shortHead [octets "POST / HTTP/1.1\r\ncontent-length: 2\r\n\r\nh", octets "i"] :=
  @serve_iff shortHead (octets "hi") shortParsed (.fixed 2)
    [octets "POST / HTTP/1.1\r\ncontent-length: 2\r\n\r\nh", octets "i"]
    ⟨by decide, by decide, by decide, by decide, rfl⟩ (by decide)

end VayuWeb.Serve
