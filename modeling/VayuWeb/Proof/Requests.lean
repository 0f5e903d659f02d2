import VayuWeb.Proof.ControlApi

/-!
# What the client asks the listener does

The head that the client writes is lines (`requestHead_eq`), which the listener reads as the method, the path and four
headers (`parse_requestHead`).

* `request_taken`: the listener takes a request for what it is, in whatever chunks it arrives, and refuses it for its
  token alone.
* `route_eq`: each request has an endpoint of its own.
* `endpoint_of_not_mutating`: a request that is not said to change the node changes nothing that it may set.
-/

namespace VayuWeb.Client.Control

open Bytes Serve

/-- A token as it may stand in a head: of visible characters, and short enough for the head bound. -/
structure Presentable (token : Bytes) : Prop where
  ne_nil : token ≠ []
  visible : ∀ b ∈ token, 33 ≤ b.toNat ∧ b.toNat < 127
  short : token.length ≤ 16000

variable {request : ControlRequest} {token : Bytes}

/-! ## The head -/

/-- The line that asks, and the line that presents the token. -/
def askLine (request : ControlRequest) : Bytes :=
  utf8Encode request.route.1 ++ [32] ++ utf8Encode request.route.2 ++ utf8Encode " HTTP/1.1"

/-- The header line that carries the token. -/
def tokenLine (token : Bytes) : Bytes := utf8Encode "authorization: Bearer " ++ token

/-- The lines of a head. -/
def linesOf (request : ControlRequest) (token : Bytes) : List Bytes :=
  [askLine request, utf8Encode "host: localhost", utf8Encode "X-VayuWeb-Control: 1", tokenLine token,
    utf8Encode "connection: close"]

/-- The head is its lines, one after another. -/
theorem requestHead_eq (request : ControlRequest) (token : Bytes) :
    requestHead request token = wire (([13, 10] : Bytes).intercalate (linesOf request token)) [] := by
  have hversion : utf8Encode " HTTP/1.1\r\n" = utf8Encode " HTTP/1.1" ++ [13, 10] := by decide
  have hhost : utf8Encode "host: localhost\r\n" = utf8Encode "host: localhost" ++ [13, 10] := by decide
  have hcontrol : utf8Encode controlHeader ++ utf8Encode ": 1\r\n" = utf8Encode "X-VayuWeb-Control: 1" ++ [13, 10] := by
    decide
  have hclose : utf8Encode "connection: close\r\n" = utf8Encode "connection: close" ++ [13, 10] := by decide
  have hbreak : utf8Encode "\r\n" = [13, 10] := by decide
  unfold requestHead wire linesOf tokenLine askLine headTerminator
  simp only [List.intercalate_cons_cons, List.intercalate_singleton, hversion, hhost, hclose, hbreak,
    List.append_assoc, List.append_nil]
  rw [← List.append_assoc (utf8Encode controlHeader), hcontrol]
  simp only [List.append_assoc]
  rfl

/-- No line of a request breaks. -/
theorem lines_linesOf (h : Presentable token) (request : ControlRequest) : Lines 13 (linesOf request token) := by
  have hplain : ∀ line ∈ [askLine request, utf8Encode "host: localhost", utf8Encode "X-VayuWeb-Control: 1",
      utf8Encode "connection: close"], line ≠ [] ∧ (13 : UInt8) ∉ line := by
    simp only [List.forall_mem_cons, List.not_mem_nil, false_imp_iff, implies_true, and_true]
    cases request <;> decide
  simp only [List.forall_mem_cons, List.not_mem_nil, false_imp_iff, implies_true, and_true] at hplain
  obtain ⟨hask, hhost, hcontrol, hclose⟩ := hplain
  have htoken : tokenLine token ≠ [] ∧ 13 ∉ tokenLine token := by
    refine ⟨List.append_ne_nil_of_right_ne_nil _ h.ne_nil, ?_⟩
    intro hmem
    rcases List.mem_append.1 hmem with hmem | hmem
    · exact absurd hmem (by decide)
    · exact absurd (h.visible _ hmem).1 (by decide)
  refine ⟨List.cons_ne_nil _ _, ?_⟩
  unfold linesOf
  simp only [List.forall_mem_cons, List.not_mem_nil, false_imp_iff, implies_true, and_true]
  exact ⟨hask, hhost, hcontrol, htoken, hclose⟩

/-! ## What the listener reads -/

/-- What a request is read as. -/
def headOf (request : ControlRequest) (token : Bytes) : RequestHead where
  method := Utf16.of request.route.1
  target := Utf16.of request.route.2
  headers :=
    [(Utf16.of "host", Utf16.of "localhost"), (VayuWeb.Control.controlHeader, Utf16.of "1"),
      (Utf16.of "authorization", Utf16.of "Bearer " ++ latin1 token), (Utf16.of "connection", Utf16.of "close")]
  body := []

/-- A character that is visible is not trimmed. -/
theorem isTrimmed_visible {b : UInt8} (h : 33 ≤ b.toNat ∧ b.toNat < 127) :
    isTrimmed (UInt16.ofNat b.toNat) = false := by
  have hnat : (UInt16.ofNat b.toNat).toNat = b.toNat := by
    rw [UInt16.toNat_ofNat']
    omega
  unfold isTrimmed
  rw [hnat, Bool.or_eq_false_iff, List.contains_eq_mem, decide_eq_false_iff_not]
  simp only [List.mem_cons, List.not_mem_nil, or_false, Bool.and_eq_false_iff, decide_eq_false_iff_not]
  omega

theorem trim_bearer (h : Presentable token) :
    trim (32 :: (Utf16.of "Bearer " ++ latin1 token)) = Utf16.of "Bearer " ++ latin1 token := by
  have hfront : (32 :: (Utf16.of "Bearer " ++ latin1 token)).dropWhile isTrimmed =
      Utf16.of "Bearer " ++ latin1 token := rfl
  -- the last character of the token stands at the end, and stays
  obtain ⟨front, last, hlast, hvisible⟩ : ∃ front last, token = front ++ [last] ∧ 33 ≤ last.toNat ∧ last.toNat < 127 :=
    ⟨_, _, (List.dropLast_append_getLast h.ne_nil).symm, h.visible _ (List.getLast_mem h.ne_nil)⟩
  have hend : Utf16.of "Bearer " ++ latin1 token =
      (Utf16.of "Bearer " ++ latin1 front) ++ [UInt16.ofNat last.toNat] := by
    rw [hlast, latin1, List.map_append, List.append_assoc]
    rfl
  rw [trim, hfront, hend, List.reverse_concat, List.dropWhile_cons_of_neg (by rw [isTrimmed_visible hvisible]; decide),
    List.reverse_cons, List.reverse_reverse]

theorem notMem_latin1 {bytes : Bytes} (h : (13 : UInt8) ∉ bytes) : (13 : UInt16) ∉ latin1 bytes := by
  intro hmem
  obtain ⟨b, hb, heq⟩ := List.mem_map.1 hmem
  have hnat := congrArg UInt16.toNat heq
  have hbound := b.toNat_lt
  rw [UInt16.toNat_ofNat'] at hnat
  have hvalue : b.toNat = (13 : UInt8).toNat := by
    change b.toNat % 65536 = 13 at hnat
    change b.toNat = 13
    omega
  exact h (UInt8.toNat_inj.1 hvalue ▸ hb)

/-- Lines are decoded one by one. -/
theorem latin1_join (lines : List Bytes) :
    latin1 (([13, 10] : Bytes).intercalate lines) = ([13, 10] : Utf16).intercalate (lines.map latin1) := by
  induction lines with
  | nil => rfl
  | cons line lines ih =>
    cases lines with
    | nil => rw [List.intercalate_singleton, List.map_singleton, List.intercalate_singleton]
    | cons next lines =>
      rw [List.intercalate_cons_cons, List.map_cons, List.map_cons, List.intercalate_cons_cons, ← List.map_cons, ← ih,
        latin1, List.map_append, List.map_append]
      rfl

/-- **The listener reads the head as what was asked.** -/
theorem parse_requestHead (h : Presentable token) (request : ControlRequest) :
    parseHead (latin1 (([13, 10] : Bytes).intercalate (linesOf request token))) = .ok (headOf request token) := by
  have hlines : Lines 13 ((linesOf request token).map latin1) := by
    obtain ⟨hne, hall⟩ := lines_linesOf h request
    refine ⟨fun hnil => hne (List.map_eq_nil_iff.1 hnil), ?_⟩
    intro line hline
    obtain ⟨bytes, hbytes, rfl⟩ := List.mem_map.1 hline
    obtain ⟨hsome, hplain⟩ := hall bytes hbytes
    exact ⟨fun hnil => hsome (List.map_eq_nil_iff.1 hnil), notMem_latin1 hplain⟩
  have hvalue : latin1 (tokenLine token) = Utf16.of "authorization:" ++ 32 :: (Utf16.of "Bearer " ++ latin1 token) := by
    rw [tokenLine, latin1, List.map_append]
    rfl
  have htrim := trim_bearer h
  unfold parseHead headOf
  rw [latin1_join, splitLines_join hlines, linesOf]
  simp only [List.map_cons, List.map_nil, hvalue]
  generalize hbearer : Utf16.of "Bearer " ++ latin1 token = value at htrim ⊢
  have hheaders : readHeaders [latin1 (utf8Encode "host: localhost"), latin1 (utf8Encode "X-VayuWeb-Control: 1"),
      Utf16.of "authorization:" ++ 32 :: value, latin1 (utf8Encode "connection: close")] [] =
      .ok [(Utf16.of "host", Utf16.of "localhost"), (VayuWeb.Control.controlHeader, Utf16.of "1"),
        (Utf16.of "authorization", trim (32 :: value)), (Utf16.of "connection", Utf16.of "close")] := by
    rfl
  -- the one header whose value is not fixed is the token's, which the trim leaves as it was
  rw [htrim] at hheaders
  have hask : (latin1 (askLine request)).splitOn 32 =
      [Utf16.of request.route.1, Utf16.of request.route.2, Utf16.of "HTTP/1.1"] := by
    cases request <;> decide
  have hversion : isVersion (Utf16.of "HTTP/1.1") = true := by decide
  have hmethod : isMethod (Utf16.of request.route.1) = true := by
    cases request <;> decide
  have htarget : ¬ ((Utf16.of request.route.2).length = 0 ∨ (Utf16.of request.route.2).length > targetBytes) := by
    cases request <;> decide
  simp only [List.headD_cons, List.tail_cons, hask]
  rw [if_neg (not_not.2 hversion), if_neg (not_not.2 hmethod), if_neg htarget, hheaders]
  rfl

/-- The bytes that the client writes are one request, with no body. -/
theorem isRequest_requestHead (h : Presentable token) (request : ControlRequest) :
    IsRequest (([13, 10] : Bytes).intercalate (linesOf request token)) [] (headOf request token) .none where
  first := by
    rw [List.append_assoc]
    exact indexOf_join (lines_linesOf h request) []
  parses := parse_requestHead h request
  frames := rfl
  within := by
    have hask : (askLine request).length ≤ 40 := by
      cases request <;> decide
    have hshort := h.short
    have hlengths : (utf8Encode "host: localhost").length = 15 ∧ (utf8Encode "X-VayuWeb-Control: 1").length = 20 ∧
        (utf8Encode "authorization: Bearer ").length = 22 ∧ (utf8Encode "connection: close").length = 17 := by decide
    unfold linesOf tokenLine headTerminator headBytes
    simp only [List.intercalate_cons_cons, List.intercalate_singleton, List.length_append, List.length_cons,
      List.length_nil, hlengths]
    omega
  length_eq := rfl

end VayuWeb.Client.Control

namespace VayuWeb.Control

open Serve
open Client.Control (Presentable headOf linesOf requestHead requestHead_eq isRequest_requestHead)

variable {π : Type} (ports : ControlPorts π) {request : Client.Control.ControlRequest} {token : Bytes}

/-! ## What the listener does -/

/-- The endpoint that a request is for. -/
def endpoint : Client.Control.ControlRequest → Port π ControlResponse
  | .health => reply (ok (object [("ok", .bool true)]))
  | .status => getStatus ports
  | .logHead => answer ports.logHead ok
  | .config => answer ports.config fun members => ok (.object (redact members))
  | .diagnostics => answer ports.diagnostics fun on => ok (object [("enabled", .bool on)])
  | .diagnosticsOn => answer (ports.setDiagnostics true) fun _ => ok (object [("enabled", .bool true)])
  | .diagnosticsOff => answer (ports.setDiagnostics false) fun _ => ok (object [("enabled", .bool false)])

/-- **Each request has an endpoint of its own.** -/
theorem route_eq (request : Client.Control.ControlRequest) (token : Bytes) :
    route ports (requestOf (headOf request token)) = endpoint ports request := by
  cases request <;> rfl

/-- A request that is not said to change the node changes nothing that it may set. -/
theorem endpoint_of_not_mutating (h : request.isMutating = false) (other : Bool → Port π Unit) :
    endpoint { ports with setDiagnostics := other } request = endpoint ports request := by
  cases request with
  | diagnosticsOn => cases h
  | diagnosticsOff => cases h
  | _ => rfl

/-- The gate refuses what the client asks for its token alone. -/
theorem gate_requestHead (decode64 : Utf16 → Bytes) (request : Client.Control.ControlRequest) (token : Bytes)
    (expected : Utf16) : gate decode64 (requestOf (headOf request token)) expected =
      if tokenMatches decode64 (latin1 token) expected then none else some (deny 401 "unauthorised") := by
  have hpresented : presented (requestOf (headOf request token)) = latin1 token := by
    have hfound : (requestOf (headOf request token)).headers.get? (Utf16.of "authorization") =
        some (Utf16.of "Bearer " ++ latin1 token) := rfl
    unfold presented
    rw [hfound, Option.getD_some, if_pos (List.prefix_append _ _)]
    rfl
  have hconnection : (requestOf (headOf request token)).headers.get? (Utf16.of "connection") =
      some (Utf16.of "close") := rfl
  have hupgrade : (requestOf (headOf request token)).headers.get? (Utf16.of "upgrade") = none := rfl
  have hclose : mentions "upgrade" (Utf16.of "close") = false := by decide
  have horigin : (requestOf (headOf request token)).headers.get? (Utf16.of "origin") = none := rfl
  have hheader : (requestOf (headOf request token)).headers.get? controlHeader = some (Utf16.of "1") := rfl
  unfold gate
  rw [hconnection, hupgrade, horigin, Option.getD_some, hclose, if_neg (by simp), if_neg (by simp),
    if_neg (not_not.2 hheader), hpresented]
  cases tokenMatches decode64 (latin1 token) expected <;> rfl

/-- **The listener takes what the client asks for what it is**, in whatever chunks it arrives: it hands on the one
request, and answers it at its endpoint, unless its token is not the one that is expected. -/
theorem request_taken (h : Presentable token) {chunks : List Bytes}
    (hchunks : chunks.flatten = requestHead request token)
    (decode64 : Utf16 → Bytes) (expected : Utf16) (s : π) :
    Connection.serve true .fresh chunks = [.respond (headOf request token)] ∧
      handleControlRequest ports decode64 (requestOf (headOf request token)) expected s =
        if tokenMatches decode64 (latin1 token) expected then endpoint ports request s
        else (some (deny 401 "unauthorised"), s) := by
  have hrequest := isRequest_requestHead h request
  have hwire : chunks.flatten = wire (([13, 10] : Bytes).intercalate (linesOf request token)) [] := by
    rw [hchunks, requestHead_eq]
  have hfits : HeadFits (([13, 10] : Bytes).intercalate (linesOf request token)) chunks := by
    have hlength := congrArg List.length hwire
    rw [length_wire] at hlength
    have hwithin := hrequest.within
    refine ⟨chunks.length, ?_, ?_⟩
    · rw [List.take_length]
      omega
    · rw [List.take_length, hlength]
      exact hwithin
  refine ⟨serve_of_fits hrequest hwire hfits, ?_⟩
  unfold handleControlRequest
  rw [gate_requestHead, route_eq]
  split_ifs <;> rfl

end VayuWeb.Control
