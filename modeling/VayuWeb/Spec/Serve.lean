import VayuWeb.Base.Search
import VayuWeb.Spec.Proxy

/-!
# One connection (`registry/src/serve.ts`)

`parseHead` reads a request head and `framing` says how long the body is. A `Connection` collects what
arrives until it can answer, and answers once.
-/

namespace VayuWeb.Serve

/-- `SERVE_LIMITS.headBytes`. -/
def headBytes : ℕ := 16384

/-- `SERVE_LIMITS.bodyBytes`. -/
def bodyBytes : ℕ := 8192

/-- `SERVE_LIMITS.headerLines`. -/
def headerLines : ℕ := 100

/-- The codes of a `ServeError` that a connection's bytes lead to. -/
inductive ServeRejection where
  | headTooLarge
  | tooManyHeaders
  | malformedRequest
  | unexpectedBody
  | bodyTooLarge
  | malformedFraming
  deriving DecidableEq, Repr

/-- The code's text. -/
def ServeRejection.name : ServeRejection → String
  | .headTooLarge => "HEAD_TOO_LARGE"
  | .tooManyHeaders => "TOO_MANY_HEADERS"
  | .malformedRequest => "MALFORMED_REQUEST"
  | .unexpectedBody => "UNEXPECTED_BODY"
  | .bodyTooLarge => "BODY_TOO_LARGE"
  | .malformedFraming => "MALFORMED_FRAMING"

/-- An error of the listener, its code in front of its message. -/
structure ServeError where
  code : ServeRejection
  message : String
  deriving DecidableEq

/-- Throws a `ServeError`. -/
def serveError {α : Type} (code : ServeRejection) (message : String) : Except ServeError α :=
  .error { code := code, message := s!"{code.name}: {message}" }

/-- A parsed request, head and body. -/
structure RequestHead where
  method : Utf16
  target : Utf16
  headers : OrdMap Utf16 Utf16
  body : Bytes
  deriving DecidableEq

/-! ## The head -/

/-- `toString('latin1')`: one octet to one character. -/
def latin1 (bytes : Bytes) : Utf16 := bytes.map fun b => UInt16.ofNat b.toNat

/-- A text of such characters. -/
def textOf (units : Utf16) : String := String.ofList (units.map fun u => Char.ofNat u.toNat)

/-- `split('\r\n')`. -/
def splitLines : Utf16 → List Utf16
  | [] => [[]]
  | [u] => [[u]]
  | u :: v :: rest =>
    if u = 13 ∧ v = 10 then [] :: splitLines rest
    else
      match splitLines (v :: rest) with
      | [] => [[u]]
      | line :: lines => (u :: line) :: lines

/-- `HTTP/1.0` or `HTTP/1.1`. -/
def isVersion (version : Utf16) : Bool := version = Utf16.of "HTTP/1.0" || version = Utf16.of "HTTP/1.1"

/-- Three to ten capital letters. -/
def isMethod (method : Utf16) : Bool :=
  3 ≤ method.length && method.length ≤ 10 && method.all fun u => 65 ≤ u.toNat && u.toNat ≤ 90

/-- `toLowerCase` of a character of one octet. -/
def lowerOctet (u : UInt16) : UInt16 :=
  if 65 ≤ u.toNat ∧ u.toNat ≤ 90 ∨ 0xC0 ≤ u.toNat ∧ u.toNat ≤ 0xDE ∧ u.toNat ≠ 0xD7 then u + 32 else u

/-- A character of a token, in lower case. -/
def isTokenUnit (u : UInt16) : Bool :=
  (Utf16.of "!#$%&'*+.^_`|~-").contains u || 48 ≤ u.toNat && u.toNat ≤ 57 || 97 ≤ u.toNat && u.toNat ≤ 122

/-- Header lines, each a name and a value; empty ones are passed over. -/
def readHeaders : List Utf16 → OrdMap Utf16 Utf16 → Except ServeError (OrdMap Utf16 Utf16)
  | [], headers => .ok headers
  | line :: lines, headers =>
    if line.length = 0 then readHeaders lines headers
    else if headers.length ≥ headerLines then serveError .tooManyHeaders s!"over {headerLines} header lines"
    else if line.head? = some 32 ∨ line.head? = some 9 then
      serveError .malformedRequest "obsolete header line folding"
    else
      -- a line without a colon, and one that begins with it
      let colon := (line.findIdx? (· = 58)).getD 0
      if colon = 0 then serveError .malformedRequest "header line without a name"
      else
        let name := (line.take colon).map lowerOctet
        if ¬ name.all isTokenUnit then
          serveError .malformedRequest s!"header name {Content.jsonString (textOf name)} is not a token"
        else
          let value := trim (line.drop (colon + 1))
          if (headers.get? name).isSome then
            serveError .malformedRequest s!"duplicate header {Content.jsonString (textOf name)}"
          else readHeaders lines (headers.set name value)

/-- Parse a request head from the text before the blank line. -/
def parseHead (text : Utf16) : Except ServeError RequestHead :=
  let lines := splitLines text
  match (lines.headD []).splitOn 32 with
  | [method, target, version] =>
    if ¬ isVersion version then
      serveError .malformedRequest s!"unsupported version {Content.jsonString (textOf version)}"
    else if ¬ isMethod method then
      serveError .malformedRequest s!"unsupported method {Content.jsonString (textOf method)}"
    else if target.length = 0 ∨ target.length > targetBytes then
      serveError .malformedRequest "request target is empty or over the limit"
    else do
      let headers ← readHeaders lines.tail []
      return { method := method, target := target, headers := headers, body := [] }
  | _ => serveError .malformedRequest "a request line is METHOD SP TARGET SP VERSION"

/-- How long a body is. -/
inductive Framing where
  | none
  | fixed (length : ℕ)
  deriving DecidableEq, Repr

/-- How many octets of a body follow the head. -/
def Framing.length : Framing → ℕ
  | .none => 0
  | .fixed length => length

/-- `[0-9]`. -/
def isDigitUnit (u : UInt16) : Bool := 48 ≤ u.toNat && u.toNat ≤ 57

/-- Decide a request's framing, or refuse it. -/
def framing (headers : OrdMap Utf16 Utf16) (limit : ℕ) : Except ServeError Framing :=
  if (headers.get? (Utf16.of "transfer-encoding")).isSome then
    serveError .malformedFraming "transfer-encoding is not accepted; use a length"
  else
    match headers.get? (Utf16.of "content-length") with
    | Option.none => .ok .none
    | some declared =>
      if ¬ (1 ≤ declared.length ∧ declared.length ≤ 9 ∧ declared.all isDigitUnit) then
        serveError .malformedFraming "content-length must be a plain count of octets"
      else
        let length := declared.foldl (fun n u => n * 10 + (u.toNat - 48)) 0
        if length > limit then
          serveError .bodyTooLarge s!"{length} bytes is over the limit of {limit}"
        else .ok (if length = 0 then .none else .fixed length)

/-! ## The connection -/

/-- `\r\n\r\n`. -/
def headTerminator : Bytes := [13, 10, 13, 10]

/-- A head that has been read: where it ends, what it says and how long the body is. -/
structure HeadRead where
  headEnd : ℕ
  parsed : RequestHead
  frame : Framing
  deriving DecidableEq

/-- What a connection has read and not yet answered. -/
structure Connection where
  buffer : Bytes
  done : Bool
  head : Option HeadRead
  deriving DecidableEq

/-- A connection before its first chunk. -/
def Connection.fresh : Connection := { buffer := [], done := false, head := none }

/-- What a connection does: it hands a request on, or refuses. -/
inductive Event where
  | respond (request : RequestHead)
  | refuse (code : ServeRejection)
  deriving DecidableEq

/-- Refuses the request and reads no further. -/
def Connection.refuse (c : Connection) (code : ServeRejection) : Connection × Option Event :=
  ({ c with done := true }, some (.refuse code))

/-- What is done once the head is read. -/
def Connection.settle (c : Connection) (head : HeadRead) : Connection × Option Event :=
  let wanted := head.frame.length
  let given := c.buffer.length - (head.headEnd + headTerminator.length)
  if given > wanted then c.refuse .unexpectedBody
  else if given < wanted then (c, none)
  else
    ({ c with done := true },
      some (.respond { head.parsed with body := c.buffer.drop (head.headEnd + headTerminator.length) }))

/-- The head that a buffer has up to its first blank line. -/
def readHead (buffer : Bytes) (headEnd : ℕ) : Except ServeError HeadRead := do
  let parsed ← parseHead (latin1 (buffer.take headEnd))
  let frame ← framing parsed.headers bodyBytes
  return { headEnd := headEnd, parsed := parsed, frame := frame }

/-- A chunk of data arrives. -/
def Connection.onData (acceptsBody : Bool) (c : Connection) (chunk : Bytes) : Connection × Option Event :=
  if c.done then (c, none)
  else
    let c := { c with buffer := c.buffer ++ chunk }
    match c.head with
    | some head => c.settle head
    | none =>
      -- the head bound applies until the head is complete, to all that has arrived
      if c.buffer.length > headBytes then c.refuse .headTooLarge
      else
        match Search.indexOf headTerminator c.buffer with
        | none => (c, none)
        | some headEnd =>
          match readHead c.buffer headEnd with
          | .error error => c.refuse error.code
          | .ok head =>
            if ¬ acceptsBody ∧ head.frame ≠ .none then c.refuse .unexpectedBody
            else { c with head := some head }.settle head

/-- What a connection does on chunks that arrive one after the other. -/
def Connection.serve (acceptsBody : Bool) (c : Connection) : List Bytes → List Event
  | [] => []
  | chunk :: chunks =>
    let (c, event) := c.onData acceptsBody chunk
    event.toList ++ c.serve acceptsBody chunks

/-! ## What is written -/

/-- The reason phrase of a status line. -/
def reason (status : ℕ) : String :=
  match status with
  | 200 => "OK"
  | 400 => "Bad Request"
  | 403 => "Forbidden"
  | 404 => "Not Found"
  | 405 => "Method Not Allowed"
  | 409 => "Conflict"
  | 410 => "Gone"
  | 413 => "Payload Too Large"
  | 431 => "Request Header Fields Too Large"
  | 500 => "Internal Server Error"
  | 502 => "Bad Gateway"
  | 503 => "Service Unavailable"
  | 504 => "Gateway Timeout"
  | _ => "Status"

/-- The lines of a response head. -/
def headLines (status : ℕ) (headers : List (String × String)) (length : ℕ) : List String :=
  s!"HTTP/1.1 {status} {reason status}" :: headers.map (fun e => s!"{e.1}: {e.2}") ++
    [s!"content-length: {length}", "connection: close"]

/-- Serialise a response head and body. -/
def writeHttp (status : ℕ) (headers : List (String × String)) (body : Bytes) (elideBody : Bool) : Bytes :=
  Bytes.utf8Encode ("\r\n".intercalate (headLines status headers body.length) ++ "\r\n\r\n") ++
    if elideBody then [] else body

/-- The status a pre-handler refusal answers with. -/
def statusFor (code : ServeRejection) : ℕ :=
  if code = .headTooLarge ∨ code = .tooManyHeaders then 431
  else if code = .bodyTooLarge then 413
  else 400

/-- A response as it is written. -/
structure Response where
  status : ℕ
  headers : List (String × String)
  body : Bytes
  deriving DecidableEq

/-- What a handler answers, or nothing where it throws, and what the process holds after it. -/
abbrev Respond (π : Type) := RequestHead → π → Option Response × π

/-- What is written on what a connection does. Of a throw nothing is said but a bare 500. -/
def Event.write {π : Type} (respond : Respond π) : Event → π → Bytes × π
  | .refuse code, s => (writeHttp (statusFor code) [] (Bytes.utf8Encode code.name) false, s)
  | .respond request, s =>
    let elideBody : Bool := request.method = Utf16.of "HEAD"
    let (answer, s) := respond request s
    match answer with
    | none => (writeHttp 500 [] [] elideBody, s)
    | some answer => (writeHttp answer.status answer.headers answer.body elideBody, s)

/-- One connection: what is written on it, and what the process holds after it. -/
def serveConnection {π : Type} (respond : Respond π) (acceptsBody : Bool) (chunks : List Bytes) (s : π) : Bytes × π :=
  (Connection.fresh.serve acceptsBody chunks).foldl
    (fun (written : Bytes × π) event =>
      let (bytes, s) := event.write respond written.2
      (written.1 ++ bytes, s))
    ([], s)

end VayuWeb.Serve
