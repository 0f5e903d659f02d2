import VayuWeb.Spec.Pins
import VayuWeb.Spec.Serve

/-!
# The control API (`registry/src/control.ts`)

A request to the response it is answered with. What `ControlPorts` do is a parameter: each may throw, and may change
what the process holds. What they answer is taken as the JSON it is written as, and `Buffer.from(_, 'base64url')` is a
parameter.
-/

namespace VayuWeb.Control

open Pins (AvailabilityReport PinOutcome)

/-- `CONTROL_HEADER`. -/
def controlHeader : Utf16 := Utf16.of "x-vayuweb-control"

/-- `TOKEN_BYTES`. -/
def tokenBytes : ℕ := 32

/-- A request as the API sees it, whatever listener it came by. -/
structure ControlRequest where
  method : Utf16
  path : Utf16
  headers : OrdMap Utf16 Utf16
  body : Bytes
  deriving DecidableEq

/-- An answer with its body still a JSON value. -/
structure ControlResponse where
  status : ℕ
  headers : List (String × String)
  body : Json.Value

/-- The members of an object, in the order of its own keys. -/
abbrev Members := OrdMap Utf16 Json.Value

/-- What a call may throw, and what the process holds after it. -/
abbrev Port (π α : Type) := π → Option α × π

/-- What the API asks of the node, each over the state of the node. -/
structure ControlPorts (π : Type) where
  status : Port π Members
  version : Port π Utf16
  logHead : Port π Json.Value
  config : Port π Members
  diagnostics : Port π Bool
  setDiagnostics : Bool → Port π Unit
  pins : Port π (List AvailabilityReport)
  /-- Of a label and an extension. -/
  resolve : String → String → Port π Members
  cacheStats : Port π Json.Value
  flushCache : Option (String × String) → Port π ℕ
  peers : Port π Json.Value
  pin : String → Port π PinOutcome
  unpin : String → Port π Bool
  patchCacheSizes : List (Utf16 × Json.Decimal) → Port π Members
  rotateToken : Port π Utf16

/-! ## Values -/

/-- A JSON string. -/
def text (s : String) : Json.Value := .string (Utf16.of s)

/-- A JSON number. -/
def count (n : ℕ) : Json.Value := .number { negative := false, coefficient := n, exponent := 0 }

/-- A JSON object, its members in order. -/
def object (members : List (String × Json.Value)) : Json.Value :=
  .object (members.map fun e => (Utf16.of e.1, e.2))

/-- `DENY_HEADERS`. -/
def denyHeaders : List (String × String) := [("cache-control", "no-store"), ("content-type", "application/json")]

/-- A refusal and the reason it gives. -/
def deny (status : ℕ) (reason : String) : ControlResponse :=
  { status := status, headers := denyHeaders, body := object [("error", text reason)] }

/-- An answer that is not a refusal. -/
def ok (body : Json.Value) : ControlResponse := { status := 200, headers := denyHeaders, body := body }

/-- A field that this build cannot change is refused by name. -/
def unsupportedField (field : Utf16) : ControlResponse :=
  { status := 400
    headers := denyHeaders
    body := .object [(Utf16.of "error", text "unsupported_field"), (Utf16.of "field", .string field)] }

/-! ## What is presented -/

/-- Lower case of an ASCII letter; every other unit is left as it is. -/
def lowerAscii (u : UInt16) : UInt16 := if 65 ≤ u.toNat ∧ u.toNat ≤ 90 then u + 32 else u

/-- `/word/i.test(text)`. -/
def mentions (word : String) (text : Utf16) : Bool := (Search.indexOf (Utf16.of word) (text.map lowerAscii)).isSome

/-- Compare a presented token against the expected one. `decode64` is `Buffer.from(_, 'base64url')`. -/
def tokenMatches (decode64 : Utf16 → Bytes) (presented expected : Utf16) : Bool :=
  let a := decode64 presented
  let b := decode64 expected
  if a.length ≠ tokenBytes ∨ b.length ≠ tokenBytes then false else a = b

/-! ## Names and CIDs -/

/-- The byte that two hexadecimal digits name. -/
def hexOctet (a b : UInt16) : Option UInt8 := do
  let high ← Json.hexDigit (Char.ofNat a.toNat)
  let low ← Json.hexDigit (Char.ofNat b.toNat)
  return UInt8.ofNat (high * 16 + low)

/-- `decodeURIComponent`, after octets that are decoded once they end. -/
def decodeFrom (pending : Bytes) : Utf16 → Option Utf16
  | [] => (Bytes.utf8Decode pending).map Utf16.of
  | [u] =>
    -- a percent sign with fewer than two units behind it is malformed
    if u = 37 then none
    else do
      let decoded ← Bytes.utf8Decode pending
      return Utf16.of decoded ++ [u]
  | [u, v] =>
    if u = 37 ∨ v = 37 then none
    else do
      let decoded ← Bytes.utf8Decode pending
      return Utf16.of decoded ++ [u, v]
  | u :: v :: w :: rest =>
    -- octets are gathered, since one character may be several of them
    if u = 37 then do
      let octet ← hexOctet v w
      decodeFrom (pending ++ [octet]) rest
    else do
      -- any other unit ends the octets before it
      let decoded ← Bytes.utf8Decode pending
      let tail ← decodeFrom [] (v :: w :: rest)
      return Utf16.of decoded ++ u :: tail

/-- `decodeURIComponent`, or nothing where it throws. -/
def decodeURIComponent (raw : Utf16) : Option Utf16 := decodeFrom [] raw

/-- The one place a name is turned into a label and an extension, or refused. -/
def parseControlName (raw : Utf16) : Option (String × String) :=
  if raw.length = 0 then none
  else do
    let decoded ← decodeURIComponent raw
    -- what is after the last dot, and what is before it
    let after := (decoded.reverse.takeWhile (· ≠ 46)).reverse
    let before := decoded.take (decoded.length - after.length - 1)
    if after.length = decoded.length ∨ before = [] ∨ after = [] then none
    else
      let label ← asciiText (before.flatMap lowerUnit)
      let tld ← asciiText (after.flatMap lowerUnit)
      if ¬ isRatifiedTld tld ∨ labelRejection label ≠ none then none else some (label, tld)

/-- The one place a CID is validated, or refused. -/
def parseControlCid (raw : Utf16) : Option String :=
  if raw.length = 0 then none
  else do
    let decoded ← decodeURIComponent raw
    let cid ← asciiText decoded
    match Content.decodeCid cid with
    | .ok _ => some cid
    | .error _ => none

/-- The routes that take a name. -/
inductive NamedRoute where
  | records | cache
  deriving DecidableEq, Repr

/-- The two routes that carry a name, with the name where it is one. -/
def namedRoute (method path : Utf16) : Option (NamedRoute × Option (String × String)) :=
  if method = Utf16.of "GET" ∧ Utf16.of "/v1/records/" <+: path then
    some (.records, parseControlName (path.drop 12))
  else if method = Utf16.of "DELETE" ∧ Utf16.of "/v1/cache/" <+: path then
    some (.cache, parseControlName (path.drop 10))
  else none

/-! ## Bodies -/

/-- The number that a key is as an index of an array. -/
def arrayIndex (key : Utf16) : Option ℕ :=
  if key = [] ∨ ¬ key.all Serve.isDigitUnit ∨ (key.head? = some 48 ∧ 1 < key.length) then none
  else
    let n := key.foldl (fun n u => n * 10 + (u.toNat - 48)) 0
    if n < 2 ^ 32 - 1 then some n else none

/-- The own members of a parsed object: of a key the last value, and indexes in front in their order. -/
def ownMembers (members : List (Utf16 × Json.Value)) : Members :=
  let own := members.foldl (fun (own : Members) e => own.set e.1 e.2) []
  let indexes := own.filter fun e => (arrayIndex e.1).isSome
  let rest := own.filter fun e => ¬ (arrayIndex e.1).isSome
  (indexes.insertionSort fun a b => (arrayIndex a.1).getD 0 ≤ (arrayIndex b.1).getD 0) ++ rest

/-- A JSON object from a request body, or nothing for anything else. -/
def jsonObject (body : Bytes) : Option Members :=
  match (textDecoderSafe body).bind Json.parse with
  | some (.object members) => some (ownMembers members)
  | _ => none

/-- The text under a key of a body. -/
def textField (fields : Members) (key : String) : Option Utf16 :=
  match fields.get? (Utf16.of key) with
  | some (.string s) => some s
  | _ => none

/-! ## Redaction -/

/-- The names that are secret, each wherever it occurs. -/
def secretWords : List String := ["token", "secret", "password", "passphrase", "private", "seed", "key"]

/-- Whether a field's name says that its value is a secret. -/
def isSecret (name : Utf16) : Bool := secretWords.any fun word => mentions word name

/-- What stands in place of a secret. -/
def redacted : Json.Value := text "[redacted]"

mutual

/-- A value that is an object is redacted. -/
def redactValue : Json.Value → Json.Value
  | .object members => .object (redact members)
  | value => value

/-- Redact every secret-bearing value from a configuration dump. A member named `__proto__` is set as no own one. -/
def redact : List (Utf16 × Json.Value) → List (Utf16 × Json.Value)
  | [] => []
  | (name, value) :: rest =>
    if isSecret name then (name, redacted) :: redact rest
    else if name = Utf16.of "__proto__" then redact rest
    else (name, redactValue value) :: redact rest

end

/-! ## Endpoints -/

variable {π α : Type}

/-- Answer with what a port answers. -/
def answer (port : Port π α) (respond : α → ControlResponse) : Port π ControlResponse := fun s =>
  let (result, s) := port s
  (result.map respond, s)

/-- Answer without a port. -/
def reply (response : ControlResponse) : Port π ControlResponse := fun s => (some response, s)

/-- `{ ...members, name }`. -/
def named (members : Members) (name : String × String) : Json.Value :=
  .object (members.set (Utf16.of "name") (text (name.1 ++ "." ++ name.2)))

/-- The texts of `PinOutcome`. -/
def outcomeName : PinOutcome → String
  | .pinned => "pinned"
  | .already => "already"
  | .notHeld => "not_held"
  | .full => "full"

/-- A report, with the sentence that is said of it. -/
def pinMember (pin : AvailabilityReport) : Json.Value :=
  object [("cid", text pin.cid), ("asked", count pin.asked), ("answered", count pin.answered),
    ("peersHolding", count pin.peersHolding), ("servicesHolding", count pin.servicesHolding),
    ("selfPinned", .bool pin.selfPinned), ("observedAt", (pin.observedAt.map count).getD .null),
    ("availabilityUnguaranteed", .bool pin.availabilityUnguaranteed), ("summary", text (Pins.summarise pin)),
    ("onlyThisNodeHolds", .bool (Pins.onlyThisNodeHoldsIt pin))]

/-- `CACHE_SIZE_FIELDS`. -/
def cacheSizeFields : List Utf16 :=
  [Utf16.of "negativeEntries", Utf16.of "positiveEntries", Utf16.of "manifestEntries"]

/-- The loop over the sizes of a patch. -/
def readSizes : Members → Except ControlResponse (List (Utf16 × Json.Decimal))
  | [] => .ok []
  | (field, value) :: rest =>
    if ¬ cacheSizeFields.contains field then .error (unsupportedField field)
    else
      match value with
      | .number n => do return (field, n) :: (← readSizes rest)
      | _ => .error (deny 400 "bad_config")

/-- The sizes that a patch asks for. -/
def patchOf (body : Bytes) : Except ControlResponse (List (Utf16 × Json.Decimal)) :=
  match jsonObject body with
  | none => .error (deny 400 "bad_request")
  | some fields =>
    match fields.find? fun e => e.1 ≠ Utf16.of "cacheSizes" with
    | some e => .error (unsupportedField e.1)
    | none =>
      match fields.get? (Utf16.of "cacheSizes") with
      | some (.object sizes) => readSizes (ownMembers sizes)
      | _ => .error (deny 400 "bad_config")

variable (ports : ControlPorts π)

/-- `POST /v1/resolve`. -/
def resolveBody (body : Bytes) : Port π ControlResponse :=
  match (jsonObject body).bind fun fields => textField fields "name" with
  | none => reply (deny 400 "bad_request")
  | some asked =>
    match parseControlName asked with
    | none => reply (deny 400 "bad_name")
    | some name => answer (ports.resolve name.1 name.2) fun members => ok (named members name)

/-- `POST /v1/pin`. -/
def pinBody (body : Bytes) : Port π ControlResponse :=
  match (jsonObject body).bind fun fields => textField fields "cid" with
  | none => reply (deny 400 "bad_request")
  | some asked =>
    match parseControlCid asked with
    | none => reply (deny 400 "bad_cid")
    | some cid =>
      answer (ports.pin cid) fun outcome =>
        match outcome with
        | .notHeld => deny 409 "not_held"
        | .full => deny 409 "pin_set_full"
        | outcome => ok (object [("cid", text cid), ("outcome", text (outcomeName outcome))])

/-- `PATCH /v1/config`. What the port throws is an answer. -/
def patchConfig (body : Bytes) : Port π ControlResponse :=
  match patchOf body with
  | .error response => reply response
  | .ok asked => fun s =>
    let (result, s) := ports.patchCacheSizes asked s
    match result with
    | some members => (some (ok (.object (redact members))), s)
    | none => (some (deny 400 "bad_config"), s)

/-- `GET /v1/status`. -/
def getStatus : Port π ControlResponse := fun s =>
  let (status, s) := ports.status s
  match status with
  | none => (none, s)
  | some status =>
    answer ports.version (fun version => ok (.object (status.set (Utf16.of "version") (.string version)))) s

/-- The endpoints whose line is matched whole. -/
def exactRoute (line : Utf16) (body : Bytes) : Port π ControlResponse :=
  if line = Utf16.of "POST /v1/resolve" then resolveBody ports body
  else if line = Utf16.of "POST /v1/pin" then pinBody ports body
  else if line = Utf16.of "PATCH /v1/config" then patchConfig ports body
  else if line = Utf16.of "POST /v1/token/rotate" then
    answer ports.rotateToken fun token => ok (object [("token", .string token)])
  else if line = Utf16.of "GET /v1/health" then reply (ok (object [("ok", .bool true)]))
  else if line = Utf16.of "GET /v1/status" then getStatus ports
  else if line = Utf16.of "GET /v1/log/head" then answer ports.logHead ok
  else if line = Utf16.of "GET /v1/config" then answer ports.config fun members => ok (.object (redact members))
  else if line = Utf16.of "GET /v1/pins" then
    answer ports.pins fun pins => ok (object [("pins", .array (pins.map pinMember))])
  else if line = Utf16.of "GET /v1/peers" then answer ports.peers ok
  else if line = Utf16.of "GET /v1/cache/stats" then answer ports.cacheStats ok
  else if line = Utf16.of "DELETE /v1/cache" then
    answer (ports.flushCache none) fun flushed => ok (object [("flushed", count flushed)])
  else if line = Utf16.of "GET /v1/diagnostics" then
    answer ports.diagnostics fun on => ok (object [("enabled", .bool on)])
  else if line = Utf16.of "POST /v1/diagnostics/on" then
    answer (ports.setDiagnostics true) fun _ => ok (object [("enabled", .bool true)])
  else if line = Utf16.of "POST /v1/diagnostics/off" then
    answer (ports.setDiagnostics false) fun _ => ok (object [("enabled", .bool false)])
  else reply (deny 404 "no_such_endpoint")

/-- What is done for a caller that was authenticated. -/
def route (request : ControlRequest) : Port π ControlResponse :=
  if request.method = Utf16.of "DELETE" ∧ Utf16.of "/v1/pin/" <+: request.path then
    match parseControlCid (request.path.drop 8) with
    | none => reply (deny 400 "bad_cid")
    | some cid =>
      answer (ports.unpin cid) fun unpinned => ok (object [("cid", text cid), ("unpinned", .bool unpinned)])
  else
    match namedRoute request.method request.path with
    | some (_, none) => reply (deny 400 "bad_name")
    | some (.records, some name) => answer (ports.resolve name.1 name.2) fun members => ok (named members name)
    | some (.cache, some name) =>
      answer (ports.flushCache (some name)) fun flushed => ok (object [("flushed", count flushed)])
    | none => exactRoute ports (request.method ++ Utf16.of " " ++ request.path) request.body

/-- What a request presents as its token. -/
def presented (request : ControlRequest) : Utf16 :=
  let authorisation := (request.headers.get? (Utf16.of "authorization")).getD []
  if Utf16.of "Bearer " <+: authorisation then authorisation.drop 7 else []

/-- What is refused before a route is looked for. -/
def gate (decode64 : Utf16 → Bytes) (request : ControlRequest) (token : Utf16) : Option ControlResponse :=
  if (request.headers.get? (Utf16.of "upgrade")).isSome ∨
      mentions "upgrade" ((request.headers.get? (Utf16.of "connection")).getD []) then
    some (deny 400 "upgrade_not_supported")
  else if (request.headers.get? (Utf16.of "origin")).isSome then some (deny 403 "forbidden")
  else if request.headers.get? controlHeader ≠ some (Utf16.of "1") then some (deny 403 "forbidden")
  else if ¬ tokenMatches decode64 (presented request) token then some (deny 401 "unauthorised")
  else none

/-- Handle one control request. -/
def handleControlRequest (decode64 : Utf16 → Bytes) (request : ControlRequest) (token : Utf16) :
    Port π ControlResponse :=
  match gate decode64 request token with
  | some refusal => reply refusal
  | none => route ports request

/-! ## The listener (`registry/src/serve.ts`) -/

/-- What is answered where a port throws. -/
def internal : ControlResponse := { status := 500, headers := [], body := object [("error", text "internal")] }

/-- What `serveControl` answers. `stringify` is `JSON.stringify`, and the token is read for each request. -/
def respond (decode64 : Utf16 → Bytes) (stringify : Json.Value → String) (token : π → Utf16) : Serve.Respond π :=
  fun head s =>
    let request : ControlRequest :=
      { method := head.method, path := head.target, headers := head.headers, body := head.body }
    let (answer, s) := handleControlRequest ports decode64 request (token s) s
    let response := answer.getD internal
    (some {
      status := response.status
      headers := response.headers
      body := Bytes.utf8Encode (stringify response.body) }, s)

end VayuWeb.Control
