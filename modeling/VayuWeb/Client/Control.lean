import VayuWeb.Base.Bytes
import VayuWeb.Base.Search

/-!
# The client of the control API (`client/src/control.rs`)

What is asked, the bytes it is asked in, and what is made of the bytes that come back. A line in a detail is written
as `Debug` writes it, which is left out.
-/

namespace VayuWeb.Client.Control

/-- What a client may ask. -/
inductive ControlRequest where
  | health
  | status
  | logHead
  | config
  | diagnostics
  | diagnosticsOn
  | diagnosticsOff
  deriving DecidableEq, Repr

/-- The method and path. -/
def ControlRequest.route : ControlRequest → String × String
  | .health => ("GET", "/v1/health")
  | .status => ("GET", "/v1/status")
  | .logHead => ("GET", "/v1/log/head")
  | .config => ("GET", "/v1/config")
  | .diagnostics => ("GET", "/v1/diagnostics")
  | .diagnosticsOn => ("POST", "/v1/diagnostics/on")
  | .diagnosticsOff => ("POST", "/v1/diagnostics/off")

/-- Whether answering this changes the node's state. -/
def ControlRequest.isMutating : ControlRequest → Bool
  | .diagnosticsOn | .diagnosticsOff => true
  | _ => false

/-- What is wrong with a response. -/
inductive Detail where
  | noTerminator
  | headNotUtf8
  | noStatus (line : String)
  | bodyNotUtf8
  deriving DecidableEq, Repr

/-- Why the client has no answer of the node's to give. -/
inductive ControlError where
  | malformed (detail : Detail)
  | refused (status : ℕ) (reason : String)
  deriving DecidableEq, Repr

/-- `CONTROL_HEADER`. -/
def controlHeader : String := "X-VayuWeb-Control"

/-- The head of a request, with the token as it stands. -/
def requestHead (request : ControlRequest) (token : Bytes) : Bytes :=
  let (method, path) := request.route
  Bytes.utf8Encode method ++ [32] ++ Bytes.utf8Encode path ++ Bytes.utf8Encode " HTTP/1.1\r\n" ++
    Bytes.utf8Encode "host: localhost\r\n" ++ Bytes.utf8Encode controlHeader ++ Bytes.utf8Encode ": 1\r\n" ++
    Bytes.utf8Encode "authorization: Bearer " ++ token ++ Bytes.utf8Encode "\r\n" ++
    Bytes.utf8Encode "connection: close\r\n" ++ Bytes.utf8Encode "\r\n"

/-- What the node answered, once its head is off. -/
structure ControlResponse where
  status : ℕ
  body : String
  deriving DecidableEq, Repr

/-- `lines().next()`: a line that ends takes its carriage return with it. -/
def firstLine (chars : List Char) : List Char :=
  let line := chars.takeWhile (· ≠ '\n')
  if line.length < chars.length ∧ line.getLast? = some '\r' then line.dropLast else line

/-- `parse::<u16>()`. -/
def parseU16 (chars : List Char) : Option ℕ :=
  let digits := if chars.head? = some '+' then chars.tail else chars
  if digits = [] ∨ ¬ digits.all Char.isDigit then none
  else
    let n := digits.foldl (fun n c => n * 10 + (c.toNat - 48)) 0
    if n < 2 ^ 16 then some n else none

/-- The status of a response's first line. -/
def statusOf (line : List Char) : Option ℕ := ((line.splitOn ' ')[1]?).bind parseU16

/-- Read a response. -/
def parseResponse (bytes : Bytes) : Except ControlError ControlResponse :=
  match Search.indexOf [13, 10, 13, 10] bytes with
  | none => .error (.malformed .noTerminator)
  | some split =>
    match Bytes.utf8Decode (bytes.take split) with
    | none => .error (.malformed .headNotUtf8)
    | some head =>
      match statusOf (firstLine head.toList) with
      | none => .error (.malformed (.noStatus (String.ofList (firstLine head.toList))))
      | some status =>
        match Bytes.utf8Decode (bytes.drop (split + 4)) with
        | none => .error (.malformed .bodyNotUtf8)
        | some body => .ok { status := status, body := body }

/-- A response of success, or the refusal it is. -/
def requireSuccess (response : ControlResponse) : Except ControlError ControlResponse :=
  if 200 ≤ response.status ∧ response.status < 300 then .ok response
  else .error (.refused response.status response.body)

end VayuWeb.Client.Control
