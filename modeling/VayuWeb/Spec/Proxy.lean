import Mathlib.Data.List.Infix
import VayuWeb.Spec.Cbor
import VayuWeb.Spec.Content
import VayuWeb.Spec.Resolve

/-!
# The browsing proxy (`registry/src/proxy.ts`)

A request to the document it is answered with. What a manifest declares is read by `parseManifest`
of `registry/src/resolve.ts`. The content layer, the pointers and the scanner are parameters; a
`Visit` keeps the calls on the content layer beside the cache, each with the cache as it stood. The
status, headers and body that an outcome is written as are left out.
-/

namespace VayuWeb

/-! ## The manifest -/

/-- `MANIFEST_PATH`. -/
def manifestPath : Utf16 := Utf16.of "/.vayu/manifest.json"

/-- `MAX_MANIFEST_BYTES`. -/
def maxManifestBytes : ℕ := 8192

/-- In code units. -/
def maxDeclaredPath : ℕ := 512

/-- A path that a manifest declares: relative, bounded, and without traversal. -/
def declaredPath (value : Option Json.Value) : Option Utf16 :=
  match value with
  | some (.string value) =>
    if value = [] ∨ maxDeclaredPath < value.length then none
    else if Utf16.of "/" <+: value ∨ Utf16.of ".." <:+: value then none
    else if Utf16.of "\x00" <:+: value ∨ Utf16.of "\n" <:+: value ∨ Utf16.of "\r" <:+: value then none
    else some value
  | _ => none

/-- What is no usable declaration is discarded. -/
def parseManifest (bytes : Bytes) : Option SiteManifest :=
  if bytes = [] ∨ maxManifestBytes < bytes.length then none
  else
    match (textDecoderSafe bytes).bind Json.parse with
    | some (.object map) =>
      match Json.member map "version" with
      | some (.number version) =>
        if version.isOne then
          some { index := declaredPath (Json.member map "index"),
                 fallback := declaredPath (Json.member map "fallback"),
                 notFound := declaredPath (Json.member map "notFound") }
        else none
      | _ => none
    | _ => none

/-! ## The content layer -/

/-- What the content layer answers a path with. -/
inductive ContentResult where
  | ok (bytes : Bytes) (contentType : String)
  | error (error : ResolveErrorName)
  deriving DecidableEq, Repr

/-- Why a path is asked for: as the answer, for the manifest, or as what the manifest declares for a
miss. -/
inductive Purpose where
  | page | manifest | declared
  deriving DecidableEq, Repr

/-- A call of `content.fetch`, with the cache as it stood. -/
structure ContentCall where
  cid : String
  path : Utf16
  purpose : Purpose
  answer : ContentResult
  cache : ResolutionCache

/-- The content layer. Its answer may depend on every call before. -/
abbrev ContentPort := List ContentCall → String → Utf16 → ContentResult

/-- The cache, and the calls so far, oldest first. -/
structure Visit where
  cache : ResolutionCache
  calls : List ContentCall

/-! ## Step 13 -/

/-- A document that is served. -/
structure Document where
  bytes : Bytes
  contentType : String
  status : ℕ
  path : Utf16
  deriving DecidableEq, Repr

/-- What a manifest read says: of one that cannot be read, that there is none. -/
def manifestOf : ContentResult → Option SiteManifest
  | .ok bytes _ => parseManifest bytes
  | .error _ => none

/-- Whether a path asks for a directory. -/
def isDirectory (path : Utf16) : Bool := path = Utf16.of "/" || Utf16.of "/" <:+ path

namespace Visit

section Step13

variable (content : ContentPort) (cid : String)

/-- Asks the content port for a path and notes the call. -/
def fetchPath (purpose : Purpose) (path : Utf16) (visit : Visit) : ContentResult × Visit :=
  let answer := content visit.calls cid path
  (answer, { visit with calls := visit.calls ++ [⟨cid, path, purpose, answer, visit.cache⟩] })

/-- What the tree's manifest says. It is read once, and remembered whether or not there was one. -/
def site (visit : Visit) : Option SiteManifest × Visit :=
  match visit.cache.manifest cid with
  | some known => (known, visit)
  | none =>
    let (got, visit) := fetchPath content cid .manifest manifestPath visit
    let parsed := manifestOf got
    (parsed, { visit with cache := visit.cache.rememberManifest cid parsed })

/-- The names that a directory's index may have: a declared one goes before `index.html`. -/
def indexCandidates (visit : Visit) : List Utf16 × Visit :=
  let (manifest, visit) := site content cid visit
  match manifest.bind (·.index) with
  | none => ([Utf16.of "index.html"], visit)
  | some declared =>
    if declared = Utf16.of "index.html" then ([Utf16.of "index.html"], visit)
    else ([declared, Utf16.of "index.html"], visit)

/-- Candidate after candidate. Only a missing path is a reason to try another. -/
def tryIndexes (base : Utf16) : List Utf16 → Visit → Option (Except ResolveErrorName Document) × Visit
  | [], visit => (none, visit)
  | index :: rest, visit =>
    match fetchPath content cid .page (base ++ index) visit with
    | (.ok bytes contentType, visit) => (some (.ok ⟨bytes, contentType, 200, base ++ index⟩), visit)
    | (.error error, visit) =>
      if error ≠ .pathNotFound then (some (.error error), visit) else tryIndexes base rest visit

/-- The index of a directory, where it has one. -/
def serveIndex (base : Utf16) (visit : Visit) : Option (Except ResolveErrorName Document) × Visit :=
  let (candidates, visit) := indexCandidates content cid visit
  tryIndexes content cid base candidates visit

/-- A file that the manifest declares for a miss; one that cannot be had is discarded. -/
def tryDeclared (declared : Option Utf16) (status : ℕ) (visit : Visit) : Option Document × Visit :=
  match declared with
  | none => (none, visit)
  | some declared =>
    let path := Utf16.of "/" ++ declared
    match fetchPath content cid .declared path visit with
    | (.ok bytes contentType, visit) => (some ⟨bytes, contentType, status, path⟩, visit)
    | (.error _, visit) => (none, visit)

/-- What the manifest has for a path that is not in the tree. -/
def serveDeclared (visit : Visit) : Option Document × Visit :=
  let (declared, visit) := site content cid visit
  match declared with
  | none => (none, visit)
  | some declared =>
    match tryDeclared content cid declared.notFound 404 visit with
    | (some document, visit) => (some document, visit)
    | (none, visit) => tryDeclared content cid declared.fallback 200 visit

/-- The document for a path: the index of a directory, with or without its slash, the page itself, or
what the site declares for a path it does not have. -/
def serveStep13 (path : Utf16) (visit : Visit) : Except ResolveErrorName Document × Visit :=
  let (index, visit) := if isDirectory path then serveIndex content cid path visit else (none, visit)
  match index with
  | some answer => (answer, visit)
  | none =>
    match fetchPath content cid .page path visit with
    | (.ok bytes contentType, visit) => (.ok ⟨bytes, contentType, 200, path⟩, visit)
    | (.error error, visit) =>
      if error ≠ .pathNotFound then (.error error, visit)
      else
        -- a directory that is named without its slash still has an index
        let (nested, visit) :=
          if isDirectory path then (none, visit) else serveIndex content cid (path ++ Utf16.of "/") visit
        match nested with
        | some answer => (answer, visit)
        | none =>
          match serveDeclared content cid visit with
          | (some document, visit) => (.ok document, visit)
          | (none, visit) => (.error error, visit)

end Step13

end Visit

/-! ## Requests -/

/-- A request to the browsing proxy. -/
structure ProxyRequest where
  method : String
  target : Utf16
  headers : OrdMap String Utf16

/-- `PROXY_LIMITS.hostBytes`. -/
def hostBytes : ℕ := maxLabelLength + 1 + maxTldLength

/-- `PROXY_LIMITS.targetBytes`. -/
def targetBytes : ℕ := 2048

/-- `[A-Za-z]`. -/
def isAlpha (u : UInt16) : Bool := 97 ≤ u.toNat && u.toNat ≤ 122 || 65 ≤ u.toNat && u.toNat ≤ 90

/-- `[a-z0-9+.-]` of either case. -/
def isSchemeUnit (u : UInt16) : Bool :=
  isAlpha u || 48 ≤ u.toNat && u.toNat ≤ 57 || (Utf16.of "+.-").contains u

/-- What is after `scheme://`, where the target begins with one. -/
def afterScheme (target : Utf16) : Option Utf16 :=
  match target with
  | first :: rest =>
    let tail := rest.dropWhile isSchemeUnit
    if isAlpha first ∧ Utf16.of "://" <+: tail then some (tail.drop 3) else none
  | [] => none

/-- `http://` in either case. -/
def isHttp (target : Utf16) : Bool :=
  (target.take 7).map (fun u => if 65 ≤ u.toNat ∧ u.toNat ≤ 90 then u + 32 else u) = Utf16.of "http://"

/-- Where the host of an absolute target ends. -/
def isTargetEnd (u : UInt16) : Bool := (Utf16.of "/?#").contains u

/-- The host, of one of the two shapes that are taken. -/
def requestHost (request : ProxyRequest) : Option Utf16 :=
  if request.target.length > targetBytes then none
  else if (afterScheme request.target).isSome then
    if ¬ isHttp request.target then none
    else
      let authority := (request.target.drop 7).takeWhile fun u => ¬ isTargetEnd u
      if Utf16.of "@" <:+: authority then none else some authority
  else if ¬ Utf16.of "/" <+: request.target then none
  else request.headers.get? "host"

/-- `normalize('NFC')`, of the characters whose normal form is one of ASCII; what has another
character that is not of ASCII keeps one, and is no name. -/
def normaliseUnit (u : UInt16) : UInt16 :=
  if u.toNat = 0x212a then 75 else if u.toNat = 0x37e then 59 else if u.toNat = 0x1fef then 96 else u

/-- `toLowerCase`, as of `lowerChar`. -/
def lowerUnit (u : UInt16) : Utf16 :=
  if 65 ≤ u.toNat ∧ u.toNat ≤ 90 then [u + 32]
  else if u.toNat = 0x212a then [107]
  else if u.toNat = 0x130 then [105, 0x307]
  else [u]

/-- The string of units of ASCII. A label and an extension have no other. -/
def asciiText (units : Utf16) : Option String :=
  if units.all fun u => u.toNat < 128 then some (String.ofList (units.map fun u => Char.ofNat u.toNat)) else none

/-- A host as a label and an extension, or nothing. -/
def normaliseHost (host : Utf16) : Option ParsedHost :=
  if host = [] ∨ host.length > hostBytes then none
  else if Utf16.of ":" <:+: host ∨ Utf16.of "@" <:+: host ∨ Utf16.of "[" <:+: host then none
  else
    let value := (host.map normaliseUnit).flatMap lowerUnit
    let value := if Utf16.of "." <:+ value then value.dropLast else value
    -- what is after the last dot, and what is before it
    let tld := (value.reverse.takeWhile (· ≠ 46)).reverse
    let label := value.take (value.length - tld.length - 1)
    if tld.length = value.length ∨ label = [] ∨ tld = [] then none
    else if Utf16.of "." <:+: label then none
    else
      match asciiText label, asciiText tld with
      | some label, some tld =>
        if labelRejection label ≠ none ∨ ¬ isRatifiedTld tld then none else some { label := label, tld := tld }
      | _, _ => none

/-- White space and line ends, which `trim` takes off. -/
def isTrimmed (u : UInt16) : Bool :=
  [9, 10, 11, 12, 13, 32, 0xa0, 0x1680, 0x2028, 0x2029, 0x202f, 0x205f, 0x3000, 0xfeff].contains u.toNat ||
    0x2000 ≤ u.toNat && u.toNat ≤ 0x200a

/-- `units.trim()`. -/
def trim (units : Utf16) : Utf16 := ((units.dropWhile isTrimmed).reverse.dropWhile isTrimmed).reverse

/-- The path of a target. Query and fragment are dropped. -/
def pathOf (target : Utf16) : Utf16 :=
  let withoutScheme :=
    match afterScheme target with
    | some rest => rest.dropWhile (· ≠ 47)
    | none => target
  let path := trim (withoutScheme.takeWhile fun u => ¬ (Utf16.of "?#").contains u)
  if path = [] then Utf16.of "/" else path

/-! ## Sources -/

/-- The key under which the failure of a content source is remembered. -/
def contentCacheKey (type value : String) : String := s!"content:{type}:{value}"

/-- Two hexadecimal digits. -/
def hexByte (b : UInt8) : String := if b.toNat < 16 then "0" ++ Content.hex b.toNat else Content.hex b.toNat

/-- The text that an entry's value is addressed by. -/
def sourceValueOf (entry : RecordEntry) : Option String :=
  if entry.type = "cid" then
    match entry.value with
    | .bytes value =>
      (do Content.encodeCid (← Content.cidFromBytes value) : Except Content.ContentError String).toOption
    | _ => none
  else if entry.type = "ipns" ∨ entry.type = "alias" then
    match entry.value with
    | .text value => some value
    | _ => none
  else if entry.type = "peer" then
    match entry.value with
    | .bytes value => some (String.join (value.map hexByte))
    | _ => none
  else none

/-! ## Answers -/

/-- What a request is answered with. -/
inductive ProxyOutcome where
  /-- The refusal of an error. -/
  | refused (error : ResolveErrorName)
  /-- The refusal of a document that the scanner finds these rules broken in. -/
  | blocked (rules : List String)
  /-- A document, of the source that it was had from after these others. -/
  | served (document : Document) (source cid : String) (fallbacks : List String) (diagnostics : Diagnostics)
  deriving DecidableEq, Repr

/-- What a proxy is made with. `scan` answers the rules that a document breaks. -/
structure ProxyOptions where
  content : Option ContentPort
  ipns : Option (String → Option String)
  scan : Utf16 → Bytes → List String

/-- Step 10: a pointer to the CID that it names. -/
def ProxyOptions.address (options : ProxyOptions) (type value : String) : Option String :=
  if type = "ipns" then options.ipns.bind fun resolve => resolve value else some value

section Requests

variable (options : ProxyOptions) (content : ContentPort) (path : Utf16) (now : ℕ) (diagnostics : Diagnostics)

/-- Source after source, after the failure of those before. -/
def serveSources : List RecordEntry → ResolveErrorName → List String → Visit → ProxyOutcome × Visit
  | [], failure, _, visit => (.refused failure, visit)
  | candidate :: rest, _, fallbacks, visit =>
    let fallbacks' := fallbacks ++ [candidate.type]
    -- a source that cannot be used falls back to the next one, and the answer names those passed over
    match sourceValueOf candidate with
    | none => serveSources rest .noUsableRecord fallbacks' visit
    | some value =>
      let contentKey := contentCacheKey candidate.type value
      let (known, cache) := visit.cache.negative contentKey now
      let visit := { visit with cache := cache }
      match known with
      | some known => serveSources rest known fallbacks' visit
      | none =>
        match options.address candidate.type value with
        | none =>
          let (_, cache) := visit.cache.putNegative contentKey .ipnsUnresolved now
          serveSources rest .ipnsUnresolved fallbacks' { visit with cache := cache }
        | some addressed =>
          match visit.serveStep13 content addressed path with
          | (.ok document, visit) =>
            -- the document is scanned before it is handed on
            let findings := options.scan document.path document.bytes
            if findings ≠ [] then (.blocked findings, visit)
            else (.served document candidate.type addressed fallbacks diagnostics, visit)
          | (.error error, visit) =>
            -- bytes that do not match their CID stop the request: no other source is tried
            if error = .contentIntegrity then (.refused .contentIntegrity, visit)
            else
              let (_, cache) := visit.cache.putNegative contentKey error now
              serveSources rest error fallbacks' { visit with cache := cache }

/-- Handle one request. -/
def handleRequest (request : ProxyRequest) (ports : ResolverPorts) (cache : ResolutionCache) :
    ProxyOutcome × Visit :=
  let unseen : Visit := { cache := cache, calls := [] }
  -- this proxy tunnels nothing
  if request.method = "CONNECT" then (.refused .blockedByPolicy, unseen)
  else if request.method ≠ "GET" ∧ request.method ≠ "HEAD" then (.refused .blockedByPolicy, unseen)
  else
    match requestHost request with
    | none => (.refused .blockedByPolicy, unseen)
    | some host =>
      match normaliseHost host with
      | none => (.refused .labelInvalid, unseen)
      | some name =>
        let (outcome, after) := (resolveName ports now s!"{name.label}.{name.tld}").run.run (some cache)
        let visit : Visit := { cache := after.getD cache, calls := [] }
        match outcome with
        | .error refused => (.refused refused.error, visit)
        | .ok outcome =>
          match options.content with
          | none => (.refused .internal, visit)
          | some content =>
            serveSources options content (pathOf request.target) now outcome.diagnostics
              (sourceCandidates outcome.record) .noUsableRecord [] visit

end Requests

end VayuWeb
