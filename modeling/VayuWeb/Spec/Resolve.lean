import VayuWeb.Spec.Cache
import VayuWeb.Spec.Lifecycle

/-!
# The resolution algorithm (`registry/src/resolve.ts`)

Steps 1 to 10: a host to the content entry that should be fetched. The cache is the state of the
run, where there is one. A refused and a resolved request both carry the diagnostics.
-/

namespace VayuWeb

/-- The HTTP status of an error. -/
def ResolveErrorName.http : ResolveErrorName → ℕ
  | .labelInvalid => 400
  | .tldUnknown => 502
  | .nameNotFound => 404
  | .contentTimeout => 504
  | .nameQuarantined => 409
  | .nameExpired => 410
  | .nameRevoked => 410
  | .responseTooLarge => 502
  | .pathNotFound => 404
  | .noUsableRecord => 502
  | .blockedByPolicy => 403
  | .internal => 500
  | .registryUnavailable => 503
  | .registryStale => 503
  | .contentUnavailable => 504
  | .ipnsUnresolved => 504
  | .aliasLoop => 508
  | .contentIntegrity => 502

/-- `ALIAS_BUDGET`. -/
def aliasBudget : ℕ := 3

/-- The content sources. -/
inductive SourceType where
  | ipns | cid | alias
  deriving DecidableEq, Repr

/-- The type's text. -/
def SourceType.name : SourceType → String
  | .ipns => "ipns"
  | .cid => "cid"
  | .alias => "alias"

/-- `SOURCE_ORDER`. -/
def sourceOrder : List SourceType := [.ipns, .cid, .alias]

/-- A host name, split. -/
structure ParsedHost where
  label : String
  tld : String
  deriving DecidableEq, Repr

/-- Where the record of an answer came from. -/
inductive ResolvedFrom where
  | cache | registry
  deriving DecidableEq, Repr

/-- What a resolution recorded about itself. -/
structure Diagnostics where
  name : String
  seq : Option ℕ
  source : Option SourceType
  resolvedFrom : Option ResolvedFrom
  fallbacks : List SourceType
  aliasHops : ℕ
  deriving DecidableEq, Repr

/-- An answer: the entry to follow and the record it is in. -/
structure Resolved where
  entry : RecordEntry
  record : RegistryRecord
  diagnostics : Diagnostics
  deriving DecidableEq

/-- A resolution that failed. -/
structure Refused where
  error : ResolveErrorName
  detail : String
  diagnostics : Diagnostics
  deriving DecidableEq, Repr

/-- Everything the algorithm cannot decide by itself. -/
structure ResolverPorts where
  lookup : String → String → Option RegistryRecord
  hasVerifiedHead : Bool

/-! ## Hosts -/

/-- A host without the port it ends in. -/
def dropPort (host : String) : String :=
  let chars := host.toList.reverse
  match chars.dropWhile isDigit with
  | ':' :: rest => if chars.head?.any isDigit then String.ofList rest.reverse else host
  | _ => host

/-- `toLowerCase`, of the letters whose lower case has a letter of ASCII; a name has no other. -/
def lowerChar (c : Char) : List Char :=
  if c.toNat = 0x212a then ['k']
  else if c.toNat = 0x130 then ['i', Char.ofNat 0x307]
  else [c.toLower]

/-- `text.toLowerCase()`. -/
def toLowerCase (text : String) : String := String.ofList (text.toList.flatMap lowerChar)

/-- Step 1. More than two components are refused. -/
def parseHost (host : String) : Option ParsedHost :=
  let bare := (toLowerCase (dropPort host)).toList
  let label := bare.takeWhile (· ≠ '.')
  match bare.dropWhile (· ≠ '.') with
  | [] => none
  | _ :: tld =>
    if '.' ∈ tld then none
    else if label = [] ∨ tld = [] then none
    else some { label := String.ofList label, tld := String.ofList tld }

/-! ## Sources -/

/-- Whether an entry is of a type and understood. -/
def usable (type : SourceType) (entry : RecordEntry) : Bool := entry.known && entry.type = type.name

/-- Every content source a record offers, in preference order; an alias only where it is the only one. -/
def sourceCandidates (record : RegistryRecord) : List RecordEntry :=
  let candidates := [SourceType.ipns, SourceType.cid].filterMap fun type => record.entries.find? (usable type)
  if candidates = [] then (record.entries.find? (usable .alias)).toList else candidates

/-- Step 9. -/
def selectSource (record : RegistryRecord) : Option RecordEntry := (sourceCandidates record).head?

/-! ## Resolution -/

/-- The diagnostics a resolution starts with. -/
def emptyDiagnostics (name : String) : Diagnostics :=
  { name := name, seq := none, source := none, resolvedFrom := none, fallbacks := [], aliasHops := 0 }

/-- What a record asks for: a fetch, or the whole algorithm again at the name its alias leads to. -/
inductive ResolveStep where
  | fetch (entry : RecordEntry)
  | restart (host : String)
  deriving DecidableEq

/-- A run of the algorithm over the cache. -/
abbrev Resolving := ExceptT Refused (StateM (Option ResolutionCache))

/-- A call on the cache, where there is one. -/
def onCache {α : Type} (call : ResolutionCache → α × ResolutionCache) : Resolving (Option α) := do
  match ← get with
  | none => return none
  | some cache =>
    let (answer, cache) := call cache
    set (some cache)
    return some answer

/-- Why the validity window refuses a record, at step 8. -/
def windowRefusal (key : String) (record : RegistryRecord) (now : ℕ) : Option (ResolveErrorName × String) :=
  let state := stateAt record now
  if (lifecycleOf record).revoked ∧ state ≠ .free then
    some (.nameRevoked, s!"{key} was revoked at {record.notBefore}")
  else
    match state with
    | .live => none
    | .grace => some (.nameExpired, s!"{key} expired at {record.notAfter}")
    | .quarantine => some (.nameQuarantined, s!"{key} is on hold")
    | .pending => some (.nameNotFound, s!"{key} is pending")
    | .free => some (.nameNotFound, s!"{key} is free")

section Resolve

variable (ports : ResolverPorts) (now : ℕ)

/-- Record a negative answer under the name it is a fact about, and refuse. -/
def refuseName {α : Type} (key : String) (error : ResolveErrorName) (detail : String) (diagnostics : Diagnostics) :
    Resolving α := do
  let _ ← onCache (ResolutionCache.putNegative key error now)
  throw { error := error, detail := detail, diagnostics := diagnostics }

/-- Steps 7 and 8: the registry's record, inside its term. -/
def lookupRecord (host : ParsedHost) (key : String) (diagnostics : Diagnostics) :
    Resolving (RegistryRecord × Diagnostics) := do
  if ¬ ports.hasVerifiedHead then
    throw { error := .registryUnavailable, detail := "no verified log head", diagnostics := diagnostics }
  let diagnostics := { diagnostics with resolvedFrom := some .registry }
  match ports.lookup host.label host.tld with
  | none => refuseName now key .nameNotFound s!"{key} is not registered" diagnostics
  | some record =>
    let diagnostics := { diagnostics with seq := some record.seq }
    match windowRefusal key record now with
    | some (error, detail) => refuseName now key error detail diagnostics
    | none =>
      let _ ← onCache (ResolutionCache.putPositive key record now)
      return (record, diagnostics)

/-- Steps 5 to 8: a cached record skips the validity window. -/
def currentRecord (host : ParsedHost) (key : String) (diagnostics : Diagnostics) :
    Resolving (RegistryRecord × Diagnostics) := do
  match (← onCache (ResolutionCache.positive key now)).join with
  | some record => return (record, { diagnostics with seq := some record.seq, resolvedFrom := some .cache })
  | none =>
    match (← onCache (ResolutionCache.negative key now)).join with
    | some refused =>
      throw { error := refused, detail := s!"{key} answered from the negative cache",
              diagnostics := { diagnostics with resolvedFrom := some .cache } }
    | none => lookupRecord ports now host key diagnostics

/-- Steps 1 to 4. -/
def checkHost (host : String) (diagnostics : Diagnostics) : Except Refused ParsedHost :=
  match parseHost host with
  | none =>
    .error { error := .labelInvalid, detail := s!"'{host}' is not label.tld", diagnostics := diagnostics }
  | some parsed =>
    if ¬ isRatifiedTld parsed.tld then
      .error
        { error := .tldUnknown, detail := s!".{parsed.tld} is not a VayuWeb extension", diagnostics := diagnostics }
    else
      match labelRejection parsed.label with
      | some problem =>
        .error { error := .labelInvalid, detail := s!"{parsed.label}: {problem.name}", diagnostics := diagnostics }
      | none => .ok parsed

/-- The text of an alias; the schema admits no other value of one. -/
def aliasText (value : CborValue) : Option String :=
  match value with
  | .text text => some text
  | _ => none

/-- Steps 9 and 10. -/
def selectStep (key : String) (record : RegistryRecord) (diagnostics : Diagnostics) : Except Refused ResolveStep :=
  match selectSource record with
  | none =>
    .error { error := .noUsableRecord, detail := s!"{key} has no fetchable entry", diagnostics := diagnostics }
  | some entry =>
    if entry.type ≠ "alias" then .ok (.fetch entry)
    else
      match (aliasText entry.value).bind parseAlias with
      | some (label, tld) => .ok (.restart s!"{label}.{tld}")
      | none =>
        .error { error := .noUsableRecord, detail := "alias target is not a valid name", diagnostics := diagnostics }

/-- Hop after hop, `left` of them at most. -/
def resolveFrom : ℕ → ℕ → List String → String → Diagnostics → Resolving Resolved
  | 0, _, _, _, diagnostics =>
    throw
      { error := .aliasLoop, detail := s!"alias budget of {aliasBudget} hops exhausted", diagnostics := diagnostics }
  | left + 1, hop, seen, current, diagnostics => do
    let diagnostics := { diagnostics with aliasHops := hop }
    let parsed ← MonadExcept.ofExcept (checkHost current diagnostics)
    let key := s!"{parsed.label}.{parsed.tld}"
    -- a name comes up once in a trail
    if key ∈ seen then
      throw { error := .aliasLoop, detail := s!"{key} was already visited", diagnostics := diagnostics }
    let (record, diagnostics) ← currentRecord ports now parsed key diagnostics
    match ← MonadExcept.ofExcept (selectStep key record diagnostics) with
    -- an alias starts over at its target, with one hop less
    | .restart target => resolveFrom left (hop + 1) (key :: seen) target { diagnostics with source := some .alias }
    | .fetch entry =>
      return { entry := entry, record := record,
               diagnostics := { diagnostics with source := sourceOrder.find? fun type => entry.type = type.name } }

/-- Resolve a host to the content entry that should be fetched. -/
def resolveName (host : String) : Resolving Resolved :=
  resolveFrom ports now (aliasBudget + 1) 0 [] host (emptyDiagnostics host)

end Resolve

end VayuWeb
