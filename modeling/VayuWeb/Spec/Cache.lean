import VayuWeb.Base.Json
import VayuWeb.Base.OrdMap
import VayuWeb.Spec.Record

/-!
# The resolver's caches (`registry/src/cache.ts`)

The policy that decides what may go in them, and the bounded maps it governs. The names of the
catalogue and what a manifest declares are those of `registry/src/resolve.ts`.
-/

namespace VayuWeb

/-- The numbered errors of the catalogue. -/
inductive ResolveErrorName where
  | labelInvalid | tldUnknown | nameNotFound | contentTimeout | nameQuarantined | nameExpired
  | nameRevoked | responseTooLarge | pathNotFound | noUsableRecord | blockedByPolicy | internal
  | registryUnavailable | registryStale | contentUnavailable | ipnsUnresolved | aliasLoop
  | contentIntegrity
  deriving DecidableEq, Repr

/-- The manifest fields that drive the resolver. -/
structure SiteManifest where
  index : Option Utf16
  fallback : Option Utf16
  notFound : Option Utf16
  deriving DecidableEq, Repr

/-- How long a negative answer may be trusted, in seconds; nothing where it is never cached. -/
def negativeTtlSeconds : ResolveErrorName → Option ℕ
  | .nameNotFound => some 30
  | .nameExpired => some 60
  | .nameQuarantined => some 60
  | .nameRevoked => some 60
  | .contentUnavailable => some 10
  | .ipnsUnresolved => some 10
  | _ => none

/-- `POSITIVE_TTL_SECONDS`. -/
def positiveTtlSeconds : ℕ := 300

/-- A remembered failure. -/
structure NegativeEntry where
  error : ResolveErrorName
  expires : ℕ
  deriving DecidableEq, Repr

/-- A remembered record. -/
structure PositiveEntry where
  record : RegistryRecord
  expires : ℕ
  deriving DecidableEq

/-- The caches, bounded and evicting; maps are in insertion order. -/
structure ResolutionCache where
  negatives : OrdMap String NegativeEntry
  positives : OrdMap String PositiveEntry
  manifests : OrdMap String (Option SiteManifest)
  negativeLimit : ℕ
  positiveLimit : ℕ
  manifestLimit : ℕ
  /-- What the registry was last said to look like. -/
  generation : Option ℕ
  hitCount : ℕ
  missCount : ℕ
  /-- The table of `negativeTtlSeconds`, unless the cache was made with another. -/
  ttls : ResolveErrorName → Option ℕ

/-! ## Sizes -/

/-- `CACHE_CEILINGS.negativeEntries`: the share in bytes over the allowance of one entry. -/
def negativeCeiling : ℕ := 32 * 1024 * 1024 / 256

/-- `CACHE_CEILINGS.positiveEntries`. -/
def positiveCeiling : ℕ := 32 * 1024 * 1024 / (8 * 1024)

/-- `CACHE_CEILINGS.manifestEntries`. -/
def manifestCeiling : ℕ := 32 * 1024 * 1024 / (16 * 1024)

/-- A number that a caller passes: what it is where `Number.isInteger` holds of it, and its text. -/
structure SizeValue where
  integer : Option ℤ
  text : String
  deriving DecidableEq, Repr

/-- The bounds that a caller may change. -/
structure CacheSizes where
  negativeEntries : Option SizeValue
  positiveEntries : Option SizeValue
  manifestEntries : Option SizeValue
  deriving DecidableEq, Repr

/-- The bound a caller asks for; a `CacheError` where this cache cannot honour it. -/
def usableSize (value : Option SizeValue) (field : String) (ceiling : ℕ) : Except String (Option ℕ) :=
  match value with
  | none => .ok none
  | some value =>
    match value.integer with
    | none => .error s!"{field} must be a positive integer, not {value.text}"
    | some n =>
      if n < 1 then .error s!"{field} must be a positive integer, not {value.text}"
      else if (ceiling : ℤ) < n then
        .error (s!"{field} exceeds its ceiling of {ceiling} entries; " ++
          "LOCAL-SURFACE.md 3.4 budgets the caches a fixed amount of memory and says raising a " ++
          "limit is a specification change, not a request")
      else .ok (some n.toNat)

namespace ResolutionCache

/-- A cache of these bounds. -/
def sized (negativeLimit positiveLimit manifestLimit : ℕ) (ttls : ResolveErrorName → Option ℕ) : ResolutionCache :=
  { negatives := [], positives := [], manifests := [], negativeLimit := negativeLimit,
    positiveLimit := positiveLimit, manifestLimit := manifestLimit, generation := none, hitCount := 0,
    missCount := 0, ttls := ttls }

/-- A cache with the bounds of `CACHE_LIMITS`. -/
def fresh : ResolutionCache := sized 512 512 256 negativeTtlSeconds

/-! ## Bounds -/

/-- Change one or more bounds, and make them true of what is held. Every size is looked at before one is applied. -/
def setLimits (limits : CacheSizes) (cache : ResolutionCache) : Except String ResolutionCache := do
  let negative ← usableSize limits.negativeEntries "negativeEntries" negativeCeiling
  let positive ← usableSize limits.positiveEntries "positiveEntries" positiveCeiling
  let manifest ← usableSize limits.manifestEntries "manifestEntries" manifestCeiling
  let negativeLimit := negative.getD cache.negativeLimit
  let positiveLimit := positive.getD cache.positiveLimit
  let manifestLimit := manifest.getD cache.manifestLimit
  return { cache with
    negativeLimit := negativeLimit, positiveLimit := positiveLimit, manifestLimit := manifestLimit,
    negatives := cache.negatives.trim negativeLimit, positives := cache.positives.trim positiveLimit,
    manifests := cache.manifests.trim manifestLimit }

/-! ## Forgetting -/

/-- Forget everything; how many entries went. -/
def clear (cache : ResolutionCache) : ℕ × ResolutionCache :=
  (cache.negatives.length + cache.positives.length + cache.manifests.length,
    { cache with negatives := [], positives := [], manifests := [] })

/-- Forget one name; how many entries went. -/
def forget (key : String) (cache : ResolutionCache) : ℕ × ResolutionCache :=
  ((if (cache.negatives.get? key).isSome then 1 else 0) + (if (cache.positives.get? key).isSome then 1 else 0),
    { cache with negatives := cache.negatives.erase key, positives := cache.positives.erase key })

/-- Tell the cache what the registry looks like now: every answer goes when that has changed. -/
def setGeneration (generation : ℕ) (cache : ResolutionCache) : ResolutionCache :=
  if cache.generation = some generation then cache
  else { cache with generation := some generation, negatives := [], positives := [] }

/-! ## Answers -/

/-- The cached error under a key. An expired entry is dropped as it is found. -/
def negative (key : String) (now : ℕ) (cache : ResolutionCache) : Option ResolveErrorName × ResolutionCache :=
  match cache.negatives.get? key with
  | none => (none, { cache with missCount := cache.missCount + 1 })
  | some entry =>
    if entry.expires ≤ now then
      (none, { cache with negatives := cache.negatives.erase key, missCount := cache.missCount + 1 })
    else (some entry.error, { cache with hitCount := cache.hitCount + 1 })

/-- Cache a negative answer, if the policy allows it. -/
def putNegative (key : String) (error : ResolveErrorName) (now : ℕ) (cache : ResolutionCache) :
    Bool × ResolutionCache :=
  match cache.ttls error with
  | none => (false, cache)
  | some ttl =>
    (true, { cache with
      negatives := (cache.negatives.evict key cache.negativeLimit).set key { error := error, expires := now + ttl } })

/-- The cached record of a name. -/
def positive (key : String) (now : ℕ) (cache : ResolutionCache) : Option RegistryRecord × ResolutionCache :=
  match cache.positives.get? key with
  | none => (none, { cache with missCount := cache.missCount + 1 })
  | some entry =>
    if entry.expires ≤ now then
      (none, { cache with positives := cache.positives.erase key, missCount := cache.missCount + 1 })
    else (some entry.record, { cache with hitCount := cache.hitCount + 1 })

/-- What a site's manifest says, or nothing when this CID has not been looked at. -/
def manifest (cid : String) (cache : ResolutionCache) : Option (Option SiteManifest) := cache.manifests.get? cid

/-- Remember what a CID's manifest says, with no expiry. -/
def rememberManifest (cid : String) (manifest : Option SiteManifest) (cache : ResolutionCache) : ResolutionCache :=
  { cache with manifests := (cache.manifests.evict cid cache.manifestLimit).set cid manifest }

/-- Cache a live record, until the end of its term at most. -/
def putPositive (key : String) (record : RegistryRecord) (now : ℕ) (cache : ResolutionCache) : Bool × ResolutionCache :=
  let expires := min (now + positiveTtlSeconds) record.notAfter
  if expires ≤ now then (false, cache)
  else
    (true, { cache with
      positives := (cache.positives.evict key cache.positiveLimit).set key { record := record, expires := expires } })

end ResolutionCache

end VayuWeb
