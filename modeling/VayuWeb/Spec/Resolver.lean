import VayuWeb.Spec.Resolve
import VayuWeb.Spec.Store

/-!
# The resolver over a local log (`registry/src/cli.ts`, `registry/src/serve.ts`)

A log with entries has a verified head: every one of them was verified as it was replayed.
-/

namespace VayuWeb

/-- The current record for a name; whether it still resolves is not considered. -/
def Store.lookup (s : Store) (name tld : String) : Option NameEntry := s.names.get? (nameKey name tld)

/-- An empty log is a resolver that has not synchronised, not a namespace with nothing in it. -/
def resolverPortsFor (store : Store) : ResolverPorts :=
  { lookup := fun label tld => (store.lookup label tld).map (·.current.record)
    hasVerifiedHead := 0 < store.entries.length }

/-- A log, the cache in front of it and the clock. -/
structure Resolver where
  store : Store
  cache : ResolutionCache
  now : ℕ

/-- What the proxy does with a name: the generation is applied to the cache before it is resolved. -/
def Resolver.resolve (w : Resolver) (host : String) : Except Refused Resolved × Option ResolutionCache :=
  (resolveName (resolverPortsFor w.store) w.now host).run.run (some (w.cache.setGeneration w.store.entries.length))

end VayuWeb
