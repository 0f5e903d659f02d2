import Mathlib.Data.List.TakeWhile
import VayuWeb.Base.Stamped
import VayuWeb.Proof.Hops
import VayuWeb.Proof.Log
import VayuWeb.Proof.Resolve
import VayuWeb.Spec.Resolver

/-!
# A cache in front of the registry

* `resolveFrom_yields`: over a cache of current records the walk finds what the registry answers.
* `Reached.fresh`: no call makes a cached record outlive the registry's answer.
* `answer_current`: what a name resolves to over the cache.
-/

namespace VayuWeb

open Trial (outcome Yields bind_of_ok)

/-! ## Names -/

/-- A text is split at its only dot in one way. -/
theorem split_at_dot {label tld other otherTld : List Char} (hlabel : '.' ∉ label) (htld : '.' ∉ tld)
    (h : label ++ '.' :: tld = other ++ '.' :: otherTld) : label = other ∧ tld = otherTld := by
  rcases List.append_eq_append_iff.1 h with ⟨middle, hother, htail⟩ | ⟨middle, hlabel', htail⟩
  · cases middle with
    | nil =>
      rw [List.append_nil] at hother
      rw [List.nil_append, List.cons.injEq] at htail
      exact ⟨hother.symm, htail.2⟩
    | cons c middle =>
      rw [List.cons_append, List.cons.injEq] at htail
      exact absurd (htail.2 ▸ List.mem_append_right _ List.mem_cons_self) htld
  · cases middle with
    | nil =>
      rw [List.append_nil] at hlabel'
      rw [List.nil_append, List.cons.injEq] at htail
      exact ⟨hlabel', htail.2.symm⟩
    | cons c middle =>
      rw [List.cons_append, List.cons.injEq] at htail
      exact absurd (hlabel' ▸ List.mem_append_right _ (htail.1 ▸ List.mem_cons_self)) hlabel

/-- Neither part of a host has a dot. -/
theorem parseHost_noDot {host : String} {parsed : ParsedHost} (h : parseHost host = some parsed) :
    '.' ∉ parsed.label.toList ∧ '.' ∉ parsed.tld.toList := by
  unfold parseHost at h
  simp only at h
  split at h
  · cases h
  · rename_i tld hdrop
    split_ifs at h with hdot hempty
    rw [Option.some.injEq] at h
    rw [← h]
    simp only [String.toList_ofList]
    refine ⟨?_, hdot⟩
    intro hmem
    have hne := List.mem_takeWhile_imp hmem
    simp at hne

/-- The key of a host is the key of no other name. -/
theorem key_injective {host : String} {parsed : ParsedHost} (h : parseHost host = some parsed) {label tld : String}
    (heq : s!"{parsed.label}.{parsed.tld}" = s!"{label}.{tld}") : parsed.label = label ∧ parsed.tld = tld := by
  obtain ⟨hlabel, htld⟩ := parseHost_noDot h
  have hchars : parsed.label.toList ++ '.' :: parsed.tld.toList = label.toList ++ '.' :: tld.toList := by
    have h := congrArg String.toList heq
    simpa [toString, String.toList_append] using h
  obtain ⟨hl, ht⟩ := split_at_dot hlabel htld hchars
  exact ⟨String.toList_injective hl, String.toList_injective ht⟩

/-! ## What a cache holds -/

/-- The registry's current record of a name, live at the clock. -/
structure CurrentAt (ports : ResolverPorts) (now : ℕ) (host : ParsedHost) (r : RegistryRecord) : Prop where
  found : ports.lookup host.label host.tld = some r
  live : stateAt r now = .live

/-- A cached record is the registry's record of its name, and live until it expires. -/
structure Held (ports : ResolverPorts) (now : ℕ) (e : String × PositiveEntry) : Prop where
  head : ports.hasVerifiedHead = true
  found : ∃ label tld, e.1 = s!"{label}.{tld}" ∧ ports.lookup label tld = some e.2.record
  live : ∀ t, now ≤ t → t < e.2.expires → stateAt e.2.record t = .live

/-- A cache under the generation of its registry. -/
structure AtHead (ports : ResolverPorts) (now size : ℕ) (cache : ResolutionCache) : Prop where
  generation : cache.generation = some size
  held : ∀ e ∈ cache.positives, Held ports now e

section Held

variable {ports : ResolverPorts} {now size : ℕ} {cache : ResolutionCache} {key : String} {r : RegistryRecord}

/-- What a cache may hold at a moment it may hold later. -/
theorem Held.later {e : String × PositiveEntry} (h : Held ports now e) {later : ℕ} (hle : now ≤ later) :
    Held ports later e :=
  ⟨h.head, h.found, fun t ht hlt => h.live t (hle.trans ht) hlt⟩

/-! ### Calls -/

/-- A look drops an entry at most, and what it answers is held and has not expired. -/
theorem positive_spec (key : String) (now : ℕ) (cache : ResolutionCache) :
    (cache.positive key now).2.generation = cache.generation ∧
      (∀ e ∈ (cache.positive key now).2.positives, e ∈ cache.positives) ∧
        ∀ r, (cache.positive key now).1 = some r →
          ∃ entry, (key, entry) ∈ cache.positives ∧ entry.record = r ∧ now < entry.expires := by
  unfold ResolutionCache.positive
  cases hget : cache.positives.get? key with
  | none => simp
  | some entry =>
    simp only
    split_ifs with hexpired
    · refine ⟨rfl, fun e he => OrdMap.mem_of_mem_erase he, ?_⟩
      intro r hr
      cases hr
    · refine ⟨rfl, fun e he => he, ?_⟩
      intro r hr
      rw [Option.some.injEq] at hr
      exact ⟨entry, OrdMap.mem_of_get? hget, hr, by omega⟩

theorem negative_spec (key : String) (now : ℕ) (cache : ResolutionCache) :
    (cache.negative key now).2.generation = cache.generation ∧
      (cache.negative key now).2.positives = cache.positives := by
  unfold ResolutionCache.negative
  split
  · exact ⟨rfl, rfl⟩
  · split_ifs <;> exact ⟨rfl, rfl⟩

theorem putNegative_spec (key : String) (error : ResolveErrorName) (now : ℕ) (cache : ResolutionCache) :
    (cache.putNegative key error now).2.generation = cache.generation ∧
      (cache.putNegative key error now).2.positives = cache.positives := by
  unfold ResolutionCache.putNegative
  split <;> exact ⟨rfl, rfl⟩

/-- What is put of a record expires at the end of its term at the latest. -/
theorem putPositive_spec (key : String) (record : RegistryRecord) (now : ℕ) (cache : ResolutionCache) :
    (cache.putPositive key record now).2.generation = cache.generation ∧
      ∀ e ∈ (cache.putPositive key record now).2.positives, e ∈ cache.positives ∨
        e.1 = key ∧ e.2.record = record ∧ e.2.expires ≤ record.notAfter := by
  unfold ResolutionCache.putPositive
  simp only
  split_ifs with hterm
  · exact ⟨rfl, fun e he => Or.inl he⟩
  · refine ⟨rfl, fun e he => ?_⟩
    rcases OrdMap.mem_set he with rfl | he
    · exact Or.inr ⟨rfl, rfl, min_le_right _ _⟩
    · exact Or.inl (OrdMap.mem_of_mem_evict he)

/-- What is put of a current record is held. -/
theorem held_of_put {label tld : String} (hhead : ports.hasVerifiedHead = true)
    (hfound : ports.lookup label tld = some r) (hlive : stateAt r now = .live) {e : String × PositiveEntry}
    (hkey : e.1 = s!"{label}.{tld}") (hrecord : e.2.record = r) (hexpires : e.2.expires ≤ r.notAfter) :
    Held ports now e := by
  refine ⟨hhead, ⟨label, tld, hkey, by rw [hrecord]; exact hfound⟩, ?_⟩
  intro t hle hlt
  rw [hrecord]
  exact live_until hlive hle (hlt.trans_le hexpires)

end Held

/-! ## Resolutions -/

/-- The names that aliases lead over, each with a current record, and what the last one selects. -/
inductive AliasChain (ports : ResolverPorts) (now : ℕ) : String → RegistryRecord → RecordEntry → Prop
  | ends {name : String} {host : ParsedHost} {r : RegistryRecord} {e : RecordEntry}
      (parsed : parseHost name = some host) (current : CurrentAt ports now host r) (selects : selectSource r = some e)
      (fetchable : e.type ≠ "alias") : AliasChain ports now name r e
  | leads {name : String} {host : ParsedHost} {r last : RegistryRecord} {e selected : RecordEntry} {label tld : String}
      (parsed : parseHost name = some host) (current : CurrentAt ports now host r) (selects : selectSource r = some e)
      (isAlias : e.type = "alias") (target : (aliasText e.value).bind parseAlias = some (label, tld))
      (rest : AliasChain ports now s!"{label}.{tld}" last selected) : AliasChain ports now name last selected

/-- A run over a cache that is at the head of its registry. -/
def OverHead (ports : ResolverPorts) (now size : ℕ) (state : Option ResolutionCache) : Prop :=
  ∃ cache, state = some cache ∧ AtHead ports now size cache

section Walk

variable {ports : ResolverPorts} {now size : ℕ} {host : ParsedHost} {r : RegistryRecord}

theorem yields_onCache {α : Type} {call : ResolutionCache → α × ResolutionCache} {P : Option α → Prop}
    (h : ∀ cache, AtHead ports now size cache → AtHead ports now size (call cache).2 ∧ P (some (call cache).1)) :
    Yields (OverHead ports now size) P (onCache call) := by
  rintro state ⟨cache, rfl, hhead⟩
  obtain ⟨hkept, hanswer⟩ := h cache hhead
  refine ⟨⟨_, rfl, hkept⟩, ?_⟩
  intro a ha
  obtain rfl : some (call cache).1 = a := Except.ok.inj ha
  exact hanswer

theorem refuseName_yields {α : Type} {P : α → Prop} (key : String) (error : ResolveErrorName) (detail : String)
    (d : Diagnostics) : Yields (OverHead ports now size) P (refuseName now key error detail d) := by
  unfold refuseName
  refine Yields.bind (P := fun _ => True) (yields_onCache ?_) fun _ _ => Trial.yields_throw _
  intro cache hhead
  obtain ⟨hgeneration, hpositives⟩ := putNegative_spec key error now cache
  exact ⟨⟨hgeneration.trans hhead.generation, hpositives ▸ hhead.held⟩, trivial⟩

/-- The registry's record, and a cache that holds it. -/
theorem lookupRecord_yields (d : Diagnostics) :
    Yields (OverHead ports now size) (fun found => CurrentAt ports now host found.1 ∧ ports.hasVerifiedHead = true)
      (lookupRecord ports now host s!"{host.label}.{host.tld}" d) := by
  unfold lookupRecord
  by_cases hhead : ports.hasVerifiedHead = true
  · rw [if_neg (not_not_intro hhead)]
    cases hlookup : ports.lookup host.label host.tld with
    | none => exact refuseName_yields _ _ _ _
    | some r =>
      simp only
      cases hwindow : windowRefusal s!"{host.label}.{host.tld}" r now with
      | some refusal => exact refuseName_yields _ _ _ _
      | none =>
        have hlive := windowRefusal_eq_none_iff.1 hwindow
        refine Yields.bind (P := fun _ => True) (yields_onCache ?_) fun _ _ =>
          Trial.yields_pure ⟨⟨hlookup, hlive⟩, hhead⟩
        intro cache hcache
        obtain ⟨hgeneration, hpositives⟩ := putPositive_spec s!"{host.label}.{host.tld}" r now cache
        refine ⟨⟨hgeneration.trans hcache.generation, ?_⟩, trivial⟩
        intro e he
        rcases hpositives e he with he | ⟨hkey, hrecord, hexpires⟩
        · exact hcache.held e he
        · exact held_of_put hhead hlookup hlive hkey hrecord hexpires
  · rw [if_pos hhead]
    exact Trial.yields_throw_bind _ _

/-- **A cached record is the one the registry would answer.** -/
theorem currentRecord_yields {name : String} (hhost : parseHost name = some host) (d : Diagnostics) :
    Yields (OverHead ports now size) (fun found => CurrentAt ports now host found.1 ∧ ports.hasVerifiedHead = true)
      (currentRecord ports now host s!"{host.label}.{host.tld}" d) := by
  unfold currentRecord
  refine Yields.bind (P := fun cached => ∀ r, cached.join = some r →
    CurrentAt ports now host r ∧ ports.hasVerifiedHead = true) (yields_onCache ?_) ?_
  · intro cache hcache
    obtain ⟨hgeneration, hpositives, hanswer⟩ := positive_spec s!"{host.label}.{host.tld}" now cache
    refine ⟨⟨hgeneration.trans hcache.generation, fun e he => hcache.held e (hpositives e he)⟩, ?_⟩
    intro r hr
    rw [Option.join_some] at hr
    obtain ⟨entry, hentry, hrecord, hexpires⟩ := hanswer r hr
    have hheld := hcache.held _ hentry
    obtain ⟨label, tld, hkey, hfound⟩ := hheld.found
    -- the key of a name that was looked up is the key of no other name
    obtain ⟨hlabel, htld⟩ := key_injective hhost hkey
    have hlive := hheld.live now le_rfl hexpires
    simp only [hrecord] at hfound hlive
    exact ⟨⟨by rw [hlabel, htld]; exact hfound, hlive⟩, hheld.head⟩
  · intro cached hcached
    cases hjoin : cached.join with
    | some r => exact Trial.yields_pure (hcached r hjoin)
    | none =>
      refine Yields.bind (P := fun _ => True) (yields_onCache ?_) ?_
      · intro cache hcache
        obtain ⟨hgeneration, hpositives⟩ := negative_spec s!"{host.label}.{host.tld}" now cache
        exact ⟨⟨hgeneration.trans hcache.generation, hpositives ▸ hcache.held⟩, trivial⟩
      · intro refused _
        cases refused.join with
        | some error => exact Trial.yields_throw _
        | none => exact lookupRecord_yields d

/-- What a walk over a cache answers: a chain of current records, and what the walk without one answers. -/
structure Answered (ports : ResolverPorts) (now left hop : ℕ) (seen : List String) (name : String)
    (resolved : Resolved) : Prop where
  chain : AliasChain ports now name resolved.record resolved.entry
  uncached : ∀ d, ∃ d', outcome (resolveFrom ports now left hop seen name d) none =
    (.ok { resolved with diagnostics := d' }, none)

/-- **Every hop, over a cache that is at the head of its registry.** -/
theorem resolveFrom_yields : ∀ (left hop : ℕ) (seen : List String) (name : String) (d : Diagnostics),
    Yields (OverHead ports now size) (Answered ports now left hop seen name)
      (resolveFrom ports now left hop seen name d) := by
  intro left
  induction left with
  | zero =>
    intro hop seen name d
    exact Trial.yields_throw _
  | succ left ih =>
    intro hop seen name d
    cases hcheck : checkHost name { d with aliasHops := hop } with
    | error refused =>
      rw [resolveFrom, hcheck]
      exact (Trial.yields_throw (P := fun _ => False) refused).bind fun _ h => h.elim
    | ok host =>
      by_cases hseen : s!"{host.label}.{host.tld}" ∈ seen
      · rw [resolveFrom, hcheck]
        refine (Trial.yields_pure (P := fun h => h = host) rfl).bind ?_
        rintro _ rfl
        simp only [if_pos hseen]
        exact Trial.yields_throw_bind _ _
      · obtain ⟨hparse, htld, hlabel⟩ := checkHost_eq_ok.1 hcheck
        have hturn : Yields (OverHead ports now size) (Answered ports now (left + 1) hop seen name)
            (currentRecord ports now host s!"{host.label}.{host.tld}" { d with aliasHops := hop } >>=
              resolveRest ports now left hop seen s!"{host.label}.{host.tld}") := by
          refine (currentRecord_yields hparse _).bind ?_
          rintro ⟨r, found⟩ ⟨hcurrent, hhead⟩
          -- without a cache the turn comes to the same record
          have huncached : ∀ d, ∃ d', outcome (resolveFrom ports now (left + 1) hop seen name d) none =
              outcome (resolveRest ports now left hop seen s!"{host.label}.{host.tld}" (r, d')) none := by
            intro d
            obtain ⟨d', hd'⟩ := lookupRecord_ok host { d with aliasHops := hop } hhead hcurrent.found
              (windowRefusal_eq_none_iff.2 hcurrent.live)
            refine ⟨d', ?_⟩
            rw [resolveFrom_named (checkHost_eq_ok.2 ⟨hparse, htld, hlabel⟩) hseen]
            exact bind_of_ok hd'
          unfold resolveRest
          refine (Trial.yields_ofExcept (P := fun step => selectStep s!"{host.label}.{host.tld}" r found = .ok step)
            fun _ h => h).bind ?_
          intro step hstep
          obtain ⟨e, hselect, ⟨htype, rfl⟩ | ⟨label, tld, htype, htarget, rfl⟩⟩ := selectStep_cases hstep
          · refine Trial.yields_pure ⟨.ends hparse hcurrent hselect htype, ?_⟩
            intro d
            obtain ⟨d₁, hd₁⟩ := huncached d
            obtain ⟨d₂, hd₂⟩ := resolveRest_fetch ports now left hop seen s!"{host.label}.{host.tld}" d₁ hselect htype
              none
            exact ⟨d₂, hd₁.trans hd₂⟩
          · intro state hstate
            obtain ⟨hkept, hanswer⟩ := ih (hop + 1) (s!"{host.label}.{host.tld}" :: seen) s!"{label}.{tld}"
              { found with source := some .alias } state hstate
            refine ⟨hkept, ?_⟩
            intro resolved hresolved
            obtain ⟨hchain, hrest⟩ := hanswer resolved hresolved
            refine ⟨.leads hparse hcurrent hselect htype htarget hchain, ?_⟩
            intro d
            obtain ⟨d₁, hd₁⟩ := huncached d
            obtain ⟨d₂, hd₂⟩ := resolveRest_alias ports now left hop seen s!"{host.label}.{host.tld}" d₁ hselect htype
              htarget none
            obtain ⟨d₃, hd₃⟩ := hrest d₂
            exact ⟨d₃, (hd₁.trans hd₂).trans hd₃⟩
        intro state hstate
        rw [resolveFrom_named hcheck hseen]
        exact hturn state hstate

end Walk

/-! ## Runs -/

/-- What happens to a resolver, in any order. `Put` is what is put into its cache from outside a resolution. -/
inductive Call (C : Crypto) (Put : Resolver → String → RegistryRecord → Prop) : Resolver → Resolver → Prop
  | append {w : Resolver} {bytes : Bytes} {now : ℕ} {v : Verdict} {store : Store}
      (appends : w.store.append C bytes now = .ok (v, store)) : Call C Put w { w with store := store }
  | tick {w : Resolver} {later : ℕ} (le : w.now ≤ later) : Call C Put w { w with now := later }
  | resolve {w : Resolver} {host : String} {result : Except Refused Resolved} {cache : ResolutionCache}
      (resolves : w.resolve host = (result, some cache)) : Call C Put w { w with cache := cache }
  | putPositive {w : Resolver} {key : String} {record : RegistryRecord} (put : Put w key record) :
      Call C Put w { w with cache := (w.cache.putPositive key record w.now).2 }
  | putNegative (w : Resolver) (key : String) (error : ResolveErrorName) :
      Call C Put w { w with cache := (w.cache.putNegative key error w.now).2 }
  | rememberManifest (w : Resolver) (cid : String) (manifest : Option SiteManifest) :
      Call C Put w { w with cache := w.cache.rememberManifest cid manifest }
  | positive (w : Resolver) (key : String) : Call C Put w { w with cache := (w.cache.positive key w.now).2 }
  | negative (w : Resolver) (key : String) : Call C Put w { w with cache := (w.cache.negative key w.now).2 }
  | setGeneration (w : Resolver) (generation : ℕ) :
      Call C Put w { w with cache := w.cache.setGeneration generation }
  | setLimits {w : Resolver} {limits : CacheSizes} {cache : ResolutionCache}
      (sets : w.cache.setLimits limits = .ok cache) : Call C Put w { w with cache := cache }
  | clear (w : Resolver) : Call C Put w { w with cache := w.cache.clear.2 }
  | forget (w : Resolver) (key : String) : Call C Put w { w with cache := (w.cache.forget key).2 }

/-- The resolvers that calls lead to, from an empty log and a new cache. -/
inductive Reached (C : Crypto) (Put : Resolver → String → RegistryRecord → Prop) : Resolver → Prop
  | start (negativeLimit positiveLimit manifestLimit : ℕ) (ttls : ResolveErrorName → Option ℕ) (now : ℕ) :
      Reached C Put
        { store := .empty, cache := .sized negativeLimit positiveLimit manifestLimit ttls, now := now }
  | call {w w' : Resolver} (reached : Reached C Put w) (call : Call C Put w w') : Reached C Put w'

/-- What a resolution puts: the registry's record of a name, live at the clock, in a cache whose generation is
not ahead of the log. -/
structure FromRegistry (w : Resolver) (key : String) (record : RegistryRecord) : Prop where
  found : ∃ label tld, key = s!"{label}.{tld}" ∧ (resolverPortsFor w.store).lookup label tld = some record
  live : stateAt record w.now = .live
  reached : ∀ generation, w.cache.generation = some generation → generation ≤ w.store.entries.length

/-- The records of a cache, under its generation. -/
def ResolutionCache.memo (cache : ResolutionCache) : Stamped String PositiveEntry :=
  { entries := cache.positives, stamp := cache.generation }

/-- What holds of a resolver, whatever was called. -/
structure Sound (C : Crypto) (w : Resolver) : Prop where
  run : ∃ steps, Run C steps w.store
  fresh : Stamped.Fresh (Held (resolverPortsFor w.store) w.now) w.store.entries.length w.cache.memo

section Runs

variable {C : Crypto} {w w' : Resolver}

/-- A log with a name in it has entries. -/
theorem verifiedHead_of_lookup {steps : List Step} {s : Store} (h : Run C steps s) {label tld : String}
    {r : RegistryRecord} (hfound : (resolverPortsFor s).lookup label tld = some r) :
    (resolverPortsFor s).hasVerifiedHead = true := by
  have hcurrent := h.indexed.current (nameKey label tld)
  obtain ⟨held, hheld, -⟩ := Option.map_eq_some_iff.1 hfound
  unfold Store.lookup at hheld
  rw [hheld, Option.map_some] at hcurrent
  obtain ⟨e, he, -⟩ := Option.map_eq_some_iff.1 hcurrent.symm
  have hmem := List.mem_of_getLast? he
  exact decide_eq_true (List.length_pos_of_mem (List.mem_filter.1 hmem).1)

theorem memo_setGeneration (cache : ResolutionCache) (generation : ℕ) :
    (cache.setGeneration generation).memo = cache.memo.mark generation := by
  unfold ResolutionCache.setGeneration ResolutionCache.memo Stamped.mark
  split_ifs <;> rfl

theorem generation_setGeneration (cache : ResolutionCache) (generation : ℕ) :
    (cache.setGeneration generation).generation = some generation := by
  unfold ResolutionCache.setGeneration
  split_ifs with h
  · exact h
  · rfl

/-- The cache a name is resolved over. -/
theorem Sound.atHead (h : Sound C w) : AtHead (resolverPortsFor w.store) w.now w.store.entries.length
    (w.cache.setGeneration w.store.entries.length) := by
  refine ⟨generation_setGeneration _ _, ?_⟩
  have hright := h.fresh.mark_right
  rw [← memo_setGeneration] at hright
  exact hright

/-- A cache that lost records is as fresh as before. -/
theorem Sound.drop (h : Sound C w) {cache : ResolutionCache} (hgeneration : cache.generation = w.cache.generation)
    (hsub : ∀ e ∈ cache.positives, e ∈ w.cache.positives) : Sound C { w with cache := cache } := by
  refine ⟨h.run, ?_⟩
  have hfresh := h.fresh.drop hsub
  unfold ResolutionCache.memo at hfresh ⊢
  rw [hgeneration]
  exact hfresh

/-- A record appended to the store keeps the world sound. -/
theorem Sound.append (h : Sound C w) {bytes : Bytes} {now : ℕ} {v : Verdict} {store : Store}
    (happend : w.store.append C bytes now = .ok (v, store)) : Sound C { w with store := store } := by
  obtain ⟨steps, hrun⟩ := h.run
  refine ⟨⟨_, hrun.append happend⟩, ?_⟩
  have hgrown : ∀ r, store = w.store.extend C bytes r → w.store.entries.length < store.entries.length := by
    intro r hr
    rw [hr, extend_entries, List.length_append, List.length_singleton]
    omega
  rcases append_cases happend with ⟨hsame, -⟩ | ⟨r, -, -, hextend⟩ | ⟨r, held, root, -, -, hextend⟩
  · simp only [hsame]
    exact h.fresh
  · exact h.fresh.grow (hgrown r hextend)
  · exact h.fresh.grow (hgrown r hextend)

/-- A put from the registry keeps the world sound. -/
theorem Sound.put (h : Sound C w) {key : String} {record : RegistryRecord} (hput : FromRegistry w key record) :
    Sound C { w with cache := (w.cache.putPositive key record w.now).2 } := by
  obtain ⟨steps, hrun⟩ := h.run
  obtain ⟨label, tld, hkey, hfound⟩ := hput.found
  obtain ⟨hgeneration, hpositives⟩ := putPositive_spec key record w.now w.cache
  refine ⟨⟨steps, hrun⟩, ?_⟩
  have hheld : ∀ e ∈ (w.cache.putPositive key record w.now).2.positives,
      e ∈ w.cache.positives ∨ Held (resolverPortsFor w.store) w.now e := by
    intro e he
    refine (hpositives e he).imp_right ?_
    intro ⟨hname, hrecord, hexpires⟩
    exact held_of_put (verifiedHead_of_lookup hrun hfound) hfound hput.live (hname.trans hkey) hrecord hexpires
  have hfresh := h.fresh.put hput.reached hheld
  unfold ResolutionCache.memo at hfresh ⊢
  rw [hgeneration]
  exact hfresh

/-- What a name is answered, and the cache it leaves. -/
theorem Sound.resolve (h : Sound C w) (host : String) :
    OverHead (resolverPortsFor w.store) w.now w.store.entries.length (w.resolve host).2 ∧
      ∀ resolved, (w.resolve host).1 = .ok resolved →
        Answered (resolverPortsFor w.store) w.now (aliasBudget + 1) 0 [] host resolved :=
  resolveFrom_yields _ _ _ _ _ _ ⟨_, rfl, h.atHead⟩

/-- New limits drop entries and add none. -/
theorem setLimits_spec {limits : CacheSizes} {cache cache' : ResolutionCache}
    (h : cache.setLimits limits = .ok cache') :
    cache'.generation = cache.generation ∧ ∀ e ∈ cache'.positives, e ∈ cache.positives := by
  unfold ResolutionCache.setLimits at h
  obtain ⟨negative, -, h⟩ := Except.bind_eq_ok.1 h
  obtain ⟨positive, -, h⟩ := Except.bind_eq_ok.1 h
  obtain ⟨manifest, -, h⟩ := Except.bind_eq_ok.1 h
  obtain rfl := Except.ok.inj h
  exact ⟨rfl, fun e he => OrdMap.mem_of_mem_trim he⟩

/-- **No call lets a cached record outlive the registry's answer.** -/
theorem Sound.call (h : Sound C w) (hcall : Call C FromRegistry w w') : Sound C w' := by
  -- only an append, a resolution and a put touch the positive answers; the others drop or keep them
  cases hcall with
  | append happend => exact h.append happend
  | tick hle => exact ⟨h.run, h.fresh.mono fun e he => he.later hle⟩
  | @resolve host result cache hresolve =>
    obtain ⟨⟨cache', hcache', hhead⟩, -⟩ := h.resolve host
    rw [hresolve] at hcache'
    obtain rfl : cache = cache' := Option.some.inj hcache'
    refine ⟨h.run, ⟨fun _ stamp hstamp => ?_, fun _ e he => hhead.held e he⟩⟩
    have hstamp' := hhead.generation.symm.trans hstamp
    exact (Option.some.inj hstamp').ge
  | putPositive hput => exact h.put hput
  | putNegative key error =>
    obtain ⟨hgeneration, hpositives⟩ := putNegative_spec key error w.now w.cache
    exact h.drop hgeneration fun e he => hpositives ▸ he
  | rememberManifest cid manifest => exact h.drop rfl fun e he => he
  | positive key =>
    obtain ⟨hgeneration, hpositives, -⟩ := positive_spec key w.now w.cache
    exact h.drop hgeneration hpositives
  | negative key =>
    obtain ⟨hgeneration, hpositives⟩ := negative_spec key w.now w.cache
    exact h.drop hgeneration fun e he => hpositives ▸ he
  | setGeneration generation =>
    refine ⟨h.run, ?_⟩
    rw [memo_setGeneration]
    exact h.fresh.mark generation
  | setLimits hset =>
    obtain ⟨hgeneration, hpositives⟩ := setLimits_spec hset
    exact h.drop hgeneration hpositives
  | clear => exact h.drop rfl fun e he => absurd he List.not_mem_nil
  | forget key => exact h.drop rfl fun e he => OrdMap.mem_of_mem_erase he

/-- Every world that is reached by puts from the registry is sound. -/
theorem Reached.sound (h : Reached C FromRegistry w) : Sound C w := by
  induction h with
  | start negativeLimit positiveLimit manifestLimit ttls now =>
    exact ⟨⟨[], .empty⟩, Stamped.fresh_of_nil rfl⟩
  | call _ hcall ih => exact ih.call hcall

/-- **The cache never outlives the registry's answer.** What a name resolves to was led to by current records,
live at the clock, and is what it resolves to without a cache. -/
theorem answer_current (h : Reached C FromRegistry w) {host : String} {resolved : Resolved}
    {cache : Option ResolutionCache} (hok : w.resolve host = (.ok resolved, cache)) :
    AliasChain (resolverPortsFor w.store) w.now host resolved.record resolved.entry ∧
      ∃ d, outcome (resolveName (resolverPortsFor w.store) w.now host) none =
        (.ok { resolved with diagnostics := d }, none) := by
  have hanswered := (h.sound.resolve host).2 resolved (by rw [hok])
  exact ⟨hanswered.chain, hanswered.uncached _⟩

/-! ### Runs that are computed -/

/-- The log after an append. -/
def Resolver.append (C : Crypto) (w : Resolver) (bytes : Bytes) (now : ℕ) : Resolver :=
  match w.store.append C bytes now with
  | .ok (_, store) => { w with store := store }
  | .error _ => w

/-- The cache after a resolution. -/
def Resolver.visit (w : Resolver) (host : String) : Resolver :=
  match (w.resolve host).2 with
  | some cache => { w with cache := cache }
  | none => w

variable {Put : Resolver → String → RegistryRecord → Prop}

theorem Reached.append (h : Reached C Put w) (bytes : Bytes) (now : ℕ) : Reached C Put (w.append C bytes now) := by
  unfold Resolver.append
  split
  · rename_i v store happend
    exact h.call (.append happend)
  · exact h

theorem Reached.visit (h : Reached C Put w) (host : String) : Reached C Put (w.visit host) := by
  unfold Resolver.visit
  split
  · rename_i cache hcache
    have hresolve : w.resolve host = ((w.resolve host).1, some cache) := by rw [← hcache]
    exact h.call (.resolve hresolve)
  · exact h

end Runs

/-! ## A published name, and a record that no registry held -/

/-- The proxy over a log that publishes a name, a minute after the name was first asked for. -/
def servedTwice : Resolver :=
  let served := (((Resolver.mk .empty .fresh 1700000000).append Client.View.publishedCrypto Sample.first.bytes
    1700000000).append
    Client.View.publishedCrypto Client.View.publishedBytes 1700000000).visit "observatory-lantern.abacus"
  { served with now := 1700000060 }

theorem reached_servedTwice : Reached Client.View.publishedCrypto FromRegistry servedTwice := by
  have hstart : Reached Client.View.publishedCrypto FromRegistry ⟨.empty, .fresh, 1700000000⟩ := .start _ _ _ _ _
  have hvisited := ((hstart.append Sample.first.bytes 1700000000).append Client.View.publishedBytes 1700000000).visit
    "observatory-lantern.abacus"
  refine hvisited.call (.tick ?_)
  decide +kernel

theorem answer_current_published : ∃ resolved cache,
    servedTwice.resolve "observatory-lantern.abacus" = (.ok resolved, cache) ∧
      resolved.diagnostics.resolvedFrom = some .cache ∧
        AliasChain (resolverPortsFor servedTwice.store) servedTwice.now "observatory-lantern.abacus" resolved.record
          resolved.entry := by
  have hok : (servedTwice.resolve "observatory-lantern.abacus").1.map (·.diagnostics.resolvedFrom) =
      .ok (some .cache) := by
    decide +kernel
  cases hresolve : servedTwice.resolve "observatory-lantern.abacus" with
  | mk result cache =>
    rw [hresolve] at hok
    cases result with
    | error refused => cases hok
    | ok resolved =>
      exact ⟨resolved, cache, rfl, Except.ok.inj hok, (answer_current reached_servedTwice hresolve).1⟩

/-- A record of the name that is in no log. -/
def unheardRecord : RegistryRecord :=
  { Sample.first.record with
    entries := [{ type := "cid", value := .bytes Client.View.publishedCid, ttl := 300, known := true }] }

/-- The proxy over an empty log, with that record put into its cache. -/
def fed : Resolver :=
  { store := .empty, now := 1700000000
    cache := ((ResolutionCache.fresh.setGeneration 0).putPositive "observatory-lantern.abacus" unheardRecord
      1700000000).2 }

theorem reached_fed : Reached Sample.crypto (fun _ _ _ => True) fed :=
  ((Reached.start 512 512 256 negativeTtlSeconds 1700000000).call (.setGeneration _ 0)).call (.putPositive trivial)

/-- A cache answers what was put into it, whoever put it. -/
theorem unheard_answered : ¬ ∀ (C : Crypto) (w : Resolver) (host : String) (resolved : Resolved)
    (cache : Option ResolutionCache), Reached C (fun _ _ _ => True) w → w.resolve host = (.ok resolved, cache) →
      AliasChain (resolverPortsFor w.store) w.now host resolved.record resolved.entry := by
  intro h
  have hok : (fed.resolve "observatory-lantern.abacus").1.map (·.diagnostics.resolvedFrom) = .ok (some .cache) := by
    decide +kernel
  cases hresolve : fed.resolve "observatory-lantern.abacus" with
  | mk result cache =>
    rw [hresolve] at hok
    cases result with
    | error refused => cases hok
    | ok resolved =>
      have hchain := h _ fed _ resolved cache reached_fed hresolve
      -- the empty log has a record of no name
      have hnone : ∀ label tld, (resolverPortsFor fed.store).lookup label tld = none := fun _ _ => rfl
      cases hchain with
      | ends _ hcurrent => exact absurd (hcurrent.found.symm.trans (hnone _ _)) (by simp)
      | leads _ hcurrent => exact absurd (hcurrent.found.symm.trans (hnone _ _)) (by simp)

end VayuWeb
