import VayuWeb.Base.Trial
import VayuWeb.Spec.Resolve

/-!
# One hop of a resolution

* `stateAt_live_iff`, `windowRefusal_eq_none_iff`: a record is let through exactly in its term.
* `resolveFrom_named`: a turn of the walk is the record of a name and what follows it, over any cache.
* `lookupRecord_ok`, `lookupRecord_error`: the registry's record, without a cache.
-/

namespace VayuWeb

open Trial (outcome bind_of_ok outcome_ofExcept_ok)

/-! ## The validity window -/

section Window

variable {r : RegistryRecord} {now : ℕ}

/-- A revoked record has no term left. -/
theorem stateAt_live_iff : stateAt r now = .live ↔ r.op ≠ .revoke ∧ r.notBefore ≤ now ∧ now < r.notAfter := by
  have hstate : ∀ life : Lifecycle,
      (if now < life.liveFrom then NameState.pending else if now < life.liveUntil then .live
        else if now < life.graceUntil then .grace else if now < life.quarantineUntil then .quarantine else .free) =
        .live ↔ life.liveFrom ≤ now ∧ now < life.liveUntil := by
    intro life
    split_ifs with hpending hlive
    all_goals simp only [true_iff, false_iff, not_and]
    all_goals omega
  unfold stateAt
  simp only
  rw [hstate]
  unfold lifecycleOf
  cases hop : r.op
  case revoke =>
    simp only [ne_eq, not_true_eq_false, false_and, iff_false, not_and]
    omega
  all_goals simp

theorem revoked_iff : (lifecycleOf r).revoked = true ↔ r.op = .revoke := by
  unfold lifecycleOf
  cases r.op <;> simp

/-- A record is not refused exactly while its name is live. -/
theorem windowRefusal_eq_none_iff {key : String} : windowRefusal key r now = none ↔ stateAt r now = .live := by
  unfold windowRefusal
  simp only
  by_cases hrevoked : (lifecycleOf r).revoked = true
  · have hnot : stateAt r now ≠ .live := fun hlive => (stateAt_live_iff.1 hlive).1 (revoked_iff.1 hrevoked)
    cases hstate : stateAt r now with
    | live => exact absurd hstate hnot
    | _ => simp [hrevoked]
  · cases hstate : stateAt r now <;> simp [hrevoked]

/-- A live record is refused exactly before its term. -/
theorem windowRefusal_eq_none {key : String} (hop : r.op ≠ .revoke) (hlive : now < r.notAfter) :
    windowRefusal key r now = none ↔ r.notBefore ≤ now := by
  rw [windowRefusal_eq_none_iff, stateAt_live_iff]
  exact ⟨fun h => h.2.1, fun h => ⟨hop, h, hlive⟩⟩

/-- What is live stays so to the end of its term. -/
theorem live_until {later : ℕ} (h : stateAt r now = .live) (hle : now ≤ later) (hlt : later < r.notAfter) :
    stateAt r later = .live := by
  obtain ⟨hop, hfrom, -⟩ := stateAt_live_iff.1 h
  exact stateAt_live_iff.2 ⟨hop, hfrom.trans hle, hlt⟩

end Window

section Registry

variable {ports : ResolverPorts} {now : ℕ} {host : ParsedHost} {key : String} {diagnostics : Diagnostics}
  {r : RegistryRecord} {left hop : ℕ} {seen : List String}

/-! ## The record of a name -/

/-- A live record is looked up. -/
theorem lookupRecord_ok (host : ParsedHost) (diagnostics : Diagnostics) (hhead : ports.hasVerifiedHead = true)
    (hlookup : ports.lookup host.label host.tld = some r)
    (hwindow : windowRefusal key r now = none) :
    ∃ d, outcome (lookupRecord ports now host key diagnostics) none = (.ok (r, d), none) := by
  unfold lookupRecord
  simp only [hhead, hlookup, hwindow, not_true_eq_false, if_false]
  exact ⟨_, rfl⟩

/-- A name that is not live is refused. -/
theorem lookupRecord_error (host : ParsedHost) (diagnostics : Diagnostics)
    (hshut : ∀ r, ports.lookup host.label host.tld = some r → windowRefusal key r now ≠ none) :
    ∃ e, outcome (lookupRecord ports now host key diagnostics) none = (.error e, none) := by
  unfold lookupRecord
  cases hhead : ports.hasVerifiedHead with
  | false => exact ⟨_, rfl⟩
  | true =>
    cases hlookup : ports.lookup host.label host.tld with
    | none => exact ⟨_, rfl⟩
    | some r =>
      obtain ⟨refusal, hrefusal⟩ := Option.ne_none_iff_exists'.1 (hshut r hlookup)
      simp only [hrefusal]
      exact ⟨_, rfl⟩

/-! ## Turns -/

/-- When a host is one that can be resolved. -/
theorem checkHost_eq_ok {name : String} : checkHost name diagnostics = .ok host ↔
    parseHost name = some host ∧ isRatifiedTld host.tld = true ∧ labelRejection host.label = none := by
  unfold checkHost
  cases hparse : parseHost name with
  | none => simp
  | some parsed =>
    simp only [Option.some.injEq]
    by_cases htld : isRatifiedTld parsed.tld = true
    · rw [if_neg (not_not_intro htld)]
      cases hlabel : labelRejection parsed.label with
      | some problem =>
        simp only [reduceCtorEq, false_iff, not_and]
        rintro rfl _
        rw [hlabel]
        simp
      | none =>
        simp only [Except.ok.injEq]
        constructor
        · rintro rfl
          exact ⟨rfl, htld, hlabel⟩
        · intro h
          exact h.1
    · rw [if_pos htld]
      simp only [reduceCtorEq, false_iff, not_and]
      rintro rfl hratified
      exact absurd hratified htld

/-- What follows the record of a name. -/
def resolveRest (ports : ResolverPorts) (now left hop : ℕ) (seen : List String) (key : String)
    (found : RegistryRecord × Diagnostics) : Resolving Resolved := do
  match ← MonadExcept.ofExcept (selectStep key found.1 found.2) with
  | .restart target =>
    resolveFrom ports now left (hop + 1) (key :: seen) target { found.2 with source := some .alias }
  | .fetch entry =>
    return { entry := entry, record := found.1,
             diagnostics := { found.2 with source := sourceOrder.find? fun type => entry.type = type.name } }

/-- A turn of the walk at a host that names something new, over any cache. -/
theorem resolveFrom_named {name : String} {cache : Option ResolutionCache}
    (hhost : checkHost name { diagnostics with aliasHops := hop } = .ok host)
    (hseen : s!"{host.label}.{host.tld}" ∉ seen) :
    outcome (resolveFrom ports now (left + 1) hop seen name diagnostics) cache =
      outcome (currentRecord ports now host s!"{host.label}.{host.tld}" { diagnostics with aliasHops := hop } >>=
        resolveRest ports now left hop seen s!"{host.label}.{host.tld}") cache := by
  rw [resolveFrom, hhost, bind_of_ok (outcome_ofExcept_ok _ _)]
  simp only [if_neg hseen]
  rfl

/-- A record whose source is content ends the resolution. -/
theorem selectStep_fetch (key : String) (d : Diagnostics) {e : RecordEntry} (hselect : selectSource r = some e)
    (htype : e.type ≠ "alias") : selectStep key r d = .ok (.fetch e) := by
  unfold selectStep
  simp only [hselect, if_pos htype]

/-- A record whose source is an alias goes on under its target. -/
theorem selectStep_alias (key : String) (d : Diagnostics) {e : RecordEntry} {label tld : String}
    (hselect : selectSource r = some e) (htype : e.type = "alias")
    (hparses : (aliasText e.value).bind parseAlias = some (label, tld)) :
    selectStep key r d = .ok (.restart s!"{label}.{tld}") := by
  unfold selectStep
  simp only [hselect, htype, ne_eq, not_true_eq_false, if_false, hparses]

/-- A step is a fetch of the entry that is selected, or a restart at the name of an alias. -/
theorem selectStep_cases {d : Diagnostics} {step : ResolveStep} (h : selectStep key r d = .ok step) :
    ∃ e, selectSource r = some e ∧ (e.type ≠ "alias" ∧ step = .fetch e ∨
      ∃ label tld, e.type = "alias" ∧ (aliasText e.value).bind parseAlias = some (label, tld) ∧
        step = .restart s!"{label}.{tld}") := by
  unfold selectStep at h
  cases hselect : selectSource r with
  | none =>
    rw [hselect] at h
    cases h
  | some e =>
    rw [hselect] at h
    simp only at h
    refine ⟨e, rfl, ?_⟩
    split_ifs at h with htype
    · exact Or.inl ⟨htype, (Except.ok.inj h).symm⟩
    · cases htarget : (aliasText e.value).bind parseAlias with
      | none =>
        rw [htarget] at h
        cases h
      | some target =>
        rw [htarget] at h
        exact Or.inr ⟨target.1, target.2, not_not.1 htype, rfl, (Except.ok.inj h).symm⟩

/-- Content ends the hops. -/
theorem resolveRest_fetch (ports : ResolverPorts) (now left hop : ℕ) (seen : List String) (key : String)
    (d : Diagnostics) {e : RecordEntry} (hselect : selectSource r = some e) (htype : e.type ≠ "alias")
    (cache : Option ResolutionCache) :
    ∃ d', outcome (resolveRest ports now left hop seen key (r, d)) cache =
      (.ok { entry := e, record := r, diagnostics := d' }, cache) := by
  unfold resolveRest
  simp only [selectStep_fetch key d hselect htype]
  exact ⟨_, rfl⟩

/-- An alias costs a hop. -/
theorem resolveRest_alias (ports : ResolverPorts) (now left hop : ℕ) (seen : List String) (key : String)
    (d : Diagnostics) {e : RecordEntry} {label tld : String} (hselect : selectSource r = some e)
    (htype : e.type = "alias") (hparses : (aliasText e.value).bind parseAlias = some (label, tld))
    (cache : Option ResolutionCache) :
    ∃ d', outcome (resolveRest ports now left hop seen key (r, d)) cache =
      outcome (resolveFrom ports now left (hop + 1) (key :: seen) s!"{label}.{tld}" d') cache := by
  unfold resolveRest
  simp only [selectStep_alias key d hselect htype hparses]
  exact ⟨_, rfl⟩

end Registry

end VayuWeb
