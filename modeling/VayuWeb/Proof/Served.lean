import VayuWeb.Spec.Proxy

/-!
# What a request is served

The sources of a record are tried in their order, and the first that gives a document ends the search.

* `serveSources_served`: a document that is served is of one source, those before it are the fallbacks,
  and the scanner finds nothing in it.
* `handleRequest_served`: only a GET or a HEAD for a name that resolves is served, and so much of it.
-/

namespace VayuWeb

variable {options : ProxyOptions} {content : ContentPort} {path : Utf16} {now : ℕ} {diagnostics said : Diagnostics}
  {candidates : List RecordEntry} {tried fallbacks : List String} {document : Document} {source cid : String}

/-- A document that may be served, after the sources that were `tried`: the scanner finds nothing in it, and step 13
gave it for the CID that one of the candidates names. -/
structure Servable (options : ProxyOptions) (content : ContentPort) (path : Utf16) (candidates : List RecordEntry)
    (tried : List String) (document : Document) (source cid : String) (fallbacks : List String) : Prop where
  clean : options.scan document.path document.bytes = []
  found : ∃ before candidate after value visit, candidates = before ++ candidate :: after ∧
    candidate.type = source ∧ fallbacks = tried ++ before.map (·.type) ∧ sourceValueOf candidate = some value ∧
    options.address source value = some cid ∧ (Visit.serveStep13 content cid path visit).1 = .ok document

/-- What a later source gives may be served after an earlier one. -/
theorem Servable.cons {candidate : RecordEntry}
    (h : Servable options content path candidates (tried ++ [candidate.type]) document source cid fallbacks) :
    Servable options content path (candidate :: candidates) tried document source cid fallbacks where
  clean := h.clean
  found := by
    obtain ⟨before, found, after, value, visit, rfl, htype, hfallbacks, hrest⟩ := h.found
    refine ⟨candidate :: before, found, after, value, visit, rfl, htype, ?_, hrest⟩
    rw [hfallbacks, List.append_assoc, List.map_cons, List.singleton_append]

/-- **What is served is one source's document, and it is clean.** -/
theorem serveSources_served {failure : ResolveErrorName} {visit : Visit}
    (h : (serveSources options content path now diagnostics candidates failure tried visit).1 =
      .served document source cid fallbacks said) :
    said = diagnostics ∧ Servable options content path candidates tried document source cid fallbacks := by
  -- by induction on the sources that are left, each of which is passed over or ends the search
  induction candidates generalizing failure tried visit with
  | nil =>
    rw [serveSources] at h
    cases h
  | cons candidate candidates ih =>
    rw [serveSources] at h
    split at h
    · obtain ⟨hsaid, hrest⟩ := ih h
      exact ⟨hsaid, hrest.cons⟩
    rename_i value hvalue
    simp only at h
    split at h
    · obtain ⟨hsaid, hrest⟩ := ih h
      exact ⟨hsaid, hrest.cons⟩
    split at h
    · obtain ⟨hsaid, hrest⟩ := ih h
      exact ⟨hsaid, hrest.cons⟩
    rename_i addressed haddress
    split at h
    · rename_i got after hgot
      split_ifs at h with hfindings
      rw [ProxyOutcome.served.injEq] at h
      obtain ⟨rfl, rfl, rfl, rfl, rfl⟩ := h
      refine ⟨rfl, not_not.1 hfindings, [], candidate, candidates, value, _, rfl, rfl, ?_, hvalue, haddress,
        congrArg Prod.fst hgot⟩
      rw [List.map_nil, List.append_nil]
    · split_ifs at h with hintegrity
      obtain ⟨hsaid, hrest⟩ := ih h
      exact ⟨hsaid, hrest.cons⟩

/-- **Only what is vouched for is served**: a request that is served is a GET or a HEAD for a name that resolves, and
gets a document of one source of its record, after the sources that failed, in which the scanner finds nothing. -/
theorem handleRequest_served {request : ProxyRequest} {ports : ResolverPorts} {cache : ResolutionCache}
    (h : (handleRequest options now request ports cache).1 = .served document source cid fallbacks said) :
    (request.method = "GET" ∨ request.method = "HEAD") ∧ ∃ host name outcome content,
      requestHost request = some host ∧ normaliseHost host = some name ∧
      ((resolveName ports now s!"{name.label}.{name.tld}").run.run (some cache)).1 = .ok outcome ∧
      options.content = some content ∧ said = outcome.diagnostics ∧
      Servable options content (pathOf request.target) (sourceCandidates outcome.record) [] document source cid
        fallbacks := by
  unfold handleRequest at h
  simp only at h
  -- the three refusals before any source is looked at: CONNECT, another method, no host
  split_ifs at h with hconnect hmethod
  split at h
  · cases h
  rename_i host hhost
  split at h
  · cases h
  rename_i name hname
  generalize hresolved : (resolveName ports now s!"{name.label}.{name.tld}").run.run (some cache) = resolved at h
  obtain ⟨outcome, after⟩ := resolved
  cases outcome with
  | error refused => cases h
  | ok outcome =>
    cases hcontent : options.content with
    | none =>
      rw [hcontent] at h
      cases h
    | some content =>
      rw [hcontent] at h
      obtain ⟨hsaid, hservable⟩ := serveSources_served h
      refine ⟨?_, host, name, outcome, content, hhost, hname, ?_, rfl, hsaid, hservable⟩
      · by_contra hneither
        exact hmethod (not_or.1 hneither)
      · rw [hresolved]

end VayuWeb
