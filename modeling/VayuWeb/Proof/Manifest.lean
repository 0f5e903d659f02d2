import VayuWeb.Spec.Proxy

/-!
# What is remembered of a manifest

A request reads the manifest of its CID at most once: first of all for a directory, and else after
the path itself was not found (`serveStep13_cache`). What is remembered is then the true manifest,
except where that one read failed for a reason that says nothing of the tree
(`remembered_manifest_iff`).
-/

namespace VayuWeb

namespace Visit

variable {content : ContentPort} {cid : String}

/-! ## What a request does to the cache -/

theorem fetchPath_cache (content : ContentPort) (cid : String) (purpose : Purpose) (path : Utf16) (visit : Visit) :
    (fetchPath content cid purpose path visit).2.cache = visit.cache := rfl

/-- A manifest that is remembered is not fetched. -/
theorem site_known {visit : Visit} {known : Option SiteManifest} (h : visit.cache.manifest cid = some known) :
    site content cid visit = (known, visit) := by
  unfold site
  rw [h]

/-- What the read of a manifest that is not known is answered with. -/
def read (content : ContentPort) (cid : String) (visit : Visit) : Option ContentResult :=
  if (visit.cache.manifest cid).isSome then none else some (content visit.calls cid manifestPath)

/-- The cache after a read. -/
def remembered (cid : String) (cache : ResolutionCache) : Option ContentResult → ResolutionCache
  | none => cache
  | some got => cache.rememberManifest cid (manifestOf got)

/-- What is remembered of a manifest. -/
theorem site_cache (visit : Visit) :
    (site content cid visit).2.cache = remembered cid visit.cache (read content cid visit) := by
  unfold site read
  cases visit.cache.manifest cid <;> rfl

/-- Once the manifest was asked for, it is there. -/
theorem site_set (content : ContentPort) (cid : String) (visit : Visit) :
    ∃ known, (site content cid visit).2.cache.manifest cid = some known := by
  cases h : visit.cache.manifest cid with
  | some known =>
    rw [site_known h]
    exact ⟨known, h⟩
  | none =>
    unfold site
    rw [h]
    exact ⟨_, OrdMap.get?_set_self _ _ _⟩

theorem indexCandidates_visit (visit : Visit) :
    (indexCandidates content cid visit).2 = (site content cid visit).2 := by
  unfold indexCandidates
  simp only
  split
  · rfl
  · split_ifs <;> rfl

/-- A manifest is fetched once. -/
theorem site_site (visit : Visit) : site content cid (site content cid visit).2 = site content cid visit := by
  cases h : visit.cache.manifest cid with
  | some known =>
    rw [site_known h]
    exact site_known h
  | none =>
    have hset : (site content cid visit).2.cache.manifest cid = some (site content cid visit).1 := by
      unfold site
      rw [h]
      exact OrdMap.get?_set_self _ _ _
    exact site_known hset

/-- An index is looked for after the manifest is asked for. -/
theorem serveIndex_site (base : Utf16) (visit : Visit) :
    serveIndex content cid base (site content cid visit).2 = serveIndex content cid base visit := by
  unfold serveIndex indexCandidates
  rw [site_site]

/-! ## What every step of a request keeps -/

section Keeps

variable {P : Visit → Prop}
  (hfetch : ∀ purpose path visit, purpose ≠ .manifest → P visit → P (fetchPath content cid purpose path visit).2)
  (hsite : ∀ visit, P visit → P (site content cid visit).2)

include hfetch

theorem tryIndexes_keeps (base : Utf16) (candidates : List Utf16) {visit : Visit} (h : P visit) :
    P (tryIndexes content cid base candidates visit).2 := by
  induction candidates generalizing visit with
  | nil => exact h
  | cons index rest ih =>
    have hnext := hfetch .page (base ++ index) visit (by decide) h
    unfold tryIndexes
    generalize fetchPath content cid .page (base ++ index) visit = step at hnext ⊢
    obtain ⟨answer, after⟩ := step
    cases answer with
    | ok bytes contentType => exact hnext
    | error error =>
      simp only
      split_ifs with hmissing
      · exact hnext
      · exact ih hnext

theorem tryDeclared_keeps (declared : Option Utf16) (status : ℕ) {visit : Visit} (h : P visit) :
    P (tryDeclared content cid declared status visit).2 := by
  cases declared with
  | none => exact h
  | some declared =>
    have hnext := hfetch .declared (Utf16.of "/" ++ declared) visit (by decide) h
    simp only [tryDeclared]
    generalize fetchPath content cid .declared (Utf16.of "/" ++ declared) visit = step at hnext ⊢
    obtain ⟨answer, after⟩ := step
    cases answer <;> exact hnext

include hsite

/-- Serving an index keeps what fetching a page keeps. -/
theorem serveIndex_keeps (base : Utf16) {visit : Visit} (h : P visit) :
    P (serveIndex content cid base visit).2 := by
  have hasked : P (indexCandidates content cid visit).2 := by
    rw [indexCandidates_visit]
    exact hsite visit h
  exact tryIndexes_keeps hfetch base _ hasked

/-- Serving what a site declares keeps what fetching a page keeps. -/
theorem serveDeclared_keeps {visit : Visit} (h : P visit) : P (serveDeclared content cid visit).2 := by
  have hasked := hsite visit h
  unfold serveDeclared
  generalize site content cid visit = asked at hasked ⊢
  obtain ⟨manifest, visit⟩ := asked
  cases manifest with
  | none => exact hasked
  | some manifest =>
    have htried := tryDeclared_keeps hfetch manifest.notFound 404 hasked
    simp only
    generalize tryDeclared content cid manifest.notFound 404 visit = tried at htried ⊢
    obtain ⟨document, visit⟩ := tried
    cases document with
    | some document => exact htried
    | none => exact tryDeclared_keeps hfetch manifest.fallback 200 htried

/-- Serving a path keeps what fetching a page keeps. -/
theorem serveStep13_keeps (path : Utf16) {visit : Visit} (h : P visit) :
    P (serveStep13 content cid path visit).2 := by
  have hindex : P (if isDirectory path then serveIndex content cid path visit else (none, visit)).2 := by
    split_ifs
    · exact serveIndex_keeps hfetch hsite path h
    · exact h
  unfold serveStep13
  -- each step of the lookup keeps the property, and the next one starts from what it left
  generalize (if isDirectory path then serveIndex content cid path visit else (none, visit)) = index
    at hindex ⊢
  obtain ⟨index, visit⟩ := index
  cases index with
  | some answer => exact hindex
  | none =>
    have hdirect := hfetch .page path visit (by decide) hindex
    simp only
    generalize fetchPath content cid .page path visit = direct at hdirect ⊢
    obtain ⟨answer, visit⟩ := direct
    cases answer with
    | ok bytes contentType => exact hdirect
    | error error =>
      simp only
      split_ifs with hmissing hdirectory
      · exact hdirect
      · have hdeclared := serveDeclared_keeps hfetch hsite hdirect
        generalize serveDeclared content cid visit = declared at hdeclared ⊢
        obtain ⟨document, visit⟩ := declared
        cases document <;> exact hdeclared
      · have hnested := serveIndex_keeps hfetch hsite (path ++ Utf16.of "/") hdirect
        generalize serveIndex content cid (path ++ Utf16.of "/") visit = nested at hnested ⊢
        obtain ⟨index, visit⟩ := nested
        cases index with
        | some answer => exact hnested
        | none =>
          have hdeclared := serveDeclared_keeps hfetch hsite hnested
          simp only
          generalize serveDeclared content cid visit = declared at hdeclared ⊢
          obtain ⟨document, visit⟩ := declared
          cases document <;> exact hdeclared

end Keeps

/-! ## The one read of a request -/

/-- Once the manifest is known, the cache stays as it is. -/
theorem stays_known {cache : ResolutionCache} {known : Option SiteManifest} (h : cache.manifest cid = some known)
    (visit : Visit) (hcache : visit.cache = cache) : (site content cid visit).2.cache = cache := by
  rw [← hcache] at h
  rw [site_known h]
  exact hcache

/-- What the one read of a request is answered with: for a directory it comes first, else after the
path was not found. -/
def manifestRead (content : ContentPort) (cid : String) (path : Utf16) (visit : Visit) : Option ContentResult :=
  if isDirectory path then read content cid visit
  else
    let (direct, visit) := fetchPath content cid .page path visit
    if direct = .error .pathNotFound then read content cid visit else none

/-- Serving a directory starts with the manifest. -/
theorem serveStep13_site {path : Utf16} (h : isDirectory path) (visit : Visit) :
    serveStep13 content cid path (site content cid visit).2 = serveStep13 content cid path visit := by
  unfold serveStep13
  rw [if_pos h, if_pos h, serveIndex_site]

/-- What serving a path remembers. -/
theorem serveStep13_cache (path : Utf16) (visit : Visit) :
    (serveStep13 content cid path visit).2.cache =
      remembered cid visit.cache (manifestRead content cid path visit) := by
  unfold manifestRead
  by_cases hdirectory : isDirectory path
  · obtain ⟨known, hknown⟩ := site_set content cid visit
    rw [if_pos hdirectory, ← site_cache, ← serveStep13_site hdirectory]
    exact serveStep13_keeps (P := fun v => v.cache = (site content cid visit).2.cache)
      (fun _ _ _ _ h => h) (stays_known hknown) path rfl
  · rw [if_neg hdirectory]
    unfold serveStep13
    rw [if_neg hdirectory]
    have hcache := fetchPath_cache content cid .page path visit
    simp only
    generalize fetchPath content cid .page path visit = direct at hcache ⊢
    obtain ⟨answer, after⟩ := direct
    rw [← hcache]
    cases answer with
    | ok bytes contentType => rfl
    | error error =>
      -- only a path that is not found goes on to the index and the manifest
      by_cases hmissing : error = .pathNotFound
      · subst hmissing
        obtain ⟨known, hknown⟩ := site_set content cid after
        have hnested : (serveIndex content cid (path ++ Utf16.of "/") after).2.cache =
            (site content cid after).2.cache := by
          rw [← serveIndex_site]
          exact serveIndex_keeps (P := fun v => v.cache = (site content cid after).2.cache)
            (fun _ _ _ _ h => h) (stays_known hknown) (path ++ Utf16.of "/") rfl
        simp only [ne_eq, not_true_eq_false, if_false, if_neg hdirectory, if_true]
        rw [← site_cache]
        generalize serveIndex content cid (path ++ Utf16.of "/") after = nested at hnested ⊢
        obtain ⟨index, visit⟩ := nested
        cases index with
        | some answer => exact hnested
        | none =>
          have hdeclared : (serveDeclared content cid visit).2.cache = (site content cid after).2.cache :=
            serveDeclared_keeps (P := fun v => v.cache = (site content cid after).2.cache)
              (fun _ _ _ _ h => h) (stays_known hknown) hnested
          simp only
          generalize serveDeclared content cid visit = declared at hdeclared ⊢
          obtain ⟨document, visit⟩ := declared
          cases document <;> exact hdeclared
      · have hother : ContentResult.error error ≠ .error .pathNotFound := by
          intro h
          cases h
          exact hmissing rfl
        simp only [ne_eq, hmissing, not_false_eq_true, if_true, if_neg hother, remembered]

/-- A call of a request finds the cache as it was at the start, or as it is at the end. -/
theorem serveStep13_calls (path : Utf16) (visit : Visit) :
    ∀ call ∈ (serveStep13 content cid path visit).2.calls,
      call ∈ visit.calls ∨ call.cache = visit.cache ∨ call.cache = (serveStep13 content cid path visit).2.cache := by
  -- the cache is that of the start until it knows the manifest
  let P (v : Visit) : Prop :=
    (∀ call ∈ v.calls, call ∈ visit.calls ∨ call.cache = visit.cache ∨ call.cache = v.cache) ∧
      (v.cache = visit.cache ∨ (v.cache.manifest cid).isSome)
  have hfetch : ∀ purpose path v, purpose ≠ .manifest → P v → P (fetchPath content cid purpose path v).2 := by
    intro purpose path v _ h
    refine ⟨fun call hcall => ?_, h.2⟩
    rcases List.mem_append.mp hcall with hcall | hcall
    · exact h.1 call hcall
    · rw [List.mem_singleton.mp hcall]
      exact Or.inr (Or.inr rfl)
  have hsite : ∀ v, P v → P (site content cid v).2 := by
    intro v h
    cases hv : v.cache.manifest cid with
    | some known =>
      rw [site_known hv]
      exact h
    | none =>
      have hstart : v.cache = visit.cache := by
        rcases h.2 with h | h
        · exact h
        · rw [hv] at h
          cases h
      obtain ⟨known, hknown⟩ := site_set content cid v
      refine ⟨fun call hcall => ?_, Or.inr (by rw [hknown]; rfl)⟩
      unfold site at hcall
      rw [hv] at hcall
      rcases List.mem_append.mp hcall with hcall | hcall
      · rcases h.1 call hcall with h | h | h
        · exact Or.inl h
        · exact Or.inr (Or.inl h)
        · exact Or.inr (Or.inl (h.trans hstart))
      · rw [List.mem_singleton.mp hcall]
        exact Or.inr (Or.inl hstart)
  have hP : P visit := ⟨fun call hcall => Or.inl hcall, Or.inl rfl⟩
  exact (serveStep13_keeps hfetch hsite path hP).1

end Visit

/-! ## Trees -/

/-- The files of the tree of each CID. -/
abbrev Trees := String → Utf16 → Option Bytes

/-- The manifest a tree holds, where it parses. -/
def trueManifest (trees : Trees) (cid : String) : Option SiteManifest := (trees cid manifestPath).bind parseManifest

/-- A path is answered with its bytes, or as not found where the tree lacks it, or with an error that
says nothing of the tree. -/
structure AnswersFrom (trees : Trees) (content : ContentPort) : Prop where
  bytes : ∀ {calls cid path bytes contentType},
    content calls cid path = .ok bytes contentType → trees cid path = some bytes
  missing : ∀ {calls cid path}, content calls cid path = .error .pathNotFound → trees cid path = none

/-- What is remembered of a manifest is what the tree has. -/
def RemembersTrue (trees : Trees) (cache : ResolutionCache) : Prop :=
  ∀ cid, cache.manifest cid = none ∨ cache.manifest cid = some (trueManifest trees cid)

namespace Visit

variable {content : ContentPort}

/-- So it is now, and was at every call. -/
def Faithful (trees : Trees) (visit : Visit) : Prop :=
  RemembersTrue trees visit.cache ∧ ∀ call ∈ visit.calls, RemembersTrue trees call.cache

/-- The read of the request fails, and the tree has a manifest. -/
def Misled (trees : Trees) (content : ContentPort) (cid : String) (path : Utf16) (visit : Visit) : Prop :=
  (∃ error, manifestRead content cid path visit = some (.error error)) ∧ trueManifest trees cid ≠ none

/-- Request after request. -/
def serveAll (content : ContentPort) (requests : List (String × Utf16)) (visit : Visit) : Visit :=
  requests.foldl (fun visit request => (serveStep13 content request.1 request.2 visit).2) visit

/-- Serving one more request. -/
theorem serveAll_concat (requests : List (String × Utf16)) (cid : String) (path : Utf16) (visit : Visit) :
    serveAll content (requests ++ [(cid, path)]) visit =
      (serveStep13 content cid path (serveAll content requests visit)).2 := by
  unfold serveAll
  rw [List.foldl_append]
  rfl

/-- What was read of a manifest is what the content answered. -/
theorem read_answer {cid : String} {path : Utf16} {visit : Visit} {got : ContentResult}
    (h : manifestRead content cid path visit = some got) : ∃ calls, got = content calls cid manifestPath := by
  have hread : ∀ v : Visit, read content cid v = some got → ∃ calls, got = content calls cid manifestPath := by
    intro v hv
    unfold read at hv
    split_ifs at hv
    exact ⟨v.calls, (Option.some.inj hv).symm⟩
  unfold manifestRead at h
  split_ifs at h with hdirectory
  · exact hread _ h
  · simp only at h
    split_ifs at h
    exact hread _ h

section Runs

variable {trees : Trees}

/-- A read that is not misled finds the true manifest. -/
theorem manifestOf_read (hport : AnswersFrom trees content) {cid : String} {path : Utf16} {visit : Visit}
    (hfine : ¬ Misled trees content cid path visit) {got : ContentResult}
    (h : manifestRead content cid path visit = some got) : manifestOf got = trueManifest trees cid := by
  cases got with
  | ok bytes contentType =>
    obtain ⟨calls, hcalls⟩ := read_answer h
    unfold trueManifest
    rw [hport.bytes hcalls.symm]
    rfl
  | error error =>
    by_contra hne
    apply hfine
    exact ⟨⟨error, h⟩, fun hnone => hne hnone.symm⟩

/-- What a request that is not misled does to the cache. -/
theorem memo_step (hport : AnswersFrom trees content) {cid : String} {path : Utf16} {visit : Visit}
    (hmemo : visit.cache.manifests.MemoOf (trueManifest trees)) (hfine : ¬ Misled trees content cid path visit) :
    (serveStep13 content cid path visit).2.cache.manifests.MemoOf (trueManifest trees) := by
  rw [serveStep13_cache]
  cases h : manifestRead content cid path visit with
  | none => exact hmemo
  | some got =>
    simp only [remembered, manifestOf_read hport hfine h]
    exact hmemo.remember cid _

/-- What a request that is misled remembers: that there is no manifest. -/
theorem misled_step {cid : String} {path : Utf16} {visit : Visit} (h : Misled trees content cid path visit) :
    ¬ RemembersTrue trees (serveStep13 content cid path visit).2.cache := by
  obtain ⟨⟨error, hread⟩, htrue⟩ := h
  intro hremembers
  have hset : (serveStep13 content cid path visit).2.cache.manifest cid = some none := by
    rw [serveStep13_cache, hread]
    exact OrdMap.get?_set_self _ _ _
  rcases hremembers cid with h | h
  · rw [h] at hset
    cases hset
  · rw [h] at hset
    exact htrue (Option.some.inj hset)

/-- A run in which no request is misled. -/
theorem memo_run (hport : AnswersFrom trees content) {start : Visit} (hstart : start.calls = [])
    (hmemo : start.cache.manifests.MemoOf (trueManifest trees)) (requests : List (String × Utf16))
    (hfine : ∀ served cid path, served ++ [(cid, path)] <+: requests →
      ¬ Misled trees content cid path (serveAll content served start)) :
    (serveAll content requests start).cache.manifests.MemoOf (trueManifest trees) ∧
      ∀ call ∈ (serveAll content requests start).calls, RemembersTrue trees call.cache := by
  induction requests using List.reverseRecOn with
  | nil =>
    refine ⟨hmemo, fun call hcall => ?_⟩
    rw [show (serveAll content [] start).calls = [] from hstart] at hcall
    cases hcall
  | append_singleton requests request ih =>
    obtain ⟨cid, path⟩ := request
    obtain ⟨hbefore, hcalls⟩ := ih fun served cid path h => hfine served cid path (h.trans (List.prefix_append _ _))
    have hafter := memo_step hport hbefore (hfine requests cid path List.prefix_rfl)
    rw [serveAll_concat]
    refine ⟨hafter, fun call hcall => ?_⟩
    rcases serveStep13_calls path _ call hcall with h | h | h
    · exact hcalls call h
    · rw [h]
      exact hbefore.get?
    · rw [h]
      exact hafter.get?

end Runs

end Visit

open Visit in
/-- **Remembered manifests.** In every run over a fresh cache, what is remembered is at all times what
the trees have, exactly where no read of a manifest that a tree has fails. -/
theorem remembered_manifest_iff (trees : Trees) (content : ContentPort) (hport : AnswersFrom trees content)
    (cache : ResolutionCache) (hfresh : cache.manifests = []) (requests : List (String × Utf16)) :
    (∀ served, served <+: requests → (serveAll content served ⟨cache, []⟩).Faithful trees) ↔
      ∀ served cid path, served ++ [(cid, path)] <+: requests →
        ¬ Misled trees content cid path (serveAll content served ⟨cache, []⟩) := by
  constructor
  · intro h served cid path hprefix hmisled
    have hafter := (h _ hprefix).1
    rw [serveAll_concat] at hafter
    exact misled_step hmisled hafter
  · intro h served hserved
    have hmemo : (⟨cache, []⟩ : Visit).cache.manifests.MemoOf (trueManifest trees) := by
      intro e he
      rw [hfresh] at he
      cases he
    obtain ⟨hend, hcalls⟩ := memo_run hport rfl hmemo served fun before cid path hbefore =>
      h before cid path (hbefore.trans hserved)
    exact ⟨hend.get?, hcalls⟩

/-! ## A manifest that cannot be had once -/

namespace OneFailure

/-- The smallest manifest that parses. -/
def manifestBytes : Bytes := Bytes.utf8Encode "\x7b\"version\":1\x7d"

/-- The tree of every CID has a manifest and nothing else. -/
def trees : Trees := fun _ path => if path = manifestPath then some manifestBytes else none

/-- A content layer that no one serves the manifest to. -/
def content : ContentPort := fun _ _ path => .error (if path = manifestPath then .contentUnavailable else .pathNotFound)

/-- One that has every file. -/
def available : ContentPort := fun _ _ path =>
  if path = manifestPath then .ok manifestBytes "application/json" else .error .pathNotFound

theorem parse_manifest :
    parseManifest manifestBytes = some { index := none, fallback := none, notFound := none } := by decide +kernel

theorem content_answers : AnswersFrom trees content where
  bytes h := by cases h
  missing {calls cid path} h := by
    unfold trees
    split_ifs with hpath
    · unfold content at h
      rw [if_pos hpath] at h
      cases h
    · rfl

theorem available_answers : AnswersFrom trees available where
  bytes {calls cid path bytes contentType} h := by
    unfold available at h
    unfold trees
    split_ifs at h ⊢ with hpath
    cases h
    rfl
  missing {calls cid path} h := by
    unfold available at h
    unfold trees
    split_ifs at h ⊢ with hpath
    rfl

end OneFailure

open OneFailure Visit in
theorem remembered_manifest_available :
    (∀ served, served <+: [("a", Utf16.of "/")] →
        (serveAll available served ⟨.fresh, []⟩).Faithful trees) ↔
      ∀ served cid path, served ++ [(cid, path)] <+: [("a", Utf16.of "/")] →
        ¬ Misled trees available cid path (serveAll available served ⟨.fresh, []⟩) :=
  remembered_manifest_iff trees available available_answers .fresh rfl [("a", Utf16.of "/")]

open OneFailure Visit in
/-- The request finds no manifest, and it is remembered that there is none. -/
theorem remembered_manifest_lost :
    ¬ ∀ (trees : Trees) (content : ContentPort), AnswersFrom trees content →
      ∀ cache : ResolutionCache, cache.manifests = [] → ∀ requests : List (String × Utf16),
        RemembersTrue trees (serveAll content requests ⟨cache, []⟩).cache := by
  intro h
  have hmisled : Misled trees content "a" (Utf16.of "/") ⟨.fresh, []⟩ := by
    refine ⟨⟨.contentUnavailable, by decide⟩, ?_⟩
    unfold trueManifest OneFailure.trees
    rw [if_pos rfl, Option.bind_some, parse_manifest]
    simp
  exact misled_step hmisled (h trees content content_answers .fresh rfl [("a", Utf16.of "/")])

end VayuWeb
