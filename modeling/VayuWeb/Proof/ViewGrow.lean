import VayuWeb.Proof.View

/-!
# What a record does to the chains of a view

* `chain_put_successor`, `chain_put_first`, `chain_put_later`, `chain_put_other`: the chains after a
  record was put.
* `unforked_of_run`: no run holds a fork above a registration.
* `entries_sorted`: a view lists its records by increasing hashes.
-/

namespace VayuWeb.Client

open Bytes
open Lineage (Complete Follows)

namespace View

variable {C : Crypto} {view : View} {bytes : Bytes} {p : ParsedRecord} {now windowCount : ℕ}
  {log log' : List Acceptance}
  {label tld : String}

/-- A record that is not at the bottom names a record that is held. -/
theorem exists_parent (h : view.Holds C log) {d : Candidate} (hd : d ∈ view.members C label tld) (hseq : d.seq ≠ 0) :
    ∃ e ∈ view.files, d.prevHash = e.hash := by
  obtain ⟨e, he, r, hr, -, -, rfl⟩ := hd
  obtain ⟨a, ha, hbytes⟩ := h.accepted e he
  obtain ⟨p, hp, hsettled⟩ := h.settled a ha
  rw [hbytes, hr, Except.ok.injEq] at hp
  subst hp
  rcases hsettled with ⟨hok, -⟩ | ⟨prev, entry, record, -, hok, hentry, hof, -⟩
  · exact absurd hok.seq hseq
  · have hhash : prev.hash = entry.hash := by rw [hof.fields]
    exact ⟨entry, hentry, (prevHash_of_matches hr hok.prevHash).trans hhash⟩

/-- A new file is one candidate more. -/
theorem members_put (hp : parseBytes bytes = .ok p) {view' : View}
    (hfiles : view'.files = view.files ++ [{ hash := recordHashFromBytes C bytes, bytes := bytes }]) :
    view'.members C p.label p.tld =
      insert (candidateOf C { hash := recordHashFromBytes C bytes, bytes := bytes } p)
        (view.members C p.label p.tld) := by
  ext c
  rw [Set.mem_insert_iff]
  constructor
  · intro ⟨e, he, r, hr, hlabel, htld, hc⟩
    rw [hfiles] at he
    rcases List.mem_append.1 he with he | he
    · exact Or.inr ⟨e, he, r, hr, hlabel, htld, hc⟩
    · rw [List.mem_singleton.1 he] at hr hc
      rw [hp, Except.ok.injEq] at hr
      exact Or.inl (hr ▸ hc)
  · intro hc
    rcases hc with hc | ⟨e, he, r, hr, hlabel, htld, hc⟩
    · refine ⟨_, ?_, p, hp, rfl, rfl, hc⟩
      rw [hfiles]
      exact List.mem_append_right _ (List.mem_singleton_self _)
    · refine ⟨e, ?_, r, hr, hlabel, htld, hc⟩
      rw [hfiles]
      exact List.mem_append_left _ he

/-- No record names the hash of a record that is not held. -/
theorem not_follows_new (h : view.Holds C log) (hnew : ∀ e ∈ view.files, e.hash ≠ recordHashFromBytes C bytes)
    {chain : List Candidate} {d : Candidate}
    (hd : d ∈ insert (candidateOf C { hash := recordHashFromBytes C bytes, bytes := bytes } p)
      (view.members C p.label p.tld)) (hslot : p.seq = chain.length) :
    ¬ Follows candidateKind (candidateOf C { hash := recordHashFromBytes C bytes, bytes := bytes } p :: chain) d := by
  intro hfollows
  obtain ⟨hseq, hparent⟩ := Lineage.follows_cons.1 hfollows
  rcases Set.mem_insert_iff.1 hd with rfl | hd
  · have hown : p.seq = chain.length + 1 := hseq
    omega
  · have hpos : d.seq ≠ 0 := by
      have hd' : d.seq = chain.length + 1 := hseq
      omega
    obtain ⟨e, he, heq⟩ := exists_parent h hd hpos
    exact hnew e he (heq.symm.trans hparent)

/-- A candidate of the chain is one of its record. -/
theorem candidate_eq (h : view.Holds C log) {d : Candidate} (hd : d ∈ view.chain C label tld)
    (hp : parseBytes d.entry.bytes = .ok p) : d = candidateOf C d.entry p ∧ p.label = label ∧ p.tld = tld := by
  obtain ⟨-, -, q, hq, hlabel, htld, heq⟩ := chain_mem h hd
  rw [hp, Except.ok.injEq] at hq
  subst hq
  exact ⟨heq, hlabel, htld⟩

/-! ## What a record that is taken in does to the chains -/

/-- A name that the record is not of keeps its chain. -/
theorem chain_put_other (h : view.Holds C log) (hstep : (view.put C bytes).Holds C log') (hp : parseBytes bytes = .ok p)
    (hfiles : (view.put C bytes).files = view.files ++ [{ hash := recordHashFromBytes C bytes, bytes := bytes }])
    (hname : ¬ (p.label = label ∧ p.tld = tld)) : (view.put C bytes).chain C label tld = view.chain C label tld := by
  have hmembers : (view.put C bytes).members C label tld = view.members C label tld := by
    ext c
    constructor
    · intro ⟨e, he, r, hr, hlabel, htld, hc⟩
      rw [hfiles] at he
      rcases List.mem_append.1 he with he | he
      · exact ⟨e, he, r, hr, hlabel, htld, hc⟩
      · rw [List.mem_singleton.1 he, hp, Except.ok.injEq] at hr
        exact absurd ⟨hr ▸ hlabel, hr ▸ htld⟩ hname
    · intro ⟨e, he, r, hr, hlabel, htld, hc⟩
      exact ⟨e, files_put_subset C view bytes he, r, hr, hlabel, htld, hc⟩
  have hcomplete : Complete candidateKind ((view.put C bytes).members C label tld)
      ((view.put C bytes).chain C label tld) :=
    chain_complete hstep
  have hcomplete' : Complete candidateKind (view.members C label tld) (view.chain C label tld) := chain_complete h
  rw [hmembers] at hcomplete
  exact hcomplete.unique (members_injOn h) hcomplete'

/-- An accepted successor follows the chain. -/
theorem follows_of_accept (h : view.Holds C log) (hp : parseBytes bytes = .ok p) (hop : p.op ≠ "REGISTER")
    (haccept : view.acceptVerdict C bytes now windowCount = .ok .accept) (e : Entry) :
    Follows candidateKind (view.chain C p.label p.tld) (candidateOf C e p) := by
  obtain ⟨tip, htip, hverify, -⟩ := acceptVerdict_successor hp hop haccept
  obtain ⟨prev, heq, hok⟩ := successor_of_accept hp hop hverify
  rw [Option.some.injEq] at heq
  subst heq
  obtain ⟨candidate, below, record, hchain, hentry, hof, -, -⟩ := chain_of_chainTip h htip
  obtain ⟨hfile, hhash, -⟩ := chain_mem h (mem_of_chain hchain)
  have hslot : p.seq = below.length + 1 := by
    obtain ⟨hseq, -⟩ := chain_below h (suffix_of_chain hchain) (hentry ▸ hof.parsed)
    have hle := (parsed_of_parseBytes hof.parsed).2.seq_le
    have hmax : maxSeq + 1 < 2 ^ 64 := by decide
    have hprevSeq : tip.prev.seq = record.seq := by rw [hof.fields]
    rw [hok.seq, hprevSeq, add, Nat.mod_eq_of_lt (by omega), hseq]
  have hlink : p.prevHash = candidate.hash := by
    have hprevHash : tip.prev.hash = tip.entry.hash := by rw [hof.fields]
    rw [prevHash_of_matches hp hok.prevHash, hprevHash, hhash, hentry]
  rw [hchain]
  exact Lineage.follows_cons.2 ⟨hslot, hlink⟩

/-- A successor that is taken in is the next of its chain. -/
theorem chain_put_successor (h : view.Holds C log) (hstep : (view.put C bytes).Holds C log')
    (hp : parseBytes bytes = .ok p)
    (hop : p.op ≠ "REGISTER") (haccept : view.acceptVerdict C bytes now windowCount = .ok .accept)
    (hnew : ∀ e ∈ view.files, e.hash ≠ recordHashFromBytes C bytes)
    (hfiles : (view.put C bytes).files = view.files ++ [{ hash := recordHashFromBytes C bytes, bytes := bytes }]) :
    (view.put C bytes).chain C p.label p.tld =
      candidateOf C { hash := recordHashFromBytes C bytes, bytes := bytes } p :: view.chain C p.label p.tld := by
  have hcomplete : Complete candidateKind (view.members C p.label p.tld) (view.chain C p.label p.tld) :=
    chain_complete h
  have hcomplete' : Complete candidateKind ((view.put C bytes).members C p.label p.tld)
      ((view.put C bytes).chain C p.label p.tld) := chain_complete hstep
  have hfollows := follows_of_accept h hp hop haccept { hash := recordHashFromBytes C bytes, bytes := bytes }
  have hextend := hcomplete.extend (List.le_refl _) hfollows fun d hd => not_follows_new h hnew hd hfollows.1
  rw [← members_put hp hfiles] at hextend
  exact hcomplete'.unique (members_injOn hstep) hextend

/-- A registration of a name without a history opens its chain. -/
theorem chain_put_first (h : view.Holds C log) (hstep : (view.put C bytes).Holds C log') (hp : parseBytes bytes = .ok p)
    (hseq : p.seq = 0) (hchain : view.chain C p.label p.tld = [])
    (hnew : ∀ e ∈ view.files, e.hash ≠ recordHashFromBytes C bytes)
    (hfiles : (view.put C bytes).files = view.files ++ [{ hash := recordHashFromBytes C bytes, bytes := bytes }]) :
    (view.put C bytes).chain C p.label p.tld =
      [candidateOf C { hash := recordHashFromBytes C bytes, bytes := bytes } p] := by
  have hcomplete : Complete candidateKind (view.members C p.label p.tld) (view.chain C p.label p.tld) :=
    chain_complete h
  have hcomplete' : Complete candidateKind ((view.put C bytes).members C p.label p.tld)
      ((view.put C bytes).chain C p.label p.tld) := chain_complete hstep
  have hreopen : Complete candidateKind (insert
      (candidateOf C { hash := recordHashFromBytes C bytes, bytes := bytes } p) (view.members C p.label p.tld))
      [candidateOf C { hash := recordHashFromBytes C bytes, bytes := bytes } p] := by
    apply Complete.reopen hseq
    · intro d hd hslot
      rcases Set.mem_insert_iff.1 hd with rfl | hd
      · exact List.le_refl _
      · rw [hchain] at hcomplete
        exact absurd (Lineage.follows_nil.2 hslot) (hcomplete.last d hd)
    · intro d hd
      exact not_follows_new h hnew hd hseq
  rw [← members_put hp hfiles] at hreopen
  exact hcomplete'.unique (members_injOn hstep) hreopen

/-- A registration of a larger hash than one that is held changes nothing. -/
theorem chain_put_later (h : view.Holds C log) (hstep : (view.put C bytes).Holds C log') (hp : parseBytes bytes = .ok p)
    (hseq : p.seq = 0) {d : Candidate} (hd : d ∈ view.members C p.label p.tld) (hslot : d.seq = 0)
    (hle : d.hash ≤ recordHashFromBytes C bytes)
    (hfiles : (view.put C bytes).files = view.files ++ [{ hash := recordHashFromBytes C bytes, bytes := bytes }]) :
    (view.put C bytes).chain C p.label p.tld = view.chain C p.label p.tld := by
  have hcomplete : Complete candidateKind (view.members C p.label p.tld) (view.chain C p.label p.tld) :=
    chain_complete h
  have hcomplete' : Complete candidateKind ((view.put C bytes).members C p.label p.tld)
      ((view.put C bytes).chain C p.label p.tld) := chain_complete hstep
  have hkeep := hcomplete.keep (b := candidateOf C { hash := recordHashFromBytes C bytes, bytes := bytes } p) hseq hd
    hslot hle
  rw [← members_put hp hfiles] at hkeep
  exact hcomplete'.unique (members_injOn hstep) hkeep

/-! ## What a run never holds -/

/-- What a held successor was accepted after: the record that it names, one slot below. -/
theorem successor_parent (h : view.Holds C log) {a : Acceptance} (ha : a ∈ log) (hp : parseBytes a.bytes = .ok p)
    (hop : p.op ≠ "REGISTER") : ∃ prev parent record, a.previous = some prev ∧ parent ∈ view.files ∧
      view.PrevOf parent record prev ∧ p.prevHash = parent.hash ∧ p.seq = record.seq + 1 ∧ record.label = p.label ∧
        record.tld = p.tld := by
  obtain ⟨p', hp', hsettled⟩ := h.settled a ha
  rw [hp, Except.ok.injEq] at hp'
  subst hp'
  rcases hsettled with ⟨hok, -⟩ | ⟨prev, parent, record, hprev, hok, hparent, hof, hlabel, htld⟩
  · exact absurd hok.op hop
  · have hhash : prev.hash = parent.hash := by rw [hof.fields]
    have hseq : prev.seq = record.seq := by rw [hof.fields]
    have hle := (parsed_of_parseBytes hof.parsed).2.seq_le
    have hmax : maxSeq + 1 < 2 ^ 64 := by decide
    refine ⟨prev, parent, record, hprev, hparent, hof, ?_, ?_, hlabel, htld⟩
    · rw [prevHash_of_matches hp hok.prevHash, hhash]
    · rw [hok.seq, hseq, add, Nat.mod_eq_of_lt (by omega)]

/-- Two records of a name that follow the same record are one. -/
def Unforked (view : View) : Prop :=
  ∀ e ∈ view.files, ∀ e' ∈ view.files, ∀ r r', parseBytes e.bytes = .ok r → parseBytes e'.bytes = .ok r' →
    r.op ≠ "REGISTER" → r'.op ≠ "REGISTER" → r.label = r'.label → r.tld = r'.tld → r.prevHash = r'.prevHash → e = e'

/-- An accepted successor is the first to follow the tip. -/
theorem first_to_follow (h : view.Holds C log) (hp : parseBytes bytes = .ok p) (hop : p.op ≠ "REGISTER")
    (haccept : view.acceptVerdict C bytes now windowCount = .ok .accept) {e : Entry} {r : ParsedRecord}
    (he : e ∈ view.files) (hr : parseBytes e.bytes = .ok r) (hrop : r.op ≠ "REGISTER") (hlabel : p.label = r.label)
    (htld : p.tld = r.tld) : p.prevHash ≠ r.prevHash := by
  intro heq
  have hcomplete : Complete candidateKind (view.members C p.label p.tld) (view.chain C p.label p.tld) :=
    chain_complete h
  have hfollows := follows_of_accept h hp hop haccept e
  obtain ⟨a, ha, hbytes⟩ := h.accepted e he
  obtain ⟨_, parent, record, -, hparent, hof, hprev, hseq, -, -⟩ := successor_parent h ha (hbytes ▸ hr) hrop
  cases hchain : view.chain C p.label p.tld with
  | nil =>
    rw [hchain] at hfollows
    have hzero : p.seq = 0 := Lineage.follows_nil.1 hfollows
    obtain ⟨tip, htip, -⟩ := acceptVerdict_successor hp hop haccept
    rw [chainTip_nil hchain] at htip
    simp at htip
  | cons tip below =>
    rw [hchain] at hfollows hcomplete
    obtain ⟨hslot, hlink⟩ := Lineage.follows_cons.1 hfollows
    obtain ⟨hfile, hhash, q, hq, -, -, htip⟩ := chain_mem h (mem_of_chain hchain)
    -- the record that both name is the tip
    have hsame : parent = tip.entry := by
      apply h.inj _ hparent _ hfile
      have hlink' : p.prevHash = tip.hash := hlink
      rw [← hprev, ← heq, hlink', hhash]
    have hslots : record.seq = below.length := by
      have hparsed := hof.parsed
      rw [hsame, hq, Except.ok.injEq] at hparsed
      have htipSlot : tip.seq = below.length := hcomplete.lineage.head_follows.1
      rw [← hparsed, ← htipSlot, htip]
      rfl
    refine hcomplete.last (candidateOf C e r) ⟨e, he, r, hr, hlabel.symm, htld.symm, rfl⟩ ?_
    refine Lineage.follows_cons.2 ⟨?_, ?_⟩
    · have hown : (candidateOf C e r).seq = r.seq := rfl
      rw [← hslots, ← hseq]
      exact hown
    · have hlink' : p.prevHash = tip.hash := hlink
      have hown : (candidateOf C e r).prevHash = r.prevHash := rfl
      exact (hown.trans heq.symm).trans hlink'

/-- **No run holds a fork above a registration.** -/
theorem unforked_of_run (h : Run C view log) : Unforked view := by
  induction h with
  | empty =>
    intro e he
    exact absurd he List.not_mem_nil
  | @step view log bytes now windowCount hrun haccept ih =>
    have hholds := holds_of_run hrun
    rcases put_cases C view bytes with ⟨-, heq⟩ | ⟨-, hfiles⟩
    · rw [heq]
      exact ih
    · intro e he e' he' r r' hr hr' hop hop' hlabel htld hprev
      rw [hfiles] at he he'
      rcases List.mem_append.1 he with he | he
      · rcases List.mem_append.1 he' with he' | he'
        · exact ih e he e' he' r r' hr hr' hop hop' hlabel htld hprev
        · rw [List.mem_singleton.1 he'] at hr'
          exact absurd hprev.symm (first_to_follow hholds hr' hop' haccept he hr hop hlabel.symm htld.symm)
      · rcases List.mem_append.1 he' with he' | he'
        · rw [List.mem_singleton.1 he] at hr
          exact absurd hprev (first_to_follow hholds hr hop haccept he' hr' hop' hlabel htld)
        · rw [List.mem_singleton.1 he, List.mem_singleton.1 he']

/-- A run holds no file twice. -/
theorem hashes_nodup (h : Run C view log) : (view.files.map Entry.hash).Nodup := by
  induction h with
  | empty => exact List.nodup_nil
  | @step view log bytes now windowCount hrun haccept ih =>
    rcases put_cases C view bytes with ⟨-, heq⟩ | ⟨hnew, hfiles⟩
    · rw [heq]
      exact ih
    · rw [hfiles, List.map_append, List.map_singleton, List.nodup_append]
      refine ⟨ih, List.nodup_singleton _, ?_⟩
      intro hash hhash other hother heq
      obtain ⟨e, he, rfl⟩ := List.mem_map.1 hhash
      rw [List.mem_singleton.1 hother] at heq
      exact hnew e he heq

/-- The hashes of a bundle's records increase. -/
theorem entries_sorted (h : Run C view log) : view.entries.Pairwise fun a b => a.hash < b.hash := by
  have htotal : Std.Total fun a b : Entry => a.hash ≤ b.hash := ⟨fun a b => Std.le_total⟩
  have htrans : IsTrans Entry fun a b => a.hash ≤ b.hash := ⟨fun a b c => Std.le_trans⟩
  have hsorted : view.entries.Pairwise fun a b => a.hash ≤ b.hash := List.pairwise_insertionSort _ _
  have hnodup : (view.entries.map Entry.hash).Nodup := by
    have hperm : view.entries.Perm (view.files.filter fun entry => (peek entry.bytes).toOption.isSome) :=
      List.perm_insertionSort _ _
    rw [(hperm.map _).nodup_iff]
    exact (hashes_nodup h).sublist (List.filter_sublist.map _)
  have hne : view.entries.Pairwise fun a b => a.hash ≠ b.hash := List.pairwise_map.1 hnodup
  refine (hsorted.and hne).imp ?_
  intro a b ⟨hle, hne⟩
  exact Std.lt_of_le_of_ne hle hne

/-! ## In the order of the hashes -/

/-- Every file of a view in step is an entry. -/
theorem mem_entries (h : view.Holds C log) {e : Entry} : e ∈ view.entries ↔ e ∈ view.files := by
  rw [entries, List.mem_insertionSort, List.mem_filter]
  refine and_iff_left_of_imp fun he => ?_
  obtain ⟨p, hp⟩ := h.parses he
  rw [peek_eq hp]
  rfl

end View

end VayuWeb.Client
