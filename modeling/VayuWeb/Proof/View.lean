import VayuWeb.Proof.ViewAccept
import VayuWeb.Proof.ViewChain

/-!
# Runs of the client's view

* `Run`: a view built from an empty directory by accepting records and putting them there.
* `holds_of_run`: in every run an accepted record's predecessor stands in the view unchanged.
* `chain_complete`: the chain of a name is the lineage of the records held for it.
* `chainTip_eq`: what `chain_tip` answers.
-/

namespace VayuWeb.Client

open Bytes
open Lineage (Complete Follows)

/-! ## Runs -/

/-- A record that was accepted, and the predecessor it was verified against. -/
structure Acceptance where
  bytes : Bytes
  previous : Option PrevView
  now : ℕ
  windowCount : ℕ

namespace View

variable {C : Crypto}

/-- The predecessor that `accept_verdict` hands to `verify`. -/
def predecessor (C : Crypto) (view : View) (bytes : Bytes) : Option PrevView :=
  match peek bytes with
  | .error _ => none
  | .ok peeked =>
    if peeked.op = "REGISTER" then none
    else
      match view.chainTip C peeked.label peeked.tld with
      | .ok (some tip) => some tip.prev
      | _ => none

/-- A view built from an empty directory by accepting records and putting what was accepted, and
the acceptances, newest first. Any clock may come after any other. -/
inductive Run (C : Crypto) : View → List Acceptance → Prop
  | empty : Run C .empty []
  | step {view : View} {log : List Acceptance} {bytes : Bytes} {now windowCount : ℕ} (run : Run C view log)
      (accept : view.acceptVerdict C bytes now windowCount = .ok .accept) :
      Run C (view.put C bytes)
        ({ bytes := bytes, previous := view.predecessor C bytes, now := now, windowCount := windowCount } :: log)

variable {view : View} {bytes : Bytes} {p : ParsedRecord} {now windowCount : ℕ}

/-- What an accepted REGISTER was verified against. -/
theorem acceptVerdict_register (hp : parseBytes bytes = .ok p) (hop : p.op = "REGISTER")
    (h : view.acceptVerdict C bytes now windowCount = .ok .accept) :
    verify C bytes none now windowCount = .accept ∧ view.predecessor C bytes = none := by
  have hpeek := peek_eq hp
  constructor
  · unfold acceptVerdict at h
    rw [hpeek, Except.ok_bind, if_pos hop] at h
    obtain ⟨tip, htip, h⟩ := Except.bind_eq_ok.1 h
    cases tip with
    | none => exact Except.ok.inj h
    | some tip =>
      simp only at h
      split_ifs at h
      · simp at h
      · exact Except.ok.inj h
  · unfold predecessor
    simp only [hpeek, hop, if_true]

/-- What an accepted successor was verified against. -/
theorem acceptVerdict_successor (hp : parseBytes bytes = .ok p) (hop : p.op ≠ "REGISTER")
    (h : view.acceptVerdict C bytes now windowCount = .ok .accept) :
    ∃ tip, view.chainTip C p.label p.tld = .ok (some tip) ∧ verify C bytes (some tip.prev) now windowCount = .accept ∧
      view.predecessor C bytes = some tip.prev := by
  have hpeek := peek_eq hp
  unfold acceptVerdict at h
  rw [hpeek, Except.ok_bind, if_neg hop] at h
  obtain ⟨tip, htip, h⟩ := Except.bind_eq_ok.1 h
  cases tip with
  | none => simp at h
  | some tip =>
    refine ⟨tip, htip, Except.ok.inj h, ?_⟩
    unfold predecessor
    simp only [hpeek, if_neg hop, htip]

theorem acceptVerdict_parses (h : view.acceptVerdict C bytes now windowCount = .ok .accept) :
    ∃ p, parseBytes bytes = .ok p := by
  unfold acceptVerdict at h
  obtain ⟨peeked, -, h⟩ := Except.bind_eq_ok.1 h
  split_ifs at h
  · obtain ⟨tip, -, h⟩ := Except.bind_eq_ok.1 h
    cases tip with
    | none => exact parses_of_accept (Except.ok.inj h)
    | some tip =>
      simp only at h
      split_ifs at h
      · simp at h
      · exact parses_of_accept (Except.ok.inj h)
  · obtain ⟨tip, -, h⟩ := Except.bind_eq_ok.1 h
    cases tip with
    | none => simp at h
    | some tip => exact parses_of_accept (Except.ok.inj h)

/-! ## What a view holds -/

/-- What the view knows of a record it holds: its fields, and who signed it. -/
structure PrevOf (view : View) (entry : Entry) (record : ParsedRecord) (prev : PrevView) : Prop where
  parsed : parseBytes entry.bytes = .ok record
  fields : prev =
    { opText := record.op, seq := record.seq, notBefore := record.notBefore, notAfter := record.notAfter,
      ownerKey := record.ownerKey, signerKey := prev.signerKey, suite := record.suite, hash := entry.hash,
      revoked := record.op = "REVOKE" }
  owner : record.op ≠ "TRANSFER" → prev.signerKey = record.ownerKey
  transferor : record.op = "TRANSFER" → ∃ below ∈ view.files, ∃ r, parseBytes below.bytes = .ok r ∧
    record.prevHash = below.hash ∧ prev.signerKey = r.ownerKey

/-- An accepted record and its predecessor stand in the view as they stood at its acceptance. -/
def Settled (C : Crypto) (view : View) (a : Acceptance) (p : ParsedRecord) : Prop :=
  (RegisterOK C p ∧ a.previous = none) ∨
    ∃ prev entry record, a.previous = some prev ∧ SuccessorOK C p prev ∧ entry ∈ view.files ∧
      view.PrevOf entry record prev ∧ record.label = p.label ∧ record.tld = p.tld

/-- What every run keeps. -/
structure Holds (C : Crypto) (view : View) (log : List Acceptance) : Prop where
  hash : ∀ e ∈ view.files, e.hash = recordHashFromBytes C e.bytes
  inj : ∀ e ∈ view.files, ∀ e' ∈ view.files, e.hash = e'.hash → e = e'
  accepted : ∀ e ∈ view.files, ∃ a ∈ log, a.bytes = e.bytes
  settled : ∀ a ∈ log, ∃ p, parseBytes a.bytes = .ok p ∧ view.Settled C a p

variable {log : List Acceptance}

/-- A predecessor stays one when the view grows. -/
theorem PrevOf.mono {view' : View} {entry : Entry} {record : ParsedRecord} {prev : PrevView}
    (h : view.PrevOf entry record prev) (hsub : view.files ⊆ view'.files) : view'.PrevOf entry record prev := by
  refine ⟨h.parsed, h.fields, h.owner, ?_⟩
  intro hop
  obtain ⟨below, hbelow, hrest⟩ := h.transferor hop
  exact ⟨below, hsub hbelow, hrest⟩

/-- What is settled stays so when the view grows. -/
theorem Settled.mono {view' : View} {a : Acceptance} (h : view.Settled C a p)
    (hsub : view.files ⊆ view'.files) : view'.Settled C a p := by
  rcases h with hregister | ⟨prev, entry, record, hprev, hok, hentry, hof, hname⟩
  · exact Or.inl hregister
  · exact Or.inr ⟨prev, entry, record, hprev, hok, hsub hentry, hof.mono hsub, hname⟩

theorem Holds.parses (h : view.Holds C log) {e : Entry} (he : e ∈ view.files) :
    ∃ p, parseBytes e.bytes = .ok p := by
  obtain ⟨a, ha, hbytes⟩ := h.accepted e he
  obtain ⟨p, hp, -⟩ := h.settled a ha
  exact ⟨p, hbytes ▸ hp⟩

/-! ## The chain of a name -/

/-- What a held record is as a candidate. -/
def candidateOf (C : Crypto) (entry : Entry) (p : ParsedRecord) : Candidate :=
  { seq := p.seq, hash := recordHashFromBytes C entry.bytes, prevHash := p.prevHash, entry := entry }

/-- The candidates for a name. -/
def members (C : Crypto) (view : View) (label tld : String) : Set Candidate :=
  {c | ∃ e ∈ view.files, ∃ p, parseBytes e.bytes = .ok p ∧ p.label = label ∧ p.tld = tld ∧ c = candidateOf C e p}

variable {label tld : String}

/-- When a file is a candidate for a name. -/
theorem candidate_eq_some {e : Entry} (hp : parseBytes e.bytes = .ok p) {c : Candidate} :
    candidate C label tld e = some c ↔ p.label = label ∧ p.tld = tld ∧ c = candidateOf C e p := by
  unfold candidate
  rw [peek_eq hp, prevHashOf_eq hp]
  simp only [Except.toOption_ok, Option.bind_eq_bind, Option.bind_some]
  by_cases hname : p.label ≠ label ∨ p.tld ≠ tld
  · rw [if_pos hname]
    constructor
    · intro h
      simp at h
    · intro ⟨hlabel, htld, _⟩
      rcases hname with hname | hname
      · exact absurd hlabel hname
      · exact absurd htld hname
  · rw [if_neg hname]
    obtain ⟨hlabel, htld⟩ := not_or.1 hname
    constructor
    · intro h
      exact ⟨Decidable.not_not.1 hlabel, Decidable.not_not.1 htld, (Option.some.inj h).symm⟩
    · intro ⟨_, _, hc⟩
      rw [hc]
      rfl

/-- The candidates for a name are its members. -/
theorem mem_candidates (h : view.Holds C log) {c : Candidate} :
    c ∈ view.candidates C label tld ↔ c ∈ view.members C label tld := by
  unfold candidates entries
  rw [List.mem_filterMap]
  simp only [List.mem_insertionSort, List.mem_filter]
  constructor
  · intro ⟨e, ⟨he, _⟩, hc⟩
    obtain ⟨p, hp⟩ := h.parses he
    obtain ⟨hlabel, htld, hc⟩ := (candidate_eq_some hp).1 hc
    exact ⟨e, he, p, hp, hlabel, htld, hc⟩
  · intro ⟨e, he, p, hp, hlabel, htld, hc⟩
    refine ⟨e, ⟨he, ?_⟩, (candidate_eq_some hp).2 ⟨hlabel, htld, hc⟩⟩
    rw [peek_eq hp]
    rfl

/-- **The chain of a name is the lineage of its records.** -/
theorem chain_complete (h : view.Holds C log) :
    Complete candidateKind (view.members C label tld) (view.chain C label tld) := by
  have hset : view.members C label tld = {c | c ∈ view.candidates C label tld} := by
    ext c
    exact (mem_candidates h).symm
  rw [hset]
  exact deterministicChain_complete _

/-- The hash of a record tells it apart. -/
theorem members_injOn (h : view.Holds C log) : Set.InjOn candidateKind.id (view.members C label tld) := by
  intro c hc c' hc' hid
  obtain ⟨e, he, p, hp, -, -, rfl⟩ := hc
  obtain ⟨e', he', p', hp', -, -, rfl⟩ := hc'
  obtain rfl : e = e' := h.inj e he e' he' (by rw [h.hash e he, h.hash e' he']; exact hid)
  rw [hp, Except.ok.injEq] at hp'
  rw [hp']

/-- A member of the chain, and the record it is. -/
theorem chain_mem (h : view.Holds C log) {c : Candidate} (hc : c ∈ view.chain C label tld) :
    c.entry ∈ view.files ∧ c.hash = c.entry.hash ∧ ∃ p, parseBytes c.entry.bytes = .ok p ∧ p.label = label ∧
      p.tld = tld ∧ c = candidateOf C c.entry p := by
  obtain ⟨e, he, p, hp, hlabel, htld, rfl⟩ := (chain_complete h).lineage.mem hc
  exact ⟨he, (h.hash e he).symm, p, hp, hlabel, htld, rfl⟩

/-- Only a registration opens a chain. -/
theorem op_of_seq_zero (h : view.Holds C log) {e : Entry} (he : e ∈ view.files)
    (hp : parseBytes e.bytes = .ok p) : p.seq = 0 ↔ p.op = "REGISTER" := by
  obtain ⟨a, ha, hbytes⟩ := h.accepted e he
  obtain ⟨p', hp', hsettled⟩ := h.settled a ha
  rw [hbytes, hp, Except.ok.injEq] at hp'
  subst hp'
  rcases hsettled with ⟨hok, -⟩ | ⟨prev, entry, record, -, hok, -, hof, -⟩
  · exact iff_of_true hok.seq hok.op
  · refine iff_of_false ?_ hok.op
    have hle := (parsed_of_parseBytes hof.parsed).2.seq_le
    have hmax : maxSeq + 1 < 2 ^ 64 := by decide
    have hseq : prev.seq = record.seq := by rw [hof.fields]
    rw [hok.seq, hseq, add, Nat.mod_eq_of_lt (by omega)]
    omega

/-- A chain is the end of itself. -/
theorem suffix_of_chain {chain : List Candidate} (hchain : view.chain C label tld = chain) :
    chain <:+ view.chain C label tld := by
  subst hchain
  exact List.suffix_rfl

theorem mem_of_chain {tip : Candidate} {below : List Candidate} (hchain : view.chain C label tld = tip :: below) :
    tip ∈ view.chain C label tld := by
  rw [hchain]
  exact List.mem_cons_self

/-- The record below another in a chain is the one that it names. -/
theorem chain_below (h : view.Holds C log) {tip : Candidate} {below : List Candidate}
    (hsuffix : tip :: below <:+ view.chain C label tld) (hp : parseBytes tip.entry.bytes = .ok p) :
    p.seq = below.length ∧ ∀ before ∈ below.head?, p.prevHash = before.entry.hash ∧ before.entry ∈ view.files ∧
      ∃ r, parseBytes before.entry.bytes = .ok r := by
  have hcomplete : Complete candidateKind (view.members C label tld) (view.chain C label tld) := chain_complete h
  obtain ⟨-, -, p', hp', -, -, hof⟩ := chain_mem h (hsuffix.subset List.mem_cons_self)
  rw [hp, Except.ok.injEq] at hp'
  subst hp'
  obtain ⟨hslot, hlink⟩ := (hcomplete.lineage.suffix hsuffix).head_follows
  have hseq : tip.seq = p.seq := by rw [hof]; rfl
  have hprev : tip.prevHash = p.prevHash := by rw [hof]; rfl
  refine ⟨hseq.symm.trans hslot, ?_⟩
  intro before hbefore
  have hmem : before ∈ view.chain C label tld :=
    hsuffix.subset (List.mem_cons_of_mem _ (List.mem_of_mem_head? hbefore))
  obtain ⟨hfile, hhash, r, hr, -, -, -⟩ := chain_mem h hmem
  exact ⟨hprev.symm.trans ((hlink before hbefore).trans hhash), hfile, r, hr⟩

/-- **What `chain_tip` answers**: the newest record, and what the view knows of it. -/
theorem chainTip_eq (h : view.Holds C log) {tip : Candidate} {below : List Candidate}
    (hchain : view.chain C label tld = tip :: below) :
    ∃ record prev, view.chainTip C label tld = .ok (some { entry := tip.entry, prev := prev }) ∧
      view.PrevOf tip.entry record prev ∧ record.label = label ∧ record.tld = tld := by
  obtain ⟨htip, hhash, p, hp, hlabel, htld, -⟩ := chain_mem h (mem_of_chain hchain)
  obtain ⟨hseq, hbelow⟩ := chain_below h (suffix_of_chain hchain) hp
  -- what the view knows of the tip, once it knows who signed it
  have hknown : ∀ key, (p.op ≠ "TRANSFER" → key = p.ownerKey) →
      (p.op = "TRANSFER" → ∃ entry ∈ view.files, ∃ r, parseBytes entry.bytes = .ok r ∧ p.prevHash = entry.hash ∧
        key = r.ownerKey) →
      view.PrevOf tip.entry p
        { opText := p.op, seq := p.seq, notBefore := p.notBefore, notAfter := p.notAfter, ownerKey := p.ownerKey,
          signerKey := key, suite := p.suite, hash := tip.entry.hash, revoked := p.op = "REVOKE" } := by
    intro key howner htransferor
    exact ⟨hp, rfl, howner, htransferor⟩
  by_cases hop : p.op = "TRANSFER"
  · cases below with
    | nil =>
      have hregister := (op_of_seq_zero h htip hp).1 hseq
      rw [hop] at hregister
      exact absurd hregister (by decide)
    | cons before rest =>
      obtain ⟨hprev, hfile, r, hr⟩ := hbelow before rfl
      refine ⟨p, _, ?_, hknown r.ownerKey (fun hne => absurd hop hne)
        (fun _ => ⟨before.entry, hfile, r, hr, hprev, rfl⟩), hlabel, htld⟩
      unfold chainTip
      simp only [hchain, peek_eq hp, Except.ok_bind, if_pos hop, ownerOf_eq hr, notAfterOf_eq hp, ownerOf_eq hp,
        suiteOf_eq hp, hhash, Except.pure_eq_ok]
  · refine ⟨p, _, ?_, hknown p.ownerKey (fun _ => rfl) (fun h => absurd h hop), hlabel, htld⟩
    unfold chainTip
    simp only [hchain, peek_eq hp, Except.ok_bind, if_neg hop, notAfterOf_eq hp, ownerOf_eq hp, suiteOf_eq hp,
      hhash, Except.pure_eq_ok]

theorem chainTip_nil (h : view.chain C label tld = []) : view.chainTip C label tld = .ok none := by
  unfold chainTip
  rw [h]

/-- A tip is the newest record of the chain. -/
theorem chain_of_chainTip (h : view.Holds C log) {tip : Tip} (htip : view.chainTip C label tld = .ok (some tip)) :
    ∃ candidate below record, view.chain C label tld = candidate :: below ∧ candidate.entry = tip.entry ∧
      view.PrevOf tip.entry record tip.prev ∧ record.label = label ∧ record.tld = tld := by
  cases hchain : view.chain C label tld with
  | nil =>
    rw [chainTip_nil hchain] at htip
    simp at htip
  | cons candidate below =>
    obtain ⟨record, prev, heq, hof, hname⟩ := chainTip_eq h hchain
    rw [htip, Except.ok.injEq, Option.some.injEq] at heq
    subst heq
    exact ⟨candidate, below, record, rfl, rfl, hof, hname⟩

theorem exists_tip {α : Type} {f : Tip → α} {a : α}
    (h : (view.chainTip C label tld).map (Option.map f) = .ok (some a)) :
    ∃ tip, view.chainTip C label tld = .ok (some tip) ∧ f tip = a := by
  cases htip : view.chainTip C label tld with
  | error e => simp [htip, Except.map] at h
  | ok tip =>
    cases tip with
    | none => simp [htip, Except.map] at h
    | some tip =>
      rw [htip] at h
      simp only [Except.map, Option.map_some, Except.ok.injEq, Option.some.injEq] at h
      exact ⟨tip, rfl, h⟩

/-! ## One step -/

/-- What `put` does: nothing when a file of the name is there, else one file more. -/
theorem put_cases (C : Crypto) (view : View) (bytes : Bytes) :
    ((∃ e ∈ view.files, e.hash = recordHashFromBytes C bytes) ∧ view.put C bytes = view) ∨
    ((∀ e ∈ view.files, e.hash ≠ recordHashFromBytes C bytes) ∧
      (view.put C bytes).files = view.files ++ [{ hash := recordHashFromBytes C bytes, bytes := bytes }]) := by
  unfold put
  by_cases hany : view.files.any fun entry => entry.hash = recordHashFromBytes C bytes
  · left
    rw [if_pos hany]
    obtain ⟨e, he, heq⟩ := List.any_eq_true.1 hany
    exact ⟨⟨e, he, of_decide_eq_true heq⟩, rfl⟩
  · right
    rw [if_neg hany]
    refine ⟨?_, rfl⟩
    intro e he heq
    exact hany (List.any_eq_true.2 ⟨e, he, decide_eq_true heq⟩)

theorem files_put_subset (C : Crypto) (view : View) (bytes : Bytes) : view.files ⊆ (view.put C bytes).files := by
  rcases put_cases C view bytes with ⟨-, heq⟩ | ⟨-, heq⟩
  · rw [heq]
    exact List.Subset.refl _
  · rw [heq]
    exact List.subset_append_left _ _

/-- An acceptance stands in the view it was made in. -/
theorem settled_of_accept (h : view.Holds C log) (hp : parseBytes bytes = .ok p)
    (haccept : view.acceptVerdict C bytes now windowCount = .ok .accept) :
    view.Settled C { bytes := bytes, previous := view.predecessor C bytes, now := now, windowCount := windowCount }
      p := by
  by_cases hop : p.op = "REGISTER"
  · obtain ⟨hverify, hnone⟩ := acceptVerdict_register hp hop haccept
    exact Or.inl ⟨register_of_accept hp hop hverify, hnone⟩
  · obtain ⟨tip, htip, hverify, hprev⟩ := acceptVerdict_successor hp hop haccept
    obtain ⟨prev, heq, hok⟩ := successor_of_accept hp hop hverify
    rw [Option.some.injEq] at heq
    subst heq
    obtain ⟨candidate, below, record, hchain, hentry, hof, hname⟩ := chain_of_chainTip h htip
    have hfile := (chain_mem h (mem_of_chain hchain)).1
    exact Or.inr ⟨tip.prev, tip.entry, record, hprev, hok, hentry ▸ hfile, hof, hname⟩

/-- An accepted record keeps a view in step with its log. -/
theorem Holds.step (h : view.Holds C log) (haccept : view.acceptVerdict C bytes now windowCount = .ok .accept) :
    (view.put C bytes).Holds C
      ({ bytes := bytes, previous := view.predecessor C bytes, now := now, windowCount := windowCount } :: log) := by
  obtain ⟨p, hp⟩ := acceptVerdict_parses haccept
  have hsub := files_put_subset C view bytes
  have hfiles : (view.put C bytes).files = view.files ∨ (∀ e ∈ view.files, e.hash ≠ recordHashFromBytes C bytes) ∧
      (view.put C bytes).files = view.files ++ [{ hash := recordHashFromBytes C bytes, bytes := bytes }] := by
    -- `put` leaves the file alone that bears the hash already, and else adds one
    rcases put_cases C view bytes with ⟨-, heq⟩ | hnew
    · exact Or.inl (by rw [heq])
    · exact Or.inr hnew
  constructor
  · intro e he
    rcases hfiles with heq | ⟨-, heq⟩
    · exact h.hash e (heq ▸ he)
    · rw [heq] at he
      rcases List.mem_append.1 he with he | he
      · exact h.hash e he
      · rw [List.mem_singleton.1 he]
  · intro e he e' he' hhash
    rcases hfiles with heq | ⟨hnew, heq⟩
    · exact h.inj e (heq ▸ he) e' (heq ▸ he') hhash
    · rw [heq] at he he'
      rcases List.mem_append.1 he with he | he
      · rcases List.mem_append.1 he' with he' | he'
        · exact h.inj e he e' he' hhash
        · rw [List.mem_singleton.1 he'] at hhash
          exact absurd hhash (hnew e he)
      · rw [List.mem_singleton.1 he] at hhash ⊢
        rcases List.mem_append.1 he' with he' | he'
        · exact absurd hhash.symm (hnew e' he')
        · exact (List.mem_singleton.1 he').symm
  · intro e he
    rcases hfiles with heq | ⟨-, heq⟩
    · obtain ⟨a, ha, hbytes⟩ := h.accepted e (heq ▸ he)
      exact ⟨a, List.mem_cons_of_mem _ ha, hbytes⟩
    · rw [heq] at he
      rcases List.mem_append.1 he with he | he
      · obtain ⟨a, ha, hbytes⟩ := h.accepted e he
        exact ⟨a, List.mem_cons_of_mem _ ha, hbytes⟩
      · rw [List.mem_singleton.1 he]
        exact ⟨_, List.mem_cons_self, rfl⟩
  · intro a ha
    rcases List.mem_cons.1 ha with rfl | ha
    · exact ⟨p, hp, (settled_of_accept h hp haccept).mono hsub⟩
    · obtain ⟨p', hp', hsettled⟩ := h.settled a ha
      exact ⟨p', hp', hsettled.mono hsub⟩

/-- **Every run keeps what the view knows.** -/
theorem holds_of_run (h : Run C view log) : view.Holds C log := by
  induction h with
  | empty =>
    constructor
    · intro e he
      exact absurd he List.not_mem_nil
    · intro e he
      exact absurd he List.not_mem_nil
    · intro e he
      exact absurd he List.not_mem_nil
    · intro a ha
      exact absurd ha List.not_mem_nil
  | step _ haccept ih => exact ih.step haccept

end View

end VayuWeb.Client
