import VayuWeb.Proof.ClientBuild
import VayuWeb.Proof.TakeIn
import VayuWeb.Proof.ViewTip

/-!
# Carrying a view over

A bundle lists a view's records by hash, and the import takes them in in that order. A chain comes
over as far as its hashes increase.

* `bundle_decodes`: a bundle is always readable.
* `Tracks`: what the import keeps, record after record.
* `bundle_carries_iff`: when the chains come over and a second import changes nothing.
-/

namespace VayuWeb.Client

open Bytes
open DetCbor (Value)
open Lineage (Chain Complete Follows)

namespace View

variable {C : Crypto} {view held : View} {bytes : Bytes} {p : ParsedRecord} {now windowCount : ℕ}
  {log log' : List Acceptance}
  {label tld : String}

/-! ## Bundles -/

/-- The records of a view, as its bundle lists them. -/
def records (view : View) : List Bytes := view.entries.map Entry.bytes

theorem length_of_parse (h : parseBytes bytes = .ok p) : bytes.length ≤ maxRecordBytes := (parseBytes_eq_ok.1 h).1

/-- **A bundle is always readable**, and holds the records byte for byte. -/
theorem bundle_decodes (h : view.Holds C log) (hlength : view.files.length < 2 ^ 64) :
    ∃ bundle, view.bundle = .ok bundle ∧ decode bundle = .ok (.array (view.records.map .bytes)) := by
  have hvalue : Encodable maxDepth (.array (view.entries.map fun entry => .bytes entry.bytes)) := by
    refine encodable_array ?_ ?_
    · rw [List.length_map, entries, List.length_insertionSort]
      exact Nat.lt_of_le_of_lt (List.length_filter_le _ _) hlength
    · intro x hx
      obtain ⟨e, he, rfl⟩ := List.mem_map.1 hx
      obtain ⟨p, hp⟩ := h.parses ((mem_entries h).1 he)
      exact encodable_bytes (Nat.lt_of_le_of_lt (length_of_parse hp) (by decide))
  obtain ⟨bundle, hencode, hdecode⟩ := decode_of_encode hvalue.fits hvalue.distinct hvalue.depth
  refine ⟨bundle, hencode, ?_⟩
  rw [hdecode, DetCbor.sorted_array, records, List.map_map, List.map_map]
  refine congrArg (fun items => Except.ok (Value.array items)) (List.map_congr_left fun e _ => ?_)
  rw [Function.comp_apply, Function.comp_apply, Value.sorted]
  all_goals simp

/-- What an import of a bundle does. -/
theorem importBundle_eq (h : view.Holds C log) (hrun : Run C held log') {bundle : Bytes}
    (hdecode : decode bundle = .ok (.array (view.records.map .bytes))) :
    (held.importBundle C bundle now windowCount).1 = held.takeAll C now windowCount view.records := by
  have hparse : ∀ record ∈ view.records, ∃ p, parseBytes record = .ok p := by
    intro record hrecord
    obtain ⟨e, he, rfl⟩ := List.mem_map.1 hrecord
    exact h.parses ((mem_entries h).1 he)
  obtain ⟨tally, heq⟩ := judgeRecords_eq hrun now windowCount hparse
    { accepted := 0, held := 0, refused := 0, deferred := 0 }
  simp only [importBundle, hdecode, heq]

/-! ## The import, record after record -/

/-- Every record is accepted, at this clock, after what it was accepted after. -/
def Acceptable (C : Crypto) (view : View) (log : List Acceptance) (now windowCount : ℕ) : Prop :=
  ∀ e ∈ view.files, ∃ a ∈ log, a.bytes = e.bytes ∧ verify C a.bytes a.previous now windowCount = .accept

/-- The record's quarantine is over. -/
def Released (now : ℕ) (e : Entry) : Prop :=
  ∃ r prev, parseBytes e.bytes = .ok r ∧ prev.opText = r.op ∧ prev.notAfter = r.notAfter ∧ fullyReleased prev now = true

/-- The two notions of a released entry agree. -/
theorem released_iff {e : Entry} {record : ParsedRecord} {prev : PrevView} (hof : view.PrevOf e record prev) :
    Released now e ↔ fullyReleased prev now = true := by
  have hop : prev.opText = record.op := by rw [hof.fields]
  have hnotAfter : prev.notAfter = record.notAfter := by rw [hof.fields]
  constructor
  · intro ⟨r, prev', hr, hop', hnotAfter', hreleased⟩
    rw [hof.parsed, Except.ok.injEq] at hr
    subst hr
    rw [fullyReleased, quarantineEnd] at hreleased ⊢
    rwa [hop, hnotAfter, ← hop', ← hnotAfter']
  · intro hreleased
    exact ⟨record, prev, hof.parsed, hop, hnotAfter, hreleased⟩

/-- The newest record of a chain that a bundle lists before an entry. -/
structure NewestBelow (chain : List Candidate) (e : Entry) (c : Candidate) : Prop where
  mem : c ∈ chain
  below : c.hash < e.hash
  newest : ∀ d ∈ chain, d.hash < e.hash → d.seq ≤ c.seq

/-- Where an import stands after the records `done`: what is held of a chain, up to the first record
that came before the one it follows, and which registrations beside a chain were let in. -/
structure Tracks (C : Crypto) (view : View) (now : ℕ) (done : List Entry) (held : View) : Prop where
  run : ∃ log, Run C held log
  files : ∀ e ∈ held.files, e ∈ done ∧ e ∈ view.files
  suffix : ∀ label tld, held.chain C label tld <:+ view.chain C label tld
  ascending : ∀ label tld, (held.chain C label tld).Pairwise fun newer older => older.hash < newer.hash
  next : ∀ label tld d, d :: held.chain C label tld <:+ view.chain C label tld → d.entry ∈ done →
    ∃ tip ∈ (held.chain C label tld).head?, d.hash < tip.hash
  others : ∀ r ∈ done, ∀ p, parseBytes r.bytes = .ok p → p.op = "REGISTER" →
    (∀ c ∈ held.chain C p.label p.tld, c.entry ≠ r) →
      ∃ c, NewestBelow (held.chain C p.label p.tld) r c ∧ (r ∈ held.files ↔ Released now c.entry)

/-- An empty view tracks no records. -/
theorem tracks_empty (C : Crypto) (view : View) (now : ℕ) : Tracks C view now [] .empty where
  run := ⟨[], Run.empty⟩
  files := fun _ he => absurd he List.not_mem_nil
  suffix := fun _ _ => List.nil_suffix
  ascending := fun _ _ => List.Pairwise.nil
  next := fun _ _ _ _ hd => absurd hd List.not_mem_nil
  others := fun _ hr => absurd hr List.not_mem_nil

section Step

variable {done : List Entry} {e : Entry}

/-- **The next record of a chain is accepted.** -/
theorem accept_next (hview : Run C view log) (hacceptable : Acceptable C view log now windowCount)
    (h : Tracks C view now done held) (he : e ∈ view.files) (hp : parseBytes e.bytes = .ok p)
    (hnext : candidateOf C e p :: held.chain C p.label p.tld <:+ view.chain C p.label p.tld) :
    held.acceptVerdict C e.bytes now windowCount = .ok .accept := by
  have hholds := holds_of_run hview
  obtain ⟨log', hrun⟩ := h.run
  have hheld := holds_of_run hrun
  have hcomplete : Complete candidateKind (view.members C p.label p.tld) (view.chain C p.label p.tld) :=
    chain_complete hholds
  have hfollows := (hcomplete.lineage.suffix hnext).head_follows
  obtain ⟨a, ha, hbytes, hverify⟩ := hacceptable e he
  rw [hbytes] at hverify
  by_cases hop : p.op = "REGISTER"
  · have hzero : p.seq = 0 := (op_of_seq_zero hholds he hp).2 hop
    have hnil : held.chain C p.label p.tld = [] := by
      have hslot : p.seq = (held.chain C p.label p.tld).length := hfollows.1
      exact List.length_eq_zero_iff.1 (by omega)
    rw [acceptVerdict_register_iff hheld hp hop, chainTip_nil hnil]
    have hnone : a.previous = none := by
      obtain ⟨p', hp', hsettled⟩ := hholds.settled a ha
      rw [hbytes, hp, Except.ok.injEq] at hp'
      subst hp'
      rcases hsettled with ⟨-, hnone⟩ | ⟨_, _, _, -, hok, -⟩
      · exact hnone
      · exact absurd hop hok.op
    rw [hnone] at hverify
    exact ⟨hverify, fun tip htip => by simp at htip⟩
  · obtain ⟨prev, parent, record, hprev, hparent, hof, hhash, hseq, -, -⟩ :=
      successor_parent hholds ha (hbytes ▸ hp) hop
    rw [hprev] at hverify
    rw [acceptVerdict_successor_iff hp hop]
    cases hchain : held.chain C p.label p.tld with
    | nil =>
      rw [hchain] at hfollows
      have hzero : p.seq = 0 := Lineage.follows_nil.1 hfollows
      omega
    | cons tip below =>
      rw [hchain] at hfollows
      have hlink : p.prevHash = tip.hash := (Lineage.follows_cons.1 hfollows).2
      obtain ⟨record', prev', htip, hof', -⟩ := chainTip_eq hheld hchain
      obtain ⟨hfile, hhash', -⟩ := chain_mem hheld (mem_of_chain hchain)
      -- the tip is what the record was accepted after
      have hsame : parent = tip.entry := by
        apply hholds.inj _ hparent _ (h.files _ hfile).2
        rw [← hhash, hlink, hhash']
      rw [hsame] at hof
      obtain ⟨-, heq⟩ := hof.unique hholds (hof'.mono fun d hd => (h.files d hd).2)
      exact ⟨_, htip, heq ▸ hverify⟩

/-- A successor that is accepted is the next of its chain. -/
theorem next_of_accept (hview : Run C view log) (h : Tracks C view now done held) (he : e ∈ view.files)
    (hp : parseBytes e.bytes = .ok p) (hop : p.op ≠ "REGISTER")
    (haccept : held.acceptVerdict C e.bytes now windowCount = .ok .accept) :
    candidateOf C e p :: held.chain C p.label p.tld <:+ view.chain C p.label p.tld := by
  have hholds := holds_of_run hview
  obtain ⟨log', hrun⟩ := h.run
  have hcomplete : Complete candidateKind (view.members C p.label p.tld) (view.chain C p.label p.tld) :=
    chain_complete hholds
  -- the accepted record takes the next slot of the chain, and the view has one record for that slot
  have hfollows := follows_of_accept (holds_of_run hrun) hp hop haccept e
  obtain ⟨d, hd⟩ := hcomplete.exists_next (h.suffix p.label p.tld) ⟨e, he, p, hp, rfl, rfl, rfl⟩ hfollows
  obtain ⟨hfile, -, q, hq, hlabel, htld, heq⟩ := chain_mem hholds (hd.subset List.mem_cons_self)
  have hdfollows := (hcomplete.lineage.suffix hd).head_follows
  have hseq : q.seq = p.seq := by
    have hslot : d.seq = (held.chain C p.label p.tld).length := hdfollows.1
    have hslot' : p.seq = (held.chain C p.label p.tld).length := hfollows.1
    have hown : d.seq = q.seq := by rw [heq]; rfl
    omega
  -- slot 0 is a REGISTER's, so neither of the two is one
  have hqop : q.op ≠ "REGISTER" := by
    intro hregister
    have hzero := (op_of_seq_zero hholds hfile hq).2 hregister
    exact hop ((op_of_seq_zero hholds he hp).1 (by omega))
  have hprev : p.prevHash = q.prevHash := by
    cases hchain : held.chain C p.label p.tld with
    | nil =>
      rw [hchain] at hfollows
      have hzero : p.seq = 0 := Lineage.follows_nil.1 hfollows
      exact absurd ((op_of_seq_zero hholds he hp).1 hzero) hop
    | cons tip below =>
      rw [hchain] at hfollows hdfollows
      have hlink : p.prevHash = tip.hash := (Lineage.follows_cons.1 hfollows).2
      have hlink' : d.prevHash = tip.hash := (Lineage.follows_cons.1 hdfollows).2
      have hown : d.prevHash = q.prevHash := by rw [heq]; rfl
      rw [hlink, ← hlink', hown]
  -- two successors of one predecessor would be a fork, which no view built by accepting has
  have hsame : e = d.entry :=
    unforked_of_run hview e he d.entry hfile p q hp hq hop hqop hlabel.symm htld.symm hprev
  subst hsame
  rw [hp, Except.ok.injEq] at hq
  subst hq
  rwa [← heq]

/-- A registration of a name whose chain is not held yet opens it. -/
theorem next_of_register (hview : Run C view log) (h : Tracks C view now done held) (he : e ∈ view.files)
    (hdone : ∀ d ∈ view.files, d.hash < e.hash → d ∈ done) (hp : parseBytes e.bytes = .ok p) (hop : p.op = "REGISTER")
    (hnil : held.chain C p.label p.tld = []) : [candidateOf C e p] <:+ view.chain C p.label p.tld := by
  have hholds := holds_of_run hview
  have hcomplete : Complete candidateKind (view.members C p.label p.tld) (view.chain C p.label p.tld) :=
    chain_complete hholds
  have hfollows : Follows candidateKind [] (candidateOf C e p) :=
    Lineage.follows_nil.2 ((op_of_seq_zero hholds he hp).2 hop)
  have hmem : candidateOf C e p ∈ view.members C p.label p.tld := ⟨e, he, p, hp, rfl, rfl, rfl⟩
  obtain ⟨d, hd⟩ := hcomplete.exists_next List.nil_suffix hmem hfollows
  obtain ⟨hfile, hhash, q, hq, -, -, heq⟩ := chain_mem hholds (hd.subset List.mem_cons_self)
  have hle : d.hash ≤ (candidateOf C e p).hash := (hcomplete.lineage.suffix hd).head_least hmem hfollows
  have hid : (candidateOf C e p).hash = e.hash := (hholds.hash e he).symm
  rw [hid, hhash] at hle
  have hsame : d.entry = e := by
    by_contra hne
    have hlt : d.entry.hash < e.hash :=
      Std.lt_of_le_of_ne hle fun heq => hne (hholds.inj _ hfile _ he heq)
    -- a smaller registration was taken in before
    obtain ⟨tip, htip, -⟩ := h.next p.label p.tld d (by rwa [hnil]) (hdone _ hfile hlt)
    rw [hnil] at htip
    simp at htip
  rw [hsame, hp, Except.ok.injEq] at hq
  rw [hsame, ← hq] at heq
  rwa [heq] at hd

/-- When a registration beside a chain is let in. -/
theorem accept_beside (hview : Run C view log) (hacceptable : Acceptable C view log now windowCount)
    (hrun : Run C held log')
    {r : Entry} (hr : r ∈ view.files) (hp : parseBytes r.bytes = .ok p) (hop : p.op = "REGISTER")
    (hsub : ∀ e ∈ held.files, e ∈ view.files) (hout : r ∉ held.files) {tip : Candidate} {below : List Candidate}
    (hchain : held.chain C p.label p.tld = tip :: below) :
    held.acceptVerdict C r.bytes now windowCount = .ok .accept ↔ Released now tip.entry := by
  have hholds := holds_of_run hview
  have hheld := holds_of_run hrun
  obtain ⟨a, ha, hbytes, hverify⟩ := hacceptable r hr
  obtain ⟨record, prev, htip, hof, -⟩ := chainTip_eq hheld hchain
  have hfile := (chain_mem hheld (mem_of_chain hchain)).1
  have hnone : a.previous = none := by
    obtain ⟨p', hp', hsettled⟩ := hholds.settled a ha
    rw [hbytes, hp, Except.ok.injEq] at hp'
    subst hp'
    rcases hsettled with ⟨-, hnone⟩ | ⟨_, _, _, -, hok, -⟩
    · exact hnone
    · exact absurd hop hok.op
  have hother : tip.entry.hash ≠ recordHashFromBytes C r.bytes := by
    intro heq
    rw [← hholds.hash r hr] at heq
    have hsame := hholds.inj _ (hsub _ hfile) _ hr heq
    exact hout (hsame ▸ hfile)
  rw [hbytes, hnone] at hverify
  rw [acceptVerdict_register_iff hheld hp hop, htip, released_iff hof]
  simp only [hverify, true_and, Except.ok.injEq, Option.some.injEq, forall_eq']
  exact or_iff_right hother

/-- What is held of a chain was taken in before. -/
theorem Tracks.chain_lt (h : Tracks C view now done held) (hlt : ∀ d ∈ done, d.hash < e.hash) {c : Candidate}
    (hc : c ∈ held.chain C label tld) : c.hash < e.hash ∧ c.entry ≠ e := by
  obtain ⟨log', hrun⟩ := h.run
  obtain ⟨hfile, hhash, -⟩ := chain_mem (holds_of_run hrun) hc
  have hbelow := hlt _ (h.files _ hfile).1
  refine ⟨hhash ▸ hbelow, ?_⟩
  intro heq
  rw [heq] at hbelow
  exact List.lt_irrefl _ hbelow

/-- One record more, which extends its chain. -/
theorem Tracks.extend (hview : Run C view log) (h : Tracks C view now done held) (he : e ∈ view.files)
    (hlt : ∀ d ∈ done, d.hash < e.hash) (hp : parseBytes e.bytes = .ok p)
    (hnext : candidateOf C e p :: held.chain C p.label p.tld <:+ view.chain C p.label p.tld)
    {held' : View} (hrun : Run C held' log') (hfiles : held'.files = held.files ++ [e])
    (hchain : held'.chain C p.label p.tld = candidateOf C e p :: held.chain C p.label p.tld)
    (hother : ∀ label tld, ¬ (p.label = label ∧ p.tld = tld) → held'.chain C label tld = held.chain C label tld) :
    Tracks C view now (done ++ [e]) held' := by
  have hholds := holds_of_run hview
  have hid : (candidateOf C e p).hash = e.hash := (hholds.hash e he).symm
  -- a bundle goes by rising hash, so the new record is none of those done before
  have hne : ∀ d ∈ done, d ≠ e := by
    intro d hd heq
    have hbelow := hlt d hd
    rw [heq] at hbelow
    exact List.lt_irrefl _ hbelow
  have hmem : ∀ d ∈ done, (d ∈ held'.files ↔ d ∈ held.files) := by
    intro d hd
    rw [hfiles, List.mem_append, List.mem_singleton]
    exact or_iff_left (hne d hd)
  constructor
  case run => exact ⟨log', hrun⟩
  case files =>
    intro d hd
    rw [hfiles] at hd
    rcases List.mem_append.1 hd with hd | hd
    · exact ⟨List.mem_append_left _ (h.files d hd).1, (h.files d hd).2⟩
    · rw [List.mem_singleton.1 hd]
      exact ⟨List.mem_append_right _ (List.mem_singleton.2 rfl), he⟩
  case suffix =>
    intro label tld
    by_cases hname : p.label = label ∧ p.tld = tld
    · rw [← hname.1, ← hname.2, hchain]
      exact hnext
    · rw [hother label tld hname]
      exact h.suffix label tld
  case ascending =>
    intro label tld
    by_cases hname : p.label = label ∧ p.tld = tld
    · rw [← hname.1, ← hname.2, hchain, List.pairwise_cons]
      refine ⟨fun c hc => ?_, h.ascending p.label p.tld⟩
      rw [hid]
      exact (h.chain_lt hlt hc).1
    · rw [hother label tld hname]
      exact h.ascending label tld
  case next =>
    intro label tld d hd hdone
    obtain ⟨hfile, hhash, q, hq, hlabel, htld, heq⟩ := chain_mem hholds (hd.subset List.mem_cons_self)
    by_cases hname : p.label = label ∧ p.tld = tld
    · rw [← hname.1, ← hname.2, hchain] at hd
      refine ⟨candidateOf C e p, by rw [← hname.1, ← hname.2, hchain]; rfl, ?_⟩
      rw [hid, hhash]
      rcases List.mem_append.1 hdone with hdone | hdone
      · exact hlt _ hdone
      · -- the record does not stand in its chain twice
        exfalso
        rw [List.mem_singleton.1 hdone, hp, Except.ok.injEq] at hq
        rw [List.mem_singleton.1 hdone, ← hq] at heq
        have hcomplete : Complete candidateKind (view.members C p.label p.tld) (view.chain C p.label p.tld) :=
          chain_complete hholds
        have hslot : d.seq = (held.chain C p.label p.tld).length + 1 := (hcomplete.lineage.suffix hd).head_follows.1
        have hslot' : (candidateOf C e p).seq = (held.chain C p.label p.tld).length :=
          (hcomplete.lineage.suffix hnext).head_follows.1
        rw [← heq] at hslot'
        omega
    -- the record belongs to another chain, which has not moved
    · rw [hother label tld hname] at hd ⊢
      apply h.next label tld d hd
      rcases List.mem_append.1 hdone with hdone | hdone
      · exact hdone
      · rw [List.mem_singleton.1 hdone, hp, Except.ok.injEq] at hq
        exact absurd ⟨hq ▸ hlabel, hq ▸ htld⟩ hname
  case others =>
    intro r hr q hq hop hout
    rcases List.mem_append.1 hr with hr | hr
    -- a record passed over before: the new tip may be its name's, and changes nothing for it
    · have hin := hmem r hr
      by_cases hname : p.label = q.label ∧ p.tld = q.tld
      · rw [← hname.1, ← hname.2] at hout ⊢
        rw [hchain] at hout ⊢
        obtain ⟨c, hc, hiff⟩ := h.others r hr q hq hop (by
          rw [← hname.1, ← hname.2]
          exact fun c hc => hout c (List.mem_cons_of_mem _ hc))
        rw [← hname.1, ← hname.2] at hc
        refine ⟨c, ⟨List.mem_cons_of_mem _ hc.mem, hc.below, ?_⟩, by rw [hin]; exact hiff⟩
        intro d hd hbelow
        rcases List.mem_cons.1 hd with rfl | hd
        · rw [hid] at hbelow
          exact absurd (List.lt_trans hbelow (hlt r hr)) (List.lt_irrefl _)
        · exact hc.newest d hd hbelow
      · rw [hother _ _ hname] at hout ⊢
        rw [hin]
        exact h.others r hr q hq hop hout
    -- the new record itself stands in its chain, so it is not one of the others
    · rw [List.mem_singleton.1 hr] at hq hout
      rw [hp, Except.ok.injEq] at hq
      rw [← hq, hchain] at hout
      exact absurd rfl (hout _ List.mem_cons_self)

/-- One record more that changes no chain: a registration beside its chain, let in where the tip is
released, or a record that is refused and is not the next of its chain. -/
theorem Tracks.stay (hview : Run C view log) (h : Tracks C view now done held) (he : e ∈ view.files)
    (hlt : ∀ d ∈ done, d.hash < e.hash) (hp : parseBytes e.bytes = .ok p)
    (hnext : ¬ candidateOf C e p :: held.chain C p.label p.tld <:+ view.chain C p.label p.tld)
    {held' : View} (hrun : Run C held' log') (hfiles : ∀ d, d ∈ held'.files → d ∈ held.files ∨ d = e)
    (hsub : held.files ⊆ held'.files) (hchain : ∀ label tld, held'.chain C label tld = held.chain C label tld)
    (hregister : p.op = "REGISTER" → ∃ tip ∈ (held.chain C p.label p.tld).head?,
      (e ∈ held'.files ↔ Released now tip.entry)) :
    Tracks C view now (done ++ [e]) held' := by
  have hholds := holds_of_run hview
  have hne : ∀ d ∈ done, d ≠ e := by
    intro d hd heq
    have hbelow := hlt d hd
    rw [heq] at hbelow
    exact List.lt_irrefl _ hbelow
  constructor
  case run => exact ⟨log', hrun⟩
  case files =>
    intro d hd
    rcases hfiles d hd with hd | rfl
    · exact ⟨List.mem_append_left _ (h.files d hd).1, (h.files d hd).2⟩
    · exact ⟨List.mem_append_right _ (List.mem_singleton.2 rfl), he⟩
  case suffix =>
    intro label tld
    rw [hchain]
    exact h.suffix label tld
  case ascending =>
    intro label tld
    rw [hchain]
    exact h.ascending label tld
  case next =>
    intro label tld d hd hdone
    rw [hchain] at hd ⊢
    rcases List.mem_append.1 hdone with hdone | hdone
    · exact h.next label tld d hd hdone
    -- were it next in its chain, it would have been accepted
    · exfalso
      have hentry : d.entry = e := List.mem_singleton.1 hdone
      obtain ⟨heq, hlabel, htld⟩ := candidate_eq hholds (hd.subset List.mem_cons_self) (hentry ▸ hp)
      rw [heq, hentry, ← hlabel, ← htld] at hd
      exact hnext hd
  case others =>
    intro r hr q hq hop hout
    rw [hchain] at hout ⊢
    rcases List.mem_append.1 hr with hr | hr
    · have hin : r ∈ held'.files ↔ r ∈ held.files :=
        ⟨fun hr' => (hfiles r hr').resolve_right (hne r hr), fun hr' => hsub hr'⟩
      rw [hin]
      exact h.others r hr q hq hop hout
    -- a REGISTER that was passed over: the tip it met stays the newest below it
    · obtain rfl : r = e := List.mem_singleton.1 hr
      rw [hp, Except.ok.injEq] at hq
      subst hq
      obtain ⟨tip, htip, hiff⟩ := hregister hop
      refine ⟨tip, ⟨List.mem_of_mem_head? htip, (h.chain_lt hlt (List.mem_of_mem_head? htip)).1, ?_⟩, hiff⟩
      intro d hd _
      obtain ⟨log', hrun⟩ := h.run
      have hcomplete : Complete candidateKind (held.members C p.label p.tld) (held.chain C p.label p.tld) :=
        chain_complete (holds_of_run hrun)
      cases hheld : held.chain C p.label p.tld with
      | nil =>
        rw [hheld] at hd
        exact absurd hd List.not_mem_nil
      | cons first below =>
        rw [hheld] at hcomplete hd htip
        obtain rfl : first = tip := Option.some.inj htip
        have hslot : first.seq = below.length := hcomplete.lineage.head_follows.1
        have hle : d.seq < below.length + 1 := hcomplete.lineage.slot_lt hd
        omega

/-- **What the import keeps**, over one record of the bundle. -/
theorem Tracks.step (hview : Run C view log) (hacceptable : Acceptable C view log now windowCount)
    (h : Tracks C view now done held) (he : e ∈ view.files) (hlt : ∀ d ∈ done, d.hash < e.hash)
    (hdone : ∀ d ∈ view.files, d.hash < e.hash → d ∈ done) :
    Tracks C view now (done ++ [e]) (held.takeIn C now windowCount e.bytes) := by
  have hholds := holds_of_run hview
  obtain ⟨p, hp⟩ := hholds.parses he
  obtain ⟨log', hrun⟩ := h.run
  have hheld := holds_of_run hrun
  have hhash := hholds.hash e he
  have hentry : ({ hash := recordHashFromBytes C e.bytes, bytes := e.bytes } : Entry) = e := by rw [← hhash]
  have hnew : ∀ d ∈ held.files, d.hash ≠ recordHashFromBytes C e.bytes := by
    intro d hd heq
    have hbelow := hlt d (h.files d hd).1
    rw [heq, ← hhash] at hbelow
    exact List.lt_irrefl _ hbelow
  have hnot : held.holds C e.bytes = false := by
    rw [Bool.eq_false_iff, Ne, holds_iff]
    intro ⟨d, hd, heq⟩
    exact hnew d hd heq
  have hout : e ∉ held.files := fun hin => hnew e hin hhash
  have hsub : ∀ d ∈ held.files, d ∈ view.files := fun d hd => (h.files d hd).2
  rcases takeIn_cases C now windowCount held e.bytes with ⟨htrue, -⟩ | ⟨-, hrefused, heq⟩ | ⟨-, haccept, heq, hfiles⟩
  · rw [hnot] at htrue
    exact absurd htrue (by simp)
  · rw [heq]
    refine h.stay hview he hlt hp ?_ hrun (fun d hd => Or.inl hd) (List.Subset.refl _) (fun _ _ => rfl) ?_
    · intro hnext
      exact hrefused (accept_next hview hacceptable h he hp hnext)
    · intro hop
      cases hchain : held.chain C p.label p.tld with
      | nil =>
        have hnext := next_of_register hview h he hdone hp hop hchain
        rw [← hchain] at hnext
        exact absurd (accept_next hview hacceptable h he hp hnext) hrefused
      | cons tip below =>
        refine ⟨tip, rfl, iff_of_false hout ?_⟩
        rw [← accept_beside hview hacceptable hrun he hp hop hsub hout hchain]
        exact hrefused
  · have hstep := hrun.step haccept
    have hput := holds_of_run hstep
    rw [heq]
    have hother : ∀ label tld, ¬ (p.label = label ∧ p.tld = tld) →
        (held.put C e.bytes).chain C label tld = held.chain C label tld :=
      fun label tld hname => chain_put_other hheld hput hp hfiles hname
    by_cases hop : p.op = "REGISTER"
    · have hseq : p.seq = 0 := (op_of_seq_zero hholds he hp).2 hop
      cases hchain : held.chain C p.label p.tld with
      | nil =>
        have hfirst := chain_put_first hheld hput hp hseq hchain hnew hfiles
        have hnext := next_of_register hview h he hdone hp hop hchain
        rw [hentry, ← hchain] at hfirst
        rw [← hchain] at hnext
        rw [hentry] at hfiles
        exact h.extend hview he hlt hp hnext hstep hfiles hfirst hother
      | cons tip below =>
        have hcomplete : Complete candidateKind (held.members C p.label p.tld) (held.chain C p.label p.tld) :=
          chain_complete hheld
        -- the bottom of the chain is a smaller registration
        obtain ⟨bottom, hbottom, hslot⟩ : ∃ d ∈ held.chain C p.label p.tld, d.seq = 0 := by
          have hne : held.chain C p.label p.tld ≠ [] := by simp [hchain]
          refine ⟨(held.chain C p.label p.tld).getLast hne, List.getLast_mem hne, ?_⟩
          have hsuffix : [(held.chain C p.label p.tld).getLast hne] <:+ held.chain C p.label p.tld :=
            ⟨(held.chain C p.label p.tld).dropLast, List.dropLast_append_getLast hne⟩
          exact (hcomplete.lineage.suffix hsuffix).head_follows.1
        have hle : bottom.hash ≤ recordHashFromBytes C e.bytes := by
          rw [← hhash]
          exact Std.le_of_lt (h.chain_lt hlt hbottom).1
        have hsame := chain_put_later hheld hput hp hseq (hcomplete.lineage.mem hbottom) hslot hle hfiles
        rw [hentry] at hfiles
        refine h.stay hview he hlt hp ?_ hstep ?_ (files_put_subset C held e.bytes) ?_ ?_
        · intro hnext
          have hcompleteView : Complete candidateKind (view.members C p.label p.tld) (view.chain C p.label p.tld) :=
            chain_complete hholds
          have hown : p.seq = (held.chain C p.label p.tld).length := (hcompleteView.lineage.suffix hnext).head_follows.1
          rw [hchain, List.length_cons] at hown
          omega
        · intro d hd
          rw [hfiles] at hd
          exact (List.mem_append.1 hd).imp_right List.mem_singleton.1
        · intro label tld
          by_cases hname : p.label = label ∧ p.tld = tld
          · rw [← hname.1, ← hname.2]
            exact hsame
          · exact hother label tld hname
        · intro _
          refine ⟨tip, by rw [hchain]; rfl, ?_⟩
          have hin : e ∈ (held.put C e.bytes).files := by
            rw [hfiles]
            exact List.mem_append_right _ (List.mem_singleton.2 rfl)
          exact iff_of_true hin ((accept_beside hview hacceptable hrun he hp hop hsub hout hchain).1 haccept)
    · have hextend := chain_put_successor hheld hput hp hop haccept hnew hfiles
      have hnext := next_of_accept hview h he hp hop haccept
      rw [hentry] at hextend hfiles
      exact h.extend hview he hlt hp hnext hstep hfiles hextend hother

/-- **And over the whole bundle.** -/
theorem tracks_bundle (hview : Run C view log) (hacceptable : Acceptable C view log now windowCount) :
    Tracks C view now view.entries (View.empty.takeAll C now windowCount view.records) := by
  have hholds := holds_of_run hview
  have key : ∀ rest done : List Entry, done ++ rest = view.entries → ∀ held, Tracks C view now done held →
      Tracks C view now view.entries (held.takeAll C now windowCount (rest.map Entry.bytes)) := by
    -- induction over what is still to come, with what is done named apart
    intro rest
    induction rest with
    | nil =>
      intro done hsplit held h
      rw [List.append_nil] at hsplit
      rw [← hsplit]
      exact h
    | cons e rest ih =>
      intro done hsplit held h
      have hsorted := entries_sorted hview
      rw [← hsplit] at hsorted
      obtain ⟨-, hrest, hbefore⟩ := List.pairwise_append.1 hsorted
      have he : e ∈ view.files := (mem_entries hholds).1 (by
        rw [← hsplit]
        exact List.mem_append_right _ List.mem_cons_self)
      rw [List.map_cons, takeAll_cons]
      apply ih (done ++ [e]) (by rw [List.append_assoc, List.singleton_append, hsplit])
      -- the records below the new one are those done already
      refine h.step hview hacceptable he (fun d hd => hbefore d hd e List.mem_cons_self) ?_
      intro d hd hbelow
      have hd' := (mem_entries hholds).2 hd
      rw [← hsplit] at hd'
      rcases List.mem_append.1 hd' with hd' | hd'
      · exact hd'
      · rcases List.mem_cons.1 hd' with rfl | hd'
        · exact absurd hbelow (List.lt_irrefl _)
        · exact absurd (List.lt_trans hbelow ((List.pairwise_cons.1 hrest).1 d hd')) (List.lt_irrefl _)
  exact key view.entries [] rfl .empty (tracks_empty C view now)

end Step

/-! ## Whole views -/

/-- On every chain each record has a larger hash than the one it follows. -/
def Ascends (C : Crypto) (view : View) : Prop :=
  ∀ label tld, (view.chain C label tld).Pairwise fun newer older => older.hash < newer.hash

/-- A registration beside its chain finds the name released when the bundle is first gone through, if
it does at the end. -/
def Decided (C : Crypto) (view : View) (now : ℕ) : Prop :=
  ∀ r ∈ view.files, ∀ p, parseBytes r.bytes = .ok p → p.op = "REGISTER" →
    (∀ c ∈ view.chain C p.label p.tld, c.entry ≠ r) → ∀ c, NewestBelow (view.chain C p.label p.tld) r c →
      ∀ tip ∈ (view.chain C p.label p.tld).head?, Released now tip.entry → Released now c.entry

/-- The view that an import of the bundle makes of an empty directory. -/
def carried (C : Crypto) (bundle : Bytes) (now windowCount : ℕ) : View :=
  (View.empty.importBundle C bundle now windowCount).1

/-- The bundle is readable, an import of it gives every name the tip that it has in the view, and one
more import changes nothing. -/
def Carries (C : Crypto) (view : View) (now windowCount : ℕ) : Prop :=
  ∃ bundle, view.bundle = .ok bundle ∧ decode bundle = .ok (.array (view.records.map .bytes)) ∧
    (∀ label tld, (carried C bundle now windowCount).chainTip C label tld = view.chainTip C label tld) ∧
      ((carried C bundle now windowCount).importBundle C bundle now windowCount).1 = carried C bundle now windowCount

theorem chainTip_congr (h : held.chain C label tld = view.chain C label tld) :
    held.chainTip C label tld = view.chainTip C label tld := by
  unfold chainTip
  rw [h]

/-- A chain that is carried over up to the tip is carried over. -/
theorem chain_of_tip (hview : Run C view log) (hrun : Run C held log')
    (hsuffix : held.chain C label tld <:+ view.chain C label tld)
    (htip : held.chainTip C label tld = view.chainTip C label tld) :
    held.chain C label tld = view.chain C label tld := by
  have hholds := holds_of_run hview
  have hheld := holds_of_run hrun
  have hcomplete : Complete candidateKind (view.members C label tld) (view.chain C label tld) := chain_complete hholds
  cases hchain : view.chain C label tld with
  | nil =>
    rw [hchain] at hsuffix
    exact List.suffix_nil.1 hsuffix
  | cons tip below =>
    obtain ⟨record, prev, htipView, hof, -⟩ := chainTip_eq hholds hchain
    rw [htipView] at htip
    obtain ⟨c, below', record', hchain', hentry, -⟩ := chain_of_chainTip hheld htip
    rw [hchain] at hcomplete hsuffix
    rw [hchain'] at hsuffix ⊢
    -- both tips are the one record, and stand in its slot
    have hsame : c = tip := by
      have hcmem : c ∈ view.chain C label tld := hchain ▸ hsuffix.subset List.mem_cons_self
      have hc := (candidate_eq hholds hcmem (by rw [hentry]; exact hof.parsed)).1
      have ht := (candidate_eq hholds (mem_of_chain hchain) hof.parsed).1
      rw [hc, ht, hentry]
    have hslot : c.seq = below'.length := (hcomplete.lineage.suffix hsuffix).head_follows.1
    have hslot' : tip.seq = below.length := hcomplete.lineage.head_follows.1
    rw [hsame] at hslot
    apply hsuffix.eq_of_length
    rw [List.length_cons, List.length_cons]
    omega

/-- Taking in a record adds a file or changes nothing. -/
theorem length_takeIn (C : Crypto) (now windowCount : ℕ) (held : View) (bytes : Bytes) :
    held.files.length ≤ (held.takeIn C now windowCount bytes).files.length ∧
      ((held.takeIn C now windowCount bytes).files.length = held.files.length →
        held.takeIn C now windowCount bytes = held) := by
  rcases takeIn_cases C now windowCount held bytes with ⟨-, heq⟩ | ⟨-, -, heq⟩ | ⟨-, -, heq, hfiles⟩
  · rw [heq]
    exact ⟨Nat.le_refl _, fun _ => rfl⟩
  · rw [heq]
    exact ⟨Nat.le_refl _, fun _ => rfl⟩
  · rw [heq, hfiles, List.length_append, List.length_singleton]
    exact ⟨Nat.le_succ _, fun hlength => absurd hlength (Nat.succ_ne_self _)⟩

/-- Taking in records takes no file away. -/
theorem length_takeAll (C : Crypto) (now windowCount : ℕ) (held : View) (records : List Bytes) :
    held.files.length ≤ (held.takeAll C now windowCount records).files.length := by
  induction records generalizing held with
  | nil => exact Nat.le_refl _
  | cons record records ih => exact Nat.le_trans (length_takeIn C now windowCount held record).1 (ih _)

/-- Records change nothing together exactly when each of them changes nothing. -/
theorem takeAll_eq_self_iff {records : List Bytes} :
    held.takeAll C now windowCount records = held ↔ ∀ record ∈ records, held.takeIn C now windowCount record =
      held := by
  induction records with
  | nil => simp [takeAll_nil]
  | cons record records ih =>
    rw [takeAll_cons, List.forall_mem_cons]
    constructor
    · intro h
      have hfirst : held.takeIn C now windowCount record = held := by
        apply (length_takeIn C now windowCount held record).2
        have hle := (length_takeIn C now windowCount held record).1
        have hrest := length_takeAll C now windowCount
          (held.takeIn C now windowCount record) records
        rw [h] at hrest
        omega
      rw [hfirst] at h
      exact ⟨hfirst, ih.1 h⟩
    · intro ⟨hfirst, hrest⟩
      rw [hfirst]
      exact ih.2 hrest

/-- **A bundle carries a view over** exactly when every chain ascends, and no registration beside a
chain finds the name released only at the end. -/
theorem bundle_carries_iff (hview : Run C view log) (hlength : view.files.length < 2 ^ 64)
    (hacceptable : Acceptable C view log now windowCount) :
    Carries C view now windowCount ↔ Ascends C view ∧ Decided C view now := by
  have hholds := holds_of_run hview
  obtain ⟨bundle, hbundle, hdecode⟩ := bundle_decodes hholds hlength
  have htracks := tracks_bundle hview hacceptable
  obtain ⟨log', hrun⟩ := htracks.run
  have hcarried : carried C bundle now windowCount = View.empty.takeAll C now windowCount view.records :=
    importBundle_eq hholds Run.empty hdecode
  generalize View.empty.takeAll C now windowCount view.records = held at htracks hrun hcarried
  have hagain : (held.importBundle C bundle now windowCount).1 = held.takeAll C now windowCount view.records :=
    importBundle_eq hholds hrun hdecode
  have hiff : Carries C view now windowCount ↔
      (∀ label tld, held.chainTip C label tld = view.chainTip C label tld) ∧
        ∀ record ∈ view.records, held.takeIn C now windowCount record = held := by
    rw [Carries]
    constructor
    · intro hcarries
      obtain ⟨bundle', hbundle', -, htips, hsame⟩ := hcarries
      rw [hbundle, Except.ok.injEq] at hbundle'
      subst hbundle'
      rw [hcarried] at htips hsame
      rw [hagain] at hsame
      exact ⟨htips, takeAll_eq_self_iff.1 hsame⟩
    · intro ⟨htips, hsame⟩
      refine ⟨bundle, hbundle, hdecode, ?_, ?_⟩
      · rw [hcarried]
        exact htips
      · rw [hcarried, hagain]
        exact takeAll_eq_self_iff.2 hsame
  rw [hiff]
  have hsub : ∀ e ∈ held.files, e ∈ view.files := fun e he => (htracks.files e he).2
  -- two records of a chain that are the newest below one entry are one
  have hunique : ∀ {label tld : String} {r : Entry} {c d : Candidate}, NewestBelow (view.chain C label tld) r c →
      NewestBelow (view.chain C label tld) r d → c = d := by
    intro label tld r c d hc hd
    have hcomplete : Complete candidateKind (view.members C label tld) (view.chain C label tld) := chain_complete hholds
    exact hcomplete.lineage.slot_inj hc.mem hd.mem
      (Nat.le_antisymm (hd.newest c hc.mem hc.below) (hc.newest d hd.mem hd.below))
  constructor
  · intro ⟨htips, hsame⟩
    have hchains : ∀ label tld, held.chain C label tld = view.chain C label tld :=
      fun label tld => chain_of_tip hview hrun (htracks.suffix label tld) (htips label tld)
    refine ⟨fun label tld => hchains label tld ▸ htracks.ascending label tld, ?_⟩
    intro r hr p hp hop hout c hc tip htip hreleased
    have hentry : r ∈ view.entries := (mem_entries hholds).2 hr
    by_contra hnot
    obtain ⟨c', hc', hin⟩ := htracks.others r hentry p hp hop (by rw [hchains]; exact hout)
    rw [hchains] at hc'
    rw [← hunique hc hc'] at hin
    have hmissing : r ∉ held.files := fun h => hnot (hin.1 h)
    cases hchain : held.chain C p.label p.tld with
    | nil =>
      rw [← hchains, hchain] at htip
      simp at htip
    | cons tip' below =>
      rw [← hchains, hchain] at htip
      obtain rfl : tip' = tip := Option.some.inj htip
      have haccept := (accept_beside hview hacceptable hrun hr hp hop hsub hmissing hchain).2 hreleased
      -- the second import lets it in
      rcases takeIn_cases C now windowCount held r.bytes with ⟨hheld, -⟩ | ⟨-, hrefused, -⟩ | ⟨-, -, heq, hfiles⟩
      · obtain ⟨e, he, hhash⟩ := holds_iff.1 hheld
        rw [← hholds.hash r hr] at hhash
        exact hmissing (hholds.inj e (hsub e he) r hr hhash ▸ he)
      · exact hrefused haccept
      · rw [← heq, hsame r.bytes (List.mem_map_of_mem hentry)] at hfiles
        have hlength := congrArg List.length hfiles
        rw [List.length_append, List.length_singleton] at hlength
        omega
  · intro ⟨hascends, hdecided⟩
    have hchains : ∀ label tld, held.chain C label tld = view.chain C label tld := by
      intro label tld
      rcases Lineage.suffix_eq_or_cons (htracks.suffix label tld) with heq | ⟨d, hd⟩
      · exact heq
      · have hfile := (chain_mem hholds (hd.subset List.mem_cons_self)).1
        obtain ⟨tip, htip, hlt⟩ := htracks.next label tld d hd ((mem_entries hholds).2 hfile)
        have hpair := List.Pairwise.sublist hd.sublist (hascends label tld)
        have hgt := (List.pairwise_cons.1 hpair).1 tip (List.mem_of_mem_head? htip)
        exact absurd (List.lt_trans hlt hgt) (List.lt_irrefl _)
    refine ⟨fun label tld => chainTip_congr (hchains label tld), ?_⟩
    intro record hrecord
    obtain ⟨r, hentry, rfl⟩ := List.mem_map.1 hrecord
    have hr := (mem_entries hholds).1 hentry
    obtain ⟨p, hp⟩ := hholds.parses hr
    by_cases hmissing : r ∈ held.files
    · exact takeIn_of_holds (holds_iff.2 ⟨r, hmissing, hholds.hash r hr⟩)
    · apply takeIn_of_not_accept
      intro haccept
      by_cases hop : p.op = "REGISTER"
      · have hout : ∀ c ∈ held.chain C p.label p.tld, c.entry ≠ r := by
          intro c hc heq
          exact hmissing (heq ▸ (chain_mem (holds_of_run hrun) hc).1)
        obtain ⟨c, hc, hin⟩ := htracks.others r hentry p hp hop hout
        cases hchain : held.chain C p.label p.tld with
        | nil =>
          rw [hchain] at hc
          exact absurd hc.mem List.not_mem_nil
        | cons tip below =>
          have hreleased := (accept_beside hview hacceptable hrun hr hp hop hsub hmissing hchain).1 haccept
          rw [hchains] at hout hc hchain
          exact hmissing (hin.2 (hdecided r hr p hp hop hout c hc tip (by rw [hchain]; rfl) hreleased))
      · -- nothing follows a whole chain
        have hcomplete : Complete candidateKind (view.members C p.label p.tld) (view.chain C p.label p.tld) :=
          chain_complete hholds
        have hfollows := follows_of_accept (holds_of_run hrun) hp hop haccept r
        rw [hchains] at hfollows
        exact hcomplete.last _ ⟨r, hr, p, hp, rfl, rfl, rfl⟩ hfollows

/-! ## Two views -/

/-- A view of one registration. -/
def viewOfRegister : View := View.empty.put Sample.crypto Sample.first.bytes

/-- The same view with an update behind it. -/
def viewOfUpdate : View := viewOfRegister.put Sample.crypto Sample.update.bytes

theorem accept_register : View.empty.acceptVerdict Sample.crypto Sample.first.bytes 1700000000 0 = .ok .accept := by
  decide +kernel

theorem accept_update : viewOfRegister.acceptVerdict Sample.crypto Sample.update.bytes 1700000000 0 = .ok .accept := by
  decide +kernel

/-- An acceptance is one of `verify`, against the predecessor of the record. -/
theorem verify_of_accept (haccept : view.acceptVerdict C bytes now windowCount = .ok .accept) :
    verify C bytes (view.predecessor C bytes) now windowCount = .accept := by
  obtain ⟨p, hp⟩ := acceptVerdict_parses haccept
  by_cases hop : p.op = "REGISTER"
  · obtain ⟨hverify, hnone⟩ := acceptVerdict_register hp hop haccept
    rw [hnone]
    exact hverify
  · obtain ⟨tip, -, hverify, hprev⟩ := acceptVerdict_successor hp hop haccept
    rw [hprev]
    exact hverify

/-- A run at one clock. -/
def RunAt (C : Crypto) (view : View) (now windowCount : ℕ) : Prop :=
  ∃ log, Run C view log ∧ ∀ a ∈ log, verify C a.bytes a.previous now windowCount = .accept

/-- An accepted record goes on with a run at one moment. -/
theorem RunAt.step (h : RunAt C view now windowCount)
    (haccept : view.acceptVerdict C bytes now windowCount = .ok .accept) :
    RunAt C (view.put C bytes) now windowCount := by
  obtain ⟨log, hrun, hverify⟩ := h
  refine ⟨_, hrun.step haccept, ?_⟩
  intro a ha
  rcases List.mem_cons.1 ha with rfl | ha
  · exact verify_of_accept haccept
  · exact hverify a ha

/-- A view whose records were all accepted at one clock is acceptable then. -/
theorem RunAt.acceptable (h : RunAt C view now windowCount) : ∃ log, Run C view log ∧
    Acceptable C view log now windowCount := by
  obtain ⟨log, hrun, hverify⟩ := h
  refine ⟨log, hrun, ?_⟩
  intro e he
  obtain ⟨a, ha, hbytes⟩ := (holds_of_run hrun).accepted e he
  exact ⟨a, ha, hbytes, hverify a ha⟩

theorem runAt_empty : RunAt C .empty now windowCount := ⟨[], Run.empty, fun _ ha => absurd ha List.not_mem_nil⟩

theorem runAt_register : RunAt Sample.crypto viewOfRegister 1700000000 0 := runAt_empty.step accept_register

theorem runAt_update : RunAt Sample.crypto viewOfUpdate 1700000000 0 := runAt_register.step accept_update

theorem bundle_carries_register : Carries Sample.crypto viewOfRegister 1700000000 0 ↔
    Ascends Sample.crypto viewOfRegister ∧ Decided Sample.crypto viewOfRegister 1700000000 := by
  obtain ⟨log, hrun, hacceptable⟩ := runAt_register.acceptable
  have hlength : viewOfRegister.files.length < 2 ^ 64 := by decide +kernel
  exact bundle_carries_iff hrun hlength hacceptable

/-- **An UPDATE with a smaller hash than its REGISTER** is refused for want of a predecessor, and the
name's tip is lost. -/
theorem bundle_loses_update : ¬ ∀ (C : Crypto) (view : View) (log : List Acceptance) (now windowCount : ℕ),
    Run C view log → view.files.length < 2 ^ 64 → Acceptable C view log now windowCount →
      Carries C view now windowCount := by
  intro h
  obtain ⟨log, hrun, hacceptable⟩ := runAt_update.acceptable
  have hlength : viewOfUpdate.files.length < 2 ^ 64 := by decide +kernel
  obtain ⟨bundle, -, hdecode, htips, -⟩ := h Sample.crypto viewOfUpdate log 1700000000 0 hrun hlength hacceptable
  have htip := htips "observatory-lantern" "abacus"
  rw [carried, importBundle_eq (holds_of_run hrun) Run.empty hdecode] at htip
  have hlost : (View.empty.takeAll Sample.crypto 1700000000 0 viewOfUpdate.records).tipBytes Sample.crypto
      "observatory-lantern" "abacus" ≠ viewOfUpdate.tipBytes Sample.crypto "observatory-lantern" "abacus" := by
    decide +kernel
  apply hlost
  rw [tipBytes, tipBytes, htip]

end View

end VayuWeb.Client
