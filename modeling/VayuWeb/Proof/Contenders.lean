import VayuWeb.Proof.Sample
import VayuWeb.Proof.TakeIn

/-!
# Registration races in the client

Among the records it holds the view takes the registration of the smaller hash, but it takes in
none once another holds the name.

* `chain_of_contenders`: a view of contenders has the smallest of them as its tip.
* `contenders_converge_iff`: when every order of import ends with the same tip.
-/

namespace VayuWeb.Client

open Bytes
open Lineage (Complete Follows)

namespace View

variable {C : Crypto} {view : View} {bytes : Bytes} {p : ParsedRecord} {now windowCount : ℕ} {log : List Acceptance}
  {label tld : String} {contenders : List Bytes} {winner : Bytes}

/-- A registration of the name that is accepted by itself. -/
structure Contends (C : Crypto) (label tld : String) (now windowCount : ℕ) (bytes : Bytes) : Prop where
  register : ∃ p, parseBytes bytes = .ok p ∧ p.op = "REGISTER" ∧ p.label = label ∧ p.tld = tld
  alone : View.empty.acceptVerdict C bytes now windowCount = .ok .accept

/-- The sum that ends the record's quarantine does not fit 64 bits. -/
def Wraps (bytes : Bytes) : Prop :=
  ∃ p, parseBytes bytes = .ok p ∧ 2 ^ 64 ≤ p.notAfter + graceSeconds + quarantineSeconds

/-- The contender of the smallest hash. -/
def Smallest (C : Crypto) (contenders : List Bytes) (winner : Bytes) : Prop :=
  winner ∈ contenders ∧ ∀ c ∈ contenders, recordHashFromBytes C winner ≤ recordHashFromBytes C c

/-- The view after the contenders were imported in an order. -/
def imported (C : Crypto) (now windowCount : ℕ) (order : List Bytes) : View :=
  (judgeRecords C now windowCount (order.map .bytes) .empty
    { accepted := 0, held := 0, refused := 0, deferred := 0 }).1

/-- Every two orders of import end with the contender of the smallest hash as the tip. -/
def Converge (C : Crypto) (label tld : String) (now windowCount : ℕ) (contenders : List Bytes) : Prop :=
  ∀ order order' : List Bytes, order.Perm contenders → order'.Perm contenders → ∀ winner, Smallest C contenders winner →
    (imported C now windowCount order).tipBytes C label tld = .ok (some winner) ∧
      (imported C now windowCount order').tipBytes C label tld = .ok (some winner)

/-! ## Contenders -/

theorem register_of_toOption {op : String}
    (h : (parseBytes bytes).toOption.map (fun p => (p.op, p.label, p.tld)) = some (op, label, tld)) :
    ∃ p, parseBytes bytes = .ok p ∧ p.op = op ∧ p.label = label ∧ p.tld = tld := by
  cases hp : parseBytes bytes with
  | error e => simp [hp] at h
  | ok p =>
    simp only [hp, Except.toOption_ok, Option.map_some, Option.some.injEq, Prod.mk.injEq] at h
    exact ⟨p, rfl, h.1, h.2.1, h.2.2⟩

/-- A contender is accepted where nothing is known. -/
theorem Contends.verify (h : Contends C label tld now windowCount bytes) :
    Client.verify C bytes none now windowCount = .accept := by
  obtain ⟨p, hp, hop, -, -⟩ := h.register
  exact (acceptVerdict_register hp hop h.alone).1

/-- A registration that is accepted is released only where its quarantine ends beyond 64 bits. -/
theorem fullyReleased_iff_wraps (h : Contends C label tld now windowCount bytes) {prev : PrevView}
    {entry : Entry} {record : ParsedRecord} (hentry : entry.bytes = bytes) (hof : view.PrevOf entry record prev) :
    fullyReleased prev now = true ↔ Wraps bytes := by
  obtain ⟨p, hp, hop, -, -⟩ := h.register
  have hrecord : record = p := by
    have hparsed := hof.parsed
    rw [hentry, hp, Except.ok.injEq] at hparsed
    exact hparsed.symm
  subst hrecord
  obtain ⟨hterm, hclock⟩ := term_of_accept hp hop h.verify
  obtain ⟨hskew, hbackdate⟩ := clockVerdict_eq_none.1 hclock
  have hlt := notAfter_lt hp
  have hend : quarantineEnd prev = (record.notAfter + graceSeconds + quarantineSeconds) % 2 ^ 64 := by
    have hopText : prev.opText = "REGISTER" := by
      rw [hof.fields, hop]
    have hnotAfter : prev.notAfter = record.notAfter := by
      rw [hof.fields]
    rw [quarantineEnd, hopText, hnotAfter, if_neg (by decide), add, add, Nat.mod_add_mod]
  -- a term begun within the skew of the clock is far from over, unless the sum wraps
  have hwraps : Wraps bytes ↔ 2 ^ 64 ≤ record.notAfter + graceSeconds + quarantineSeconds := by
    constructor
    · intro hwraps
      obtain ⟨p', hp', hle⟩ := hwraps
      rw [hp, Except.ok.injEq] at hp'
      exact hp' ▸ hle
    · intro hle
      exact ⟨record, hp, hle⟩
  have hterms : termSeconds = 31536000 := rfl
  have hgrace : graceSeconds = 2592000 := rfl
  have hquarantine : quarantineSeconds = 2592000 := rfl
  have hskews : saturatingAdd now maxClockSkew ≤ now + 300 := Nat.min_le_left _ _
  have hback : maxBackdate = 86400 := rfl
  rw [hwraps, fullyReleased, hend, decide_eq_true_eq]
  by_cases hle : 2 ^ 64 ≤ record.notAfter + graceSeconds + quarantineSeconds
  · rw [Nat.mod_eq_sub_mod hle, Nat.mod_eq_of_lt (by omega)]
    omega
  · rw [Nat.mod_eq_of_lt (by omega)]
    omega

/-- The candidates of a view of contenders all claim the first slot. -/
theorem members_of_contenders (hall : ∀ e ∈ view.files, Contends C label tld now windowCount e.bytes)
    {c : Candidate} (hc : c ∈ view.members C label tld) : c.seq = 0 := by
  obtain ⟨e, he, p, hp, -, -, rfl⟩ := hc
  obtain ⟨p', hp', hop, -, -⟩ := (hall e he).register
  rw [hp, Except.ok.injEq] at hp'
  subst hp'
  exact (register_of_accept hp hop (hall e he).verify).seq

/-- **A view of contenders has the smallest of them as its tip.** -/
theorem chain_of_contenders (h : view.Holds C log)
    (hall : ∀ e ∈ view.files, Contends C label tld now windowCount e.bytes) :
    (view.files = [] ∧ view.chainTip C label tld = .ok none) ∨
    ∃ tip record, view.chainTip C label tld = .ok (some tip) ∧ tip.entry ∈ view.files ∧
      view.PrevOf tip.entry record tip.prev ∧ ∀ e ∈ view.files, tip.entry.hash ≤ e.hash := by
  have hcomplete : Complete candidateKind (view.members C label tld) (view.chain C label tld) := chain_complete h
  cases hchain : view.chain C label tld with
  | nil =>
    left
    refine ⟨?_, chainTip_nil hchain⟩
    rw [List.eq_nil_iff_forall_not_mem]
    intro e he
    obtain ⟨p, hp, -, hlabel, htld⟩ := (hall e he).register
    have hmem : candidateOf C e p ∈ view.members C label tld := ⟨e, he, p, hp, hlabel, htld, rfl⟩
    rw [hchain] at hcomplete
    exact hcomplete.last _ hmem (Lineage.follows_nil.2 (members_of_contenders hall hmem))
  | cons candidate below =>
    right
    obtain ⟨hfile, hhash, -⟩ := chain_mem h (mem_of_chain hchain)
    obtain ⟨record, prev, htip, hof, -⟩ := chainTip_eq h hchain
    refine ⟨_, record, htip, hfile, hof, ?_⟩
    rw [hchain] at hcomplete
    -- nothing stands below the tip
    have hbelow : below = [] := by
      have hslot : candidate.seq = below.length := hcomplete.lineage.head_follows.1
      rw [members_of_contenders hall (hcomplete.lineage.mem List.mem_cons_self)] at hslot
      exact List.length_eq_zero_iff.1 hslot.symm
    intro e he
    obtain ⟨p, hp, -, hlabel, htld⟩ := (hall e he).register
    have hmem : candidateOf C e p ∈ view.members C label tld := ⟨e, he, p, hp, hlabel, htld, rfl⟩
    have hfollows : Follows candidateKind below (candidateOf C e p) := by
      rw [hbelow]
      exact Lineage.follows_nil.2 (members_of_contenders hall hmem)
    have hle : candidate.hash ≤ (candidateOf C e p).hash := hcomplete.lineage.head_least hmem hfollows
    have hid : (candidateOf C e p).hash = e.hash := (h.hash e he).symm
    rw [← hhash, ← hid]
    exact hle

/-! ## One contender more -/

/-- What a view of contenders does with a contender it does not hold. -/
theorem accept_contender_iff (h : view.Holds C log)
    (hall : ∀ e ∈ view.files, Contends C label tld now windowCount e.bytes)
    (hbytes : Contends C label tld now windowCount bytes) (hnew : view.holds C bytes = false) :
    view.acceptVerdict C bytes now windowCount = .ok .accept ↔
      ∀ tip, view.chainTip C label tld = .ok (some tip) → Wraps tip.entry.bytes := by
  obtain ⟨p, hp, hop, hlabel, htld⟩ := hbytes.register
  rw [acceptVerdict_register_iff h hp hop, hlabel, htld]
  simp only [hbytes.verify, true_and]
  refine forall_congr' fun tip => forall_congr' fun htip => ?_
  obtain ⟨candidate, below, record, hchain, hentry, hof, -⟩ := chain_of_chainTip h htip
  have hfile : tip.entry ∈ view.files := hentry ▸ (chain_mem h (mem_of_chain hchain)).1
  have hother : tip.entry.hash ≠ recordHashFromBytes C bytes := by
    intro heq
    have hheld : view.holds C bytes = true := holds_iff.2 ⟨tip.entry, hfile, heq⟩
    rw [hnew] at hheld
    exact absurd hheld (by simp)
  rw [fullyReleased_iff_wraps (hall _ hfile) rfl hof]
  exact or_iff_right hother

/-- Taking in a contender keeps a view of contenders. -/
theorem contenders_takeIn (hall : ∀ e ∈ view.files, Contends C label tld now windowCount e.bytes)
    (hbytes : Contends C label tld now windowCount bytes) :
    ∀ e ∈ (view.takeIn C now windowCount bytes).files, Contends C label tld now windowCount e.bytes := by
  intro e he
  rcases mem_takeIn he with he | rfl
  · exact hall e he
  · exact hbytes

/-- A tip that is not released keeps every other contender out. -/
theorem takeAll_of_tip {records : List Bytes} (h : view.Holds C log)
    (hall : ∀ e ∈ view.files, Contends C label tld now windowCount e.bytes)
    (hrecords : ∀ r ∈ records, Contends C label tld now windowCount r) {tip : Tip}
    (htip : view.chainTip C label tld = .ok (some tip)) (hwraps : ¬ Wraps tip.entry.bytes) :
    view.takeAll C now windowCount records = view := by
  induction records with
  | nil => rfl
  | cons record records ih =>
    have hsame : view.takeIn C now windowCount record = view := by
      cases hheld : view.holds C record with
      | true => exact takeIn_of_holds hheld
      | false =>
        refine takeIn_of_not_accept fun haccept => hwraps ?_
        exact (accept_contender_iff h hall (hrecords _ List.mem_cons_self) hheld).1 haccept tip htip
    rw [takeAll_cons, hsame]
    exact ih fun r hr => hrecords r (List.mem_cons_of_mem _ hr)

/-- Every contender but the winner is released, and none has the winner's hash. -/
def OthersReleased (C : Crypto) (contenders : List Bytes) (winner : Bytes) : Prop :=
  ∀ c ∈ contenders, c ≠ winner → Wraps c ∧ recordHashFromBytes C c ≠ recordHashFromBytes C winner

/-- A winner before whom all others are released is taken in, wherever it comes. -/
theorem winner_takeIn (h : view.Holds C log) (hall : ∀ e ∈ view.files, Contends C label tld now windowCount e.bytes)
    (hfiles : ∀ e ∈ view.files, e.bytes ∈ contenders) (hothers : OthersReleased C contenders winner)
    (hwinner : Contends C label tld now windowCount winner) :
    ∃ e ∈ (view.takeIn C now windowCount winner).files, e.bytes = winner := by
  cases hheld : view.holds C winner with
  | true =>
    obtain ⟨e, he, hhash⟩ := holds_iff.1 hheld
    refine ⟨e, files_takeIn_subset C now windowCount view winner he, ?_⟩
    by_contra hne
    exact (hothers e.bytes (hfiles e he) hne).2 (by rw [← h.hash e he, hhash])
  | false =>
    -- any tip that stands is another contender, and it is released
    have haccept : view.acceptVerdict C winner now windowCount = .ok .accept := by
      rw [accept_contender_iff h hall hwinner hheld]
      intro tip htip
      obtain ⟨candidate, below, record, hchain, hentry, -⟩ := chain_of_chainTip h htip
      have hfile : tip.entry ∈ view.files := hentry ▸ (chain_mem h (mem_of_chain hchain)).1
      refine (hothers _ (hfiles _ hfile) ?_).1
      intro heq
      have hin : view.holds C winner = true := holds_iff.2 ⟨tip.entry, hfile, by rw [h.hash _ hfile, heq]⟩
      rw [hheld] at hin
      exact absurd hin (by simp)
    rcases takeIn_cases C now windowCount view winner with ⟨htrue, -⟩ | ⟨-, hnot, -⟩ | ⟨-, -, heq, hput⟩
    · rw [hheld] at htrue
      exact absurd htrue (by simp)
    · exact absurd haccept hnot
    · rw [heq, hput]
      exact ⟨_, List.mem_append_right _ (List.mem_singleton.2 rfl), rfl⟩

/-! ## Every order -/

/-- Importing contenders is taking each of them in. -/
theorem imported_eq {order : List Bytes} (hcontend : ∀ c ∈ order, Contends C label tld now windowCount c) :
    imported C now windowCount order = View.empty.takeAll C now windowCount order := by
  have hparse : ∀ c ∈ order, ∃ p, parseBytes c = .ok p := by
    intro c hc
    obtain ⟨p, hp, -⟩ := (hcontend c hc).register
    exact ⟨p, hp⟩
  obtain ⟨tally, heq⟩ := judgeRecords_eq (C := C) Run.empty now windowCount hparse
    { accepted := 0, held := 0, refused := 0, deferred := 0 }
  rw [imported, heq]

/-- What a view holds after contenders were taken in. -/
theorem takeAll_files {records : List Bytes} {e : Entry} (h : e ∈ (view.takeAll C now windowCount records).files) :
    e ∈ view.files ∨ e.bytes ∈ records := by
  induction records generalizing view with
  | nil => exact Or.inl h
  | cons record records ih =>
    rcases ih h with h | h
    · rcases mem_takeIn h with h | rfl
      · exact Or.inl h
      · exact Or.inr List.mem_cons_self
    · exact Or.inr (List.mem_cons_of_mem _ h)

/-- **A winner before whom all others are released is the tip**, in every order. -/
theorem tip_of_others {order : List Bytes} (hcontend : ∀ c ∈ order, Contends C label tld now windowCount c)
    (hwinner : Smallest C order winner) (hothers : OthersReleased C order winner) :
    (View.empty.takeAll C now windowCount order).tipBytes C label tld = .ok (some winner) := by
  obtain ⟨log, hrun⟩ := Run.empty.takeAll (C := C) now windowCount order
  have hholds := holds_of_run hrun
  have hfiles : ∀ e ∈ (View.empty.takeAll C now windowCount order).files, e.bytes ∈ order := by
    intro e he
    rcases takeAll_files he with he | he
    · exact absurd he List.not_mem_nil
    · exact he
  have hall := fun e he => hcontend _ (hfiles e he)
  -- the winner is held, from its turn on
  have hheld : ∃ e ∈ (View.empty.takeAll C now windowCount order).files, e.bytes = winner := by
    obtain ⟨before, after, rfl⟩ := List.append_of_mem hwinner.1
    obtain ⟨log', hrun'⟩ := Run.empty.takeAll (C := C) now windowCount before
    have hfiles' : ∀ e ∈ (View.empty.takeAll C now windowCount before).files, e.bytes ∈ before ++ winner :: after := by
      intro e he
      rcases takeAll_files he with he | he
      · exact absurd he List.not_mem_nil
      · exact List.mem_append_left _ he
    obtain ⟨e, he, hbytes⟩ := winner_takeIn (holds_of_run hrun') (fun e he => hcontend _ (hfiles' e he)) hfiles' hothers
      (hcontend _ hwinner.1)
    have hsplit : View.empty.takeAll C now windowCount (before ++ winner :: after) =
        ((View.empty.takeAll C now windowCount before).takeIn C now windowCount winner).takeAll C now windowCount
        after := by
      simp only [takeAll, List.foldl_append, List.foldl_cons]
    rw [hsplit]
    exact ⟨e, files_takeAll_subset C now windowCount _ after he, hbytes⟩
  obtain ⟨e, he, hbytes⟩ := hheld
  rcases chain_of_contenders hholds hall with ⟨hnil, -⟩ | ⟨tip, record, htip, hfile, -, hleast⟩
  · rw [hnil] at he
    exact absurd he List.not_mem_nil
  · have hle : tip.entry.hash ≤ recordHashFromBytes C winner := by
      have hle := hleast e he
      rwa [hholds.hash e he, hbytes] at hle
    have hge := hwinner.2 _ (hfiles _ hfile)
    rw [← hholds.hash _ hfile] at hge
    have htipBytes : tip.entry.bytes = winner := by
      by_contra hne
      exact (hothers _ (hfiles _ hfile) hne).2 (by rw [← hholds.hash _ hfile, Std.le_antisymm hle hge])
    rw [tipBytes, htip]
    simp only [Except.map, Option.map_some, htipBytes]

/-- The first contender holds the name, unless it is released. -/
theorem tip_of_first (hcontend : Contends C label tld now windowCount bytes) :
    ∃ tip log, (View.empty.takeIn C now windowCount bytes).chainTip C label tld = .ok (some tip) ∧
      tip.entry.bytes = bytes ∧ Run C (View.empty.takeIn C now windowCount bytes) log := by
  obtain ⟨log, hrun⟩ := Run.empty.takeIn (C := C) now windowCount bytes
  have hfiles : (View.empty.takeIn C now windowCount bytes).files =
      [{ hash := recordHashFromBytes C bytes, bytes := bytes }] := by
    rcases takeIn_cases C now windowCount View.empty bytes with ⟨htrue, -⟩ | ⟨-, hnot, -⟩ | ⟨-, -, heq, hput⟩
    · exact absurd htrue (by simp [holds, View.empty])
    · exact absurd hcontend.alone hnot
    · rw [heq, hput]
      rfl
  rcases chain_of_contenders (holds_of_run hrun)
    (contenders_takeIn (fun e he => absurd he List.not_mem_nil) hcontend) with
    ⟨hnil, -⟩ | ⟨tip, record, htip, hfile, -⟩
  · rw [hfiles] at hnil
    simp at hnil
  · rw [hfiles] at hfile
    exact ⟨tip, log, htip, by rw [List.mem_singleton.1 hfile], hrun⟩

/-- A contender that comes first and is not released, or that has the winner's hash, keeps the winner
out. -/
theorem others_of_first {rest : List Bytes} (hcontend : ∀ c ∈ bytes :: rest, Contends C label tld now windowCount c)
    (htip : (View.empty.takeAll C now windowCount (bytes :: rest)).tipBytes C label tld = .ok (some winner))
    (hne : bytes ≠ winner) : Wraps bytes ∧ recordHashFromBytes C bytes ≠ recordHashFromBytes C winner := by
  have hbytes := hcontend _ List.mem_cons_self
  obtain ⟨first, log, hfirst, heq, hrun⟩ := tip_of_first hbytes
  obtain ⟨candidate, below, record, hchain, hentry, -⟩ := chain_of_chainTip (holds_of_run hrun) hfirst
  have hfile : first.entry ∈ (View.empty.takeIn C now windowCount bytes).files :=
    hentry ▸ (chain_mem (holds_of_run hrun) (mem_of_chain hchain)).1
  rw [takeAll_cons] at htip
  constructor
  · by_contra hwraps
    rw [takeAll_of_tip (holds_of_run hrun) (contenders_takeIn (fun e he => absurd he List.not_mem_nil) hbytes)
      (fun r hr => hcontend r (List.mem_cons_of_mem _ hr)) hfirst (by rw [heq]; exact hwraps), tipBytes, hfirst] at htip
    simp only [Except.map, Option.map_some, Except.ok.injEq, Option.some.injEq] at htip
    exact hne (heq.symm.trans htip)
  · intro hhash
    obtain ⟨log', hrun'⟩ := hrun.takeAll now windowCount rest
    have hholds := holds_of_run hrun'
    have hheld := files_takeAll_subset C now windowCount _ rest hfile
    obtain ⟨tip, htip', hwinner⟩ : ∃ tip,
        ((View.empty.takeIn C now windowCount bytes).takeAll C now windowCount rest).chainTip
        C label tld = .ok (some tip) ∧ tip.entry.bytes = winner := by
      rw [tipBytes] at htip
      exact exists_tip htip
    obtain ⟨candidate', below', record', hchain', hentry', -⟩ := chain_of_chainTip hholds htip'
    have hfile' := (chain_mem hholds (mem_of_chain hchain')).1
    rw [hentry'] at hfile'
    -- two files of one hash are one
    have hsame : first.entry = tip.entry := by
      apply hholds.inj _ hheld _ hfile'
      rw [hholds.hash _ hheld, hholds.hash _ hfile', heq, hwinner, hhash]
    rw [hsame, hwinner] at heq
    exact hne heq.symm

/-- **Every order of import ends with the contender of the smallest hash** exactly when all the
others are released, which only a sum beyond 64 bits does, and no other has its hash. -/
theorem contenders_converge_iff (hcontend : ∀ c ∈ contenders, Contends C label tld now windowCount c) :
    Converge C label tld now windowCount contenders ↔
      ∀ winner, Smallest C contenders winner → OthersReleased C contenders winner := by
  constructor
  · intro hconverge winner hwinner c hc hne
    have hperm : (c :: contenders.erase c).Perm contenders := (List.perm_cons_erase hc).symm
    have hcontend' : ∀ r ∈ c :: contenders.erase c, Contends C label tld now windowCount r :=
      fun r hr => hcontend r (hperm.mem_iff.1 hr)
    obtain ⟨htip, -⟩ := hconverge _ _ hperm hperm winner hwinner
    rw [imported_eq hcontend'] at htip
    exact others_of_first hcontend' htip hne
  · intro hothers order order' hperm hperm' winner hwinner
    have htip : ∀ records : List Bytes, records.Perm contenders →
        (imported C now windowCount records).tipBytes C label tld = .ok (some winner) := by
      intro records hrecords
      have hmem : ∀ c, c ∈ records ↔ c ∈ contenders := fun c => hrecords.mem_iff
      have hcontend' : ∀ c ∈ records, Contends C label tld now windowCount c := fun c hc => hcontend c ((hmem c).1 hc)
      rw [imported_eq hcontend']
      apply tip_of_others hcontend'
      · exact ⟨(hmem winner).2 hwinner.1, fun c hc => hwinner.2 c ((hmem c).1 hc)⟩
      · exact fun c hc hne => hothers winner hwinner c ((hmem c).1 hc) hne
    exact ⟨htip order hperm, htip order' hperm'⟩

theorem contends_first : Contends Sample.crypto "observatory-lantern" "abacus" 1700000000 0 Sample.first.bytes := by
  constructor
  · have hparse : (parseBytes Sample.first.bytes).toOption.map (fun p => (p.op, p.label, p.tld)) =
        some ("REGISTER", "observatory-lantern", "abacus") := by decide +kernel
    exact register_of_toOption hparse
  · decide +kernel

theorem contends_rival : Contends Sample.crypto "observatory-lantern" "abacus" 1700000000 0 Sample.rival.bytes := by
  constructor
  · have hparse : (parseBytes Sample.rival.bytes).toOption.map (fun p => (p.op, p.label, p.tld)) =
        some ("REGISTER", "observatory-lantern", "abacus") := by decide +kernel
    exact register_of_toOption hparse
  · decide +kernel

theorem contends_both : ∀ c ∈ [Sample.first.bytes, Sample.rival.bytes],
    Contends Sample.crypto "observatory-lantern" "abacus" 1700000000 0 c := by
  intro c hc
  rcases List.mem_pair.1 hc with rfl | rfl
  · exact contends_first
  · exact contends_rival

/-- At one contender, and at two. -/
theorem contenders_converge_one :
    (Converge Sample.crypto "observatory-lantern" "abacus" 1700000000 0 [Sample.first.bytes] ↔
      ∀ winner, Smallest Sample.crypto [Sample.first.bytes] winner →
        OthersReleased Sample.crypto [Sample.first.bytes] winner) ∧
    (Converge Sample.crypto "observatory-lantern" "abacus" 1700000000 0 [Sample.first.bytes, Sample.rival.bytes] ↔
      ∀ winner, Smallest Sample.crypto [Sample.first.bytes, Sample.rival.bytes] winner →
        OthersReleased Sample.crypto [Sample.first.bytes, Sample.rival.bytes] winner) := by
  refine ⟨contenders_converge_iff ?_, contenders_converge_iff ?_⟩
  · intro c hc
    rw [List.mem_singleton.1 hc]
    exact contends_first
  · exact contends_both

/-- **Two owners, one name**: the record of the larger hash stays the tip where it comes first. -/
theorem contenders_diverge : ¬ ∀ (C : Crypto) (label tld : String) (now windowCount : ℕ) (contenders : List Bytes),
    (contenders.Pairwise fun a b => ownerOf a ≠ ownerOf b) →
      (∀ c ∈ contenders, Contends C label tld now windowCount c) → Converge C label tld now windowCount contenders := by
  intro h
  have hconverge := h Sample.crypto "observatory-lantern" "abacus" 1700000000 0 [Sample.first.bytes, Sample.rival.bytes]
    (by decide +kernel) ?_
  · have hsmallest : Smallest Sample.crypto [Sample.first.bytes, Sample.rival.bytes] Sample.rival.bytes := by
      unfold Smallest
      decide +kernel
    obtain ⟨htip, -⟩ := hconverge _ _ (.refl _) (.refl _) _ hsmallest
    have hfirst : (imported Sample.crypto 1700000000 0 [Sample.first.bytes, Sample.rival.bytes]).tipBytes Sample.crypto
        "observatory-lantern" "abacus" ≠ .ok (some Sample.rival.bytes) := by decide +kernel
    exact hfirst htip
  · exact contends_both

end View

end VayuWeb.Client
