import VayuWeb.Proof.Sample
import VayuWeb.Proof.ViewGrow

/-!
# The tip of a chain

* `signer_key_iff`: when the view names the key that the tip was verified under.
* `becomes_tip_iff`: when an accepted record becomes the tip.
* `judge_held_tip_iff`: when the reading gate accepts what the writing gate accepted.
-/

namespace VayuWeb.Client

open Bytes
open Lineage (Complete Follows)

namespace View

variable {C : Crypto} {view : View} {bytes : Bytes} {p : ParsedRecord} {now windowCount : ℕ} {log : List Acceptance}
  {label tld : String}

/-! ## Who signed the tip -/

/-- The record hands over again what a TRANSFER that had not settled handed over. -/
def Redirects (previous : Option PrevView) (p : ParsedRecord) : Prop :=
  p.op = "TRANSFER" ∧ ∃ prev ∈ previous, prev.opText = "TRANSFER" ∧ p.notBefore < add prev.notBefore settlementSeconds

/-- What the view knows of a record is known of it once and for all, but for who signed it, and that too. -/
theorem PrevOf.unique (h : view.Holds C log) {entry : Entry} {record record' : ParsedRecord} {prev prev' : PrevView}
    (hof : view.PrevOf entry record prev) (hof' : view.PrevOf entry record' prev') :
    record = record' ∧ prev = prev' := by
  have hrecord : record = record' := by
    have heq := hof.parsed.symm.trans hof'.parsed
    exact Except.ok.inj heq
  subst hrecord
  have hkey : prev.signerKey = prev'.signerKey := by
    by_cases hop : record.op = "TRANSFER"
    · obtain ⟨below, hbelow, r, hr, hhash, hkey⟩ := hof.transferor hop
      obtain ⟨below', hbelow', r', hr', hhash', hkey'⟩ := hof'.transferor hop
      obtain rfl : below = below' := h.inj _ hbelow _ hbelow' (hhash.symm.trans hhash')
      rw [hr, Except.ok.injEq] at hr'
      rw [hkey, hkey', hr']
    · rw [hof.owner hop, hof'.owner hop]
  refine ⟨rfl, ?_⟩
  rw [hof.fields, hof'.fields, hkey]

/-- A held TRANSFER names another owner than the record below it. -/
theorem transferor_ne_owner (h : view.Holds C log) {entry : Entry} {record : ParsedRecord} {prev : PrevView}
    (hentry : entry ∈ view.files) (hof : view.PrevOf entry record prev) (hop : record.op = "TRANSFER") :
    prev.signerKey ≠ prev.ownerKey := by
  obtain ⟨a, ha, hbytes⟩ := h.accepted entry hentry
  obtain ⟨p, hp, hsettled⟩ := h.settled a ha
  rw [hbytes, hof.parsed, Except.ok.injEq] at hp
  subst hp
  obtain ⟨below, hbelow, r, hr, hhash, hkey⟩ := hof.transferor hop
  rcases hsettled with ⟨hok, -⟩ | ⟨prev', entry', record', -, hok, hentry', hof', -⟩
  · rw [hok.op] at hop
    exact absurd hop (by decide)
  · -- both its predecessor at its acceptance and the record below it now are the one it names
    have hprevHash : record.prevHash = prev'.hash := prevHash_of_matches hof.parsed hok.prevHash
    have hhash' : prev'.hash = entry'.hash := by rw [hof'.fields]
    obtain rfl : below = entry' := h.inj _ hbelow _ hentry' (hhash.symm.trans (hprevHash.trans hhash'))
    have howner' : prev'.ownerKey = record'.ownerKey := by rw [hof'.fields]
    have howner : prev.ownerKey = record.ownerKey := by rw [hof.fields]
    have hsame := hof'.parsed
    rw [hr, Except.ok.injEq] at hsame
    rw [hkey, howner, hsame, ← howner']
    exact (hok.owner_ne hop).symm

/-- **Who signed the tip.** The view names the key that a tip was verified under at its acceptance,
except where the tip redirects a TRANSFER inside its settlement window. -/
theorem signer_key_iff (h : Run C view log) {tip : Tip} (htip : view.chainTip C label tld = .ok (some tip)) :
    (∃ a ∈ log, a.bytes = tip.entry.bytes) ∧ ∀ a ∈ log, a.bytes = tip.entry.bytes →
      ∃ p, parseBytes a.bytes = .ok p ∧ SignedUnder C p (signingKey a.previous p) ∧
        (tip.prev.signerKey = signingKey a.previous p ↔ ¬ Redirects a.previous p) := by
  have hholds := holds_of_run h
  obtain ⟨candidate, below, record, hchain, hentry, hof, -, -⟩ := chain_of_chainTip hholds htip
  have hfile : tip.entry ∈ view.files := by
    rw [← hentry]
    exact (chain_mem hholds (mem_of_chain hchain)).1
  refine ⟨hholds.accepted _ hfile, ?_⟩
  intro a ha hbytes
  obtain ⟨p, hp, hsettled⟩ := hholds.settled a ha
  have hrecord : p = record := by
    rw [hbytes, hof.parsed] at hp
    exact (Except.ok.inj hp).symm
  subst hrecord
  refine ⟨p, hp, ?_⟩
  have hownerTip : tip.prev.ownerKey = p.ownerKey := by rw [hof.fields]
  -- a REGISTER has no predecessor and is signed by its own owner
  rcases hsettled with ⟨hok, hnone⟩ | ⟨prev, entry, parent, hprev, hok, hentry', hof', -⟩
  · have hop : p.op ≠ "TRANSFER" := by
      rw [hok.op]
      decide
    rw [hnone]
    refine ⟨hok.signed, iff_of_true (hof.owner hop) ?_⟩
    intro hredirects
    exact hop hredirects.1
  · rw [hprev]
    refine ⟨hok.signed, ?_⟩
    have howner : prev.ownerKey = parent.ownerKey := by rw [hof'.fields]
    have hhash : prev.hash = entry.hash := by rw [hof'.fields]
    have hprevOp : prev.opText = parent.op := by rw [hof'.fields]
    by_cases hop : p.op = "TRANSFER"
    · -- the view names the owner of the record below, which is the predecessor of the acceptance
      obtain ⟨below', hbelow', r, hr, hbelowHash, hkey⟩ := hof.transferor hop
      have hprevHash : p.prevHash = prev.hash := prevHash_of_matches hp hok.prevHash
      obtain rfl : below' = entry :=
        hholds.inj _ hbelow' _ hentry' (hbelowHash.symm.trans (hprevHash.trans hhash))
      have hsame := hof'.parsed
      rw [hr, Except.ok.injEq] at hsame
      rw [hkey, hsame, ← howner]
      unfold signingKey controllingKey Redirects
      by_cases hwindow : prev.opText = "TRANSFER" ∧ p.notBefore < add prev.notBefore settlementSeconds
      · simp only [if_pos hwindow]
        refine iff_of_false ?_ ?_
        · exact (transferor_ne_owner hholds hentry' hof' (hprevOp.symm.trans hwindow.1)).symm
        · intro hnot
          exact hnot ⟨hop, prev, rfl, hwindow⟩
      · simp only [if_neg hwindow]
        refine iff_of_true trivial ?_
        intro ⟨_, prev', hprev', hwindow'⟩
        rw [Option.mem_some_iff] at hprev'
        subst hprev'
        exact hwindow hwindow'
    -- an operation other than TRANSFER is not accepted while one settles, so both keys are the owner's
    · refine iff_of_true ?_ fun hredirects => hop hredirects.1
      rw [hof.owner hop, hok.owner_eq hop]
      unfold signingKey controllingKey
      have hsettled := hok.settled
      simp only [isUnsettled, settlesAt] at hsettled
      by_cases htransfer : prev.opText = "TRANSFER"
      · simp only [htransfer, if_true, hop, ne_eq, not_false_eq_true, decide_true, Bool.and_true,
          decide_eq_false_iff_not] at hsettled
        simp only [if_neg fun hwindow : prev.opText = "TRANSFER" ∧ _ => hsettled hwindow.2]
      · simp only [if_neg fun hwindow : prev.opText = "TRANSFER" ∧ _ => htransfer hwindow.1]

/-- The first owner redirects `transfer` to the owner of `rival`, 300 seconds after it. -/
def redirect : Sample.SampleRecord :=
  { op := .transfer, owner := Sample.ownerC, seq := 2, notBefore := 1699914200, notAfter := 1731449600,
    nonce := none,
    prevHash := Sample.literal 32 0xf4960f1404fedec0102d7bf68e7b7cd8acebf9c973e41bedc96bc9f3b9073808,
    sig :=
      Sample.literal 32 0x9d2f25d5f9093d55744f6f12b307a4394fa43082e25dcd276af60e436208e0f4 ++
        Sample.literal 32 0x49700bea162077edc354b9b19e777e290e7fd3f9bc8890d7a3782f852bad3a09,
    coSigNull := false
    coSig :=
      some (Sample.literal 32 0x04aad7a74cc74bea91bbc65112d87ba49d1803092d5a9ad9e58fbe04558e5e46 ++
        Sample.literal 32 0x2ee45e2b93d8ed1ca308e501ab53d0aee58e9462b0ea67ccb546578d70418105)
    signer := Sample.ownerA }

/-- The sample primitives, on `redirect` too. -/
def redirectCrypto : Crypto :=
  { Sample.crypto with
    ed25519Verify := fun signature message publicKey =>
      Sample.crypto.ed25519Verify signature message publicKey ||
        ((redirect.sig = signature && redirect.signer = publicKey ||
          redirect.coSig = some signature && redirect.owner = publicKey) && redirect.message = message)
    blake2b := fun bytes =>
      if bytes = withDomain recordHashPrefix redirect.bytes [] then
        Sample.literal 32 0x2911b8e38228409bbae7bf3f37ff95df3256b89fa81d23bd1089f9082d5856cf
      else Sample.crypto.blake2b bytes
    length_blake2b := by
      intro bytes
      split_ifs
      · rfl
      · exact Sample.crypto.length_blake2b bytes }

/-- The view of a registration, and of its TRANSFER. -/
def viewOfFirst : View := View.empty.put redirectCrypto Sample.first.bytes

/-- A view of a registration and a transfer. -/
def viewOfTransfer : View := viewOfFirst.put redirectCrypto Sample.transfer.bytes

theorem accept_first : View.empty.acceptVerdict redirectCrypto Sample.first.bytes 1700000000 0 = .ok .accept := by
  decide +kernel

theorem accept_transfer :
    viewOfFirst.acceptVerdict redirectCrypto Sample.transfer.bytes 1700000000 0 = .ok .accept := by
  decide +kernel

theorem tip_transfer : (viewOfTransfer.chainTip redirectCrypto "observatory-lantern" "abacus").map
    (Option.map fun tip => (tip.entry.bytes, tip.prev.signerKey)) =
      .ok (some (Sample.transfer.bytes, Sample.ownerA)) := by
  decide +kernel

theorem run_first : ∃ log, Run redirectCrypto viewOfFirst log := ⟨_, Run.empty.step accept_first⟩

theorem run_transfer : ∃ log, Run redirectCrypto viewOfTransfer log := by
  obtain ⟨log, hrun⟩ := run_first
  exact ⟨_, hrun.step accept_transfer⟩

theorem signer_key_transfer : ∃ log tip, Run redirectCrypto viewOfTransfer log ∧
    viewOfTransfer.chainTip redirectCrypto "observatory-lantern" "abacus" = .ok (some tip) ∧
    ∃ a ∈ log, ∃ p, parseBytes a.bytes = .ok p ∧ SignedUnder redirectCrypto p (signingKey a.previous p) ∧
      (tip.prev.signerKey = signingKey a.previous p ↔ ¬ Redirects a.previous p) := by
  obtain ⟨log, hrun⟩ := run_transfer
  obtain ⟨tip, htip, -⟩ := exists_tip tip_transfer
  obtain ⟨⟨a, ha, hbytes⟩, hall⟩ := signer_key_iff hrun htip
  exact ⟨log, tip, hrun, htip, a, ha, hall a ha hbytes⟩

/-- The view names the recipient of the first TRANSFER, whose key did not sign the second. -/
theorem signer_key_wrong : ¬ ∀ (C : Crypto) (view : View) (log : List Acceptance) (label tld : String) (tip : Tip),
    Run C view log → view.chainTip C label tld = .ok (some tip) → ∀ a ∈ log, a.bytes = tip.entry.bytes →
      ∀ p, parseBytes a.bytes = .ok p → tip.prev.signerKey = signingKey a.previous p := by
  intro h
  obtain ⟨log, hrun⟩ := run_transfer
  have haccept : viewOfTransfer.acceptVerdict redirectCrypto redirect.bytes 1700000000 0 = .ok .accept := by
    decide +kernel
  have htip : ((viewOfTransfer.put redirectCrypto redirect.bytes).chainTip redirectCrypto "observatory-lantern"
      "abacus").map (Option.map fun tip => (tip.entry.bytes, tip.prev.signerKey)) =
        .ok (some (redirect.bytes, Sample.ownerB)) := by
    decide +kernel
  have hkey : (parseBytes redirect.bytes).map
      (signingKey (viewOfTransfer.predecessor redirectCrypto redirect.bytes)) = .ok Sample.ownerA := by
    decide +kernel
  generalize redirect.bytes = bytes at haccept htip hkey
  obtain ⟨tip, htip, hprod⟩ := exists_tip htip
  obtain ⟨hbytes, hsigner⟩ := Prod.mk.inj hprod
  cases hp : parseBytes bytes with
  | error verdict => simp [hp, Except.map] at hkey
  | ok p =>
    rw [hp] at hkey
    have heq := h _ _ _ _ _ tip (hrun.step haccept) htip _ List.mem_cons_self hbytes.symm p hp
    rw [hsigner, Except.ok.inj hkey] at heq
    exact absurd heq (by decide)

/-! ## Becoming the tip -/

/-- The view has these bytes as the tip of their name's chain, and serves what they select. -/
def HasTip (C : Crypto) (view : View) (p : ParsedRecord) (bytes : Bytes) : Prop :=
  (∃ tip, view.chainTip C p.label p.tld = .ok (some tip) ∧ tip.entry.bytes = bytes) ∧
    view.resolvedPointer C p.label p.tld = pointerOf p.label p.tld bytes

/-- A record is the tip exactly where it ends the chain. -/
theorem hasTip_iff (h : view.Holds C log) : HasTip C view p bytes ↔
    ∃ candidate below, view.chain C p.label p.tld = candidate :: below ∧ candidate.entry.bytes = bytes := by
  constructor
  · intro ⟨⟨tip, htip, hbytes⟩, _⟩
    obtain ⟨candidate, below, -, hchain, hentry, -⟩ := chain_of_chainTip h htip
    exact ⟨candidate, below, hchain, by rw [hentry, hbytes]⟩
  · intro ⟨candidate, below, hchain, hbytes⟩
    obtain ⟨-, prev, htip, -⟩ := chainTip_eq h hchain
    refine ⟨⟨_, htip, hbytes⟩, ?_⟩
    unfold resolvedPointer
    rw [hchain, ← hbytes]

/-- **An accepted successor is the next of its chain.** -/
theorem successor_hasTip (h : view.Holds C log) (hp : parseBytes bytes = .ok p) (hop : p.op ≠ "REGISTER")
    (haccept : view.acceptVerdict C bytes now windowCount = .ok .accept)
    (hfree : ∀ e ∈ view.files, e.hash = recordHashFromBytes C bytes → e.bytes = bytes) :
    HasTip C (view.put C bytes) p bytes := by
  have hcomplete : Complete candidateKind (view.members C p.label p.tld) (view.chain C p.label p.tld) :=
    chain_complete h
  have hnew : ∀ e ∈ view.files, e.hash ≠ recordHashFromBytes C bytes := by
    intro e he heq
    have hbytes := hfree e he heq
    exact hcomplete.last _ ⟨e, he, p, hbytes ▸ hp, rfl, rfl, rfl⟩ (follows_of_accept h hp hop haccept e)
  rcases put_cases C view bytes with ⟨⟨e, he, heq⟩, -⟩ | ⟨-, hfiles⟩
  · exact absurd heq (hnew e he)
  · have hstep := h.step haccept
    rw [hasTip_iff hstep]
    exact ⟨_, _, chain_put_successor h hstep hp hop haccept hnew hfiles, rfl⟩

/-- When an accepted record takes its name over: no other record of its hash is held, and a
registration is the tip already, or new and of a smaller hash than every registration held. -/
def TakesOver (C : Crypto) (view : View) (p : ParsedRecord) (bytes : Bytes) : Prop :=
  (∀ e ∈ view.files, e.hash = recordHashFromBytes C bytes → e.bytes = bytes) ∧
    (p.op = "REGISTER" →
      (∃ tip, view.chainTip C p.label p.tld = .ok (some tip) ∧ tip.entry.bytes = bytes) ∨
        ∀ e ∈ view.files, e.bytes ≠ bytes ∧ ∀ r, parseBytes e.bytes = .ok r → r.op = "REGISTER" →
          r.label = p.label → r.tld = p.tld → recordHashFromBytes C bytes < e.hash)

/-- A new registration takes over when it is the smallest. -/
theorem register_hasTip (h : view.Holds C log) (hp : parseBytes bytes = .ok p) (hseq : p.seq = 0)
    (haccept : view.acceptVerdict C bytes now windowCount = .ok .accept)
    (hnew : ∀ e ∈ view.files, e.hash ≠ recordHashFromBytes C bytes) :
    HasTip C (view.put C bytes) p bytes ↔ ∀ e ∈ view.files, ∀ r, parseBytes e.bytes = .ok r →
      r.op = "REGISTER" → r.label = p.label → r.tld = p.tld → recordHashFromBytes C bytes < e.hash := by
  have hstep := h.step haccept
  have hcomplete' : Complete candidateKind ((view.put C bytes).members C p.label p.tld)
      ((view.put C bytes).chain C p.label p.tld) := chain_complete hstep
  obtain ⟨-, hfiles⟩ := (put_cases C view bytes).resolve_left (fun ⟨⟨e, he, heq⟩, _⟩ => hnew e he heq)
  rw [hasTip_iff hstep]
  constructor
  · -- a smaller registration keeps its place, and with it the chain that the view had
    intro ⟨candidate, below, hchain', hbytes⟩ e he r hr hrop hlabel htld
    by_contra hge
    have hcomplete : Complete candidateKind (view.members C p.label p.tld) (view.chain C p.label p.tld) :=
      chain_complete h
    have hmem : candidateOf C e r ∈ view.members C p.label p.tld := ⟨e, he, r, hr, hlabel, htld, rfl⟩
    have hle : (candidateOf C e r).hash ≤ recordHashFromBytes C bytes := by
      have hhash := h.hash e he
      rw [hhash] at hge
      exact Std.not_lt.1 hge
    have hkeep := hcomplete.keep (b := candidateOf C { hash := recordHashFromBytes C bytes, bytes := bytes } p) hseq
      hmem ((op_of_seq_zero h he hr).2 hrop) hle
    rw [← members_put hp hfiles] at hkeep
    rw [hcomplete'.unique (members_injOn hstep) hkeep] at hchain'
    obtain ⟨hfile, -⟩ := chain_mem h (hchain' ▸ List.mem_cons_self : candidate ∈ view.chain C p.label p.tld)
    exact hnew _ hfile (by rw [h.hash _ hfile, hbytes])
  · intro hsmallest
    have hreopen : Complete candidateKind (insert
        (candidateOf C { hash := recordHashFromBytes C bytes, bytes := bytes } p) (view.members C p.label p.tld))
        [candidateOf C { hash := recordHashFromBytes C bytes, bytes := bytes } p] := by
      apply Complete.reopen hseq
      · intro d hd hslot
        rcases Set.mem_insert_iff.1 hd with rfl | ⟨e, he, r, hr, hlabel, htld, rfl⟩
        · exact List.le_refl _
        · have hlt := hsmallest e he r hr ((op_of_seq_zero h he hr).1 hslot) hlabel htld
          rw [h.hash e he] at hlt
          exact Std.le_of_lt hlt
      · intro d hd
        exact not_follows_new h hnew hd hseq
    rw [← members_put hp hfiles] at hreopen
    exact ⟨_, _, hcomplete'.unique (members_injOn hstep) hreopen, rfl⟩

/-- **An accepted record becomes the tip** exactly when it takes its name over. -/
theorem becomes_tip_iff (h : Run C view log) (haccept : view.acceptVerdict C bytes now windowCount = .ok .accept) :
    ∃ p, parseBytes bytes = .ok p ∧ (HasTip C (view.put C bytes) p bytes ↔ TakesOver C view p bytes) := by
  have hholds := holds_of_run h
  have hstep := hholds.step haccept
  obtain ⟨p, hp⟩ := acceptVerdict_parses haccept
  refine ⟨p, hp, ?_⟩
  constructor
  · intro htip
    have hfree : ∀ e ∈ view.files, e.hash = recordHashFromBytes C bytes → e.bytes = bytes := by
      intro e he heq
      obtain ⟨candidate, below, hchain, hbytes⟩ := (hasTip_iff hstep).1 htip
      obtain ⟨hfile, -⟩ := chain_mem hstep
        (mem_of_chain hchain)
      have hsame : e = candidate.entry := by
        apply hstep.inj e (files_put_subset C view bytes he) _ hfile
        rw [heq, hstep.hash _ hfile, hbytes]
      rw [hsame, hbytes]
    refine ⟨hfree, ?_⟩
    intro hop
    obtain ⟨hverify, -⟩ := acceptVerdict_register hp hop haccept
    -- accepted and not stored again: it was there already
    rcases put_cases C view bytes with ⟨-, hput⟩ | ⟨hnew, -⟩
    · rw [hput] at htip
      exact Or.inl htip.1
    · right
      have hsmallest := (register_hasTip hholds hp (register_of_accept hp hop hverify).seq haccept hnew).1 htip
      intro e he
      refine ⟨?_, hsmallest e he⟩
      intro hbytes
      exact hnew e he (by rw [hholds.hash e he, hbytes])
  · intro ⟨hfree, htakes⟩
    by_cases hop : p.op = "REGISTER"
    · obtain ⟨hverify, -⟩ := acceptVerdict_register hp hop haccept
      rcases htakes hop with ⟨tip, htip, hbytes⟩ | hall
      · -- the incumbent is judged again, and nothing is written
        obtain ⟨candidate, below, -, hchain, hentry, -⟩ := chain_of_chainTip hholds htip
        obtain ⟨hfile, -⟩ := chain_mem hholds
          (mem_of_chain hchain)
        have hheld : candidate.entry.hash = recordHashFromBytes C bytes := by
          rw [hholds.hash _ hfile, hentry, hbytes]
        rcases put_cases C view bytes with ⟨-, hput⟩ | ⟨hnew, -⟩
        · rw [hput, hasTip_iff hholds]
          exact ⟨candidate, below, hchain, by rw [hentry, hbytes]⟩
        · exact absurd hheld (hnew _ hfile)
      · have hnew : ∀ e ∈ view.files, e.hash ≠ recordHashFromBytes C bytes := by
          intro e he heq
          exact (hall e he).1 (hfree e he heq)
        rw [register_hasTip hholds hp (register_of_accept hp hop hverify).seq haccept hnew]
        intro e he
        exact (hall e he).2
    · exact successor_hasTip hholds hp hop haccept hfree

theorem becomes_tip_transfer : ∃ p, parseBytes Sample.transfer.bytes = .ok p ∧
    (HasTip redirectCrypto viewOfTransfer p Sample.transfer.bytes ↔
      TakesOver redirectCrypto viewOfFirst p Sample.transfer.bytes) := by
  obtain ⟨log, hrun⟩ := run_first
  exact becomes_tip_iff hrun accept_transfer

/-- Once `first` is released its owner registers the name again, and the view goes on serving the
released registration, whose hash is the smaller one. -/
theorem released_stays_tip : ¬ ∀ (C : Crypto) (view : View) (log : List Acceptance) (bytes : Bytes)
    (now windowCount : ℕ) (p : ParsedRecord), Run C view log →
      view.acceptVerdict C bytes now windowCount = .ok .accept → parseBytes bytes = .ok p →
        ∃ tip, (view.put C bytes).chainTip C p.label p.tld = .ok (some tip) ∧ tip.entry.bytes = bytes := by
  intro h
  obtain ⟨log, hrun⟩ := run_first
  have haccept : viewOfFirst.acceptVerdict redirectCrypto Sample.again.bytes 1736633600 0 = .ok .accept := by
    decide +kernel
  have htip : ((viewOfFirst.put redirectCrypto Sample.again.bytes).chainTip redirectCrypto "observatory-lantern"
      "abacus").map (Option.map fun tip => decide (tip.entry.bytes = Sample.again.bytes)) = .ok (some false) := by
    decide +kernel
  have hname : (parseBytes Sample.again.bytes).map (fun p => (p.label, p.tld)) =
      .ok ("observatory-lantern", "abacus") := by
    decide +kernel
  generalize Sample.again.bytes = bytes at haccept htip hname
  cases hp : parseBytes bytes with
  | error verdict => simp [hp, Except.map] at hname
  | ok p =>
    rw [hp] at hname
    obtain ⟨hlabel, htld⟩ := Prod.mk.inj (Except.ok.inj hname)
    obtain ⟨tip, hreplayed, hbytes⟩ := h _ _ _ _ _ _ p hrun haccept hp
    obtain ⟨held, hheld, hheldBytes⟩ := exists_tip htip
    rw [hlabel, htld, hheld, Except.ok.injEq, Option.some.injEq] at hreplayed
    rw [hreplayed] at hheldBytes
    exact absurd hbytes (of_decide_eq_false hheldBytes)

/-! ## The reading gate -/

/-- The view of the record below a tip that the gate makes, with the key it takes for its signer. -/
def gateView (record : ParsedRecord) (hash key : Bytes) : PrevView :=
  { opText := record.op, seq := record.seq, notBefore := record.notBefore, notAfter := record.notAfter,
    ownerKey := record.ownerKey, signerKey := key, suite := record.suite, hash := hash, revoked := false }

section Gate

variable {tip before : Candidate} {settlers : List Candidate} {record : ParsedRecord}

/-- A held REGISTER is judged as if nothing were known. -/
theorem judgeHeldTip_register {below : List Candidate} (hchain : view.chain C label tld = tip :: below)
    (hp : parseBytes tip.entry.bytes = .ok p) (hop : p.op = "REGISTER") :
    view.judgeHeldTip C label tld now windowCount = .ok (verify C tip.entry.bytes none now windowCount) := by
  unfold judgeHeldTip
  simp only [hchain, peek_eq hp, Except.ok_bind, if_pos hop, Except.pure_eq_ok]

/-- A tip that is no TRANSFER is judged as if the owner of the record below had signed that record. -/
theorem judgeHeldTip_owner (hchain : view.chain C label tld = tip :: before :: settlers)
    (hp : parseBytes tip.entry.bytes = .ok p) (hrecord : parseBytes before.entry.bytes = .ok record)
    (hop : p.op ≠ "REGISTER") (htransfer : p.op ≠ "TRANSFER") :
    view.judgeHeldTip C label tld now windowCount =
      .ok (verify C tip.entry.bytes (some (gateView record before.hash record.ownerKey)) now windowCount) := by
  unfold judgeHeldTip
  simp only [hchain, peek_eq hp, Except.ok_bind, if_neg hop, if_neg htransfer, ownerOf_eq hrecord, peek_eq hrecord,
    notAfterOf_eq hrecord, suiteOf_eq hrecord, Except.pure_eq_ok]
  rfl

/-- A TRANSFER is judged as if the owner of the record two below had signed the record below. -/
theorem judgeHeldTip_transfer {settler : Candidate} {r : ParsedRecord}
    (hchain : view.chain C label tld = tip :: before :: settler :: settlers)
    (hp : parseBytes tip.entry.bytes = .ok p) (hrecord : parseBytes before.entry.bytes = .ok record)
    (hr : parseBytes settler.entry.bytes = .ok r) (hop : p.op = "TRANSFER") :
    view.judgeHeldTip C label tld now windowCount =
      .ok (verify C tip.entry.bytes (some (gateView record before.hash r.ownerKey)) now windowCount) := by
  have hregister : p.op ≠ "REGISTER" := by
    rw [hop]
    decide
  unfold judgeHeldTip
  simp only [hchain, peek_eq hp, Except.ok_bind, if_neg hregister, if_pos hop, ownerOf_eq hr, ownerOf_eq hrecord,
    peek_eq hrecord, notAfterOf_eq hrecord, suiteOf_eq hrecord, Except.pure_eq_ok]
  rfl

/-- A TRANSFER that is the second record of its chain is no tip to the gate. -/
theorem judgeHeldTip_second (hchain : view.chain C label tld = [tip, before])
    (hp : parseBytes tip.entry.bytes = .ok p) (hop : p.op = "TRANSFER") :
    view.judgeHeldTip C label tld now windowCount = .error "a stored TRANSFER cannot be seq 0" := by
  have hregister : p.op ≠ "REGISTER" := by
    rw [hop]
    decide
  unfold judgeHeldTip
  simp only [hchain, peek_eq hp, Except.ok_bind, if_neg hregister, if_pos hop, Except.error_bind]

end Gate

/-- How the gate judges the tip of a run, at any clock. -/
inductive Judged (C : Crypto) (view : View) (label tld : String) (a : Acceptance) (p : ParsedRecord) : Prop
  | registered (op : p.op = "REGISTER") (previous : a.previous = none)
      (judge : ∀ now windowCount,
        view.judgeHeldTip C label tld now windowCount = .ok (verify C a.bytes none now windowCount))
  | second (op : p.op = "TRANSFER") (seq : p.seq = 1)
      (judge : ∀ now windowCount,
        view.judgeHeldTip C label tld now windowCount = .error "a stored TRANSFER cannot be seq 0")
  | follows (prev : PrevView) (key : Bytes) (op : p.op ≠ "REGISTER") (later : ¬ (p.op = "TRANSFER" ∧ p.seq = 1))
      (previous : a.previous = some prev) (key_eq : p.op = "TRANSFER" → prev.opText = "TRANSFER" → key = prev.signerKey)
      (judge : ∀ now windowCount, view.judgeHeldTip C label tld now windowCount =
        .ok (verify C a.bytes (some { prev with signerKey := key, revoked := false }) now windowCount))

/-- The gate's view of the record below the tip is that of the acceptance, but for the signer at most. -/
theorem judged_of_run (h : view.Holds C log) {candidate : Candidate} {below : List Candidate}
    (hchain : view.chain C label tld = candidate :: below) {a : Acceptance} (ha : a ∈ log)
    (hbytes : a.bytes = candidate.entry.bytes) (hp : parseBytes a.bytes = .ok p) : Judged C view label tld a p := by
  have hpTip : parseBytes candidate.entry.bytes = .ok p := hbytes ▸ hp
  obtain ⟨hslot, hbelow⟩ := chain_below h (suffix_of_chain hchain) hpTip
  obtain ⟨p', hp', hsettled⟩ := h.settled a ha
  obtain rfl : p' = p := Except.ok.inj (hp'.symm.trans hp)
  rcases hsettled with ⟨hok, hnone⟩ | ⟨prev, entry, record, hprev, hok, hentry, hof, -, -⟩
  · refine .registered hok.op hnone ?_
    intro now windowCount
    rw [judgeHeldTip_register hchain hpTip hok.op, hbytes]
  · cases below with
    | nil =>
      have hfile := (chain_mem h (mem_of_chain hchain)).1
      exact absurd ((op_of_seq_zero h hfile hpTip).1 hslot) hok.op
    | cons before settlers =>
      -- the record below is the one that the record was accepted against
      obtain ⟨hprevHash, hbeforeFile, -⟩ := hbelow before rfl
      have hsame : before.entry = entry := by
        apply h.inj _ hbeforeFile _ hentry
        have hhash : prev.hash = entry.hash := by rw [hof.fields]
        rw [← hprevHash, prevHash_of_matches hp hok.prevHash, hhash]
      have hrecord : parseBytes before.entry.bytes = .ok record := hsame ▸ hof.parsed
      have hbeforeHash : before.hash = entry.hash := by
        rw [← hsame]
        exact (chain_mem h ((suffix_of_chain hchain).subset (List.mem_cons_of_mem _ List.mem_cons_self))).2.1
      have hgate : ∀ key, gateView record before.hash key = { prev with signerKey := key, revoked := false } := by
        intro key
        rw [hof.fields, hbeforeHash]
        rfl
      have hseq : p'.seq = settlers.length + 1 := hslot
      by_cases htransfer : p'.op = "TRANSFER"
      · cases settlers with
        | nil =>
          refine .second htransfer hseq ?_
          intro now windowCount
          exact judgeHeldTip_second hchain hpTip htransfer
        | cons settler settlers =>
          -- the record two below is the one that the view named as the transferor's
          have hsuffix : before :: settler :: settlers <:+ view.chain C label tld :=
            (List.suffix_cons candidate _).trans (suffix_of_chain hchain)
          obtain ⟨-, hsettler⟩ := chain_below h hsuffix hrecord
          obtain ⟨hsettlerHash, hsettlerFile, r, hr⟩ := hsettler settler rfl
          refine .follows prev r.ownerKey hok.op ?_ hprev ?_ ?_
          · intro ⟨_, hone⟩
            rw [List.length_cons] at hseq
            omega
          · intro _ hprevOp
            have hrecordOp : record.op = "TRANSFER" := by
              rw [hof.fields] at hprevOp
              exact hprevOp
            obtain ⟨settled, hsettledFile, r', hr', hhash, hkey⟩ := hof.transferor hrecordOp
            have hentries : settled = settler.entry :=
              h.inj _ hsettledFile _ hsettlerFile (hhash.symm.trans hsettlerHash)
            rw [hentries, hr, Except.ok.injEq] at hr'
            rw [hkey, hr']
          · intro now windowCount
            rw [judgeHeldTip_transfer hchain hpTip hrecord hr htransfer, hgate, hbytes]
      · refine .follows prev record.ownerKey hok.op (fun hboth => htransfer hboth.1) hprev
          (fun hop => absurd hop htransfer) ?_
        intro now windowCount
        rw [judgeHeldTip_owner hchain hpTip hrecord hok.op htransfer, hgate, hbytes]

/-- **The reading gate agrees with the writing gate** on an accepted record that became the tip,
exactly when it is no TRANSFER right above a registration. -/
theorem judge_held_tip_iff (h : Run C view log) (haccept : view.acceptVerdict C bytes now windowCount = .ok .accept)
    (hp : parseBytes bytes = .ok p) {tip : Tip}
    (htip : (view.put C bytes).chainTip C p.label p.tld = .ok (some tip)) (hbytes : tip.entry.bytes = bytes) :
    (view.put C bytes).judgeHeldTip C p.label p.tld now windowCount = .ok .accept ↔
      ¬ (p.op = "TRANSFER" ∧ p.seq = 1) := by
  have hstep := (holds_of_run h).step haccept
  obtain ⟨candidate, below, -, hchain, hentry, -, -, -⟩ := chain_of_chainTip hstep htip
  have htipBytes : bytes = candidate.entry.bytes := by rw [hentry, hbytes]
  cases judged_of_run hstep hchain List.mem_cons_self htipBytes hp with
  | registered hop _ hjudge =>
    obtain ⟨hverify, -⟩ := acceptVerdict_register hp hop haccept
    rw [hjudge, hverify]
    refine iff_of_true rfl ?_
    intro ⟨htransfer, _⟩
    rw [hop] at htransfer
    exact absurd htransfer (by decide)
  | second hop hseq hjudge =>
    rw [hjudge]
    exact iff_of_false (by simp) (fun hnot => hnot ⟨hop, hseq⟩)
  | follows prev key hop hlater hprev hkey hjudge =>
    obtain ⟨accepted, -, hverify, hpredecessor⟩ := acceptVerdict_successor hp hop haccept
    obtain rfl : accepted.prev = prev := Option.some.inj (hpredecessor.symm.trans hprev)
    rw [hjudge, verify_signerKey hp hop hverify hkey]
    exact iff_of_true rfl hlater

theorem judge_held_tip_first : ∃ p tip, parseBytes Sample.first.bytes = .ok p ∧
    viewOfFirst.chainTip redirectCrypto p.label p.tld = .ok (some tip) ∧
      (viewOfFirst.judgeHeldTip redirectCrypto p.label p.tld 1700000000 0 = .ok .accept ↔
        ¬ (p.op = "TRANSFER" ∧ p.seq = 1)) := by
  have haccept := accept_first
  have htip : (viewOfFirst.chainTip redirectCrypto "observatory-lantern" "abacus").map
      (Option.map fun tip => tip.entry.bytes) = .ok (some Sample.first.bytes) := by
    decide +kernel
  have hname : (parseBytes Sample.first.bytes).map (fun p => (p.label, p.tld)) =
      .ok ("observatory-lantern", "abacus") := by
    decide +kernel
  unfold viewOfFirst at htip ⊢
  generalize Sample.first.bytes = bytes at haccept htip hname ⊢
  obtain ⟨p, hp⟩ := acceptVerdict_parses haccept
  rw [hp] at hname
  obtain ⟨hlabel, htld⟩ := Prod.mk.inj (Except.ok.inj hname)
  obtain ⟨tip, htip, hbytes⟩ := exists_tip htip
  rw [← hlabel, ← htld] at htip
  exact ⟨p, tip, hp, htip, judge_held_tip_iff .empty haccept hp htip hbytes⟩

/-- A TRANSFER of a registration is accepted, and the gate then fails on it. -/
theorem judge_held_tip_fails : ¬ ∀ (C : Crypto) (view : View) (log : List Acceptance) (bytes : Bytes)
    (now windowCount : ℕ) (p : ParsedRecord) (tip : Tip), Run C view log →
      view.acceptVerdict C bytes now windowCount = .ok .accept → parseBytes bytes = .ok p →
        (view.put C bytes).chainTip C p.label p.tld = .ok (some tip) → tip.entry.bytes = bytes →
          (view.put C bytes).judgeHeldTip C p.label p.tld now windowCount = .ok .accept := by
  intro h
  obtain ⟨log, hrun⟩ := run_first
  have haccept := accept_transfer
  have htip := tip_transfer
  have hname : (parseBytes Sample.transfer.bytes).map (fun p => (p.label, p.tld)) =
      .ok ("observatory-lantern", "abacus") := by
    decide +kernel
  have hgate : viewOfTransfer.judgeHeldTip redirectCrypto "observatory-lantern" "abacus" 1700000000 0 ≠
      .ok .accept := by
    decide +kernel
  unfold viewOfTransfer at htip hgate
  generalize Sample.transfer.bytes = bytes at haccept htip hname hgate
  obtain ⟨p, hp⟩ := acceptVerdict_parses haccept
  rw [hp] at hname
  obtain ⟨hlabel, htld⟩ := Prod.mk.inj (Except.ok.inj hname)
  obtain ⟨tip, htip, hfields⟩ := exists_tip htip
  rw [← hlabel, ← htld] at htip hgate
  exact hgate (h _ _ _ _ _ _ p tip hrun haccept hp htip (Prod.mk.inj hfields).1)

end View

end VayuWeb.Client
