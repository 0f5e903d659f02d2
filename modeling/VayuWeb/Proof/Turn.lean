import VayuWeb.Proof.Control

/-!
# How a name that is not released changes hands

* `Run.relinquished`: an accepted RELINQUISH expires as it starts.
* `SuccessorOK.inTurn`: when a successor is accepted.
* `changes_in_turn`: the index entry of a name that is not fully released changes by a successor
  in its turn, or by a merge with a smaller hash; in quarantine and while revoked by a merge only.
-/

namespace VayuWeb

variable {C : Crypto} {s s' : Store} {b : Bytes} {now : ℕ} {r : RegistryRecord} {key : String}
  {held : NameEntry}

/-! ## Relinquished names -/

/-- An accepted RELINQUISH expires as it starts, along every run. -/
theorem Run.relinquished {steps : List Step} (hs : Run C steps s)
    (hheld : s.names.get? key = some held) (hop : held.current.record.op = .relinquish) :
    held.current.record.notAfter = held.current.record.notBefore := by
  refine hs.store_induction (P := fun s => ∀ key held, s.names.get? key = some held →
    held.current.record.op = .relinquish →
      held.current.record.notAfter = held.current.record.notBefore)
    (by simp [Store.empty]) ?_ key held hheld hop
  intro st ih hok key held hheld hop
  unfold Step.after at hheld
  rw [extend_names, OrdMap.get?_set] at hheld
  by_cases hkey : key = keyOf st.record
  · rw [if_pos hkey, Option.some.injEq] at hheld
    subst hheld
    change st.record.op = .relinquish at hop
    obtain ⟨ignore, input, -, ⟨hreg, -⟩ | ⟨-, p, -, hr⟩⟩ := hok.judged
    · rw [hop] at hreg
      simp at hreg
    · have hoperation := hr.operation
      unfold OperationOK at hoperation
      rw [hop] at hoperation
      exact hoperation.2
  · rw [if_neg hkey] at hheld
    exact ih key held hheld hop

/-! ## Successors -/

/-- A record follows the record that holds its name: signed by the controlling key, a RENEW
before the end of grace, any other before the end of the term, and never after the name's last
record or once it is revoked. -/
structure InTurn (C : Crypto) (held : NameEntry) (r : RegistryRecord) (now : ℕ) : Prop where
  successor : r.op ≠ .register
  follows : r.prevHash = held.current.hash ∧ r.seq = held.current.record.seq + 1
  signed : SignedBy C r (controllingKey held.current r.notBefore)
  renew : r.op = .renew → now < (lifecycleOf held.current.record).graceUntil
  live : r.op ≠ .renew → now < (lifecycleOf held.current.record).liveUntil
  notEnded : held.current.record.op ≠ .revoke ∧ held.current.record.op ≠ .relinquish
  notRevoked : held.revoked = false

/-- The three tests of `acceptsSuccessor`. -/
theorem acceptsSuccessor_eq_true {prev : RegistryRecord} {op : Operation} :
    acceptsSuccessor prev now op = true ↔ (lifecycleOf prev).revoked = false ∧
      (lifecycleOf prev).liveFrom ≤ now ∧
      (op = .renew → now < (lifecycleOf prev).graceUntil) ∧
      (op ≠ .renew → now < (lifecycleOf prev).liveUntil) := by
  unfold acceptsSuccessor
  simp only
  by_cases hrev : (lifecycleOf prev).revoked = true
  · simp [hrev]
  · by_cases hfrom : now < (lifecycleOf prev).liveFrom
    · rw [if_neg hrev, if_pos hfrom]
      simp only [Bool.false_eq_true, false_iff]
      intro h
      omega
    · have hfrom' : (lifecycleOf prev).liveFrom ≤ now := by omega
      rw [if_neg hrev, if_neg hfrom]
      by_cases hop : op = .renew
      · simp [hop, hrev, hfrom']
      · simp [hop, hrev, hfrom']

theorem liveFrom_eq (prev : RegistryRecord) : (lifecycleOf prev).liveFrom = prev.notBefore := by
  unfold lifecycleOf
  cases prev.op <;> rfl

/-- **An accepted successor comes in its turn.** -/
theorem SuccessorOK.inTurn {input : Bytes} (hr : SuccessorOK C r input held.current (s.view C) now)
    (hop : r.op ≠ .register) (hinput : signingInput r.map = .ok input)
    (hheld : s.names.get? (keyOf r) = some held)
    (hrelinquished : held.current.record.op = .relinquish →
      held.current.record.notAfter = held.current.record.notBefore) : InTurn C held r now := by
  obtain ⟨hrev, hfrom, hrenew, hlive⟩ := acceptsSuccessor_eq_true.1 hr.live
  rw [liveFrom_eq] at hfrom
  constructor
  case successor => exact hop
  case follows => exact ⟨hr.prevHash, hr.seq⟩
  case signed => exact ⟨input, hinput, hr.sig⟩
  case renew => exact hrenew
  case live => exact hlive
  case notEnded =>
    refine ⟨fun hrevoke => ?_, fun hrelinquish => ?_⟩
    · simp [lifecycleOf, hrevoke] at hrev
    · -- a RELINQUISH leaves no instant at which its name is live or in grace
      have hterm := hrelinquished hrelinquish
      simp only [lifecycleOf, hrelinquish] at hrenew hlive
      by_cases hop' : r.op = .renew
      · have := hrenew hop'
        omega
      · have := hlive hop'
        omega
  case notRevoked =>
    have hrevoked := hr.revoked
    change s.revoked r.name r.tld = false at hrevoked
    unfold Store.revoked at hrevoked
    rw [show s.names.get? (nameKey r.name r.tld) = some held from hheld] at hrevoked
    exact hrevoked

/-- Nothing comes in its turn in quarantine. -/
theorem InTurn.not_quarantine (h : InTurn C held r now) :
    stateAt held.current.record now ≠ .quarantine := by
  intro hq
  have hgrace : now < (lifecycleOf held.current.record).graceUntil := by
    by_cases hop : r.op = .renew
    · exact h.renew hop
    · have hlive := h.live hop
      obtain ⟨hnr, hnq⟩ := h.notEnded
      cases hprev : held.current.record.op with
      | revoke => exact absurd hprev hnr
      | relinquish => exact absurd hprev hnq
      | register | update | renew | transfer =>
        simp only [lifecycleOf, hprev, graceSeconds] at hlive ⊢
        omega
  unfold stateAt at hq
  simp only at hq
  split_ifs at hq

/-! ## Appends -/

/-- A registration took the name over by the convergence rule, with a smaller hash than its
root. -/
structure TakenOver (C : Crypto) (s : Store) (b : Bytes) (now : ℕ) (held : NameEntry)
    (r : RegistryRecord) (v : Verdict) (s' : Store) : Prop where
  register : r.op = .register
  merged : ∃ taken, s.mergeConflict C b now taken = .ok (v, s')
  smaller : recordHashFromBytes C b < held.rootHash

/-- A won conflict takes the name over. -/
theorem MergeOK.takenOver {root : LogEntry} {v : Verdict} (h : MergeOK C s b now r held root)
    (happend : s.append C b now = .ok (v, s')) : TakenOver C s b now held r v s' := by
  obtain ⟨detail, htaken⟩ := h.taken
  exact ⟨h.op, ⟨_, (append_taken h.fresh htaken).symm.trans happend⟩, h.smaller⟩

/-- **A name that is not fully released changes hands in turn**: by an accepted successor in its
turn, or by a merge with a smaller hash; in quarantine and while it is revoked by a merge only. -/
theorem changes_in_turn {steps : List Step} (hs : Run C steps s) (hheld : s.names.get? key = some held)
    (hnot : Store.fullyReleased held.current now = false) {v : Verdict}
    (happend : s.append C b now = .ok (v, s')) (hchange : s'.names.get? key ≠ some held) :
    ∃ r voided, v = .accept r voided false ∧ keyOf r = key ∧
      (InTurn C held r now ∨ TakenOver C s b now held r v s') ∧
      (stateAt held.current.record now = .quarantine ∨ held.revoked = true →
        TakenOver C s b now held r v s') := by
  have hkeyOf : ∀ r, s' = s.extend C b r → keyOf r = key := by
    intro r hs'
    by_contra hkey
    rw [hs', extend_names, OrdMap.get?_set, if_neg (Ne.symm hkey)] at hchange
    exact hchange hheld
  rcases append_cases happend with ⟨hs', -⟩ | ⟨r, hok, hv, hs'⟩ | ⟨r, held', root, hok, hv, hs'⟩
  · exact absurd (hs' ▸ hheld) hchange
  · have hkey := hkeyOf r hs'
    subst hkey
    have hturn : InTurn C held r now := by
      obtain ⟨input, hinput, ⟨hop, hr⟩ | ⟨hop, p, hp, hr⟩⟩ := hok.judged
      · -- a registration finds the name held
        change RegisterOK C r input ((s.names.get? (keyOf r)).map (·.current)) (s.view C) now false at hr
        have hfree := hr.free
        rw [hheld, Option.map_some] at hfree
        have hisHeld : isHeld (some held.current) (s.view C) now = true := by
          change (!Store.fullyReleased held.current now) = true
          rw [hnot]; rfl
        exact absurd (hfree hisHeld) (by simp)
      · change (s.names.get? (keyOf r)).map (·.current) = some p at hp
        rw [hheld, Option.map_some, Option.some.injEq] at hp
        subst hp
        exact hr.inTurn hop hinput hheld (hs.relinquished hheld)
    refine ⟨r, none, hv, rfl, Or.inl hturn, fun hended => ?_⟩
    rcases hended with hq | hrev
    · exact absurd hq hturn.not_quarantine
    · have hnr := hturn.notRevoked
      rw [hrev] at hnr
      simp at hnr
  -- the merge after a refusal: the challenger takes the name over
  · have hkey := hkeyOf r hs'
    subst hkey
    have hheld' := hok.heldAt
    rw [hheld, Option.some.injEq] at hheld'
    subst hheld'
    have htaken := hok.takenOver happend
    exact ⟨r, _, hv, rfl, Or.inr htaken, fun _ => htaken⟩

/-- The owner of `first` updates it. -/
theorem update_in_turn : ∃ r voided, Verdict.accept Sample.update.record none false =
      .accept r voided false ∧ keyOf r = keyOf Sample.update.record ∧
    (InTurn Sample.crypto (Store.nextNameEntry Sample.crypto .empty Sample.first.bytes Sample.first.record)
        r 1700000000 ∨
      TakenOver Sample.crypto (Sample.enter .empty Sample.first) Sample.update.bytes 1700000000
        (Store.nextNameEntry Sample.crypto .empty Sample.first.bytes Sample.first.record) r
        (.accept Sample.update.record none false)
        (Sample.enter (Sample.enter .empty Sample.first) Sample.update)) ∧
    (stateAt Sample.first.record 1700000000 = .quarantine ∨ false = true →
      TakenOver Sample.crypto (Sample.enter .empty Sample.first) Sample.update.bytes 1700000000
        (Store.nextNameEntry Sample.crypto .empty Sample.first.bytes Sample.first.record) r
        (.accept Sample.update.record none false)
        (Sample.enter (Sample.enter .empty Sample.first) Sample.update)) := by
  refine changes_in_turn (.append .empty Sample.append_first) ?_ rfl Sample.append_update ?_
  · rw [Sample.enter, extend_names, show keyOf Sample.update.record = keyOf Sample.first.record from rfl,
      OrdMap.get?_set_self]
  · rw [Sample.enter, extend_names, OrdMap.get?_set_self, ne_eq, Option.some.injEq]
    intro heq
    have hop := congrArg (fun e => e.current.record.op) heq
    simp [Store.nextNameEntry, Sample.SampleRecord.record, Sample.update, Sample.first] at hop

end VayuWeb
