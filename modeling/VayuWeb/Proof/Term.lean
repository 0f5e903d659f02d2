import VayuWeb.Proof.Turn

/-!
# How long a name can be held

* `Run.term_le`: a record accepted at clock `t` expires at most a year and 60 days after `t`,
  give or take the clock skew.
* `SuccessorOK.extends`: the records that expire later than the one they follow.
* `terms_bounded`: both, along every run whose clock does not go back.
-/

namespace VayuWeb

variable {C : Crypto} {s s' : Store} {b : Bytes} {now : ℕ} {r : RegistryRecord} {key : String}
  {held : NameEntry}

/-! ## The longest term -/

/-- The longest a record can expire after the clock it is accepted at. -/
def maxTermAhead : ℕ := maxClockSkewSeconds + renewalWindowSeconds + termSeconds

example : maxTermAhead = 300 + 5184000 + 31536000 := rfl

/-- One accepted record expires in time, if the one it follows did. -/
theorem Step.OK.term_le {st : Step} (h : st.OK C)
    (hprev : ∀ held, st.before.names.get? (keyOf st.record) = some held →
      held.current.record.notAfter ≤ st.now + maxTermAhead) :
    st.record.notAfter ≤ st.now + maxTermAhead := by
  unfold maxTermAhead at hprev ⊢
  obtain ⟨ignore, input, -, ⟨-, hr⟩ | ⟨hop, p, hp, hr⟩⟩ := h.judged
  · have hterm := hr.term
    have hskew := hr.skew
    omega
  · obtain ⟨held, hheld⟩ := h.held_of_successor hop
    change (st.before.names.get? (keyOf st.record)).map (·.current) = some p at hp
    rw [hheld, Option.map_some, Option.some.injEq] at hp
    subst hp
    have hle := hprev held hheld
    have hskew := hr.skew
    have hoperation := hr.operation
    unfold OperationOK at hoperation
    cases hcase : st.record.op with
    | register => exact absurd hcase hop
    | update =>
      rw [hcase] at hoperation
      change st.record.notAfter = held.current.record.notAfter at hoperation
      omega
    | renew =>
      rw [hcase] at hoperation
      obtain ⟨-, hwindow, hterm, -⟩ := hoperation
      rcases le_total held.current.record.notAfter st.record.notBefore with hmax | hmax
      · rw [max_eq_right hmax] at hterm
        omega
      · rw [max_eq_left hmax] at hterm
        omega
    | transfer =>
      rw [hcase] at hoperation
      obtain ⟨-, hterm, -⟩ := hoperation
      omega
    | relinquish =>
      rw [hcase] at hoperation
      obtain ⟨-, hterm⟩ := hoperation
      omega
    | revoke =>
      rw [hcase] at hoperation
      obtain ⟨-, hterm⟩ := hoperation
      omega

/-- The clock of a run does not go back. -/
def ClockForward (steps : List Step) : Prop := steps.Pairwise fun st st' => st.now ≤ st'.now

/-- The current record of a name is one a step entered. -/
theorem Run.current_entered {steps : List Step} (hs : Run C steps s)
    (hheld : s.names.get? key = some held) : ∃ st ∈ steps, st.record = held.current.record := by
  refine Run.induction (P := fun steps s => ∀ key held, s.names.get? key = some held →
    ∃ st ∈ steps, st.record = held.current.record) (by simp [Store.empty]) ?_ hs key held hheld
  intro steps st _ ih _ key held hheld
  unfold Step.after at hheld
  rw [extend_names, OrdMap.get?_set] at hheld
  by_cases hkey : key = keyOf st.record
  · rw [if_pos hkey, Option.some.injEq] at hheld
    exact ⟨st, by simp, by rw [← hheld]; rfl⟩
  · rw [if_neg hkey] at hheld
    obtain ⟨st', hst', heq⟩ := ih key held hheld
    exact ⟨st', List.mem_append_left _ hst', heq⟩

/-- **Every accepted record expires within a year and 60 days of its clock.** -/
theorem Run.term_le {steps : List Step} (hs : Run C steps s) (hclock : ClockForward steps) :
    ∀ st ∈ steps, st.record.notAfter ≤ st.now + maxTermAhead := by
  refine Run.induction (P := fun steps _ => ClockForward steps →
    ∀ st ∈ steps, st.record.notAfter ≤ st.now + maxTermAhead) (by simp) ?_ hs hclock
  intro steps st hbefore ih hok hclock
  unfold ClockForward at hclock
  rw [List.pairwise_append] at hclock
  obtain ⟨hsteps, -, hlast⟩ := hclock
  intro st' hst'
  rcases List.mem_append.1 hst' with hst' | hst'
  · exact ih hsteps st' hst'
  · rw [List.mem_singleton.1 hst']
    refine hok.term_le fun held hheld => ?_
    obtain ⟨earlier, hearlier, hrecord⟩ := hbefore.current_entered hheld
    have hterm := ih hsteps earlier hearlier
    have hnow := hlast earlier hearlier st List.mem_cons_self
    rw [← hrecord]
    omega

/-! ## Longer terms -/

/-- A RELINQUISH dated after the end of the term it gives up. It is signed in the last seconds of
that term for a clock that is ahead, and ends the name. -/
structure DatedAhead (r prev : RegistryRecord) : Prop where
  op : r.op = .relinquish
  term : r.notAfter = r.notBefore
  ahead : r.notAfter < prev.notAfter + maxClockSkewSeconds

/-- **A later expiry is bought by a RENEW**, or by a RELINQUISH that is dated ahead. -/
theorem SuccessorOK.extends {input : Bytes} {p : Predecessor}
    (hr : SuccessorOK C r input p (s.view C) now) (hlater : p.record.notAfter < r.notAfter) :
    (r.op = .renew ∧ s.powVerified C r = .ok true) ∨ DatedAhead r p.record := by
  have hoperation := hr.operation
  unfold OperationOK at hoperation
  cases hcase : r.op with
  | register => rw [hcase] at hoperation; exact hoperation.elim
  | update =>
    rw [hcase] at hoperation
    change r.notAfter = p.record.notAfter at hoperation
    omega
  | renew =>
    rw [hcase] at hoperation
    exact Or.inl ⟨rfl, hoperation.2.2.2⟩
  | transfer =>
    rw [hcase] at hoperation
    have hterm := hoperation.2.1
    omega
  | revoke =>
    rw [hcase] at hoperation
    have hterm := hoperation.2
    omega
  | relinquish =>
    rw [hcase] at hoperation
    have hterm := hoperation.2
    have hskew := hr.skew
    -- the predecessor is live, so its term ends after the clock
    obtain ⟨hrev, hfrom, -, hlive⟩ := acceptsSuccessor_eq_true.1 hr.live
    have hnow := hlive (by rw [hcase]; simp)
    have hend : (lifecycleOf p.record).liveUntil = p.record.notAfter := by
      cases hprev : p.record.op with
      | revoke => simp [lifecycleOf, hprev] at hrev
      | register | update | renew | transfer | relinquish => simp only [lifecycleOf, hprev]
    exact Or.inr ⟨hcase, hterm, by omega⟩

/-- The record a duplicate is accepted as was accepted before. -/
theorem Run.duplicate_entered {steps : List Step} (hs : Run C steps s) {voided : Option (List Bytes)}
    (hcollision : ∀ st ∈ steps,
      recordHashFromBytes C st.bytes = recordHashFromBytes C b → st.bytes = b)
    (happend : s.append C b now = .ok (.accept r voided true, s')) :
    ∃ st ∈ steps, st.record = r := by
  have hi := hs.indexed
  obtain ⟨hhas, hparsed⟩ := append_duplicate happend
  unfold Store.has at hhas
  rw [hi.seen, List.contains_iff_mem] at hhas
  obtain ⟨e, he, hhash⟩ := List.mem_map.1 hhas
  obtain ⟨hadmitted, hentry⟩ := hi.entry e he
  -- the entry of this hash is a step's, and its bytes are these
  have hpair : (e.bytes, e.record) ∈ steps.map fun st => (st.bytes, st.record) := by
    rw [← hs.entries_eq]
    exact List.mem_map_of_mem (f := fun e : LogEntry => (e.bytes, e.record)) he
  obtain ⟨st, hst, heq⟩ := List.mem_map.1 hpair
  rw [Prod.mk.injEq] at heq
  have hbytes : e.bytes = b := by
    rw [← heq.1]
    refine hcollision st hst ?_
    rw [heq.1, ← hentry]
    exact hhash
  rw [hbytes] at hadmitted
  unfold Store.parseOrThrow at hparsed
  rw [parseRecordBytes_eq_ok.2 hadmitted] at hparsed
  exact ⟨st, hst, heq.2.trans (Except.ok.inj hparsed)⟩

/-- **No proof of work buys an unbounded term**: what is accepted at a clock expires at most
36720300 seconds later, and along a chain the expiry moves back only at a RENEW whose proof of
work was verified, or by less than 300 seconds at a RELINQUISH. -/
theorem terms_bounded {steps : List Step} (hs : Run C steps s) (hclock : ClockForward steps) :
    (∀ now b r voided duplicate s', (∀ st ∈ steps, st.now ≤ now) →
        (∀ st ∈ steps, recordHashFromBytes C st.bytes = recordHashFromBytes C b → st.bytes = b) →
        s.append C b now = .ok (.accept r voided duplicate, s') →
        r.notAfter ≤ now + maxTermAhead) ∧
      ∀ st ∈ steps, ∀ held, st.before.names.get? (keyOf st.record) = some held →
        st.record.op ≠ .register → held.current.record.notAfter < st.record.notAfter →
        (st.record.op = .renew ∧ st.before.powVerified C st.record = .ok true) ∨
          DatedAhead st.record held.current.record := by
  constructor
  · intro now b r voided duplicate s' hnow hcollision happend
    have hnew : ∀ path, Run C (steps ++ [⟨s, b, now, r, path⟩]) s' →
        r.notAfter ≤ now + maxTermAhead := by
      intro path hrun
      have hclock' : ClockForward (steps ++ [⟨s, b, now, r, path⟩]) := by
        unfold ClockForward
        rw [List.pairwise_append]
        refine ⟨hclock, by simp, fun st hst st' hst' => ?_⟩
        rw [List.mem_singleton.1 hst']
        exact hnow st hst
      obtain ⟨st, hst, hrecord, hat⟩ : ∃ st ∈ steps ++ [⟨s, b, now, r, path⟩],
          st.record = r ∧ st.now = now := ⟨⟨s, b, now, r, path⟩, by simp, rfl, rfl⟩
      have hterm := hrun.term_le hclock' st hst
      rw [hrecord, hat] at hterm
      exact hterm
    have hrun := hs.append happend
    cases duplicate with
    | false =>
      cases voided with
      | none => exact hnew .ordinary hrun
      | some voided => exact hnew .merge hrun
    | true =>
      -- a duplicate was accepted before, at an earlier clock
      obtain ⟨st, hst, hrecord⟩ := hs.duplicate_entered hcollision happend
      have hterm := hs.term_le hclock st hst
      have hle := hnow st hst
      rw [← hrecord]
      omega
  · intro st hst held hheld hop hlater
    obtain ⟨ignore, input, -, ⟨hreg, -⟩ | ⟨-, p, hp, hr⟩⟩ := (hs.steps_ok st hst).judged
    · exact absurd hreg hop
    · change (st.before.names.get? (keyOf st.record)).map (·.current) = some p at hp
      rw [hheld, Option.map_some, Option.some.injEq] at hp
      subst hp
      exact hr.extends hlater

/-- `first`, given up a second before its term ends. -/
def relinquishing : List Step :=
  [⟨.empty, Sample.first.bytes, 1700000000, Sample.first.record, .ordinary⟩,
    ⟨Sample.enter .empty Sample.first, Sample.relinquishLate.bytes, 1731449599,
      Sample.relinquishLate.record, .ordinary⟩]

theorem run_relinquishing : Run Sample.crypto relinquishing
    (Sample.enter (Sample.enter .empty Sample.first) Sample.relinquishLate) :=
  .append (.append .empty Sample.append_first) Sample.append_relinquishLate

theorem relinquishLate_fresh :
    (Sample.enter .empty Sample.first).has Sample.crypto Sample.relinquishLate.bytes = false :=
  (ordinary_of_append Sample.append_relinquishLate).fresh

/-- `first` is held by its chain when it is given up. -/
theorem first_held : (Sample.enter .empty Sample.first).names.get? (keyOf Sample.relinquishLate.record) =
    some (Store.nextNameEntry Sample.crypto .empty Sample.first.bytes Sample.first.record) := by
  rw [Sample.enter, extend_names, show keyOf Sample.relinquishLate.record = keyOf Sample.first.record from rfl,
    OrdMap.get?_set_self]

/-- What the append that gives `first` up makes of its term. -/
theorem terms_bounded_relinquishing :
    Sample.relinquishLate.record.notAfter ≤ 1731449599 + maxTermAhead ∧
      ((Sample.relinquishLate.record.op = .renew ∧
          (Sample.enter .empty Sample.first).powVerified Sample.crypto Sample.relinquishLate.record = .ok true) ∨
        DatedAhead Sample.relinquishLate.record Sample.first.record) := by
  constructor
  · refine (terms_bounded (.append .empty Sample.append_first) (by simp [ClockForward, stepsOf])).1
      1731449599 _ _ _ _ _ ?_ ?_ Sample.append_relinquishLate
    · simp [stepsOf]
    · intro st hst hhash
      simp only [stepsOf, List.nil_append, List.mem_singleton] at hst
      subst hst
      have hfresh := relinquishLate_fresh
      simp [Store.has, Sample.enter, Store.empty, hhash] at hfresh
  · exact (terms_bounded run_relinquishing (by simp [ClockForward, relinquishing])).2
      ⟨Sample.enter .empty Sample.first, Sample.relinquishLate.bytes, 1731449599,
        Sample.relinquishLate.record, .ordinary⟩ (by simp [relinquishing]) _ first_held
      (by simp [Sample.SampleRecord.record, Sample.relinquishLate])
      (by simp [Store.nextNameEntry, Sample.SampleRecord.record, Sample.relinquishLate, Sample.first])

/-- A RELINQUISH signed in the last second of the term, for 300 seconds later, expires after the
record it follows. -/
theorem relinquish_extends : ¬ ∀ (C : Crypto) (steps : List Step) (s : Store), Run C steps s →
    ClockForward steps → ∀ st ∈ steps, ∀ held, st.before.names.get? (keyOf st.record) = some held →
      st.record.op ≠ .register → held.current.record.notAfter < st.record.notAfter →
        st.record.op = .renew ∧ st.before.powVerified C st.record = .ok true := by
  intro h
  have hrenew := h Sample.crypto relinquishing _ run_relinquishing (by simp [ClockForward, relinquishing])
    ⟨Sample.enter .empty Sample.first, Sample.relinquishLate.bytes, 1731449599,
      Sample.relinquishLate.record, .ordinary⟩ (by simp [relinquishing])
    (Store.nextNameEntry Sample.crypto .empty Sample.first.bytes Sample.first.record) first_held
    (by simp [Sample.SampleRecord.record, Sample.relinquishLate])
    (by simp [Store.nextNameEntry, Sample.SampleRecord.record, Sample.relinquishLate, Sample.first])
  simp [Sample.SampleRecord.record, Sample.relinquishLate] at hrenew

end VayuWeb
