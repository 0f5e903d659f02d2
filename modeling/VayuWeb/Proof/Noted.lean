import VayuWeb.Proof.Answers
import VayuWeb.Proof.Ledger

/-!
# Equivocations that reach a watching store

* `record_detected`: a pair the ledger can verify is written down, or was before.
* `note_recorded`: so is a refused record that meets another half in the log.
* `equivocation_noted`: in every run, what is refused is written down and changes nothing; what is
  not refused is in the log already, or is a registration.
* `equivocation_held`: a pair the log itself holds is not written down.
-/

namespace VayuWeb

open Bytes
open DetCbor (Key Value)

variable {C : Crypto} {s s' : Store} {ledger : EquivocationLedger} {a b : Bytes} {now : ℕ} {r : RegistryRecord}
  {e : LogEntry} {held : NameEntry} {steps : List Step} {v : Verdict}

namespace EquivocationLedger

/-! ## Writing a pair -/

/-- **A pair the ledger can verify is written down, or was before**, while the budget lasts. -/
theorem record_detected {left right : RegistryRecord} (hpair : Evidence C a b left right)
    (hbudget : ledger.detected < budget .detected) : ∃ outcome after,
      ledger.record C { a := a, b := b } .detected = .ok (outcome, after) ∧ equivocationKey left ∈ after.byKey := by
  have hverified : verifyEquivocation C a b = .ok true := verifyEquivocation_eq_true.2 ⟨left, right, hpair⟩
  unfold record
  simp only [hverified, Except.ok_bind, parseRecordBytes_eq_ok.2 hpair.admitLeft, not_true_eq_false, if_false]
  by_cases hheld : ledger.byKey.contains (equivocationKey left) = true
  · rw [if_pos hheld]
    exact ⟨_, _, rfl, List.contains_iff_mem.1 hheld⟩
  · have hroom : ¬ ledger.countOf .detected ≥ budget .detected := by
      rw [countOf]
      omega
    have hlengthA := (admit_eq_ok.1 hpair.admitLeft).1
    have hlengthB := (admit_eq_ok.1 hpair.admitRight).1
    have hwritten := persist_eq ledger
      { origin := .detected, key := equivocationKey left, evidence := { a := a, b := b } } ⟨hlengthA, hlengthB⟩
    rw [if_neg hheld, if_neg hroom, hwritten]
    refine ⟨_, _, rfl, ?_⟩
    simp [hold]

end EquivocationLedger

/-! ## A refused record -/

/-- Records that say the same of a name share a key. -/
theorem equivocationKey_eq {left right : RegistryRecord} (h : SameClaim left right) :
    equivocationKey left = equivocationKey right := by
  obtain ⟨hname, htld, hseq, howner⟩ := h
  rw [equivocationKey, equivocationKey, hname, htld, hseq, howner]

theorem keyOf_eq {left right : RegistryRecord} (h : SameClaim left right) : keyOf left = keyOf right := by
  rw [keyOf, keyOf, h.1, h.2.1]

/-- **A refused record that meets another half in the log is written down.** -/
theorem note_recorded (run : Run C steps s) (hbudget : ledger.detected < EquivocationLedger.budget .detected)
    (hheld : s.names.get? (keyOf r) = some held) (hb : admitBytes b = .ok r)
    (hsigned : signedByNamedOwner C r = .ok true) (he : e ∈ s.entries) (hsame : SameClaim e.record r)
    (hhash : e.hash ≠ recordHashFromBytes C b) :
    ∃ after, s.noteEquivocation C ledger b = .ok after ∧ equivocationKey r ∈ after.byKey := by
  have hs := run.indexed
  unfold Store.noteEquivocation
  rw [parseRecordBytes_eq_ok.2 hb]
  simp only [show s.names.get? (nameKey r.name r.tld) = some held from hheld, Option.isNone_some, Bool.false_eq_true,
    if_false]
  by_cases hsettled : ledger.settled r .detected = true
  · rw [if_pos hsettled]
    refine ⟨ledger, rfl, ?_⟩
    have hroom : ¬ ledger.countOf .detected ≥ EquivocationLedger.budget .detected := by
      rw [EquivocationLedger.countOf]
      omega
    rw [EquivocationLedger.settled, decide_eq_false hroom, Bool.or_false] at hsettled
    exact List.contains_iff_mem.1 hsettled
  · rw [if_neg hsettled]
    simp only [hsigned, Except.ok_bind, not_true_eq_false, if_false]
    cases hhalf : s.otherHalf r (recordHashFromBytes C b) with
    | none =>
      -- the entry that was given qualifies
      exfalso
      have hnone := List.find?_eq_none.1 hhalf e he
      apply hnone
      obtain ⟨hname, htld, hseq, howner⟩ := hsame
      simp [hname, htld, hseq, howner, compareBytes_eq, hhash]
    | some entry =>
      have hentry : entry ∈ s.entries := List.mem_of_find?_eq_some hhalf
      have hmatches := List.find?_some hhalf
      simp only [Bool.and_eq_true, decide_eq_true_eq, compareBytes_eq, ne_eq] at hmatches
      obtain ⟨hseq, hkey, howner, hother⟩ := hmatches
      obtain ⟨hadmitted, hentryHash⟩ := hs.entry entry hentry
      obtain ⟨hname, htld⟩ := names_of_keyOf hadmitted hb hkey
      have hpair : Evidence C entry.bytes b entry.record r :=
        { admitLeft := hadmitted, admitRight := hb, name := hname, tld := htld, seq := hseq,
          hash := by rw [← hentryHash]; exact hother
          owner := howner, signedLeft := run.signed entry hentry, signedRight := hsigned }
      obtain ⟨outcome, after, hrecord, hmem⟩ := EquivocationLedger.record_detected hpair hbudget
      rw [equivocationKey_eq ⟨hname, htld, hseq, howner⟩] at hmem
      simp only [hrecord, Except.ok_bind]
      exact ⟨after, rfl, hmem⟩

/-! ## A watched append -/

/-- What a store that watches does with the outcome of an append. -/
def Store.watched (C : Crypto) (ledger : EquivocationLedger) (b : Bytes) :
    Verdict × Store → Except Thrown (Verdict × Store × EquivocationLedger)
  | (.accept r voided duplicate, s) => .ok (.accept r voided duplicate, s, ledger)
  | (v, s) => do return (v, s, ← s.noteEquivocation C ledger b)

/-- It appends as any store does, and takes note of what is refused. -/
theorem watchedAppend_eq : s.watchedAppend C ledger b now = s.append C b now >>= Store.watched C ledger b := by
  unfold Store.watchedAppend Store.append
  by_cases hhas : s.has C b = true
  · rw [if_pos hhas, if_pos hhas]
    cases Store.parseOrThrow b with
    | error => rfl
    | ok => rfl
  -- a record that is new: it is judged, and the two differ in what they do after the verdict only
  rw [if_neg hhas, if_neg hhas]
  cases s.verifyAt C b now with
  | error => rfl
  | ok verdict =>
    simp only [Except.ok_bind]
    split
    · rename_i detail
      cases s.mergeConflict C b now (.reject .nameTaken detail) with
      | error => rfl
      | ok merged =>
        obtain ⟨v, s'⟩ := merged
        cases v <;> rfl
    · cases s.write b with
      | error => rfl
      | ok written =>
        rename_i record _ _
        simp only [Except.ok_bind]
        cases written.apply C b record with
        | error => rfl
        | ok => rfl
    · rename_i hnotTaken hnotAccept
      cases verdict with
      | accept record voided duplicate => exact absurd rfl (hnotAccept record voided duplicate)
      | reject code detail =>
        cases code with
        | nameTaken => exact absurd rfl (hnotTaken detail)
        | _ => rfl
      | defer => rfl

/-! ## The chain that holds a name -/

/-- No entry of the chain that holds a name is later than the record that holds it. -/
theorem Descends.seq_le (run : Run C steps s) (hheld : s.names.get? (keyOf e.record) = some held)
    (h : Descends s held.rootHash e) : e.record.seq ≤ held.current.record.seq := by
  have hs := run.indexed
  have hnodup : s.entries.Nodup := List.Nodup.of_map _ hs.nodup
  obtain ⟨-, root, -, hroot, hrootHash⟩ := hs.registrations_of_held hheld
  obtain ⟨m, hm, -, hlast⟩ := getLast?_filter_position hroot
  -- the chain starts at the last registration
  have hfrom : ∀ j, s.entries[j]? = some e → m ≤ j := by
    have hlinks : ∀ x : LogEntry, Descends s held.rootHash x → ∀ j, s.entries[j]? = some x → m ≤ j := by
      intro x hx
      induction hx with
      | root mem op hash =>
        intro j hj
        have heq := hs.eq_of_hash mem (List.mem_of_getElem? hm) (hash.trans hrootHash.symm)
        rw [heq, ← hm] at hj
        have hlt := (List.getElem?_eq_some_iff.1 hm).1
        exact le_of_eq ((List.getElem?_inj hlt hnodup).1 hj.symm)
      | link mem op previous prevHash ih =>
        intro j hj
        obtain ⟨k, p, hsucceeds⟩ := run.succeeds hj op
        have hp := hs.eq_of_hash (List.mem_of_getElem? hsucceeds.stands) previous.mem
          (hsucceeds.prevHash.symm.trans prevHash)
        have hmk := ih k (hp ▸ hsucceeds.stands)
        have hkj := hsucceeds.lt
        omega
    exact hlinks e h
  obtain ⟨j, hj⟩ := List.mem_iff_getElem?.1 h.mem
  have hmj := hfrom j hj
  have hcurrent := hs.current (keyOf e.record)
  rw [hheld, Option.map_some] at hcurrent
  obtain ⟨last, hlastEntry, heq⟩ := Option.map_eq_some_iff.1 hcurrent.symm
  rw [Prod.mk.injEq] at heq
  obtain ⟨c, hc, hckey, hafter⟩ := getLast?_filter_position hlastEntry
  rw [← heq.1]
  rcases lt_trichotomy j c with hlt | rfl | hgt
  · apply le_of_lt
    apply run.seq_lt hj c last hlt hc (of_decide_eq_true hckey)
    intro k x hjk _ hx hxkey hop
    have hnot := hlast k x (by omega) hx
    simp [hxkey, hop] at hnot
  · rw [hj, Option.some.injEq] at hc
    rw [hc]
  · have hnot := hafter j e hgt hj
    simp at hnot

/-! ## Every equivocation -/

/-- What the store does not refuse: bytes that it holds, a registration of a name that was fully
released, and a registration that wins a conflict. -/
inductive Passes (C : Crypto) (s : Store) (b : Bytes) (now : ℕ) (r : RegistryRecord) (held : NameEntry) (s' : Store) :
    Prop
  | duplicate (has : s.has C b = true) (unchanged : s' = s)
  | released (op : r.op = .register) (released : Store.fullyReleased held.current now = true)
  | merged (root : LogEntry) (wins : MergeOK C s b now r held root)

/-- A record that shares its `seq` with the chain is no successor of it. -/
theorem passes_of_accept (run : Run C steps s) (hheld : s.names.get? (keyOf e.record) = some held)
    (hdescends : Descends s held.rootHash e) (hb : admitBytes b = .ok r) (hsame : SameClaim e.record r)
    {record : RegistryRecord} {voided : Option (List Bytes)} {duplicate : Bool}
    (h : s.append C b now = .ok (.accept record voided duplicate, s')) : Passes C s b now r held s' := by
  have hheldR : s.names.get? (keyOf r) = some held := keyOf_eq hsame ▸ hheld
  rcases append_cases h with ⟨hs', hnot⟩ | ⟨r', hok, -, -⟩ | ⟨r', held', root, hok, -, -⟩
  · cases duplicate with
    | false => exact absurd rfl (hnot record voided)
    | true => exact .duplicate (append_duplicate h).1 hs'
  · have hr : r' = r := Except.ok.inj (hok.admitted.symm.trans hb)
    subst hr
    have hcurrent : (s.view C).current r'.name r'.tld = some held.current := by
      change (s.names.get? (keyOf r')).map (·.current) = _
      rw [hheldR, Option.map_some]
    obtain ⟨input, -, ⟨hop, hregister⟩ | ⟨-, p, hp, hsuccessor⟩⟩ := hok.judged
    -- a second REGISTER passes without a merge only where the name was released
    · refine .released hop ?_
      by_contra hreleased
      have hfree := hregister.free
      rw [hcurrent, isHeld] at hfree
      have htaken : (!(s.view C).fullyReleased held.current now) = true := by
        rw [Bool.not_eq_true', ← Bool.not_eq_true]
        exact hreleased
      exact absurd (hfree htaken) Bool.false_ne_true
    · -- a successor comes after the record that holds the name
      exfalso
      rw [hcurrent, Option.some.injEq] at hp
      have hle := hdescends.seq_le run hheld
      have hseq := hsuccessor.seq
      have hshared := hsame.2.2.1
      rw [← hp] at hseq
      omega
  · have hr : r' = r := Except.ok.inj (hok.admitted.symm.trans hb)
    subst hr
    have heq : held' = held := Option.some.inj (hok.heldAt.symm.trans hheldR)
    subst heq
    exact .merged root hok

/-- **Every equivocation that is refused is written down, and changes nothing.** What is not
refused is held already, or is a registration of a released name or one that wins a conflict. -/
theorem equivocation_noted (run : Run C steps s) (hbudget : ledger.detected < EquivocationLedger.budget .detected)
    (hheld : s.names.get? (keyOf e.record) = some held) (hdescends : Descends s held.rootHash e)
    (hb : parseRecordBytes b = .ok r) (hsame : SameClaim e.record r) (hsigned : signedByNamedOwner C r = .ok true)
    (now : ℕ) : ∃ v s' after, s.watchedAppend C ledger b now = .ok (v, s', after) ∧
      ((∀ record voided duplicate, v ≠ .accept record voided duplicate) →
        equivocationKey r ∈ after.byKey ∧ s' = s) ∧
      ∀ record voided duplicate, v = .accept record voided duplicate → Passes C s b now r held s' := by
  rw [parseRecordBytes_eq_ok] at hb
  have hheldR : s.names.get? (keyOf r) = some held := keyOf_eq hsame ▸ hheld
  obtain ⟨v, s', happend⟩ := append_answers now run hb
  have hpasses : ∀ record voided duplicate, v = .accept record voided duplicate → Passes C s b now r held s' := by
    intro record voided duplicate hv
    rw [hv] at happend
    exact passes_of_accept run hheld hdescends hb hsame happend
  rw [watchedAppend_eq, happend, Except.ok_bind]
  by_cases haccept : ∃ record voided duplicate, v = .accept record voided duplicate
  · obtain ⟨record, voided, duplicate, rfl⟩ := haccept
    refine ⟨_, s', ledger, rfl, ?_, hpasses⟩
    intro hnot
    exact absurd rfl (hnot record voided duplicate)
  · have hrefused : ∀ record voided duplicate, v ≠ .accept record voided duplicate := by
      intro record voided duplicate hv
      exact haccept ⟨record, voided, duplicate, hv⟩
    have hs' : s' = s := by
      rcases append_cases happend with ⟨hs', -⟩ | ⟨record, -, hv, -⟩ | ⟨record, held', root, -, hv, -⟩
      · exact hs'
      · exact absurd hv (hrefused _ _ _)
      · exact absurd hv (hrefused _ _ _)
    subst hs'
    -- what is refused is not in the log
    have hhash : e.hash ≠ recordHashFromBytes C b := by
      intro heq
      have hhas : s'.has C b = true := by
        rw [Store.has, List.contains_iff_mem, run.indexed.seen, ← heq]
        exact List.mem_map_of_mem hdescends.mem
      rw [Store.append, if_pos hhas, Store.parseOrThrow, parseRecordBytes_eq_ok.2 hb] at happend
      exact haccept ⟨r, none, true, (Prod.mk.inj (Except.ok.inj happend)).1.symm⟩
    obtain ⟨after, hnote, hmem⟩ := note_recorded run hbudget hheldR hb hsigned hdescends.mem hsame
      hhash
    refine ⟨v, s', after, ?_, fun _ => ⟨hmem, rfl⟩, hpasses⟩
    cases v with
    | accept record voided duplicate => exact absurd rfl (hrefused record voided duplicate)
    | reject code detail =>
      simp only [Store.watched, hnote]
      rfl
    | defer reason detail =>
      simp only [Store.watched, hnote]
      rfl

/-- The registration that `first` made of its name, in a log of its own. -/
theorem descends_first : Descends (Sample.enter .empty Sample.first)
    (recordHashFromBytes Sample.crypto Sample.first.bytes)
    (Store.nextLogEntry Sample.crypto .empty Sample.first.bytes Sample.first.record) :=
  .root (by simp [Sample.enter, Store.empty]) rfl rfl

/-- A second registration by the same owner, while the name is held. -/
theorem equivocation_noted_again : ∃ v s' after,
    (Sample.enter .empty Sample.first).watchedAppend Sample.crypto .ephemeral Sample.again.bytes 1700000000 =
      .ok (v, s', after) ∧
    ((∀ record voided duplicate, v ≠ .accept record voided duplicate) →
      equivocationKey Sample.again.record ∈ after.byKey ∧ s' = Sample.enter .empty Sample.first) ∧
    ∀ record voided duplicate, v = .accept record voided duplicate →
      Passes Sample.crypto (Sample.enter .empty Sample.first) Sample.again.bytes 1700000000 Sample.again.record
        (Store.nextNameEntry Sample.crypto .empty Sample.first.bytes Sample.first.record) s' :=
  equivocation_noted (e := Store.nextLogEntry Sample.crypto .empty Sample.first.bytes Sample.first.record)
    (.append .empty Sample.append_first) (by decide) (OrdMap.get?_set_self ..) descends_first
    (parseRecordBytes_eq_ok.2 Sample.again_ok.admitted) ⟨rfl, rfl, rfl, rfl⟩ Sample.again_ok.judged.signed 1700000000

/-- The log in which `first` and `again` registered one name, with its release between them. -/
def registeredAgain : Store := Sample.enter (Sample.enter .empty Sample.first) Sample.again

/-- **A pair the log itself holds is not written down**: the second time either arrives it is a
duplicate. -/
theorem equivocation_held : ¬ ∀ (C : Crypto) (steps : List Step) (s : Store) (ledger : EquivocationLedger)
    (e : LogEntry) (held : NameEntry) (b : Bytes) (r : RegistryRecord) (now : ℕ), Run C steps s →
      ledger.detected < EquivocationLedger.budget .detected → s.names.get? (keyOf e.record) = some held →
      Descends s held.rootHash e → parseRecordBytes b = .ok r → b ≠ e.bytes → SameClaim e.record r →
      signedByNamedOwner C r = .ok true → ∃ v s' after, s.watchedAppend C ledger b now = .ok (v, s', after) ∧
        equivocationKey r ∈ after.byKey ∧
        (s'.names.get? (keyOf r)).map (fun entry => (entry.current, entry.rootHash)) =
          some (held.current, held.rootHash) := by
  intro h
  have hfresh := Sample.again_ok.fresh
  have hhas : registeredAgain.has Sample.crypto Sample.first.bytes = true := by
    simp [registeredAgain, Store.has, Sample.enter, Store.empty]
  have hne : Sample.first.bytes ≠ Sample.again.bytes := by
    intro heq
    simp [Store.has, Sample.enter, Store.empty, heq] at hfresh
  obtain ⟨v, s', after, hwatched, hmem, -⟩ := h Sample.crypto _ registeredAgain .ephemeral
    (Store.nextLogEntry Sample.crypto (Sample.enter .empty Sample.first) Sample.again.bytes Sample.again.record)
    (Store.nextNameEntry Sample.crypto (Sample.enter .empty Sample.first) Sample.again.bytes Sample.again.record)
    Sample.first.bytes Sample.first.record 1736633600
    (.append (.append .empty Sample.append_first) Sample.append_again) (by decide) (OrdMap.get?_set_self ..)
    (.root (by simp [registeredAgain, Sample.enter]) rfl rfl) (parseRecordBytes_eq_ok.2 Sample.first_ok.admitted) hne
    ⟨rfl, rfl, rfl, rfl⟩ Sample.first_ok.judged.signed
  rw [Store.watchedAppend, if_pos hhas, Store.parseOrThrow,
    parseRecordBytes_eq_ok.2 Sample.first_ok.admitted] at hwatched
  have hafter : EquivocationLedger.ephemeral = after := (Prod.mk.inj (Prod.mk.inj (Except.ok.inj hwatched)).2).2
  rw [← hafter] at hmem
  exact absurd hmem List.not_mem_nil

end VayuWeb
