import Mathlib.Data.List.Pairwise
import VayuWeb.Base.Contest
import VayuWeb.Proof.Conflict
import VayuWeb.Proof.Rates

/-!
# Registration races

Registrations of one free name by different owners, appended at one clock in some order.

* `append_challenge`: what the next arrival does is `Contest.challenge`, late meaning late
  against the first arrival and better meaning a smaller hash.
* `Race.current_eq`: the holder after a whole race is the winner of that contest.
* `races_converge_iff`: every order ends with the smallest hash exactly when that record is not
  late against any other.
-/

namespace VayuWeb

open Bytes Contest

variable {C : Crypto} {s : Store} {now : ℕ} {name tld : String}

/-- A registration in a race, with its encoding. -/
abbrev Contender := Bytes × RegistryRecord

/-- The hash of a contender. -/
def hashOf (C : Crypto) (x : Contender) : Bytes := recordHashFromBytes C x.1

/-- A claim that is late against `x`. -/
def LateAgainst (x y : Contender) : Prop := x.2.notBefore + maxBackdateSeconds < y.2.notBefore

instance (x : Contender) : DecidablePred (LateAgainst x) :=
  fun y => inferInstanceAs (Decidable (x.2.notBefore + maxBackdateSeconds < y.2.notBefore))

/-- The smaller hash. -/
def Below (C : Crypto) (x y : Contender) : Prop := hashOf C x < hashOf C y

instance : DecidableRel (Below C) := fun x y => inferInstanceAs (Decidable (hashOf C x < hashOf C y))

/-- Registrations of one name by different owners, each of which an empty store accepts, with
different hashes and proofs that claim what their number can make the difficulty. -/
structure Race (C : Crypto) (now : ℕ) (name tld : String) (xs : List Contender) : Prop where
  accepted : ∀ x ∈ xs, ∃ s', Store.empty.append C x.1 now = .ok (.accept x.2 none false, s')
  register : ∀ x ∈ xs, x.2.op = .register ∧ x.2.name = name ∧ x.2.tld = tld
  owners : xs.Pairwise fun x y => x.2.ownerKey ≠ y.2.ownerKey
  hashes : xs.Pairwise fun x y => hashOf C x ≠ hashOf C y
  bits : ∀ x ∈ xs, ∀ proof, x.2.powProof = some proof → ∀ n ≤ xs.length,
    requiredBits (jsLength name) n ≤ proof.bits

theorem length_hashOf (x y : Contender) : (hashOf C x).length = (hashOf C y).length := by
  unfold hashOf recordHashFromBytes
  rw [C.length_blake2b, C.length_blake2b]

/-- A race is one in every order. -/
theorem Race.perm {xs ys : List Contender} (h : Race C now name tld xs) (hp : ys.Perm xs) :
    Race C now name tld ys :=
  { accepted := fun x hx => h.accepted x (hp.mem_iff.1 hx)
    register := fun x hx => h.register x (hp.mem_iff.1 hx)
    owners := (hp.pairwise_iff fun hne => Ne.symm hne).2 h.owners
    hashes := (hp.pairwise_iff fun hne => Ne.symm hne).2 h.hashes
    bits := fun x hx proof hproof n hn => h.bits x (hp.mem_iff.1 hx) proof hproof n (hp.length_eq ▸ hn) }

/-- What is not dated back too far still holds its name. -/
theorem not_released_of_backdate {r : RegistryRecord} (hterm : r.notBefore ≤ r.notAfter)
    (hback : now ≤ r.notBefore + maxBackdateSeconds) : isFullyReleased r now = false := by
  unfold maxBackdateSeconds at hback
  have hnot : ¬ now ≥ (lifecycleOf r).quarantineUntil := by
    unfold lifecycleOf
    split
    all_goals
      simp only [graceSeconds, quarantineSeconds]
      omega
  simpa [isFullyReleased] using hnot

section Contenders

variable {xs : List Contender} {x : Contender} (h : Race C now name tld xs) (hx : x ∈ xs)

include h hx

/-- A contender is accepted where nothing is known. -/
theorem Race.ok : OrdinaryOK C .empty x.1 now x.2 :=
  ordinary_of_append (h.accepted x hx).choose_spec

/-- The contenders of a race share a name. -/
theorem Race.key : keyOf x.2 = nameKey name tld := by
  obtain ⟨-, hname, htld⟩ := h.register x hx
  unfold keyOf
  rw [hname, htld]

/-- What the empty store checked of a contender, at its own state. -/
theorem Race.registerOK : ∃ input, signingInput x.2.map = .ok input ∧
    RegisterOK C x.2 input none (Store.empty.view C) now false := by
  obtain ⟨input, hinput, ⟨-, hr⟩ | ⟨hop, -⟩⟩ := (h.ok hx).judged
  · exact ⟨input, hinput, hr⟩
  · exact absurd (h.register x hx).1 hop

/-- A contender's proof of work holds in any store that has counted no more than the race. -/
theorem Race.powVerified {s : Store} (hcount : s.rateCount tld ≤ xs.length) :
    s.powVerified C x.2 = .ok true := by
  obtain ⟨input, -, hr⟩ := h.registerOK hx
  obtain ⟨es, hes⟩ := admission_of_admit (h.ok hx).admitted
  obtain ⟨hop, hname, htld⟩ := h.register x hx
  have hparse := hes.parsed.powProof
  cases hp : x.2.powProof with
  | none =>
    rw [hp, hop] at hparse
    simp only [parsePow, Except.bind_eq_ok, check_eq_ok, Except.pure_eq_ok, Except.ok.injEq] at hparse
    obtain ⟨p, -, -, hcheck, -, -, rfl⟩ := hparse
    simp [needsPow] at hcheck
  | some proof =>
    rw [hp] at hparse
    refine powVerified_of_le hr.pow hparse ?_
    unfold Store.requiredBitsFor
    simp only [hname, htld]
    refine (min_le_left _ _).trans (h.bits x hx proof hp _ ?_)
    exact (registrationsInWindow_le s tld _).trans hcount

/-- A contender that holds a name still holds it at the race's clock. -/
theorem Race.not_released : isFullyReleased x.2 now = false := by
  obtain ⟨input, -, hr⟩ := h.registerOK hx
  have hterm := hr.term
  exact not_released_of_backdate (by omega) hr.backdate

end Contenders

/-! ## One arrival -/

/-- A contender that does not hash lower leaves the store and the verdict as they are. -/
theorem mergeConflict_not_lower {b : Bytes} {r : RegistryRecord} {held : NameEntry} {root : LogEntry}
    (taken : Verdict) (hp : admitBytes b = .ok r) (hheld : s.names.get? (keyOf r) = some held)
    (hroot : s.rootEntryFor (keyOf r) = some root)
    (hlen : (recordHashFromBytes C b).length = held.rootHash.length)
    (hnot : ¬ recordHashFromBytes C b < held.rootHash) : s.mergeConflict C b now taken = .ok (taken, s) := by
  by_cases hg : GuardRefuses r root
  · exact mergeConflict_guarded taken hp hheld hroot hg
  · unfold GuardRefuses at hg
    rw [not_or] at hg
    unfold Store.mergeConflict
    rw [parseRecordBytes_eq_ok.2 hp]
    simp only
    split
    · rfl
    rw [show s.names.get? (nameKey r.name r.tld) = some held from hheld,
      show s.rootEntryFor (nameKey r.name r.tld) = some root from hroot]
    simp only
    rw [if_neg (by omega), if_neg fun he => hg.2 (compareBytes_eq.1 he)]
    have horder : compareBytes (recordHashFromBytes C b) held.rootHash ≠ .lt := fun he =>
      hnot (compareBytes_lt.1 he)
    rw [compareHashes_of_length hlen, Except.ok_bind, if_pos horder]
    rfl

/-- A name's root stays when a record is appended. -/
theorem rootEntryFor_extend {b : Bytes} {r : RegistryRecord} {key : String} {root : LogEntry}
    (h : s.rootEntryFor key = some root) : (s.extend C b r).rootEntryFor key = some root := by
  unfold Store.rootEntryFor at h ⊢
  rw [extend_entries, List.find?_append, h]
  rfl

/-- A store in a race: `first` came first and `holder` holds the name, of those `arrived`. -/
structure RaceAt (C : Crypto) (s : Store) (name tld : String) (first holder : Contender)
    (arrived : List Contender) : Prop where
  held : ∃ entry, s.names.get? (nameKey name tld) = some entry ∧ entry.current.record = holder.2 ∧
    entry.rootHash = hashOf C holder
  root : ∃ entry, s.rootEntryFor (nameKey name tld) = some entry ∧ entry.record = first.2 ∧
    entry.hash = hashOf C first
  below : ¬ Below C first holder
  seen : ∀ hash ∈ s.seen, ∃ y ∈ arrived, hash = hashOf C y
  count : s.rateCount tld ≤ arrived.length

/-- The store of an accepted first arrival. -/
theorem Race.first {xs : List Contender} {x : Contender} (h : Race C now name tld xs) (hx : x ∈ xs) :
    ∃ v, Store.empty.append C x.1 now = .ok (v, Store.empty.extend C x.1 x.2) ∧
      RaceAt C (Store.empty.extend C x.1 x.2) name tld x x [x] := by
  obtain ⟨hop, -, htld⟩ := h.register x hx
  refine ⟨_, append_ordinary (h.ok hx), ?_⟩
  constructor
  case held =>
    refine ⟨Store.empty.nextNameEntry C x.1 x.2, ?_, rfl, ?_⟩
    · rw [extend_names, ← h.key hx, OrdMap.get?_set_self]
    · simp only [Store.nextNameEntry, hop, if_true]
      rfl
  case root =>
    refine ⟨Store.empty.nextLogEntry C x.1 x.2, ?_, rfl, rfl⟩
    have hseq : x.2.seq = 0 := by
      obtain ⟨input, -, hr⟩ := h.registerOK hx
      exact hr.seq
    unfold Store.rootEntryFor
    rw [extend_entries, ← h.key hx]
    simp [Store.empty, Store.nextLogEntry, keyOf, hop, hseq]
  case below => exact List.lt_irrefl _
  case seen =>
    intro hash hhash
    rw [extend_seen] at hhash
    simp only [Store.empty, List.nil_append, List.mem_singleton] at hhash
    exact ⟨x, by simp, hhash⟩
  case count =>
    rw [rateCount_extend, htld, if_pos ⟨Or.inl hop, rfl⟩]
    rfl

/-- **What the next arrival does**: it displaces the holder unless it is late against the first
arrival or has the larger hash. -/
theorem append_challenge {xs arrived : List Contender} {first holder x : Contender}
    (h : Race C now name tld xs) (hs : RaceAt C s name tld first holder arrived) (hx : x ∈ xs)
    (hfirst : first ∈ xs) (hholder : holder ∈ xs) (howner : x.2.ownerKey ≠ first.2.ownerKey)
    (hnew : ∀ y ∈ arrived, hashOf C x ≠ hashOf C y) (hcount : arrived.length ≤ xs.length) :
    ∃ v s', s.append C x.1 now = .ok (v, s') ∧
      RaceAt C s' name tld first (challenge (LateAgainst first) (Below C) holder x) (arrived ++ [x]) ∧
      s' = if ¬ LateAgainst first x ∧ Below C x holder then s.extend C x.1 x.2 else s := by
  obtain ⟨held, hheld, hrecord, hhash⟩ := hs.held
  obtain ⟨root, hroot, hrootRecord, hrootHash⟩ := hs.root
  obtain ⟨hop, hname, htld⟩ := h.register x hx
  obtain ⟨input, hinput, hr⟩ := h.registerOK hx
  have hadm := (h.ok hx).admitted
  rw [← h.key hx] at hheld hroot
  have hfresh : s.has C x.1 = false := by
    by_contra hmem
    have hmem' : hashOf C x ∈ s.seen := by simpa [Store.has, hashOf] using hmem
    obtain ⟨y, hy, heq⟩ := hs.seen _ hmem'
    exact hnew y hy heq
  have hcurrent : (s.view C).current x.2.name x.2.tld = some held.current := by
    change (s.names.get? (keyOf x.2)).map (·.current) = _
    rw [hheld]; rfl
  have htaken : verify C x.1 (s.view C) now false =
      .ok (.reject .nameTaken s!"{x.2.name}.{x.2.tld} is held") := by
    apply verify_taken hadm hop hr.seq hr.prevHash
    rw [hcurrent]
    simp [isHeld, Store.view, Store.fullyReleased, hrecord, h.not_released hholder]
  have happend := append_taken hfresh htaken
  -- a refusal leaves the race as it was
  have hstays : RaceAt C s name tld first holder (arrived ++ [x]) :=
    { hs with
      seen := fun hash hmem => by
        obtain ⟨y, hy, heq⟩ := hs.seen hash hmem
        exact ⟨y, List.mem_append_left _ hy, heq⟩
      count := hs.count.trans (by simp) }
  unfold challenge
  by_cases hlate : LateAgainst first x
  · rw [if_pos hlate]
    have hguard : GuardRefuses x.2 root := Or.inl (by rw [hrootRecord]; exact hlate)
    exact ⟨_, s, happend.trans (mergeConflict_guarded _ hadm hheld hroot hguard), hstays,
      (if_neg fun hd => hd.1 hlate).symm⟩
  rw [if_neg hlate]
  by_cases hbelow : Below C x holder
  swap
  · rw [if_neg hbelow]
    have hlen : (recordHashFromBytes C x.1).length = held.rootHash.length := by
      rw [hhash]; exact length_hashOf x holder
    have hnot : ¬ recordHashFromBytes C x.1 < held.rootHash := by rw [hhash]; exact hbelow
    exact ⟨_, s, happend.trans (mergeConflict_not_lower _ hadm hheld hroot hlen hnot), hstays,
      (if_neg fun hd => hbelow hd.2).symm⟩
  rw [if_pos hbelow]
  have hrootSeq : root.record.seq = 0 := by
    obtain ⟨_, -, hr0⟩ := h.registerOK hfirst
    rw [hrootRecord]; exact hr0.seq
  obtain ⟨-, hname0, htld0⟩ := h.register first hfirst
  have hbelowFirst : hashOf C x < hashOf C first := by
    by_contra hnot
    exact hs.below (List.lt_of_le_of_lt (List.not_lt.1 hnot) hbelow)
  have hmerge : MergeOK C s x.1 now x.2 held root :=
    { fresh := hfresh, admitted := hadm, taken := ⟨_, htaken⟩, op := hop, seq := hr.seq, heldAt := hheld
      rootAt := hroot
      concurrent := by
        have : ¬ first.2.notBefore + maxBackdateSeconds < x.2.notBefore := hlate
        rw [hrootRecord]; omega
      stranger := by rw [hrootRecord]; exact howner
      lower := by
        change compareHashes (hashOf C x) held.rootHash = .ok .lt
        rw [hhash, compareHashes_of_length (length_hashOf x holder), compareBytes_lt.2 hbelow]
      merits := by
        refine ⟨input, hinput, Or.inl ⟨hop, ?_⟩⟩
        exact { hr with
          free := fun _ => rfl
          pow := h.powVerified hx (hs.count.trans hcount) }
      wins := by
        obtain ⟨resolution, hres, hwin⟩ := resolveConflict_pair (x := incomingCandidate C x.1 x.2)
          (y := Store.candidateOf root) rfl rfl
          (by simp [incomingCandidate, Store.candidateOf, hrootRecord, hname0, hname])
          (by simp [incomingCandidate, Store.candidateOf, hrootRecord, htld0, htld])
          (by simp [incomingCandidate, Store.candidateOf, hrootSeq, hr.seq])
          (by simp only [incomingCandidate, Store.candidateOf, hrootHash]; exact length_hashOf first x)
        have horder : compareBytes (incomingCandidate C x.1 x.2).hash (Store.candidateOf root).hash = .lt := by
          simp only [incomingCandidate, Store.candidateOf, hrootHash]
          exact compareBytes_lt.2 hbelowFirst
        refine ⟨resolution, hres, ?_⟩
        rw [hwin, horder, if_neg (by simp)]
        simp [compareHashes, incomingCandidate, compareBytes_eq] }
  refine ⟨_, _, append_merge hmerge, ?_, (if_pos ⟨hlate, hbelow⟩).symm⟩
  constructor
  case held =>
    refine ⟨s.nextNameEntry C x.1 x.2, ?_, rfl, ?_⟩
    · rw [extend_names, ← h.key hx, OrdMap.get?_set_self]
    · simp only [Store.nextNameEntry, hop, if_true]
      rfl
  case root => exact ⟨root, rootEntryFor_extend (by rw [← h.key hx]; exact hroot), hrootRecord, hrootHash⟩
  case below => exact fun hlt => List.lt_irrefl _ (List.lt_trans hbelowFirst hlt)
  case seen =>
    intro hash hmem
    rw [extend_seen, List.mem_append, List.mem_singleton] at hmem
    rcases hmem with hmem | rfl
    · obtain ⟨y, hy, heq⟩ := hs.seen hash hmem
      exact ⟨y, List.mem_append_left _ hy, heq⟩
    · exact ⟨x, by simp, rfl⟩
  case count =>
    rw [rateCount_extend, htld, if_pos ⟨Or.inl hop, rfl⟩, List.length_append]
    have := hs.count
    simp only [List.length_singleton]
    omega

/-! ## A whole race -/

/-- The store after the contenders have arrived in the order given. -/
def raceStore (C : Crypto) (now : ℕ) (ys : List Contender) : Store :=
  (appendAll C [] .empty (ys.map fun x => (x.1, now))).2

/-- A race goes on from where it stands. -/
theorem Race.run_from {xs : List Contender} {first : Contender} (h : Race C now name tld (first :: xs)) :
    ∀ (rest arrived : List Contender) (steps : List Step) (s : Store) (holder : Contender),
      first :: arrived ++ rest = first :: xs → holder ∈ first :: xs →
      RaceAt C s name tld first holder (first :: arrived) →
      RaceAt C (appendAll C steps s (rest.map fun x => (x.1, now))).2 name tld first
          (contest (LateAgainst first) (Below C) holder rest) (first :: xs) ∧
        (appendAll C steps s (rest.map fun x => (x.1, now))).2.rated tld = s.rated tld ++
          (ladder (LateAgainst first) (Below C) holder rest).map fun x => x.2.notBefore := by
  intro rest
  induction rest with
  | nil =>
    intro arrived steps s holder heq _ hs
    rw [List.append_nil] at heq
    rw [← heq]
    exact ⟨hs, (List.append_nil _).symm⟩
  | cons x rest ih =>
    intro arrived steps s holder heq hholder hs
    have hx : x ∈ first :: xs := by rw [← heq]; simp
    have howners := h.owners
    have hhashes := h.hashes
    rw [← heq, List.pairwise_append] at howners hhashes
    have howner : x.2.ownerKey ≠ first.2.ownerKey :=
      (howners.2.2 first List.mem_cons_self x List.mem_cons_self).symm
    have hnew : ∀ y ∈ first :: arrived, hashOf C x ≠ hashOf C y := fun y hy =>
      (hhashes.2.2 y hy x List.mem_cons_self).symm
    have hcount : (first :: arrived).length ≤ (first :: xs).length := by
      rw [← heq, List.length_append]; omega
    obtain ⟨v, s', happend, hs', hstore⟩ :=
      append_challenge h hs hx List.mem_cons_self hholder howner hnew hcount
    have hnext : challenge (LateAgainst first) (Below C) holder x ∈ first :: xs := by
      unfold challenge
      split_ifs
      · exact hholder
      · exact hx
      · exact hholder
    rw [List.map_cons, appendAll, happend]
    obtain ⟨hrace, hrated⟩ := ih (arrived ++ [x]) (steps ++ stepsOf s x.1 now v) s' _
      (by rw [← heq]; simp) hnext hs'
    refine ⟨hrace, ?_⟩
    -- what the arrival adds to the rate index
    have hadded : s'.rated tld = s.rated tld ++
        (if ¬ LateAgainst first x ∧ Below C x holder then [x] else []).map fun x => x.2.notBefore := by
      obtain ⟨hop, -, htld⟩ := h.register x hx
      rw [hstore]
      by_cases hd : ¬ LateAgainst first x ∧ Below C x holder
      · rw [if_pos hd, if_pos hd, rated_extend, if_pos ⟨Or.inl hop, htld⟩]; rfl
      · rw [if_neg hd, if_neg hd, List.map_nil, List.append_nil]
    rw [hrated, hadded, ladder_cons, List.map_append, List.append_assoc]

/-- **The holder after a race is the winner of the contest.** -/
theorem Race.current_eq {xs : List Contender} {first : Contender} (h : Race C now name tld (first :: xs)) :
    ((raceStore C now (first :: xs)).current name tld).map (·.record) =
      some (contest (LateAgainst first) (Below C) first xs).2 := by
  obtain ⟨v, happend, hs⟩ := h.first List.mem_cons_self
  have hrun := (h.run_from xs [] ([] ++ stepsOf .empty first.1 now v) _ first rfl List.mem_cons_self hs).1
  have hstore : raceStore C now (first :: xs) = (appendAll C ([] ++ stepsOf .empty first.1 now v)
      (Store.empty.extend C first.1 first.2) (xs.map fun x => (x.1, now))).2 := by
    unfold raceStore
    rw [List.map_cons, appendAll, happend]
  obtain ⟨entry, hentry, hrecord, -⟩ := hrun.held
  unfold Store.current
  rw [hstore, hentry, Option.map_some, Option.map_some, hrecord]

/-- The registrations the log counts after a race: the first, and those that displaced a holder. -/
theorem Race.rated_eq {xs : List Contender} {first : Contender} (h : Race C now name tld (first :: xs)) :
    (raceStore C now (first :: xs)).rated tld = first.2.notBefore ::
      (ladder (LateAgainst first) (Below C) first xs).map fun x => x.2.notBefore := by
  obtain ⟨v, happend, hs⟩ := h.first List.mem_cons_self
  obtain ⟨hop, -, htld⟩ := h.register first List.mem_cons_self
  have hrated := (h.run_from xs [] ([] ++ stepsOf .empty first.1 now v) _ first rfl List.mem_cons_self hs).2
  rw [rated_extend, if_pos ⟨Or.inl hop, htld⟩] at hrated
  unfold raceStore
  rw [List.map_cons, appendAll, happend]
  exact hrated

/-- A race that none is late in is won by the least hash. -/
theorem Race.converges {xs : List Contender} {m : Contender} (h : Race C now name tld xs)
    (hm : m ∈ xs) (hmin : ∀ x ∈ xs, ¬ hashOf C x < hashOf C m)
    (hnot : ∀ x ∈ xs, m.2.notBefore ≤ x.2.notBefore + maxBackdateSeconds) {ys : List Contender}
    (hperm : ys.Perm xs) : ((raceStore C now ys).current name tld).map (·.record) = some m.2 := by
  have hrace := h.perm hperm
  cases ys with
  | nil => rw [List.nil_perm.1 hperm] at hm; simp at hm
  | cons x ys =>
    have hm' := hperm.mem_iff.2 hm
    rw [hrace.current_eq, contest_eq_of_best (m := m) (List.mem_cons.1 hm') ?_ ?_ (List.lt_irrefl _)]
    · have := hnot x (hperm.mem_iff.1 List.mem_cons_self)
      unfold LateAgainst
      omega
    · intro y hy hym
      have hle := hmin y (hperm.mem_iff.1 hy)
      have hsym : Std.Symm fun x y : Contender => hashOf C x ≠ hashOf C y := ⟨fun _ _ hne => hne.symm⟩
      have hne := hrace.hashes.forall hy hm' hym
      refine ⟨?_, hle⟩
      by_contra hge
      exact hne (List.le_antisymm (List.not_lt.1 hge) (List.not_lt.1 hle))

/-- **Every order of a race ends with the smallest hash exactly when that record is not late
against any other**: at most a day later than each. -/
theorem races_converge_iff {xs : List Contender} {m : Contender} (h : Race C now name tld xs)
    (hm : m ∈ xs) (hmin : ∀ x ∈ xs, ¬ hashOf C x < hashOf C m) :
    (∀ ys, ys.Perm xs → ((raceStore C now ys).current name tld).map (·.record) = some m.2) ↔
      ∀ x ∈ xs, m.2.notBefore ≤ x.2.notBefore + maxBackdateSeconds := by
  constructor
  · intro hall x hx
    by_contra hlate
    -- `x` comes first, and `m` is late against it
    obtain ⟨before, after, rfl⟩ := List.append_of_mem hx
    have hperm : (x :: (before ++ after)).Perm (before ++ x :: after) := List.perm_middle.symm
    have hrace := h.perm hperm
    have hcurrent := hrace.current_eq
    rw [hall _ hperm, Option.some.injEq] at hcurrent
    have hmx : m ≠ x := by rintro rfl; omega
    have howner : ∀ y ∈ x :: (before ++ after), y ≠ m → y.2 ≠ m.2 := by
      intro y hy hym heq
      have hm' : m ∈ x :: (before ++ after) := hperm.mem_iff.2 hm
      have hsym : Std.Symm fun x y : Contender => x.2.ownerKey ≠ y.2.ownerKey := ⟨fun _ _ hne => hne.symm⟩
      exact hrace.owners.forall hy hm' hym (by rw [heq])
    set w := contest (LateAgainst x) (Below C) x (before ++ after) with hw
    by_cases hwm : w = m
    · have hwinner : w = x ∨ ¬ LateAgainst x w := contest_not_late x (before ++ after)
      rcases hwinner with hfirst | hnot
      · rw [hwm] at hfirst
        exact hmx hfirst
      · rw [hwm] at hnot
        exact hnot (by unfold LateAgainst; omega)
    · exact howner w (contest_mem _ _) hwm hcurrent.symm
  · intro hnot ys hperm
    exact h.converges hm hmin hnot hperm

/-- `late` has the smaller hash. -/
theorem late_below_first : hashOf Sample.crypto (Sample.late.bytes, Sample.late.record) <
    hashOf Sample.crypto (Sample.first.bytes, Sample.first.record) := Sample.hash_late_lt

/-- The race between `first` and `late`. -/
theorem race_first_late : Race Sample.crypto 1700000000 "observatory-lantern" "abacus"
    [(Sample.first.bytes, Sample.first.record), (Sample.late.bytes, Sample.late.record)] := by
  constructor
  case accepted =>
    intro x hx
    rcases List.mem_cons.1 hx with rfl | hx
    · exact ⟨_, Sample.append_first⟩
    · rw [List.mem_singleton.1 hx]; exact ⟨_, Sample.append_late⟩
  case register => simp [Sample.SampleRecord.record, Sample.first, Sample.late]
  case owners =>
    have hne : Sample.ownerA ≠ Sample.ownerB := by decide
    simp [Sample.SampleRecord.record, Sample.first, Sample.late, hne]
  case hashes =>
    have hne : hashOf Sample.crypto (Sample.first.bytes, Sample.first.record) ≠
        hashOf Sample.crypto (Sample.late.bytes, Sample.late.record) := by
      intro heq
      have hlt := late_below_first
      rw [heq] at hlt
      exact List.lt_irrefl _ hlt
    simp [hne]
  case bits =>
    have hbits : ∀ n ≤ 2, requiredBits (jsLength "observatory-lantern") n ≤ 4 := by decide
    intro x hx proof hproof n hn
    have hfour : proof.bits = 4 := by
      rcases List.mem_cons.1 hx with rfl | hx
      · simp only [Sample.SampleRecord.record, Sample.first, Option.map_some, Option.some.injEq] at hproof
        rw [← hproof]
      · rw [List.mem_singleton.1 hx] at hproof
        simp only [Sample.SampleRecord.record, Sample.late, Option.map_some, Option.some.injEq] at hproof
        rw [← hproof]
    rw [hfour]; exact hbits n hn

theorem races_converge_first_late : (∀ ys, ys.Perm [(Sample.first.bytes, Sample.first.record),
      (Sample.late.bytes, Sample.late.record)] →
        ((raceStore Sample.crypto 1700000000 ys).current "observatory-lantern" "abacus").map (·.record) =
          some Sample.late.record) ↔
    ∀ x ∈ [(Sample.first.bytes, Sample.first.record), (Sample.late.bytes, Sample.late.record)],
      Sample.late.record.notBefore ≤ x.2.notBefore + maxBackdateSeconds := by
  refine races_converge_iff (m := (Sample.late.bytes, Sample.late.record)) race_first_late (by simp) ?_
  intro x hx
  rcases List.mem_cons.1 hx with rfl | hx
  · exact fun hlt => List.lt_irrefl _ (List.lt_trans hlt late_below_first)
  · rw [List.mem_singleton.1 hx]; exact List.lt_irrefl _

/-- `late` has the smaller hash, and loses the name when `first` arrives before it. -/
theorem races_need_not_converge : ¬ ∀ (C : Crypto) (now : ℕ) (name tld : String) (xs : List Contender)
    (m : Contender), Race C now name tld xs → m ∈ xs → (∀ x ∈ xs, ¬ hashOf C x < hashOf C m) →
      ∀ ys, ys.Perm xs → ((raceStore C now ys).current name tld).map (·.record) = some m.2 := by
  intro h
  have hmin : ∀ x ∈ [(Sample.first.bytes, Sample.first.record), (Sample.late.bytes, Sample.late.record)],
      ¬ hashOf Sample.crypto x < hashOf Sample.crypto (Sample.late.bytes, Sample.late.record) := by
    intro x hx
    rcases List.mem_cons.1 hx with rfl | hx
    · exact fun hlt => List.lt_irrefl _ (List.lt_trans hlt late_below_first)
    · rw [List.mem_singleton.1 hx]; exact List.lt_irrefl _
  have hcurrent := h _ _ _ _ _ _ race_first_late (by simp) hmin _ (.refl _)
  rw [race_first_late.current_eq] at hcurrent
  simp [contest, challenge, LateAgainst, Sample.SampleRecord.record, Sample.first, Sample.late,
    maxBackdateSeconds] at hcurrent

end VayuWeb
