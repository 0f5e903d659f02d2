import VayuWeb.Proof.Verify
import VayuWeb.Spec.Store

/-!
# What an append does

An append leaves the store as it is, or enters one record: on the ordinary path, when the
verifier accepts it, or on the merge path, when it wins a convergence conflict.

* `apply_eq`: entering a record never throws.
* `append_cases`: the three outcomes.
* `append_ordinary`, `append_merge`: when a record is entered.
* `Run`: the runs of appends, with the steps that entered a record; `Run.induction`.
-/

namespace VayuWeb

open Bytes

variable {C : Crypto} {s s' : Store} {b : Bytes} {now : ℕ} {r : RegistryRecord}

/-! ## Entering a record -/

/-- The key of a record's name. -/
def keyOf (r : RegistryRecord) : String := nameKey r.name r.tld

/-- The log entry a record becomes. -/
def Store.nextLogEntry (C : Crypto) (s : Store) (b : Bytes) (r : RegistryRecord) : LogEntry :=
  { index := s.entries.length, bytes := b, record := r, hash := recordHashFromBytes C b }

/-- Who signed a record, which for a TRANSFER is not the key it names. -/
def Store.signerKeyOf (s : Store) (r : RegistryRecord) : Bytes :=
  match s.names.get? (keyOf r) with
  | some held => if r.op = .transfer then controllingKey held.current r.notBefore else r.ownerKey
  | none => r.ownerKey

/-- The index entry a record becomes. -/
def Store.nextNameEntry (C : Crypto) (s : Store) (b : Bytes) (r : RegistryRecord) : NameEntry :=
  { current := { record := r, hash := recordHashFromBytes C b, signerKey := s.signerKeyOf r }
    logIndex := s.entries.length
    revoked := if r.op = .register then false
      else (match s.names.get? (keyOf r) with | some h => h.revoked | none => false) || r.op = .revoke
    rootHash := if r.op = .register then recordHashFromBytes C b
      else match s.names.get? (keyOf r) with
        | some h => h.rootHash
        | none => recordHashFromBytes C b }

/-- The rate index once a record is in the log. -/
def Store.nextRates (s : Store) (r : RegistryRecord) : OrdMap String (List ℕ) :=
  if r.op = .register ∨ r.op = .renew then
    s.rates.set r.tld (insertSorted ((s.rates.get? r.tld).getD []) r.notBefore)
  else s.rates

/-- The store with a record entered into its log and index. -/
def Store.enter (C : Crypto) (s : Store) (b : Bytes) (r : RegistryRecord) : Store :=
  { s with
    entries := s.entries ++ [s.nextLogEntry C b r]
    seen := s.seen ++ [recordHashFromBytes C b]
    rates := s.nextRates r
    names := s.names.set (keyOf r) (s.nextNameEntry C b r) }

/-- An entry as it stands in the log file. -/
def framed (b : Bytes) : Bytes := beBytes lengthPrefixBytes b.length ++ b

/-- The store with a record written and entered. -/
def Store.extend (C : Crypto) (s : Store) (b : Bytes) (r : RegistryRecord) : Store :=
  { s.enter C b r with file := s.file ++ framed b }

@[simp] theorem extend_entries : (s.extend C b r).entries = s.entries ++ [s.nextLogEntry C b r] := rfl

@[simp] theorem extend_seen : (s.extend C b r).seen = s.seen ++ [recordHashFromBytes C b] := rfl

@[simp] theorem extend_names :
    (s.extend C b r).names = s.names.set (keyOf r) (s.nextNameEntry C b r) := rfl

@[simp] theorem extend_rates : (s.extend C b r).rates = s.nextRates r := rfl

@[simp] theorem extend_file : (s.extend C b r).file = s.file ++ framed b := rfl

/-- **Entering a record never throws**: the signer's key is always supplied. -/
theorem apply_eq (s : Store) (b : Bytes) (r : RegistryRecord) : s.apply C b r = .ok (s.enter C b r) := by
  unfold Store.apply predecessorFrom
  simp only [Option.isNone_some, Bool.false_eq_true, and_false, if_false, Except.ok_bind,
    Option.getD_some, Except.pure_eq_ok]
  rfl

/-- What writing a record does to the file. -/
theorem write_eq (s : Store) (h : b.length ≤ maxEntryBytes) :
    s.write b = .ok { s with file := s.file ++ framed b } := by
  unfold Store.write frame
  rw [if_neg (by omega)]
  rfl

theorem admit_length (h : admitBytes b = .ok r) : b.length ≤ maxEntryBytes :=
  (admit_eq_ok.1 h).1.trans (by decide)

/-! ## The two paths -/

/-- The verifier accepts a record that is not held yet. -/
structure OrdinaryOK (C : Crypto) (s : Store) (b : Bytes) (now : ℕ) (r : RegistryRecord) : Prop where
  fresh : s.has C b = false
  admitted : admitBytes b = .ok r
  judged : JudgedOK C r (s.view C) now false

/-- The record a conflict is resolved from. -/
def incomingCandidate (C : Crypto) (b : Bytes) (r : RegistryRecord) : Candidate :=
  { record := r, hash := recordHashFromBytes C b, logIndex := none, valid := true }

/-- A registration wins the conflict over a held name. -/
structure MergeOK (C : Crypto) (s : Store) (b : Bytes) (now : ℕ) (r : RegistryRecord)
    (held : NameEntry) (root : LogEntry) : Prop where
  fresh : s.has C b = false
  admitted : admitBytes b = .ok r
  taken : ∃ detail, verify C b (s.view C) now false = .ok (.reject .nameTaken detail)
  op : r.op = .register
  seq : r.seq = 0
  heldAt : s.names.get? (keyOf r) = some held
  rootAt : s.rootEntryFor (keyOf r) = some root
  concurrent : r.notBefore ≤ root.record.notBefore + maxBackdateSeconds
  stranger : r.ownerKey ≠ root.record.ownerKey
  lower : compareHashes (recordHashFromBytes C b) held.rootHash = .ok .lt
  merits : JudgedOK C r (s.view C) now true
  wins : ∃ resolution, resolveConflict [incomingCandidate C b r, Store.candidateOf root] = .ok resolution ∧
    compareHashes resolution.winner.hash (recordHashFromBytes C b) = .ok .eq

/-- Hashes of one length are compared. -/
theorem compareHashes_of_length {a b : Bytes} (h : a.length = b.length) : compareHashes a b = .ok (compareBytes a b) :=
  if_neg (by simp [h])

/-- A registration that wins hashes to less than the one that holds the name. -/
theorem MergeOK.smaller {held : NameEntry} {root : LogEntry} (h : MergeOK C s b now r held root) :
    recordHashFromBytes C b < held.rootHash := by
  have hlower := h.lower
  unfold compareHashes at hlower
  split_ifs at hlower
  rw [Except.ok.injEq] at hlower
  exact compareBytes_lt.1 hlower

/-- The records a win over `root` voids, in their exact bytes. -/
def Store.voidedBy (C : Crypto) (s : Store) (b : Bytes) (r : RegistryRecord) (root : LogEntry) :
    List Bytes :=
  (voidedChain (fun _ => false) (Store.candidateOf root)
    ((s.entries.filter fun e => nameKey e.record.name e.record.tld = keyOf r).map Store.candidateOf)).filterMap
    fun c => (s.extend C b r).encodingOf c.hash

/-- How a merge ends. -/
theorem mergeConflict_cases {taken v : Verdict} (hfresh : s.has C b = false)
    (htaken : ∃ detail, verify C b (s.view C) now false = .ok (.reject .nameTaken detail))
    (h : s.mergeConflict C b now taken = .ok (v, s')) :
    (s' = s ∧ (v = taken ∨ ∀ r x d, v ≠ .accept r x d)) ∨
      ∃ r held root, MergeOK C s b now r held root ∧
        v = .accept r (some (s.voidedBy C b r root)) false ∧ s' = s.extend C b r := by
  -- each guard that gives up leaves the store as it was, and answers with a refusal
  unfold Store.mergeConflict at h
  split at h
  · simp only [Except.ok.injEq, Prod.mk.injEq] at h
    exact Or.inl ⟨h.2.symm, Or.inl h.1.symm⟩
  rename_i r hp
  have hr := parseRecordBytes_eq_ok.1 hp
  split at h
  · simp only [Except.ok.injEq, Prod.mk.injEq] at h
    exact Or.inl ⟨h.2.symm, Or.inl h.1.symm⟩
  rename_i hop
  simp only [ne_eq, not_or, Decidable.not_not] at hop
  simp only at h
  split at h
  swap
  · simp only [Except.ok.injEq, Prod.mk.injEq] at h
    exact Or.inl ⟨h.2.symm, Or.inl h.1.symm⟩
  rename_i held root hheld hroot
  split at h
  · simp only [Except.ok.injEq, Prod.mk.injEq] at h
    exact Or.inl ⟨h.2.symm, Or.inl h.1.symm⟩
  rename_i hlate
  split at h
  · simp only [Except.ok.injEq, Prod.mk.injEq] at h
    exact Or.inl ⟨h.2.symm, Or.inl h.1.symm⟩
  rename_i howner
  obtain ⟨order, horder, h⟩ := Except.bind_eq_ok.1 h
  split at h
  · simp only [Except.pure_eq_ok, Except.ok.injEq, Prod.mk.injEq] at h
    exact Or.inl ⟨h.2.symm, Or.inl h.1.symm⟩
  rename_i hlt
  simp only [ne_eq, Decidable.not_not] at hlt
  -- the challenger is verified once more, the held name left out of account
  obtain ⟨onMerits, hmerits, h⟩ := Except.bind_eq_ok.1 h
  split at h
  swap
  · rename_i verdict hna
    simp only [Except.pure_eq_ok, Except.ok.injEq, Prod.mk.injEq] at h
    exact Or.inl ⟨h.2.symm, Or.inr fun r' x d hv => hna r' x d (by rw [← hv, ← h.1])⟩
  rename_i r' x d
  obtain ⟨hr', hj, -, -⟩ := verify_accept.1 hmerits
  rw [hr, Except.ok.injEq] at hr'; subst hr'
  obtain ⟨resolution, hres, h⟩ := Except.bind_eq_ok.1 h
  obtain ⟨won, hwon, h⟩ := Except.bind_eq_ok.1 h
  split at h
  · simp only [Except.pure_eq_ok, Except.ok.injEq, Prod.mk.injEq] at h
    exact Or.inl ⟨h.2.symm, Or.inl h.1.symm⟩
  -- all guards passed, so the record is written and what it displaces is voided
  rename_i heq
  simp only [ne_eq, Decidable.not_not] at heq
  rw [write_eq s (admit_length hr)] at h
  simp only [Except.ok_bind, apply_eq, Except.pure_eq_ok, Except.ok.injEq, Prod.mk.injEq] at h
  refine Or.inr ⟨r, held, root, ?_, h.1.symm, h.2.symm⟩
  exact { fresh := hfresh, admitted := hr, taken := htaken, op := hop.1, seq := hop.2, heldAt := hheld,
          rootAt := hroot, concurrent := by omega,
          stranger := fun he => howner (compareBytes_eq.2 he), lower := by rw [horder, hlt],
          merits := hj, wins := ⟨resolution, hres, by rw [hwon, heq]⟩ }

/-- **What an append does**: nothing, or one record entered on either path. -/
theorem append_cases {v : Verdict} (h : s.append C b now = .ok (v, s')) :
    (s' = s ∧ ∀ r x, v ≠ .accept r x false) ∨
      (∃ r, OrdinaryOK C s b now r ∧ v = .accept r none false ∧ s' = s.extend C b r) ∨
      ∃ r held root, MergeOK C s b now r held root ∧
        v = .accept r (some (s.voidedBy C b r root)) false ∧ s' = s.extend C b r := by
  unfold Store.append at h
  -- held already, taken but contested, accepted, or refused
  split at h
  · obtain ⟨r, -, h⟩ := Except.bind_eq_ok.1 h
    simp only [Except.pure_eq_ok, Except.ok.injEq, Prod.mk.injEq] at h
    refine Or.inl ⟨h.2.symm, fun r' x hv => ?_⟩
    rw [← h.1] at hv; simp at hv
  rename_i hfresh
  simp only [Bool.not_eq_true] at hfresh
  obtain ⟨verdict, hv, h⟩ := Except.bind_eq_ok.1 h
  split at h
  · rename_i detail
    rcases mergeConflict_cases hfresh ⟨detail, hv⟩ h with ⟨hs, hnot⟩ | hm
    · refine Or.inl ⟨hs, fun r x hacc => ?_⟩
      rcases hnot with rfl | hnot
      · simp at hacc
      · exact hnot r x false hacc
    · exact Or.inr (Or.inr hm)
  · rename_i r x d
    obtain ⟨hr, hj, rfl, rfl⟩ := verify_accept.1 hv
    rw [write_eq s (admit_length hr)] at h
    simp only [Except.ok_bind, apply_eq, Except.pure_eq_ok, Except.ok.injEq, Prod.mk.injEq] at h
    exact Or.inr (Or.inl ⟨r, ⟨hfresh, hr, hj⟩, h.1.symm, h.2.symm⟩)
  · rename_i hna1 hna2
    simp only [Except.pure_eq_ok, Except.ok.injEq, Prod.mk.injEq] at h
    refine Or.inl ⟨h.2.symm, fun r x hacc => hna2 r x false ?_⟩
    rw [h.1, hacc]

/-- A record that is accepted without a conflict is appended. -/
theorem append_ordinary (h : OrdinaryOK C s b now r) :
    s.append C b now = .ok (.accept r none false, s.extend C b r) := by
  have hv : s.verifyAt C b now = .ok (.accept r none false) :=
    verify_accept.2 ⟨h.admitted, h.judged, rfl, rfl⟩
  unfold Store.append
  rw [if_neg (by simp [h.fresh]), hv]
  simp only [Except.ok_bind]
  rw [write_eq s (admit_length h.admitted)]
  simp only [Except.ok_bind, apply_eq, Except.pure_eq_ok]
  rfl

/-- A record that wins a conflict is appended and names what it voids. -/
theorem append_merge {held : NameEntry} {root : LogEntry} (h : MergeOK C s b now r held root) :
    s.append C b now = .ok (.accept r (some (s.voidedBy C b r root)) false, s.extend C b r) := by
  obtain ⟨detail, htaken⟩ := h.taken
  obtain ⟨resolution, hres, hwon⟩ := h.wins
  have hv : s.verifyAt C b now = .ok (.reject .nameTaken detail) := htaken
  have hm : verify C b (s.view C) now true = .ok (.accept r none false) :=
    verify_accept.2 ⟨h.admitted, h.merits, rfl, rfl⟩
  unfold Store.append
  rw [if_neg (by simp [h.fresh]), hv]
  simp only [Except.ok_bind]
  unfold Store.mergeConflict
  rw [parseRecordBytes_eq_ok.2 h.admitted]
  simp only [h.op, h.seq, ne_eq, not_true_eq_false, or_self, if_false]
  rw [show s.names.get? (nameKey r.name r.tld) = some held from h.heldAt,
    show s.rootEntryFor (nameKey r.name r.tld) = some root from h.rootAt]
  simp only
  have hconc := h.concurrent
  rw [if_neg (by omega), if_neg (fun he => h.stranger (compareBytes_eq.1 he)), h.lower]
  simp only [Except.ok_bind, not_true_eq_false, if_false, hm]
  unfold incomingCandidate at hres
  rw [hres]
  simp only [Except.ok_bind, hwon, not_true_eq_false, if_false]
  rw [write_eq s (admit_length h.admitted)]
  simp only [Except.ok_bind, apply_eq, Except.pure_eq_ok]
  rfl

/-- A registration of a name that is taken goes to the merge. -/
theorem append_taken {detail : String} (hfresh : s.has C b = false)
    (htaken : verify C b (s.view C) now false = .ok (.reject .nameTaken detail)) :
    s.append C b now = s.mergeConflict C b now (.reject .nameTaken detail) := by
  unfold Store.append
  rw [if_neg (by simp [hfresh])]
  have hv : s.verifyAt C b now = .ok (.reject .nameTaken detail) := htaken
  rw [hv]
  rfl

/-- An append that names nothing voided was an ordinary one. -/
theorem ordinary_of_append (h : s.append C b now = .ok (.accept r none false, s')) :
    OrdinaryOK C s b now r := by
  rcases append_cases h with ⟨-, hnot⟩ | ⟨r', hok, hv, -⟩ | ⟨r', held, root, -, hv, -⟩
  · exact absurd rfl (hnot r none)
  · simp only [Verdict.accept.injEq] at hv
    rw [hv.1]; exact hok
  · simp at hv

/-- An append that names what it voids won a conflict. -/
theorem merge_of_append {voided : List Bytes}
    (h : s.append C b now = .ok (.accept r (some voided) false, s')) :
    ∃ held root, MergeOK C s b now r held root := by
  rcases append_cases h with ⟨-, hnot⟩ | ⟨r', -, hv, -⟩ | ⟨r', held, root, hok, hv, -⟩
  · exact absurd rfl (hnot r (some voided))
  · simp at hv
  · simp only [Verdict.accept.injEq] at hv
    rw [hv.1]; exact ⟨held, root, hok⟩

/-- Only bytes that are held already are accepted as a duplicate. -/
theorem append_duplicate {voided : Option (List Bytes)}
    (h : s.append C b now = .ok (.accept r voided true, s')) :
    s.has C b = true ∧ Store.parseOrThrow b = .ok r := by
  unfold Store.append at h
  split at h
  · rename_i hhas
    obtain ⟨parsed, hparsed, h⟩ := Except.bind_eq_ok.1 h
    simp only [Except.pure_eq_ok, Except.ok.injEq, Prod.mk.injEq, Verdict.accept.injEq] at h
    rw [h.1.1] at hparsed
    exact ⟨hhas, hparsed⟩
  · rename_i hfresh
    simp only [Bool.not_eq_true] at hfresh
    exfalso
    obtain ⟨verdict, hv, h⟩ := Except.bind_eq_ok.1 h
    split at h
    · rename_i detail
      rcases mergeConflict_cases hfresh ⟨detail, hv⟩ h with ⟨-, htaken | hnot⟩ | ⟨_, _, _, -, hacc, -⟩
      · simp at htaken
      · exact hnot _ _ _ rfl
      · simp at hacc
    · obtain ⟨-, -, -, rfl⟩ := verify_accept.1 hv
      obtain ⟨_, -, h⟩ := Except.bind_eq_ok.1 h
      obtain ⟨_, -, h⟩ := Except.bind_eq_ok.1 h
      simp at h
    · rename_i hnot
      simp only [Except.pure_eq_ok, Except.ok.injEq, Prod.mk.injEq] at h
      exact hnot _ _ _ h.1

/-! ## Runs -/

/-- The path by which a record came into the log. -/
inductive Path where
  | ordinary | merge
  deriving DecidableEq, Repr

/-- One append that entered a record. -/
structure Step where
  before : Store
  bytes : Bytes
  now : ℕ
  record : RegistryRecord
  path : Path

/-- What an append that answered `v` contributes to a run. -/
def stepsOf (s : Store) (b : Bytes) (now : ℕ) : Verdict → List Step
  | .accept r none false => [⟨s, b, now, r, .ordinary⟩]
  | .accept r (some _) false => [⟨s, b, now, r, .merge⟩]
  | _ => []

/-- The runs of appends from an empty log, with the steps that entered a record. An append
that throws leaves the store as it was. -/
inductive Run (C : Crypto) : List Step → Store → Prop
  | empty : Run C [] .empty
  | append {steps : List Step} {s s' : Store} {b : Bytes} {now : ℕ} {v : Verdict} :
      Run C steps s → s.append C b now = .ok (v, s') → Run C (steps ++ stepsOf s b now v) s'

/-- A step enters its record on its path. -/
structure Step.OK (C : Crypto) (st : Step) : Prop where
  ordinary : st.path = .ordinary → OrdinaryOK C st.before st.bytes st.now st.record
  merge : st.path = .merge → ∃ held root, MergeOK C st.before st.bytes st.now st.record held root

/-- The store after a step. -/
def Step.after (C : Crypto) (st : Step) : Store := st.before.extend C st.bytes st.record

/-- A step is ordinary or wins a conflict. -/
theorem Step.OK.cases {st : Step} (h : st.OK C) :
    OrdinaryOK C st.before st.bytes st.now st.record ∨
      ∃ held root, MergeOK C st.before st.bytes st.now st.record held root := by
  cases hp : st.path with
  | ordinary => exact Or.inl (h.ordinary hp)
  | merge => exact Or.inr (h.merge hp)

/-- A step's record was not held. -/
theorem Step.OK.fresh {st : Step} (h : st.OK C) : st.before.has C st.bytes = false := by
  rcases h.cases with h | ⟨_, _, h⟩ <;> exact h.fresh

theorem Step.OK.admitted {st : Step} (h : st.OK C) : admitBytes st.bytes = .ok st.record := by
  rcases h.cases with h | ⟨_, _, h⟩ <;> exact h.admitted

/-- On either path the verifier accepts the record, setting a held name aside on a merge. -/
theorem Step.OK.judged {st : Step} (h : st.OK C) :
    ∃ ignore, JudgedOK C st.record (st.before.view C) st.now ignore := by
  rcases h.cases with h | ⟨_, _, h⟩
  · exact ⟨false, h.judged⟩
  · exact ⟨true, h.merits⟩

/-- **Induction over the steps of a run**: what holds of the empty run and is kept by a step that
enters a record holds of every run. -/
theorem Run.induction {P : List Step → Store → Prop} (h0 : P [] .empty)
    (hstep : ∀ steps st, Run C steps st.before → P steps st.before → st.OK C →
      P (steps ++ [st]) (st.after C))
    {steps : List Step} {s : Store} (h : Run C steps s) : P steps s := by
  induction h with
  | empty => exact h0
  | @append steps s s' b now v hs hstep' ih =>
    rcases append_cases hstep' with ⟨rfl, hnot⟩ | ⟨r, hok, rfl, rfl⟩ | ⟨r, held, root, hok, rfl, rfl⟩
    · have hp : stepsOf s' b now v = [] := by
        unfold stepsOf
        split
        · exact absurd rfl (hnot _ _)
        · exact absurd rfl (hnot _ _)
        · rfl
      rw [hp, List.append_nil]; exact ih
    · exact hstep steps ⟨s, b, now, r, .ordinary⟩ hs ih ⟨fun _ => hok, (nomatch ·)⟩
    · exact hstep steps ⟨s, b, now, r, .merge⟩ hs ih ⟨(nomatch ·), fun _ => ⟨held, root, hok⟩⟩

/-- A property of stores that entering a record keeps. -/
theorem Run.store_induction {P : Store → Prop} (h0 : P .empty)
    (hstep : ∀ st : Step, P st.before → st.OK C → P (st.after C)) {steps : List Step} {s : Store}
    (h : Run C steps s) : P s :=
  Run.induction (P := fun _ s => P s) h0 (fun _ st _ ih hok => hstep st ih hok) h

/-- Every step of a run was accepted. -/
theorem Run.steps_ok {steps : List Step} {s : Store} (h : Run C steps s) : ∀ st ∈ steps, st.OK C :=
  Run.induction (P := fun steps _ => ∀ st ∈ steps, st.OK C) (by simp)
    (fun steps st _ ih hok st' hst' => by
      rcases List.mem_append.1 hst' with h | h
      · exact ih st' h
      · rw [List.mem_singleton.1 h]; exact hok) h

/-- The steps and the store after a list of appends, each at its own clock. -/
def appendAll (C : Crypto) : List Step → Store → List (Bytes × ℕ) → List Step × Store
  | steps, s, [] => (steps, s)
  | steps, s, (b, now) :: calls =>
    match s.append C b now with
    | .ok (v, s') => appendAll C (steps ++ stepsOf s b now v) s' calls
    | .error _ => appendAll C steps s calls

/-- Appending one record after another goes on with a run. -/
theorem run_appendAll {steps : List Step} {s : Store} (h : Run C steps s) (calls : List (Bytes × ℕ)) :
    Run C (appendAll C steps s calls).1 (appendAll C steps s calls).2 := by
  induction calls generalizing steps s with
  | nil => exact h
  | cons call calls ih =>
    obtain ⟨b, now⟩ := call
    unfold appendAll
    split
    · rename_i heq; exact ih (h.append heq)
    · exact ih h

/-- Appends of other names leave a name as it is. -/
theorem appendAll_get?_ne {key : String} (calls : List (Bytes × ℕ)) : ∀ (steps : List Step) (s : Store),
    (∀ call ∈ calls, ∀ r, admitBytes call.1 = .ok r → keyOf r ≠ key) →
    (appendAll C steps s calls).2.names.get? key = s.names.get? key := by
  induction calls with
  | nil => intro steps s _; rfl
  | cons call calls ih =>
    intro steps s h
    obtain ⟨b, now⟩ := call
    have hrest := fun steps s => ih steps s fun call hcall => h call (List.mem_cons_of_mem _ hcall)
    have hkey := h (b, now) List.mem_cons_self
    unfold appendAll
    split
    · rename_i v s' happend
      rw [hrest]
      rcases append_cases happend with ⟨rfl, -⟩ | ⟨r, hok, -, rfl⟩ | ⟨r, held, root, hok, -, rfl⟩
      · rfl
      · rw [extend_names, OrdMap.get?_set_ne _ _ (Ne.symm (hkey r hok.admitted))]
      · rw [extend_names, OrdMap.get?_set_ne _ _ (Ne.symm (hkey r hok.admitted))]
    · exact hrest steps s

end VayuWeb
