import VayuWeb.Proof.ClientBuild
import VayuWeb.Proof.ClientVerdict

/-!
# A transfer that is pending

* `fromBytes_eq`: what the builders are told of a record is what it says.
* `no_successor_settling`: while a transfer is pending they build no successor of any kind.
* `cancellation_refused`: they build no transfer back while one is pending.
-/

namespace VayuWeb.Client

open Bytes
open DetCbor (Key Value Canonical)

/-! ## What a builder is told -/

/-- What the loop of `Predecessor::from_bytes` has found after these members. -/
def Found.after (found : Found) (es : Members) : Found :=
  { seq := (field es "seq").bind asUint <|> found.seq
    notBefore := (field es "notBefore").bind asUint <|> found.notBefore
    notAfter := (field es "notAfter").bind asUint <|> found.notAfter
    op := (field es "op").bind asText <|> found.op
    records :=
      match field es "records" with
      | some (.array list) => list
      | _ => found.records }

theorem field_none {es : Members} {name : String} (h : Key.text name ∉ es.map Prod.fst) : field es name = none := by
  cases hfield : field es name with
  | none => rfl
  | some v => exact absurd (List.mem_map.2 ⟨_, field_mem hfield, rfl⟩) h

/-- One turn of the loop. -/
theorem read_eq (found : Found) (e : Key × Value)
    (hrecords : ∀ v, field [e] "records" = some v → ∃ list, v = .array list) :
    found.read e = .ok (found.after [e]) := by
  obtain ⟨k, v⟩ := e
  cases k with
  | bytes b => simp [Found.read, Found.after, field]
  | text name =>
    by_cases h1 : name = "seq"
    · subst h1
      simp [Found.read, Found.after, field]
    by_cases h2 : name = "notBefore"
    · subst h2
      simp [Found.read, Found.after, field]
    by_cases h3 : name = "notAfter"
    · subst h3
      simp [Found.read, Found.after, field]
    by_cases h4 : name = "op"
    · subst h4
      simp [Found.read, Found.after, field]
    by_cases h5 : name = "records"
    · subst h5
      obtain ⟨list, rfl⟩ := hrecords v (by rw [field, if_pos rfl])
      simp [Found.read, Found.after, field]
    · unfold Found.read
      simp [Found.after, field, h1, h2, h3, h4, h5]

/-- The keys of a map are distinct, so that no turn undoes another. -/
theorem after_after (found : Found) {e : Key × Value} {es : Members} (h : e.1 ∉ es.map Prod.fst) :
    (found.after [e]).after es = found.after (e :: es) := by
  obtain ⟨k, v⟩ := e
  have hread : ∀ name, field ((k, v) :: es) name = if k = .text name then some v else field es name := fun _ => rfl
  have hone : ∀ name, field [(k, v)] name = if k = .text name then some v else none := fun _ => rfl
  have hnone : ∀ name, k = .text name → field es name = none := by
    intro name hk
    rw [hk] at h
    exact field_none h
  have hsame : ∀ name, k = .text name ∧ field es name = none ∨ k ≠ .text name := by
    intro name
    by_cases hk : k = .text name
    · exact Or.inl ⟨hk, hnone name hk⟩
    · exact Or.inr hk
  unfold Found.after
  simp only [hread, hone]
  congr 1
  · rcases hsame "seq" with ⟨hk, hn⟩ | hk <;> simp [*]
  · rcases hsame "notBefore" with ⟨hk, hn⟩ | hk <;> simp [*]
  · rcases hsame "notAfter" with ⟨hk, hn⟩ | hk <;> simp [*]
  · rcases hsame "op" with ⟨hk, hn⟩ | hk <;> simp [*]
  · rcases hsame "records" with ⟨hk, hn⟩ | hk <;> simp [*]

/-- What the reader finds in the fields of a record. -/
theorem foldlM_read {es : Members} (hnodup : (es.map Prod.fst).Nodup)
    (hrecords : ∀ v, field es "records" = some v → ∃ list, v = .array list) (found : Found) :
    es.foldlM Found.read found = .ok (found.after es) := by
  induction es generalizing found with
  | nil => rfl
  | cons e es ih =>
    rw [List.map_cons, List.nodup_cons] at hnodup
    have hone : ∀ v, field [e] "records" = some v → ∃ list, v = .array list := by
      intro v hv
      apply hrecords v
      rw [field] at hv ⊢
      split_ifs at hv ⊢ with hk
      · exact hv
      · cases hv
    have hrest : ∀ v, field es "records" = some v → ∃ list, v = .array list := by
      intro v hv
      apply hrecords v
      have hne : e.1 ≠ .text "records" := by
        intro heq
        rw [heq] at hnodup
        exact hnodup.1 (List.mem_map.2 ⟨_, field_mem hv, rfl⟩)
      rw [field, if_neg hne]
      exact hv
    rw [List.foldlM_cons, read_eq found e hone, Except.ok_bind, ih hnodup.2 hrest, after_after found hnodup.1]

/-- What the builders are told of an admitted record. -/
theorem fromBytes_eq (C : Crypto) {b : Bytes} {r : RegistryRecord} (h : admitBytes b = .ok r) :
    ∃ list, Predecessor.fromBytes C b =
      .ok { seq := r.seq, op := r.op, notBefore := r.notBefore, notAfter := r.notAfter,
            hash := recordHashFromBytes C b, revoked := r.op.name = "REVOKE", entries := list } := by
  obtain ⟨es, hes⟩ := admission_of_admit h
  have hp : Parsed es (recordOf es r) := parsed_recordOf hes
  obtain ⟨list, hlist, -, -⟩ := checkEntries_eq_ok.1 hp.entries
  have hdecode : decode b = .ok (.map es) := decode_eq_ok.2 ⟨hes.canonical, hes.bytes⟩
  have hfold : es.foldlM Found.read {} = .ok (Found.after {} es) := by
    have hnodup := sortedKeys_nodup (DetCbor.canonical_map.1 hes.canonical).2.1
    refine foldlM_read hnodup (fun v hv => ?_) {}
    rw [hlist, Option.some.injEq] at hv
    exact ⟨list, hv.symm⟩
  have hop : Operation.ofName r.op.name = some r.op := operation_ofName.2 rfl
  have hafter : Found.after {} es =
      { seq := some r.seq, notBefore := some r.notBefore, notAfter := some r.notAfter, op := some r.op.name,
        records := list } := by
    rw [Found.after, hp.op, hp.seq, hp.notBefore, hp.notAfter, hlist]
    rfl
  refine ⟨list, ?_⟩
  unfold Predecessor.fromBytes
  rw [hdecode]
  simp only [hfold, hafter, okOr, hop, Except.ok_bind]
  rfl

/-! ## Cancelling -/

variable {C : Crypto} {b : Bytes} {r : RegistryRecord} {previous : Predecessor} {now : ℕ}

/-- What every successor asks refuses while a TRANSFER settles. -/
theorem preamble_settling (hop : previous.op = .transfer) (hnow : now < add previous.notBefore settlementSeconds)
    (allowGrace : Bool) : checkSuccessorPreamble previous now allowGrace =
      .error (.settling (add previous.notBefore settlementSeconds)) := by
  rw [checkSuccessorPreamble, checkSettled, if_pos ⟨hop, hnow⟩]
  rfl

/-- Nothing follows a check that refuses. -/
theorem ne_ok_of_refused {α β : Type} {name : Except BuildError Unit} {check : Except BuildError α} {error : BuildError}
    (h : check = .error error) (rest : α → Except BuildError β) (b : β) :
    (do name; let a ← check; rest a) ≠ .ok b := by
  subst h
  intro h
  cases name with
  | error error => cases h
  | ok u => cases h

/-- **While a TRANSFER settles no builder makes a successor**, whichever operation is asked for. -/
theorem no_successor_settling (identity recipient : Identity C) (label tld : String) (windowCount limit : ℕ)
    (entries : List Entry) (hop : previous.op = .transfer)
    (hnow : now < add previous.notBefore settlementSeconds) (bytes : Bytes) :
    buildRenew C identity previous label tld now windowCount limit ≠ .ok bytes ∧
      buildUpdate C identity previous label tld now entries ≠ .ok bytes ∧
      buildTransfer C identity recipient previous label tld now ≠ .ok bytes ∧
      buildRelinquish C identity previous label tld now ≠ .ok bytes ∧
      buildRevoke C identity previous label tld now ≠ .ok bytes := by
  have hrefused := preamble_settling hop hnow
  exact ⟨ne_ok_of_refused (hrefused true) _ bytes, ne_ok_of_refused (hrefused false) _ bytes,
    ne_ok_of_refused (hrefused false) _ bytes, ne_ok_of_refused (hrefused false) _ bytes,
    ne_ok_of_refused (hrefused false) _ bytes⟩

/-- An admitted record's times are safe integers. -/
theorem notBefore_lt (h : admitBytes b = .ok r) : r.notBefore < 2 ^ 53 := by
  obtain ⟨es, hes⟩ := admission_of_admit h
  have hle := (get?_ofWire_number.1 (wire_parsed hes).notBefore).2
  exact Nat.lt_of_le_of_lt hle (by decide)

/-- **No transfer back is built while one is pending**, whoever signs it. -/
theorem cancellation_refused (hb : admitBytes b = .ok r) (hop : r.op = .transfer)
    (hprevious : Predecessor.fromBytes C b = .ok previous) (hpending : now < r.notBefore + 1209600)
    (transferor recipient : Identity C) (label tld : String) :
    ¬ ∃ bytes, buildTransfer C transferor recipient previous label tld now = .ok bytes := by
  obtain ⟨list, hlist⟩ := fromBytes_eq C hb
  rw [hlist, Except.ok.injEq] at hprevious
  rintro ⟨bytes, hbytes⟩
  have hbound := notBefore_lt hb
  have hnow : now < add previous.notBefore settlementSeconds := by
    rw [← hprevious]
    unfold add settlementSeconds
    simp only
    omega
  have hop' : previous.op = .transfer := by
    rw [← hprevious]
    exact hop
  obtain ⟨-, -, hrefused, -⟩ := no_successor_settling transferor recipient label tld 0 0 [] hop' hnow bytes
  exact hrefused hbytes

/-- The owner of `first`, who signs it and nothing else. -/
def firstOwner : Identity Sample.crypto where
  publicKey := Sample.ownerA
  sign message := if message = Sample.first.message then some Sample.first.sig else none
  length_publicKey := by decide +kernel
  length_sign := by
    intro message signature h
    rw [Option.ite_none_right_eq_some, Option.some.injEq] at h
    rw [← h.2]
    decide +kernel
  sign_verifies := by
    intro message signature h
    rw [Option.ite_none_right_eq_some, Option.some.injEq] at h
    rw [h.1, ← h.2]
    decide +kernel

/-- What the builders are told of `transfer`. -/
def pending : Predecessor :=
  { seq := 1, op := .transfer, notBefore := 1699913900, notAfter := 1731449600,
    hash := recordHashFromBytes Sample.crypto Sample.transfer.bytes, revoked := false, entries := [] }

theorem admit_transfer : admitBytes Sample.transfer.bytes = .ok Sample.transfer.record := by decide +kernel

theorem fromBytes_transfer : Predecessor.fromBytes Sample.crypto Sample.transfer.bytes = .ok pending := by
  obtain ⟨list, hlist⟩ := fromBytes_eq Sample.crypto admit_transfer
  have hempty : (Predecessor.fromBytes Sample.crypto Sample.transfer.bytes).toOption.map (·.entries.isEmpty) =
      some true := by decide +kernel
  rw [hlist] at hempty
  have hnil : list = [] := List.isEmpty_iff.1 (Option.some.inj hempty)
  rw [hlist, hnil]
  rfl

theorem cancellation_refused_transfer :
    ¬ ∃ bytes, buildTransfer Sample.crypto firstOwner firstOwner pending "observatory-lantern" "abacus" 1700000000 =
      .ok bytes :=
  cancellation_refused admit_transfer rfl fromBytes_transfer (by decide) firstOwner firstOwner
    "observatory-lantern" "abacus"

/-- A day after it signed `transfer`, the owner of `first` cannot take it back. -/
theorem cancellation_lost : ¬ ∀ (C : Crypto) (steps : List Step) (s s' : Store) (b : Bytes) (r : RegistryRecord)
    (held : NameEntry) (previous : Predecessor) (transferor recipient : Identity C) (before now : ℕ),
    VayuWeb.Run C steps s → s.append C b before = .ok (.accept r none false, s') → r.op = .transfer →
    s'.names.get? (keyOf r) = some held → Predecessor.fromBytes C b = .ok previous →
    transferor.publicKey = held.current.signerKey → recipient.publicKey ≠ r.ownerKey →
    r.notBefore + 300 ≤ now → now < r.notBefore + 1209600 → now + 1209600 ≤ r.notAfter →
    ∃ bytes, buildTransfer C transferor recipient previous r.name r.tld now = .ok bytes ∧
      ∃ record s'', s'.append C bytes now = .ok (.accept record none false, s'') := by
  intro h
  obtain ⟨bytes, hbytes, -⟩ := h Sample.crypto _ _ _ _ _ _ pending firstOwner firstOwner 1700000000 1700000000
    (.append .empty Sample.append_first) Sample.append_transfer rfl rfl fromBytes_transfer (by decide +kernel)
    (by decide +kernel) (by decide) (by decide) (by decide)
  have hpending : 1700000000 < add pending.notBefore settlementSeconds := by decide
  obtain ⟨-, -, hrefused, -⟩ := no_successor_settling firstOwner firstOwner "observatory-lantern" "abacus" 0 0 []
    rfl hpending bytes
  exact hrefused hbytes

end VayuWeb.Client
