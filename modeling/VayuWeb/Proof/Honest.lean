import VayuWeb.Proof.Log
import VayuWeb.Proof.Malleability

/-!
# Evidence in the log

When two entries of one log verify as equivocation.

* `Run.signed`: every entry is signed by the owner it names.
* `honest_history_iff`: two entries are evidence exactly when the name was registered again
  between them, and both carry the same owner and `seq`.
-/

namespace VayuWeb

variable {C : Crypto} {s : Store} {b : Bytes} {r : RegistryRecord}

/-! ## Signatures in the log -/

/-- Every entry of a log is signed by the owner it names. -/
theorem Run.signed {steps : List Step} (h : Run C steps s) :
    ∀ e ∈ s.entries, signedByNamedOwner C e.record = .ok true := by
  refine h.store_induction (P := fun s => ∀ e ∈ s.entries, signedByNamedOwner C e.record = .ok true)
    (by simp [Store.empty]) fun st ih hok e he => ?_
  rw [Step.after, extend_entries, List.mem_append, List.mem_singleton] at he
  rcases he with he | rfl
  · exact ih e he
  · obtain ⟨ignore, hjudged⟩ := hok.judged
    exact hjudged.signed

/-! ## Two entries as evidence -/

/-- Both entries are of one name, at one `seq`, under one owner. -/
def SameClaim (a b : RegistryRecord) : Prop :=
  a.name = b.name ∧ a.tld = b.tld ∧ a.seq = b.seq ∧ a.ownerKey = b.ownerKey

/-- The name of the entry at `i` is registered after `i` and no later than `j`. -/
def RegisteredBetween (s : Store) (key : String) (i j : ℕ) : Prop :=
  ∃ k x, i < k ∧ k ≤ j ∧ s.entries[k]? = some x ∧ keyOf x.record = key ∧ x.record.op = .register

/-- Between two records that say the same of a name the name was registered anew. -/
theorem Run.registeredBetween {steps : List Step} (h : Run C steps s) {i j : ℕ} {a e : LogEntry}
    (ha : s.entries[i]? = some a) (he : s.entries[j]? = some e) (hij : i < j)
    (hsame : SameClaim a.record e.record) : RegisteredBetween s (keyOf a.record) i j := by
  obtain ⟨hname, htld, hseq, -⟩ := hsame
  have hkey : keyOf e.record = keyOf a.record := by unfold keyOf; rw [hname, htld]
  by_contra hno
  have := h.seq_lt ha j e hij he hkey fun k x hk hkj hx hxkey hop =>
    hno ⟨k, x, hk, hkj, hx, hxkey, hop⟩
  omega

/-- **Two entries of a log are evidence exactly when the name was registered again between them
and both carry the same owner and `seq`.** -/
theorem honest_history_iff {steps : List Step} (h : Run C steps s) {i j : ℕ} {a e : LogEntry}
    (ha : s.entries[i]? = some a) (he : s.entries[j]? = some e) (hij : i ≠ j) :
    verifyEquivocation C a.bytes e.bytes = .ok false ↔
      ¬ (RegisteredBetween s (keyOf a.record) (min i j) (max i j) ∧ SameClaim a.record e.record) := by
  have hi := h.indexed
  have hmema := List.mem_of_getElem? ha
  have hmeme := List.mem_of_getElem? he
  obtain ⟨hadma, hhasha⟩ := hi.entry a hmema
  obtain ⟨hadme, hhashe⟩ := hi.entry e hmeme
  -- two entries of one log have different hashes
  have hne : recordHashFromBytes C a.bytes ≠ recordHashFromBytes C e.bytes := by
    rw [← hhasha, ← hhashe]
    intro heq
    have hlt : i < (s.entries.map (·.hash)).length := by
      simpa using (List.getElem?_eq_some_iff.1 ha).1
    refine hij ((List.getElem?_inj hlt hi.nodup).1 ?_)
    rw [List.getElem?_map, List.getElem?_map, ha, he, Option.map_some, Option.map_some, heq]
  rw [verifyEquivocation_eq hadma hadme (h.signed a hmema) (h.signed e hmeme)]
  simp only [Except.ok.injEq, decide_eq_false_iff_not]
  -- the later of the two came after a registration, whichever it is
  have hbetween : SameClaim a.record e.record →
      RegisteredBetween s (keyOf a.record) (min i j) (max i j) := by
    intro hsame
    rcases lt_or_gt_of_ne hij with hlt | hlt
    · rw [min_eq_left hlt.le, max_eq_right hlt.le]
      exact h.registeredBetween ha he hlt hsame
    · rw [min_eq_right hlt.le, max_eq_left hlt.le]
      obtain ⟨hname, htld, hseq, howner⟩ := hsame
      have := h.registeredBetween he ha hlt ⟨hname.symm, htld.symm, hseq.symm, howner.symm⟩
      rwa [show keyOf e.record = keyOf a.record by unfold keyOf; rw [hname, htld]] at this
  refine not_congr ⟨fun ⟨hname, htld, hseq, _, howner⟩ => ?_, fun ⟨_, hname, htld, hseq, howner⟩ =>
    ⟨hname, htld, hseq, hne, howner⟩⟩
  have hsame : SameClaim a.record e.record := ⟨hname, htld, hseq, howner⟩
  exact ⟨hbetween hsame, hsame⟩

/-- A registration and its UPDATE are no evidence. -/
theorem honest_update : verifyEquivocation Sample.crypto Sample.first.bytes Sample.update.bytes =
      .ok false ↔
    ¬ (RegisteredBetween (Sample.enter (Sample.enter .empty Sample.first) Sample.update)
        (keyOf Sample.first.record) (min 0 1) (max 0 1) ∧
      SameClaim Sample.first.record Sample.update.record) :=
  honest_history_iff (i := 0) (j := 1)
    (a := Store.nextLogEntry Sample.crypto .empty Sample.first.bytes Sample.first.record)
    (e := Store.nextLogEntry Sample.crypto (Sample.enter .empty Sample.first) Sample.update.bytes
      Sample.update.record)
    (.append (.append .empty Sample.append_first) Sample.append_update) rfl rfl (by decide)

/-- An owner who registers the name again after its release is reported for both
registrations. -/
theorem honest_owner_reported : ¬ ∀ (C : Crypto) (steps : List Step) (s : Store) (i j : ℕ)
    (st₁ st₂ : Step), Run C steps s → steps[i]? = some st₁ → steps[j]? = some st₂ → i ≠ j →
      st₁.path = .ordinary → st₂.path = .ordinary →
        verifyEquivocation C st₁.bytes st₂.bytes = .ok false := by
  intro h
  have hrun := Run.append (.append .empty Sample.append_first) Sample.append_again
  have hfalse : verifyEquivocation Sample.crypto Sample.first.bytes Sample.again.bytes = .ok false :=
    h Sample.crypto _ _ 0 1 ⟨.empty, Sample.first.bytes, 1700000000, Sample.first.record, .ordinary⟩
      ⟨Sample.enter .empty Sample.first, Sample.again.bytes, 1736633600, Sample.again.record, .ordinary⟩
      hrun rfl rfl (by decide) rfl rfl
  simp [evidence_registrations] at hfalse

end VayuWeb
