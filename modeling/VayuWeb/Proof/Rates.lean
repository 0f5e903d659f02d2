import Mathlib.Data.List.GetD
import Mathlib.Data.List.Pairwise
import VayuWeb.Proof.Log

/-!
# The rate index and the difficulty

* `lowerBound_le`, `lowerBound_eq`: the search stays inside the array, and counts when it is
  sorted.
* `Run.ratesIndexed`: the index is, sorted, the REGISTER and RENEW times the log holds.
* `requiredBitsFor_le`: a store that entered few records asks for few bits.
* `verifyPow_of_le`: a proof verifies at every difficulty up to the one it claims.
* `requiredBits_eq`: the difficulty is a base and what the volume of a window adds to it.
* `powVerified_empty`: no store asks for less than an empty one.
-/

namespace VayuWeb

open Bytes

variable {C : Crypto} {s : Store} {b : Bytes} {r : RegistryRecord} {tld : String}

/-! ## Counting -/

theorem lowerBoundLoop_le (sorted : List ℕ) (value : ℤ) : ∀ fuel low high, low ≤ high →
    lowerBoundLoop sorted value fuel low high ≤ high := by
  intro fuel
  induction fuel with
  | zero => intro low high h; exact h
  | succ fuel ih =>
    intro low high h
    unfold lowerBoundLoop
    split
    · simp only
      split
      · exact ih _ _ (by omega)
      · exact (ih _ _ (by omega)).trans (by omega)
    · exact h

/-- The lower bound lies in the list. -/
theorem lowerBound_le (sorted : List ℕ) (value : ℤ) : lowerBound sorted value ≤ sorted.length :=
  lowerBoundLoop_le _ _ _ _ _ (Nat.zero_le _)

/-- How many registrations and renewals of a TLD the store counts at all. -/
def Store.rateCount (s : Store) (tld : String) : ℕ := ((s.rates.get? tld).getD []).length

/-- A window counts no more than there are. -/
theorem registrationsInWindow_le (s : Store) (tld : String) (at_ : ℤ) :
    s.registrationsInWindow tld at_ ≤ s.rateCount tld := by
  unfold Store.registrationsInWindow Store.rateCount
  cases h : s.rates.get? tld with
  | none => simp
  | some times =>
    simp only [Option.getD_some]
    have := lowerBound_le times (rateWindow at_).2
    omega

theorem insertSorted_length (sorted : List ℕ) (value : ℕ) :
    (insertSorted sorted value).length = sorted.length + 1 := by
  have := lowerBound_le sorted value
  unfold insertSorted
  simp only [List.length_append, List.length_take, List.length_cons, List.length_drop]
  omega

/-- The rate of a TLD once a record is appended. -/
theorem rateCount_extend (tld : String) : (s.extend C b r).rateCount tld =
    s.rateCount tld + if (r.op = .register ∨ r.op = .renew) ∧ r.tld = tld then 1 else 0 := by
  unfold Store.rateCount
  rw [extend_rates, Store.nextRates]
  by_cases hop : r.op = .register ∨ r.op = .renew
  · rw [if_pos hop, OrdMap.get?_set]
    by_cases ht : tld = r.tld
    · subst ht
      rw [if_pos rfl, if_pos ⟨hop, rfl⟩, Option.getD_some, insertSorted_length]
    · rw [if_neg ht, if_neg fun h => ht h.2.symm, Nat.add_zero]
  · rw [if_neg hop, if_neg fun h => hop h.1, Nat.add_zero]

/-! ## Counting in a sorted array -/

/-- The elements of a sorted array below a value come first, and are as many as there are. -/
theorem getElem_lt_iff_of_sorted {l : List ℕ} (h : l.Pairwise (· ≤ ·)) (value : ℤ) :
    ∀ i, i < l.length → ((l.getD i 0 : ℤ) < value ↔ i < l.countP fun x : ℕ => decide ((x : ℤ) < value)) := by
  induction l with
  | nil => intro i hi; simp at hi
  | cons x l ih =>
    obtain ⟨hx, hl⟩ := List.pairwise_cons.1 h
    intro i hi
    -- in a sorted list those below the value come first
    by_cases hlt : (x : ℤ) < value
    · rw [List.countP_cons_of_pos (by simpa using hlt)]
      cases i with
      | zero => simp [hlt]
      | succ i =>
        rw [List.getD_cons_succ, ih hl i (by simpa using hi)]
        omega
    · -- nothing after the first element that is not below the value is
      have hnone : (x :: l).countP (fun x : ℕ => decide ((x : ℤ) < value)) = 0 := by
        rw [List.countP_eq_zero]
        intro y hy
        rcases List.mem_cons.1 hy with rfl | hy
        · simpa using hlt
        · have := hx y hy
          simp only [decide_eq_true_eq]
          omega
      have hge : ¬ ((x :: l).getD i 0 : ℤ) < value := by
        have hmem : (x :: l).getD i 0 ∈ x :: l := by
          rw [List.getD_eq_getElem _ _ hi]
          exact List.getElem_mem hi
        rcases List.mem_cons.1 hmem with heq | hmem
        · rw [heq]; exact hlt
        · have := hx _ hmem
          omega
      rw [hnone]
      simp only [hge, false_iff]
      omega

/-- The search finds how many are smaller. -/
theorem lowerBoundLoop_eq {l : List ℕ} (h : l.Pairwise (· ≤ ·)) (value : ℤ) : ∀ fuel low high,
    low ≤ (l.countP fun x : ℕ => decide ((x : ℤ) < value)) → (l.countP fun x : ℕ => decide ((x : ℤ) < value)) ≤ high →
    high ≤ l.length → high - low ≤ fuel →
    lowerBoundLoop l value fuel low high = l.countP fun x : ℕ => decide ((x : ℤ) < value) := by
  intro fuel
  induction fuel with
  | zero =>
    intro low high hlow hhigh _ hfuel
    change low = _
    omega
  | succ fuel ih =>
    intro low high hlow hhigh hlen hfuel
    unfold lowerBoundLoop
    by_cases hlt : low < high
    · rw [if_pos hlt]
      simp only
      have hmid := getElem_lt_iff_of_sorted h value ((low + high) / 2) (by omega)
      by_cases hbelow : (l.getD ((low + high) / 2) 0 : ℤ) < value
      · rw [if_pos hbelow]
        have := hmid.1 hbelow
        exact ih _ _ (by omega) hhigh hlen (by omega)
      · rw [if_neg hbelow]
        have : ¬ (low + high) / 2 < l.countP fun x : ℕ => decide ((x : ℤ) < value) := fun hc => hbelow (hmid.2 hc)
        exact ih _ _ hlow (by omega) (by omega) (by omega)
    · rw [if_neg hlt]
      omega

/-- **The binary search counts**: in a sorted array it finds how many elements are below. -/
theorem lowerBound_eq {l : List ℕ} (h : l.Pairwise (· ≤ ·)) (value : ℤ) :
    lowerBound l value = l.countP fun x : ℕ => decide ((x : ℤ) < value) :=
  lowerBoundLoop_eq h value _ _ _ (Nat.zero_le _) List.countP_le_length le_rfl (by omega)

/-- What is below the end of a window is below its start or inside. -/
theorem countP_lt_add {l : List ℕ} {start end_ : ℤ} (h : start ≤ end_) :
    l.countP (fun x : ℕ => decide ((x : ℤ) < start)) +
        l.countP (fun x : ℕ => decide (start ≤ x) && decide ((x : ℤ) < end_)) =
      l.countP fun x : ℕ => decide ((x : ℤ) < end_) := by
  induction l with
  | nil => rfl
  | cons x l ih =>
    simp only [List.countP_cons, Bool.and_eq_true, decide_eq_true_eq]
    rw [← ih]
    by_cases hstart : (x : ℤ) < start
    · rw [if_pos hstart, if_neg (by omega), if_pos (by omega)]
      omega
    · by_cases hend : (x : ℤ) < end_
      · rw [if_neg hstart, if_pos (by omega), if_pos hend]
        omega
      · rw [if_neg hstart, if_neg (by omega), if_neg hend]
        omega

/-- Two searches count what stands in a half-open window. -/
theorem lowerBound_sub {l : List ℕ} (h : l.Pairwise (· ≤ ·)) {start end_ : ℤ} (hle : start ≤ end_) :
    lowerBound l end_ - lowerBound l start =
      l.countP fun x : ℕ => decide (start ≤ (x : ℤ)) && decide ((x : ℤ) < end_) := by
  rw [lowerBound_eq h, lowerBound_eq h]
  have hsplit := countP_lt_add (l := l) hle
  omega

/-- Inserting adds the value. -/
theorem insertSorted_perm (l : List ℕ) (value : ℕ) : (insertSorted l value).Perm (value :: l) := by
  unfold insertSorted
  exact List.perm_middle.trans (List.Perm.cons value (by rw [List.take_append_drop]))

/-- Inserting keeps the order. -/
theorem insertSorted_sorted {l : List ℕ} (h : l.Pairwise (· ≤ ·)) (value : ℕ) :
    (insertSorted l value).Pairwise (· ≤ ·) := by
  unfold insertSorted
  simp only
  rw [lowerBound_eq h]
  set c := l.countP fun x : ℕ => decide ((x : ℤ) < value) with hc
  have hcl : c ≤ l.length := List.countP_le_length
  -- the cut lies behind all that are below the value
  have hbelow : ∀ x ∈ l.take c, x ≤ value := by
    intro x hx
    obtain ⟨i, hi, rfl⟩ := List.getElem_of_mem hx
    rw [List.length_take] at hi
    have hlt := (getElem_lt_iff_of_sorted h value i (by omega)).2 (by omega)
    rw [List.getD_eq_getElem _ _ (by omega)] at hlt
    rw [List.getElem_take]
    omega
  have habove : ∀ x ∈ l.drop c, value ≤ x := by
    intro x hx
    obtain ⟨i, hi, rfl⟩ := List.getElem_of_mem hx
    rw [List.length_drop] at hi
    have hge : ¬ (l.getD (c + i) 0 : ℤ) < value := fun hlt =>
      absurd ((getElem_lt_iff_of_sorted h value (c + i) (by omega)).1 hlt) (by omega)
    rw [List.getD_eq_getElem _ _ (by omega)] at hge
    rw [List.getElem_drop]
    omega
  rw [List.pairwise_append, List.pairwise_cons]
  refine ⟨h.sublist (List.take_sublist _ _), ⟨habove, h.sublist (List.drop_sublist _ _)⟩, ?_⟩
  intro x hx y hy
  have hxv := hbelow x hx
  rcases List.mem_cons.1 hy with rfl | hy
  · exact hxv
  · exact hxv.trans (habove y hy)

/-! ## The rate index -/

/-- The `notBefore` of every REGISTER and RENEW a log holds in a TLD. -/
def Store.rated (s : Store) (tld : String) : List ℕ :=
  (s.entries.filter fun e =>
    (e.record.op = .register ∨ e.record.op = .renew) ∧ e.record.tld = tld).map (·.record.notBefore)

/-- The rate index is what the log says, sorted. -/
def RatesIndexed (s : Store) : Prop := ∀ tld,
  ((s.rates.get? tld).getD []).Pairwise (· ≤ ·) ∧ ((s.rates.get? tld).getD []).Perm (s.rated tld)

/-- The rated records of a TLD once a record is appended. -/
theorem rated_extend : (s.extend C b r).rated tld = s.rated tld ++
    if (r.op = .register ∨ r.op = .renew) ∧ r.tld = tld then [r.notBefore] else [] := by
  unfold Store.rated
  rw [extend_entries, List.filter_append, List.map_append]
  by_cases h : (r.op = .register ∨ r.op = .renew) ∧ r.tld = tld
  · simp [Store.nextLogEntry, h]
  · rw [if_neg h, List.filter_cons_of_neg (by rw [decide_eq_true_eq]; exact h), List.filter_nil]
    rfl

/-- Appending keeps the rate index in step with the log. -/
theorem RatesIndexed.extend (h : RatesIndexed s) : RatesIndexed (s.extend C b r) := by
  intro tld
  rw [extend_rates, Store.nextRates, rated_extend]
  obtain ⟨hsorted, hperm⟩ := h tld
  by_cases hop : r.op = .register ∨ r.op = .renew
  · rw [if_pos hop, OrdMap.get?_set]
    by_cases ht : tld = r.tld
    · subst ht
      rw [if_pos rfl, if_pos ⟨hop, rfl⟩, Option.getD_some]
      refine ⟨insertSorted_sorted hsorted _, (insertSorted_perm _ _).trans ?_⟩
      exact (hperm.cons r.notBefore).trans (List.perm_append_singleton _ _).symm
    · rw [if_neg ht, if_neg fun hc => ht hc.2.symm, List.append_nil]
      exact ⟨hsorted, hperm⟩
  · rw [if_neg hop, if_neg fun hc => hop hc.1, List.append_nil]
    exact ⟨hsorted, hperm⟩

/-- A window ends no earlier than it starts. -/
theorem rateWindow_le (at_ : ℤ) : (rateWindow at_).1 ≤ (rateWindow at_).2 := by
  unfold rateWindow rateWindowSeconds
  simp only
  omega

/-- **The window count is what the log holds**, where the index is what the log says. -/
theorem RatesIndexed.registrationsInWindow_eq (h : RatesIndexed s) (at_ : ℤ) :
    s.registrationsInWindow tld at_ = (s.rated tld).countP fun x : ℕ =>
      decide ((rateWindow at_).1 ≤ (x : ℤ)) && decide ((x : ℤ) < (rateWindow at_).2) := by
  obtain ⟨hsorted, hperm⟩ := h tld
  rw [← hperm.countP_eq]
  unfold Store.registrationsInWindow
  cases htimes : s.rates.get? tld with
  | none => rfl
  | some times =>
    rw [htimes, Option.getD_some] at hsorted
    exact lowerBound_sub hsorted (rateWindow_le at_)

/-- The rate index is in step along every run. -/
theorem Run.ratesIndexed {steps : List Step} (hs : Run C steps s) : RatesIndexed s :=
  hs.store_induction (fun tld => by simp [Store.empty, Store.rated]) fun _ h _ => h.extend

/-! ## Proofs of work -/

/-- What the schema establishes about a proof of work. -/
theorem parsePow_some {op : Operation} {m : CborMap} {p : PowProof} (h : parsePow op m = .ok (some p)) :
    ∃ proof, m.get? "powProof" = some (.map proof) ∧ CborMap.get? proof "bits" = some (.number p.bits) := by
  simp only [parsePow, Except.bind_eq_ok, check_eq_ok, Except.pure_eq_ok, Except.ok.injEq] at h
  obtain ⟨powProof, hfield, -, -, -, -, rfl⟩ := h
  unfold powField at hfield
  split at hfield
  · simp [fail] at hfield
  · simp at hfield
  · rename_i rawPow hraw hget
    simp only [Except.bind_eq_ok, Except.pure_eq_ok, Except.ok.injEq, Option.some.injEq] at hfield
    obtain ⟨proof, hproof, rfl⟩ := hfield
    unfold parsePowProof at hproof
    split at hproof
    · rename_i map
      simp only [Except.bind_eq_ok, check_eq_ok, textField_eq_ok] at hproof
      obtain ⟨alg, -, -, -, hproof⟩ := hproof
      split at hproof
      · simp [fail] at hproof
      · simp only [Except.bind_eq_ok, check_eq_ok, bytesField_eq_ok, uintField_eq_ok, Except.pure_eq_ok,
          Except.ok.injEq] at hproof
        obtain ⟨nonce, -, bits, hbits, -, -, rfl⟩ := hproof
        exact ⟨map, hget, hbits⟩
    · simp [fail] at hproof

/-- A proof that verifies at one difficulty verifies at every one up to what it claims. -/
theorem verifyPow_of_le {m : CborMap} {n n' : ℕ} {proof : CborMap} {claimed : ℕ}
    (h : verifyPow C m n = .ok none) (hproof : m.get? "powProof" = some (.map proof))
    (hbits : CborMap.get? proof "bits" = some (.number claimed)) (hle : n' ≤ claimed) :
    verifyPow C m n' = .ok none := by
  unfold verifyPow at h ⊢
  rw [hproof] at h ⊢
  simp only [hbits] at h ⊢
  split at h
  · split at h
    · simp at h
    rename_i halg
    split at h
    · split at h
      · simp at h
      rename_i hnonce
      split at h
      · simp at h
      rw [if_neg halg, if_neg hnonce, if_neg (by omega)]
      exact h
    · simp at h
  · simp at h

/-- A proof that verifies claims what is asked for at least. -/
theorem verifyPow_claims {m : CborMap} {n : ℕ} (h : verifyPow C m n = .ok none) :
    ∃ proof claimed, m.get? "powProof" = some (.map proof) ∧
      CborMap.get? proof "bits" = some (.number claimed) ∧ n ≤ claimed := by
  unfold verifyPow at h
  split at h
  · rename_i proof hproof
    split at h
    · split at h
      · simp at h
      split at h
      · split at h
        · simp at h
        split at h
        · rename_i claimed hbits
          split at h
          · simp at h
          · exact ⟨proof, claimed, hproof, hbits, by omega⟩
        · simp at h
      · simp at h
    · simp at h
  · simp at h

/-- When a proof meets what the store asks. -/
theorem powVerified_eq_true : s.powVerified C r = .ok true ↔
    verifyPow C r.map (s.requiredBitsFor r) = .ok none := by
  unfold Store.powVerified
  cases h : verifyPow C r.map (s.requiredBitsFor r) with
  | error e => simp
  | ok rejection => cases rejection <;> simp

/-- A proof verified by one store verifies in another that asks for no more than it claims. -/
theorem powVerified_of_le {s' : Store} {p : PowProof} (h : s.powVerified C r = .ok true)
    (hpow : parsePow r.op r.map = .ok (some p)) (hle : s'.requiredBitsFor r ≤ p.bits) :
    s'.powVerified C r = .ok true := by
  rw [powVerified_eq_true] at h ⊢
  obtain ⟨proof, hproof, hbits⟩ := parsePow_some hpow
  exact verifyPow_of_le h hproof hbits hle

/-! ## The difficulty -/

/-- What a window's volume adds to the difficulty. -/
def rateBits (windowCount : ℕ) : ℕ :=
  if windowCount < rateFloor then 0 else min 8 (Nat.log2 (windowCount / rateFloor))

/-- The bits required are those of the label and those of the rate. -/
theorem requiredBits_eq (labelLength windowCount : ℕ) :
    requiredBits labelLength windowCount = baseBits labelLength + rateBits windowCount := by
  have hbase : baseBits labelLength ≤ 10 := by
    unfold baseBits
    split_ifs <;> omega
  have hrate : rateBits windowCount ≤ 8 := by
    unfold rateBits
    split_ifs <;> omega
  have heq : requiredBits labelLength windowCount =
      min maxDifficultyBits (baseBits labelLength + rateBits windowCount) := rfl
  rw [heq, min_eq_right]
  unfold maxDifficultyBits
  omega

/-- An empty store asks for the least. -/
theorem requiredBitsFor_empty_le (s : Store) (r : RegistryRecord) :
    Store.empty.requiredBitsFor r ≤ s.requiredBitsFor r := by
  have hempty : Store.empty.requiredBitsFor r = baseBits (jsLength r.name) := by
    unfold Store.requiredBitsFor Store.registrationsInWindow
    simp [Store.empty, requiredBits_eq, rateBits, rateFloor]
  rw [hempty]
  unfold Store.requiredBitsFor
  simp only [requiredBits_eq]
  omega

/-- What any store takes for a proof of work an empty one does too. -/
theorem powVerified_empty (h : s.powVerified C r = .ok true) :
    Store.empty.powVerified C r = .ok true := by
  rw [powVerified_eq_true] at h ⊢
  obtain ⟨proof, claimed, hproof, hbits, hle⟩ := verifyPow_claims h
  exact verifyPow_of_le h hproof hbits ((requiredBitsFor_empty_le s r).trans hle)

end VayuWeb
