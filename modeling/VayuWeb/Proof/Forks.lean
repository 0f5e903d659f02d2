import Mathlib.Data.Finset.Card
import VayuWeb.Spec.Checkpoint

/-!
# Forks under repetition

* `observeAll_spec`: what the ledger holds after a run of observations.
* `forks_reported_iff`: when it names every length at which two checkpoints differ.
-/

namespace VayuWeb.CheckpointLedger

/-- The observations at lengths at which there are checkpoints. -/
def stated (obs : List Checkpoint) : List Checkpoint := obs.filter fun c => isCheckpointLength c.logLength

/-- The first checkpoint observed at a length. -/
def firstAt (obs : List Checkpoint) (n : ℕ) : Option Checkpoint := (stated obs).find? fun c => c.logLength = n

/-- Whether a checkpoint differs from the first at its length. -/
def contradicts (obs : List Checkpoint) (c : Checkpoint) : Bool :=
  (firstAt obs c.logLength).any fun first => compareCheckpoints first c ≠ .identical

/-- The observations that differ from the first at their length, in their order and with their repeats. -/
def contradicting (obs : List Checkpoint) : List Checkpoint := (stated obs).filter (contradicts obs)

/-- The report of one of them. -/
def reportOf (obs : List Checkpoint) (c : Checkpoint) : ForkReport :=
  let first := (firstAt obs c.logLength).getD c
  { logLength := c.logLength, first := first, other := c, difference := compareCheckpoints first c }

/-- The ledger after a run of observations. -/
def observeAll (obs : List Checkpoint) : CheckpointLedger := obs.foldl (fun ledger c => (ledger.observe c).2) empty

/-- Two checkpoints of one length that do not match. -/
structure Differ (a b : Checkpoint) : Prop where
  length : a.logLength = b.logLength
  roots : a.treeRoot ≠ b.treeRoot ∨ a.indexRoot ≠ b.indexRoot

section Runs

variable {obs : List Checkpoint} {c : Checkpoint} {n : ℕ}

/-- Two checkpoints at one length are told apart exactly where they differ. -/
theorem compare_ne_identical {a b : Checkpoint} (h : a.logLength = b.logLength) :
    compareCheckpoints a b ≠ .identical ↔ Differ a b := by
  unfold compareCheckpoints
  rw [if_neg (not_not_intro h)]
  constructor
  · intro hne
    refine ⟨h, ?_⟩
    by_contra hsame
    push Not at hsame
    rw [if_neg (not_not_intro hsame.1), if_neg (not_not_intro hsame.2)] at hne
    exact hne rfl
  · intro hdiffer
    by_cases htree : a.treeRoot = b.treeRoot
    · have hindex : a.indexRoot ≠ b.indexRoot := hdiffer.roots.resolve_left (not_not_intro htree)
      rw [if_neg (not_not_intro htree), if_pos hindex]
      decide
    · rw [if_pos htree]
      decide

/-! ### One more observation -/

/-- What is stated once one more observation is made. -/
theorem stated_concat : stated (obs ++ [c]) = stated obs ++ if isCheckpointLength c.logLength then [c] else [] := by
  unfold stated
  rw [List.filter_append]
  by_cases hlength : isCheckpointLength c.logLength <;> simp [hlength]

/-- The first checkpoint at a length, once one more is observed. -/
theorem firstAt_concat : firstAt (obs ++ [c]) n =
    (firstAt obs n).or (if isCheckpointLength c.logLength = true ∧ c.logLength = n then some c else none) := by
  unfold firstAt
  rw [stated_concat, List.find?_append]
  congr 1
  by_cases hlength : isCheckpointLength c.logLength = true
  · by_cases hn : c.logLength = n
    · rw [if_pos hlength, if_pos ⟨hlength, hn⟩]
      simp [hn]
    · rw [if_pos hlength, if_neg fun hc => hn hc.2]
      simp [hn]
  · simp [hlength]

theorem firstAt_length {first : Checkpoint} (h : firstAt obs n = some first) : first.logLength = n := by
  simpa using List.find?_some h

/-- A length that was stated keeps its first checkpoint. -/
theorem firstAt_concat_of_mem {a : Checkpoint} (h : a ∈ stated obs) :
    firstAt (obs ++ [c]) a.logLength = firstAt obs a.logLength := by
  have hsome : (firstAt obs a.logLength).isSome := by
    rw [firstAt, List.find?_isSome]
    exact ⟨a, h, by simp⟩
  obtain ⟨first, hfirst⟩ := Option.isSome_iff_exists.1 hsome
  rw [firstAt_concat, hfirst]
  rfl

theorem contradicts_concat_of_mem {a : Checkpoint} (h : a ∈ stated obs) :
    contradicts (obs ++ [c]) a = contradicts obs a := by
  unfold contradicts
  rw [firstAt_concat_of_mem h]

/-- The checkpoint that is the first at its length contradicts nothing. -/
theorem contradicts_concat (hlength : isCheckpointLength c.logLength = true) :
    contradicts (obs ++ [c]) c = contradicts obs c := by
  unfold contradicts
  rw [firstAt_concat]
  cases hfirst : firstAt obs c.logLength with
  | some first => rfl
  | none =>
    have hsame : compareCheckpoints c c = .identical := by simp [compareCheckpoints]
    simp [hlength, hsame]

/-- The contradicting checkpoints, once one more is observed. -/
theorem contradicting_concat : contradicting (obs ++ [c]) =
    contradicting obs ++ if isCheckpointLength c.logLength = true ∧ contradicts obs c = true then [c] else [] := by
  have hheld : (stated obs).filter (contradicts (obs ++ [c])) = contradicting obs :=
    List.filter_congr fun a ha => contradicts_concat_of_mem ha
  unfold contradicting at hheld ⊢
  rw [stated_concat, List.filter_append, hheld]
  congr 1
  by_cases hlength : isCheckpointLength c.logLength = true
  · rw [if_pos hlength, List.filter_singleton, contradicts_concat hlength]
    by_cases hcontradicts : contradicts obs c = true <;> simp [hlength, hcontradicts]
  · simp [hlength]

theorem reportOf_concat_of_mem {a : Checkpoint} (h : a ∈ stated obs) : reportOf (obs ++ [c]) a = reportOf obs a := by
  unfold reportOf
  rw [firstAt_concat_of_mem h]

/-! ### The ledger -/

/-- What a ledger holds of the observations. -/
structure Records (obs : List Checkpoint) (ledger : CheckpointLedger) : Prop where
  seen : ∀ n, ledger.seen.get? n = firstAt obs n
  keys : (ledger.seen.map Prod.fst).Nodup
  lengths : ∀ n ∈ ledger.seen.map Prod.fst, n ∈ (stated obs).map Checkpoint.logLength
  disagreements : ledger.disagreements = ((contradicting obs).take checkpointForks).map (reportOf obs)

theorem map_reportOf_concat : ((contradicting obs).take checkpointForks).map (reportOf (obs ++ [c])) =
    ((contradicting obs).take checkpointForks).map (reportOf obs) := by
  apply List.map_congr_left
  intro a ha
  exact reportOf_concat_of_mem (List.mem_filter.1 (List.mem_of_mem_take ha)).1

theorem stated_subset_concat : stated obs ⊆ stated (obs ++ [c]) := by
  rw [stated_concat]
  exact List.subset_append_left _ _

/-- There is room for a length as long as no more than the bound are stated. -/
theorem Records.room {ledger : CheckpointLedger} (h : Records obs ledger)
    (hlength : isCheckpointLength c.logLength = true)
    (hnew : ledger.seen.get? c.logLength = none)
    (hbound : ((stated (obs ++ [c])).map Checkpoint.logLength).toFinset.card ≤ checkpointLengths) :
    ledger.seen.length < checkpointLengths := by
  have hnot : c.logLength ∉ ledger.seen.map Prod.fst := OrdMap.notMem_of_get? hnew
  have hnodup : (c.logLength :: ledger.seen.map Prod.fst).Nodup := List.nodup_cons.2 ⟨hnot, h.keys⟩
  have hsub : (c.logLength :: ledger.seen.map Prod.fst).toFinset ⊆
      ((stated (obs ++ [c])).map Checkpoint.logLength).toFinset := by
    intro n hn
    rw [List.mem_toFinset] at hn ⊢
    rcases List.mem_cons.1 hn with rfl | hn
    · have hmem : c ∈ stated (obs ++ [c]) :=
        List.mem_filter.2 ⟨List.mem_append_right _ (List.mem_singleton_self c), hlength⟩
      exact List.mem_map_of_mem hmem
    · obtain ⟨a, ha, rfl⟩ := List.mem_map.1 (h.lengths n hn)
      exact List.mem_map_of_mem (stated_subset_concat ha)
  have hcard := Finset.card_le_card hsub
  rw [List.toFinset_card_of_nodup hnodup, List.length_cons, List.length_map] at hcard
  omega

/-- **One observation.** -/
theorem Records.observe {ledger : CheckpointLedger} (h : Records obs ledger)
    (hbound : ((stated (obs ++ [c])).map Checkpoint.logLength).toFinset.card ≤ checkpointLengths) :
    Records (obs ++ [c]) (ledger.observe c).2 := by
  unfold CheckpointLedger.observe
  by_cases hlength : isCheckpointLength c.logLength = true
  · rw [if_neg (not_not_intro hlength)]
    cases hheld : ledger.seen.get? c.logLength with
    | none =>
      -- the first at its length
      have hroom := h.room hlength hheld hbound
      have hfirst : firstAt obs c.logLength = none := by rw [← h.seen, hheld]
      have hcontradicts : contradicts obs c = false := by rw [contradicts, hfirst, Option.any_none]
      dsimp only
      rw [if_neg (Nat.not_le.2 hroom)]
      refine ⟨?_, ?_, ?_, ?_⟩
      · intro n
        rw [OrdMap.get?_set, firstAt_concat, h.seen]
        by_cases hn : n = c.logLength
        · rw [if_pos hn, hn, hfirst, Option.none_or, if_pos ⟨hlength, rfl⟩]
        · rw [if_neg hn, if_neg fun hc => hn hc.2.symm, Option.or_none]
      · rw [OrdMap.set_of_notMem (OrdMap.notMem_of_get? hheld), List.map_append, List.nodup_append]
        refine ⟨h.keys, List.nodup_singleton _, ?_⟩
        intro a ha b hb hab
        rw [List.map_singleton, List.mem_singleton] at hb
        rw [hab, hb] at ha
        exact OrdMap.notMem_of_get? hheld ha
      · intro n hn
        rw [OrdMap.mem_keys_set] at hn
        rcases hn with rfl | hn
        · have hmem : c ∈ stated (obs ++ [c]) :=
            List.mem_filter.2 ⟨List.mem_append_right _ (List.mem_singleton_self c), hlength⟩
          exact List.mem_map_of_mem hmem
        · obtain ⟨a, ha, rfl⟩ := List.mem_map.1 (h.lengths n hn)
          exact List.mem_map_of_mem (stated_subset_concat ha)
      · rw [contradicting_concat, if_neg (by simp [hcontradicts]), List.append_nil, map_reportOf_concat]
        exact h.disagreements
    | some held =>
      have hfirst : firstAt obs c.logLength = some held := by rw [← h.seen, hheld]
      have hseen : ∀ n, ledger.seen.get? n = firstAt (obs ++ [c]) n := by
        intro n
        rw [firstAt_concat, h.seen]
        by_cases hn : c.logLength = n
        · rw [← hn, hfirst, Option.some_or]
        · rw [if_neg fun hc => hn hc.2, Option.or_none]
      have hstated : ∀ n ∈ ledger.seen.map Prod.fst, n ∈ (stated (obs ++ [c])).map Checkpoint.logLength := by
        intro n hn
        obtain ⟨a, ha, rfl⟩ := List.mem_map.1 (h.lengths n hn)
        exact List.mem_map_of_mem (stated_subset_concat ha)
      dsimp only
      by_cases hsame : compareCheckpoints held c = .identical
      · have hcontradicts : contradicts obs c = false := by simp [contradicts, hfirst, hsame]
        rw [if_pos hsame]
        refine ⟨hseen, h.keys, hstated, ?_⟩
        rw [contradicting_concat, if_neg (by simp [hcontradicts]), List.append_nil, map_reportOf_concat]
        exact h.disagreements
      · have hcontradicts : contradicts obs c = true := by simp [contradicts, hfirst, hsame]
        have hcount : ledger.disagreements.length = min checkpointForks (contradicting obs).length := by
          rw [h.disagreements, List.length_map, List.length_take]
        rw [if_neg hsame]
        by_cases hroom : ledger.disagreements.length < checkpointForks
        · rw [if_pos hroom]
          refine ⟨hseen, h.keys, hstated, ?_⟩
          have hshort : (contradicting obs).length < checkpointForks := by omega
          have hreport : reportOf (obs ++ [c]) c =
              { logLength := c.logLength, first := held, other := c, difference := compareCheckpoints held c } := by
            unfold reportOf
            rw [← hseen, hheld, Option.getD_some]
          dsimp only
          rw [contradicting_concat, if_pos ⟨hlength, hcontradicts⟩, List.take_of_length_le (by simp; omega),
            List.map_append, List.map_singleton, hreport, h.disagreements, ← map_reportOf_concat,
            List.take_of_length_le hshort.le]
        · rw [if_neg hroom]
          refine ⟨hseen, h.keys, hstated, ?_⟩
          have hfull : checkpointForks ≤ (contradicting obs).length := by omega
          dsimp only
          rw [contradicting_concat, if_pos ⟨hlength, hcontradicts⟩, List.take_append_of_le_length hfull,
            map_reportOf_concat]
          exact h.disagreements
  · rw [if_pos hlength]
    have hsame : stated (obs ++ [c]) = stated obs := by simp [stated_concat, hlength]
    refine ⟨?_, h.keys, ?_, ?_⟩
    · intro n
      rw [firstAt_concat, if_neg fun hc => hlength hc.1, Option.or_none]
      exact h.seen n
    · rw [hsame]
      exact h.lengths
    · rw [contradicting_concat, if_neg fun hc => hlength hc.1, List.append_nil, map_reportOf_concat]
      exact h.disagreements

/-- **A run of observations** at no more lengths than are remembered. -/
theorem observeAll_spec (hbound : ((stated obs).map Checkpoint.logLength).toFinset.card ≤ checkpointLengths) :
    Records obs (observeAll obs) := by
  induction obs using List.reverseRecOn with
  | nil =>
    refine ⟨fun n => rfl, List.nodup_nil, ?_, rfl⟩
    intro n hn
    cases hn
  | append_singleton obs c ih =>
    have hsub : ((stated obs).map Checkpoint.logLength).toFinset ⊆
        ((stated (obs ++ [c])).map Checkpoint.logLength).toFinset := by
      intro n hn
      rw [List.mem_toFinset] at hn ⊢
      obtain ⟨a, ha, rfl⟩ := List.mem_map.1 hn
      exact List.mem_map_of_mem (stated_subset_concat ha)
    have hrecords := ih ((Finset.card_le_card hsub).trans hbound)
    have hconcat : observeAll (obs ++ [c]) = ((observeAll obs).observe c).2 := by
      rw [observeAll, List.foldl_append]
      rfl
    rw [hconcat]
    exact hrecords.observe hbound

/-! ### What is reported -/

/-- A report names a length at which two checkpoints differ. -/
structure Names (r : ForkReport) (n : ℕ) : Prop where
  length : r.logLength = n
  first : r.first.logLength = n
  differ : Differ r.first r.other

/-- To contradict is to differ from the first at one's length. -/
theorem contradicts_iff : contradicts obs c = true ↔ ∃ first, firstAt obs c.logLength = some first ∧
    Differ first c := by
  unfold contradicts
  cases hfirst : firstAt obs c.logLength with
  | none => simp
  | some first =>
    have hlength := firstAt_length hfirst
    rw [Option.any_some, decide_eq_true_eq, compare_ne_identical hlength]
    simp

/-- A report names the length it is about. -/
theorem names_reportOf (h : c ∈ contradicting obs) : Names (reportOf obs c) c.logLength := by
  obtain ⟨first, hfirst, hdiffer⟩ := contradicts_iff.1 (List.mem_filter.1 h).2
  unfold reportOf
  rw [hfirst]
  exact ⟨rfl, firstAt_length hfirst, hdiffer⟩

/-- Where two checkpoints differ, one of them differs from the first. -/
theorem exists_contradicting {a b : Checkpoint} (ha : a ∈ stated obs) (hb : b ∈ stated obs) (hdiffer : Differ a b) :
    ∃ c ∈ contradicting obs, c.logLength = a.logLength := by
  have hsome : (firstAt obs a.logLength).isSome := by
    rw [firstAt, List.find?_isSome]
    exact ⟨a, ha, by simp⟩
  obtain ⟨first, hfirst⟩ := Option.isSome_iff_exists.1 hsome
  have hlength := firstAt_length hfirst
  by_cases hsame : Differ first a
  · exact ⟨a, List.mem_filter.2 ⟨ha, contradicts_iff.2 ⟨first, hfirst, hsame⟩⟩, rfl⟩
  · refine ⟨b, List.mem_filter.2 ⟨hb, contradicts_iff.2 ⟨first, ?_, ?_⟩⟩, hdiffer.length.symm⟩
    · rw [← hdiffer.length]
      exact hfirst
    · refine ⟨hlength.trans hdiffer.length, ?_⟩
      by_contra heq
      push Not at heq
      apply hsame
      refine ⟨hlength, ?_⟩
      rw [heq.1, heq.2]
      exact hdiffer.roots.imp Ne.symm Ne.symm

/-- **Every fork is reported** exactly when the contradictions that fit in the ledger, repeats included, name every
length at which there is one. -/
theorem forks_reported_iff (hbound : ((stated obs).map Checkpoint.logLength).toFinset.card ≤ checkpointLengths) :
    (∀ a ∈ stated obs, ∀ b ∈ stated obs, Differ a b →
      ∃ r ∈ (observeAll obs).disagreements, Names r a.logLength) ↔
    ∀ c ∈ contradicting obs, ∃ c' ∈ (contradicting obs).take checkpointForks, c'.logLength = c.logLength := by
  have hrecords := observeAll_spec hbound
  constructor
  · intro hreported c hc
    obtain ⟨hstated, hcontradicts⟩ := List.mem_filter.1 hc
    obtain ⟨first, hfirst, hdiffer⟩ := contradicts_iff.1 hcontradicts
    have hmem : first ∈ stated obs := List.mem_of_find?_eq_some hfirst
    obtain ⟨r, hr, hnames⟩ := hreported first hmem c hstated hdiffer
    rw [hrecords.disagreements, List.mem_map] at hr
    obtain ⟨c', hc', rfl⟩ := hr
    exact ⟨c', hc', hnames.length.trans hdiffer.length⟩
  · intro hall a ha b hb hdiffer
    obtain ⟨c, hc, hlength⟩ := exists_contradicting ha hb hdiffer
    obtain ⟨c', hc', hlength'⟩ := hall c hc
    refine ⟨reportOf obs c', ?_, ?_⟩
    · rw [hrecords.disagreements]
      exact List.mem_map_of_mem hc'
    · rw [← hlength, ← hlength']
      exact names_reportOf (List.mem_of_mem_take hc')

end Runs

/-! ## A repeat that crowds out -/

/-- A checkpoint at a length, with a root of one byte repeated. -/
def checkpointAt (logLength : ℕ) (root : UInt8) : Checkpoint :=
  { logLength := logLength, treeRoot := List.replicate 32 root, indexRoot := List.replicate 32 0, liveNames := 0 }

/-- Two forks, the first of them observed as often as there are reports. -/
def crowding : List Checkpoint :=
  checkpointAt 10000 1 :: (List.replicate checkpointForks (checkpointAt 10000 2) ++
    [checkpointAt 20000 1, checkpointAt 20000 2])

theorem forks_reported_iff_two :
    (∀ a ∈ stated [checkpointAt 10000 1, checkpointAt 10000 2],
      ∀ b ∈ stated [checkpointAt 10000 1, checkpointAt 10000 2], Differ a b →
        ∃ r ∈ (observeAll [checkpointAt 10000 1, checkpointAt 10000 2]).disagreements, Names r a.logLength) ↔
    ∀ c ∈ contradicting [checkpointAt 10000 1, checkpointAt 10000 2],
      ∃ c' ∈ (contradicting [checkpointAt 10000 1, checkpointAt 10000 2]).take checkpointForks,
        c'.logLength = c.logLength :=
  forks_reported_iff (by decide)

/-- The fork at the other length is not reported. -/
theorem fork_crowded_out : ¬ ∀ obs : List Checkpoint,
    ((stated obs).map Checkpoint.logLength).toFinset.card ≤ checkpointLengths →
      (contradicting obs).toFinset.card ≤ checkpointForks →
        ∀ a ∈ stated obs, ∀ b ∈ stated obs, Differ a b → ∃ r ∈ (observeAll obs).disagreements, Names r a.logLength := by
  intro h
  have hdiffer : Differ (checkpointAt 20000 1) (checkpointAt 20000 2) := ⟨rfl, Or.inl (by decide)⟩
  obtain ⟨r, hr, hnames⟩ := h crowding (by decide) (by decide) _ (by decide) _ (by decide) hdiffer
  have hall : ∀ r ∈ (observeAll crowding).disagreements, r.logLength ≠ 20000 := by decide
  exact hall r hr hnames.length

end VayuWeb.CheckpointLedger
