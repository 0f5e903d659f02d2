import VayuWeb.Base.Rank
import VayuWeb.Spec.Checkpoint

/-!
# The length a light client trusts

* `mem_claimCounts`: the scan goes over the lengths that are claimed.
* `corroborate_length`: one round keeps the greatest corroborated length so far.
* `corroborated_length`: the result is the claim of the quorum's rank, and a minority never
  lifts it.
-/

namespace VayuWeb

variable {α : Type} [LinearOrder α] {claims : List α} {quorum : ℤ} {best : Corroborated α} {length : α}

theorem mem_claimCounts : length ∈ (claimCounts claims).map Prod.fst ↔ length ∈ claims := by
  induction claims using List.reverseRecOn with
  | nil => rfl
  | append_singleton claims claim ih =>
    have hlast : claimCounts (claims ++ [claim]) =
        (claimCounts claims).set claim (((claimCounts claims).get? claim).getD 0 + 1) := by
      simp [claimCounts, List.foldl_append]
    rw [hlast, OrdMap.mem_keys_set, ih, List.mem_append, List.mem_singleton, or_comm]

/-- The lengths that at least `quorum` claims reach. -/
def reached (claims : List α) (quorum : ℤ) (length : α) : Bool := quorum ≤ Rank.reach claims length

theorem corroborate_length (claims : List α) (quorum : ℤ) (best : Option (Corroborated α)) (length : α) :
    (corroborate claims quorum best length).map (·.length) =
      Rank.better (reached claims quorum) (best.map (·.length)) length := by
  have hguard : (((claims.countP fun claim => claim ≥ length : ℕ) : ℤ) ≥ quorum ∧
      (best = none ∨ ∃ b ∈ best, length > b.length)) ↔
      reached claims quorum length = true ∧
        (best.map (·.length) = none ∨ ∃ b ∈ best.map (·.length), b < length) := by
    unfold reached Rank.reach
    cases best <;> simp
  unfold corroborate Rank.better
  simp only [hguard]
  split_ifs
  · rfl
  · rfl

/-- What is held carries the number of claims that reach it. -/
theorem corroborate_peersAgreeing {held : Option (Corroborated α)}
    (hheld : ∀ b ∈ held, b.peersAgreeing = Rank.reach claims b.length) :
    ∀ b ∈ corroborate claims quorum held length, b.peersAgreeing = Rank.reach claims b.length := by
  intro b hb
  unfold corroborate at hb
  simp only at hb
  split_ifs at hb with hguard
  · obtain rfl := Option.some.inj hb
    rfl
  · exact hheld b hb

/-- The length that is found is the best of those enough peers reach. -/
theorem greatestCorroboratedLength_length (claims : List α) (quorum : ℤ) :
    (greatestCorroboratedLength claims quorum).map (·.length) =
      ((claimCounts claims).map Prod.fst).foldl (Rank.better (reached claims quorum)) none := by
  unfold greatestCorroboratedLength
  rw [List.foldl_map]
  symm
  change List.foldl _ (Option.map (fun b : Corroborated α => b.length) none) _ = _
  apply List.foldl_hom (fun best : Option (Corroborated α) => best.map (·.length))
  intro best count
  exact (corroborate_length claims quorum best count.1).symm

/-- The count that is given is of the peers that reach the length. -/
theorem greatestCorroboratedLength_peersAgreeing (h : greatestCorroboratedLength claims quorum = some best) :
    best.peersAgreeing = Rank.reach claims best.length := by
  have hall : ∀ (counts : List (α × ℕ)) (held : Option (Corroborated α)),
      (∀ b ∈ held, b.peersAgreeing = Rank.reach claims b.length) →
      ∀ b ∈ counts.foldl (fun best count => corroborate claims quorum best count.1) held,
        b.peersAgreeing = Rank.reach claims b.length := by
    intro counts
    induction counts with
    | nil =>
      intro held hheld
      exact hheld
    | cons count counts ih =>
      intro held hheld
      exact ih _ (corroborate_peersAgreeing hheld)
  exact hall _ none (fun b hb => absurd hb (Option.not_mem_none b)) best h

/-- The rank that a quorum asks for; every quorum below one asks for the greatest claim. -/
theorem reached_iff (hmem : length ∈ claims) :
    reached claims quorum length = true ↔ quorum.toNat - 1 < Rank.reach claims length := by
  have hpos : 0 < Rank.reach claims length := by
    apply List.countP_pos_iff.2
    exact ⟨length, hmem, by simp⟩
  unfold reached
  rw [decide_eq_true_eq]
  omega

/-- The length that is found is the one ranked last within the quorum. -/
theorem greatestCorroboratedLength_ranked (claims : List α) (quorum : ℤ) :
    (greatestCorroboratedLength claims quorum).map (·.length) = Rank.ranked claims (quorum.toNat - 1) := by
  have hbest := Rank.best_foldl (reached claims quorum) ((claimCounts claims).map Prod.fst)
  rw [← greatestCorroboratedLength_length] at hbest
  have hwanted : {c | c ∈ {c | c ∈ (claimCounts claims).map Prod.fst} ∧ reached claims quorum c = true} =
      {c | c ∈ claims ∧ quorum.toNat - 1 < Rank.reach claims c} := by
    ext c
    simp only [Set.mem_ofPred_eq, mem_claimCounts]
    exact and_congr_right reached_iff
  cases hlength : (greatestCorroboratedLength claims quorum).map (·.length) with
  | some length =>
    have hgreatest := hbest.greatest length hlength
    rw [hwanted] at hgreatest
    exact (Rank.ranked_eq_some_iff.2 hgreatest).symm
  | none =>
    cases hranked : Rank.ranked claims (quorum.toNat - 1) with
    | none => rfl
    | some length =>
      -- a claim of that rank would have been kept
      have hgreatest := Rank.ranked_eq_some_iff.1 hranked
      have hfalse := hbest.none hlength length (mem_claimCounts.2 hgreatest.1.1)
      rw [(reached_iff hgreatest.1.1).2 hgreatest.1.2] at hfalse
      exact absurd hfalse (by decide)

/-- **The corroborated length** is the quorum-th largest claim, that is the largest which `quorum`
claims reach; there is none when there are fewer claims; and where fewer than `quorum` claims exceed
an honest one, neither does the result. -/
theorem corroborated_length (claims : List α) (quorum : ℤ) :
    (greatestCorroboratedLength claims quorum).map (·.length) =
        (claims.insertionSort (· ≥ ·))[quorum.toNat - 1]? ∧
      (greatestCorroboratedLength claims quorum = none ↔ claims.length < max quorum 1) ∧
      ∀ best, greatestCorroboratedLength claims quorum = some best →
        IsGreatest {c | c ∈ claims ∧ quorum ≤ claims.countP (c ≤ ·)} best.length ∧
        best.peersAgreeing = claims.countP (best.length ≤ ·) ∧
        ∀ honest, claims.countP (honest < ·) < quorum → best.length ≤ honest := by
  have hranked := greatestCorroboratedLength_ranked claims quorum
  refine ⟨hranked, ?_, ?_⟩
  · rw [← Option.map_eq_none_iff, hranked, Rank.ranked_eq_none_iff]
    omega
  · intro best hbest
    rw [hbest, Option.map_some] at hranked
    have hgreatest := Rank.ranked_eq_some_iff.1 hranked.symm
    have hset : {c | c ∈ claims ∧ quorum ≤ claims.countP (c ≤ ·)} =
        {c | c ∈ claims ∧ quorum.toNat - 1 < Rank.reach claims c} := by
      ext c
      refine and_congr_right fun hmem => ?_
      rw [← reached_iff hmem]
      exact decide_eq_true_iff.symm
    rw [hset]
    refine ⟨hgreatest, greatestCorroboratedLength_peersAgreeing hbest, ?_⟩
    intro honest hfew
    apply Rank.ranked_le_of_few _ hranked.symm
    omega

end VayuWeb
