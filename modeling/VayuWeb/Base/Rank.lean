import Mathlib.Data.List.Induction
import Mathlib.Data.List.Sort
import Mathlib.Order.Bounds.Basic

/-!
# Ranks

The values of a list by rank, in a linear order. `reach l c` counts the members that are at least
`c`; `ranked l k` is the member with `k` members in front of it when the greatest comes first.

* `ranked_eq_some_iff`: it is the greatest member that more than `k` members reach.
* `ranked_eq_none_iff`: it is there unless the list is too short.
* `ranked_le_of_few`: `k` members alone never lift it.
* `isGreatest_foldl`: a scan that keeps the best value so far finds the greatest one.
-/

namespace Rank

variable {α : Type} [LinearOrder α] {l : List α} {k : ℕ} {c v bound : α}

/-- How many members are at least `c`. -/
def reach (l : List α) (c : α) : ℕ := l.countP fun x => c ≤ x

/-- The member of rank `k`, the greatest first. -/
def ranked (l : List α) (k : ℕ) : Option α := (l.insertionSort (· ≥ ·))[k]?

/-- How many reach a value does not depend on their order. -/
theorem reach_perm {l' : List α} (h : l.Perm l') (c : α) : reach l c = reach l' c := h.countP_eq _

/-- In a falling list those that reach a value stand in front. -/
theorem lt_reach_iff_of_sorted (h : l.Pairwise (· ≥ ·)) : k < reach l c ↔ ∃ v, l[k]? = some v ∧ c ≤ v := by
  induction l generalizing k with
  | nil =>
    simp [reach]
  | cons x l ih =>
    obtain ⟨hx, hl⟩ := List.pairwise_cons.1 h
    by_cases hc : c ≤ x
    · have hreach : reach (x :: l) c = reach l c + 1 := List.countP_cons_of_pos (by simpa using hc)
      cases k with
      | zero => simp [hreach, hc]
      | succ k =>
        rw [hreach, Nat.add_lt_add_iff_right, ih hl, List.getElem?_cons_succ]
    · -- the members that follow are smaller still
      have hnone : reach (x :: l) c = 0 := by
        apply List.countP_eq_zero.2
        intro y hy
        rcases List.mem_cons.1 hy with rfl | hy
        · simpa using hc
        · have hyx := hx y hy
          simpa using lt_of_le_of_lt hyx (not_le.1 hc)
      rw [hnone]
      refine iff_of_false (Nat.not_lt_zero k) ?_
      intro hv
      obtain ⟨v, hv, hcv⟩ := hv
      rcases List.mem_cons.1 (List.mem_of_getElem? hv) with rfl | hmem
      · exact hc hcv
      · exact hc (hcv.trans (hx v hmem))

/-- More than `k` reach a value exactly where the `k`-th ranked does. -/
theorem lt_reach_iff : k < reach l c ↔ ∃ v, ranked l k = some v ∧ c ≤ v := by
  rw [← reach_perm (List.perm_insertionSort (· ≥ ·) l) c]
  exact lt_reach_iff_of_sorted (List.pairwise_insertionSort (· ≥ ·) l)

/-- What is ranked is in the list. -/
theorem ranked_mem (h : ranked l k = some v) : v ∈ l := by
  have hmem := List.mem_of_getElem? h
  rwa [(List.perm_insertionSort (· ≥ ·) l).mem_iff] at hmem

/-- Nothing is ranked behind the end. -/
theorem ranked_eq_none_iff : ranked l k = none ↔ l.length ≤ k := by
  unfold ranked
  rw [List.getElem?_eq_none_iff, List.length_insertionSort]

/-- **The member of rank `k` is the greatest that more than `k` members reach.** -/
theorem ranked_eq_some_iff : ranked l k = some v ↔ IsGreatest {c | c ∈ l ∧ k < reach l c} v := by
  have hgreatest : ∀ {v}, ranked l k = some v → IsGreatest {c | c ∈ l ∧ k < reach l c} v := by
    intro v hv
    refine ⟨⟨ranked_mem hv, lt_reach_iff.2 ⟨v, hv, le_refl v⟩⟩, ?_⟩
    intro c hc
    obtain ⟨w, hw, hcw⟩ := lt_reach_iff.1 hc.2
    rw [hv, Option.some.injEq] at hw
    exact hw ▸ hcw
  constructor
  · exact hgreatest
  · intro h
    obtain ⟨w, hw, -⟩ := lt_reach_iff.1 h.1.2
    rw [hw, (hgreatest hw).unique h]

/-- **A few members alone never lift a rank**: what they say above the bound is not reached. -/
theorem ranked_le_of_few (hfew : (l.countP fun x => bound < x) ≤ k) (h : ranked l k = some v) : v ≤ bound := by
  by_contra hlt
  have hreach : k < reach l v := lt_reach_iff.2 ⟨v, h, le_refl v⟩
  have hle : reach l v ≤ l.countP fun x => bound < x := by
    apply List.countP_mono_left
    intro x _ hx
    have hvx : v ≤ x := by simpa using hx
    simpa using (not_le.1 hlt).trans_le hvx
  omega

/-! ## Keeping the best so far -/

/-- Keep `c` when it is wanted and above what is held. -/
def better (wanted : α → Bool) (best : Option α) (c : α) : Option α :=
  if wanted c ∧ (best = none ∨ ∃ b ∈ best, b < c) then some c else best

/-- `best` is the greatest wanted value of those seen, if there is one. -/
structure Best (wanted : α → Bool) (seen : Set α) (best : Option α) : Prop where
  greatest : ∀ b ∈ best, IsGreatest {c | c ∈ seen ∧ wanted c = true} b
  none : best = none → ∀ c ∈ seen, wanted c = false

/-- The best of what was seen, once one more is. -/
theorem Best.better {wanted : α → Bool} {seen : Set α} {best : Option α} (h : Best wanted seen best) (c : α) :
    Best wanted (insert c seen) (better wanted best c) := by
  unfold Rank.better
  split_ifs with hc
  -- taken: it is above what was held, so above all that was seen
  · refine ⟨?_, fun h => absurd h (Option.some_ne_none c)⟩
    intro b hb
    obtain rfl : c = b := Option.some.inj hb
    refine ⟨⟨Set.mem_insert c seen, hc.1⟩, ?_⟩
    intro x hx
    rcases hx.1 with rfl | hseen
    · exact le_refl x
    · rcases hc.2 with hnone | hsome
      · exact absurd hx.2 (by simp [h.none hnone x hseen])
      · obtain ⟨held, hheld, hlt⟩ := hsome
        exact ((h.greatest held hheld).2 ⟨hseen, hx.2⟩).trans hlt.le
  · constructor
    · intro b hb
      obtain ⟨⟨hseen, hwanted⟩, hupper⟩ := h.greatest b hb
      refine ⟨⟨Set.mem_insert_of_mem c hseen, hwanted⟩, ?_⟩
      intro x hx
      rcases hx.1 with rfl | hxs
      · -- it was not taken, so it is not above what is held
        by_contra hlt
        exact hc ⟨hx.2, Or.inr ⟨b, hb, not_le.1 hlt⟩⟩
      · exact hupper ⟨hxs, hx.2⟩
    · intro hnone x hx
      rcases hx with rfl | hxs
      · by_contra hwanted
        exact hc ⟨by simpa using hwanted, Or.inl hnone⟩
      · exact h.none hnone x hxs

/-- **A scan keeps the greatest wanted value.** -/
theorem best_foldl (wanted : α → Bool) (l : List α) : Best wanted {c | c ∈ l} (l.foldl (better wanted) none) := by
  induction l using List.reverseRecOn with
  | nil => exact ⟨fun b hb => absurd hb (Option.not_mem_none b), fun _ c hc => absurd hc List.not_mem_nil⟩
  | append_singleton l c ih =>
    have hseen : {x | x ∈ l ++ [c]} = insert c {x | x ∈ l} := by
      ext x
      simp [or_comm]
    rw [List.foldl_append, List.foldl_cons, List.foldl_nil, hseen]
    exact ih.better c

end Rank
