import Mathlib.Data.List.Basic
import Mathlib.Data.List.Chain

/-!
# An incumbent and its challengers

Challengers arrive one at a time. One that is late is turned away; any other displaces the
incumbent when it is better.

* `contest_eq_of_best`: the best of all ends up as the incumbent when it is never late.
* `contest_not_late`: an incumbent that is late was there from the start.
* `ladder`: the challengers that displaced an incumbent; all of them when each is better than the
  one before (`ladder_of_isChain`), none when the first is the best (`ladder_eq_nil`).
-/

namespace Contest

variable {α : Type} (late : α → Prop) [DecidablePred late] (better : α → α → Prop)
  [DecidableRel better]

/-- What a challenger makes of the incumbent. -/
def challenge (incumbent challenger : α) : α :=
  if late challenger then incumbent
  else if better challenger incumbent then challenger else incumbent

/-- The incumbent after every challenger has come. -/
def contest (incumbent : α) (challengers : List α) : α := challengers.foldl (challenge late better) incumbent

/-- The challengers that displaced the incumbent of their time. -/
def ladder (incumbent : α) : List α → List α
  | [] => []
  | x :: xs => if ¬ late x ∧ better x incumbent then x :: ladder x xs else ladder incumbent xs

variable {late better}

/-- The winner is one of the contenders. -/
theorem contest_mem (a : α) (xs : List α) : contest late better a xs ∈ a :: xs := by
  induction xs generalizing a with
  | nil => simp [contest]
  | cons x xs ih =>
    change contest late better (challenge late better a x) xs ∈ a :: x :: xs
    have hstep : challenge late better a x = a ∨ challenge late better a x = x := by
      unfold challenge; split_ifs <;> simp
    rcases List.mem_cons.1 (ih (challenge late better a x)) with h | h
    · rw [h]
      rcases hstep with h' | h' <;> rw [h'] <;> simp
    · exact List.mem_cons_of_mem _ (List.mem_cons_of_mem _ h)

/-- The best of all holds its place. -/
theorem contest_eq_self {m : α} {xs : List α} (hbest : ∀ x ∈ xs, ¬ better x m) :
    contest late better m xs = m := by
  induction xs with
  | nil => rfl
  | cons x xs ih =>
    have hstep : challenge late better m x = m := by
      unfold challenge
      rw [if_neg (hbest x List.mem_cons_self)]
      exact ite_self m
    change contest late better (challenge late better m x) xs = m
    rw [hstep]
    exact ih fun y hy => hbest y (List.mem_cons_of_mem _ hy)

/-- **The best of all wins when it is never late**, whoever comes first. -/
theorem contest_eq_of_best {m a : α} {xs : List α} (hm : m = a ∨ m ∈ xs) (hlate : ¬ late m)
    (hbest : ∀ x ∈ a :: xs, x ≠ m → better m x ∧ ¬ better x m) (hself : ¬ better m m) :
    contest late better a xs = m := by
  induction xs generalizing a with
  | nil =>
    rcases hm with rfl | hm
    · rfl
    · simp at hm
  | cons x xs ih =>
    change contest late better (challenge late better a x) xs = m
    have hstays : ∀ y ∈ xs, ¬ better y m := by
      intro y hy
      by_cases hym : y = m
      · rw [hym]; exact hself
      · exact (hbest y (List.mem_cons_of_mem _ (List.mem_cons_of_mem _ hy)) hym).2
    -- once the best one is champion nothing dislodges it
    by_cases ham : a = m
    · subst ham
      change contest late better a (x :: xs) = a
      apply contest_eq_self
      intro y hy
      rcases List.mem_cons.1 hy with rfl | hy
      · by_cases hym : y = a
        · rw [hym]; exact hself
        · exact (hbest y (by simp) hym).2
      · exact hstays y hy
    · have hmx : m = x ∨ m ∈ xs := by
        rcases hm with rfl | hm
        · exact absurd rfl ham
        · exact List.mem_cons.1 hm
      by_cases hx : x = m
      · subst hx
        have hstep : challenge late better a x = x := by
          unfold challenge
          rw [if_neg hlate, if_pos (hbest a List.mem_cons_self ham).1]
        rw [hstep]
        exact contest_eq_self hstays
      -- it is still to come, whoever of the two stays
      · refine ih (hmx.imp_left fun h => absurd h.symm hx) fun y hy hym => ?_
        have hstep : challenge late better a x = a ∨ challenge late better a x = x := by
          unfold challenge; split_ifs <;> simp
        rcases List.mem_cons.1 hy with rfl | hy
        · rcases hstep with h | h <;> rw [h] at hym ⊢ <;> exact hbest _ (by simp) hym
        · exact hbest y (List.mem_cons_of_mem _ (List.mem_cons_of_mem _ hy)) hym

/-- **An incumbent that is late was there from the start.** -/
theorem contest_not_late (a : α) (xs : List α) :
    contest late better a xs = a ∨ ¬ late (contest late better a xs) := by
  induction xs generalizing a with
  | nil => exact Or.inl rfl
  | cons x xs ih =>
    change contest late better (challenge late better a x) xs = a ∨ _
    rcases ih (challenge late better a x) with h | h
    · change _ ∨ ¬ late (contest late better (challenge late better a x) xs)
      rw [h]
      unfold challenge
      by_cases hx : late x
      · exact Or.inl (if_pos hx)
      · rw [if_neg hx]
        split_ifs
        · exact Or.inr hx
        · exact Or.inl rfl
    · exact Or.inr h

/-- The ladder of a contender and those behind it. -/
theorem ladder_cons (a x : α) (xs : List α) : ladder late better a (x :: xs) =
    (if ¬ late x ∧ better x a then [x] else []) ++ ladder late better (challenge late better a x) xs := by
  unfold challenge
  rw [ladder]
  by_cases hlate : late x
  · rw [if_neg fun h => h.1 hlate, if_neg fun h => h.1 hlate, if_pos hlate, List.nil_append]
  · by_cases hbetter : better x a
    · rw [if_pos ⟨hlate, hbetter⟩, if_pos ⟨hlate, hbetter⟩, if_neg hlate, if_pos hbetter]; rfl
    · rw [if_neg fun h => hbetter h.2, if_neg fun h => hbetter h.2, if_neg hlate, if_neg hbetter,
        List.nil_append]

/-- Challengers of which each is better than the one before all come through. -/
theorem ladder_of_isChain {a : α} {xs : List α} (hlate : ∀ x ∈ xs, ¬ late x)
    (hchain : (a :: xs).IsChain fun x y => better y x) : ladder late better a xs = xs := by
  induction xs generalizing a with
  | nil => rfl
  | cons x xs ih =>
    obtain ⟨hbetter, hrest⟩ := List.isChain_cons_cons.1 hchain
    rw [ladder, if_pos ⟨hlate x List.mem_cons_self, hbetter⟩,
      ih (fun y hy => hlate y (List.mem_cons_of_mem _ hy)) hrest]

/-- No challenger displaces the best of all. -/
theorem ladder_eq_nil {a : α} {xs : List α} (h : ∀ x ∈ xs, ¬ better x a) :
    ladder late better a xs = [] := by
  induction xs with
  | nil => rfl
  | cons x xs ih =>
    rw [ladder, if_neg fun hx => h x List.mem_cons_self hx.2]
    exact ih fun y hy => h y (List.mem_cons_of_mem _ hy)

end Contest
