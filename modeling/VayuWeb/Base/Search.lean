import Mathlib.Data.List.Infix
import Mathlib.Data.Nat.Notation

/-!
# The first occurrence of a word

* `indexOf_eq_some`: what it means to be first.
* `indexOf_of_take`, `indexOf_of_short`: a text that has been cut short has the same first occurrence
  when it is long enough to hold it, and none when it is not.
-/

namespace Search

variable {α : Type} [DecidableEq α]

/-- Where a word begins in a text for the first time. -/
def indexOf (word : List α) : List α → Option ℕ
  | [] => if word = [] then some 0 else none
  | x :: xs => if word <+: x :: xs then some 0 else (indexOf word xs).map (· + 1)

variable {word text : List α} {n : ℕ}

/-- A word in front is found at once. -/
theorem indexOf_of_front (h : word <+: text) : indexOf word text = some 0 := by
  cases text with
  | nil => rw [indexOf, if_pos (List.prefix_nil.1 h)]
  | cons x xs => rw [indexOf, if_pos h]

/-- A word that is not in front is looked for behind. -/
theorem indexOf_cons {x : α} (h : ¬ word <+: x :: text) : indexOf word (x :: text) =
    (indexOf word text).map (· + 1) := by
  rw [indexOf, if_neg h]

/-- **First means**: the word is there, and nowhere before. -/
theorem indexOf_eq_some : indexOf word text = some n ↔
    n ≤ text.length ∧ word <+: text.drop n ∧ ∀ m < n, ¬ word <+: text.drop m := by
  induction text generalizing n with
  | nil =>
    rw [indexOf]
    constructor
    · intro h
      split_ifs at h with hword
      cases h
      exact ⟨le_refl 0, by rw [hword]; exact List.nil_prefix, fun m hm => absurd hm (Nat.not_lt_zero m)⟩
    · rintro ⟨hn, hpre, -⟩
      rw [List.drop_nil] at hpre
      rw [if_pos (List.prefix_nil.1 hpre), Nat.le_zero.1 hn]
  | cons x xs ih =>
    by_cases hhere : word <+: x :: xs
    · rw [indexOf_of_front hhere]
      constructor
      · intro h
        cases h
        exact ⟨Nat.zero_le _, hhere, fun m hm => absurd hm (Nat.not_lt_zero m)⟩
      · rintro ⟨-, -, hfirst⟩
        cases n with
        | zero => rfl
        | succ n => exact absurd hhere (hfirst 0 (Nat.succ_pos n))
    -- not at the front, so every place is one further than in the tail
    · rw [indexOf_cons hhere, Option.map_eq_some_iff]
      constructor
      · rintro ⟨k, hk, rfl⟩
        obtain ⟨hle, hpre, hfirst⟩ := ih.1 hk
        refine ⟨Nat.succ_le_succ hle, hpre, fun m hm => ?_⟩
        cases m with
        | zero => exact hhere
        | succ m => exact hfirst m (by omega)
      · rintro ⟨hle, hpre, hfirst⟩
        cases n with
        | zero => exact absurd hpre hhere
        | succ n =>
          refine ⟨n, ih.2 ⟨Nat.le_of_succ_le_succ hle, hpre, fun m hm => ?_⟩, rfl⟩
          exact hfirst (m + 1) (Nat.succ_lt_succ hm)

omit [DecidableEq α] in
/-- An occurrence in the front of a text is one in the text. -/
theorem prefix_drop_take {k m : ℕ} (h : word <+: (text.take k).drop m) : word <+: text.drop m := by
  rw [List.drop_take] at h
  exact h.trans (List.take_prefix _ _)

/-- A front that holds the first occurrence has it. -/
theorem indexOf_of_take (h : indexOf word text = some n) {k : ℕ} (hk : n + word.length ≤ k) :
    indexOf word (text.take k) = some n := by
  obtain ⟨hle, hpre, hfirst⟩ := indexOf_eq_some.1 h
  refine indexOf_eq_some.2 ⟨?_, ?_, fun m hm hthere => hfirst m hm (prefix_drop_take hthere)⟩
  · rw [List.length_take]
    omega
  · rw [List.drop_take]
    exact List.prefix_take_iff.2 ⟨hpre, by omega⟩

/-- A front that does not hold the first occurrence has none. -/
theorem indexOf_of_short (h : indexOf word text = some n) {k : ℕ} (hk : k < n + word.length) (hword : word ≠ []) :
    indexOf word (text.take k) = none := by
  obtain ⟨-, -, hfirst⟩ := indexOf_eq_some.1 h
  cases hfound : indexOf word (text.take k) with
  | none => rfl
  | some m =>
    exfalso
    obtain ⟨-, hthere, -⟩ := indexOf_eq_some.1 hfound
    have hpos := List.length_pos_iff.2 hword
    have hlength := hthere.length_le
    rw [List.length_drop, List.length_take] at hlength
    exact hfirst m (by omega) (prefix_drop_take hthere)

end Search
