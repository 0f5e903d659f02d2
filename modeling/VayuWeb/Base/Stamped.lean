import VayuWeb.Base.OrdMap

/-!
# Memos of a source that grows

A memo keeps what was read from a source, and a stamp: the size that the source was last said to
have. A stamp of another size empties the memo. What is in a `Fresh` memo was read from the source
of that size, so nothing of it outlives a source that grows.
-/

/-- Entries that were read from a source, and the size it was last said to have. -/
structure Stamped (κ ν : Type) where
  entries : OrdMap κ ν
  stamp : Option ℕ

namespace Stamped

variable {κ ν : Type} {m : Stamped κ ν} {P Q : κ × ν → Prop} {size : ℕ}

/-- The memo under a stamp. -/
def mark (m : Stamped κ ν) (stamp : ℕ) : Stamped κ ν :=
  if m.stamp = some stamp then m else { entries := [], stamp := some stamp }

/-- Nothing is held under a stamp that the source has yet to reach, and what is held under the size
of the source is `P`. -/
structure Fresh (P : κ × ν → Prop) (size : ℕ) (m : Stamped κ ν) : Prop where
  reached : m.entries ≠ [] → ∀ stamp, m.stamp = some stamp → stamp ≤ size
  right : m.stamp = some size → ∀ e ∈ m.entries, P e

/-- What holds nothing is fresh. -/
theorem fresh_of_nil (h : m.entries = []) : Fresh P size m := by
  refine ⟨fun hne => absurd h hne, ?_⟩
  intro _ e he
  rw [h] at he
  cases he

theorem Fresh.mono (h : Fresh P size m) (hPQ : ∀ e, P e → Q e) : Fresh Q size m :=
  ⟨h.reached, fun hstamp e he => hPQ e (h.right hstamp e he)⟩

/-- A source that grew vouches for nothing that was read before. -/
theorem Fresh.grow (h : Fresh P size m) {size' : ℕ} (hlt : size < size') : Fresh Q size' m := by
  refine ⟨fun hne stamp hstamp => (Nat.le_trans (h.reached hne stamp hstamp) (Nat.le_of_lt hlt)), ?_⟩
  intro hstamp e he
  have hle := h.reached (List.ne_nil_of_mem he) size' hstamp
  omega

theorem Fresh.mark (h : Fresh P size m) (stamp : ℕ) : Fresh P size (m.mark stamp) := by
  unfold Stamped.mark
  split_ifs with hstamp
  · exact h
  · exact fresh_of_nil rfl

/-- Under the size of its source a memo is right. -/
theorem Fresh.mark_right (h : Fresh P size m) : ∀ e ∈ (m.mark size).entries, P e := by
  apply (h.mark size).right
  unfold Stamped.mark
  split_ifs with hstamp
  · exact hstamp
  · rfl

/-- Entries may go. -/
theorem Fresh.drop (h : Fresh P size m) {entries : OrdMap κ ν} (hsub : ∀ e ∈ entries, e ∈ m.entries) :
    Fresh P size { m with entries := entries } := by
  refine ⟨?_, fun hstamp e he => h.right hstamp e (hsub e he)⟩
  intro hne
  obtain ⟨e, he⟩ := List.exists_mem_of_ne_nil entries hne
  exact h.reached (List.ne_nil_of_mem (hsub e he))

/-- What the source says may come, unless the stamp is ahead of the source. -/
theorem Fresh.put (h : Fresh P size m) (hreached : ∀ stamp, m.stamp = some stamp → stamp ≤ size)
    {entries : OrdMap κ ν} (hput : ∀ e ∈ entries, e ∈ m.entries ∨ P e) :
    Fresh P size { m with entries := entries } := by
  refine ⟨fun _ => hreached, ?_⟩
  intro hstamp e he
  rcases hput e he with hheld | hright
  · exact h.right hstamp e hheld
  · exact hright

end Stamped
