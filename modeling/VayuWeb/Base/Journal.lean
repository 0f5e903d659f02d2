import Mathlib.Data.List.Infix
import Mathlib.Data.List.Nodup
import Mathlib.Data.Nat.Notation

/-!
# Facts recorded once, under budgets

Reports are offered one after the other. A report is admitted when it proves a fact that no report held
proves, and the budget it is charged to has room; nothing is ever evicted. `Kept` reports are those that
were admitted in the order they stand in, so offering them again admits them all (`offerAll_of_kept`).
-/

namespace Journal

variable {ρ κ ω : Type} [DecidableEq ω]

/-- What a report proves, which budget it is charged to, and how large the budgets are. -/
structure Rules (ρ κ ω : Type) where
  fact : ρ → Option κ
  charge : ρ → ω
  budget : ω → ℕ

variable (R : Rules ρ κ ω)

/-- How many of the reports held are charged to a budget. -/
def spent (held : List ρ) (o : ω) : ℕ := held.countP fun r => R.charge r = o

/-- A report that proves a new fact while its budget lasts. -/
structure Admits (held : List ρ) (r : ρ) : Prop where
  proves : ∃ k, R.fact r = some k ∧ ∀ h ∈ held, R.fact h ≠ some k
  room : spent R held (R.charge r) < R.budget (R.charge r)

open scoped Classical in
/-- What is held once a report was offered. -/
noncomputable def offer (held : List ρ) (r : ρ) : List ρ := if Admits R held r then held ++ [r] else held

/-- What is held once reports were offered one after the other. -/
noncomputable def offerAll (held rs : List ρ) : List ρ := rs.foldl (offer R) held

/-- Reports of which each was admitted after those before it. -/
inductive Kept : List ρ → Prop where
  | nil : Kept []
  | concat {rs r} : Kept rs → Admits R rs r → Kept (rs ++ [r])

variable {R} {held rs : List ρ} {r : ρ}

theorem offer_of_admits (h : Admits R held r) : offer R held r = held ++ [r] := if_pos h

theorem offer_of_not (h : ¬ Admits R held r) : offer R held r = held := if_neg h

theorem offerAll_nil : offerAll R held [] = held := rfl

theorem offerAll_cons : offerAll R held (r :: rs) = offerAll R (offer R held r) rs := rfl

/-- Offering two lists is offering the second after the first. -/
theorem offerAll_append (rs' : List ρ) : offerAll R held (rs ++ rs') = offerAll R (offerAll R held rs) rs' :=
  List.foldl_append

/-- **What was kept is kept again.** -/
theorem offerAll_of_kept (h : Kept R rs) : offerAll R [] rs = rs := by
  induction h with
  | nil => rfl
  | concat _ hadmits ih => rw [offerAll_append, ih, offerAll_cons, offer_of_admits hadmits, offerAll_nil]

/-- An offer takes nothing out. -/
theorem prefix_offer (held : List ρ) (r : ρ) : held <+: offer R held r := by
  by_cases h : Admits R held r
  · rw [offer_of_admits h]
    exact List.prefix_append held [r]
  · rw [offer_of_not h]

/-- Nothing is evicted. -/
theorem prefix_offerAll (held rs : List ρ) : held <+: offerAll R held rs := by
  induction rs generalizing held with
  | nil => exact List.prefix_rfl
  | cons r rs ih => exact (prefix_offer held r).trans (ih _)

/-- What is held after an offer was held before, or was offered. -/
theorem mem_offer {x : ρ} (h : x ∈ offer R held r) : x ∈ held ∨ x = r := by
  by_cases hadmits : Admits R held r
  · rw [offer_of_admits hadmits, List.mem_append, List.mem_singleton] at h
    exact h
  · rw [offer_of_not hadmits] at h
    exact Or.inl h

/-- Nothing is held that was not offered. -/
theorem mem_offerAll {x : ρ} (h : x ∈ offerAll R held rs) : x ∈ held ∨ x ∈ rs := by
  induction rs generalizing held with
  | nil => exact Or.inl h
  | cons r rs ih =>
    rw [offerAll_cons] at h
    rcases ih h with h | h
    · rcases mem_offer h with h | rfl
      · exact Or.inl h
      · exact Or.inr List.mem_cons_self
    · exact Or.inr (List.mem_cons_of_mem r h)

/-- A longer journal has spent no less. -/
theorem spent_mono {held' : List ρ} (h : held <+: held') (o : ω) : spent R held o ≤ spent R held' o :=
  h.sublist.countP_le

/-- The budget of what came to be held had room from the start. -/
theorem room_of_mem_offerAll {x : ρ} (h : x ∈ offerAll R held rs) (hnew : x ∉ held) :
    spent R held (R.charge x) < R.budget (R.charge x) := by
  induction rs generalizing held with
  | nil => exact absurd h hnew
  | cons r rs ih =>
    rw [offerAll_cons] at h
    by_cases hx : x ∈ offer R held r
    · -- it is the report that was offered, and that was admitted
      by_cases hadmits : Admits R held r
      · rcases mem_offer hx with hheld | rfl
        · exact absurd hheld hnew
        · exact hadmits.room
      · rw [offer_of_not hadmits] at hx
        exact absurd hx hnew
    · exact Nat.lt_of_le_of_lt (spent_mono (prefix_offer held r) _) (ih h hx)

/-- Every report kept proves a fact. -/
theorem Kept.proves (h : Kept R rs) : ∀ r ∈ rs, ∃ k, R.fact r = some k := by
  induction h with
  | nil =>
    intro r hr
    cases hr
  | concat _ hadmits ih =>
    intro x hx
    rw [List.mem_append, List.mem_singleton] at hx
    rcases hx with hx | rfl
    · exact ih x hx
    · obtain ⟨k, hk, -⟩ := hadmits.proves
      exact ⟨k, hk⟩

/-- No budget is overspent. -/
theorem Kept.spent_le (h : Kept R rs) (o : ω) : spent R rs o ≤ R.budget o := by
  induction h with
  | nil => exact Nat.zero_le _
  | @concat rs r _ hadmits ih =>
    have happend : spent R (rs ++ [r]) o = spent R rs o + spent R [r] o := List.countP_append
    have hone : spent R [r] o = if R.charge r = o then 1 else 0 := by
      unfold spent
      rw [List.countP_singleton]
      simp only [decide_eq_true_eq]
    rw [happend, hone]
    by_cases hcharge : R.charge r = o
    · have hroom := hadmits.room
      rw [hcharge] at hroom
      rw [if_pos hcharge]
      exact hroom
    · rw [if_neg hcharge]
      exact ih

/-- No fact is proved twice. -/
theorem Kept.nodup (h : Kept R rs) : (rs.map R.fact).Nodup := by
  induction h with
  | nil => exact List.nodup_nil
  | @concat rs r _ hadmits ih =>
    obtain ⟨k, hk, hnew⟩ := hadmits.proves
    rw [List.map_append, List.map_singleton, hk]
    apply List.nodup_append.2 ⟨ih, List.nodup_singleton _, ?_⟩
    intro fact hfact other hother
    obtain ⟨held, hheld, rfl⟩ := List.mem_map.1 hfact
    rw [List.mem_singleton.1 hother]
    exact hnew held hheld

/-- No two reports kept prove one fact. -/
theorem not_admits_of_mem {x : ρ} (hx : x ∈ held) (hfact : R.fact x = R.fact r) : ¬ Admits R held r := by
  intro h
  obtain ⟨k, hk, hnew⟩ := h.proves
  exact hnew x hx (hfact.trans hk)

end Journal
