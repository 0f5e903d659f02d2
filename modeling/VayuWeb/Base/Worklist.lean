import Mathlib.Data.Nat.Notation
import Mathlib.Logic.Relation

/-!
# Walking with a list of what is left

Every item yields some results and some more items. The walk takes the first item of its list, and puts the new ones in
front of the others.

* `run_spec`: a walk that ends has the results of everything that is reachable, and no others.
-/

namespace Worklist

open Relation (ReflTransGen)

variable {σ β : Type} {next : σ → List σ} {yield_ : σ → List β}

/-- The walk, for so many more rounds. -/
def run (next : σ → List σ) (yield_ : σ → List β) : ℕ → List σ → List β → Option (List β)
  | _, [], out => some out
  | 0, _ :: _, _ => none
  | fuel + 1, s :: rest, out => run next yield_ fuel (next s ++ rest) (out ++ yield_ s)

/-- An item leads to another. -/
def Leads (next : σ → List σ) : σ → σ → Prop := ReflTransGen fun a b => b ∈ next a

/-- What leads on does so over a first step. -/
theorem leads_iff {a b : σ} : Leads next a b ↔ b = a ∨ ∃ c ∈ next a, Leads next c b := by
  constructor
  · intro h
    rcases ReflTransGen.cases_head h with rfl | ⟨c, hc, hcb⟩
    · exact Or.inl rfl
    · exact Or.inr ⟨c, hc, hcb⟩
  · rintro (rfl | ⟨c, hc, hcb⟩)
    · exact ReflTransGen.refl
    · exact ReflTransGen.head hc hcb

/-- The results of a walk are those before it, and those of everything that its items lead to. -/
theorem mem_run_iff {fuel : ℕ} {items : List σ} {out result : List β} (h : run next yield_ fuel items out = some result)
    (b : β) : b ∈ result ↔ b ∈ out ∨ ∃ a ∈ items, ∃ s, Leads next a s ∧ b ∈ yield_ s := by
  induction fuel generalizing items out with
  | zero =>
    cases items with
    | nil =>
      rw [run, Option.some.injEq] at h
      simp [h]
    | cons a rest => exact absurd h (by simp [run])
  | succ fuel ih =>
    cases items with
    | nil =>
      rw [run, Option.some.injEq] at h
      simp [h]
    | cons a rest =>
      rw [run] at h
      rw [ih h, List.mem_append]
      -- from the item taken, from what it leads to, or from the others
      constructor
      · rintro ((hout | hyield) | ⟨c, hc, s, hs, hb⟩)
        · exact Or.inl hout
        · exact Or.inr ⟨a, List.mem_cons_self, a, ReflTransGen.refl, hyield⟩
        · rcases List.mem_append.1 hc with hc | hc
          · exact Or.inr ⟨a, List.mem_cons_self, s, leads_iff.2 (Or.inr ⟨c, hc, hs⟩), hb⟩
          · exact Or.inr ⟨c, List.mem_cons_of_mem _ hc, s, hs, hb⟩
      · rintro (hout | ⟨c, hc, s, hs, hb⟩)
        · exact Or.inl (Or.inl hout)
        · rcases List.mem_cons.1 hc with rfl | hc
          · rcases leads_iff.1 hs with rfl | ⟨d, hd, hds⟩
            · exact Or.inl (Or.inr hb)
            · exact Or.inr ⟨d, List.mem_append_left _ hd, s, hds, hb⟩
          · exact Or.inr ⟨c, List.mem_append_right _ hc, s, hs, hb⟩

/-- **A walk that ends has the results of everything that is reachable**, and no others. -/
theorem run_spec {fuel : ℕ} {start : σ} {result : List β} (h : run next yield_ fuel [start] [] = some result) (b : β) :
    b ∈ result ↔ ∃ s, Leads next start s ∧ b ∈ yield_ s := by
  rw [mem_run_iff h]
  simp

end Worklist
