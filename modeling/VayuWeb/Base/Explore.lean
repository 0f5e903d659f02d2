import Mathlib.Data.Nat.Notation
import Mathlib.Logic.Relation

/-!
# Exploring a graph from a root

The walk keeps a stack and the keys of what it has visited. Every item yields the next ones, or the walk fails at it.

* `run_ok`: a walk that ends has visited what is reachable, and failed nowhere.
* `run_error`: a walk that fails does so at something reachable.
-/

namespace Explore

open Relation (ReflTransGen)

variable {α κ ε : Type} {key : α → κ} {next : α → Except ε (List α)} {root a : α} {fuel : ℕ}
  {stack out result : List α} {seen : List κ} {error : ε}

/-- The walk, for so many more rounds. -/
def run [DecidableEq κ] (key : α → κ) (next : α → Except ε (List α)) :
    ℕ → List α → List κ → List α → Option (Except ε (List α))
  | _, [], _, out => some (.ok out)
  | 0, _ :: _, _, _ => none
  | fuel + 1, a :: stack, seen, out =>
    if key a ∈ seen then run key next fuel stack seen out
    else
      match next a with
      | .error error => some (.error error)
      | .ok items => run key next fuel (items ++ stack) (key a :: seen) (out ++ [a])

/-- One item yields another. -/
def Step (next : α → Except ε (List α)) (a b : α) : Prop := ∃ items, next a = .ok items ∧ b ∈ items

/-- What lies behind a starting point, over any number of steps. -/
def Reach (next : α → Except ε (List α)) : α → α → Prop := ReflTransGen (Step next)

/-- What a walk has visited, and what it has not come to yet. -/
structure Visited (key : α → κ) (next : α → Except ε (List α)) (good : α → Prop) (stack : List α) (seen : List κ)
    (out : List α) : Prop where
  stack_good : ∀ a ∈ stack, good a
  out_good : ∀ a ∈ out, good a
  seen : ∀ k, k ∈ seen ↔ ∃ a ∈ out, key a = k
  closed : ∀ a ∈ out, ∃ items, next a = .ok items ∧ ∀ b ∈ items, b ∈ out ∨ b ∈ stack

variable {good : α → Prop}

/-- An item that was visited before is passed over. -/
theorem Visited.skip (hinj : ∀ a b, good a → good b → key a = key b → a = b)
    (h : Visited key next good (a :: stack) seen out) (hseen : key a ∈ seen) :
    a ∈ out ∧ Visited key next good stack seen out := by
  obtain ⟨b, hb, hkey⟩ := (h.seen _).1 hseen
  have heq : b = a := hinj b a (h.out_good b hb) (h.stack_good a List.mem_cons_self) hkey
  rw [heq] at hb
  refine ⟨hb, ?_, h.out_good, h.seen, ?_⟩
  · intro c hc
    exact h.stack_good c (List.mem_cons_of_mem _ hc)
  · intro c hc
    obtain ⟨items, hitems, hclosed⟩ := h.closed c hc
    refine ⟨items, hitems, ?_⟩
    intro d hd
    rcases hclosed d hd with hd | hd
    · exact Or.inl hd
    · rcases List.mem_cons.1 hd with rfl | hd
      · exact Or.inl hb
      · exact Or.inr hd

/-- One more item is visited. -/
theorem Visited.visit (hnext : ∀ a items, good a → next a = .ok items → ∀ b ∈ items, good b)
    (h : Visited key next good (a :: stack) seen out) {items : List α} (hitems : next a = .ok items) :
    Visited key next good (items ++ stack) (key a :: seen) (out ++ [a]) := by
  have ha := h.stack_good a List.mem_cons_self
  refine ⟨?_, ?_, ?_, ?_⟩
  · intro b hb
    rcases List.mem_append.1 hb with hb | hb
    · exact hnext a items ha hitems b hb
    · exact h.stack_good b (List.mem_cons_of_mem _ hb)
  · intro b hb
    rcases List.mem_append.1 hb with hb | hb
    · exact h.out_good b hb
    · rw [List.mem_singleton.1 hb]
      exact ha
  · intro k
    rw [List.mem_cons, h.seen]
    constructor
    · rintro (rfl | ⟨b, hb, hkey⟩)
      · exact ⟨a, List.mem_append_right _ (List.mem_singleton_self _), rfl⟩
      · exact ⟨b, List.mem_append_left _ hb, hkey⟩
    · rintro ⟨b, hb, hkey⟩
      rcases List.mem_append.1 hb with hb | hb
      · exact Or.inr ⟨b, hb, hkey⟩
      · rw [List.mem_singleton.1 hb] at hkey
        exact Or.inl hkey.symm
  -- what the new item leads to is on the stack, and what the others led to has moved on with it
  · intro b hb
    rcases List.mem_append.1 hb with hb | hb
    · obtain ⟨items', hitems', hclosed⟩ := h.closed b hb
      refine ⟨items', hitems', ?_⟩
      intro c hc
      rcases hclosed c hc with hc | hc
      · exact Or.inl (List.mem_append_left _ hc)
      · rcases List.mem_cons.1 hc with rfl | hc
        · exact Or.inl (List.mem_append_right _ (List.mem_singleton_self _))
        · exact Or.inr (List.mem_append_right _ hc)
    · rw [List.mem_singleton.1 hb]
      exact ⟨items, hitems, fun c hc => Or.inr (List.mem_append_left _ hc)⟩

variable [DecidableEq κ]

/-- A walk that ends has closed the set of what it visited, by induction on the rounds. -/
theorem visited_of_run (hinj : ∀ a b, good a → good b → key a = key b → a = b)
    (hnext : ∀ a items, good a → next a = .ok items → ∀ b ∈ items, good b)
    (h : Visited key next good stack seen out) (hrun : run key next fuel stack seen out = some (.ok result)) :
    (∀ a ∈ out, a ∈ result) ∧ (∀ a ∈ stack, a ∈ result) ∧
      ∀ a ∈ result, ∃ items, next a = .ok items ∧ ∀ b ∈ items, b ∈ result := by
  induction fuel generalizing stack seen out with
  | zero =>
    cases stack with
    | nil =>
      rw [run, Option.some.injEq, Except.ok.injEq] at hrun
      rw [← hrun]
      refine ⟨fun a ha => ha, fun a ha => absurd ha List.not_mem_nil, ?_⟩
      intro a ha
      obtain ⟨items, hitems, hclosed⟩ := h.closed a ha
      exact ⟨items, hitems, fun b hb => (hclosed b hb).resolve_right List.not_mem_nil⟩
    | cons a stack => exact absurd hrun (by simp [run])
  | succ fuel ih =>
    cases stack with
    | nil =>
      rw [run, Option.some.injEq, Except.ok.injEq] at hrun
      rw [← hrun]
      refine ⟨fun a ha => ha, fun a ha => absurd ha List.not_mem_nil, ?_⟩
      intro a ha
      obtain ⟨items, hitems, hclosed⟩ := h.closed a ha
      exact ⟨items, hitems, fun b hb => (hclosed b hb).resolve_right List.not_mem_nil⟩
    | cons a stack =>
      rw [run] at hrun
      -- a node seen before brings nothing new
      by_cases hseen : key a ∈ seen
      · rw [if_pos hseen] at hrun
        obtain ⟨ha, hskip⟩ := h.skip hinj hseen
        obtain ⟨hout, hstack, hclosed⟩ := ih hskip hrun
        refine ⟨hout, ?_, hclosed⟩
        intro b hb
        rcases List.mem_cons.1 hb with rfl | hb
        · exact hout b ha
        · exact hstack b hb
      · rw [if_neg hseen] at hrun
        cases hitems : next a with
        | error error => rw [hitems] at hrun; exact absurd hrun (by simp)
        | ok items =>
          rw [hitems] at hrun
          obtain ⟨hout, hstack, hclosed⟩ := ih (h.visit hnext hitems) hrun
          refine ⟨fun b hb => hout b (List.mem_append_left _ hb), ?_, hclosed⟩
          intro b hb
          rcases List.mem_cons.1 hb with rfl | hb
          · exact hout b (List.mem_append_right _ (List.mem_singleton_self _))
          · exact hstack b (List.mem_append_right _ hb)

/-- Whatever a walk has visited at its end is reachable. -/
theorem reach_of_run (hrun : run key next fuel stack seen out = some (.ok result)) :
    ∀ a ∈ result, a ∈ out ∨ ∃ s ∈ stack, Reach next s a := by
  induction fuel generalizing stack seen out with
  | zero =>
    cases stack with
    | nil =>
      rw [run, Option.some.injEq, Except.ok.injEq] at hrun
      rw [← hrun]
      exact fun a ha => Or.inl ha
    | cons a stack => exact absurd hrun (by simp [run])
  | succ fuel ih =>
    cases stack with
    | nil =>
      rw [run, Option.some.injEq, Except.ok.injEq] at hrun
      rw [← hrun]
      exact fun a ha => Or.inl ha
    | cons b stack =>
      rw [run] at hrun
      intro a ha
      by_cases hseen : key b ∈ seen
      · rw [if_pos hseen] at hrun
        rcases ih hrun a ha with hout | ⟨s, hs, hreach⟩
        · exact Or.inl hout
        · exact Or.inr ⟨s, List.mem_cons_of_mem _ hs, hreach⟩
      · rw [if_neg hseen] at hrun
        cases hitems : next b with
        | error error => rw [hitems] at hrun; exact absurd hrun (by simp)
        | ok items =>
          rw [hitems] at hrun
          rcases ih hrun a ha with hout | ⟨s, hs, hreach⟩
          -- reached through the item that was taken from the stack, or through one below it
          · rcases List.mem_append.1 hout with hout | hout
            · exact Or.inl hout
            · rw [List.mem_singleton.1 hout]
              exact Or.inr ⟨b, List.mem_cons_self, ReflTransGen.refl⟩
          · rcases List.mem_append.1 hs with hs | hs
            · exact Or.inr ⟨b, List.mem_cons_self, ReflTransGen.head ⟨items, hitems, hs⟩ hreach⟩
            · exact Or.inr ⟨s, List.mem_cons_of_mem _ hs, hreach⟩

/-- **A walk that ends has visited what is reachable**, and failed nowhere. -/
theorem run_ok (hinj : ∀ a b, good a → good b → key a = key b → a = b)
    (hnext : ∀ a items, good a → next a = .ok items → ∀ b ∈ items, good b) (hroot : good root)
    (hrun : run key next fuel [root] [] [] = some (.ok result)) :
    (∀ a, a ∈ result ↔ Reach next root a) ∧ ∀ a, Reach next root a → ∃ items, next a = .ok items := by
  have hstart : Visited key next good [root] [] [] := by
    refine ⟨?_, fun a ha => absurd ha List.not_mem_nil, ?_, fun a ha => absurd ha List.not_mem_nil⟩
    · intro a ha
      rw [List.mem_singleton.1 ha]
      exact hroot
    · intro k
      simp
  obtain ⟨-, hstack, hclosed⟩ := visited_of_run hinj hnext hstart hrun
  -- the result is closed under `next`, so it holds all that can be reached
  have hall : ∀ a, Reach next root a → a ∈ result := by
    intro a ha
    induction ha with
    | refl => exact hstack root (List.mem_singleton_self _)
    | tail _ hstep ih =>
      obtain ⟨items, hitems, hb⟩ := hstep
      obtain ⟨items', hitems', hsub⟩ := hclosed _ ih
      rw [hitems, Except.ok.injEq] at hitems'
      rw [hitems'] at hb
      exact hsub _ hb
  refine ⟨?_, ?_⟩
  · intro a
    refine ⟨?_, hall a⟩
    intro ha
    rcases reach_of_run hrun a ha with hout | ⟨s, hs, hreach⟩
    · exact absurd hout List.not_mem_nil
    · rw [List.mem_singleton.1 hs] at hreach
      exact hreach
  · intro a ha
    obtain ⟨items, hitems, -⟩ := hclosed a (hall a ha)
    exact ⟨items, hitems⟩

/-- A search that fails met an item behind its stack that fails. -/
theorem error_of_run (hrun : run key next fuel stack seen out = some (.error error)) :
    ∃ s ∈ stack, ∃ a, Reach next s a ∧ next a = .error error := by
  induction fuel generalizing stack seen out with
  | zero => cases stack <;> exact absurd hrun (by simp [run])
  | succ fuel ih =>
    cases stack with
    | nil => exact absurd hrun (by simp [run])
    | cons b stack =>
      rw [run] at hrun
      by_cases hseen : key b ∈ seen
      · rw [if_pos hseen] at hrun
        obtain ⟨s, hs, a, hreach, herror⟩ := ih hrun
        exact ⟨s, List.mem_cons_of_mem _ hs, a, hreach, herror⟩
      · rw [if_neg hseen] at hrun
        cases hitems : next b with
        | error error' =>
          rw [hitems, Option.some.injEq, Except.error.injEq] at hrun
          rw [hrun] at hitems
          exact ⟨b, List.mem_cons_self, b, ReflTransGen.refl, hitems⟩
        | ok items =>
          rw [hitems] at hrun
          obtain ⟨s, hs, a, hreach, herror⟩ := ih hrun
          rcases List.mem_append.1 hs with hs | hs
          · exact ⟨b, List.mem_cons_self, a, ReflTransGen.head ⟨items, hitems, hs⟩ hreach, herror⟩
          · exact ⟨s, List.mem_cons_of_mem _ hs, a, hreach, herror⟩

/-- **A walk that fails does so at something reachable.** -/
theorem run_error (hrun : run key next fuel [root] [] [] = some (.error error)) :
    ∃ a, Reach next root a ∧ next a = .error error := by
  obtain ⟨s, hs, a, hreach, herror⟩ := error_of_run hrun
  rw [List.mem_singleton.1 hs] at hreach
  exact ⟨a, hreach, herror⟩

end Explore
