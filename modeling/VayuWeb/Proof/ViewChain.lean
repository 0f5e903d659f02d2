import VayuWeb.Base.Lineage
import VayuWeb.Client.View

/-!
# The walk of `deterministic_chain`

It finds the lineage of its candidates, whatever their order (`deterministicChain_complete`).
-/

namespace VayuWeb.Client

open Lineage (Kind Chain Complete Follows)

/-! ## The walk -/

/-- How a candidate stands among the others. -/
def candidateKind : Kind Candidate Bytes :=
  { slot := Candidate.seq, id := Candidate.hash, parent := Candidate.prevHash }

/-- A candidate follows the winner before it. -/
def Linked (previous : Option Candidate) (candidate : Candidate) : Prop :=
  ∀ winner ∈ previous, candidate.prevHash = winner.hash

/-- A linked candidate takes the place of a larger one. -/
theorem better_of_linked {previous best : Option Candidate} {candidate : Candidate}
    (h : Linked previous candidate) : ∃ c, better previous best candidate = some c ∧
      (c = candidate ∨ best = some c) ∧ c.hash ≤ candidate.hash ∧ ∀ d ∈ best, c.hash ≤ d.hash := by
  have hlinked : ∀ winner, previous = some winner → candidate.prevHash = winner.hash := h
  cases best with
  | none =>
    have hbetter : better previous none candidate = some candidate := by
      cases previous with
      | none => simp [better]
      | some winner => simp [better, hlinked winner]
    exact ⟨candidate, hbetter, Or.inl rfl, List.le_refl _, by simp⟩
  | some current =>
    have hbetter : better previous (some current) candidate =
        if candidate.hash < current.hash then some candidate else some current := by
      cases previous with
      | none => simp [better]
      | some winner => simp [better, hlinked winner]
    rw [hbetter]
    -- the smaller hash takes the place, so what is held only gets smaller
    by_cases hlt : candidate.hash < current.hash
    · refine ⟨candidate, if_pos hlt, Or.inl rfl, List.le_refl _, ?_⟩
      intro d hd
      rw [Option.mem_some_iff] at hd
      rw [← hd]
      exact Std.le_of_lt hlt
    · refine ⟨current, if_neg hlt, Or.inr rfl, Std.not_lt.1 hlt, ?_⟩
      intro d hd
      rw [Option.mem_some_iff] at hd
      rw [hd]
      exact List.le_refl _

/-- A candidate that is not linked takes nobody's place. -/
theorem better_of_not_linked {previous best : Option Candidate} {candidate : Candidate}
    (h : ¬ Linked previous candidate) : better previous best candidate = best := by
  unfold better
  cases previous with
  | none => exact absurd (fun winner hw => by simp at hw) h
  | some winner =>
    have hlinked : ¬ candidate.prevHash = winner.hash := by
      intro heq
      apply h
      intro winner' hw
      rw [Option.mem_some_iff] at hw
      rw [heq, hw]
    simp only [hlinked, decide_false, Bool.false_eq_true, not_false_eq_true, if_true]

/-- The least linked candidate of a group, when there is one. -/
theorem foldl_better {previous best : Option Candidate} {group : List Candidate} :
    (group.foldl (better previous) best = none → best = none ∧ ∀ d ∈ group, ¬ Linked previous d) ∧
    ∀ c, group.foldl (better previous) best = some c →
      (best = some c ∨ c ∈ group ∧ Linked previous c) ∧ (∀ d ∈ best, c.hash ≤ d.hash) ∧
        ∀ d ∈ group, Linked previous d → c.hash ≤ d.hash := by
  induction group generalizing best with
  | nil =>
    constructor
    · intro h
      exact ⟨h, by simp⟩
    · intro c h
      obtain rfl : best = some c := h
      refine ⟨Or.inl rfl, ?_, by simp⟩
      intro d hd
      rw [Option.mem_some_iff] at hd
      rw [hd]
      exact List.le_refl _
  | cons d group ih =>
    rw [List.foldl_cons]
    -- `better` looks only at candidates that link to the previous one
    by_cases hlinked : Linked previous d
    · obtain ⟨c', hbetter, hfrom', hle', hbest'⟩ := @better_of_linked previous best d hlinked
      obtain ⟨ihNone, ihSome⟩ := @ih (some c')
      rw [hbetter]
      constructor
      · intro h
        exact absurd (ihNone h).1 (Option.some_ne_none _)
      · intro c h
        obtain ⟨hfrom, hle, hgroup⟩ := ihSome c h
        have hcc' : c.hash ≤ c'.hash := hle c' rfl
        refine ⟨?_, fun d hd => Std.le_trans hcc' (hbest' d hd),
          List.forall_mem_cons.2 ⟨fun _ => Std.le_trans hcc' hle', hgroup⟩⟩
        rcases hfrom with hfrom | ⟨hmem, hlink⟩
        · rw [Option.some.injEq] at hfrom
          subst hfrom
          rcases hfrom' with rfl | hfrom'
          · exact Or.inr ⟨List.mem_cons_self, hlinked⟩
          · exact Or.inl hfrom'
        · exact Or.inr ⟨List.mem_cons_of_mem _ hmem, hlink⟩
    · rw [better_of_not_linked hlinked]
      obtain ⟨ihNone, ihSome⟩ := @ih best
      constructor
      · intro h
        obtain ⟨hbest, hgroup⟩ := ihNone h
        exact ⟨hbest, List.forall_mem_cons.2 ⟨hlinked, hgroup⟩⟩
      · intro c h
        obtain ⟨hfrom, hle, hgroup⟩ := ihSome c h
        refine ⟨?_, hle, List.forall_mem_cons.2 ⟨fun hd => absurd hd hlinked, hgroup⟩⟩
        rcases hfrom with hfrom | ⟨hmem, hlink⟩
        · exact Or.inl hfrom
        · exact Or.inr ⟨List.mem_cons_of_mem _ hmem, hlink⟩

/-- In a list that rises from a slot on, the first run is that slot's candidates. -/
theorem mem_takeWhile {mine : List Candidate} {n : ℕ} (hsorted : mine.Pairwise fun a b => a.seq ≤ b.seq)
    (hfrom : ∀ c ∈ mine, n ≤ c.seq) {d : Candidate} :
    (d ∈ mine.takeWhile fun c => c.seq = n) ↔ d ∈ mine ∧ d.seq = n := by
  constructor
  · intro hd
    have hseq := List.all_eq_true.1 List.all_takeWhile d hd
    exact ⟨(List.takeWhile_sublist _).subset hd, of_decide_eq_true hseq⟩
  · intro ⟨hd, hseq⟩
    induction mine with
    | nil => simp at hd
    | cons c mine ih =>
      obtain ⟨hc, hsorted⟩ := List.pairwise_cons.1 hsorted
      have hn := hfrom c List.mem_cons_self
      rcases List.mem_cons.1 hd with rfl | hd
      · rw [List.takeWhile_cons_of_pos (by simpa using hseq)]
        exact List.mem_cons_self
      · have hle := hc d hd
        rw [List.takeWhile_cons_of_pos (by simp only [decide_eq_true_eq]; omega)]
        exact List.mem_cons_of_mem _ (ih hsorted (fun c hc => hfrom c (List.mem_cons_of_mem _ hc)) hd)

/-- And the rest is those of the slots above. -/
theorem mem_dropWhile {mine : List Candidate} {n : ℕ} (hsorted : mine.Pairwise fun a b => a.seq ≤ b.seq)
    (hfrom : ∀ c ∈ mine, n ≤ c.seq) {d : Candidate} :
    (d ∈ mine.dropWhile fun c => c.seq = n) ↔ d ∈ mine ∧ n < d.seq := by
  induction mine with
  | nil => simp
  | cons c mine ih =>
    obtain ⟨hc, hsorted'⟩ := List.pairwise_cons.1 hsorted
    have hn := hfrom c List.mem_cons_self
    have hfrom' : ∀ c ∈ mine, n ≤ c.seq := fun c hc => hfrom c (List.mem_cons_of_mem _ hc)
    by_cases hseq : c.seq = n
    · rw [List.dropWhile_cons_of_pos (by simpa using hseq), ih hsorted' hfrom', List.mem_cons]
      constructor
      · intro ⟨hd, hlt⟩
        exact ⟨Or.inr hd, hlt⟩
      · intro ⟨hd, hlt⟩
        rcases hd with rfl | hd
        · omega
        · exact ⟨hd, hlt⟩
    · rw [List.dropWhile_cons_of_neg (by simpa using hseq)]
      constructor
      · intro hd
        refine ⟨hd, ?_⟩
        rcases List.mem_cons.1 hd with rfl | hd
        · omega
        · have hle := hc d hd
          omega
      · intro ⟨hd, _⟩
        exact hd

/-- Nothing takes the next slot when nothing linked is on the list. -/
theorem complete_of_none {S : Set Candidate} {mine chain : List Candidate} (hchain : Chain candidateKind S chain)
    (hmine : ∀ c, c ∈ mine ↔ c ∈ S ∧ chain.length ≤ c.seq)
    (hnone : ∀ c ∈ mine, c.seq = chain.length → ¬ Linked chain.head? c) : Complete candidateKind S chain := by
  refine ⟨hchain, ?_⟩
  intro d hd hfollows
  exact hnone d ((hmine d).2 ⟨hd, Nat.le_of_eq hfollows.1.symm⟩) hfollows.1 hfollows.2

/-- **One turn after the other, the walk finds the lineage.** -/
theorem walk_complete {S : Set Candidate} {fuel : ℕ} {mine chain : List Candidate}
    (hchain : Chain candidateKind S chain) (hsorted : mine.Pairwise fun a b => a.seq ≤ b.seq)
    (hmine : ∀ c, c ∈ mine ↔ c ∈ S ∧ chain.length ≤ c.seq) (hfuel : mine.length ≤ fuel) :
    Complete candidateKind S (walk fuel mine chain) := by
  induction fuel generalizing mine chain with
  | zero =>
    obtain rfl : mine = [] := List.length_eq_zero_iff.1 (Nat.le_zero.1 hfuel)
    exact complete_of_none hchain hmine (by simp)
  | succ fuel ih =>
    have hfrom : ∀ c ∈ mine, chain.length ≤ c.seq := fun c hc => ((hmine c).1 hc).2
    cases mine with
    | nil => exact complete_of_none hchain hmine (by simp)
    | cons first mine =>
      rw [walk]
      by_cases hfirst : first.seq ≠ chain.length
      -- the least `seq` left is above the next slot, so nothing fills it
      · rw [if_pos hfirst]
        apply complete_of_none hchain hmine
        intro c hc hseq
        have hle := hfrom first List.mem_cons_self
        rcases List.mem_cons.1 hc with rfl | hc
        · exact absurd hseq hfirst
        · have hle' := (List.pairwise_cons.1 hsorted).1 c hc
          omega
      · rw [if_neg hfirst]
        obtain ⟨hnone, hsome⟩ := @foldl_better chain.head? none
          ((first :: mine).takeWhile fun c => c.seq = chain.length)
        cases hbest : ((first :: mine).takeWhile fun c => c.seq = chain.length).foldl
            (better chain.head?) none with
        | none =>
          simp only [hbest]
          apply complete_of_none hchain hmine
          intro c hc hseq
          exact (hnone hbest).2 c ((mem_takeWhile hsorted hfrom).2 ⟨hc, hseq⟩)
        -- the smallest hash among those that link takes the slot, and the walk goes on with later slots
        | some chosen =>
          simp only [hbest]
          obtain ⟨hfrom', -, hleast⟩ := hsome chosen hbest
          obtain ⟨hmem, hlinked⟩ := hfrom'.resolve_left (by simp)
          obtain ⟨hchosen, hseq⟩ := (mem_takeWhile hsorted hfrom).1 hmem
          apply ih
          · refine .cons hchain ((hmine chosen).1 hchosen).1 ⟨hseq, hlinked⟩ ?_
            intro d hd hfollows
            have hd' := (hmine d).2 ⟨hd, Nat.le_of_eq hfollows.1.symm⟩
            exact hleast d ((mem_takeWhile hsorted hfrom).2 ⟨hd', hfollows.1⟩) hfollows.2
          · exact hsorted.sublist (List.dropWhile_sublist _)
          · intro c
            rw [mem_dropWhile hsorted hfrom, hmine c, List.length_cons]
            constructor
            · intro ⟨⟨hc, _⟩, hlt⟩
              exact ⟨hc, hlt⟩
            · intro ⟨hc, hlt⟩
              exact ⟨⟨hc, Nat.le_of_lt hlt⟩, hlt⟩
          · rw [List.dropWhile_cons_of_pos (by simpa using hfirst)]
            have hle := (List.dropWhile_sublist (l := mine) fun c => decide (c.seq = chain.length)).length_le
            rw [List.length_cons] at hfuel
            omega

/-- **`deterministic_chain` finds the lineage of its candidates.** -/
theorem deterministicChain_complete (mine : List Candidate) :
    Complete candidateKind {c | c ∈ mine} (deterministicChain mine) := by
  have htotal : Std.Total fun a b : Candidate => a.seq ≤ b.seq := ⟨fun a b => Nat.le_total a.seq b.seq⟩
  have htrans : IsTrans Candidate fun a b => a.seq ≤ b.seq := ⟨fun a b c => Nat.le_trans⟩
  apply walk_complete .nil
  · exact List.pairwise_insertionSort _ mine
  · intro c
    rw [List.mem_insertionSort]
    exact ⟨fun hc => ⟨hc, Nat.zero_le _⟩, fun h => h.1⟩
  · rw [List.length_insertionSort]

end VayuWeb.Client
