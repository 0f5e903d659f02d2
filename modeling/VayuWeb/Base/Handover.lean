import Mathlib.Data.List.Induction
import Mathlib.Data.List.Pairwise
import Mathlib.Data.Nat.Notation

/-!
# Titles handed over after a delay

A title has a holder and passes from hand to hand, each handover taking effect a fixed delay
after it is made. Until then the holder keeps control, and may hand the title to someone else.

* `controller_run_of_lt`: within the delay of a handover control stays where it was.
* `exists_hand_of_controller`: who controls the title without having held it at the start was
  handed it, at least the delay earlier.
-/

namespace Handover

variable {K : Type}

/-- Who holds a title, and who takes it over at what time. -/
structure Title (K : Type) where
  holder : K
  pending : Option (K × ℕ)

/-- A title no handover has been made of. -/
def Title.of (k : K) : Title K := { holder := k, pending := none }

/-- Who controls a title at a time. -/
def Title.controller (t : Title K) (at_ : ℕ) : K :=
  match t.pending with
  | some (heir, effective) => if at_ < effective then t.holder else heir
  | none => t.holder

/-- What is done with a title: it is handed over, or kept by who controls it. -/
inductive Move (K : Type) where
  | hand (heir : K) (at_ : ℕ)
  | keep (at_ : ℕ)

/-- When a move is made. -/
def Move.time : Move K → ℕ
  | .hand _ at_ => at_
  | .keep at_ => at_

/-- One move: a hand-over waits for the delay, a keep leaves the title with who controls it then. -/
def Title.step (delay : ℕ) (t : Title K) : Move K → Title K
  | .hand heir at_ => { holder := t.controller at_, pending := some (heir, at_ + delay) }
  | .keep at_ => .of (t.controller at_)

/-- The title after a sequence of moves. -/
def Title.run (delay : ℕ) (t : Title K) (ms : List (Move K)) : Title K := ms.foldl (step delay) t

variable {delay : ℕ} {t : Title K} {k : K} {at_ now : ℕ} {ms : List (Move K)}

@[simp] theorem controller_of : (Title.of k).controller now = k := rfl

@[simp] theorem run_nil : t.run delay [] = t := rfl

@[simp] theorem run_cons (m : Move K) : t.run delay (m :: ms) = (t.step delay m).run delay ms := rfl

/-- A run goes on from where another ended. -/
theorem run_append (xs ys : List (Move K)) : t.run delay (xs ++ ys) = (t.run delay xs).run delay ys :=
  List.foldl_append

theorem run_concat (m : Move K) : t.run delay (ms ++ [m]) = (t.run delay ms).step delay m :=
  run_append ms [m]

/-- A hand-over takes effect after the delay, and not before. -/
theorem controller_hand (heir : K) : (t.step delay (.hand heir at_)).controller now =
    if now < at_ + delay then t.controller at_ else heir := rfl

@[simp] theorem controller_keep : (t.step delay (.keep at_)).controller now = t.controller at_ := rfl

/-- **Within the delay of a handover control stays where it was**, whatever else is done. -/
theorem controller_run_of_lt {k' : K} (hk : ∀ now', now' < at_ + delay → t.controller now' = k')
    (hms : ∀ m ∈ ms, at_ ≤ m.time ∧ m.time < at_ + delay) (hnow : now < at_ + delay) :
    (t.run delay ms).controller now = k' := by
  induction ms generalizing t with
  | nil => exact hk now hnow
  | cons m ms ih =>
    obtain ⟨hle, hlt⟩ := hms m List.mem_cons_self
    refine ih (fun now' hnow' => ?_) fun m' hm' => hms m' (List.mem_cons_of_mem _ hm')
    have hcontrol := hk m.time hlt
    cases m with
    | hand heir at' =>
      rw [controller_hand, if_pos (by simp only [Move.time] at hle; omega)]
      exact hcontrol
    | keep at' => exact hcontrol

/-- **Control comes by a handover**: who controls the title after some moves and is not who held
it at the start was handed it earlier, at least the delay ago. -/
theorem exists_hand_of_controller (hsorted : ms.Pairwise fun m m' => m.time ≤ m'.time)
    (hnow : ∀ m ∈ ms, m.time ≤ now) (hne : ((Title.of k).run delay ms).controller now ≠ k) :
    ∃ before at_ after,
      ms = before ++ .hand (((Title.of k).run delay ms).controller now) at_ :: after ∧
        at_ + delay ≤ now := by
  induction ms using List.reverseRecOn generalizing now with
  | nil => exact absurd rfl hne
  | append_singleton ms m ih =>
    rw [List.pairwise_append] at hsorted
    obtain ⟨hms, -, hlast⟩ := hsorted
    have hmnow : m.time ≤ now := hnow m (by simp)
    -- the controller at the last move came by a move before it
    have hearlier : ((Title.of k).run delay (ms ++ [m])).controller now =
        ((Title.of k).run delay ms).controller m.time →
        ∃ before at_ after,
          ms ++ [m] = before ++ .hand (((Title.of k).run delay (ms ++ [m])).controller now) at_ :: after ∧
            at_ + delay ≤ now := by
      intro heq
      rw [heq] at hne ⊢
      obtain ⟨before, at', after, hsplit, hle⟩ :=
        ih hms (fun m' hm' => hlast m' hm' m List.mem_cons_self) hne
      exact ⟨before, at', after ++ [m], by rw [← List.cons_append, ← List.append_assoc, ← hsplit], by omega⟩
    rw [run_concat] at hearlier hne ⊢
    cases m with
    | keep at' => exact hearlier rfl
    | hand heir at' =>
      rw [controller_hand] at hearlier ⊢
      by_cases hlt : now < at' + delay
      · exact hearlier (if_pos hlt)
      · rw [if_neg hlt]
        exact ⟨ms, at', [], rfl, by omega⟩

end Handover
