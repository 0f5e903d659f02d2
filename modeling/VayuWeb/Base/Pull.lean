import Mathlib.Algebra.Order.BigOperators.Group.List
import Mathlib.Algebra.Order.Group.Nat
import Mathlib.Data.List.TakeWhile

/-!
# Pulling a sequence in batches

A reader pulls a remote sequence, a batch at a time, with several requests in flight. Replies
carry no request number: one that starts at or below the fetch cursor advances it and pulls the
request cursor back to it; any reply releases the oldest request. A request that goes unanswered
for a deadline is released too, and pulls the request cursor back.

* `ask_of_stuck`, `asks_of_not_stuck`: a window asks for what is missing, now or after the deadline,
  exactly when it is not stuck: nothing in flight and the request cursor at the end.
* `not_stuck_ask`, `stuck_deliver_iff`: only a reply that starts past the cursor and releases the
  last request gets it stuck.
* `fetched_le_deliver`, `deliver_covered`: the fetch cursor never goes back and never skips.
-/

namespace Pull

/-- How far a sequence of a remote's was asked for and taken in. -/
structure Window where
  /-- How long the remote sequence is said to be. -/
  length : ℕ
  fetched : ℕ
  requested : ℕ
  /-- When each request in flight was made, in that order. -/
  outstanding : List ℕ

variable (slots batch deadline : ℕ)

/-- A reply of `n` items from `from_` on. -/
def Window.deliver (w : Window) (from_ n : ℕ) : Window :=
  if from_ ≤ w.fetched then
    { w with
      fetched := max w.fetched (from_ + n), requested := max w.fetched (from_ + n)
      outstanding := w.outstanding.drop 1 }
  else { w with outstanding := w.outstanding.drop 1 }

/-- Release the requests whose deadline has passed. -/
def Window.expire (w : Window) (now : ℕ) : Window :=
  let outstanding := w.outstanding.dropWhile fun at_ => decide (at_ + deadline ≤ now)
  if outstanding.length < w.outstanding.length then
    { w with outstanding := outstanding, requested := w.fetched }
  else w

/-- The next range to ask for, start and count. -/
def Window.ask (w : Window) (now : ℕ) : Option (ℕ × ℕ) × Window :=
  let w := w.expire deadline now
  if w.outstanding.length ≥ slots then (none, w)
  else if w.requested ≥ w.length then (none, w)
  else
    let count := min batch (w.length - w.requested)
    (some (w.requested, count),
      { w with outstanding := w.outstanding ++ [now], requested := w.requested + count })

variable {slots batch deadline} {w : Window} {from_ n now : ℕ}

/-! ## What a step leaves alone -/

@[simp] theorem length_deliver : (w.deliver from_ n).length = w.length := by
  unfold Window.deliver
  split_ifs <;> rfl

@[simp] theorem length_expire : (w.expire deadline now).length = w.length := by
  unfold Window.expire
  simp only
  split_ifs <;> rfl

@[simp] theorem fetched_expire : (w.expire deadline now).fetched = w.fetched := by
  unfold Window.expire
  simp only
  split_ifs <;> rfl

@[simp] theorem length_ask : (w.ask slots batch deadline now).2.length = w.length := by
  unfold Window.ask
  simp only
  split_ifs <;> simp

@[simp] theorem fetched_ask : (w.ask slots batch deadline now).2.fetched = w.fetched := by
  unfold Window.ask
  simp only
  split_ifs <;> simp

/-- The fetch cursor never goes back. -/
theorem fetched_le_deliver : w.fetched ≤ (w.deliver from_ n).fetched := by
  unfold Window.deliver
  split_ifs
  · exact le_max_left _ _
  · exact le_rfl

/-- **The fetch cursor never skips**: what it moves past is in the reply. -/
theorem deliver_covered {i : ℕ} (hi : i < (w.deliver from_ n).fetched) (hw : w.fetched ≤ i) :
    from_ ≤ i ∧ i < from_ + n := by
  unfold Window.deliver at hi
  split_ifs at hi with hfrom
  · simp only at hi
    omega
  · simp only at hi
    omega

/-- Nothing is fetched that was not asked for. -/
def Window.Ordered (w : Window) : Prop := w.fetched ≤ w.requested

/-- A delivery keeps a window in order. -/
theorem ordered_deliver (h : w.Ordered) : (w.deliver from_ n).Ordered := by
  unfold Window.Ordered Window.deliver at *
  split_ifs
  · exact le_rfl
  · exact h

/-- Expiry keeps a window in order. -/
theorem ordered_expire (h : w.Ordered) : (w.expire deadline now).Ordered := by
  unfold Window.Ordered Window.expire at *
  simp only
  split_ifs
  · exact le_rfl
  · exact h

/-- Asking keeps a window in order. -/
theorem ordered_ask (h : w.Ordered) : (w.ask slots batch deadline now).2.Ordered := by
  have hexpire : (w.expire deadline now).Ordered := ordered_expire h
  unfold Window.Ordered Window.ask at *
  simp only
  split_ifs
  · exact hexpire
  · exact hexpire
  · simp only
    omega

/-! ## Getting stuck -/

/-- Something is missing, everything has been asked for, and no request is in flight. -/
def Window.Stuck (w : Window) : Prop :=
  w.fetched < w.length ∧ w.length ≤ w.requested ∧ w.outstanding = []

theorem expire_of_nil (h : w.outstanding = []) : w.expire deadline now = w := by
  unfold Window.expire
  rw [h]
  simp

/-- **A stuck window never asks again.** -/
theorem ask_of_stuck (h : w.Stuck) : w.ask slots batch deadline now = (none, w) := by
  obtain ⟨-, hrequested, hnil⟩ := h
  unfold Window.ask
  simp only [expire_of_nil hnil]
  split_ifs <;> rfl

/-- Once every deadline has passed the window starts over from the fetch cursor. -/
theorem expire_of_passed (hne : w.outstanding ≠ []) (hpassed : ∀ at_ ∈ w.outstanding, at_ + deadline ≤ now) :
    w.expire deadline now = { w with outstanding := [], requested := w.fetched } := by
  have hnil : w.outstanding.dropWhile (fun at_ => decide (at_ + deadline ≤ now)) = [] := by
    rw [List.dropWhile_eq_nil_iff]
    intro at_ hat
    exact decide_eq_true (hpassed at_ hat)
  unfold Window.expire
  simp only [hnil, List.length_nil]
  rw [if_pos (List.length_pos_iff.2 hne)]

/-- The clock at which every request in flight has passed its deadline. -/
theorem exists_passed (w : Window) (now deadline : ℕ) :
    ∃ t, now ≤ t ∧ ∀ at_ ∈ w.outstanding, at_ + deadline ≤ t := by
  refine ⟨now + w.outstanding.sum + deadline, by omega, fun at_ hat => ?_⟩
  have hle := List.single_le_sum (l := w.outstanding) (fun _ _ => Nat.zero_le _) at_ hat
  omega

/-- The window, asked at `calls` and then at `t`, asks for a range that starts at or below the
fetch cursor; all clocks are `now` or later, and not going back. -/
def Window.AsksAt (slots batch deadline : ℕ) (w : Window) (now : ℕ) (calls : List ℕ) (t : ℕ) : Prop :=
  (now :: (calls ++ [t])).Pairwise (· ≤ ·) ∧ ∃ start count,
    ((calls.foldl (fun w now => (w.ask slots batch deadline now).2) w).ask slots batch deadline t).1 =
      some (start, count) ∧ start ≤ w.fetched

variable (slots batch deadline now) in
/-- A window with a request in flight asks for what is missing once the deadlines have passed. -/
theorem asksAt_of_outstanding (hslots : 0 < slots) (hne : w.outstanding ≠ []) (hlt : w.fetched < w.length) :
    ∃ t, w.AsksAt slots batch deadline now [] t := by
  obtain ⟨t, hnow, hpassed⟩ := exists_passed w now deadline
  refine ⟨t, by simpa using hnow, w.fetched, min batch (w.length - w.fetched), ?_, le_rfl⟩
  simp only [List.foldl_nil]
  unfold Window.ask
  simp only [expire_of_passed hne hpassed, List.length_nil]
  rw [if_neg (by omega), if_neg (by omega)]

variable (slots batch deadline now) in
/-- **A window that is not stuck asks for what is missing**, at the next call, after the deadline,
or at the call after that. -/
theorem asks_of_not_stuck (hslots : 0 < slots) (hlt : w.fetched < w.length) (hnot : ¬ w.Stuck) :
    ∃ calls t, calls.length ≤ 1 ∧ w.AsksAt slots batch deadline now calls t := by
  by_cases hnil : w.outstanding = []
  · have hrequested : w.requested < w.length := by
      by_contra hge
      exact hnot ⟨hlt, by omega, hnil⟩
    by_cases hle : w.requested ≤ w.fetched
    · refine ⟨[], now, by simp, by simp, w.requested, min batch (w.length - w.requested), ?_, hle⟩
      simp only [List.foldl_nil]
      unfold Window.ask
      simp only [expire_of_nil hnil, hnil, List.length_nil]
      rw [if_neg (by omega), if_neg (by omega)]
    · -- the request cursor is ahead: the next call puts a request in flight
      have hask : (w.ask slots batch deadline now).2.outstanding ≠ [] := by
        unfold Window.ask
        simp only [expire_of_nil hnil, hnil, List.length_nil]
        rw [if_neg (by omega), if_neg (by omega)]
        simp
      obtain ⟨t, hsorted, start, count, heq, hstart⟩ :=
        asksAt_of_outstanding slots batch deadline now hslots hask (by simpa using hlt)
      refine ⟨[now], t, by simp, by simpa using hsorted, start, count, heq, by simpa using hstart⟩
  · obtain ⟨t, hasks⟩ := asksAt_of_outstanding slots batch deadline now hslots hnil hlt
    exact ⟨[], t, by simp, hasks⟩

/-- A stuck window is left as it is by any number of calls. -/
theorem stuck_foldl_ask (h : w.Stuck) (calls : List ℕ) :
    calls.foldl (fun w now => (w.ask slots batch deadline now).2) w = w := by
  induction calls with
  | nil => rfl
  | cons now calls ih => rw [List.foldl_cons, ask_of_stuck h]; exact ih

/-- A stuck window never asks again. -/
theorem not_asksAt_of_stuck (h : w.Stuck) (now : ℕ) (calls : List ℕ) (t : ℕ) :
    ¬ w.AsksAt slots batch deadline now calls t := by
  rintro ⟨-, start, count, hask, -⟩
  rw [stuck_foldl_ask h, ask_of_stuck h] at hask
  simp at hask

/-- Asking does not get a window stuck. -/
theorem not_stuck_ask (h : ¬ w.Stuck) : ¬ (w.ask slots batch deadline now).2.Stuck := by
  have hexpire : ¬ (w.expire deadline now).Stuck := by
    rintro ⟨hlt, hle, hnil⟩
    unfold Window.expire at hlt hle hnil
    simp only at hlt hle hnil
    split_ifs at hlt hle hnil with hshort
    · simp only at hlt hle
      omega
    · exact h ⟨hlt, hle, hnil⟩
  unfold Window.ask
  simp only
  split_ifs
  · exact hexpire
  · exact hexpire
  · rintro ⟨-, -, hnil⟩
    simp at hnil

/-- A reply that starts past the fetch cursor and releases the last request, when everything has
been asked for and something is missing. -/
def Window.Strands (w : Window) (from_ : ℕ) : Prop :=
  w.fetched < w.length ∧ w.length ≤ w.requested ∧ w.outstanding.length ≤ 1 ∧ w.fetched < from_

/-- **Only such a reply gets a window stuck.** -/
theorem stuck_deliver_iff : (w.deliver from_ n).Stuck ↔ w.Strands from_ := by
  unfold Window.Strands Window.deliver
  by_cases hfrom : from_ ≤ w.fetched
  · rw [if_pos hfrom]
    constructor
    · rintro ⟨hlt, hle, -⟩
      simp only at hlt hle
      omega
    · rintro ⟨-, -, -, hlt⟩
      omega
  · rw [if_neg hfrom]
    unfold Window.Stuck
    simp only [List.drop_eq_nil_iff]
    constructor
    · rintro ⟨hlt, hle, hlen⟩
      exact ⟨hlt, hle, hlen, by omega⟩
    · rintro ⟨hlt, hle, hlen, -⟩
      exact ⟨hlt, hle, hlen⟩

end Pull
