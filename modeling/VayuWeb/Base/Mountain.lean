import Mathlib.Algebra.Order.Ring.Nat
import Mathlib.Data.List.Basic

/-!
# Mountain ranges

The complete binary subtrees over a row of leaves, left to right and highest first. There is one
such decomposition of a row (`Peaks.decompose`), and the stack that
appending leaves with carries builds is the same one turned round (`Stack.decompose_eq`).

* `decompose`: the decomposition from the highest bit down.
* `Peaks`: a decomposition read left to right; `Stack`: read from the last leaf back.
* `carry`: a subtree pushed on a stack, with carries.
-/

namespace Mountain

/-- A complete subtree: its first leaf and its height. -/
structure Range where
  start : ℕ
  height : ℕ
  deriving DecidableEq, Repr

/-- The number of leaves under it. -/
def Range.span (r : Range) : ℕ := 2 ^ r.height

/-- The first position behind a range. -/
def Range.stop (r : Range) : ℕ := r.start + r.span

/-- The subtrees of height below `bit` over `remaining` leaves from `start` on, highest first. -/
def decompose : ℕ → ℕ → ℕ → List Range
  | 0, _, _ => []
  | bit + 1, start, remaining =>
    if remaining ≥ 2 ^ bit then ⟨start, bit⟩ :: decompose bit (start + 2 ^ bit) (remaining - 2 ^ bit)
    else decompose bit start remaining

/-! ## Left to right -/

/-- Subtrees of falling heights below `bit` that cover the leaves from `start` up to `stop`. -/
inductive Peaks : ℕ → ℕ → ℕ → List Range → Prop
  | nil (bit stop : ℕ) : Peaks bit stop stop []
  | cons {bit height start stop : ℕ} {rs : List Range} (h : height < bit)
      (rest : Peaks height (start + 2 ^ height) stop rs) : Peaks bit start stop (⟨start, height⟩ :: rs)

namespace Peaks

variable {bit bit' start stop : ℕ} {rs : List Range}

/-- Peaks end no earlier than they start. -/
theorem start_le (h : Peaks bit start stop rs) : start ≤ stop := by
  induction h with
  | nil => exact Nat.le_refl _
  | @cons _ height _ _ _ _ _ ih => exact Nat.le_trans (Nat.le_add_right _ (2 ^ height)) ih

/-- Falling powers of two below `2 ^ bit` do not add up to it. -/
theorem stop_lt (h : Peaks bit start stop rs) : stop < start + 2 ^ bit := by
  induction h with
  | nil bit stop =>
    have := Nat.two_pow_pos bit
    omega
  | @cons bit height start stop rs hlt rest ih =>
    have hpow : 2 ^ (height + 1) ≤ 2 ^ bit := Nat.pow_le_pow_right (by decide) hlt
    have hdouble : 2 ^ (height + 1) = 2 ^ height + 2 ^ height := by rw [Nat.pow_succ]; omega
    omega

theorem mono (h : Peaks bit start stop rs) (hle : bit ≤ bit') : Peaks bit' start stop rs := by
  cases h with
  | nil => exact .nil _ _
  | cons hlt rest => exact .cons (Nat.lt_of_lt_of_le hlt hle) rest

/-- The leaves bound the heights. -/
theorem of_lt (h : Peaks bit start stop rs) (hlt : stop < start + 2 ^ bit') : Peaks bit' start stop rs := by
  cases h with
  | nil => exact .nil _ _
  | @cons bit height _ _ rs _ rest =>
    refine .cons ?_ rest
    have hle := rest.start_le
    by_contra hge
    have hpow : 2 ^ bit' ≤ 2 ^ height := Nat.pow_le_pow_right (by decide) (Nat.le_of_not_lt hge)
    omega

/-- **The decomposition is unique**: it is the one taken from the highest bit down. -/
theorem decompose_eq (h : Peaks bit start stop rs) : decompose bit start (stop - start) = rs := by
  induction bit generalizing start rs with
  | zero =>
    cases h with
    | nil => rfl
    | cons hlt => exact absurd hlt (Nat.not_lt_zero _)
  | succ bit ih =>
    have hle := h.start_le
    unfold decompose
    by_cases htake : stop - start ≥ 2 ^ bit
    · rw [if_pos htake]
      cases h with
      | nil =>
        have := Nat.two_pow_pos bit
        omega
      | @cons _ height _ _ rs hlt rest =>
        -- the first subtree is the one of height `bit`, or they all stay below it
        have hheight : height = bit := by
          by_contra hne
          have hstop := (Peaks.cons (Nat.lt_of_le_of_ne (Nat.le_of_lt_succ hlt) hne) rest).stop_lt
          omega
        subst hheight
        have hsub : stop - start - 2 ^ height = stop - (start + 2 ^ height) := by omega
        rw [hsub, ih rest]
    · rw [if_neg htake]
      exact ih (h.of_lt (by omega))

/-- The decomposition of a range is peaks over it. -/
theorem decompose (bit start remaining : ℕ) (h : remaining < 2 ^ bit) :
    Peaks bit start (start + remaining) (decompose bit start remaining) := by
  induction bit generalizing start remaining with
  | zero =>
    have hzero : remaining = 0 := by
      rw [Nat.pow_zero] at h
      omega
    subst hzero
    exact .nil _ _
  | succ bit ih =>
    rw [Nat.pow_succ] at h
    unfold Mountain.decompose
    by_cases htake : remaining ≥ 2 ^ bit
    · rw [if_pos htake]
      have hrest := ih (start + 2 ^ bit) (remaining - 2 ^ bit) (by omega)
      have hstop : start + 2 ^ bit + (remaining - 2 ^ bit) = start + remaining := by omega
      rw [hstop] at hrest
      exact .cons (Nat.lt_succ_self _) hrest
    · rw [if_neg htake]
      exact (ih start remaining (by omega)).mono (Nat.le_succ _)

/-- Every subtree lies inside the row. -/
theorem bounds (h : Peaks bit start stop rs) : ∀ r ∈ rs, start ≤ r.start ∧ r.stop ≤ stop := by
  induction h with
  | nil => simp
  | @cons bit height start stop rs _ rest ih =>
    intro r hr
    rcases List.mem_cons.1 hr with rfl | hr
    · exact ⟨Nat.le_refl _, rest.start_le⟩
    · obtain ⟨hstart, hstop⟩ := ih r hr
      exact ⟨Nat.le_trans (Nat.le_add_right _ (2 ^ height)) hstart, hstop⟩

/-- Every leaf lies under one of them. -/
theorem covers (h : Peaks bit start stop rs) {leaf : ℕ} (hfrom : start ≤ leaf) (hto : leaf < stop) :
    ∃ r ∈ rs, r.start ≤ leaf ∧ leaf < r.stop := by
  induction h with
  | nil => omega
  | @cons bit height start stop rs _ rest ih =>
    by_cases hin : leaf < start + 2 ^ height
    · exact ⟨_, List.mem_cons_self, hfrom, hin⟩
    · obtain ⟨r, hr, hleaf⟩ := ih (by omega) hto
      exact ⟨r, List.mem_cons_of_mem _ hr, hleaf⟩

end Peaks

/-! ## From the last leaf back -/

/-- Subtrees of rising heights from `height` on that cover the leaves below `stop`, the last one
first. -/
inductive Stack : ℕ → ℕ → List Range → Prop
  | nil (height : ℕ) : Stack height 0 []
  | cons {height height' start : ℕ} {rs : List Range} (h : height ≤ height')
      (rest : Stack (height' + 1) start rs) : Stack height (start + 2 ^ height') (⟨start, height'⟩ :: rs)

namespace Stack

variable {height stop : ℕ} {rs : List Range}

/-- Turned round, a stack is the decomposition of its leaves, in front of one of the leaves
after them. -/
theorem peaks_append (h : Stack height stop rs) {stop' : ℕ} {qs : List Range}
    (hqs : Peaks height stop stop' qs) : ∃ bit, Peaks bit 0 stop' (rs.reverse ++ qs) := by
  induction h generalizing qs with
  | nil height => exact ⟨height, hqs⟩
  | @cons height height' start rs hle rest ih =>
    have hfront : Peaks (height' + 1) start stop' (⟨start, height'⟩ :: qs) :=
      .cons (Nat.lt_succ_self _) (hqs.mono hle)
    obtain ⟨bit, hbit⟩ := ih hfront
    refine ⟨bit, ?_⟩
    rw [List.reverse_cons, List.append_assoc]
    exact hbit

/-- A stack is peaks, read from its other end. -/
theorem peaks (h : Stack height stop rs) : ∃ bit, Peaks bit 0 stop rs.reverse := by
  obtain ⟨bit, hbit⟩ := h.peaks_append (Peaks.nil height stop)
  rw [List.append_nil] at hbit
  exact ⟨bit, hbit⟩

/-- The decomposition from any high enough bit down is the stack turned round. -/
theorem decompose_eq (h : Stack height stop rs) {bit : ℕ} (hbit : stop < 2 ^ bit) :
    decompose bit 0 stop = rs.reverse := by
  obtain ⟨bit', hpeaks⟩ := h.peaks
  have hpeaks' : Peaks bit 0 stop rs.reverse := hpeaks.of_lt (by omega)
  exact hpeaks'.decompose_eq

/-- A stack whose first subtree is higher than `height` starts above it. -/
theorem succ (h : Stack height stop rs) (hne : ∀ r ∈ rs.head?, r.height ≠ height) :
    Stack (height + 1) stop rs := by
  cases h with
  | nil => exact .nil _
  | @cons _ height' start rs hle rest =>
    have hne' : height' ≠ height := hne ⟨start, height'⟩ rfl
    exact .cons (by omega) rest

theorem mono (h : Stack (height + 1) stop rs) : Stack height stop rs := by
  cases h with
  | nil => exact .nil _
  | cons hle rest => exact .cons (Nat.le_of_succ_le hle) rest

end Stack

/-! ## Carries -/

/-- The stack after a subtree is pushed on it, with carries: two neighbours of one height become
one subtree. -/
def carry (start height : ℕ) : List Range → List Range
  | [] => [⟨start, height⟩]
  | r :: rs => if r.height = height then carry r.start (height + 1) rs else ⟨start, height⟩ :: r :: rs

namespace Stack

variable {height stop : ℕ} {rs : List Range}

/-- A subtree of height `height` over the next leaves, pushed with carries. -/
theorem carry (h : Stack height stop rs) : Stack height (stop + 2 ^ height) (carry stop height rs) := by
  induction rs generalizing height stop with
  | nil => exact .cons (Nat.le_refl _) (h.succ (by simp))
  | cons r rs ih =>
    cases h with
    | @cons _ height' start _ hle rest =>
      unfold Mountain.carry
      by_cases heq : height' = height
      · rw [if_pos heq]
        subst heq
        have hnext := (ih rest).mono
        have hdouble : start + 2 ^ height' + 2 ^ height' = start + 2 ^ (height' + 1) := by
          rw [Nat.pow_succ]
          omega
        rw [hdouble]
        exact hnext
      · rw [if_neg heq]
        exact .cons (Nat.le_refl _) (.cons (by omega) rest)

/-- Every row has a stack. -/
theorem exists_stack (stop : ℕ) : ∃ rs, Stack 0 stop rs := by
  induction stop with
  | zero => exact ⟨[], .nil _⟩
  | succ stop ih =>
    obtain ⟨rs, hrs⟩ := ih
    exact ⟨_, hrs.carry⟩

/-- What holds of every subtree after a carry, and passes to halves, held before it. -/
theorem of_carry {P : Range → Prop} (h : Stack height stop rs)
    (hsplit : ∀ start height, P ⟨start, height + 1⟩ → P ⟨start, height⟩ ∧ P ⟨start + 2 ^ height, height⟩)
    (hall : ∀ r ∈ Mountain.carry stop height rs, P r) : P ⟨stop, height⟩ ∧ ∀ r ∈ rs, P r := by
  induction rs generalizing height stop with
  | nil => exact ⟨hall _ List.mem_cons_self, by simp⟩
  | cons r rs ih =>
    cases h with
    | @cons _ height' start _ hle rest =>
      unfold Mountain.carry at hall
      by_cases heq : height' = height
      · rw [if_pos heq] at hall
        subst heq
        obtain ⟨hjoined, hrest⟩ := ih rest hall
        obtain ⟨hleft, hright⟩ := hsplit _ _ hjoined
        exact ⟨hright, List.forall_mem_cons.2 ⟨hleft, hrest⟩⟩
      · rw [if_neg heq] at hall
        exact ⟨hall _ List.mem_cons_self, fun r hr => hall r (List.mem_cons_of_mem _ hr)⟩

end Stack

end Mountain
