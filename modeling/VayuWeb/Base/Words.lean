import Mathlib.Algebra.Order.Ring.Nat
import Mathlib.Data.List.Infix
import Mathlib.InformationTheory.Coding.UniquelyDecodable

/-!
# Words

Lists as words: how a lexicographic order sees them, and when a concatenation can be read back.

* `Apart`: neither of two words begins the other. What follows two such words does not change
  their order (`Apart.append_lt_append_iff`).
* `Apart.of_length`, `Apart.of_separator`: words of one width, and words that end in a separator,
  are apart unless they are equal.
* `SuffixFree.uniquelyDecodable`: a code none of whose words ends another is read back from the
  end.
-/

namespace Words

variable {α : Type} {a b u v x y : List α} {sep : α}

/-! ## Words that are apart -/

/-- Neither word begins the other. -/
def Apart (a b : List α) : Prop := ¬ a <+: b ∧ ¬ b <+: a

theorem Apart.symm (h : Apart a b) : Apart b a := ⟨h.2, h.1⟩

theorem Apart.cons {c : α} (h : Apart (c :: a) (c :: b)) : Apart a b := by
  obtain ⟨hab, hba⟩ := h
  rw [List.cons_prefix_cons] at hab hba
  exact ⟨fun hp => hab ⟨rfl, hp⟩, fun hp => hba ⟨rfl, hp⟩⟩

/-- Words that are apart are apart behind one prefix. -/
theorem Apart.append_left (h : Apart a b) (p : List α) : Apart (p ++ a) (p ++ b) := by
  obtain ⟨hab, hba⟩ := h
  exact ⟨fun hp => hab ((List.prefix_append_right_inj p).1 hp), fun hp => hba ((List.prefix_append_right_inj p).1 hp)⟩

theorem Apart.of_head {c d : α} (h : c ≠ d) (a b : List α) : Apart (c :: a) (d :: b) := by
  constructor
  · intro hp
    exact h (List.cons_prefix_cons.1 hp).1
  · intro hp
    exact h (List.cons_prefix_cons.1 hp).1.symm

/-- Words of one width. -/
theorem Apart.of_length (hlen : a.length = b.length) (hne : a ≠ b) : Apart a b :=
  ⟨fun hp => hne (hp.eq_of_length hlen), fun hp => hne (hp.eq_of_length hlen.symm).symm⟩

/-- Behind a separator no word is a prefix of another. -/
theorem separated_heads_eq (ha : sep ∉ a) (hb : sep ∉ b) (h : a ++ [sep] <+: b ++ [sep]) : a = b := by
  induction a generalizing b with
  | nil =>
    cases b with
    | nil => rfl
    | cons d b =>
      rw [List.nil_append, List.cons_append, List.cons_prefix_cons] at h
      exact absurd List.mem_cons_self (h.1 ▸ hb)
  | cons c a ih =>
    rw [List.mem_cons, not_or] at ha
    cases b with
    | nil =>
      rw [List.cons_append, List.nil_append, List.cons_prefix_cons] at h
      exact absurd h.1.symm ha.1
    | cons d b =>
      rw [List.mem_cons, not_or] at hb
      rw [List.cons_append, List.cons_append, List.cons_prefix_cons] at h
      rw [h.1, ih ha.2 hb.2 h.2]

/-- Words that end in a separator, and hold it nowhere else. -/
theorem Apart.of_separator (ha : sep ∉ a) (hb : sep ∉ b) (hne : a ≠ b) : Apart (a ++ [sep]) (b ++ [sep]) :=
  ⟨fun hp => hne (separated_heads_eq ha hb hp), fun hp => hne (separated_heads_eq hb ha hp).symm⟩

section Order

variable [LT α]

/-- **What follows two words that are apart does not change their order.** -/
theorem Apart.append_lt_append_iff (h : Apart a b) : a ++ x < b ++ y ↔ a < b := by
  induction a generalizing b with
  | nil => exact absurd (List.nil_prefix) h.1
  | cons c a ih =>
    cases b with
    | nil => exact absurd (List.nil_prefix) h.2
    | cons d b =>
      simp only [List.cons_append, List.cons_lt_cons_iff]
      by_cases hcd : c = d
      · subst hcd
        rw [ih h.cons]
      · simp only [hcd, false_and]

/-- A common prefix does not change the order. -/
theorem append_lt_append_left_iff [Std.Irrefl (· < · : α → α → Prop)] (p : List α) : p ++ x < p ++ y ↔ x < y := by
  induction p with
  | nil => rfl
  | cons c p ih => rw [List.cons_append, List.cons_append, List.cons_lt_cons_self, ih]

/-- Words that begin in another way are on one side of every word that begins with `a`. -/
theorem Apart.not_between (h : Apart a b) : ¬ (¬ b ++ y < a ++ u ∧ b ++ y < a ++ v) := by
  rw [h.symm.append_lt_append_iff, h.symm.append_lt_append_iff]
  exact fun hbetween => hbetween.1 hbetween.2

theorem not_append_lt_self [Std.Irrefl (· < · : α → α → Prop)] (a x : List α) : ¬ a ++ x < a := by
  intro h
  rw [← List.append_nil a, List.append_assoc, append_lt_append_left_iff, List.nil_append] at h
  exact List.not_lt_nil x h

end Order

/-! ## Reading back from the end -/

/-- No word of the code ends another, and none is empty. -/
structure SuffixFree (S : Set (List α)) : Prop where
  nonempty : ∀ w ∈ S, w ≠ []
  suffix_eq : ∀ u ∈ S, ∀ v ∈ S, u <:+ v → u = v

/-- **A suffix-free code is uniquely decodable**: the last word of a concatenation is known, and so
on backwards. -/
theorem SuffixFree.uniquelyDecodable {S : Set (List α)} (h : SuffixFree S) :
    InformationTheory.UniquelyDecodable S := by
  intro xs
  induction xs using List.reverseRecOn with
  | nil =>
    intro ys _ hys heq
    cases ys with
    | nil => rfl
    | cons y ys =>
      rw [List.flatten_nil, List.flatten_cons] at heq
      exact absurd (List.append_eq_nil_iff.1 heq.symm).1 (h.nonempty y (hys y List.mem_cons_self))
  | append_singleton xs x ih =>
    intro ys hxs hys heq
    have hx : x ∈ S := hxs x (List.mem_append_right _ List.mem_cons_self)
    rcases List.eq_nil_or_concat' ys with rfl | ⟨ys, y, rfl⟩
    · rw [List.flatten_nil, List.flatten_append, List.flatten_singleton] at heq
      exact absurd (List.append_eq_nil_iff.1 heq).2 (h.nonempty x hx)
    · have hy : y ∈ S := hys y (List.mem_append_right _ List.mem_cons_self)
      simp only [List.flatten_append, List.flatten_singleton] at heq
      -- both last words end one word, so one ends the other
      have hxend : x <:+ xs.flatten ++ x := List.suffix_append _ _
      have hyend : y <:+ xs.flatten ++ x := heq ▸ List.suffix_append _ _
      have hxy : x = y := by
        rcases List.suffix_or_suffix_of_suffix hxend hyend with hs | hs
        · exact h.suffix_eq x hx y hy hs
        · exact (h.suffix_eq y hy x hx hs).symm
      subst hxy
      have hrest := List.append_cancel_right heq
      rw [ih ys (fun w hw => hxs w (List.mem_append_left _ hw)) (fun w hw => hys w (List.mem_append_left _ hw)) hrest]

/-- What stands before the last separator and what stands after it. -/
theorem append_separator_inj (hu : sep ∉ u) (hv : sep ∉ v) (h : a ++ sep :: u = b ++ sep :: v) : a = b ∧ u = v := by
  induction a generalizing b with
  | nil =>
    cases b with
    | nil =>
      rw [List.nil_append, List.nil_append, List.cons.injEq] at h
      exact ⟨rfl, h.2⟩
    | cons d b =>
      rw [List.nil_append, List.cons_append, List.cons.injEq] at h
      exact absurd (h.2 ▸ List.mem_append_right b List.mem_cons_self) hu
  | cons c a ih =>
    cases b with
    | nil =>
      rw [List.nil_append, List.cons_append, List.cons.injEq] at h
      exact absurd (h.2 ▸ List.mem_append_right a List.mem_cons_self) hv
    | cons d b =>
      rw [List.cons_append, List.cons_append, List.cons.injEq] at h
      obtain ⟨rfl, rfl⟩ := ih h.2
      exact ⟨by rw [h.1], rfl⟩

/-- The last separator, found from the other end. -/
theorem takeWhile_reverse [DecidableEq α] (a : List α) (hu : sep ∉ u) :
    (a ++ sep :: u).reverse.takeWhile (· ≠ sep) = u.reverse ∧
      (a ++ sep :: u).reverse.dropWhile (· ≠ sep) = sep :: a.reverse := by
  have hword : (a ++ sep :: u).reverse = u.reverse ++ sep :: a.reverse := by simp
  have hpos : ∀ c ∈ u.reverse, decide (c ≠ sep) = true := by
    intro c hc
    apply decide_eq_true
    rintro rfl
    exact hu (List.mem_reverse.1 hc)
  rw [hword, List.takeWhile_append_of_pos hpos, List.dropWhile_append_of_pos hpos]
  simp

end Words
