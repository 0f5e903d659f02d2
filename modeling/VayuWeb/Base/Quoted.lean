import Mathlib.Data.List.Infix
import Mathlib.Data.Nat.Notation

/-!
# Fields between quotation marks

The marks cut a text into pieces, every second one quoted. A field is looked for as its name between marks,
a separator, and a value that the next mark closes. `field_eq` says it over the pieces: what is found is the
piece behind the first name and separator. More text behind does not change what was found (`fieldIn_extend`).
-/

namespace Quoted

variable {α : Type} [DecidableEq α]

/-- What follows the first place where the needle stands. -/
def after (needle : List α) : List α → Option (List α)
  | [] => if needle.isEmpty then some [] else none
  | x :: xs => if needle.isPrefixOf (x :: xs) then some ((x :: xs).drop needle.length) else after needle xs

/-- What stands before the first mark. -/
def upTo (mark : α) : List α → Option (List α)
  | [] => none
  | x :: xs => if x = mark then some [] else (upTo mark xs).map (x :: ·)

/-- The pieces that a mark closes. -/
def closed (mark : α) (xs : List α) : List (List α) := (xs.splitOn mark).dropLast

/-- The piece behind a name and a separator, of pieces that stand one behind the other. -/
def fieldIn (name sep : List α) : List (List α) → Option (List α)
  | p :: m :: v :: rest => if p = name ∧ m = sep then some v else fieldIn name sep (m :: v :: rest)
  | _ => none

variable {mark : α} {xs ys p name sep : List α}

/-! ## Pieces -/

theorem closed_of_notMem (h : mark ∉ xs) : closed mark xs = [] := by
  rw [closed, List.splitOn_eq_singleton h, List.dropLast_singleton]

/-- The first closed part, and those behind its mark. -/
theorem closed_append_cons (h : mark ∉ p) (rest : List α) :
    closed mark (p ++ mark :: rest) = p :: closed mark rest := by
  rw [closed, List.splitOn_append_cons_self_of_not_mem h, List.dropLast_cons_of_ne_nil (List.splitOn_ne_nil _ _),
    closed]

/-- Where the first closed part comes from. -/
theorem closed_eq_cons {c : List (List α)} (h : closed mark xs = p :: c) :
    ∃ rest, xs = p ++ mark :: rest ∧ closed mark rest = c := by
  by_cases hmark : mark ∈ xs
  · obtain ⟨p', rest, rfl, hp⟩ := List.eq_append_cons_of_mem hmark
    rw [closed_append_cons hp, List.cons.injEq] at h
    exact ⟨rest, by rw [h.1], h.2⟩
  · rw [closed_of_notMem hmark] at h
    cases h

/-- More text closes more pieces. -/
theorem closed_prefix (h : xs <+: ys) : closed mark xs <+: closed mark ys := by
  generalize hn : xs.length = n
  induction n using Nat.strongRecOn generalizing xs ys with
  | ind n ih =>
    by_cases hmark : mark ∈ xs
    · obtain ⟨p, rest, rfl, hp⟩ := List.eq_append_cons_of_mem hmark
      obtain ⟨more, rfl⟩ := h
      rw [List.length_append, List.length_cons] at hn
      have hrest := ih rest.length (by omega) (List.prefix_append rest more) rfl
      rw [List.append_assoc, List.cons_append, closed_append_cons hp, closed_append_cons hp, List.cons_prefix_cons]
      exact ⟨rfl, hrest⟩
    · rw [closed_of_notMem hmark]
      exact List.nil_prefix

theorem upTo_eq (xs : List α) : upTo mark xs = (closed mark xs).head? := by
  induction xs with
  | nil => rw [upTo, closed_of_notMem List.not_mem_nil, List.head?_nil]
  | cons x xs ih =>
    rw [upTo]
    by_cases hx : x = mark
    · have hfirst := closed_append_cons (List.not_mem_nil : mark ∉ ([] : List α)) xs
      rw [if_pos hx, hx, ← List.nil_append (mark :: xs), hfirst, List.head?_cons]
    · rw [if_neg hx, ih]
      by_cases hmark : mark ∈ xs
      · obtain ⟨p, rest, rfl, hp⟩ := List.eq_append_cons_of_mem hmark
        have hxp : mark ∉ x :: p := by
          rw [List.mem_cons, not_or]
          exact ⟨fun heq => hx heq.symm, hp⟩
        rw [closed_append_cons hp, ← List.cons_append, closed_append_cons hxp, List.head?_cons, List.head?_cons,
          Option.map_some]
      · have hxxs : mark ∉ x :: xs := by
          rw [List.mem_cons, not_or]
          exact ⟨fun heq => hx heq.symm, hmark⟩
        rw [closed_of_notMem hmark, closed_of_notMem hxxs, List.head?_nil, Option.map_none]

/-! ## Fields -/

/-- **More pieces do not change what was found.** -/
theorem fieldIn_extend {c d : List (List α)} {v : List α} (hpre : c <+: d) (h : fieldIn name sep c = some v) :
    fieldIn name sep d = some v := by
  induction c generalizing d with
  | nil => cases h
  | cons p c ih =>
    match c with
    | [] => cases h
    | [_] => cases h
    | m :: w :: rest =>
      obtain ⟨more, rfl⟩ := hpre
      rw [List.cons_append, List.cons_append, List.cons_append, fieldIn]
      rw [fieldIn] at h
      by_cases hname : p = name ∧ m = sep
      · rw [if_pos hname] at h ⊢
        exact h
      · rw [if_neg hname] at h ⊢
        exact ih (List.prefix_append (m :: w :: rest) more) h

/-- The name between marks, the separator and the mark that opens the value. -/
def needleOf (mark : α) (name sep : List α) : List α := mark :: (name ++ mark :: (sep ++ [mark]))

theorem after_append (hp : mark ∉ p) (rest : List α) :
    after (needleOf mark name sep) (p ++ rest) = after (needleOf mark name sep) rest := by
  induction p with
  | nil => rfl
  | cons x p ih =>
    rw [List.mem_cons, not_or] at hp
    have hnot : ¬ (needleOf mark name sep).isPrefixOf (x :: (p ++ rest)) = true := by
      rw [List.isPrefixOf_iff_prefix, needleOf, List.cons_prefix_cons]
      exact fun h => hp.1 h.1
    rw [List.cons_append, after, if_neg hnot]
    exact ih hp.2

/-- Without a mark no needle is found. -/
theorem after_of_notMem (h : mark ∉ xs) : after (needleOf mark name sep) xs = none := by
  have hskip : after (needleOf mark name sep) (xs ++ []) = after (needleOf mark name sep) [] := after_append h []
  rw [List.append_nil] at hskip
  rw [hskip]
  rfl

/-- **A field is the piece behind the first such name and separator.** -/
theorem field_eq (hname : mark ∉ name) (hsep : mark ∉ sep) (xs : List α) :
    (after (needleOf mark name sep) xs).bind (upTo mark) = fieldIn name sep (closed mark xs).tail := by
  generalize hn : xs.length = n
  induction n using Nat.strongRecOn generalizing xs with
  | ind n ih =>
    by_cases hmark : mark ∈ xs
    swap
    · rw [after_of_notMem hmark, closed_of_notMem hmark]
      rfl
    obtain ⟨p, rest, rfl, hp⟩ := List.eq_append_cons_of_mem hmark
    rw [List.length_append, List.length_cons] at hn
    have hrest := ih rest.length (by omega) rest rfl
    rw [after_append hp, closed_append_cons hp, List.tail_cons, after]
    by_cases hneedle : (needleOf mark name sep).isPrefixOf (mark :: rest) = true
    · -- the field starts at this mark
      rw [if_pos hneedle]
      obtain ⟨value, hvalue⟩ := List.isPrefixOf_iff_prefix.1 hneedle
      rw [← hvalue, List.drop_left, Option.bind_some, upTo_eq]
      rw [needleOf, List.cons_append, List.cons.injEq] at hvalue
      have hpieces : closed mark rest = name :: sep :: closed mark value := by
        rw [← hvalue.2, List.append_assoc, List.cons_append, closed_append_cons hname, List.append_assoc,
          List.singleton_append, closed_append_cons hsep]
      rw [hpieces]
      cases closed mark value with
      | nil => rfl
      | cons v more => rw [fieldIn, if_pos ⟨rfl, rfl⟩, List.head?_cons]
    -- not here: the search goes on behind the mark, and so does the reading of the pieces
    · rw [if_neg hneedle, hrest]
      match hpieces : closed mark rest with
      | [] => rfl
      | [_] => rfl
      | [_, _] => rfl
      | first :: second :: v :: more =>
        rw [List.tail_cons, fieldIn]
        have hnot : ¬ (first = name ∧ second = sep) := by
          rintro ⟨rfl, rfl⟩
          obtain ⟨behind, hbehind, hmore⟩ := closed_eq_cons hpieces
          obtain ⟨value, rfl, -⟩ := closed_eq_cons hmore
          rw [List.isPrefixOf_iff_prefix, needleOf, hbehind] at hneedle
          exact hneedle ⟨value, by simp⟩
        rw [if_neg hnot]

end Quoted
