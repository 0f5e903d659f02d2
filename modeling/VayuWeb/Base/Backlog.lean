import Mathlib.Data.List.Nodup

/-!
# A bounded backlog

A queue of at most `limit` elements, one for each key: a new element of a key that is queued is left out, and one
that finds the queue full takes the place of the oldest.

* `Ok.push`: the queue stays bounded and free of duplicates.
* `leaves_push`: what leaves it on the arrival of another.
-/

namespace Backlog

variable {α κ : Type} (key : α → κ) (limit : ℕ)

/-- Of each key one element, and no more than the limit. -/
structure Ok (queue : List α) : Prop where
  distinct : (queue.map key).Nodup
  bounded : queue.length ≤ limit

variable {key limit} {queue : List α} {x y : α}

theorem ok_nil : Ok key limit [] := ⟨List.nodup_nil, Nat.zero_le _⟩

/-- A new item keeps the backlog in order while there is room. -/
theorem Ok.concat (h : Ok key limit queue) (hx : key x ∉ queue.map key) (hlt : queue.length < limit) :
    Ok key limit (queue ++ [x]) := by
  constructor
  case distinct =>
    rw [List.map_append, List.map_singleton, List.nodup_append]
    refine ⟨h.distinct, List.nodup_singleton _, ?_⟩
    intro k hk k' hk' heq
    rw [List.mem_singleton] at hk'
    rw [heq, hk'] at hk
    exact hx hk
  case bounded =>
    rw [List.length_append, List.length_singleton]
    exact hlt

theorem Ok.sublist {part : List α} (h : Ok key limit queue) (hpart : part.Sublist queue) : Ok key limit part :=
  ⟨h.distinct.sublist (hpart.map key), Nat.le_trans hpart.length_le h.bounded⟩

section Push

variable [DecidableEq κ]

variable (key limit) in
/-- Takes in an item unless its key is held, dropping the oldest when full. -/
def push (queue : List α) (x : α) : List α :=
  if (queue.map key).contains (key x) then queue
  else (if queue.length ≥ limit then queue.tail else queue) ++ [x]

/-- What is queued is not queued again. -/
theorem push_of_mem (h : key x ∈ queue.map key) : push key limit queue x = queue :=
  if_pos (List.contains_iff_mem.2 h)

/-- A new item goes to the end, and the oldest makes room for it. -/
theorem push_of_not_mem (h : key x ∉ queue.map key) :
    push key limit queue x = (if queue.length ≥ limit then queue.tail else queue) ++ [x] :=
  if_neg fun hmem => h (List.contains_iff_mem.1 hmem)

theorem push_of_lt (h : key x ∉ queue.map key) (hlt : queue.length < limit) :
    push key limit queue x = queue ++ [x] := by
  rw [push_of_not_mem h, if_neg (Nat.not_le.2 hlt)]

/-- **The backlog stays in order** whatever arrives. -/
theorem Ok.push (hlimit : 0 < limit) (h : Ok key limit queue) (x : α) : Ok key limit (push key limit queue x) := by
  by_cases hx : key x ∈ queue.map key
  · rw [push_of_mem hx]
    exact h
  · rw [push_of_not_mem hx]
    by_cases hfull : queue.length ≥ limit
    · rw [if_pos hfull]
      have hbound := h.bounded
      apply (h.sublist (List.tail_sublist queue)).concat
      · intro hmem
        rw [List.map_tail] at hmem
        exact hx (List.mem_of_mem_tail hmem)
      · rw [List.length_tail]
        omega
    · rw [if_neg hfull]
      exact h.concat hx (by omega)

/-- **What leaves** on an arrival is the oldest element of a full backlog, for an element of a new key. -/
theorem leaves_push (hbound : queue.length ≤ limit) (hy : y ∈ queue) (hgone : y ∉ push key limit queue x) :
    queue.length = limit ∧ queue.head? = some y ∧ key x ∉ queue.map key ∧
      push key limit queue x = queue.tail ++ [x] := by
  by_cases hx : key x ∈ queue.map key
  · rw [push_of_mem hx] at hgone
    exact absurd hy hgone
  · rw [push_of_not_mem hx] at hgone ⊢
    by_cases hfull : queue.length ≥ limit
    · rw [if_pos hfull] at hgone ⊢
      refine ⟨by omega, ?_, hx, rfl⟩
      cases queue with
      | nil => cases hy
      | cons oldest rest =>
        rcases List.mem_cons.1 hy with heq | hrest
        · rw [List.head?_cons, heq]
        · exact absurd (List.mem_append_left [x] hrest) hgone
    · rw [if_neg hfull] at hgone
      exact absurd (List.mem_append_left [x] hy) hgone

end Push

end Backlog
