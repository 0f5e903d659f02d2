import VayuWeb.Base.Bytes

/-!
# Fixed-size pieces

* `flatten_split`: the pieces in order are the bytes.
* `length_split_le`: how many there are.
-/

namespace Chunks

/-- Pieces of `size` bytes, the last one shorter; `fuel` of them at most. -/
def split (size : ℕ) : ℕ → Bytes → List Bytes
  | 0, _ => []
  | fuel + 1, bytes => if bytes = [] then [] else bytes.take size :: split size fuel (bytes.drop size)

variable {size fuel : ℕ} {bytes : Bytes}

/-- **The pieces are the bytes.** -/
theorem flatten_split (hsize : 0 < size) (hfuel : bytes.length ≤ fuel) : (split size fuel bytes).flatten = bytes := by
  induction fuel generalizing bytes with
  | zero =>
    have hnil : bytes = [] := List.length_eq_zero_iff.1 (Nat.le_zero.1 hfuel)
    rw [hnil]
    exact List.flatten_nil
  | succ fuel ih =>
    rw [split]
    split_ifs with hnil
    · rw [hnil, List.flatten_nil]
    · have hrest : (bytes.drop size).length ≤ fuel := by
        have hpos := List.length_pos_iff.2 hnil
        rw [List.length_drop]
        omega
      rw [List.flatten_cons, ih hrest, List.take_append_drop]

/-- No piece is longer than the size. -/
theorem length_le_of_mem {piece : Bytes} (h : piece ∈ split size fuel bytes) : piece.length ≤ size := by
  induction fuel generalizing bytes with
  | zero => simp [split] at h
  | succ fuel ih =>
    rw [split] at h
    split_ifs at h with hnil
    · simp at h
    · rcases List.mem_cons.1 h with rfl | h
      · exact List.length_take_le _ _
      · exact ih h

/-- **How many pieces there are**: as many as sizes are needed to cover the bytes. -/
theorem length_split_le (hsize : 0 < size) (hfuel : bytes.length ≤ fuel) (n : ℕ) :
    (split size fuel bytes).length ≤ n ↔ bytes.length ≤ n * size := by
  induction fuel generalizing bytes n with
  | zero =>
    have hlen := Nat.le_zero.1 hfuel
    simp [split, hlen]
  | succ fuel ih =>
    rw [split]
    split_ifs with hnil
    · simp [hnil]
    · have hpos := List.length_pos_iff.2 hnil
      have hrest : (bytes.drop size).length ≤ fuel := by
        rw [List.length_drop]
        omega
      cases n with
      | zero =>
        rw [List.length_cons]
        omega
      | succ n =>
        rw [List.length_cons, Nat.succ_le_succ_iff, ih hrest, List.length_drop, Nat.succ_mul]
        omega

/-- All pieces but the last are full. -/
theorem length_of_mem_dropLast {piece : Bytes} (h : piece ∈ (split size fuel bytes).dropLast) :
    piece.length = size := by
  induction fuel generalizing bytes with
  | zero => simp [split] at h
  | succ fuel ih =>
    rw [split] at h
    split_ifs at h with hnil
    · simp at h
    · by_cases hrest : split size fuel (bytes.drop size) = []
      · simp [hrest] at h
      · rw [List.dropLast_cons_of_ne_nil hrest] at h
        rcases List.mem_cons.1 h with rfl | h
        · -- another piece follows, so there is more than this one takes
          have hmore : bytes.drop size ≠ [] := by
            intro hdrop
            rw [hdrop] at hrest
            cases fuel with
            | zero => exact hrest rfl
            | succ fuel => exact hrest (if_pos rfl)
          rw [Ne, List.drop_eq_nil_iff, Nat.not_le] at hmore
          rw [List.length_take, Nat.min_eq_left (Nat.le_of_lt hmore)]
        · exact ih h

/-- What fits one piece is one. -/
theorem split_of_le (hpos : bytes ≠ []) (hle : bytes.length ≤ size) : split size (fuel + 1) bytes = [bytes] := by
  rw [split, if_neg hpos, List.take_of_length_le hle, List.drop_of_length_le hle]
  cases fuel with
  | zero => rw [split]
  | succ fuel => rw [split, if_pos rfl]

/-- Of equal bytes the pieces are equal. -/
theorem split_replicate (hsize : 0 < size) (b : UInt8) {n : ℕ} (hfuel : n * size ≤ fuel) :
    split size fuel (List.replicate (n * size) b) = List.replicate n (List.replicate size b) := by
  induction n generalizing fuel with
  | zero =>
    rw [Nat.zero_mul, List.replicate_zero, List.replicate_zero]
    cases fuel with
    | zero => rfl
    | succ fuel => rw [split, if_pos rfl]
  | succ n ih =>
    rw [Nat.succ_mul] at hfuel ⊢
    obtain ⟨fuel, rfl⟩ : ∃ k, fuel = k + 1 := ⟨fuel - 1, by omega⟩
    have hne : List.replicate (n * size + size) b ≠ [] := by
      rw [← List.length_pos_iff, List.length_replicate]
      omega
    rw [split, if_neg hne, List.take_replicate, List.drop_replicate, Nat.min_eq_left (Nat.le_add_left _ _),
      Nat.add_sub_cancel, ih (by omega), List.replicate_succ]

end Chunks
