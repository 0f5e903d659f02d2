import VayuWeb.Base.Bytes

/-!
# Unsigned LEB128

A number in groups of seven bits, the least first; each group but the last has its top bit set.

* `read_encode`: reading gives the number back and leaves what follows it.
* `read_length`: a reader that succeeds has read something.
* `read_front`: what it has read stands by itself.
-/

namespace Varint

/-- At most `fuel` groups. -/
def groups : ℕ → ℕ → Bytes
  | 0, _ => []
  | fuel + 1, n => if n < 128 then [UInt8.ofNat n] else UInt8.ofNat (n % 128 + 128) :: groups fuel (n / 128)

/-- The groups of a 64-bit number, which are never more than ten. -/
def encode (n : ℕ) : Bytes := groups 10 n

/-- Why no varint is read. -/
inductive Fault where
  | truncated | tooLong
  deriving DecidableEq, Repr

/-- Read at most `limit` groups: the number, and the bytes after it. -/
def read : ℕ → Bytes → Except Fault (ℕ × Bytes)
  | 0, _ => .error .tooLong
  | _ + 1, [] => .error .truncated
  | limit + 1, b :: bs =>
    if b < 128 then .ok (b.toNat, bs)
    else
      match read limit bs with
      | .ok (n, rest) => .ok (b.toNat - 128 + 128 * n, rest)
      | .error fault => .error fault

variable {fuel limit n : ℕ} {bs rest : Bytes}

theorem read_small (hn : n < 128) (rest : Bytes) : read (limit + 1) (UInt8.ofNat n :: rest) = .ok (n, rest) := by
  have hbyte : (UInt8.ofNat n).toNat = n := by
    rw [UInt8.toNat_ofNat']
    omega
  have hlt : UInt8.ofNat n < 128 := by
    rw [UInt8.lt_iff_toNat_lt, hbyte]
    exact hn
  rw [read, if_pos hlt, hbyte]

/-- One group more in front. -/
theorem read_more (h : read limit bs = .ok (n, rest)) (low : ℕ) :
    read (limit + 1) (UInt8.ofNat (low % 128 + 128) :: bs) = .ok (low % 128 + 128 * n, rest) := by
  have hbyte : (UInt8.ofNat (low % 128 + 128)).toNat = low % 128 + 128 := by
    rw [UInt8.toNat_ofNat']
    omega
  have hge : ¬ UInt8.ofNat (low % 128 + 128) < 128 := by
    rw [UInt8.lt_iff_toNat_lt, hbyte]
    exact Nat.not_lt.2 (Nat.le_add_left 128 _)
  rw [read, if_neg hge, h, hbyte]
  simp only [Nat.add_sub_cancel]

/-- The groups of a number are read back. -/
theorem read_groups (hn : n < 128 ^ (fuel + 1)) (hle : fuel < limit) (rest : Bytes) :
    read limit (groups (fuel + 1) n ++ rest) = .ok (n, rest) := by
  induction fuel generalizing limit n with
  | zero =>
    obtain ⟨limit, rfl⟩ : ∃ k, limit = k + 1 := ⟨limit - 1, by omega⟩
    have hsmall : n < 128 := by
      rw [Nat.zero_add, Nat.pow_one] at hn
      exact hn
    rw [groups, if_pos hsmall]
    exact read_small hsmall rest
  | succ fuel ih =>
    obtain ⟨limit, rfl⟩ : ∃ k, limit = k + 1 := ⟨limit - 1, by omega⟩
    rw [groups]
    by_cases hsmall : n < 128
    · rw [if_pos hsmall]
      exact read_small hsmall rest
    · have hdiv : n / 128 < 128 ^ (fuel + 1) := by
        rw [Nat.div_lt_iff_lt_mul (by decide)]
        rwa [Nat.pow_succ] at hn
      rw [if_neg hsmall, List.cons_append, read_more (ih hdiv (by omega)) n]
      congr 2
      omega

/-- **Reading gives the number back.** -/
theorem read_encode (hn : n < 2 ^ 64) (rest : Bytes) : read 10 (encode n ++ rest) = .ok (n, rest) :=
  read_groups (Nat.lt_trans hn (by decide)) (by decide) rest

/-- A first group is the last one, or there are more. -/
theorem read_cons_eq_ok {b : UInt8} : read (limit + 1) (b :: bs) = .ok (n, rest) ↔
    (b.toNat < 128 ∧ n = b.toNat ∧ rest = bs) ∨
      (¬ b.toNat < 128 ∧ ∃ m, read limit bs = .ok (m, rest) ∧ n = b.toNat - 128 + 128 * m) := by
  have hlt : b < 128 ↔ b.toNat < 128 := UInt8.lt_iff_toNat_lt
  rw [read]
  by_cases hlast : b.toNat < 128
  · rw [if_pos (hlt.2 hlast)]
    simp [hlast, eq_comm]
  · rw [if_neg fun h => hlast (hlt.1 h)]
    cases hread : read limit bs with
    | error fault => simp [hlast]
    | ok result =>
      obtain ⟨m, rest'⟩ := result
      simp only [Except.ok.injEq, Prod.mk.injEq, hlast, false_and, not_false_eq_true, true_and, false_or]
      constructor
      · rintro ⟨hn, hrest⟩
        exact ⟨m, ⟨rfl, hrest⟩, hn.symm⟩
      · rintro ⟨m', ⟨rfl, hrest⟩, hn⟩
        exact ⟨hn.symm, hrest⟩

/-- Reading takes something off. -/
theorem read_length (h : read limit bs = .ok (n, rest)) : rest.length < bs.length := by
  induction limit generalizing bs n rest with
  | zero => simp [read] at h
  | succ limit ih =>
    cases bs with
    | nil => simp [read] at h
    | cons b bs =>
      rw [List.length_cons]
      rcases read_cons_eq_ok.1 h with ⟨-, -, hrest⟩ | ⟨-, m, hm, -⟩
      · rw [hrest]
        omega
      · have hlt := ih hm
        omega

theorem length_groups_le : (groups fuel n).length ≤ fuel := by
  induction fuel generalizing n with
  | zero => exact Nat.le_refl _
  | succ fuel ih =>
    rw [groups]
    split_ifs
    · exact Nat.succ_le_succ (Nat.zero_le _)
    · exact Nat.succ_le_succ ih

/-- A number of so many groups. -/
theorem length_groups_le_of_lt {k : ℕ} (hn : n < 128 ^ (k + 1)) : (groups fuel n).length ≤ k + 1 := by
  induction k generalizing fuel n with
  | zero =>
    cases fuel with
    | zero => exact Nat.zero_le _
    | succ fuel =>
      rw [groups, if_pos (by omega)]
      exact Nat.le_refl _
  | succ k ih =>
    cases fuel with
    | zero => exact Nat.zero_le _
    | succ fuel =>
      rw [groups]
      split_ifs
      · exact Nat.succ_le_succ (Nat.zero_le _)
      · refine Nat.succ_le_succ (ih ?_)
        rw [Nat.pow_succ] at hn
        exact Nat.div_lt_of_lt_mul (by omega)

theorem encode_ne_nil : encode n ≠ [] := by
  rw [encode, groups]
  split_ifs
  · exact List.cons_ne_nil _ _
  · exact List.cons_ne_nil _ _

/-! ## The groups that are read -/

/-- What follows a varint does not change it. -/
theorem read_append (h : read limit bs = .ok (n, [])) (rest : Bytes) : read limit (bs ++ rest) = .ok (n, rest) := by
  induction limit generalizing bs n with
  | zero => simp [read] at h
  | succ limit ih =>
    cases bs with
    | nil => simp [read] at h
    | cons b bs =>
      rw [List.cons_append, read_cons_eq_ok]
      rcases read_cons_eq_ok.1 h with ⟨hlast, hn, hrest⟩ | ⟨hmore, m, hm, hn⟩
      · exact Or.inl ⟨hlast, hn, by rw [← hrest, List.nil_append]⟩
      · exact Or.inr ⟨hmore, m, ih hm, hn⟩

/-- What is read stands in front of what is left. -/
theorem read_front (h : read limit bs = .ok (n, rest)) :
    ∃ front, bs = front ++ rest ∧ read limit front = .ok (n, []) := by
  induction limit generalizing bs n with
  | zero => simp [read] at h
  | succ limit ih =>
    cases bs with
    | nil => simp [read] at h
    | cons b bs =>
      rcases read_cons_eq_ok.1 h with ⟨hlast, hn, hrest⟩ | ⟨hmore, m, hm, hn⟩
      · exact ⟨[b], by rw [hrest, List.singleton_append], read_cons_eq_ok.2 (Or.inl ⟨hlast, hn, rfl⟩)⟩
      · obtain ⟨front, hfront, hread⟩ := ih hm
        exact ⟨b :: front, by rw [hfront, List.cons_append],
          read_cons_eq_ok.2 (Or.inr ⟨hmore, m, hread, hn⟩)⟩

/-- A varint that is read under one limit is read under any larger one. -/
theorem read_mono {limit' : ℕ} (hle : limit ≤ limit') (h : read limit bs = .ok (n, rest)) :
    read limit' bs = .ok (n, rest) := by
  induction limit generalizing limit' bs n with
  | zero => simp [read] at h
  | succ limit ih =>
    obtain ⟨limit', rfl⟩ : ∃ k, limit' = k + 1 := ⟨limit' - 1, by omega⟩
    cases bs with
    | nil => simp [read] at h
    | cons b bs =>
      rw [read_cons_eq_ok] at h ⊢
      rcases h with hlast | ⟨hmore, m, hm, hn⟩
      · exact Or.inl hlast
      · exact Or.inr ⟨hmore, m, ih (by omega) hm, hn⟩

/-- Each group adds seven bits. -/
theorem read_lt (h : read limit bs = .ok (n, rest)) : n < 128 ^ limit := by
  induction limit generalizing bs n with
  | zero => simp [read] at h
  | succ limit ih =>
    cases bs with
    | nil => simp [read] at h
    | cons b bs =>
      have hbyte := b.toNat_lt
      have hpos : 0 < 128 ^ limit := Nat.pow_pos (by decide)
      rw [Nat.pow_succ]
      rcases read_cons_eq_ok.1 h with ⟨hlast, hn, -⟩ | ⟨hmore, m, hm, hn⟩
      · omega
      · have hlt := ih hm
        omega

/-- A number of one group is written as itself. -/
theorem encode_of_read_one (h : read limit bs = .ok (n, [])) (hlength : bs.length = 1) :
    n < 128 ∧ bs = encode n := by
  obtain ⟨b, rfl⟩ := List.length_eq_one_iff.1 hlength
  cases limit with
  | zero => simp [read] at h
  | succ limit =>
    rcases read_cons_eq_ok.1 h with ⟨hlast, rfl, -⟩ | ⟨hmore, m, hm, hn⟩
    · refine ⟨hlast, ?_⟩
      rw [encode, groups, if_pos hlast, UInt8.ofNat_toNat]
    · exact absurd (read_length hm) (by simp)

end Varint
