import Mathlib.Tactic.Ring
import VayuWeb.Base.Bytes

/-!
# Bit strings

A bit string is the list of its bits, the most significant one first.

* `number_lt_iff`: so many leading zeros say that the number is below a power of two.
* `number_bytes`: the bits of a byte string spell the number that its bytes spell.
* `scan_eq`: a scan that counts zeros as long as it has seen nothing else.
-/

namespace Bits

/-- The number a bit string spells. -/
def number (bits : List Bool) : ℕ := bits.foldl (fun n b => 2 * n + b.toNat) 0

/-- The zeros it begins with. -/
def leading : List Bool → ℕ
  | [] => 0
  | true :: _ => 0
  | false :: bits => leading bits + 1

/-- Reading bits goes on from any number. -/
theorem foldl_number (n : ℕ) (bits : List Bool) :
    bits.foldl (fun n b => 2 * n + b.toNat) n = n * 2 ^ bits.length + number bits := by
  induction bits using List.reverseRecOn with
  | nil => simp [number]
  | append_singleton bits b ih =>
    have hnumber : number (bits ++ [b]) = 2 * number bits + b.toNat := by
      rw [number, List.foldl_append]
      rfl
    rw [List.foldl_append, hnumber, ih, List.length_append, List.length_singleton, Nat.pow_succ]
    simp only [List.foldl_cons, List.foldl_nil]
    ring

/-- The number of two bit strings, one after another. -/
theorem number_append (xs ys : List Bool) : number (xs ++ ys) = number xs * 2 ^ ys.length + number ys := by
  rw [number, List.foldl_append, foldl_number]
  rfl

theorem number_cons (b : Bool) (bits : List Bool) : number (b :: bits) = b.toNat * 2 ^ bits.length + number bits := by
  have h := number_append [b] bits
  have hb : number [b] = b.toNat := by simp [number]
  rwa [hb] at h

/-- A number is below the power of its length. -/
theorem number_lt (bits : List Bool) : number bits < 2 ^ bits.length := by
  induction bits with
  | nil => simp [number]
  | cons b bits ih =>
    have hb : b.toNat ≤ 1 := Bool.toNat_le b
    have hmul : b.toNat * 2 ^ bits.length ≤ 1 * 2 ^ bits.length := Nat.mul_le_mul_right _ hb
    rw [number_cons, List.length_cons, Nat.pow_succ]
    omega

theorem leading_le (bits : List Bool) : leading bits ≤ bits.length := by
  induction bits with
  | nil => exact Nat.le_refl 0
  | cons b bits ih =>
    cases b with
    | true => exact Nat.zero_le _
    | false => exact Nat.succ_le_succ ih

/-- **So many leading zeros** say that the number is below a power of two. -/
theorem number_lt_iff {bits : List Bool} {k : ℕ} (h : k ≤ bits.length) :
    number bits < 2 ^ (bits.length - k) ↔ k ≤ leading bits := by
  induction bits generalizing k with
  | nil =>
    have hk : k = 0 := Nat.le_zero.1 h
    rw [hk]
    exact iff_of_true (number_lt []) (Nat.le_refl 0)
  | cons b bits ih =>
    cases k with
    | zero => exact iff_of_true (number_lt (b :: bits)) (Nat.zero_le _)
    | succ k =>
      rw [List.length_cons] at h ⊢
      have hlength : bits.length + 1 - (k + 1) = bits.length - k := by omega
      rw [hlength, number_cons]
      cases b with
      | false =>
        have hrest := @ih k (by omega)
        rw [Bool.toNat_false, Nat.zero_mul, Nat.zero_add, hrest, leading]
        omega
      | true =>
        -- the first bit alone is as much as the bound
        have hpow : 2 ^ (bits.length - k) ≤ 2 ^ bits.length := Nat.pow_le_pow_right (by omega) (by omega)
        rw [Bool.toNat_true, Nat.one_mul, leading]
        omega

/-! ## Bytes -/

/-- The bits of a byte. -/
def ofByte (b : UInt8) : List Bool := [7, 6, 5, 4, 3, 2, 1, 0].map fun shift => b.toNat / 2 ^ shift % 2 ≠ 0

/-- The bits of a byte string. -/
def ofBytes (bytes : Bytes) : List Bool := bytes.flatMap ofByte

@[simp] theorem length_ofByte (b : UInt8) : (ofByte b).length = 8 := by simp [ofByte]

@[simp] theorem length_ofBytes (bytes : Bytes) : (ofBytes bytes).length = 8 * bytes.length := by
  induction bytes with
  | nil => rfl
  | cons b bytes ih =>
    have hcons : ofBytes (b :: bytes) = ofByte b ++ ofBytes bytes := rfl
    rw [hcons, List.length_append, length_ofByte, ih, List.length_cons]
    omega

theorem number_ofByte (b : UInt8) : number (ofByte b) = b.toNat := by
  have hall : ∀ n < 256, number (ofByte (UInt8.ofNat n)) = n := by decide +kernel
  have hb := hall b.toNat b.toNat_lt
  rwa [UInt8.ofNat_toNat] at hb

/-- **The bits spell what the bytes spell.** -/
theorem number_ofBytes (bytes : Bytes) : number (ofBytes bytes) = Bytes.beNat bytes := by
  induction bytes using List.reverseRecOn with
  | nil => rfl
  | append_singleton bytes b ih =>
    have hconcat : ofBytes (bytes ++ [b]) = ofBytes bytes ++ ofByte b := by simp [ofBytes]
    rw [hconcat, number_append, ih, number_ofByte, length_ofByte, Bytes.beNat_concat]
    norm_num

/-! ## Scans -/

/-- One bit of a scan: the zeros that were counted, and one as long as nothing else was seen. -/
def examine (s : ℕ × ℕ) (b : Bool) : ℕ × ℕ :=
  let stillZero := s.2 * if b then 0 else 1
  (s.1 + stillZero, stillZero)

theorem scan_done (n : ℕ) (bits : List Bool) : bits.foldl examine (n, 0) = (n, 0) := by
  induction bits with
  | nil => rfl
  | cons b bits ih => rw [List.foldl_cons, examine, Nat.zero_mul, Nat.add_zero, ih]

/-- **A scan counts the leading zeros.** -/
theorem scan_eq (n : ℕ) (bits : List Bool) : (bits.foldl examine (n, 1)).1 = n + leading bits := by
  induction bits generalizing n with
  | nil => rfl
  | cons b bits ih =>
    rw [List.foldl_cons]
    cases b with
    | true =>
      have hstep : examine (n, 1) true = (n, 0) := rfl
      rw [hstep, scan_done, leading]
      omega
    | false =>
      have hstep : examine (n, 1) false = (n + 1, 1) := rfl
      rw [hstep, ih, leading]
      omega

end Bits
