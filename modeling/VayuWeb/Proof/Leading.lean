import VayuWeb.Base.Bits
import VayuWeb.Client.Pow

/-!
# The difficulty test as a comparison of numbers

* `tagSatisfies_eq`: the registry's loop compares the leading zeros of the tag.
* `tagSatisfiesU32_eq`: the client's does so modulo 2³², which matters from 2²⁹ bytes on.
* `tag_satisfies_iff`: what the two tests decide.
-/

namespace VayuWeb

open Bytes Bits

/-- A loop over the bytes and over the bits of each is one over all bits. -/
theorem foldl_ofBytes {σ : Type} (step : σ → Bool → σ) (s : σ) (bytes : Bytes) :
    (ofBytes bytes).foldl step s = bytes.foldl (fun s b => (ofByte b).foldl step s) s := by
  induction bytes generalizing s with
  | nil => rfl
  | cons b bytes ih =>
    have hcons : ofBytes (b :: bytes) = ofByte b ++ ofBytes bytes := rfl
    rw [hcons, List.foldl_append, ih, List.foldl_cons]

/-- One bit of the loop. -/
def examineBy (wrap : ℕ → ℕ) (s : ℕ × ℕ) (b : Bool) : ℕ × ℕ :=
  let stillZero := s.2 * if b then 0 else 1
  (wrap (s.1 + stillZero), stillZero)

/-- The loop goes over the bits of the tag. -/
theorem leadingBits_eq (wrap : ℕ → ℕ) (tag : Bytes) :
    leadingBits wrap tag = ((ofBytes tag).foldl (examineBy wrap) (0, 1)).1 := by
  have hbyte : ∀ (s : ℕ × ℕ) (byte : UInt8), (ofByte byte).foldl (examineBy wrap) s =
      [7, 6, 5, 4, 3, 2, 1, 0].foldl (fun s shift =>
        let stillZero := s.2 * if byte.toNat / 2 ^ shift % 2 = 0 then 1 else 0
        (wrap (s.1 + stillZero), stillZero)) s := by
    intro s byte
    rw [ofByte, List.foldl_map]
    congr 1
    funext s shift
    by_cases h : byte.toNat / 2 ^ shift % 2 = 0 <;> simp [examineBy, h]
  rw [foldl_ofBytes]
  simp only [hbyte]
  rfl

/-- The registry's loop counts the leading zeros. -/
theorem tagSatisfies_eq (tag : Bytes) (bits : ℕ) : tagSatisfies tag bits = decide (bits ≤ leading (ofBytes tag)) := by
  have hscan := scan_eq 0 (ofBytes tag)
  rw [Nat.zero_add] at hscan
  rw [tagSatisfies, leadingBits_eq, ← hscan]
  rfl

/-- The client's counter is the registry's modulo 2³². -/
theorem scanU32_eq (n z : ℕ) (bits : List Bool) :
    (bits.foldl (examineBy (· % 2 ^ 32)) (n % 2 ^ 32, z)).1 = (bits.foldl examine (n, z)).1 % 2 ^ 32 := by
  induction bits generalizing n z with
  | nil => rfl
  | cons b bits ih =>
    rw [List.foldl_cons, List.foldl_cons, examineBy, examine, Nat.mod_add_mod]
    exact ih _ _

/-- The client's loop counts the leading zeros modulo 2³². -/
theorem tagSatisfiesU32_eq (tag : Bytes) (bits : ℕ) :
    Client.tagSatisfiesU32 tag bits = decide (bits ≤ leading (ofBytes tag) % 2 ^ 32) := by
  have hscan := scanU32_eq 0 1 (ofBytes tag)
  rw [scan_eq, Nat.zero_add, Nat.zero_mod] at hscan
  rw [Client.tagSatisfiesU32, leadingBits_eq, hscan]

/-- **The difficulty test is the numeric one**: in the registry for every tag, in the client for a tag whose bits
can be counted in 32 bits. -/
theorem tag_satisfies_iff (tag : Bytes) (bits : ℕ) (h : bits ≤ 8 * tag.length) :
    (tagSatisfies tag bits = true ↔ beNat tag < 2 ^ (8 * tag.length - bits)) ∧
      (tag.length < 2 ^ 29 →
        (Client.tagSatisfiesU32 tag bits = true ↔ beNat tag < 2 ^ (8 * tag.length - bits))) := by
  have hnumber : number (ofBytes tag) < 2 ^ ((ofBytes tag).length - bits) ↔ bits ≤ leading (ofBytes tag) :=
    number_lt_iff (by rw [length_ofBytes]; exact h)
  rw [number_ofBytes, length_ofBytes] at hnumber
  refine ⟨?_, fun hlength => ?_⟩
  · rw [tagSatisfies_eq, decide_eq_true_iff, hnumber]
  · have hle := leading_le (ofBytes tag)
    rw [length_ofBytes] at hle
    -- no tag of this length has so many zeros that the counter wraps
    have hmod : leading (ofBytes tag) % 2 ^ 32 = leading (ofBytes tag) := Nat.mod_eq_of_lt (by omega)
    rw [tagSatisfiesU32_eq, hmod, decide_eq_true_iff, hnumber]

/-- A tag of two bytes with eleven leading zeros at a difficulty of eleven. -/
theorem tag_satisfies_iff_eleven :
    11 ≤ 8 * [(0 : UInt8), 0x1f].length ∧ beNat [0, 0x1f] < 2 ^ 5 ∧
      tagSatisfies [0, 0x1f] 11 = true ∧ Client.tagSatisfiesU32 [0, 0x1f] 11 = true := by
  have hle : 11 ≤ 8 * [(0 : UInt8), 0x1f].length := by decide
  have hlt : beNat [0, 0x1f] < 2 ^ 5 := by decide
  obtain ⟨hregistry, hclient⟩ := tag_satisfies_iff [0, 0x1f] 11 hle
  exact ⟨hle, hlt, hregistry.2 hlt, (hclient (by decide)).2 hlt⟩

/-- Zero bytes are leading zeros all through. -/
theorem leading_zeros (n : ℕ) : leading (ofBytes (List.replicate n 0)) = 8 * n := by
  induction n with
  | zero => rfl
  | succ n ih =>
    have hcons : ofBytes (List.replicate (n + 1) 0) =
        [false, false, false, false, false, false, false, false] ++ ofBytes (List.replicate n 0) := rfl
    rw [hcons]
    simp only [List.cons_append, List.nil_append, leading, ih]
    omega

theorem beNat_zeros (n : ℕ) : beNat (List.replicate n 0) = 0 := by
  induction n with
  | zero => rfl
  | succ n ih =>
    rw [List.replicate_succ', beNat_concat, ih]
    rfl

/-- A tag of 2²⁹ zero bytes: the client's counter is back at zero. -/
theorem zeros_wrapped :
    ¬ ∀ (tag : Bytes) (bits : ℕ), bits ≤ 8 * tag.length →
      ((tagSatisfies tag bits = true ↔ beNat tag < 2 ^ (8 * tag.length - bits)) ∧
        (Client.tagSatisfiesU32 tag bits = true ↔ beNat tag < 2 ^ (8 * tag.length - bits))) := by
  intro hall
  obtain ⟨n, hn⟩ : ∃ n : ℕ, n = 2 ^ 29 := ⟨2 ^ 29, rfl⟩
  have hlength : (List.replicate n (0 : UInt8)).length = n := List.length_replicate
  obtain ⟨-, hclient⟩ := hall (List.replicate n 0) 1 (by omega)
  have hlt : beNat (List.replicate n 0) < 2 ^ (8 * (List.replicate n (0 : UInt8)).length - 1) := by
    rw [beNat_zeros]
    exact Nat.two_pow_pos _
  have htrue := hclient.2 hlt
  rw [tagSatisfiesU32_eq, leading_zeros, decide_eq_true_iff] at htrue
  omega

end VayuWeb
