import Mathlib.Algebra.Order.Ring.Nat
import Mathlib.Data.List.Lex
import Mathlib.Data.List.Induction

/-!
# Byte strings

Byte strings are lists of `UInt8`; their order `<` is the unsigned lexicographic one.

* `beNat`, `beBytes`: big-endian numbers of a fixed width, inverse to each other.
* `splitAt?`: take a counted prefix, or nothing when the input is too short.
* `utf8Encode`, `utf8Decode`: strict UTF-8. Decoding accepts exactly the encodings
  (`utf8Decode_eq_some`).
-/

/-- Byte strings. -/
abbrev Bytes := List UInt8

namespace Bytes

/-! ## Big-endian numbers -/

/-- The number a byte string spells, most significant byte first. -/
def beNat (bs : Bytes) : ℕ := bs.foldl (fun n b => n * 256 + b.toNat) 0

/-- The low `k` bytes of `n`, most significant byte first. -/
def beBytes : ℕ → ℕ → Bytes
  | 0, _ => []
  | k + 1, n => beBytes k (n / 256) ++ [UInt8.ofNat n]

@[simp] theorem length_beBytes (k n : ℕ) : (beBytes k n).length = k := by
  induction k generalizing n with
  | zero => rfl
  | succ k ih => simp [beBytes, ih]

@[simp] theorem beNat_nil : beNat [] = 0 := rfl

theorem beNat_concat (bs : Bytes) (b : UInt8) : beNat (bs ++ [b]) = beNat bs * 256 + b.toNat := by
  simp [beNat, List.foldl_append]

/-- A number that fits is read back. -/
theorem beNat_beBytes {k n : ℕ} (h : n < 256 ^ k) : beNat (beBytes k n) = n := by
  induction k generalizing n with
  | zero => simp at h; simp [beBytes, h]
  | succ k ih =>
    have hd : n / 256 < 256 ^ k := by rw [Nat.div_lt_iff_lt_mul (by decide)]; rwa [Nat.pow_succ] at h
    rw [beBytes, beNat_concat, ih hd, UInt8.toNat_ofNat']
    omega

/-- A number is below the power of its width. -/
theorem beNat_lt (bs : Bytes) : beNat bs < 256 ^ bs.length := by
  induction bs using List.reverseRecOn with
  | nil => simp
  | append_singleton bs b ih =>
    rw [beNat_concat, List.length_append, List.length_singleton, Nat.pow_succ]
    have := b.toNat_lt; omega

/-- Bytes that were read are written back. -/
theorem beBytes_beNat (bs : Bytes) : beBytes bs.length (beNat bs) = bs := by
  induction bs using List.reverseRecOn with
  | nil => rfl
  | append_singleton bs b ih =>
    have hb := b.toNat_lt
    rw [beNat_concat, List.length_append, List.length_singleton, beBytes,
      show (beNat bs * 256 + b.toNat) / 256 = beNat bs by omega, ih]
    congr 2
    apply UInt8.toNat_inj.1
    rw [UInt8.toNat_ofNat']; omega

/-! ## Counted prefixes -/

/-- The first `n` bytes and the rest, when there are that many. -/
def splitAt? (n : ℕ) (bs : Bytes) : Option (Bytes × Bytes) :=
  if n ≤ bs.length then some (bs.take n, bs.drop n) else none

@[simp] theorem splitAt?_append (xs rest : Bytes) : splitAt? xs.length (xs ++ rest) = some (xs, rest) := by
  simp [splitAt?]

theorem splitAt?_eq_some {n : ℕ} {bs xs rest : Bytes} :
    splitAt? n bs = some (xs, rest) ↔ bs = xs ++ rest ∧ xs.length = n := by
  constructor
  · intro h
    unfold splitAt? at h
    split at h
    · rename_i hn
      simp only [Option.some.injEq, Prod.mk.injEq] at h
      obtain ⟨rfl, rfl⟩ := h
      exact ⟨(List.take_append_drop n bs).symm, List.length_take_of_le hn⟩
    · simp at h
  · rintro ⟨rfl, rfl⟩; exact splitAt?_append xs rest

/-! ## Strict UTF-8 -/

/-- The UTF-8 encoding of a string. -/
def utf8Encode (s : String) : Bytes := s.toByteArray.data.toList

/-- The string of a byte string of ASCII characters. -/
def ofAscii (bs : Bytes) : String := String.ofList (bs.map fun b => Char.ofNat b.toNat)

/-- The string a byte string encodes, when it is well-formed UTF-8. ASCII is read off as it
stands. -/
def utf8Decode (bs : Bytes) : Option String :=
  if bs.all (·.toNat < 128) then some (ofAscii bs) else String.fromUTF8? ⟨bs.toArray⟩

theorem utf8EncodeChar_ascii {n : ℕ} (h : n < 128) :
    String.utf8EncodeChar (Char.ofNat n) = [UInt8.ofNat n] := by
  have hall : ∀ n < 128, String.utf8EncodeChar (Char.ofNat n) = [UInt8.ofNat n] := by decide
  exact hall n h

theorem utf8Encode_ofAscii {bs : Bytes} (h : ∀ b ∈ bs, b.toNat < 128) : utf8Encode (ofAscii bs) = bs := by
  have hdata : utf8Encode (ofAscii bs) =
      (bs.map fun b => Char.ofNat b.toNat).flatMap String.utf8EncodeChar := by
    simp [utf8Encode, ofAscii, List.utf8Encode]
  have hchars : (bs.map fun b => Char.ofNat b.toNat).flatMap String.utf8EncodeChar = bs := by
    clear hdata
    induction bs with
    | nil => rfl
    | cons b bs ih =>
      rw [List.map_cons, List.flatMap_cons, utf8EncodeChar_ascii (h b List.mem_cons_self),
        UInt8.ofNat_toNat, ih fun c hc => h c (List.mem_cons_of_mem _ hc)]
      rfl
  rw [hdata, hchars]

theorem fromUTF8?_eq_some {bs : Bytes} {s : String} :
    String.fromUTF8? ⟨bs.toArray⟩ = some s ↔ utf8Encode s = bs := by
  unfold utf8Encode String.fromUTF8? String.fromUTF8
  constructor
  · intro h
    split at h
    · simp only [Option.some.injEq] at h
      rw [← h]
    · simp at h
  · rintro rfl
    have hs : (⟨s.toByteArray.data.toList.toArray⟩ : ByteArray) = s.toByteArray := by simp
    rw [dif_pos (by rw [hs]; exact s.isValidUTF8)]

/-- Decoding inverts encoding, and nothing else decodes. -/
theorem utf8Decode_eq_some {bs : Bytes} {s : String} : utf8Decode bs = some s ↔ utf8Encode s = bs := by
  rw [← fromUTF8?_eq_some]
  unfold utf8Decode
  split_ifs with h
  · rw [fromUTF8?_eq_some.2 (utf8Encode_ofAscii (by simpa using h))]
  · rfl

@[simp] theorem utf8Decode_utf8Encode (s : String) : utf8Decode (utf8Encode s) = some s :=
  utf8Decode_eq_some.2 rfl

/-- Two texts never share an encoding. -/
theorem utf8Encode_injective : Function.Injective utf8Encode := by
  intro s t h
  have := utf8Decode_utf8Encode s
  rw [h, utf8Decode_utf8Encode] at this
  exact (Option.some.inj this).symm

theorem utf8Encode_append (s t : String) : utf8Encode (s ++ t) = utf8Encode s ++ utf8Encode t := by
  simp [utf8Encode]

/-! ## The byte order mark -/

/-- U+FEFF in UTF-8. -/
def bom : Bytes := [0xEF, 0xBB, 0xBF]

theorem utf8Encode_bom : utf8Encode "\uFEFF" = bom := by decide

/-- A leading byte order mark is one well-formed character. -/
theorem utf8Decode_bom_append (bs : Bytes) :
    utf8Decode (bom ++ bs) = (utf8Decode bs).map ("\uFEFF" ++ ·) := by
  cases h : utf8Decode bs with
  | some s =>
    rw [utf8Decode_eq_some] at h
    rw [Option.map_some, utf8Decode_eq_some, utf8Encode_append, utf8Encode_bom, h]
  | none =>
    rw [Option.map_none]
    cases h' : utf8Decode (bom ++ bs) with
    | none => rfl
    | some t =>
      exfalso
      rw [utf8Decode_eq_some] at h'
      -- a mark in front of bytes is valid exactly when the bytes are
      have hv : (['\uFEFF'].utf8Encode ++ (⟨bs.toArray⟩ : ByteArray)).IsValidUTF8 := by
        have ht := t.isValidUTF8
        have he : t.toByteArray = ['\uFEFF'].utf8Encode ++ (⟨bs.toArray⟩ : ByteArray) := by
          apply ByteArray.ext
          apply Array.toList_inj.1
          rw [show t.toByteArray.data.toList = bom ++ bs from h', ← utf8Encode_bom]
          simp [utf8Encode]
          rfl
        rwa [he] at ht
      rw [ByteArray.isValidUTF8_utf8Encode_singleton_append_iff] at hv
      have hnone : ∀ s, String.fromUTF8? ⟨bs.toArray⟩ ≠ some s := by
        intro s hs
        rw [fromUTF8?_eq_some, ← utf8Decode_eq_some, h] at hs
        simp at hs
      unfold String.fromUTF8? at hnone
      rw [dif_pos hv] at hnone
      exact hnone _ rfl

end Bytes
