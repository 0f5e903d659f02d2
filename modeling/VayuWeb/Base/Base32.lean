import VayuWeb.Base.Bytes
import Mathlib.Tactic.IntervalCases

/-!
# RFC 4648 base32, lowercase, without padding

Bits go through an accumulator. Of its word only the bits that are still to be written matter, so
a number without bound stands for it.

* `decode_encode`: decoding gives the bytes back.
* `encode_eq_iff`: of the texts that decode, the encoder's own are those with nothing left over.
-/

namespace Base32

/-- The alphabet of RFC 4648 in lower case. -/
def alphabet : List Char := "abcdefghijklmnopqrstuvwxyz234567".toList

/-- The letter of five bits. -/
def digit (index : ℕ) : Char := alphabet.getD (index % 32) 'a'

/-- The place of a character in the alphabet. -/
def indexOf (character : Char) : Option ℕ := alphabet.idxOf? character

/-- Encode after `bits` bits that wait in `value`. -/
def encodeFrom (bits value : ℕ) : Bytes → List Char
  | [] => if bits > 0 then [digit (value * 2 ^ (5 - bits))] else []
  | byte :: bytes =>
    let value := value * 256 + byte.toNat
    let bits := bits + 8
    -- fewer than five bits waited, so that there are one or two groups of five
    if bits ≥ 10 then
      digit (value / 2 ^ (bits - 5)) :: digit (value / 2 ^ (bits - 10)) :: encodeFrom (bits - 10) value bytes
    else digit (value / 2 ^ (bits - 5)) :: encodeFrom (bits - 5) value bytes

/-- The letters of a byte string, without padding. -/
def encode (bytes : Bytes) : String := String.ofList (encodeFrom 0 0 bytes)

/-- Decode after `bits` bits that wait in `value`; nothing at a character outside the alphabet. -/
def decodeFrom (bits value : ℕ) : List Char → Option Bytes
  | [] => some []
  | character :: text => do
    let value := value * 32 + (← indexOf character)
    let bits := bits + 5
    if bits ≥ 8 then
      return UInt8.ofNat (value / 2 ^ (bits - 8)) :: (← decodeFrom (bits - 8) value text)
    else decodeFrom bits value text

/-- The bytes of a text, or nothing where a character is not of the alphabet. -/
def decode (text : String) : Option Bytes := decodeFrom 0 0 text.toList

/-- A letter is read back as the bits it was written for. -/
theorem indexOf_digit (index : ℕ) : indexOf (digit index) = some (index % 32) := by
  have hall : ∀ i < 32, indexOf (alphabet.getD i 'a') = some i := by decide
  exact hall _ (Nat.mod_lt _ (by decide))

/-- One character: a byte is complete once eight bits wait. -/
theorem decodeFrom_digit {bits value index : ℕ} {text : List Char} :
    decodeFrom bits value (digit index :: text) =
      if bits + 5 ≥ 8 then
        (decodeFrom (bits + 5 - 8) (value * 32 + index % 32) text).map
          (UInt8.ofNat ((value * 32 + index % 32) / 2 ^ (bits + 5 - 8)) :: ·)
      else decodeFrom (bits + 5) (value * 32 + index % 32) text := by
  rw [decodeFrom, indexOf_digit]
  simp only [Option.bind_eq_bind, Option.bind_some]
  split_ifs
  · cases decodeFrom (bits + 5 - 8) (value * 32 + index % 32) text with
    | none => rfl
    | some bytes => rfl
  · rfl

theorem ofNat_eq {m n : ℕ} (h : m % 256 = n % 256) : UInt8.ofNat m = UInt8.ofNat n := by
  apply UInt8.toNat_inj.1
  rw [UInt8.toNat_ofNat', UInt8.toNat_ofNat']
  exact h

theorem ofNat_eq_byte {n : ℕ} {byte : UInt8} (h : n % 256 = byte.toNat) : UInt8.ofNat n = byte := by
  apply UInt8.toNat_inj.1
  rw [UInt8.toNat_ofNat']
  exact h

/-- What the decoder gives back of a text that the encoder wrote while `waiting` bits waited on its
side: the byte that these bits and the decoder's own are of, and then the bytes. -/
theorem decodeFrom_encodeFrom (bytes : Bytes) :
    (∀ encoding decoding, decodeFrom 0 decoding (encodeFrom 0 encoding bytes) = some bytes) ∧
    ∀ waiting encoding decoding, 0 < waiting → waiting < 5 →
      decodeFrom (8 - waiting) decoding (encodeFrom waiting encoding bytes) =
        some (UInt8.ofNat (decoding * 2 ^ waiting + encoding % 2 ^ waiting) :: bytes) := by
  induction bytes with
  | nil =>
    constructor
    · intro encoding decoding
      rfl
    · intro waiting encoding decoding hpos hlt
      -- the digit that is left over is padded with zero bits, which the decoder throws away
      interval_cases waiting
      all_goals
        simp only [encodeFrom, decodeFrom_digit, decodeFrom, Nat.reduceGT, Nat.reduceSub, Nat.reduceAdd,
          Nat.reducePow, Nat.reduceLeDiff, ge_iff_le, if_true, Option.map_some]
        congr 2
        apply ofNat_eq
        omega
  | cons byte bytes ih =>
    obtain ⟨ihNone, ihSome⟩ := ih
    have hbyte := byte.toNat_lt
    constructor
    · intro encoding decoding
      simp only [encodeFrom, decodeFrom_digit, Nat.reduceSub, Nat.reduceAdd, Nat.reducePow, Nat.reduceLeDiff,
        ge_iff_le, if_false]
      rw [ihSome 3 _ _ (by decide) (by decide)]
      congr 2
      apply ofNat_eq_byte
      omega
    -- the bits that wait fix how many digits the byte completes, and so what waits after it
    · intro waiting encoding decoding hpos hlt
      interval_cases waiting
      · simp only [encodeFrom, decodeFrom_digit, Nat.reduceSub, Nat.reduceAdd, Nat.reducePow, Nat.reduceLeDiff,
          ge_iff_le, if_false, if_true]
        rw [ihSome 4 _ _ (by decide) (by decide), Option.map_some]
        congr 2
        · apply ofNat_eq
          omega
        · congr 1
          apply ofNat_eq_byte
          omega
      · simp only [encodeFrom, decodeFrom_digit, Nat.reduceSub, Nat.reduceAdd, Nat.reducePow, Nat.reduceLeDiff,
          ge_iff_le, if_true]
        rw [ihNone, Option.map_some, Option.map_some]
        congr 2
        · apply ofNat_eq
          omega
        · congr 1
          apply ofNat_eq_byte
          omega
      · simp only [encodeFrom, decodeFrom_digit, Nat.reduceSub, Nat.reduceAdd, Nat.reducePow, Nat.reduceLeDiff,
          ge_iff_le, if_false, if_true]
        rw [ihSome 1 _ _ (by decide) (by decide), Option.map_some]
        congr 2
        · apply ofNat_eq
          omega
        · congr 1
          apply ofNat_eq_byte
          omega
      · simp only [encodeFrom, decodeFrom_digit, Nat.reduceSub, Nat.reduceAdd, Nat.reducePow, Nat.reduceLeDiff,
          ge_iff_le, if_false, if_true]
        rw [ihSome 2 _ _ (by decide) (by decide), Option.map_some]
        congr 2
        · apply ofNat_eq
          omega
        · congr 1
          apply ofNat_eq_byte
          omega

/-- **Decoding gives the bytes back.** -/
theorem decode_encode (bytes : Bytes) : decode (encode bytes) = some bytes := by
  rw [decode, encode, String.toList_ofList]
  exact (decodeFrom_encodeFrom bytes).1 0 0

/-- Two byte strings never share a text. -/
theorem encode_injective : Function.Injective encode := by
  intro a b h
  have hdecode := congrArg decode h
  rwa [decode_encode, decode_encode, Option.some.injEq] at hdecode

/-- What decodes is written in the alphabet. -/
theorem indexOf_of_decodeFrom {bits value : ℕ} {text : List Char} {bytes : Bytes}
    (h : decodeFrom bits value text = some bytes) : ∀ character ∈ text, (indexOf character).isSome := by
  induction text generalizing bits value bytes with
  | nil => simp
  | cons character text ih =>
    rw [decodeFrom] at h
    obtain ⟨index, hindex, h⟩ := Option.bind_eq_some_iff.1 h
    have hrest : ∃ bits' value' bytes', decodeFrom bits' value' text = some bytes' := by
      simp only at h
      split_ifs at h with hbits
      · obtain ⟨rest, hrest, -⟩ := Option.bind_eq_some_iff.1 h
        exact ⟨_, _, rest, hrest⟩
      · exact ⟨_, _, bytes, h⟩
    obtain ⟨bits', value', bytes', hrest⟩ := hrest
    intro c hc
    rcases List.mem_cons.1 hc with rfl | hc
    · rw [hindex]
      rfl
    · exact ih hrest c hc

/-- Every letter that is written is of the alphabet. -/
theorem indexOf_of_mem_encode {bytes : Bytes} : ∀ character ∈ (encode bytes).toList, (indexOf character).isSome := by
  have hdecode := decode_encode bytes
  rw [decode] at hdecode
  exact indexOf_of_decodeFrom hdecode

/-! ## What is left over

A text and the bytes it decodes to as numbers, the first digit the highest. -/

/-- The number that the characters spell after `value`. -/
def number (value : ℕ) : List Char → ℕ
  | [] => value
  | character :: text => number (value * 32 + (indexOf character).getD 0) text

/-- The number that the bytes spell after `value`. -/
def byteNumber (value : ℕ) : Bytes → ℕ
  | [] => value
  | byte :: bytes => byteNumber (value * 256 + byte.toNat) bytes

/-- After its last byte a text has fewer bits than a character, and they are zero. -/
def Exact (text : List Char) : Prop :=
  5 * text.length % 8 < 5 ∧ number 0 text % 2 ^ (5 * text.length % 8) = 0

instance (text : List Char) : Decidable (Exact text) := inferInstanceAs (Decidable (_ ∧ _))

theorem indexOf_lt {character : Char} {index : ℕ} (h : indexOf character = some index) : index < 32 := by
  have hlength : alphabet.length = 32 := by decide
  rw [indexOf, List.idxOf?, List.findIdx?_eq_some_iff_getElem] at h
  obtain ⟨hlt, -⟩ := h
  omega

theorem indexOf_injective {c c' : Char} {index : ℕ} (h : indexOf c = some index) (h' : indexOf c' = some index) :
    c = c' := by
  rw [indexOf, List.idxOf?, List.findIdx?_eq_some_iff_getElem] at h h'
  obtain ⟨hlt, heq, -⟩ := h
  obtain ⟨hlt', heq', -⟩ := h'
  exact (eq_of_beq heq).symm.trans (eq_of_beq heq')

theorem shift_div (value index : ℕ) (hindex : index < 32) (bits : ℕ) :
    (value * 32 + index) / 2 ^ (bits + 5) = value / 2 ^ bits := by
  have hfive : (value * 32 + index) / 2 ^ 5 = value := by omega
  rw [Nat.add_comm bits 5, Nat.pow_add, ← Nat.div_div_eq_div_mul, hfive]

theorem byte_div (value bits : ℕ) (byte : UInt8) :
    (value * 256 + byte.toNat) / 2 ^ (bits + 8) = value / 2 ^ bits := by
  have hbyte := byte.toNat_lt
  have height : (value * 256 + byte.toNat) / 2 ^ 8 = value := by omega
  rw [Nat.add_comm bits 8, Nat.pow_add, ← Nat.div_div_eq_div_mul, height]

/-- The last digit of a number, and what stands above it. -/
theorem div_digit (n bits width : ℕ) : n / 2 ^ (bits + width) * 2 ^ width + n / 2 ^ bits % 2 ^ width =
    n / 2 ^ bits := by
  rw [Nat.pow_add, ← Nat.div_div_eq_div_mul]
  exact Nat.div_add_mod' _ _

/-- The bytes are the number of the text without its last bits. -/
theorem byteNumber_decode {bits value : ℕ} {text : List Char} {bytes : Bytes} (hbits : bits < 8)
    (h : decodeFrom bits value text = some bytes) :
    bytes.length = (bits + 5 * text.length) / 8 ∧
      byteNumber (value / 2 ^ bits) bytes = number value text / 2 ^ ((bits + 5 * text.length) % 8) := by
  induction text generalizing bits value bytes with
  | nil =>
    rw [decodeFrom, Option.some.injEq] at h
    rw [← h, List.length_nil, List.length_nil, Nat.mul_zero, Nat.add_zero, Nat.mod_eq_of_lt hbits,
      Nat.div_eq_of_lt hbits]
    exact ⟨rfl, rfl⟩
  | cons character text ih =>
    rw [decodeFrom] at h
    obtain ⟨index, hindex, h⟩ := Option.bind_eq_some_iff.1 h
    have hshift := shift_div value index (indexOf_lt hindex) bits
    simp only at h
    rw [number, hindex, Option.getD_some, List.length_cons]
    split_ifs at h with hfull
    · -- a byte is complete
      obtain ⟨rest, hrest, h⟩ := Option.bind_eq_some_iff.1 h
      rw [Option.pure_def, Option.some.injEq] at h
      obtain ⟨hlength, hnumber⟩ := ih (by omega) hrest
      have hbyte := div_digit (value * 32 + index) (bits + 5 - 8) 8
      rw [show bits + 5 - 8 + 8 = bits + 5 by omega, hshift] at hbyte
      rw [← h, byteNumber, UInt8.toNat_ofNat', show (256 : ℕ) = 2 ^ 8 by rfl, hbyte, hnumber, List.length_cons, hlength]
      refine ⟨by omega, ?_⟩
      congr 2
      omega
    -- the digit only fills the bits that wait
    · obtain ⟨hlength, hnumber⟩ := ih (by omega) h
      rw [hshift] at hnumber
      rw [hnumber, hlength]
      refine ⟨by congr 1; omega, ?_⟩
      congr 3
      omega

theorem number_digit (n index : ℕ) (rest : List Char) :
    number n (digit index :: rest) = number (n * 2 ^ 5 + index % 2 ^ 5) rest := by
  rw [number, indexOf_digit, Option.getD_some]
  rfl

/-- The encoder writes the number of the bytes, with zeros for the bits that its last character lacks. -/
theorem number_encode {bits value : ℕ} (bytes : Bytes) (hbits : bits < 5) :
    (encodeFrom bits value bytes).length = (bits + 8 * bytes.length + 4) / 5 ∧
      number (value / 2 ^ bits) (encodeFrom bits value bytes) =
        byteNumber value bytes * 2 ^ (5 * ((bits + 8 * bytes.length + 4) / 5) - (bits + 8 * bytes.length)) := by
  induction bytes generalizing bits value with
  | nil =>
    interval_cases bits
    all_goals
      simp [encodeFrom, number_digit, number, byteNumber]
      try omega
  | cons byte bytes ih =>
    have htop := byte_div value bits byte
    rw [encodeFrom, byteNumber, List.length_cons]
    -- with two bits waiting the byte completes two digits, else one
    by_cases htwo : bits + 8 ≥ 10
    · obtain ⟨hlength, hnumber⟩ := @ih (bits + 8 - 10) (value * 256 + byte.toNat) (by omega)
      have hfirst := div_digit (value * 256 + byte.toNat) (bits + 8 - 5) 5
      have hsecond := div_digit (value * 256 + byte.toNat) (bits + 8 - 10) 5
      rw [show bits + 8 - 5 + 5 = bits + 8 by omega, htop] at hfirst
      rw [show bits + 8 - 10 + 5 = bits + 8 - 5 by omega] at hsecond
      rw [if_pos htwo, number_digit, number_digit, hfirst, hsecond, hnumber, List.length_cons, List.length_cons,
        hlength]
      refine ⟨by omega, ?_⟩
      congr 2
      omega
    · obtain ⟨hlength, hnumber⟩ := @ih (bits + 8 - 5) (value * 256 + byte.toNat) (by omega)
      have hfirst := div_digit (value * 256 + byte.toNat) (bits + 8 - 5) 5
      rw [show bits + 8 - 5 + 5 = bits + 8 by omega, htop] at hfirst
      rw [if_neg htwo, number_digit, hfirst, hnumber, List.length_cons, hlength]
      refine ⟨by omega, ?_⟩
      congr 2
      omega

/-- Texts of the alphabet with one length and one number are one text. -/
theorem eq_of_number {text text' : List Char} {value value' : ℕ} (hlength : text.length = text'.length)
    (h : ∀ c ∈ text, (indexOf c).isSome) (h' : ∀ c ∈ text', (indexOf c).isSome)
    (hnumber : number value text = number value' text') : value = value' ∧ text = text' := by
  induction text generalizing text' value value' with
  | nil =>
    cases text' with
    | nil => exact ⟨hnumber, rfl⟩
    | cons c' text' => simp at hlength
  | cons c text ih =>
    cases text' with
    | nil => simp at hlength
    | cons c' text' =>
      obtain ⟨index, hindex⟩ := Option.isSome_iff_exists.1 (h c List.mem_cons_self)
      obtain ⟨index', hindex'⟩ := Option.isSome_iff_exists.1 (h' c' List.mem_cons_self)
      have hlt := indexOf_lt hindex
      have hlt' := indexOf_lt hindex'
      rw [number, number, hindex, hindex', Option.getD_some, Option.getD_some] at hnumber
      obtain ⟨hvalue, htext⟩ := ih (by simpa using hlength) (fun c hc => h c (List.mem_cons_of_mem _ hc))
        (fun c hc => h' c (List.mem_cons_of_mem _ hc)) hnumber
      have hsame : index = index' := by omega
      rw [hsame] at hindex
      exact ⟨by omega, by rw [htext, indexOf_injective hindex hindex']⟩

/-- **Of the texts that decode**, the encoder's own are those with nothing left over. -/
theorem encode_eq_iff {text : List Char} {bytes : Bytes} (h : decodeFrom 0 0 text = some bytes) :
    encodeFrom 0 0 bytes = text ↔ Exact text := by
  obtain ⟨hlength, hnumber⟩ := byteNumber_decode (by decide) h
  obtain ⟨hlength', hnumber'⟩ := @number_encode 0 0 bytes (by decide)
  simp only [Nat.zero_add, Nat.zero_div] at hlength hnumber hlength' hnumber'
  unfold Exact
  constructor
  · intro heq
    rw [heq] at hlength' hnumber'
    have hpad : 5 * text.length % 8 = 5 * ((8 * bytes.length + 4) / 5) - 8 * bytes.length := by omega
    refine ⟨by omega, ?_⟩
    rw [hnumber', ← hpad]
    exact Nat.mul_mod_left _ _
  · rintro ⟨hlt, hzero⟩
    have hpad : 5 * ((8 * bytes.length + 4) / 5) - 8 * bytes.length = 5 * text.length % 8 := by omega
    rw [hpad, hnumber, Nat.div_mul_cancel (Nat.dvd_of_mod_eq_zero hzero)] at hnumber'
    have halphabet : ∀ c ∈ encodeFrom 0 0 bytes, (indexOf c).isSome := by
      intro c hc
      have hmem : c ∈ (encode bytes).toList := by
        rw [encode, String.toList_ofList]
        exact hc
      exact indexOf_of_mem_encode c hmem
    exact (eq_of_number (by omega) halphabet (indexOf_of_decodeFrom h) hnumber').2

end Base32
