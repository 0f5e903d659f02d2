import VayuWeb.Base.Bytes

/-!
# Decoding text without refusals

UTF-8 in which each ill-formed part reads as U+FFFD. A part ends where the next byte cannot
continue it, and that byte is read again as the first of a character.

* `decode_utf8Encode`: well-formed text comes back, but for one leading byte order mark.
-/

namespace TextDecoder

open Bytes

/-- A character under way: how many bytes it lacks, its bits so far, and between what the next byte
must lie. -/
structure Pending where
  lacks : ℕ
  bits : ℕ
  lower : ℕ
  upper : ℕ
  deriving DecidableEq, Repr

/-- U+FFFD. -/
def replacement : Char := '\uFFFD'

/-- The first byte of a character: a whole one, the beginning of one, or neither. -/
def first (b : ℕ) : List Char × Option Pending :=
  if b < 0x80 then ([Char.ofNat b], none)
  else if 0xC2 ≤ b ∧ b ≤ 0xDF then ([], some ⟨1, b - 0xC0, 0x80, 0xBF⟩)
  else if 0xE0 ≤ b ∧ b ≤ 0xEF then
    ([], some ⟨2, b - 0xE0, if b = 0xE0 then 0xA0 else 0x80, if b = 0xED then 0x9F else 0xBF⟩)
  else if 0xF0 ≤ b ∧ b ≤ 0xF4 then
    ([], some ⟨3, b - 0xF0, if b = 0xF0 then 0x90 else 0x80, if b = 0xF4 then 0x8F else 0xBF⟩)
  else ([replacement], none)

/-- The decoder that replaces what is malformed, with what it waits for. -/
def replacing : Option Pending → Bytes → List Char
  | none, [] => []
  | some _, [] => [replacement]
  | none, b :: bs =>
    let (out, pending) := first b.toNat
    out ++ replacing pending bs
  | some p, b :: bs =>
    if p.lower ≤ b.toNat ∧ b.toNat ≤ p.upper then
      let bits := p.bits * 64 + (b.toNat - 0x80)
      if p.lacks = 1 then Char.ofNat bits :: replacing none bs
      else replacing (some ⟨p.lacks - 1, bits, 0x80, 0xBF⟩) bs
    else
      let (out, pending) := first b.toNat
      replacement :: out ++ replacing pending bs

/-- Well-formed input is read off as it stands. -/
def decodeText (bytes : Bytes) : String :=
  match utf8Decode bytes with
  | some text => text
  | none => String.ofList (replacing none bytes)

/-- One leading byte order mark is no part of the text. -/
def decode (bytes : Bytes) : String :=
  if bom.isPrefixOf bytes then decodeText (bytes.drop bom.length) else decodeText bytes

example : replacing none [0x61, 0xE2, 0x82, 0x61, 0xF0, 0x9F, 0x98, 0x80, 0xC0] =
    ['a', replacement, 'a', '😀', replacement] := by decide

/-- A text comes back from its encoding. -/
theorem decodeText_utf8Encode (text : String) : decodeText (utf8Encode text) = text := by
  rw [decodeText, utf8Decode_utf8Encode]

/-- The text without a leading byte order mark. -/
def stripped (text : String) : String :=
  if text.toList.head? = some '\uFEFF' then String.ofList text.toList.tail else text

theorem utf8Encode_cons (c : Char) (chars : List Char) :
    utf8Encode (String.ofList (c :: chars)) = utf8Encode (String.singleton c) ++ utf8Encode (String.ofList chars) := by
  rw [← utf8Encode_append]
  congr 1
  apply String.toList_inj.1
  simp

theorem ofList_tail {c : Char} {text : String} (h : text.toList.head? = some c) :
    text = String.ofList (c :: text.toList.tail) := by
  cases htext : text.toList with
  | nil => simp [htext] at h
  | cons c' chars =>
    rw [htext, List.head?_cons, Option.some.injEq] at h
    rw [← h, List.tail_cons, ← htext, String.ofList_toList]

theorem utf8Encode_marked {text : String} (h : text.toList.head? = some '\uFEFF') :
    utf8Encode text = bom ++ utf8Encode (String.ofList text.toList.tail) := by
  have hmark : String.singleton '\uFEFF' = "\uFEFF" := rfl
  conv_lhs => rw [ofList_tail h, utf8Encode_cons, hmark, utf8Encode_bom]

/-- A text begins with the mark's bytes only when it begins with the mark. -/
theorem bom_isPrefixOf {text : String} : bom.isPrefixOf (utf8Encode text) ↔ text.toList.head? = some '\uFEFF' := by
  rw [List.isPrefixOf_iff_prefix]
  constructor
  · rintro ⟨rest, hrest⟩
    have hdecode := utf8Decode_utf8Encode text
    rw [← hrest, utf8Decode_bom_append] at hdecode
    obtain ⟨text', -, htext⟩ := Option.map_eq_some_iff.1 hdecode
    rw [← htext, String.toList_append]
    rfl
  · intro hhead
    rw [utf8Encode_marked hhead]
    exact List.prefix_append _ _

/-- **Well-formed text comes back**, but for one leading byte order mark. -/
theorem decode_utf8Encode (text : String) : decode (utf8Encode text) = stripped text := by
  rw [decode, stripped]
  by_cases hhead : text.toList.head? = some '\uFEFF'
  · rw [if_pos hhead, if_pos (bom_isPrefixOf.2 hhead), utf8Encode_marked hhead, List.drop_left,
      decodeText_utf8Encode]
  · rw [if_neg hhead, if_neg (mt bom_isPrefixOf.1 hhead), decodeText_utf8Encode]

end TextDecoder
