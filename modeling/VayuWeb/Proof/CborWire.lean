import VayuWeb.Spec.Cbor

/-!
# The TypeScript codec and the wire

* `decodeValue_toOption`: the decoder reads exactly the deterministic encodings, and
  `ofWire` says which value it makes of what stands on the wire.
* `encodeValue_ofWire`: written out again, that value gives the bytes back when no text on
  the wire starts with a byte order mark, and only then.
-/

namespace VayuWeb

open Bytes
open DetCbor (Key Value Canonical parseItems parseEntries parseValue asKey keyFollows head)

/-! ## Text -/

/-- What `textDecoder` makes of a string on the wire. -/
def dropBom (s : String) : String := (textDecoderSafe (utf8Encode s)).getD ""

theorem textDecoderSafe_bom_append (r : Bytes) : textDecoderSafe (bom ++ r) = utf8Decode r := by
  unfold textDecoderSafe
  rw [if_pos (by simp), List.drop_left]

/-- A text starts with a mark exactly where its bytes do. -/
theorem startsWithBom_iff {s : String} :
    DetCbor.startsWithBom s = true ↔ ∃ r, utf8Encode s = bom ++ r := by
  unfold DetCbor.startsWithBom
  rw [List.isPrefixOf_iff_prefix]
  constructor
  · rintro ⟨r, hr⟩; exact ⟨r, hr.symm⟩
  · rintro ⟨r, hr⟩; exact ⟨r, hr.symm⟩

/-- The rest of a well-formed string after its byte order mark is well formed. -/
theorem utf8Decode_of_bom {s : String} {r : Bytes} (h : utf8Encode s = bom ++ r) :
    ∃ t, utf8Decode r = some t := by
  have hd := utf8Decode_utf8Encode s
  rw [h, utf8Decode_bom_append] at hd
  cases hr : utf8Decode r with
  | none => simp [hr] at hd
  | some t => exact ⟨t, rfl⟩

theorem textDecoderSafe_utf8Encode (s : String) :
    textDecoderSafe (utf8Encode s) = some (dropBom s) := by
  unfold dropBom
  by_cases hb : DetCbor.startsWithBom s = true
  · obtain ⟨r, hr⟩ := startsWithBom_iff.1 hb
    obtain ⟨t, ht⟩ := utf8Decode_of_bom hr
    rw [hr, textDecoderSafe_bom_append, ht, Option.getD_some]
  · unfold textDecoderSafe
    rw [if_neg (show ¬ bom.isPrefixOf (utf8Encode s) = true from hb), utf8Decode_utf8Encode,
      Option.getD_some]

/-- The decoder decodes and drops a leading mark. -/
theorem textDecoderSafe_eq (raw : Bytes) : textDecoderSafe raw = (utf8Decode raw).map dropBom := by
  cases h : utf8Decode raw with
  | some s => rw [utf8Decode_eq_some] at h; subst h; exact textDecoderSafe_utf8Encode s
  | none =>
    unfold textDecoderSafe
    split_ifs with hb
    · obtain ⟨r, rfl⟩ := List.isPrefixOf_iff_prefix.1 hb
      rw [utf8Decode_bom_append] at h
      rw [List.drop_left]
      simpa using h
    · exact h

theorem dropBom_of_not {s : String} (h : DetCbor.startsWithBom s = false) : dropBom s = s := by
  unfold DetCbor.startsWithBom at h
  have h1 := textDecoderSafe_utf8Encode s
  unfold textDecoderSafe at h1
  rw [if_neg (by rw [h]; simp), utf8Decode_utf8Encode] at h1
  exact (Option.some.inj h1).symm

/-- A dropped mark makes a text shorter. -/
theorem length_dropBom {s : String} (h : DetCbor.startsWithBom s = true) :
    (utf8Encode (dropBom s)).length < (utf8Encode s).length := by
  obtain ⟨r, hr⟩ := startsWithBom_iff.1 h
  have h1 := textDecoderSafe_utf8Encode s
  rw [hr, textDecoderSafe_bom_append, utf8Decode_eq_some] at h1
  rw [h1, hr, List.length_append]
  exact Nat.lt_add_of_pos_left (by decide)

theorem length_dropBom_le (s : String) : (utf8Encode (dropBom s)).length ≤ (utf8Encode s).length := by
  cases h : DetCbor.startsWithBom s with
  | true => exact (length_dropBom h).le
  | false => rw [dropBom_of_not h]

/-! ## Heads and key order -/

/-- A head is written up to 64 bits. -/
theorem writeHead_eq (major n : ℕ) :
    writeHead major n = if n < 2 ^ 64 then .ok (head major n)
      else .error ⟨.argumentTooLarge, "argument exceeds 64 bits"⟩ := by
  unfold writeHead head
  split_ifs <;> first | rfl | omega

theorem compareBytes_eq {a b : Bytes} : compareBytes a b = .eq ↔ a = b := by
  induction a generalizing b with
  | nil => cases b <;> simp [compareBytes]
  | cons x a ih =>
    cases b with
    | nil => simp [compareBytes]
    | cons y b =>
      simp only [compareBytes]
      split_ifs with h1 h2
      · simp [h1]
      · simp [h1]
      · simp only [ne_eq, Decidable.not_not] at h1; subst h1; simp [ih]

/-- The comparison of bytes is the lexical order. -/
theorem compareBytes_lt {a b : Bytes} : compareBytes a b = .lt ↔ a < b := by
  induction a generalizing b with
  | nil => cases b <;> simp [compareBytes]
  | cons x a ih =>
    cases b with
    | nil => simp [compareBytes]
    | cons y b =>
      simp only [compareBytes, List.cons_lt_cons_iff]
      split_ifs with h1 h2
      · simp [h2]
      · simp [h1, h2]
      · simp only [ne_eq, Decidable.not_not] at h1; subst h1; simp [ih, UInt8.lt_irrefl]

/-- Keys are in order where each follows the one before. -/
theorem checkOrder_toOption (previousKey : Option Bytes) (k : Bytes) :
    (checkOrder previousKey k).toOption = if keyFollows previousKey k then some () else none := by
  cases previousKey with
  | none => rfl
  | some p =>
    simp only [checkOrder, keyFollows, decide_eq_true_eq, ← compareBytes_lt]
    cases h : compareBytes p k <;> simp

/-! ## What the decoder makes of a value on the wire -/

/-- The key a decoder that drops byte order marks makes of a key on the wire. -/
def keyOfWire : Key → Key
  | .text s => .text (dropBom s)
  | .bytes b => .bytes b

mutual

/-- The value the decoder makes of a value on the wire. -/
def ofWire : Value → CborValue
  | .uint n => if n ≤ maxSafeInteger then .number n else .bigint n
  | .bytes b => .bytes b
  | .text s => .text (dropBom s)
  | .array xs => .array (ofWireItems xs)
  | .map es => .map (ofWireEntries [] es)
  | .null => .null

/-- `ofWire` on every item of an array. -/
def ofWireItems : List Value → List CborValue
  | [] => []
  | x :: xs => ofWire x :: ofWireItems xs

/-- The entries are set one after the other. -/
def ofWireEntries : CborMap → List (Key × Value) → CborMap
  | out, [] => out
  | out, (k, v) :: es => ofWireEntries (out.set (keyOfWire k) (ofWire v)) es

end

theorem ofWireItems_eq_map (xs : List Value) : ofWireItems xs = xs.map ofWire := by
  induction xs with
  | nil => rfl
  | cons x xs ih => simp [ofWireItems, ih]

theorem readArgument_toOption (additional : ℕ) (bs : Bytes) :
    (readArgument additional bs).toOption = DetCbor.readArgument additional bs := by
  unfold readArgument DetCbor.readArgument DetCbor.readWide
  split_ifs with h1 h2 h3 h4 h5 h6
  · rfl
  · cases bs with
    | nil => rfl
    | cons b bs =>
      have hs : splitAt? 1 (b :: bs) = some ([b], bs) := splitAt?_append [b] bs
      have hb : beNat [b] = b.toNat := by simp [beNat]
      simp only [byte, hs, hb, Except.ok_bind, UInt8.lt_iff_toNat_lt]
      split_ifs with h <;> simp_all [show (24 : UInt8).toNat = 24 from rfl]
  · simp only [take]
    cases splitAt? 2 bs with
    | none => rfl
    | some r => simp only [Except.ok_bind]; split_ifs <;> first | rfl | omega
  · simp only [take]
    cases splitAt? 4 bs with
    | none => rfl
    | some r => simp only [Except.ok_bind]; split_ifs <;> first | rfl | omega
  · simp only [take]
    cases splitAt? 8 bs with
    | none => rfl
    | some r => simp only [Except.ok_bind]; split_ifs <;> first | rfl | omega
  · rfl
  · rfl

theorem take_toOption (n : ℕ) (bs : Bytes) : (take n bs).toOption = splitAt? n bs := by
  unfold take; cases splitAt? n bs <;> rfl

theorem asMapKey_toOption (w : Value) : (asMapKey (ofWire w)).toOption = (asKey w).map keyOfWire := by
  cases w with
  | uint n => simp only [ofWire]; split_ifs <;> rfl
  | _ => rfl

section Loops

variable {total : ℕ} {item : Bytes → Except CborError (CborValue × Bytes)}
  {pitem : Bytes → Option (Value × Bytes)}

/-- `item` decodes what `pitem` reads, on inputs of at most `total` bytes. -/
def Decodes (total : ℕ) (item : Bytes → Except CborError (CborValue × Bytes))
    (pitem : Bytes → Option (Value × Bytes)) : Prop :=
  ∀ bs : Bytes, bs.length ≤ total →
    (item bs).toOption = (pitem bs).map fun p => (ofWire p.1, p.2)

/-- `pitem` never returns more bytes than it was given. -/
def Consumes (pitem : Bytes → Option (Value × Bytes)) : Prop :=
  ∀ (bs : Bytes) p, pitem bs = some p → p.2.length ≤ bs.length

/-- The items of an array decode as they parse. -/
theorem decodeItems_toOption (hd : Decodes total item pitem) (hc : Consumes pitem) :
    ∀ len out (bs : Bytes), bs.length ≤ total → (decodeItems item len out bs).toOption =
      (parseItems pitem len bs).map fun p => (out ++ p.1.map ofWire, p.2) := by
  intro len
  induction len with
  | zero => intro out bs _; simp [decodeItems, parseItems]
  | succ len ih =>
    intro out bs hbs
    simp only [decodeItems, parseItems, Except.toOption_bind, hd bs hbs]
    cases h : pitem bs with
    | none => rfl
    | some p =>
      have hp := hc bs p h
      simp only [Option.map_some, Option.bind_some]
      rw [ih _ _ (by omega)]
      cases parseItems pitem len p.2 <;> simp

/-- The entries of a map decode as they parse. -/
theorem decodeEntries_toOption (hd : Decodes total item pitem) (hc : Consumes pitem) :
    ∀ len previousKey out (bs : Bytes), bs.length ≤ total →
      (decodeEntries item len previousKey out bs).toOption =
        (parseEntries pitem len previousKey bs).map fun p => (ofWireEntries out p.1, p.2) := by
  intro len
  induction len with
  | zero => intro previousKey out bs _; simp [decodeEntries, parseEntries, ofWireEntries]
  | succ len ih =>
    intro previousKey out bs hbs
    simp only [decodeEntries, parseEntries, Except.toOption_bind, hd bs hbs]
    cases h : pitem bs with
    | none => rfl
    | some p =>
      have hp := hc bs p h
      simp only [Option.map_some, Option.bind_some, asMapKey_toOption, checkOrder_toOption]
      cases asKey p.1 with
      | none => rfl
      | some k =>
        simp only [Option.map_some, Option.bind_some]
        split_ifs
        · simp only [Option.bind_some, hd p.2 (by omega)]
          cases h2 : pitem p.2 with
          | none => rfl
          | some q =>
            have hq := hc _ q h2
            simp only [Option.map_some, Option.bind_some]
            rw [ih _ _ _ (by omega)]
            cases parseEntries pitem len (some _) q.2 <;> simp [ofWireEntries]
        · rfl

end Loops

theorem toLength_toOption (argument limit : ℕ) :
    (toLength argument limit).toOption = if argument ≤ limit then some argument else none := by
  unfold toLength; split_ifs <;> first | rfl | omega

/-- Parsing never gives bytes back. -/
theorem parseValue_consumes (lv : ℕ) : Consumes (parseValue lv) := by
  intro bs p h
  obtain ⟨-, rfl⟩ := (DetCbor.parseValue_eq_some lv bs p.1 p.2).1 h
  simp

theorem readArgument_length {info n : ℕ} {bs rest : Bytes}
    (h : DetCbor.readArgument info bs = some (n, rest)) : rest.length ≤ bs.length := by
  rcases DetCbor.readArgument_eq_some.1 h with ⟨-, -, rfl⟩ | ⟨-, rfl, -⟩ | ⟨-, rfl, -⟩ | ⟨-, rfl, -⟩ |
    ⟨-, rfl, -⟩ <;> simp

/-- **The decoder reads what stands on the wire**, and makes `ofWire` of it. -/
theorem decodeValue_toOption (total : ℕ) : ∀ lv, Decodes total (decodeValue total lv) (parseValue lv) := by
  intro lv
  induction lv with
  | zero => intro bs _; rfl
  | succ lv ih =>
    intro bs hbs
    cases bs with
    | nil => rfl
    | cons initial bs =>
      simp only [List.length_cons] at hbs
      simp only [decodeValue, byte, Except.ok_bind, parseValue]
      -- a length the input cannot hold is refused early by one and late by the other
      have hlen : ∀ {n : ℕ} {rest : Bytes}, DetCbor.readArgument (initial.toNat % 32) bs = some (n, rest) →
          rest.length ≤ total := fun h => (readArgument_length h).trans (by omega)
      generalize initial.toNat / 32 = major
      split
      · simp only [Except.toOption_bind, readArgument_toOption]
        cases DetCbor.readArgument (initial.toNat % 32) bs <;> simp [ofWire]
      · simp only [Except.toOption_bind, readArgument_toOption, toLength_toOption, take_toOption]
        cases h : DetCbor.readArgument (initial.toNat % 32) bs with
        | none => rfl
        | some r =>
          have := hlen h
          simp only [Option.bind_some]
          split_ifs with hn
          · simp only [Option.bind_some]
            cases splitAt? r.1 r.2 <;> simp [ofWire]
          · simp only [splitAt?, if_neg (show ¬ r.1 ≤ r.2.length by omega), Option.bind_none,
              Option.map_none]
      · simp only [Except.toOption_bind, readArgument_toOption, toLength_toOption, take_toOption]
        cases h : DetCbor.readArgument (initial.toNat % 32) bs with
        | none => rfl
        | some r =>
          have := hlen h
          simp only [Option.bind_some]
          split_ifs with hn
          · simp only [Option.bind_some]
            cases splitAt? r.1 r.2 with
            | none => rfl
            | some q =>
              simp only [Option.bind_some, textDecoderSafe_eq]
              cases utf8Decode q.1 <;> simp [ofWire]
          · simp only [splitAt?, if_neg (show ¬ r.1 ≤ r.2.length by omega), Option.bind_none,
              Option.map_none]
      · simp only [Except.toOption_bind, readArgument_toOption, toLength_toOption]
        cases h : DetCbor.readArgument (initial.toNat % 32) bs with
        | none => rfl
        | some r =>
          have := hlen h
          simp only [Option.bind_some]
          split_ifs with hn
          · simp only [Option.bind_some,
              decodeItems_toOption ih (parseValue_consumes lv) _ _ _ this]
            cases parseItems (parseValue lv) r.1 r.2 <;> simp [ofWire, ofWireItems_eq_map]
          · cases hp : parseItems (parseValue lv) r.1 r.2 with
            | none => rfl
            | some p => have := DetCbor.parseItems_count hp; omega
      · simp only [Except.toOption_bind, readArgument_toOption, toLength_toOption]
        cases h : DetCbor.readArgument (initial.toNat % 32) bs with
        | none => rfl
        | some r =>
          have := hlen h
          simp only [Option.bind_some]
          split_ifs with hn
          · simp only [Option.bind_some,
              decodeEntries_toOption ih (parseValue_consumes lv) _ _ _ _ this]
            cases parseEntries (parseValue lv) r.1 none r.2 <;> simp [ofWire]
          · cases hp : parseEntries (parseValue lv) r.1 none r.2 with
            | none => rfl
            | some p => have := DetCbor.parseEntries_count hp; omega
      · split_ifs <;> simp [ofWire]
      · simp

/-- **`decode` accepts exactly the deterministic encodings.** -/
theorem decode_eq_ok {bs : Bytes} {v : CborValue} :
    decode bs = .ok v ↔ ∃ w, DetCbor.parse 33 bs = some w ∧ ofWire w = v := by
  rw [← Except.toOption_eq_some]
  unfold decode DetCbor.parse
  rw [Except.toOption_bind, decodeValue_toOption bs.length 33 bs le_rfl]
  cases parseValue 33 bs with
  | none => simp
  | some p =>
    obtain ⟨w, rest⟩ := p
    cases rest <;> simp [eq_comm]

end VayuWeb
