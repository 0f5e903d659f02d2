import VayuWeb.Client.Cbor
import VayuWeb.DetCbor.Order

/-!
# The client's codec is a bijection

* `decode_eq_ok`: the client decodes exactly the deterministic encodings of at most 33 levels,
  and makes of each the value that stands there.
* `encodeValue_eq_ok`: it writes a value it can hold as the deterministic encoding of the value
  put in order.
* `codec_bijective`: so each of the two undoes the other.
-/

namespace VayuWeb.Client

open Bytes
open DetCbor (Key Value Canonical parseItems parseEntries parseValue keyFollows sortByKey)

/-! ## Heads and key order -/

/-- The client writes heads as the format has them. -/
theorem head_eq (major n : ℕ) : head major n = DetCbor.head major n := by
  unfold head DetCbor.head
  split_ifs <;> first | rfl | omega

/-- The comparison of keys is the lexical order of their bytes. -/
theorem compareEncoded_lt {a b : Bytes} : compareEncoded a b = .lt ↔ a < b := by
  induction a generalizing b with
  | nil => cases b <;> simp [compareEncoded, Nat.compare_eq_lt]
  | cons x a ih =>
    cases b with
    | nil => simp [compareEncoded, Nat.compare_eq_lt]
    | cons y b =>
      simp only [compareEncoded, List.cons_lt_cons_iff]
      split_ifs with h1 h2
      · simp [h2]
      · simp [h1, h2]
      · rw [ih]
        simp only [ne_eq, Decidable.not_not] at h1
        subst h1
        simp [UInt8.lt_irrefl]

theorem compareEncoded_eq {a b : Bytes} : compareEncoded a b = .eq ↔ a = b := by
  induction a generalizing b with
  | nil => cases b <;> simp [compareEncoded]
  | cons x a ih =>
    cases b with
    | nil => simp [compareEncoded]
    | cons y b =>
      simp only [compareEncoded]
      split_ifs with h1 h2
      · simp [h1]
      · simp [h1]
      · rw [ih]
        simp only [ne_eq, Decidable.not_not] at h1
        simp [h1]

theorem compareEncoded_gt {a b : Bytes} : compareEncoded a b = .gt ↔ b < a := by
  rcases DetCbor.bytes_trichotomy a b with h | h | h
  · rw [compareEncoded_lt.2 h]
    exact iff_of_false (by simp) fun hgt => List.lt_irrefl _ (List.lt_trans h hgt)
  · rw [compareEncoded_eq.2 h, h]
    exact iff_of_false (by simp) (List.lt_irrefl _)
  · refine iff_of_true ?_ h
    cases hc : compareEncoded a b with
    | gt => rfl
    | lt => exact absurd (List.lt_trans h (compareEncoded_lt.1 hc)) (List.lt_irrefl _)
    | eq =>
      rw [compareEncoded_eq.1 hc] at h
      exact absurd h (List.lt_irrefl _)

/-! ## Encoding -/

/-- The entries as `encode_value` collects them. -/
def withKeyBytes (es : List (Key × Value)) : List (Bytes × Value) := es.map fun e => (e.1.encode, e.2)

/-- Sorting by the encoded keys is sorting by the keys. -/
theorem sortEncoded_withKeyBytes (es : List (Key × Value)) :
    sortEncoded (withKeyBytes es) = withKeyBytes (sortByKey es) := by
  unfold sortEncoded withKeyBytes sortByKey
  refine (List.map_insertionSort _ _ (fun e : Key × Value => (e.1.encode, e.2)) es ?_).symm
  intro e _ f _
  simp only [DetCbor.Before, ne_eq, compareEncoded_gt]

theorem hasDuplicate_withKeyBytes {es : List (Key × Value)} (h : DetCbor.SortedKeys es) :
    hasDuplicate (withKeyBytes es) = false := by
  induction es with
  | nil => rfl
  | cons e es ih =>
    have htail := ih (List.pairwise_cons.1 h).2
    cases es with
    | nil => rfl
    | cons f es =>
      have hlt := compareEncoded_lt.2 ((List.pairwise_cons.1 h).1 f List.mem_cons_self)
      unfold withKeyBytes at *
      simp only [List.map_cons, hasDuplicate, hlt] at htail ⊢
      rw [htail]
      rfl

theorem encodeValue_key (lv : ℕ) (k : Key) : encodeValue (lv + 1) k.toValue = .ok k.encode := by
  cases k <;> simp only [Key.toValue, encodeValue, head_eq, Key.encode]

/-- **A value the client can hold is written in order.** -/
theorem encodeValue_eq_ok : ∀ lv v, Value.Fits v → v.KeysDistinct → v.depth < lv →
    encodeValue lv v = .ok v.sorted.encode := by
  intro lv
  induction lv with
  | zero =>
    intro v _ _ hdepth
    omega
  | succ lv ih =>
    intro v hfits hdistinct hdepth
    cases v with
    | uint n => simp only [encodeValue, head_eq, Value.sorted, Value.encode]
    | bytes b => simp only [encodeValue, head_eq, Value.sorted, Value.encode]
    | text s => simp only [encodeValue, head_eq, Value.sorted, Value.encode]
    | null => rfl
    | array xs =>
      rw [Value.Fits, DetCbor.itemsFit_iff] at hfits
      rw [Value.KeysDistinct, DetCbor.itemsKeysDistinct_iff] at hdistinct
      rw [Value.depth, DetCbor.itemsDepth_lt] at hdepth
      have hbody : xs.mapM (encodeValue lv) = .ok (xs.map fun x => x.sorted.encode) :=
        Except.mapM_ok fun x hx => ih x (hfits.2 x hx) (hdistinct x hx) (hdepth x hx)
      simp only [encodeValue, hbody, Except.ok_bind, Except.pure_eq_ok]
      rw [DetCbor.sorted_array, Value.encode, List.length_map, DetCbor.encodeItems_eq_flatten, List.map_map, head_eq]
      rfl
    | map es =>
      rw [Value.Fits, DetCbor.entriesFit_iff] at hfits
      rw [Value.KeysDistinct, DetCbor.entriesKeysDistinct_iff] at hdistinct
      rw [Value.depth, DetCbor.entriesDepth_lt] at hdepth
      have hperm := DetCbor.sortByKey_perm es
      -- an entry's value nests a level deeper, so there is one for its key
      have hkeys : (es.mapM fun e => do
          let keyBytes ← encodeValue lv e.1.toValue
          return (keyBytes, e.2)) = .ok (withKeyBytes es) := by
        apply Except.mapM_ok
        intro e he
        have hlt := hdepth e he
        obtain ⟨lv', rfl⟩ : ∃ lv', lv = lv' + 1 := ⟨lv - 1, by omega⟩
        rw [encodeValue_key]
        rfl
      have hsorted : DetCbor.SortedKeys (sortByKey es) :=
        DetCbor.sortedKeys_sortByKey (fun e he => (hfits.2 e he).1) hdistinct.1
      have hbody : ((withKeyBytes (sortByKey es)).mapM fun e => do
          let v ← encodeValue lv e.2
          return e.1 ++ v) = .ok ((withKeyBytes (sortByKey es)).map fun e => e.1 ++ e.2.sorted.encode) := by
        apply Except.mapM_ok
        intro e he
        obtain ⟨f, hf, rfl⟩ := List.mem_map.1 he
        have hmem := hperm.mem_iff.1 hf
        rw [ih f.2 (hfits.2 f hmem).2 (hdistinct.2 f hmem) (hdepth f hmem)]
        rfl
      simp only [encodeValue]
      rw [hkeys]
      simp only [Except.ok_bind, sortEncoded_withKeyBytes, hasDuplicate_withKeyBytes hsorted,
        Bool.false_eq_true, if_false]
      rw [hbody, DetCbor.sorted_map, Value.encode, List.length_map, DetCbor.encodeEntries_eq_flatten, head_eq]
      unfold withKeyBytes
      rw [List.length_map, List.map_map, List.map_map]
      rfl

/-! ## Decoding -/

theorem readArgument_toOption (reader : Bytes) (additional : ℕ) :
    (readArgument reader additional).toOption = DetCbor.readArgument additional reader := by
  unfold readArgument DetCbor.readArgument DetCbor.readWide
  by_cases hsmall : additional ≤ 23
  · rw [if_pos hsmall, if_pos (show additional < 24 by omega)]
    rfl
  rw [if_neg hsmall, if_neg (show ¬ additional < 24 by omega)]
  -- one case for each width of the argument
  split_ifs with h2 h3 h4 h5 h6
  · cases reader with
    | nil => rfl
    | cons b reader =>
      have hs : splitAt? 1 (b :: reader) = some ([b], reader) := splitAt?_append [b] reader
      have hb : beNat [b] = b.toNat := by simp [beNat]
      simp only [byte, hs, hb, Except.ok_bind, UInt8.lt_iff_toNat_lt]
      split_ifs with h <;> simp_all [show (24 : UInt8).toNat = 24 from rfl]
  · simp only [take]
    cases splitAt? 2 reader with
    | none => rfl
    | some r => simp only [Except.ok_bind]; split_ifs <;> first | rfl | omega
  · simp only [take]
    cases splitAt? 4 reader with
    | none => rfl
    | some r => simp only [Except.ok_bind]; split_ifs <;> first | rfl | omega
  · simp only [take]
    cases splitAt? 8 reader with
    | none => rfl
    | some r => simp only [Except.ok_bind]; split_ifs <;> first | rfl | omega
  · rfl
  · rfl

theorem take_toOption (n : ℕ) (reader : Bytes) : (take n reader).toOption = splitAt? n reader := by
  unfold take
  cases splitAt? n reader <;> rfl

theorem asKey_toOption (v : Value) : (asKey v).toOption = DetCbor.asKey v := by
  cases v <;> rfl

theorem checkOrder_toOption (previousKey : Option Bytes) (k : Bytes) :
    (checkOrder previousKey k).toOption = if keyFollows previousKey k then some () else none := by
  cases previousKey with
  | none => rfl
  | some p =>
    simp only [checkOrder, keyFollows, decide_eq_true_eq, ← compareEncoded_lt]
    cases h : compareEncoded p k <;> simp

section Loops

variable {item : Bytes → Except CborError (Value × Bytes)} {pitem : Bytes → Option (Value × Bytes)}

/-- The items of an array decode as they parse. -/
theorem decodeItems_toOption (hitem : ∀ reader, (item reader).toOption = pitem reader) (len : ℕ)
    (reader : Bytes) : (decodeItems item len reader).toOption = parseItems pitem len reader := by
  induction len generalizing reader with
  | zero => rfl
  | succ len ih =>
    simp only [decodeItems, parseItems, Except.toOption_bind, hitem]
    cases pitem reader with
    | none => rfl
    | some p =>
      simp only [Option.bind_some, ih]
      cases parseItems pitem len p.2 <;> rfl

/-- The entries of a map decode as they parse. -/
theorem decodeEntries_toOption (hitem : ∀ reader, (item reader).toOption = pitem reader) (len : ℕ)
    (previousKey : Option Bytes) (reader : Bytes) :
    (decodeEntries item len previousKey reader).toOption = parseEntries pitem len previousKey reader := by
  induction len generalizing previousKey reader with
  | zero => rfl
  | succ len ih =>
    simp only [decodeEntries, parseEntries, Except.toOption_bind, hitem]
    cases pitem reader with
    | none => rfl
    | some p =>
      simp only [Option.bind_some, asKey_toOption, checkOrder_toOption]
      cases DetCbor.asKey p.1 with
      | none => rfl
      | some k =>
        simp only [Option.bind_some]
        split_ifs
        · simp only [Option.bind_some, ih]
          cases pitem p.2 with
          | none => rfl
          | some q =>
            simp only [Option.bind_some]
            cases parseEntries pitem len (some _) q.2 <;> rfl
        · rfl

end Loops

/-- **The client decodes what stands on the wire.** -/
theorem decodeValue_toOption (lv : ℕ) : ∀ reader, (decodeValue lv reader).toOption = parseValue lv reader := by
  induction lv with
  | zero => intro reader; rfl
  | succ lv ih =>
    intro reader
    cases reader with
    | nil => rfl
    | cons initial reader =>
      simp only [decodeValue, byte, Except.ok_bind, parseValue]
      generalize initial.toNat / 32 = major
      -- one case for each major type; the guards on a length only fail earlier what fails anyway
      split
      · simp only [Except.toOption_bind, readArgument_toOption]
        cases DetCbor.readArgument (initial.toNat % 32) reader <;> rfl
      · simp only [Except.toOption_bind, readArgument_toOption]
        cases DetCbor.readArgument (initial.toNat % 32) reader with
        | none => rfl
        | some r =>
          simp only [Option.bind_some]
          split_ifs with hlen
          · simp only [splitAt?, if_neg (show ¬ r.1 ≤ r.2.length by omega)]
            rfl
          · simp only [Except.toOption_bind, take_toOption]
            cases splitAt? r.1 r.2 <;> rfl
      · simp only [Except.toOption_bind, readArgument_toOption]
        cases DetCbor.readArgument (initial.toNat % 32) reader with
        | none => rfl
        | some r =>
          simp only [Option.bind_some]
          split_ifs with hlen
          · simp only [splitAt?, if_neg (show ¬ r.1 ≤ r.2.length by omega)]
            rfl
          · simp only [Except.toOption_bind, take_toOption]
            cases splitAt? r.1 r.2 with
            | none => rfl
            | some q =>
              simp only [Option.bind_some]
              cases utf8Decode q.1 <;> rfl
      · simp only [Except.toOption_bind, readArgument_toOption]
        cases DetCbor.readArgument (initial.toNat % 32) reader with
        | none => rfl
        | some r =>
          simp only [Option.bind_some]
          split_ifs with hlen
          · cases hitems : parseItems (parseValue lv) r.1 r.2 with
            | none => rfl
            | some p =>
              have hcount := DetCbor.parseItems_count hitems
              omega
          · simp only [Except.toOption_bind, decodeItems_toOption ih]
            cases parseItems (parseValue lv) r.1 r.2 <;> rfl
      · simp only [Except.toOption_bind, readArgument_toOption, decodeEntries_toOption ih]
        cases DetCbor.readArgument (initial.toNat % 32) reader with
        | none => rfl
        | some r =>
          simp only [Option.bind_some]
          cases parseEntries (parseValue lv) r.1 none r.2 <;> rfl
      · split_ifs <;> rfl
      · simp

/-! ## Round trips -/

/-- Bytes decode to a value exactly where they are its canonical encoding. -/
theorem decode_eq_ok {b : Bytes} {v : Value} :
    decode b = .ok v ↔ Canonical (maxDepth + 1) v ∧ b = v.encode := by
  rw [← DetCbor.parse_eq_some, ← Except.toOption_eq_some]
  unfold decode DetCbor.parse
  rw [Except.toOption_bind, decodeValue_toOption]
  cases parseValue (maxDepth + 1) b with
  | none => simp
  | some p =>
    obtain ⟨w, rest⟩ := p
    cases rest <;> simp

/-- What was decoded is written back. -/
theorem encode_of_decode {b : Bytes} {v : Value} (h : decode b = .ok v) : encode v = .ok b := by
  obtain ⟨hcanonical, rfl⟩ := decode_eq_ok.1 h
  obtain ⟨hfits, hdistinct, hdepth, hsorted⟩ := DetCbor.sorted_of_canonical _ _ hcanonical
  have hencode := encodeValue_eq_ok (maxDepth + 1) v hfits hdistinct hdepth
  rw [hsorted] at hencode
  exact hencode

/-- What was encoded is read back, in order. -/
theorem decode_of_encode {v : Value} (hfits : v.Fits) (hdistinct : v.KeysDistinct) (hdepth : v.depth ≤ maxDepth) :
    ∃ b, encode v = .ok b ∧ decode b = .ok v.sorted := by
  have hdepth' : v.depth < maxDepth + 1 := by omega
  refine ⟨v.sorted.encode, encodeValue_eq_ok _ v hfits hdistinct hdepth', ?_⟩
  exact decode_eq_ok.2 ⟨DetCbor.canonical_sorted _ v hfits hdistinct hdepth', rfl⟩

/-- **The codec is a bijection** between the values the client can hold, up to the order of their
maps, and the deterministic encodings. -/
theorem codec_bijective :
    (∀ b v, decode b = .ok v → encode v = .ok b) ∧
      ∀ v, Value.Fits v → v.KeysDistinct → v.depth ≤ maxDepth →
        ∃ b, encode v = .ok b ∧ decode b = .ok v.sorted := by
  constructor
  · intro b v hv
    exact encode_of_decode hv
  · intro v hfits hdistinct hdepth
    exact decode_of_encode hfits hdistinct hdepth

/-- A map that is out of order comes back in order. -/
theorem codec_orders_map : ∃ b, encode (.map [(.text "b", .uint 1), (.text "a", .null)]) = .ok b ∧
    decode b = .ok (.map [(.text "a", .null), (.text "b", .uint 1)]) := by
  have hfits : (Value.map [(.text "b", .uint 1), (.text "a", .null)]).Fits := by
    simp only [Value.Fits, DetCbor.entriesFit, DetCbor.Key.Fits]
    decide
  have hdistinct : (Value.map [(.text "b", .uint 1), (.text "a", .null)]).KeysDistinct := by
    simp only [Value.KeysDistinct, DetCbor.entriesKeysDistinct]
    decide
  exact codec_bijective.2 _ hfits hdistinct (by decide)

end VayuWeb.Client
