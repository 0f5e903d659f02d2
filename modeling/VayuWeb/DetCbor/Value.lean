import VayuWeb.Base.Bytes

/-!
# Deterministic CBOR: values and their one encoding

The data model of the deterministic profile of RFC 8949 §4.2.1 restricted to
unsigned integers, byte strings, text strings, arrays, maps with text or byte
string keys, and null. `Value.encode` writes a value as it stands, entries in the
order given; `Canonical lv v` says that what it writes is deterministic and nests
at most `lv` levels: arguments fit 64 bits and map entries come in strictly
increasing order of their encoded keys.
-/

namespace DetCbor

open Bytes

/-- A map key. -/
inductive Key where
  | text (s : String)
  | bytes (b : Bytes)
  deriving DecidableEq, Repr

/-- A value of the profile. -/
inductive Value where
  | uint (n : ℕ)
  | bytes (b : Bytes)
  | text (s : String)
  | array (xs : List Value)
  | map (es : List (Key × Value))
  | null

/-! ## Heads -/

/-- A head in its shortest form: the major type and the argument `n`. -/
def head (major n : ℕ) : Bytes :=
  if n < 24 then [UInt8.ofNat (major * 32 + n)]
  else if n < 2 ^ 8 then UInt8.ofNat (major * 32 + 24) :: beBytes 1 n
  else if n < 2 ^ 16 then UInt8.ofNat (major * 32 + 25) :: beBytes 2 n
  else if n < 2 ^ 32 then UInt8.ofNat (major * 32 + 26) :: beBytes 4 n
  else UInt8.ofNat (major * 32 + 27) :: beBytes 8 n

theorem head_length_pos (major n : ℕ) : 0 < (head major n).length := by
  unfold head; split_ifs <;> simp

/-- A larger argument never has a shorter head. -/
theorem head_length_mono (major : ℕ) {m n : ℕ} (h : m ≤ n) :
    (head major m).length ≤ (head major n).length := by
  unfold head; split_ifs <;> simp only [List.length_cons, length_beBytes, List.length_nil] <;> omega

/-! ## Encoding -/

/-- The encoding of a key. -/
def Key.encode : Key → Bytes
  | .text s => head 3 (utf8Encode s).length ++ utf8Encode s
  | .bytes b => head 2 b.length ++ b

mutual

/-- The encoding of a value, entries and items in the order given. -/
def Value.encode : Value → Bytes
  | .uint n => head 0 n
  | .bytes b => head 2 b.length ++ b
  | .text s => head 3 (utf8Encode s).length ++ utf8Encode s
  | .array xs => head 4 xs.length ++ encodeItems xs
  | .map es => head 5 es.length ++ encodeEntries es
  | .null => [0xF6]

/-- The encodings of an array's items, one after another. -/
def encodeItems : List Value → Bytes
  | [] => []
  | x :: xs => x.encode ++ encodeItems xs

/-- The encodings of a map's entries, one after another. -/
def encodeEntries : List (Key × Value) → Bytes
  | [] => []
  | (k, v) :: es => k.encode ++ v.encode ++ encodeEntries es

end

/-- A key as the value it is on the wire. -/
def Key.toValue : Key → Value
  | .text s => .text s
  | .bytes b => .bytes b

@[simp] theorem Key.encode_toValue (k : Key) : k.toValue.encode = k.encode := by
  cases k <;> simp [Key.toValue, Value.encode, Key.encode]

theorem encodeItems_eq_flatten (xs : List Value) : encodeItems xs = (xs.map Value.encode).flatten := by
  induction xs with
  | nil => rfl
  | cons x xs ih => simp [encodeItems, ih]

theorem encodeEntries_eq_flatten (es : List (Key × Value)) :
    encodeEntries es = (es.map fun e => e.1.encode ++ e.2.encode).flatten := by
  induction es with
  | nil => rfl
  | cons e es ih => simp [encodeEntries, ih]

/-- The entries are in strictly increasing order of their encoded keys. -/
def SortedKeys (es : List (Key × Value)) : Prop := es.Pairwise fun e f => e.1.encode < f.1.encode

/-- `v` nests at most `lv` levels, and its encoding is deterministic. -/
def Canonical : ℕ → Value → Prop
  | 0, _ => False
  | _ + 1, .uint n => n < 2 ^ 64
  | _ + 1, .bytes b => b.length < 2 ^ 64
  | _ + 1, .text s => (utf8Encode s).length < 2 ^ 64
  | lv + 1, .array xs => xs.length < 2 ^ 64 ∧ ∀ x ∈ xs, Canonical lv x
  | lv + 1, .map es => es.length < 2 ^ 64 ∧ SortedKeys es ∧
      ∀ e ∈ es, Canonical lv e.1.toValue ∧ Canonical lv e.2
  | _ + 1, .null => True

/-- When an array is canonical. -/
theorem canonical_array {lv : ℕ} {xs : List Value} :
    Canonical (lv + 1) (.array xs) ↔ xs.length < 2 ^ 64 ∧ ∀ x ∈ xs, Canonical lv x := by
  simp only [Canonical]

/-- When a map is canonical. -/
theorem canonical_map {lv : ℕ} {es : List (Key × Value)} :
    Canonical (lv + 1) (.map es) ↔ es.length < 2 ^ 64 ∧ SortedKeys es ∧
      ∀ e ∈ es, Canonical lv e.1.toValue ∧ Canonical lv e.2 := by
  simp only [Canonical]

/-- No encoding is empty. -/
theorem encode_length_pos (v : Value) : 0 < v.encode.length := by
  cases v <;> simp only [Value.encode, List.length_append, List.length_singleton] <;>
    first | omega | exact Nat.add_pos_left (head_length_pos _ _) _ | exact head_length_pos _ _

theorem key_encode_length_pos (k : Key) : 0 < k.encode.length := by
  rw [← Key.encode_toValue]; exact encode_length_pos _

/-- Every item costs at least a byte. -/
theorem length_le_encodeItems (xs : List Value) : xs.length ≤ (encodeItems xs).length := by
  induction xs with
  | nil => simp
  | cons x xs ih =>
    have := encode_length_pos x
    simp only [encodeItems, List.length_cons, List.length_append]; omega

/-- Every entry costs at least two bytes. -/
theorem length_le_encodeEntries (es : List (Key × Value)) : 2 * es.length ≤ (encodeEntries es).length := by
  induction es with
  | nil => simp
  | cons e es ih =>
    obtain ⟨k, v⟩ := e
    have h1 := key_encode_length_pos k
    have h2 := encode_length_pos v
    simp only [encodeEntries, List.length_cons, List.length_append]; omega

/-- A text item that starts with a byte order mark, anywhere in a value. -/
def startsWithBom (s : String) : Bool := bom.isPrefixOf (utf8Encode s)

mutual

/-- Whether a text anywhere in a value starts with a byte order mark. -/
def Value.hasBom : Value → Bool
  | .text s => startsWithBom s
  | .array xs => itemsHaveBom xs
  | .map es => entriesHaveBom es
  | _ => false

/-- `Value.hasBom` of some item of an array. -/
def itemsHaveBom : List Value → Bool
  | [] => false
  | x :: xs => x.hasBom || itemsHaveBom xs

/-- `Value.hasBom` of some entry of a map, its key or its value. -/
def entriesHaveBom : List (Key × Value) → Bool
  | [] => false
  | (k, v) :: es => (match k with | .text s => startsWithBom s | .bytes _ => false) || v.hasBom ||
      entriesHaveBom es

end

theorem itemsHaveBom_eq_any (xs : List Value) : itemsHaveBom xs = xs.any Value.hasBom := by
  induction xs with
  | nil => rfl
  | cons x xs ih => simp [itemsHaveBom, ih]

theorem entriesHaveBom_eq_any (es : List (Key × Value)) :
    entriesHaveBom es = es.any fun e => e.1.toValue.hasBom || e.2.hasBom := by
  induction es with
  | nil => rfl
  | cons e es ih =>
    obtain ⟨k, v⟩ := e
    cases k <;> simp [entriesHaveBom, ih, Key.toValue, Value.hasBom, Bool.or_assoc]

end DetCbor
