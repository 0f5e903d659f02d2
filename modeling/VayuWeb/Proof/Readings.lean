import VayuWeb.Client.Blockx
import VayuWeb.Proof.ClientEntries
import VayuWeb.Proof.Messages

/-!
# Reading the map of a message

The protocols on the wire share how a decoder reads a map: a type under `t`, and a number or a list
of entries under a name. The registry drops byte order marks from keys and text and counts to
2^53 - 1, and the client reads what is written and counts to 2^64 - 1.

* `marked`, `plain`: the registry's reading of a map and the client's.
* `registry_type`, `registry_number`, `registry_items`: what the registry reads.
* `client_number`, `client_items`: what the client reads.
-/

namespace VayuWeb.BlockCodecs

open DetCbor (Key Value)

variable {ρ ε : Type} {es : List (Key × Value)} {key : String} {limit : ℕ} {malformed limitExceeded : ρ} {b : Bytes}

/-! ## A reading -/

/-- What a decoder finds in a map: its type, and a value under each name. -/
structure Reading where
  type : Option String
  value : String → Option Value

/-- The client's reading. -/
def plain (es : List (Key × Value)) : Reading where
  type := Client.Blockx.typeText es
  value := Client.field es

/-- The registry's reading: byte order marks are dropped, and later keys replace earlier ones. -/
def marked (es : List (Key × Value)) : Reading where
  type := match lastNamed es "t" with
    | some (.text type) => some (dropBom type)
    | _ => none
  value := lastNamed es

@[simp] theorem plain_value : (plain es).value = Client.field es := rfl

@[simp] theorem marked_value : (marked es).value = lastNamed es := rfl

/-- The number under a name, to a decoder that counts to `top`. -/
def Reading.number (f : Reading) (malformed : ρ) (top : ℕ) (key : String) : Except ρ ℕ :=
  match f.value key with
  | some (.uint n) => if n ≤ top then .ok n else .error malformed
  | _ => .error malformed

/-- The list under a name, of at most `limit` entries. -/
def Reading.items (f : Reading) (malformed limitExceeded : ρ) (key : String) (limit : ℕ)
    (entry : Value → Except ρ Bytes) : Except ρ (List Bytes) :=
  match f.value key with
  | some (.array xs) => if xs.length > limit then .error limitExceeded else xs.mapM entry
  | _ => .error malformed

/-! ## What the registry reads -/

/-- The class of a registry's refusal. What the codec throws has none. -/
def registryClass : Refusal ρ → Option ρ
  | .refused code _ => some code
  | .cborError _ => none

/-- The type that the registry reads. -/
theorem registry_type (nonCanonical malformed : ρ) (hparse : DetCbor.parse 33 b = some (.map es)) :
    readMap nonCanonical malformed b = match (marked es).type with
      | some type => .ok (ofWireEntries [] es, type)
      | none => .error (.refused malformed "t must be text") := by
  rw [readMap, decode_eq_ok.2 ⟨.map es, hparse, rfl⟩]
  simp only [ofWire]
  rw [get?_ofWireEntries, marked]
  cases lastNamed es "t" with
  | none => rfl
  | some w =>
    cases w with
    | uint n =>
      simp only [Option.map_some, Option.some_or, ofWire]
      split_ifs <;> rfl
    | _ => simp [ofWire]

/-- The number that the registry reads. -/
theorem registry_number : (readUint malformed (ofWireEntries [] es) key).mapError registryClass =
    ((marked es).number malformed maxSafeInteger key).mapError some := by
  rw [readUint, get?_ofWireEntries, Reading.number, marked_value]
  cases lastNamed es key with
  | none => rfl
  | some w =>
    cases w with
    | uint n =>
      simp only [Option.map_some, Option.some_or, ofWire]
      split_ifs <;> rfl
    | _ => simp [ofWire, registryClass, Except.mapError]

/-- The list that the registry reads, where it reads an entry as the judge does. -/
theorem registry_items {entryOf : CborValue → Except (Refusal ρ) Bytes} {entry : Value → Except ρ Bytes}
    {other : String} (long : ℕ → String)
    (hentry : ∀ x, (entryOf (ofWire x)).mapError registryClass = (entry x).mapError some) :
    Except.mapError registryClass (match CborMap.get? (ofWireEntries [] es) key with
      | some (.array xs) =>
        if xs.length > limit then .error (.refused limitExceeded (long xs.length)) else xs.mapM entryOf
      | _ => .error (.refused malformed other)) =
      ((marked es).items malformed limitExceeded key limit entry).mapError some := by
  rw [get?_ofWireEntries, Reading.items, marked_value]
  cases lastNamed es key with
  | none => rfl
  | some w =>
    cases w with
    | array xs =>
      simp only [Option.map_some, Option.some_or, ofWire, ofWireItems_eq_map, List.length_map]
      split_ifs
      · rfl
      · rw [Except.mapError_mapM, Except.mapError_mapM, List.mapM_map]
        congr 1
        funext x
        exact hentry x
    | uint n =>
      simp only [Option.map_some, Option.some_or, ofWire]
      split_ifs <;> rfl
    | _ => simp [ofWire, registryClass, Except.mapError]

/-! ## What the client reads -/

/-- A number on the wire fits 64 bits. -/
theorem field_fits (hcanonical : DetCbor.Canonical 33 (.map es)) {n : ℕ}
    (h : Client.field es key = some (.uint n)) : n ≤ 2 ^ 64 - 1 := by
  have hmem := (DetCbor.canonical_map.1 hcanonical).2.2 _ (Client.field_mem h)
  have hlt : n < 2 ^ 64 := hmem.2
  omega

/-- The number that the client reads. -/
theorem client_number (hcanonical : DetCbor.Canonical 33 (.map es)) {class_ : ε → Option ρ} {required other : ε}
    (hrequired : class_ required = some malformed) (hother : class_ other = some malformed) :
    Except.mapError class_ (match Client.field es key with
      | none => .error required
      | some (.uint n) => .ok n
      | some _ => .error other) = ((plain es).number malformed (2 ^ 64 - 1) key).mapError some := by
  rw [Reading.number, plain_value]
  cases hfield : Client.field es key with
  | none => exact congrArg Except.error hrequired
  | some w =>
    cases w with
    | uint n =>
      simp only
      rw [if_pos (field_fits hcanonical hfield)]
      rfl
    | _ => exact congrArg Except.error hother

/-- The list that the client reads, where it reads an entry as the judge does. -/
theorem client_items {class_ : ε → Option ρ} {entryOf : Value → Except ε Bytes} {entry : Value → Except ρ Bytes}
    (required other : ε) (long : ℕ → ε) (hentry : ∀ x, (entryOf x).mapError class_ = (entry x).mapError some)
    (hrequired : class_ required = some malformed) (hother : class_ other = some malformed)
    (hlong : ∀ n, class_ (long n) = some limitExceeded) :
    Except.mapError class_ (match Client.field es key with
      | none => .error required
      | some (.array xs) => if xs.length > limit then .error (long xs.length) else xs.mapM entryOf
      | some _ => .error other) = ((plain es).items malformed limitExceeded key limit entry).mapError some := by
  rw [Reading.items, plain_value]
  cases Client.field es key with
  | none => exact congrArg Except.error hrequired
  | some w =>
    cases w with
    | array xs =>
      simp only
      split_ifs
      · exact congrArg Except.error (hlong _)
      · rw [Except.mapError_mapM, Except.mapError_mapM]
        congr 1
        funext x
        exact hentry x
    | _ => exact congrArg Except.error hother

end VayuWeb.BlockCodecs
