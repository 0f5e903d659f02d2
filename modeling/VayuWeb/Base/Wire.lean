import VayuWeb.Base.Varint

/-!
# Messages of numbered fields

A message is a sequence of fields. A field is its number and its wire type in one varint, and
then a varint (wire type 0) or a counted byte string (wire type 2).

* `read_key`, `read_value`: what a reader meets first in a written field.
* `splitAt_payload`: and where a counted byte string ends.
* `Reads`: the fields that bytes hold for a reader, who accepts more than what is written.
-/

namespace Wire

open Bytes

/-- A field that was read. -/
inductive Item where
  | varint (number value : ℕ)
  | bytes (number : ℕ) (payload : Bytes)
  deriving DecidableEq, Repr

/-- The number and the wire type, as a varint holds them. -/
def Item.key : Item → ℕ
  | .varint number _ => number * 8
  | .bytes number _ => number * 8 + 2

/-- What the second varint says: the value, or how many bytes follow. -/
def Item.value : Item → ℕ
  | .varint _ value => value
  | .bytes _ payload => payload.length

/-- The bytes behind the length of a field that has one. -/
def Item.payload : Item → Bytes
  | .varint _ _ => []
  | .bytes _ payload => payload

/-- The bytes of a field. -/
def Item.write (item : Item) : Bytes :=
  Varint.encode item.key ++ Varint.encode item.value ++ item.payload

/-- The bytes of a message. -/
def write (items : List Item) : Bytes := items.flatMap Item.write

@[simp] theorem write_nil : write [] = [] := rfl

@[simp] theorem write_cons (item : Item) (items : List Item) : write (item :: items) = item.write ++ write items := rfl

@[simp] theorem write_append (items items' : List Item) : write (items ++ items') = write items ++ write items' :=
  List.flatMap_append

@[simp] theorem write_flatMap {α : Type} (f : α → List Item) (as : List α) :
    write (as.flatMap f) = as.flatMap fun a => write (f a) := by
  induction as with
  | nil => rfl
  | cons a as ih => rw [List.flatMap_cons, write_append, ih, List.flatMap_cons]

/-- The numbers of a field are below a bound. -/
structure Item.Below (item : Item) (bound : ℕ) : Prop where
  key : item.key < bound
  value : item.value < bound

theorem Item.Below.mono {item : Item} {bound bound' : ℕ} (h : item.Below bound) (hle : bound ≤ bound') :
    item.Below bound' :=
  ⟨Nat.lt_of_lt_of_le h.key hle, Nat.lt_of_lt_of_le h.value hle⟩

variable {item : Item}

/-- The key of a field is read back. -/
theorem read_key (h : item.Below (2 ^ 64)) (rest : Bytes) :
    Varint.read 10 (item.write ++ rest) = .ok (item.key, Varint.encode item.value ++ (item.payload ++ rest)) := by
  rw [Item.write, List.append_assoc, List.append_assoc]
  exact Varint.read_encode h.key _

/-- The number of a field is read back, and so is a payload's length. -/
theorem read_value (h : item.Below (2 ^ 64)) (rest : Bytes) :
    Varint.read 10 (Varint.encode item.value ++ rest) = .ok (item.value, rest) :=
  Varint.read_encode h.value _

/-- The payload of a field is read back. -/
theorem splitAt_payload (number : ℕ) (payload rest : Bytes) :
    splitAt? (Item.bytes number payload).value ((Item.bytes number payload).payload ++ rest) =
      some (payload, rest) :=
  splitAt?_append payload rest

theorem write_ne_nil (item : Item) (rest : Bytes) : item.write ++ rest ≠ [] := by
  intro h
  have hkey : Varint.encode item.key = [] := by
    rw [Item.write, List.append_assoc, List.append_assoc] at h
    exact (List.append_eq_nil_iff.1 h).1
  exact Varint.encode_ne_nil hkey

/-- A field is at least as long as what it carries. -/
theorem length_payload_le (number : ℕ) (payload : Bytes) :
    payload.length ≤ (Item.bytes number payload).write.length := by
  have hpayload : (Item.bytes number payload).payload = payload := rfl
  rw [Item.write, List.length_append, hpayload]
  exact Nat.le_add_left _ _

/-- The bytes are these fields, each number in a varint that a reader of 64 bits accepts. -/
inductive Reads : Bytes → List Item → Prop where
  | nil : Reads [] []
  | cons {item : Item} {items : List Item} {bytes rest rest' : Bytes} (hbelow : item.Below (2 ^ 64))
      (hkey : Varint.read 10 bytes = .ok (item.key, rest))
      (hvalue : Varint.read 10 rest = .ok (item.value, item.payload ++ rest')) (hrest : Reads rest' items) :
      Reads bytes (item :: items)

/-- **What is written is read.** -/
theorem reads_write {items : List Item} (h : ∀ item ∈ items, item.Below (2 ^ 64)) : Reads (write items) items := by
  induction items with
  | nil => exact .nil
  | cons item items ih =>
    have hitem := h item List.mem_cons_self
    have hrest := ih fun item' hitem' => h item' (List.mem_cons_of_mem _ hitem')
    exact .cons hitem (read_key hitem (write items)) (read_value hitem (item.payload ++ write items)) hrest

end Wire
