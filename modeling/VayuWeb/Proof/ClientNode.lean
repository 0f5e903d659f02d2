import VayuWeb.Base.Wire
import VayuWeb.Client.Dagnode

/-!
# What the walker's parsers read

On bytes that are the fields of a message a parser is a fold over them.

* `parse_of_reads`: the loop, whatever its step.
* `linkItem`, `nodeItem`, `unixfsItem`: what each parser makes of a field.
-/

namespace VayuWeb.Client.Dagnode

open Bytes Wire

section Parse

variable {α : Type} {step : ℕ → ℕ → α → Bytes → Option (α × Bytes)} {f : α → Item → Option α}

/-- A step reads a field as what `f` makes of it, and leaves what follows. -/
def Handles (step : ℕ → ℕ → α → Bytes → Option (α × Bytes)) (f : α → Item → Option α) : Prop :=
  ∀ {item : Item} {rest rest' : Bytes} (acc : α), item.Below (2 ^ 64) →
    Varint.read 10 rest = .ok (item.value, item.payload ++ rest') →
      step (item.key / 8) (item.key % 8) acc rest = (f acc item).map (·, rest')

/-- The client reads a varint that fits 64 bits as the general reader does. -/
theorem readVarint_eq {bytes rest : Bytes} {value : ℕ} (h : Varint.read 10 bytes = .ok (value, rest))
    (hvalue : value < 2 ^ 64) : readVarint bytes = some (value, rest) := by
  rw [readVarint, h]
  simp only [Nat.mod_eq_of_lt hvalue]

/-- The client reads a payload behind its length. -/
theorem readCounted_eq {rest rest' payload : Bytes} (h : Varint.read 10 rest = .ok (payload.length, payload ++ rest'))
    (hlength : payload.length < 2 ^ 64) : readCounted rest = some (payload, rest') := by
  rw [readCounted, readVarint_eq h hlength]
  exact splitAt?_append payload rest'

/-- Reading a message is folding over its fields. -/
theorem parseFrom_of_reads (hstep : Handles step f) {bytes : Bytes} {items : List Item} (h : Reads bytes items)
    {fuel : ℕ} (hfuel : bytes.length ≤ fuel) (start : α) : parseFrom step fuel start bytes = items.foldlM f start := by
  induction h generalizing fuel start with
  | nil =>
    cases fuel with
    | zero => rfl
    | succ fuel => rfl
  | @cons item items bytes rest rest' hbelow hkey hvalue _ ih =>
    have hne : bytes ≠ [] := by
      rintro rfl
      simp [Varint.read] at hkey
    have hpos := List.length_pos_iff.2 hne
    have hrest := Varint.read_length hkey
    have hrest' := Varint.read_length hvalue
    rw [List.length_append] at hrest'
    obtain ⟨fuel, rfl⟩ : ∃ k, fuel = k + 1 := ⟨fuel - 1, by omega⟩
    rw [parseFrom, if_neg hne, readVarint_eq hkey hbelow.key, List.foldlM_cons]
    simp only [Option.bind_eq_bind, Option.bind_some, hstep start hbelow hvalue]
    cases hf : f start item with
    | none => rfl
    | some acc => exact ih (by omega) acc

/-- **A parser on the fields of a message is a fold over them.** -/
theorem parse_of_reads (hstep : Handles step f) {bytes : Bytes} {items : List Item} (h : Reads bytes items)
    (start : α) :
    parse step start bytes = items.foldlM f start :=
  parseFrom_of_reads hstep h (Nat.le_refl _) start

end Parse

theorem key_varint (number value : ℕ) : (Item.varint number value).key / 8 = number ∧
    (Item.varint number value).key % 8 = 0 := by
  rw [Item.key]
  omega

theorem key_bytes (number : ℕ) (payload : Bytes) :
    (Item.bytes number payload).key / 8 = number ∧ (Item.bytes number payload).key % 8 = 2 := by
  rw [Item.key]
  omega

/-- What `parse_link` makes of a field. -/
def linkItem (link : PbLink) : Item → Option PbLink
  | .bytes 1 hash => some { link with hash := hash }
  | .bytes 2 bytes => (utf8Decode bytes).map fun name => { link with name := name }
  | .varint 3 tsize => some { link with tsize := tsize }
  | _ => some link

/-- What `parse_pb_node` makes of a field. -/
def nodeItem (node : PbNode) : Item → Option PbNode
  | .bytes 1 data => some { node with data := data }
  | .bytes 2 region => (parseLink region).map fun link => { node with links := node.links ++ [link] }
  | _ => some node

/-- What `parse_unixfs` makes of a field. -/
def unixfsItem (message : ℕ × Bytes) : Item → Option (ℕ × Bytes)
  | .varint 1 kind => some (kind, message.2)
  | .bytes 2 payload => some (message.1, payload)
  | _ => some message

/-- A field that nothing is made of is skipped. -/
theorem skipField_eq {item : Item} {rest rest' : Bytes} (hbelow : item.Below (2 ^ 64))
    (hvalue : Varint.read 10 rest = .ok (item.value, item.payload ++ rest')) :
    skipField (item.key % 8) rest = some rest' := by
  cases item with
  | varint number value =>
    rw [(key_varint number value).2, skipField, readVarint_eq hvalue hbelow.value]
    rfl
  | bytes number payload =>
    rw [(key_bytes number payload).2, skipField, readCounted_eq hvalue hbelow.value]
    rfl

/-- The reader of links handles every field. -/
theorem handles_linkStep : Handles linkStep linkItem := by
  intro item rest rest' link hbelow hvalue
  have hskip := skipField_eq hbelow hvalue
  cases item with
  | varint number value =>
    have hread := readVarint_eq hvalue hbelow.value
    rw [(key_varint number value).2] at hskip
    rw [(key_varint number value).1, (key_varint number value).2]
    -- the field the step reads, or one it skips like any unknown field
    by_cases hnumber : number = 3
    · subst hnumber
      rw [linkStep, hread]
      rfl
    · have hitem : linkItem link (.varint number value) = some link := by
        unfold linkItem
        split <;> simp_all
      have hstep : linkStep number 0 link rest = (skipField 0 rest).bind fun rest => some (link, rest) := by
        unfold linkStep
        split <;> simp_all
      rw [hstep, hitem, hskip]
      rfl
  | bytes number payload =>
    have hread := readCounted_eq hvalue hbelow.value
    rw [(key_bytes number payload).2] at hskip
    rw [(key_bytes number payload).1, (key_bytes number payload).2]
    by_cases hhash : number = 1
    · subst hhash
      rw [linkStep, hread]
      rfl
    by_cases hname : number = 2
    · subst hname
      rw [linkStep, hread, linkItem]
      simp only [Option.bind_eq_bind, Option.bind_some]
      cases utf8Decode payload with
      | none => rfl
      | some name => rfl
    · have hitem : linkItem link (.bytes number payload) = some link := by
        unfold linkItem
        split <;> simp_all
      have hstep : linkStep number 2 link rest = (skipField 2 rest).bind fun rest => some (link, rest) := by
        unfold linkStep
        split <;> simp_all
      rw [hstep, hitem, hskip]
      rfl

/-- The reader of nodes handles every field. -/
theorem handles_nodeStep : Handles nodeStep nodeItem := by
  intro item rest rest' node hbelow hvalue
  have hskip := skipField_eq hbelow hvalue
  cases item with
  -- no field of a node is a number, so each is skipped
  | varint number value =>
    rw [(key_varint number value).2] at hskip
    rw [(key_varint number value).1, (key_varint number value).2]
    have hstep : nodeStep number 0 node rest = (skipField 0 rest).bind fun rest => some (node, rest) := by
      unfold nodeStep
      split <;> simp_all
    rw [hstep, hskip]
    rfl
  | bytes number payload =>
    have hread := readCounted_eq hvalue hbelow.value
    rw [(key_bytes number payload).2] at hskip
    rw [(key_bytes number payload).1, (key_bytes number payload).2]
    by_cases hdata : number = 1
    · subst hdata
      rw [nodeStep, hread]
      rfl
    by_cases hlink : number = 2
    · subst hlink
      rw [nodeStep, hread, nodeItem]
      simp only [Option.bind_eq_bind, Option.bind_some]
      cases parseLink payload with
      | none => rfl
      | some link => rfl
    · have hitem : nodeItem node (.bytes number payload) = some node := by
        unfold nodeItem
        split <;> simp_all
      have hstep : nodeStep number 2 node rest = (skipField 2 rest).bind fun rest => some (node, rest) := by
        unfold nodeStep
        split <;> simp_all
      rw [hstep, hitem, hskip]
      rfl

/-- The reader of UnixFS messages handles every field. -/
theorem handles_unixfsStep : Handles unixfsStep unixfsItem := by
  intro item rest rest' message hbelow hvalue
  have hskip := skipField_eq hbelow hvalue
  cases item with
  | varint number value =>
    have hread := readVarint_eq hvalue hbelow.value
    rw [(key_varint number value).2] at hskip
    rw [(key_varint number value).1, (key_varint number value).2]
    by_cases hkind : number = 1
    · subst hkind
      rw [unixfsStep, hread]
      rfl
    · have hitem : unixfsItem message (.varint number value) = some message := by
        unfold unixfsItem
        split <;> simp_all
      rw [hitem]
      -- `filesize` and `blocksizes` are read and thrown away here
      by_cases hsize : number = 3 ∨ number = 4
      · rcases hsize with rfl | rfl
        · rw [unixfsStep, hread]
          rfl
        · rw [unixfsStep, hread]
          rfl
      · have hstep : unixfsStep number 0 message rest = (skipField 0 rest).bind fun rest => some (message, rest) := by
          unfold unixfsStep
          split <;> simp_all
        rw [hstep, hskip]
        rfl
  | bytes number payload =>
    have hread := readCounted_eq hvalue hbelow.value
    rw [(key_bytes number payload).2] at hskip
    rw [(key_bytes number payload).1, (key_bytes number payload).2]
    by_cases hpayload : number = 2
    · subst hpayload
      rw [unixfsStep, hread]
      rfl
    · have hitem : unixfsItem message (.bytes number payload) = some message := by
        unfold unixfsItem
        split <;> simp_all
      have hstep : unixfsStep number 2 message rest = (skipField 2 rest).bind fun rest => some (message, rest) := by
        unfold unixfsStep
        split <;> simp_all
      rw [hstep, hitem, hskip]
      rfl

end VayuWeb.Client.Dagnode
