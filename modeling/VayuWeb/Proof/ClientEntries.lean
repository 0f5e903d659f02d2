import VayuWeb.Proof.ClientParse

/-!
# The entries of a record, in both schemas

`EntryFits` is what both schemas ask of one entry and `ListFits` what both ask of the list.

* `checkEntries_eq_ok`: the client's loop, with its count of aliases, checks `ListFits`.
* `registryEntries_eq_ok`: the registry, which looks for aliases afterwards, checks `ListFits` and
  that no `ipns` value exceeds 128 UTF-16 units.
-/

namespace VayuWeb.Client

open Bytes
open DetCbor (Key Value Canonical)

theorem utf8Encode_eq_nil {s : String} : utf8Encode s = [] ↔ s.toList = [] := by
  constructor
  · intro h
    have hs : s = "" := utf8Encode_injective (by rw [h]; rfl)
    rw [hs]
    rfl
  · intro h
    rw [show s = "" by rw [← String.ofList_toList (s := s), h]]
    rfl

theorem jsLength_pos {s : String} : jsLength s < 1 ↔ s.toList = [] := by
  unfold jsLength
  constructor
  · intro h
    cases hs : s.toList with
    | nil => rfl
    | cons c cs =>
      rw [hs, List.map_cons, List.sum_cons] at h
      split_ifs at h <;> omega
  · intro h
    rw [h]
    decide

/-- A string has no more characters than UTF-16 units. -/
theorem length_le_jsLength (s : String) : s.toList.length ≤ jsLength s := by
  unfold jsLength
  induction s.toList with
  | nil => simp
  | cons c cs ih =>
    rw [List.map_cons, List.sum_cons, List.length_cons]
    split_ifs <;> omega

/-! ## One entry -/

/-- The value is an alias of the record's own name. -/
def NamesItself (label tld : String) (value : Value) : Prop :=
  ∃ s, value = .text s ∧ parseAlias s = some ⟨label, tld⟩

/-- The shape each known type asks of its value. -/
def KindFits (kind : String) (value : Value) : Prop :=
  if kind = "peer" then ∃ b, value = .bytes b ∧ b.length = 32
  else if kind = "ipns" then ∃ s, value = .text s ∧ s.toList ≠ [] ∧ s.toList.length ≤ 128
  else if kind = "cid" then ∃ b, value = .bytes b ∧ b ≠ [] ∧ b.length ≤ 64
  else if kind = "txt" then ∃ s, value = .text s ∧ s.toList ≠ [] ∧ (utf8Encode s).length ≤ 255 ∧
    (s.toList.any fun c => c.toNat < 0x20) = false
  else if kind = "alias" then ∃ s, value = .text s ∧ (parseAlias s).isSome = true
  else True

theorem unless_eq_ok {bad : Prop} [Decidable bad] {detail : String} {n n' : ℕ} :
    (if bad then badEntry detail else .ok n : Except Verdict ℕ) = .ok n' ↔ ¬ bad ∧ n' = n := by
  unfold badEntry
  split_ifs with h <;> simp [h, eq_comm]

/-- The shape of a value the client asks for, by the type; an alias is asked for more. -/
theorem checkKind_eq_ok {label tld : String} {total n n' : ℕ} {kind : String} {value : Value} :
    checkKind label tld total n kind value = .ok n' ↔ KindFits kind value ∧
      (kind ≠ "alias" ∧ n' = n ∨
        kind = "alias" ∧ ¬ NamesItself label tld value ∧ n = 0 ∧ total ≤ 1 ∧ n' = 1) := by
  -- the count of aliases moves for an alias only, so every other kind leaves it as it is
  have hplain : ∀ P : Prop, kind ≠ "alias" → (P ∧ (kind ≠ "alias" ∧ n' = n ∨ kind = "alias" ∧
      ¬ NamesItself label tld value ∧ n = 0 ∧ total ≤ 1 ∧ n' = 1) ↔ P ∧ n' = n) := by
    intro P hne
    simp [hne]
  unfold checkKind KindFits
  -- the kinds in the order of the source's `match`
  by_cases hpeer : kind = "peer"
  · rw [if_pos hpeer, if_pos hpeer, hplain _ (by rw [hpeer]; decide)]
    cases value with
    | bytes b => simp only [unless_eq_ok, Value.bytes.injEq, exists_eq_left', ne_eq, not_not]
    | _ => simp [badEntry]
  rw [if_neg hpeer, if_neg hpeer]
  by_cases hipns : kind = "ipns"
  · rw [if_pos hipns, if_pos hipns, hplain _ (by rw [hipns]; decide)]
    cases value with
    | text s => simp only [unless_eq_ok, Value.text.injEq, exists_eq_left', not_or, not_lt, gt_iff_lt, ne_eq]
    | _ => simp [badEntry]
  rw [if_neg hipns, if_neg hipns]
  by_cases hcid : kind = "cid"
  · rw [if_pos hcid, if_pos hcid, hplain _ (by rw [hcid]; decide)]
    cases value with
    | bytes b => simp only [unless_eq_ok, Value.bytes.injEq, exists_eq_left', not_or, not_lt, gt_iff_lt, ne_eq]
    | _ => simp [badEntry]
  rw [if_neg hcid, if_neg hcid]
  by_cases htxt : kind = "txt"
  · rw [if_pos htxt, if_pos htxt, hplain _ (by rw [htxt]; decide)]
    cases value with
    | text s =>
      by_cases hsize : s.toList = [] ∨ (utf8Encode s).length > 255
      · simp only [if_pos hsize, badEntry, reduceCtorEq, false_iff, Value.text.injEq, exists_eq_left']
        rintro ⟨⟨hne, hle, -⟩, -⟩
        rcases hsize with h | h
        · exact hne h
        · omega
      · simp only [if_neg hsize, unless_eq_ok, Value.text.injEq, exists_eq_left', Bool.not_eq_true]
        rw [not_or] at hsize
        constructor
        · rintro ⟨hany, hn⟩
          exact ⟨⟨hsize.1, by omega, hany⟩, hn⟩
        · rintro ⟨⟨-, -, hany⟩, hn⟩
          exact ⟨hany, hn⟩
    | _ => simp [badEntry]
  rw [if_neg htxt, if_neg htxt]
  by_cases halias : kind = "alias"
  · rw [if_pos halias, if_pos halias]
    cases value with
    | text s =>
      simp only [NamesItself, Value.text.injEq, exists_eq_left', halias, not_true_eq_false, false_and,
        false_or, true_and, ne_eq]
      cases hparse : parseAlias s with
      | none => simp [badEntry]
      | some target =>
        obtain ⟨l, t⟩ := target
        simp only [Option.isSome_some, true_and, Option.some.injEq, Alias.mk.injEq]
        -- the three refusals of an alias: of itself, a second one, and beside other entries
        by_cases hself : l = label ∧ t = tld
        · simp [hself, badEntry]
        by_cases hcount : n + 1 > 1
        · have hn : n ≠ 0 := by omega
          simp [hself, hcount, hn, badEntry]
        by_cases htotal : total > 1
        · simp [hself, hcount, htotal, badEntry, Nat.not_le.2 htotal]
        · have hn : n = 0 := by omega
          simp only [if_neg hself, if_neg hcount, if_neg htotal, Except.ok.injEq]
          constructor
          · rintro rfl
            exact ⟨hself, hn, by omega, by omega⟩
          · rintro ⟨-, -, -, rfl⟩
            omega
    | _ => simp [badEntry]
  · rw [if_neg halias, if_neg halias]
    simp [halias, eq_comm]

/-- What both schemas ask of one entry. -/
structure EntryFits (entry : Value) (fields : Members) (kind : String) (value : Value) : Prop where
  map : entry = .map fields
  type_eq : field fields "type" = some (.text kind)
  value_eq : field fields "value" = some value
  ttl : ∀ ttl, field fields "ttl" = some ttl → ∃ n, ttl = .uint n ∧ minTtl ≤ n ∧ n ≤ maxTtl
  size : valueSize value ≤ maxEntryValueBytes
  shape : KindFits kind value

theorem checkTtl_eq_ok {fields : Members} {u : Unit} : checkTtl fields = .ok u ↔
    ∀ ttl, field fields "ttl" = some ttl → ∃ n, ttl = .uint n ∧ minTtl ≤ n ∧ n ≤ maxTtl := by
  unfold checkTtl
  cases field fields "ttl" with
  | none => simp
  | some ttl =>
    cases ttl with
    | uint n => simp only [uint, refuse_eq_ok, not_not, Option.some.injEq, forall_eq', Value.uint.injEq,
        exists_eq_left']
    | _ => simp [uint, badEntry]

theorem checkEntry_eq_ok {label tld : String} {total n n' : ℕ} {entry : Value} :
    checkEntry label tld total n entry = .ok n' ↔ ∃ fields kind value, EntryFits entry fields kind value ∧
      (kind ≠ "alias" ∧ n' = n ∨
        kind = "alias" ∧ ¬ NamesItself label tld value ∧ n = 0 ∧ total ≤ 1 ∧ n' = 1) := by
  unfold checkEntry
  constructor
  · intro h
    split at h
    · rename_i fields
      split at h
      · simp [badEntry] at h
      · rename_i kind htype
        split at h
        · simp [badEntry] at h
        · rename_i value hvalue
          simp only [Except.bind_eq_ok, checkTtl_eq_ok, refuse_eq_ok, checkKind_eq_ok] at h
          obtain ⟨-, httl, -, hsize, hkind, halias⟩ := h
          exact ⟨fields, kind, value, ⟨rfl, htype, hvalue, httl, by omega, hkind⟩, halias⟩
      · simp [badEntry] at h
    · simp [badEntry] at h
  · rintro ⟨fields, kind, value, h, halias⟩
    have hsize := h.size
    rw [h.map]
    simp only [h.type_eq, h.value_eq, Except.bind_eq_ok, checkTtl_eq_ok, refuse_eq_ok, checkKind_eq_ok]
    exact ⟨(), h.ttl, (), by omega, h.shape, halias⟩

/-! ## The list of entries -/

/-- What both schemas ask of the entries of a record. -/
def ListFits (label tld : String) (entries : List Value) : Prop :=
  ∀ entry ∈ entries, ∃ fields kind value, EntryFits entry fields kind value ∧
    (kind = "alias" → entries.length ≤ 1 ∧ ¬ NamesItself label tld value)

/-- Beside other entries the loop meets no alias. -/
theorem foldlM_checkEntry {label tld : String} {total n n' : ℕ} (htotal : 1 < total)
    (entries : List Value) : entries.foldlM (checkEntry label tld total) n = .ok n' ↔
      n' = n ∧ ∀ entry ∈ entries, ∃ fields kind value, EntryFits entry fields kind value ∧
        kind ≠ "alias" := by
  induction entries generalizing n with
  | nil => simp [eq_comm]
  | cons entry entries ih =>
    rw [List.foldlM_cons, Except.bind_eq_ok]
    constructor
    · rintro ⟨m, hm, hrest⟩
      obtain ⟨fields, kind, value, hfits, halias⟩ := checkEntry_eq_ok.1 hm
      obtain ⟨rfl, hall⟩ := ih.1 hrest
      rcases halias with ⟨hne, rfl⟩ | ⟨-, -, -, hle, -⟩
      · refine ⟨rfl, List.forall_mem_cons.2 ⟨⟨fields, kind, value, hfits, hne⟩, hall⟩⟩
      · omega
    · rintro ⟨rfl, hall⟩
      obtain ⟨⟨fields, kind, value, hfits, hne⟩, hall⟩ := List.forall_mem_cons.1 hall
      exact ⟨n', checkEntry_eq_ok.2 ⟨fields, kind, value, hfits, Or.inl ⟨hne, rfl⟩⟩, ih.2 ⟨rfl, hall⟩⟩

/-- **The client's loop checks the list.** -/
theorem loop_eq_ok {label tld : String} {entries : List Value} :
    (∃ n, entries.foldlM (checkEntry label tld entries.length) 0 = .ok n) ↔ ListFits label tld entries := by
  -- in a list of more than one entry no alias may stand
  by_cases hlong : 1 < entries.length
  · constructor
    · rintro ⟨n, hn⟩ entry hentry
      obtain ⟨fields, kind, value, hfits, hne⟩ := ((foldlM_checkEntry hlong entries).1 hn).2 entry hentry
      exact ⟨fields, kind, value, hfits, fun h => absurd h hne⟩
    · intro h
      refine ⟨0, (foldlM_checkEntry hlong entries).2 ⟨rfl, fun entry hentry => ?_⟩⟩
      obtain ⟨fields, kind, value, hfits, halias⟩ := h entry hentry
      refine ⟨fields, kind, value, hfits, fun hkind => ?_⟩
      have := (halias hkind).1
      omega
  · rcases entries with _ | ⟨entry, _ | ⟨second, rest⟩⟩
    · simp [ListFits]
    · have hone : (∃ n, [entry].foldlM (checkEntry label tld [entry].length) 0 = .ok n) ↔
          ∃ n, checkEntry label tld 1 0 entry = .ok n := by
        simp only [List.foldlM_cons, List.foldlM_nil, Except.bind_eq_ok, Except.pure_eq_ok, Except.ok.injEq,
          List.length_singleton, exists_eq_right]
      rw [hone]
      simp only [checkEntry_eq_ok, ListFits, List.mem_singleton, forall_eq, List.length_singleton]
      constructor
      · rintro ⟨n, fields, kind, value, hfits, ⟨hne, -⟩ | ⟨-, hself, -⟩⟩
        · exact ⟨fields, kind, value, hfits, fun h => absurd h hne⟩
        · exact ⟨fields, kind, value, hfits, fun _ => ⟨le_rfl, hself⟩⟩
      · rintro ⟨fields, kind, value, hfits, halias⟩
        by_cases hkind : kind = "alias"
        · exact ⟨1, fields, kind, value, hfits, Or.inr ⟨hkind, (halias hkind).2, trivial, le_rfl, rfl⟩⟩
        · exact ⟨0, fields, kind, value, hfits, Or.inl ⟨hkind, rfl⟩⟩
    · simp at hlong

/-- When the client takes the entries of a record. -/
theorem checkEntries_eq_ok {es : Members} {label tld : String} {u : Unit} :
    checkEntries es label tld = .ok u ↔ ∃ entries, field es "records" = some (.array entries) ∧
      entries.length ≤ maxRecordEntries ∧ ListFits label tld entries := by
  unfold checkEntries
  cases field es "records" with
  | none => simp
  | some v =>
    cases v with
    | array entries =>
      simp only [Except.bind_eq_ok, refuse_eq_ok, Except.pure_eq_ok, exists_and_left, and_true,
        Option.some.injEq, Value.array.injEq, exists_eq_left', loop_eq_ok, gt_iff_lt, not_lt, exists_const]
    | _ => simp

/-! ## The registry's values -/

section Wire

variable {lv : ℕ} {v : Value} {es : Members} {name : String}

/-- A canonical map without byte order marks decodes entry by entry. -/
theorem ofWire_map_eq (hc : Canonical lv (.map es)) (hb : (Value.map es).hasBom = false) :
    ofWire (.map es) = .map (es.map fun e => (e.1, ofWire e.2)) := by
  cases lv with
  | zero => exact hc.elim
  | succ lv =>
    rw [ofWire, ofWireEntries_of_not_hasBom (DetCbor.canonical_map.1 hc).2.1 fun e he =>
      (entriesKeys_bomFree hb e he).1]

theorem ofWire_eq_number {n : ℕ} : ofWire v = .number n ↔ v = .uint n ∧ n ≤ maxSafeInteger := by
  cases v with
  | uint m =>
    simp only [ofWire]
    split_ifs with h
    · simp only [CborValue.number.injEq, Value.uint.injEq]
      constructor
      · rintro rfl; exact ⟨rfl, h⟩
      · rintro ⟨rfl, -⟩; rfl
    · simp only [Value.uint.injEq, false_iff, not_and]
      rintro rfl; exact h
  | _ => simp [ofWire]

theorem ofWire_eq_bytes {b : Bytes} : ofWire v = .bytes b ↔ v = .bytes b := by
  cases v with
  | uint m => simp only [ofWire]; split_ifs <;> simp
  | _ => simp [ofWire]

theorem ofWire_eq_null : ofWire v = .null ↔ v = .null := by
  cases v with
  | uint m => simp only [ofWire]; split_ifs <;> simp
  | _ => simp [ofWire]

theorem ofWire_eq_text {s : String} (hb : v.hasBom = false) : ofWire v = .text s ↔ v = .text s := by
  cases v with
  | uint m => simp only [ofWire]; split_ifs <;> simp
  | text t => rw [ofWire, dropBom_of_not hb]; simp
  | _ => simp [ofWire]

/-- The registry reads a field as the value that stands there. -/
theorem get?_ofWire_eq {w : CborValue} :
    CborMap.get? (es.map fun e => (e.1, ofWire e.2)) name = some w ↔
      ∃ v, field es name = some v ∧ ofWire v = w := by
  rw [get?_ofWire, Option.map_eq_some_iff]

theorem get?_ofWire_eq_none :
    CborMap.get? (es.map fun e => (e.1, ofWire e.2)) name = none ↔ field es name = none := by
  rw [get?_ofWire, Option.map_eq_none_iff]

/-- What stands under a key carries no byte order mark when the map does not. -/
theorem field_bomFree (hb : (Value.map es).hasBom = false) (h : field es name = some v) :
    v.hasBom = false :=
  (entriesKeys_bomFree hb _ (field_mem h)).2

theorem field_canonical (hc : Canonical (lv + 1) (.map es)) (h : field es name = some v) :
    Canonical lv v :=
  ((DetCbor.canonical_map.1 hc).2.2 _ (field_mem h)).2

/-- A text is read alike in the decoded map and on the wire. -/
theorem get?_ofWire_text (hb : (Value.map es).hasBom = false) {s : String} :
    CborMap.get? (es.map fun e => (e.1, ofWire e.2)) name = some (.text s) ↔
      field es name = some (.text s) := by
  rw [get?_ofWire_eq]
  constructor
  · rintro ⟨v, hv, h⟩
    rwa [(ofWire_eq_text (field_bomFree hb hv)).1 h] at hv
  · intro h
    exact ⟨_, h, (ofWire_eq_text (field_bomFree hb h)).2 rfl⟩

/-- A number is read alike in the decoded map and on the wire, up to the safe integers. -/
theorem get?_ofWire_number {n : ℕ} :
    CborMap.get? (es.map fun e => (e.1, ofWire e.2)) name = some (.number n) ↔
      field es name = some (.uint n) ∧ n ≤ maxSafeInteger := by
  rw [get?_ofWire_eq]
  constructor
  · rintro ⟨v, hv, h⟩
    obtain ⟨rfl, hn⟩ := ofWire_eq_number.1 h
    exact ⟨hv, hn⟩
  · rintro ⟨h, hn⟩
    exact ⟨_, h, ofWire_eq_number.2 ⟨rfl, hn⟩⟩

/-- A byte string is read alike in the decoded map and on the wire. -/
theorem get?_ofWire_bytes {b : Bytes} :
    CborMap.get? (es.map fun e => (e.1, ofWire e.2)) name = some (.bytes b) ↔
      field es name = some (.bytes b) := by
  rw [get?_ofWire_eq]
  constructor
  · rintro ⟨v, hv, h⟩
    rwa [ofWire_eq_bytes.1 h] at hv
  · intro h
    exact ⟨_, h, ofWire_eq_bytes.2 rfl⟩

end Wire

/-! ## The registry's entries -/

/-- The registry's stricter bound on an `ipns` value. -/
def IpnsUnits (kind : String) (value : Value) : Prop :=
  kind = "ipns" → ∀ s, value = .text s → jsLength s ≤ 128

theorem registryUnless_eq_ok {bad : Prop} [Decidable bad] {text : String} {u : Unit} :
    (if bad then fail .badRecordEntry text else .ok () : Except RecordError Unit) = .ok u ↔ ¬ bad := by
  unfold fail
  split_ifs with h <;> simp [h]

/-- When the registry takes the value of an entry of a known type. -/
theorem checkKnownEntry_eq_ok {kind : String} {value : Value} (hb : value.hasBom = false) {u : Unit} :
    checkKnownEntry kind (ofWire value) = .ok u ↔ KindFits kind value ∧ IpnsUnits kind value := by
  have hplain : ∀ P : Prop, kind ≠ "ipns" → (P ∧ IpnsUnits kind value ↔ P) := by
    intro P hne
    simp [IpnsUnits, hne]
  unfold checkKnownEntry KindFits
  -- the kinds in the order of the source's `switch`
  by_cases hpeer : kind = "peer"
  · rw [if_pos hpeer, if_pos hpeer, hplain _ (by rw [hpeer]; decide)]
    cases value with
    | bytes b => simp only [ofWire, registryUnless_eq_ok, Value.bytes.injEq, exists_eq_left', ne_eq, not_not]
    | uint n => simp only [ofWire]; split_ifs <;> simp [fail]
    | _ => simp [ofWire, fail]
  rw [if_neg hpeer, if_neg hpeer]
  by_cases hipns : kind = "ipns"
  · rw [if_pos hipns, if_pos hipns]
    cases value with
    | text s =>
      -- the registry counts UTF-16 units here and the client bytes
      have hle := length_le_jsLength s
      rw [ofWire, dropBom_of_not hb]
      simp only [registryUnless_eq_ok, jsLength_pos, Value.text.injEq, exists_eq_left', IpnsUnits, hipns,
        forall_const, forall_eq', not_or, not_lt, gt_iff_lt, ne_eq]
      constructor
      · rintro ⟨hne, hunits⟩; exact ⟨⟨hne, by omega⟩, hunits⟩
      · rintro ⟨⟨hne, -⟩, hunits⟩; exact ⟨hne, hunits⟩
    | uint n => simp only [ofWire]; split_ifs <;> simp [fail]
    | _ => simp [ofWire, fail]
  rw [if_neg hipns, if_neg hipns, hplain _ hipns]
  by_cases hcid : kind = "cid"
  · rw [if_pos hcid, if_pos hcid]
    cases value with
    | bytes b =>
      simp only [ofWire, registryUnless_eq_ok, Value.bytes.injEq, exists_eq_left', not_or, not_lt, gt_iff_lt,
        ne_eq, ← List.length_pos_iff]
      rfl
    | uint n => simp only [ofWire]; split_ifs <;> simp [fail]
    | _ => simp [ofWire, fail]
  rw [if_neg hcid, if_neg hcid]
  by_cases htxt : kind = "txt"
  · rw [if_pos htxt, if_pos htxt]
    cases value with
    | text s =>
      have hempty : utf8Length s < 1 ↔ s.toList = [] := by
        rw [← utf8Encode_eq_nil, utf8Length, ← List.length_eq_zero_iff]
        omega
      rw [ofWire, dropBom_of_not hb]
      by_cases hsize : utf8Length s < 1 ∨ utf8Length s > 255
      · simp only [if_pos hsize, fail, reduceCtorEq, false_iff, Value.text.injEq, exists_eq_left']
        rintro ⟨hne, hle, -⟩
        rcases hsize with h | h
        · exact hne (hempty.1 h)
        · exact absurd hle (Nat.not_le.2 h)
      · simp only [if_neg hsize, registryUnless_eq_ok, Value.text.injEq, exists_eq_left', Bool.not_eq_true]
        rw [not_or, hempty] at hsize
        constructor
        · intro hany; exact ⟨hsize.1, Nat.le_of_not_gt hsize.2, hany⟩
        · rintro ⟨-, -, hany⟩; exact hany
    | uint n => simp only [ofWire]; split_ifs <;> simp [fail]
    | _ => simp [ofWire, fail]
  rw [if_neg htxt, if_neg htxt]
  by_cases halias : kind = "alias"
  · rw [if_pos halias, if_pos halias]
    cases value with
    | text s =>
      rw [ofWire, dropBom_of_not hb]
      simp only [registryUnless_eq_ok, Value.text.injEq, exists_eq_left', parseAlias_isSome, ne_eq]
    | uint n => simp only [ofWire]; split_ifs <;> simp [fail]
    | _ => simp [ofWire, fail]
  · rw [if_neg halias, if_neg halias]
    simp

/-- The `ttl` the registry gives an entry. -/
def ttlOf (fields : Members) : ℕ :=
  match field fields "ttl" with
  | some (.uint ttl) => ttl
  | _ => VayuWeb.defaultTtl

/-- The entry the registry reads. -/
def entryOf (fields : Members) (kind : String) (value : Value) : RecordEntry :=
  { type := kind, value := ofWire value, ttl := ttlOf fields, known := knownEntryTypes.contains kind }

/-- When the registry takes a lifetime. -/
theorem parseTtl_eq_ok {fields : Members} {n : ℕ} :
    parseTtl ((field fields "ttl").map ofWire) = .ok n ↔
      (∀ ttl, field fields "ttl" = some ttl → ∃ n, ttl = .uint n ∧ minTtl ≤ n ∧ n ≤ maxTtl) ∧
        n = ttlOf fields := by
  unfold ttlOf
  cases field fields "ttl" with
  | none => simp [parseTtl, eq_comm]
  | some ttl =>
    rw [Option.map_some]
    cases ttl with
    | uint m =>
      have hmax : maxTtl ≤ maxSafeInteger := by decide
      simp only [Option.some.injEq, forall_eq', Value.uint.injEq, exists_eq_left']
      by_cases hm : m ≤ maxSafeInteger
      · simp only [ofWire, if_pos hm, parseTtl]
        unfold fail
        split_ifs with h
        · simp only [false_iff, not_and]
          rintro ⟨h1, h2⟩
          rcases h with h | h
          · exact absurd h1 (Nat.not_le.2 h)
          · exact absurd h2 (Nat.not_le.2 h)
        · rw [not_or] at h
          simp only [Except.ok.injEq]
          constructor
          · rintro rfl; exact ⟨⟨Nat.le_of_not_lt h.1, Nat.le_of_not_lt h.2⟩, rfl⟩
          · rintro ⟨-, rfl⟩; rfl
      -- above 2^53 - 1 it is a bigint, which is no TTL
      · simp only [ofWire, if_neg hm, parseTtl, fail, reduceCtorEq, false_iff, not_and]
        rintro ⟨-, h2⟩
        omega
    | _ => simp [ofWire, parseTtl, fail]

theorem entrySize_ofWire {value : Value} (hb : value.hasBom = false) :
    entrySize (ofWire value) = valueSize value := by
  cases value with
  | uint n => simp only [ofWire]; split_ifs <;> rfl
  | text s => rw [ofWire, dropBom_of_not hb]; rfl
  | _ => rfl

/-- **The registry reads an entry when both schemas admit it and its `ipns` units fit.** -/
theorem parseEntry_eq_ok {lv : ℕ} {entry : Value} {e : RecordEntry} (hc : Canonical lv entry)
    (hb : entry.hasBom = false) : parseEntry (ofWire entry) = .ok e ↔
      ∃ fields kind value, EntryFits entry fields kind value ∧ IpnsUnits kind value ∧
        e = entryOf fields kind value := by
  cases entry with
  | map fields =>
    rw [ofWire_map_eq hc hb]
    simp only [parseEntry, Except.bind_eq_ok, VayuWeb.textField_eq_ok, get?_ofWire_text hb]
    constructor
    · rintro ⟨kind, htype, h⟩
      rw [get?_ofWire] at h
      cases hvalue : field fields "value" with
      | none => simp [hvalue, fail] at h
      | some value =>
        have hbv := field_bomFree hb hvalue
        rw [hvalue, get?_ofWire] at h
        simp only [Option.map_some, Except.bind_eq_ok, parseTtl_eq_ok, check_eq_ok, Except.pure_eq_ok,
          checkKnownEntry_eq_ok hbv, entrySize_ofWire hbv, Except.ok.injEq] at h
        obtain ⟨ttl, ⟨httl, rfl⟩, -, hsize, -, ⟨hshape, hunits⟩, rfl⟩ := h
        exact ⟨fields, kind, value, ⟨rfl, htype, hvalue, httl, Nat.le_of_not_lt hsize, hshape⟩, hunits, rfl⟩
    · rintro ⟨fields', kind, value, h, hunits, rfl⟩
      have hmap := h.map
      rw [Value.map.injEq] at hmap
      subst hmap
      have hbv := field_bomFree hb h.value_eq
      refine ⟨kind, h.type_eq, ?_⟩
      rw [get?_ofWire, get?_ofWire, h.value_eq]
      simp only [Option.map_some, Except.bind_eq_ok, parseTtl_eq_ok, check_eq_ok, Except.pure_eq_ok,
        checkKnownEntry_eq_ok hbv, entrySize_ofWire hbv, Except.ok.injEq]
      exact ⟨_, ⟨h.ttl, rfl⟩, (), Nat.not_lt.2 h.size, (), ⟨h.shape, hunits⟩, rfl⟩
  -- an entry that is not a map is refused by its first field
  | _ =>
    constructor
    · intro h
      simp only [ofWire] at h
      first
        | (split_ifs at h <;> simp [parseEntry, fail] at h)
        | simp [parseEntry, fail] at h
    · rintro ⟨fields, kind, value, h, -⟩
      have := h.map
      simp at this

/-- An entry fits in one way. -/
theorem EntryFits.unique {entry : Value} {fields fields' : Members} {kind kind' : String}
    {value value' : Value} (h : EntryFits entry fields kind value)
    (h' : EntryFits entry fields' kind' value') : fields = fields' ∧ kind = kind' ∧ value = value' := by
  have hfields : fields = fields' := Value.map.inj (h.map.symm.trans h'.map)
  subst hfields
  have htype := h.type_eq.symm.trans h'.type_eq
  have hvalue := h.value_eq.symm.trans h'.value_eq
  exact ⟨rfl, Value.text.inj (Option.some.inj htype), Option.some.inj hvalue⟩

/-- Every `ipns` value of the list is within the registry's bound. -/
def ListUnits (entries : List Value) : Prop :=
  ∀ entry ∈ entries, ∀ fields kind value, EntryFits entry fields kind value → IpnsUnits kind value

/-- `e` is what the registry reads at `entry`. -/
def Reads (entry : Value) (e : RecordEntry) : Prop :=
  ∃ fields kind value, EntryFits entry fields kind value ∧ IpnsUnits kind value ∧
    e = entryOf fields kind value

/-- When the registry takes the aliases of a record. -/
theorem checkAliases_eq_ok {label tld : String} {entries : List RecordEntry} {u : Unit} :
    checkAliases label tld entries = .ok u ↔ ∀ e ∈ entries, e.type = "alias" →
      entries.length ≤ 1 ∧ ¬ ∃ s, e.value = .text s ∧ VayuWeb.parseAlias s = some (label, tld) := by
  have hmem : ∀ e, e ∈ entries.filter (fun e => e.type = "alias") ↔ e ∈ entries ∧ e.type = "alias" := by
    intro e
    rw [List.mem_filter, decide_eq_true_eq]
  have hle := List.length_filter_le (fun e : RecordEntry => decide (e.type = "alias")) entries
  unfold checkAliases fail
  -- no alias, one alias, or a second one, which is refused
  cases hfilter : entries.filter (fun e => e.type = "alias") with
  | nil =>
    refine iff_of_true rfl fun e he hkind => ?_
    have := (hmem e).2 ⟨he, hkind⟩
    rw [hfilter] at this
    exact absurd this List.not_mem_nil
  | cons pointer rest =>
    have hpointer : pointer ∈ entries ∧ pointer.type = "alias" :=
      (hmem pointer).1 (by rw [hfilter]; exact List.mem_cons_self)
    rw [hfilter, List.length_cons] at hle
    cases rest with
    | cons second rest =>
      simp only [reduceCtorEq, false_iff]
      intro h
      have := (h pointer hpointer.1 hpointer.2).1
      rw [List.length_cons] at hle
      omega
    | nil =>
      by_cases hlong : entries.length > 1
      · simp only [if_pos hlong, reduceCtorEq, false_iff]
        intro h
        have := (h pointer hpointer.1 hpointer.2).1
        omega
      · have hone : entries = [pointer] := by
          obtain ⟨e, he⟩ := List.length_eq_one_iff.1
            (show entries.length = 1 by simp only [List.length_nil] at hle; omega)
          rw [he, List.mem_singleton] at hpointer
          rw [he, hpointer.1]
        simp only [if_neg hlong]
        rw [hone]
        simp only [List.mem_singleton, forall_eq, hpointer.2, forall_const, List.length_singleton, le_refl,
          true_and]
        cases pointer.value with
        | text s =>
          by_cases hself : VayuWeb.parseAlias s = some (label, tld)
          · simp [hself]
          · simp [hself]
        | _ => simp

/-- An alias to its own name, as each program sees it. -/
theorem namesItself_iff {label tld : String} {value : Value} (hb : value.hasBom = false) :
    NamesItself label tld value ↔
      ∃ s, ofWire value = .text s ∧ VayuWeb.parseAlias s = some (label, tld) := by
  have hpair : ∀ s, VayuWeb.parseAlias s = some (label, tld) ↔ parseAlias s = some ⟨label, tld⟩ := by
    intro s
    rw [← parseAlias_eq, Option.map_eq_some_iff]
    constructor
    · rintro ⟨⟨l, t⟩, hs, heq⟩
      rw [hs]
      simp only [Alias.pair, Prod.mk.injEq] at heq
      rw [heq.1, heq.2]
    · intro hs
      exact ⟨_, hs, rfl⟩
  simp only [NamesItself, ofWire_eq_text hb, hpair]

section List

variable {lv : ℕ} {es : Members} {label tld : String}

/-- When the registry takes the entries of a record. -/
theorem parseEntries_eq_ok {res : List RecordEntry} (hc : Canonical (lv + 2) (.map es))
    (hb : (Value.map es).hasBom = false) :
    VayuWeb.parseEntries (es.map fun e => (e.1, ofWire e.2)) = .ok res ↔
      ∃ entries, field es "records" = some (.array entries) ∧ entries.length ≤ maxRecordEntries ∧
        List.Forall₂ Reads entries res := by
  unfold VayuWeb.parseEntries
  rw [get?_ofWire]
  cases hrecords : field es "records" with
  | none => simp [fail]
  | some v =>
    have hcv := field_canonical hc hrecords
    have hbv := field_bomFree hb hrecords
    rw [Option.map_some]
    cases v with
    | array entries =>
      rw [DetCbor.canonical_array] at hcv
      rw [Value.hasBom, DetCbor.itemsHaveBom_eq_any, List.any_eq_false] at hbv
      simp only [ofWire, ofWireItems_eq_map, List.length_map, Option.some.injEq, Value.array.injEq,
        exists_eq_left']
      by_cases hlong : entries.length > VayuWeb.maxRecordEntries
      · simp only [if_pos hlong, fail, reduceCtorEq, false_iff, not_and]
        intro hle
        exact absurd hle (Nat.not_le.2 hlong)
      · have hle : entries.length ≤ maxRecordEntries := Nat.le_of_not_lt hlong
        simp only [if_neg hlong, hle, true_and]
        rw [Except.mapM_eq_ok, List.forall₂_map_left_iff]
        -- every entry is read by itself, and the list is read when all of them are
        have hread : ∀ entry ∈ entries, ∀ e, parseEntry (ofWire entry) = .ok e ↔ Reads entry e :=
          fun entry he e => parseEntry_eq_ok (hcv.2 entry he) (by simpa using hbv entry he)
        constructor
        · intro h
          exact Except.forall₂_imp_mem h fun entry he e => (hread entry he e).1
        · intro h
          exact Except.forall₂_imp_mem h fun entry he e => (hread entry he e).2
    | uint n => simp only [ofWire]; split_ifs <;> simp [fail]
    | _ => simp [ofWire, fail]

/-- A value that is read carries no byte order mark. -/
theorem value_bomFree (hb : (Value.map es).hasBom = false) {entries : List Value}
    (hrecords : field es "records" = some (.array entries)) {entry : Value} (hentry : entry ∈ entries)
    {fields : Members} {kind : String} {value : Value} (hfits : EntryFits entry fields kind value) :
    value.hasBom = false := by
  have hlist := field_bomFree hb hrecords
  rw [Value.hasBom, DetCbor.itemsHaveBom_eq_any, List.any_eq_false] at hlist
  have hmap : (Value.map fields).hasBom = false := by
    rw [← hfits.map]
    simpa using hlist entry hentry
  exact field_bomFree hmap hfits.value_eq

/-- **The registry reads the entries exactly when they fit both schemas and its bound.** -/
theorem registryEntries_eq_ok (hc : Canonical (lv + 2) (.map es)) (hb : (Value.map es).hasBom = false) :
    (∃ res, VayuWeb.parseEntries (es.map fun e => (e.1, ofWire e.2)) = .ok res ∧
        checkAliases label tld res = .ok ()) ↔
      ∃ entries, field es "records" = some (.array entries) ∧ entries.length ≤ maxRecordEntries ∧
        ListFits label tld entries ∧ ListUnits entries := by
  simp only [parseEntries_eq_ok hc hb, checkAliases_eq_ok]
  constructor
  · rintro ⟨res, ⟨entries, hrecords, hle, hreads⟩, haliases⟩
    refine ⟨entries, hrecords, hle, fun entry hentry => ?_, fun entry hentry fields kind value hfits => ?_⟩
    · obtain ⟨e, he, fields, kind, value, hfits, -, rfl⟩ := Except.exists_of_forall₂_left hreads hentry
      refine ⟨fields, kind, value, hfits, fun hkind => ?_⟩
      obtain ⟨hlen, hself⟩ := haliases _ he hkind
      rw [← hreads.length_eq] at hlen
      exact ⟨hlen, fun h => hself ((namesItself_iff (value_bomFree hb hrecords hentry hfits)).1 h)⟩
    · obtain ⟨e, he, fields', kind', value', hfits', hunits, rfl⟩ := Except.exists_of_forall₂_left hreads hentry
      obtain ⟨-, rfl, rfl⟩ := hfits.unique hfits'
      exact hunits
  · rintro ⟨entries, hrecords, hle, hfit, hunits⟩
    have hreads : ∀ entry ∈ entries, ∃ e, Reads entry e := by
      intro entry hentry
      obtain ⟨fields, kind, value, hfits, -⟩ := hfit entry hentry
      exact ⟨_, fields, kind, value, hfits, hunits entry hentry fields kind value hfits, rfl⟩
    obtain ⟨res, hres⟩ := Except.forall₂_of_exists hreads
    refine ⟨res, ⟨entries, hrecords, hle, hres⟩, fun e he hkind => ?_⟩
    obtain ⟨entry, hentry, fields, kind, value, hfits, -, rfl⟩ := Except.exists_of_forall₂_right hres he
    obtain ⟨fields', kind', value', hfits', halias⟩ := hfit entry hentry
    obtain ⟨-, rfl, rfl⟩ := hfits.unique hfits'
    obtain ⟨hlen, hself⟩ := halias hkind
    rw [hres.length_eq] at hlen
    exact ⟨hlen, fun h => hself ((namesItself_iff (value_bomFree hb hrecords hentry hfits)).2 h)⟩

end List

end VayuWeb.Client
