import VayuWeb.DetCbor.Parse
import Mathlib.Data.List.Sort

/-!
# Deterministic CBOR: putting a value in order

A value built in memory carries its entries in any order. `Value.sorted` puts every
map in the order of its encoded keys.

* `canonical_sorted`: a value whose lengths fit, whose maps have distinct keys and
  which nests less than `lv` deep is canonical once sorted.
* `sorted_of_canonical`: a canonical value is in order already.
-/

namespace DetCbor

open Bytes

/-! ## The order of encodings -/

theorem bytes_trichotomy (a b : Bytes) : a < b ∨ a = b ∨ b < a := by
  induction a generalizing b with
  | nil => cases b <;> simp
  | cons x a ih =>
    cases b with
    | nil => simp
    | cons y b =>
      simp only [List.cons_lt_cons_iff, List.cons.injEq]
      rcases ih b with h | h | h <;> rcases Nat.lt_trichotomy x.toNat y.toNat with hxy | hxy | hxy <;>
        simp_all [UInt8.lt_iff_toNat_lt, ← UInt8.toNat_inj]

/-- `e` may stand before `f`. -/
def Before (e f : Key × Value) : Prop := ¬ f.1.encode < e.1.encode

instance : DecidableRel Before := fun _ _ => inferInstanceAs (Decidable (¬ _))

instance : Std.Total Before := ⟨fun e f => by
  unfold Before
  by_contra h
  push Not at h
  exact List.lt_irrefl _ (List.lt_trans h.1 h.2)⟩

instance : IsTrans (Key × Value) Before := ⟨fun e f g hef hfg => by
  unfold Before at *
  intro hge
  rcases bytes_trichotomy e.1.encode f.1.encode with h | h | h
  · exact hfg (List.lt_trans hge h)
  · rw [h] at hge
    exact hfg hge
  · exact hef h⟩

/-- The entries in the order of their encoded keys. -/
def sortByKey (es : List (Key × Value)) : List (Key × Value) := es.insertionSort Before

/-- Sorting keeps the entries. -/
theorem sortByKey_perm (es : List (Key × Value)) : (sortByKey es).Perm es :=
  List.perm_insertionSort _ _

/-- Sorting looks at the keys only. -/
theorem sortByKey_map (f : Value → Value) (es : List (Key × Value)) :
    sortByKey (es.map fun e => (e.1, f e.2)) = (sortByKey es).map fun e => (e.1, f e.2) :=
  (List.map_insertionSort Before Before (fun e => (e.1, f e.2)) es fun _ _ _ _ => Iff.rfl).symm

/-- Entries in order are left as they are. -/
theorem sortByKey_of_sortedKeys {es : List (Key × Value)} (h : SortedKeys es) : sortByKey es = es :=
  List.Pairwise.insertionSort_eq (List.Pairwise.imp
    (fun hlt hgt => List.lt_irrefl _ (List.lt_trans hlt hgt)) h)

/-! ## Values that can be written -/

/-- A key whose length fits a head. -/
def Key.Fits : Key → Prop
  | .text s => (utf8Encode s).length < 2 ^ 64
  | .bytes b => b.length < 2 ^ 64

mutual

/-- Every number and every length in the value is below `2 ^ 64`. -/
def Value.Fits : Value → Prop
  | .uint n => n < 2 ^ 64
  | .bytes b => b.length < 2 ^ 64
  | .text s => (utf8Encode s).length < 2 ^ 64
  | .array xs => xs.length < 2 ^ 64 ∧ itemsFit xs
  | .map es => es.length < 2 ^ 64 ∧ entriesFit es
  | .null => True

/-- `Value.Fits` on every item of an array. -/
def itemsFit : List Value → Prop
  | [] => True
  | x :: xs => x.Fits ∧ itemsFit xs

/-- `Value.Fits` on every entry of a map. -/
def entriesFit : List (Key × Value) → Prop
  | [] => True
  | (k, v) :: es => k.Fits ∧ v.Fits ∧ entriesFit es

end

mutual

/-- Every map in the value has distinct keys. -/
def Value.KeysDistinct : Value → Prop
  | .array xs => itemsKeysDistinct xs
  | .map es => (es.map Prod.fst).Nodup ∧ entriesKeysDistinct es
  | _ => True

/-- `Value.KeysDistinct` on every item of an array. -/
def itemsKeysDistinct : List Value → Prop
  | [] => True
  | x :: xs => x.KeysDistinct ∧ itemsKeysDistinct xs

/-- `Value.KeysDistinct` on every value of a map. -/
def entriesKeysDistinct : List (Key × Value) → Prop
  | [] => True
  | (_, v) :: es => v.KeysDistinct ∧ entriesKeysDistinct es

end

mutual

/-- How deep the value nests: its items, its keys and its entries' values are one deeper. -/
def Value.depth : Value → ℕ
  | .array xs => itemsDepth xs
  | .map es => entriesDepth es
  | _ => 0

/-- How deep an array is nested below itself. -/
def itemsDepth : List Value → ℕ
  | [] => 0
  | x :: xs => max (x.depth + 1) (itemsDepth xs)

/-- How deep a map is nested below itself. -/
def entriesDepth : List (Key × Value) → ℕ
  | [] => 0
  | (_, v) :: es => max (v.depth + 1) (entriesDepth es)

end

mutual

/-- The value with every map in the order of its encoded keys. -/
def Value.sorted : Value → Value
  | .array xs => .array (sortedItems xs)
  | .map es => .map (sortByKey (sortedEntries es))
  | v => v

/-- `Value.sorted` on every item of an array. -/
def sortedItems : List Value → List Value
  | [] => []
  | x :: xs => x.sorted :: sortedItems xs

/-- `Value.sorted` on every value of a map. -/
def sortedEntries : List (Key × Value) → List (Key × Value)
  | [] => []
  | (k, v) :: es => (k, v.sorted) :: sortedEntries es

end

theorem itemsFit_iff {xs : List Value} : itemsFit xs ↔ ∀ x ∈ xs, x.Fits := by
  induction xs with
  | nil => simp [itemsFit]
  | cons x xs ih => simp [itemsFit, ih]

theorem entriesFit_iff {es : List (Key × Value)} : entriesFit es ↔ ∀ e ∈ es, e.1.Fits ∧ e.2.Fits := by
  induction es with
  | nil => simp [entriesFit]
  | cons e es ih => simp [entriesFit, ih, and_assoc]

theorem itemsKeysDistinct_iff {xs : List Value} : itemsKeysDistinct xs ↔ ∀ x ∈ xs, x.KeysDistinct := by
  induction xs with
  | nil => simp [itemsKeysDistinct]
  | cons x xs ih => simp [itemsKeysDistinct, ih]

theorem entriesKeysDistinct_iff {es : List (Key × Value)} :
    entriesKeysDistinct es ↔ ∀ e ∈ es, e.2.KeysDistinct := by
  induction es with
  | nil => simp [entriesKeysDistinct]
  | cons e es ih => simp [entriesKeysDistinct, ih]

theorem itemsDepth_lt {xs : List Value} {lv : ℕ} :
    itemsDepth xs < lv + 1 ↔ ∀ x ∈ xs, x.depth < lv := by
  induction xs with
  | nil => simp [itemsDepth]
  | cons x xs ih =>
    simp only [itemsDepth, List.forall_mem_cons, ← ih]
    omega

theorem entriesDepth_lt {es : List (Key × Value)} {lv : ℕ} :
    entriesDepth es < lv + 1 ↔ ∀ e ∈ es, e.2.depth < lv := by
  induction es with
  | nil => simp [entriesDepth]
  | cons e es ih =>
    simp only [entriesDepth, List.forall_mem_cons, ← ih]
    omega

theorem sortedItems_eq_map (xs : List Value) : sortedItems xs = xs.map Value.sorted := by
  induction xs with
  | nil => rfl
  | cons x xs ih => simp [sortedItems, ih]

theorem sortedEntries_eq_map (es : List (Key × Value)) :
    sortedEntries es = es.map fun e => (e.1, e.2.sorted) := by
  induction es with
  | nil => rfl
  | cons e es ih => simp [sortedEntries, ih]

theorem sorted_array (xs : List Value) : (Value.array xs).sorted = .array (xs.map Value.sorted) := by
  rw [Value.sorted, sortedItems_eq_map]

/-- A sorted map is its sorted values under its keys in order. -/
theorem sorted_map (es : List (Key × Value)) :
    (Value.map es).sorted = .map ((sortByKey es).map fun e => (e.1, e.2.sorted)) := by
  rw [Value.sorted, sortedEntries_eq_map, sortByKey_map]

/-! ## Sorted values are canonical -/

/-- A key that fits is canonical. -/
theorem Key.canonical {k : Key} (h : k.Fits) (lv : ℕ) : Canonical (lv + 1) k.toValue := by
  cases k with
  | text s => exact h
  | bytes b => exact h

/-- A head says where a key ends. -/
theorem Key.encode_injective {k l : Key} (hk : k.Fits) (hl : l.Fits) (h : k.encode = l.encode) : k = l := by
  have hinj := (encode_append_inj (r := []) (s := []) (k.canonical hk 0) (l.canonical hl 0)
    (by simpa using h)).1
  revert hinj
  cases k <;> cases l <;> simp [Key.toValue]

/-- Distinct keys that fit are in order once sorted. -/
theorem sortedKeys_sortByKey {es : List (Key × Value)} (hfits : ∀ e ∈ es, e.1.Fits)
    (hdistinct : (es.map Prod.fst).Nodup) : SortedKeys (sortByKey es) := by
  have hpairs : (sortByKey es).Pairwise Before := List.pairwise_insertionSort Before es
  have hkeys : (sortByKey es).Pairwise fun e f => e.1 ≠ f.1 := by
    have hnodup : ((sortByKey es).map Prod.fst).Nodup :=
      ((sortByKey_perm es).map Prod.fst).nodup_iff.2 hdistinct
    rw [List.Nodup, List.pairwise_map] at hnodup
    exact hnodup
  apply List.Pairwise.imp_of_mem ?_ (hpairs.and hkeys)
  intro e f he hf ⟨hbefore, hne⟩
  have hfe := hfits e ((sortByKey_perm es).mem_iff.1 he)
  have hff := hfits f ((sortByKey_perm es).mem_iff.1 hf)
  rcases bytes_trichotomy e.1.encode f.1.encode with hlt | heq | hgt
  · exact hlt
  · exact absurd (Key.encode_injective hfe hff heq) hne
  · exact absurd hgt hbefore

/-- **A value that fits, has distinct keys and nests less than `lv` deep is canonical once
sorted.** -/
theorem canonical_sorted : ∀ lv v, Value.Fits v → v.KeysDistinct → v.depth < lv → Canonical lv v.sorted := by
  intro lv
  induction lv with
  | zero =>
    intro v _ _ hdepth
    omega
  | succ lv ih =>
    intro v hfits hdistinct hdepth
    cases v with
    | uint n => exact hfits
    | bytes b => exact hfits
    | text s => exact hfits
    | null => trivial
    | array xs =>
      rw [Value.Fits, itemsFit_iff] at hfits
      rw [Value.KeysDistinct, itemsKeysDistinct_iff] at hdistinct
      rw [Value.depth, itemsDepth_lt] at hdepth
      rw [sorted_array, canonical_array, List.length_map]
      refine ⟨hfits.1, ?_⟩
      intro y hy
      obtain ⟨x, hx, rfl⟩ := List.mem_map.1 hy
      exact ih x (hfits.2 x hx) (hdistinct x hx) (hdepth x hx)
    | map es =>
      rw [Value.Fits, entriesFit_iff] at hfits
      rw [Value.KeysDistinct, entriesKeysDistinct_iff] at hdistinct
      rw [Value.depth, entriesDepth_lt] at hdepth
      rw [sorted_map, canonical_map, List.length_map, (sortByKey_perm es).length_eq]
      have hsorted := sortedKeys_sortByKey (fun e he => (hfits.2 e he).1) hdistinct.1
      refine ⟨hfits.1, ?_, ?_⟩
      · unfold SortedKeys
        rw [List.pairwise_map]
        exact hsorted
      · intro f hf
        obtain ⟨e, he, rfl⟩ := List.mem_map.1 hf
        have hmem := (sortByKey_perm es).mem_iff.1 he
        have hvalue := ih e.2 (hfits.2 e hmem).2 (hdistinct.2 e hmem) (hdepth e hmem)
        refine ⟨?_, hvalue⟩
        -- the value of an entry nests at least one level, and so may its key
        cases lv with
        | zero => exact hvalue.elim
        | succ lv => exact Key.canonical (hfits.2 e hmem).1 lv

/-! ## Canonical values are sorted -/

/-- A canonical value fits, has distinct keys, nests less than `lv` deep and is in order already. -/
theorem sorted_of_canonical : ∀ lv v, Canonical lv v →
    Value.Fits v ∧ v.KeysDistinct ∧ v.depth < lv ∧ v.sorted = v := by
  intro lv
  induction lv with
  | zero =>
    intro v h
    exact h.elim
  | succ lv ih =>
    intro v h
    cases v with
    | uint n => exact ⟨h, trivial, Nat.succ_pos _, rfl⟩
    | bytes b => exact ⟨h, trivial, Nat.succ_pos _, rfl⟩
    | text s => exact ⟨h, trivial, Nat.succ_pos _, rfl⟩
    | null => exact ⟨trivial, trivial, Nat.succ_pos _, rfl⟩
    | array xs =>
      obtain ⟨hlen, hall⟩ := canonical_array.1 h
      rw [Value.Fits, itemsFit_iff, Value.KeysDistinct, itemsKeysDistinct_iff, Value.depth, itemsDepth_lt,
        sorted_array]
      refine ⟨⟨hlen, fun x hx => (ih x (hall x hx)).1⟩, fun x hx => (ih x (hall x hx)).2.1,
        fun x hx => (ih x (hall x hx)).2.2.1, ?_⟩
      rw [List.map_congr_left fun x hx => (ih x (hall x hx)).2.2.2, List.map_id']
    | map es =>
      obtain ⟨hlen, hsorted, hall⟩ := canonical_map.1 h
      -- keys in order are distinct, and sorting leaves them where they are
      have hkeys : (es.map Prod.fst).Nodup := by
        rw [List.Nodup, List.pairwise_map]
        apply List.Pairwise.imp ?_ hsorted
        intro e f hlt heq
        rw [heq] at hlt
        exact List.lt_irrefl _ hlt
      have hfits : ∀ e ∈ es, e.1.Fits := by
        intro e he
        have hkey := (ih _ (hall e he).1).1
        cases hk : e.1 <;> rw [hk] at hkey <;> exact hkey
      rw [Value.Fits, entriesFit_iff, Value.KeysDistinct, entriesKeysDistinct_iff, Value.depth,
        entriesDepth_lt, sorted_map, sortByKey_of_sortedKeys hsorted]
      refine ⟨⟨hlen, fun e he => ⟨hfits e he, (ih _ (hall e he).2).1⟩⟩,
        ⟨hkeys, fun e he => (ih _ (hall e he).2).2.1⟩, fun e he => (ih _ (hall e he).2).2.2.1, ?_⟩
      have hsame : ∀ e ∈ es, (e.1, e.2.sorted) = e := by
        intro e he
        rw [(ih _ (hall e he).2).2.2.2]
      rw [List.map_congr_left hsame, List.map_id']

end DetCbor
