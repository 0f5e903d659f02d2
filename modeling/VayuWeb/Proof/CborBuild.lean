import VayuWeb.DetCbor.Order
import VayuWeb.Proof.CborRoundTrip

/-!
# What the TypeScript codec writes of a value in memory

A value built in memory has its entries in any order, and its text carries no byte order mark.

* `encodeValue_eq_ok_iff`: when it is written, and as what.
* `decode_of_encode`: what is written reads back, with the entries in order.
* `get?_sorted`: and every entry is still found.
-/

namespace VayuWeb

open Bytes
open DetCbor (Key Value Before sortByKey head)

/-- A map as a caller builds it, an entry for each. -/
def built (es : List (Key × Value)) : CborMap := es.map fun e => (e.1, ofWire e.2)

/-- The map a decoder builds from entries without byte order marks. -/
theorem ofWire_map {es : List (Key × Value)} (hbom : (Value.map es).hasBom = false) (hnodup : (es.map Prod.fst).Nodup) :
    ofWire (.map es) = .map (built es) := by
  rw [Value.hasBom, DetCbor.entriesHaveBom_eq_any, List.any_eq_false] at hbom
  simp only [Bool.or_eq_true, not_or, Bool.not_eq_true] at hbom
  have hkeys : (es.map fun e => keyOfWire e.1) = es.map Prod.fst :=
    List.map_congr_left fun e he => keyOfWire_of_not (hbom e he).1
  rw [ofWire, ofWireEntries_of_nodup es [] (by simpa [hkeys] using hnodup), List.nil_append, built]
  refine congrArg CborValue.map (List.map_congr_left fun e he => ?_)
  rw [keyOfWire_of_not (hbom e he).1]

theorem hasBom_map {es : List (Key × Value)} : (Value.map es).hasBom = false ↔
    ∀ e ∈ es, e.1.toValue.hasBom = false ∧ e.2.hasBom = false := by
  rw [Value.hasBom, DetCbor.entriesHaveBom_eq_any, List.any_eq_false]
  simp only [Bool.or_eq_true, not_or, Bool.not_eq_true]

theorem hasBom_array {xs : List Value} : (Value.array xs).hasBom = false ↔ ∀ x ∈ xs, x.hasBom = false := by
  rw [Value.hasBom, DetCbor.itemsHaveBom_eq_any, List.any_eq_false]
  simp only [Bool.not_eq_true]

/-- The encoding of a map, entry by entry. -/
theorem encode_map (es : List (Key × Value)) :
    (Value.map es).encode = head 5 es.length ++ (es.map fun e => e.1.encode ++ e.2.encode).flatten := by
  rw [Value.encode, DetCbor.encodeEntries_eq_flatten]

/-- The order of encoded keys is the one that `sortEntries` uses. -/
theorem sortEntries_keys (es : List (Key × Value)) :
    sortEntries (es.map fun e => (e.1.encode, ofWire e.2)) = (sortByKey es).map fun e => (e.1.encode, ofWire e.2) := by
  refine (List.map_insertionSort _ _ (fun e : Key × Value => (e.1.encode, ofWire e.2)) es ?_).symm
  intro e _ f _
  have hgt : compareBytes e.1.encode f.1.encode = .gt ↔ f.1.encode < e.1.encode := by
    rcases DetCbor.bytes_trichotomy e.1.encode f.1.encode with h | h | h
    · rw [compareBytes_lt.2 h]
      simp only [reduceCtorEq, false_iff]
      exact fun hlt => List.lt_irrefl _ (List.lt_trans h hlt)
    · rw [h, compareBytes_eq.2 rfl]
      simp only [reduceCtorEq, false_iff]
      exact List.lt_irrefl _
    · have hne : compareBytes e.1.encode f.1.encode ≠ .eq := by
        intro heq
        rw [compareBytes_eq.1 heq] at h
        exact List.lt_irrefl _ h
      have hlt : compareBytes e.1.encode f.1.encode ≠ .lt := by
        intro hlt
        exact List.lt_irrefl _ (List.lt_trans h (compareBytes_lt.1 hlt))
      simp only [h, iff_true]
      cases hcompare : compareBytes e.1.encode f.1.encode with
      | lt => exact absurd hcompare hlt
      | eq => exact absurd hcompare hne
      | gt => rfl
  simp only [ne_eq, hgt, Before]

/-! ## What is written -/

/-- A value is written when its numbers and lengths fit and it does not nest too deep, and then in
order. -/
def WritesSorted (lv : ℕ) (w : Value) : Prop :=
  ∀ b, encodeValue lv (ofWire w) = .ok b ↔ w.Fits ∧ w.depth < lv ∧ b = w.sorted.encode

theorem writesSorted_uint (lv n : ℕ) : WritesSorted (lv + 1) (.uint n) := by
  intro b
  have hwrite : encodeValue (lv + 1) (ofWire (.uint n)) = writeHead 0 n := by
    rw [ofWire]
    split_ifs with hsafe
    · rw [encodeValue, assertUint, if_pos hsafe, Except.ok_bind]
    · rw [encodeValue]
  rw [hwrite, writeHead_eq_ok, Value.Fits, Value.depth, Value.sorted, Value.encode]
  · simp
  all_goals simp

theorem writesSorted_bytes (lv : ℕ) (bytes : Bytes) : WritesSorted (lv + 1) (.bytes bytes) := by
  intro b
  rw [ofWire, encodeValue, Except.bind_eq_ok, Value.Fits, Value.depth, Value.sorted, Value.encode]
  · simp only [writeHead_eq_ok, Except.pure_eq_ok, Except.ok.injEq]
    constructor
    · rintro ⟨_, ⟨hlength, rfl⟩, rfl⟩
      exact ⟨hlength, Nat.succ_pos _, rfl⟩
    · rintro ⟨hlength, -, rfl⟩
      exact ⟨_, ⟨hlength, rfl⟩, rfl⟩
  all_goals simp

theorem writesSorted_text (lv : ℕ) {s : String} (hbom : (Value.text s).hasBom = false) :
    WritesSorted (lv + 1) (.text s) := by
  intro b
  have htext : textDecoderSafe (utf8Encode s) = some s := by
    rw [textDecoderSafe_utf8Encode, dropBom_of_not hbom]
  rw [ofWire, dropBom_of_not hbom, encodeValue, htext, Value.Fits, Value.depth, Value.sorted, Value.encode]
  · simp only [ne_eq, not_true_eq_false, if_false, Except.bind_eq_ok, writeHead_eq_ok, Except.pure_eq_ok,
      Except.ok.injEq]
    constructor
    · rintro ⟨_, ⟨hlength, rfl⟩, rfl⟩
      exact ⟨hlength, Nat.succ_pos _, rfl⟩
    · rintro ⟨hlength, -, rfl⟩
      exact ⟨_, ⟨hlength, rfl⟩, rfl⟩
  all_goals simp

theorem writesSorted_null (lv : ℕ) : WritesSorted (lv + 1) .null := by
  intro b
  rw [ofWire, encodeValue, Value.Fits, Value.depth, Value.sorted, Value.encode]
  · simp only [Except.ok.injEq, true_and, eq_comm, Nat.succ_pos]
    exact Iff.rfl
  all_goals simp

/-- Items that are written one after the other. -/
theorem items_of_forall₂ {lv : ℕ} {xs : List Value} {items : List Bytes} (h : ∀ x ∈ xs, WritesSorted lv x) :
    List.Forall₂ (fun x item => encodeValue lv (ofWire x) = .ok item) xs items ↔
      (∀ x ∈ xs, x.Fits ∧ x.depth < lv) ∧ items = xs.map fun x => x.sorted.encode := by
  induction xs generalizing items with
  | nil => simp
  | cons x xs ih =>
    have hx := h x List.mem_cons_self
    have hxs := fun {items} => @ih items fun y hy => h y (List.mem_cons_of_mem _ hy)
    rw [List.forall₂_cons_left_iff, List.forall_mem_cons]
    constructor
    · rintro ⟨item, rest, hitem, hrest, rfl⟩
      obtain ⟨hfits, hdepth, rfl⟩ := (hx item).1 hitem
      obtain ⟨hall, rfl⟩ := hxs.1 hrest
      exact ⟨⟨⟨hfits, hdepth⟩, hall⟩, rfl⟩
    · rintro ⟨⟨⟨hfits, hdepth⟩, hall⟩, rfl⟩
      exact ⟨_, _, (hx _).2 ⟨hfits, hdepth, rfl⟩, hxs.2 ⟨hall, rfl⟩, rfl⟩

/-- An array is written with its items sorted. -/
theorem writesSorted_array {lv : ℕ} {xs : List Value} (h : ∀ x ∈ xs, WritesSorted lv x) :
    WritesSorted (lv + 1) (.array xs) := by
  intro b
  rw [ofWire, ofWireItems_eq_map, encodeValue_array_eq_ok, Value.Fits, DetCbor.itemsFit_iff, Value.depth,
    DetCbor.itemsDepth_lt, DetCbor.sorted_array, Value.encode, DetCbor.encodeItems_eq_flatten, List.length_map,
    List.length_map, List.map_map]
  simp only [List.forall₂_map_left_iff, items_of_forall₂ h]
  constructor
  · rintro ⟨hlength, items, ⟨hall, rfl⟩, rfl⟩
    exact ⟨⟨hlength, fun x hx => (hall x hx).1⟩, fun x hx => (hall x hx).2, rfl⟩
  · rintro ⟨⟨hlength, hfits⟩, hdepth, rfl⟩
    exact ⟨hlength, _, ⟨fun x hx => ⟨hfits x hx, hdepth x hx⟩, rfl⟩, rfl⟩

/-- A key is written as a key. -/
theorem encodeValue_key {lv : ℕ} {k : Key} (hbom : k.toValue.hasBom = false) (h : WritesSorted lv k.toValue)
    (b : Bytes) :
    encodeValue lv (ofKey k) = .ok b ↔ k.Fits ∧ 0 < lv ∧ b = k.encode := by
  have hvalue := h b
  rw [← ofKey_keyOfWire, keyOfWire_of_not hbom] at hvalue
  rw [hvalue]
  cases k with
  | text s => simp [Key.toValue, Key.Fits, Value.Fits, Value.depth, Value.sorted, Key.encode, Value.encode]
  | bytes b => simp [Key.toValue, Key.Fits, Value.Fits, Value.depth, Value.sorted, Key.encode, Value.encode]

/-- Keys that are written one after the other. -/
theorem keys_of_forall₂ {lv : ℕ} {es : List (Key × Value)} {entries : List (Bytes × CborValue)}
    (hbom : ∀ e ∈ es, e.1.toValue.hasBom = false) (h : ∀ e ∈ es, WritesSorted lv e.1.toValue) :
    List.Forall₂ (fun (e : Key × Value) entry => encodeValue lv (ofKey e.1) = .ok entry.1 ∧ entry.2 = ofWire e.2) es
      entries ↔
      (∀ e ∈ es, e.1.Fits ∧ 0 < lv) ∧ entries = es.map fun e => (e.1.encode, ofWire e.2) := by
  induction es generalizing entries with
  | nil => simp
  | cons e es ih =>
    have he := encodeValue_key (hbom e List.mem_cons_self) (h e List.mem_cons_self)
    have hes := fun {entries} => @ih entries (fun f hf => hbom f (List.mem_cons_of_mem _ hf))
      fun f hf => h f (List.mem_cons_of_mem _ hf)
    rw [List.forall₂_cons_left_iff, List.forall_mem_cons]
    constructor
    · rintro ⟨⟨key, value⟩, rest, ⟨hkey, hvalue⟩, hrest, rfl⟩
      obtain ⟨hfits, hpos, hencode⟩ := (he key).1 hkey
      obtain ⟨hall, rfl⟩ := hes.1 hrest
      simp only at hvalue
      exact ⟨⟨⟨hfits, hpos⟩, hall⟩, by rw [List.map_cons, hencode, hvalue]⟩
    · rintro ⟨⟨⟨hfits, hpos⟩, hall⟩, rfl⟩
      exact ⟨_, _, ⟨(he _).2 ⟨hfits, hpos, rfl⟩, rfl⟩, hes.2 ⟨hall, rfl⟩, rfl⟩

/-- Entries that are written one after the other. -/
theorem entries_of_forall₂ {lv : ℕ} {es : List (Key × Value)} {body : List Bytes} (h : ∀ e ∈ es, WritesSorted lv e.2) :
    List.Forall₂ (fun (e : Key × Value) out => ∃ v, encodeValue lv (ofWire e.2) = .ok v ∧ out = e.1.encode ++ v) es
      body ↔
      (∀ e ∈ es, e.2.Fits ∧ e.2.depth < lv) ∧ body = es.map fun e => e.1.encode ++ e.2.sorted.encode := by
  induction es generalizing body with
  | nil => simp
  | cons e es ih =>
    have he := h e List.mem_cons_self
    have hes := fun {body} => @ih body fun f hf => h f (List.mem_cons_of_mem _ hf)
    rw [List.forall₂_cons_left_iff, List.forall_mem_cons]
    constructor
    · rintro ⟨out, rest, ⟨v, hv, rfl⟩, hrest, rfl⟩
      obtain ⟨hfits, hdepth, rfl⟩ := (he v).1 hv
      obtain ⟨hall, rfl⟩ := hes.1 hrest
      exact ⟨⟨⟨hfits, hdepth⟩, hall⟩, rfl⟩
    · rintro ⟨⟨⟨hfits, hdepth⟩, hall⟩, rfl⟩
      exact ⟨_, _, ⟨_, (he _).2 ⟨hfits, hdepth, rfl⟩, rfl⟩, hes.2 ⟨hall, rfl⟩, rfl⟩

/-- A map is written with its keys in order. -/
theorem writesSorted_map {lv : ℕ} {es : List (Key × Value)} (hbom : (Value.map es).hasBom = false)
    (hnodup : (es.map Prod.fst).Nodup) (hkeys : ∀ e ∈ es, WritesSorted lv e.1.toValue)
    (h : ∀ e ∈ es, WritesSorted lv e.2) : WritesSorted (lv + 1) (.map es) := by
  intro b
  have hbomKeys := fun e he => (hasBom_map.1 hbom e he).1
  have hmem : ∀ e, e ∈ sortByKey es ↔ e ∈ es := fun e => (DetCbor.sortByKey_perm es).mem_iff
  have hlength := (DetCbor.sortByKey_perm es).length_eq
  have hsorted := @entries_of_forall₂ lv (sortByKey es)
  rw [ofWire_map hbom hnodup, encodeValue_map_eq_ok, Value.Fits, DetCbor.entriesFit_iff, Value.depth,
    DetCbor.entriesDepth_lt, DetCbor.sorted_map, encode_map, List.length_map, List.map_map, hlength]
  simp only [built, List.forall₂_map_left_iff, keys_of_forall₂ hbomKeys hkeys]
  constructor
  · rintro ⟨entries, body, ⟨hfits, rfl⟩, -, hcount, hbody, rfl⟩
    rw [sortEntries_keys, List.length_map, hlength] at hcount
    rw [sortEntries_keys, List.forall₂_map_left_iff, hsorted fun e he => h e ((hmem e).1 he)] at hbody
    obtain ⟨hvalues, rfl⟩ := hbody
    rw [sortEntries_keys, List.length_map, hlength]
    exact ⟨⟨hcount, fun e he => ⟨(hfits e he).1, (hvalues e ((hmem e).2 he)).1⟩⟩,
      fun e he => (hvalues e ((hmem e).2 he)).2, rfl⟩
  -- distinct keys sort into a strict order, so no duplicate is found
  · rintro ⟨⟨hcount, hfits⟩, hdepth, rfl⟩
    have hpairs : ((sortByKey es).map fun e => (e.1.encode, ofWire e.2)).Pairwise fun a b => a.1 < b.1 := by
      rw [List.pairwise_map]
      exact DetCbor.sortedKeys_sortByKey (fun e he => (hfits e he).1) hnodup
    refine ⟨es.map fun e => (e.1.encode, ofWire e.2), (sortByKey es).map fun e => e.1.encode ++ e.2.sorted.encode,
      ⟨fun e he => ⟨(hfits e he).1, Nat.lt_of_le_of_lt (Nat.zero_le _) (hdepth e he)⟩, rfl⟩, ?_⟩
    rw [sortEntries_keys, List.length_map, hlength, List.forall₂_map_left_iff, hsorted fun e he => h e ((hmem e).1 he)]
    refine ⟨hasDuplicateKey_of_pairwise hpairs, hcount, ⟨?_, rfl⟩, rfl⟩
    intro e he
    exact ⟨(hfits e ((hmem e).1 he)).2, hdepth e ((hmem e).1 he)⟩

/-- **When a value in memory is written**, and as what. -/
theorem encodeValue_eq_ok_iff : ∀ lv w, w.hasBom = false → Value.KeysDistinct w → WritesSorted lv w := by
  intro lv
  induction lv with
  | zero =>
    intro w _ _ b
    rw [encodeValue]
    simp
  | succ lv ih =>
    intro w hbom hdistinct
    cases w with
    | uint n => exact writesSorted_uint lv n
    | bytes bytes => exact writesSorted_bytes lv bytes
    | text s => exact writesSorted_text lv hbom
    | null => exact writesSorted_null lv
    | array xs =>
      rw [hasBom_array] at hbom
      rw [Value.KeysDistinct, DetCbor.itemsKeysDistinct_iff] at hdistinct
      exact writesSorted_array fun x hx => ih x (hbom x hx) (hdistinct x hx)
    | map es =>
      have hbom' := hasBom_map.1 hbom
      rw [Value.KeysDistinct, DetCbor.entriesKeysDistinct_iff] at hdistinct
      have hkey : ∀ e ∈ es, WritesSorted lv e.1.toValue := by
        intro e he
        exact ih _ (hbom' e he).1 (by cases e.1 <;> simp [Key.toValue, Value.KeysDistinct])
      exact writesSorted_map hbom hdistinct.1 hkey fun e he => ih e.2 (hbom' e he).2 (hdistinct.2 e he)

/-- A map that fits is written, in order. -/
theorem encode_built {es : List (Key × Value)} (hbom : (Value.map es).hasBom = false)
    (hdistinct : (Value.map es).KeysDistinct) (hfits : (Value.map es).Fits) (hdepth : (Value.map es).depth < 33) :
    encode (.map (built es)) = .ok (Value.map es).sorted.encode := by
  have hnodup : (es.map Prod.fst).Nodup := by
    rw [Value.KeysDistinct] at hdistinct
    exact hdistinct.1
  rw [encode, ← ofWire_map hbom hnodup]
  exact (encodeValue_eq_ok_iff 33 _ hbom hdistinct _).2 ⟨hfits, hdepth, rfl⟩

/-- Putting the entries in order does not lengthen what is written. -/
theorem length_sorted {w : Value} (hbom : w.hasBom = false) (hdistinct : w.KeysDistinct) (hfits : w.Fits)
    (hdepth : w.depth < 33) : w.sorted.encode.length ≤ w.encode.length := by
  have hwrite := (encodeValue_eq_ok_iff 33 w hbom hdistinct _).2 ⟨hfits, hdepth, rfl⟩
  have hlength := (encodedLength_ofWire 33 w).1
  rwa [encodedLength_of_ok hwrite] at hlength

/-! ## Reading it back -/

/-- **What is written of a map reads back**, with the entries in order. -/
theorem decode_of_encode {es : List (Key × Value)} {bytes : Bytes} (hbom : (Value.map es).hasBom = false)
    (hdistinct : (Value.map es).KeysDistinct) (h : encode (.map (built es)) = .ok bytes) :
    decode bytes = .ok (ofWire (Value.map es).sorted) := by
  have hnodup : (es.map Prod.fst).Nodup := by
    rw [Value.KeysDistinct] at hdistinct
    exact hdistinct.1
  rw [encode, ← ofWire_map hbom hnodup] at h
  obtain ⟨hfits, hdepth, rfl⟩ := (encodeValue_eq_ok_iff 33 _ hbom hdistinct bytes).1 h
  exact decode_eq_ok.2 ⟨_, DetCbor.parse_eq_some.2 ⟨DetCbor.canonical_sorted 33 _ hfits hdistinct hdepth, rfl⟩, rfl⟩

theorem get?_of_mem {m : CborMap} (hnodup : (m.map Prod.fst).Nodup) {name : String} {v : CborValue}
    (h : (Key.text name, v) ∈ m) : CborMap.get? m name = some v := by
  induction m with
  | nil => simp at h
  | cons e m ih =>
    obtain ⟨k, w⟩ := e
    rw [List.map_cons, List.nodup_cons] at hnodup
    rw [CborMap.get?]
    rcases List.mem_cons.1 h with heq | hmem
    · rw [Prod.mk.injEq] at heq
      rw [if_pos heq.1.symm, heq.2]
    · have hne : k ≠ Key.text name := by
        intro heq
        rw [heq] at hnodup
        exact hnodup.1 (List.mem_map.2 ⟨(Key.text name, v), hmem, rfl⟩)
      rw [if_neg hne]
      exact ih hnodup.2 hmem

theorem hasBom_sorted : ∀ lv (w : Value), w.depth < lv → w.hasBom = false → w.sorted.hasBom = false := by
  intro lv
  induction lv with
  | zero =>
    intro w hdepth
    exact absurd hdepth (Nat.not_lt_zero _)
  | succ lv ih =>
    intro w hdepth hbom
    cases w with
    | array xs =>
      rw [Value.depth, DetCbor.itemsDepth_lt] at hdepth
      rw [hasBom_array] at hbom
      rw [DetCbor.sorted_array, hasBom_array]
      intro x hx
      obtain ⟨y, hy, rfl⟩ := List.mem_map.1 hx
      exact ih y (hdepth y hy) (hbom y hy)
    | map es =>
      rw [Value.depth, DetCbor.entriesDepth_lt] at hdepth
      rw [hasBom_map] at hbom
      rw [DetCbor.sorted_map, hasBom_map]
      intro e he
      obtain ⟨f, hf, rfl⟩ := List.mem_map.1 he
      have hf' := (DetCbor.sortByKey_perm es).mem_iff.1 hf
      exact ⟨(hbom f hf').1, ih f.2 (hdepth f hf') (hbom f hf').2⟩
    | uint n => exact hbom
    | bytes b => exact hbom
    | text s => exact hbom
    | null => exact hbom

/-- **Every entry of a map is found** after the map was put in order. -/
theorem get?_sorted {es : List (Key × Value)} (hbom : (Value.map es).hasBom = false)
    (hnodup : (es.map Prod.fst).Nodup) :
    ∃ m, ofWire (Value.map es).sorted = .map m ∧
      ∀ name v, (Key.text name, v) ∈ es → CborMap.get? m name = some (ofWire v.sorted) := by
  have hperm := DetCbor.sortByKey_perm es
  have hkeys : ((sortByKey es).map fun e => (e.1, e.2.sorted)).map Prod.fst = (sortByKey es).map Prod.fst := by
    rw [List.map_map]
    rfl
  have hsorted : (((sortByKey es).map fun e => (e.1, e.2.sorted)).map Prod.fst).Nodup := by
    rw [hkeys]
    exact (hperm.map _).nodup_iff.2 hnodup
  have hbom' := hasBom_sorted (Value.depth (.map es) + 1) _ (Nat.lt_succ_self _) hbom
  rw [DetCbor.sorted_map] at hbom' ⊢
  refine ⟨_, ofWire_map hbom' hsorted, ?_⟩
  intro name v hmem
  have hnames : (built ((sortByKey es).map fun e => (e.1, e.2.sorted))).map Prod.fst =
      ((sortByKey es).map fun e => (e.1, e.2.sorted)).map Prod.fst := by
    rw [built, List.map_map]
    rfl
  refine get?_of_mem (by rw [hnames]; exact hsorted) ?_
  rw [built, List.map_map]
  exact List.mem_map.2 ⟨(Key.text name, v), hperm.mem_iff.2 hmem, rfl⟩

/-! ## A field of a decoded map -/

/-- The last entry that is read as this name. -/
def lastNamed (es : List (Key × Value)) (name : String) : Option Value :=
  (es.reverse.find? fun e => keyOfWire e.1 = .text name).map Prod.snd

theorem get?_set (m : CborMap) (k : Key) (v : CborValue) (name : String) :
    CborMap.get? (m.set k v) name = if k = .text name then some v else CborMap.get? m name := by
  induction m with
  | nil => rfl
  | cons e m ih =>
    obtain ⟨k', v'⟩ := e
    rw [CborMap.set]
    by_cases hsame : CborMap.sameKey k' k = true
    · have hk : k' = k := by
        cases k with
        | text s => simpa [CborMap.sameKey] using hsame
        | bytes b => simp [CborMap.sameKey] at hsame
      rw [if_pos hsame, CborMap.get?, CborMap.get?, hk]
      split_ifs <;> rfl
    · rw [if_neg hsame, CborMap.get?, CborMap.get?, ih]
      by_cases hk : k' = .text name
      · -- the key of another entry
        have hne : k ≠ .text name := by
          intro heq
          rw [hk, heq] at hsame
          exact hsame (by simp [CborMap.sameKey])
        rw [if_pos hk, if_neg hne, if_pos hk]
      · rw [if_neg hk, if_neg hk]

/-- **A decoded map holds, under a name, the last entry read as that name.** -/
theorem get?_ofWireEntries (es : List (Key × Value)) (name : String) : ∀ out : CborMap,
    CborMap.get? (ofWireEntries out es) name = ((lastNamed es name).map ofWire).or (CborMap.get? out name) := by
  induction es with
  | nil =>
    intro out
    rfl
  | cons e es ih =>
    intro out
    obtain ⟨k, v⟩ := e
    have hlast : lastNamed ((k, v) :: es) name =
        (lastNamed es name).or (if keyOfWire k = .text name then some v else none) := by
      rw [lastNamed, lastNamed, List.reverse_cons, List.find?_append, Option.map_or, List.find?_singleton]
      by_cases hk : keyOfWire k = .text name <;> simp [hk]
    rw [ofWireEntries, ih, get?_set, hlast]
    cases lastNamed es name with
    | some w => rfl
    | none =>
      by_cases hk : keyOfWire k = .text name <;> simp [hk]

/-- A number that was decoded is a safe integer. -/
theorem get?_map_number {es : List (Key × Value)} {name : String} {n : ℕ}
    (h : CborMap.get? (ofWireEntries [] es) name = some (.number n)) : n ≤ maxSafeInteger := by
  rw [get?_ofWireEntries] at h
  cases hlast : lastNamed es name with
  | none => simp [hlast, CborMap.get?] at h
  | some w =>
    simp only [hlast, Option.map_some, Option.some_or, Option.some.injEq] at h
    cases w with
    | uint m =>
      rw [ofWire] at h
      split_ifs at h with hsafe
      exact CborValue.number.inj h ▸ hsafe
    | bytes b => simp [ofWire] at h
    | text s => simp [ofWire] at h
    | array xs => simp [ofWire] at h
    | map es => simp [ofWire] at h
    | null => simp [ofWire] at h

end VayuWeb
