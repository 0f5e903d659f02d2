import VayuWeb.Proof.CborBuild

/-!
# Values in memory and on the wire

A value in memory may hold a small integer as a `bigint`, and the entries of a map in any order. What the
codec writes of it is what it writes of the value it reads back (`encodeValue_wire`), so two values that are
written alike are one on the wire (`wireOf_eq_of_encode`).
-/

namespace VayuWeb

open Bytes
open DetCbor (Key Value sortByKey)

mutual

/-- A value in memory as a value on the wire, the entries of a map as they stand. -/
def toWire : CborValue → Value
  | .number n => .uint n
  | .bigint n => .uint n
  | .bytes b => .bytes b
  | .text s => .text s
  | .array xs => .array (toWireItems xs)
  | .map es => .map (toWireEntries es)
  | .null => .null

/-- `toWire` on every item of an array. -/
def toWireItems : List CborValue → List Value
  | [] => []
  | x :: xs => toWire x :: toWireItems xs

/-- `toWire` on every value of a map. -/
def toWireEntries : List (Key × CborValue) → List (Key × Value)
  | [] => []
  | (k, v) :: es => (k, toWire v) :: toWireEntries es

end

theorem toWireItems_eq_map (xs : List CborValue) : toWireItems xs = xs.map toWire := by
  induction xs with
  | nil => rfl
  | cons x xs ih => rw [toWireItems, ih, List.map_cons]

theorem toWireEntries_eq_map (es : CborMap) : toWireEntries es = es.map fun e => (e.1, toWire e.2) := by
  induction es with
  | nil => rfl
  | cons e es ih => rw [toWireEntries, ih, List.map_cons]

theorem toWire_ofKey (k : Key) : toWire (ofKey k) = k.toValue := by
  cases k <;> rfl

/-- A value as it is written: in order. -/
def wireOf (v : CborValue) : Value := (toWire v).sorted

/-! ## What is written -/

/-- What is written of a value is what is written of the value that reads back from it. -/
def WritesWire (lv : ℕ) (v : CborValue) : Prop :=
  ∀ b, encodeValue lv v = .ok b →
    (toWire v).hasBom = false ∧ (toWire v).KeysDistinct ∧ encodeValue lv (ofWire (toWire v)) = .ok b

theorem assertUint_eq_ok {n m : ℕ} : assertUint n = .ok m ↔ n ≤ maxSafeInteger ∧ m = n := by
  unfold assertUint
  split_ifs with h
  · simp [h, eq_comm]
  · simp [h]

theorem writesWire_number (lv n : ℕ) : WritesWire (lv + 1) (.number n) := by
  intro b h
  refine ⟨by simp [toWire, Value.hasBom], by simp [toWire, Value.KeysDistinct], ?_⟩
  rw [encodeValue, Except.bind_eq_ok] at h
  obtain ⟨m, hm, hwrite⟩ := h
  obtain ⟨hsafe, rfl⟩ := assertUint_eq_ok.1 hm
  rw [toWire, ofWire, if_pos hsafe, encodeValue, Except.bind_eq_ok]
  exact ⟨m, hm, hwrite⟩

theorem writesWire_bigint (lv n : ℕ) : WritesWire (lv + 1) (.bigint n) := by
  intro b h
  refine ⟨by simp [toWire, Value.hasBom], by simp [toWire, Value.KeysDistinct], ?_⟩
  rw [encodeValue] at h
  rw [toWire, ofWire]
  split_ifs with hsafe
  · rw [encodeValue, Except.bind_eq_ok]
    exact ⟨n, assertUint_eq_ok.2 ⟨hsafe, rfl⟩, h⟩
  · rw [encodeValue]
    exact h

theorem writesWire_text (lv : ℕ) (s : String) : WritesWire (lv + 1) (.text s) := by
  intro b h
  have hsame : dropBom s = s := by
    rw [encodeValue, textDecoderSafe_utf8Encode] at h
    by_contra hne
    simp [hne] at h
  have hbom : DetCbor.startsWithBom s = false := by
    cases hstarts : DetCbor.startsWithBom s with
    | false => rfl
    | true =>
      have hlength := length_dropBom hstarts
      rw [hsame] at hlength
      omega
  refine ⟨by rw [toWire, Value.hasBom]; exact hbom, by simp [toWire, Value.KeysDistinct], ?_⟩
  rw [toWire, ofWire, hsame]
  exact h

/-- An array is written as the wire value it stands for. -/
theorem writesWire_array {lv : ℕ} {xs : List CborValue} (ih : ∀ x ∈ xs, WritesWire lv x) :
    WritesWire (lv + 1) (.array xs) := by
  intro b h
  obtain ⟨hlength, items, hitems, rfl⟩ := encodeValue_array_eq_ok.1 h
  have hall : ∀ x ∈ xs, (toWire x).hasBom = false ∧ (toWire x).KeysDistinct := by
    intro x hx
    obtain ⟨item, -, hitem⟩ := Except.exists_of_forall₂_left hitems hx
    exact ⟨(ih x hx item hitem).1, (ih x hx item hitem).2.1⟩
  rw [toWire, toWireItems_eq_map]
  refine ⟨?_, ?_, ?_⟩
  · rw [hasBom_array]
    intro w hw
    obtain ⟨x, hx, rfl⟩ := List.mem_map.1 hw
    exact (hall x hx).1
  · rw [Value.KeysDistinct, DetCbor.itemsKeysDistinct_iff]
    intro w hw
    obtain ⟨x, hx, rfl⟩ := List.mem_map.1 hw
    exact (hall x hx).2
  · rw [ofWire, ofWireItems_eq_map, encodeValue_array_eq_ok, List.length_map, List.length_map]
    refine ⟨hlength, items, ?_, rfl⟩
    rw [List.forall₂_map_left_iff, List.forall₂_map_left_iff]
    exact Except.forall₂_imp_mem hitems fun x hx item hitem => (ih x hx item hitem).2.2

/-! ## Maps -/

/-- Keys in order of which no two neighbours are the same are distinct. -/
theorem sortedKeys_of_hasDuplicateKey {ws : List (Key × Value)} (horder : ws.Pairwise DetCbor.Before)
    (h : hasDuplicateKey (ws.map fun e => (e.1.encode, ofWire e.2)) = false) : DetCbor.SortedKeys ws := by
  induction ws with
  | nil => exact List.Pairwise.nil
  | cons e ws ih =>
    obtain ⟨hfirst, hrest⟩ := List.pairwise_cons.1 horder
    cases ws with
    | nil => exact List.pairwise_singleton _ _
    | cons f ws =>
      rw [List.map_cons, List.map_cons, hasDuplicateKey, Bool.or_eq_false_iff, decide_eq_false_iff_not] at h
      have hsorted : DetCbor.SortedKeys (f :: ws) := ih hrest h.2
      have hlt : e.1.encode < f.1.encode := by
        rcases DetCbor.bytes_trichotomy e.1.encode f.1.encode with hlt | heq | hgt
        · exact hlt
        · exact absurd (compareBytes_eq.2 heq) h.1
        · exact absurd hgt (hfirst f List.mem_cons_self)
      refine List.pairwise_cons.2 ⟨fun g hg => ?_, hsorted⟩
      rcases List.mem_cons.1 hg with rfl | hg
      · exact hlt
      · exact List.lt_trans hlt ((List.pairwise_cons.1 hsorted).1 g hg)

/-- Sorting goes by the keys. -/
theorem sortEntries_map {α β : Type} (f : α → β) (entries : List (Bytes × α)) :
    sortEntries (entries.map fun e => (e.1, f e.2)) = (sortEntries entries).map fun e => (e.1, f e.2) :=
  (List.map_insertionSort _ _ (fun e : Bytes × α => (e.1, f e.2)) entries fun _ _ _ _ => Iff.rfl).symm

theorem hasDuplicateKey_map {α β : Type} (f : α → β) (entries : List (Bytes × α)) :
    hasDuplicateKey (entries.map fun e => (e.1, f e.2)) = hasDuplicateKey entries := by
  induction entries with
  | nil => rfl
  | cons e entries ih =>
    cases entries with
    | nil => rfl
    | cons e' entries =>
      rw [List.map_cons] at ih
      rw [List.map_cons, List.map_cons, hasDuplicateKey, hasDuplicateKey, ih]

/-- A map is written as the wire value it stands for. -/
theorem writesWire_map {lv : ℕ} {m : CborMap} (hkeys : ∀ e ∈ m, WritesWire lv (ofKey e.1))
    (ih : ∀ e ∈ m, WritesWire lv e.2) : WritesWire (lv + 1) (.map m) := by
  intro b h
  obtain ⟨entries, body, hentries, hduplicate, hlength, hbody, rfl⟩ := encodeValue_map_eq_ok.1 h
  have hkey : ∀ e ∈ m, ∀ k, encodeValue lv (ofKey e.1) = .ok k → e.1.toValue.hasBom = false ∧ k = e.1.encode := by
    intro e he k hk
    obtain ⟨hbom, hdistinct, hwrite⟩ := hkeys e he k hk
    rw [toWire_ofKey] at hbom hdistinct
    exact ⟨hbom, ((encodeValue_key hbom (encodeValue_eq_ok_iff lv _ hbom hdistinct) k).1 hk).2.2⟩
  have hbomKeys : ∀ e ∈ m, e.1.toValue.hasBom = false := by
    intro e he
    obtain ⟨k, -, hk, -⟩ := Except.exists_of_forall₂_left hentries he
    exact (hkey e he _ hk).1
  have hentriesEq : entries = m.map fun e => (e.1.encode, e.2) := by
    have hsame : List.Forall₂ (fun (e : Key × CborValue) (k : Bytes × CborValue) => k = (e.1.encode, e.2)) m entries :=
      Except.forall₂_imp_mem hentries fun e he k hk => Prod.ext (hkey e he _ hk.1).2 hk.2
    clear hbody hlength hduplicate hentries hkey hbomKeys hkeys ih h
    induction hsame with
    | nil => rfl
    | cons heq _ ih => rw [List.map_cons, ← ih, heq]
  -- every value is written, at its place in the order
  have hvalues : ∀ e ∈ m, ∃ v, encodeValue lv e.2 = .ok v := by
    intro e he
    have hmem : (e.1.encode, e.2) ∈ sortEntries entries := by
      rw [hentriesEq, sortEntries, List.mem_insertionSort]
      exact List.mem_map_of_mem (f := fun e : Key × CborValue => (e.1.encode, e.2)) he
    obtain ⟨out, -, v, hv, -⟩ := Except.exists_of_forall₂_left hbody hmem
    exact ⟨v, hv⟩
  set ws := m.map fun e => (e.1, toWire e.2) with hws
  have hwire : ws.map (fun e => (e.1.encode, ofWire e.2)) = entries.map fun e => (e.1, ofWire (toWire e.2)) := by
    rw [hws, hentriesEq, List.map_map, List.map_map]
    rfl
  have hsortedWire : (sortEntries entries).map (fun e => (e.1, ofWire (toWire e.2))) =
      (sortByKey ws).map fun e => (e.1.encode, ofWire e.2) := by
    rw [← sortEntries_map (fun v => ofWire (toWire v)) entries, ← hwire, sortEntries_keys]
  have hnodup : (ws.map Prod.fst).Nodup := by
    have hsorted : DetCbor.SortedKeys (sortByKey ws) := by
      refine sortedKeys_of_hasDuplicateKey (List.pairwise_insertionSort DetCbor.Before ws) ?_
      rw [← hsortedWire, hasDuplicateKey_map (fun v => ofWire (toWire v))]
      exact hduplicate
    exact ((DetCbor.sortByKey_perm ws).map Prod.fst).nodup_iff.1 (sortedKeys_nodup hsorted)
  have hbom : (Value.map ws).hasBom = false := by
    rw [hasBom_map]
    intro w hw
    obtain ⟨e, he, rfl⟩ := List.mem_map.1 hw
    obtain ⟨v, hv⟩ := hvalues e he
    exact ⟨hbomKeys e he, (ih e he v hv).1⟩
  rw [toWire, toWireEntries_eq_map, ← hws]
  refine ⟨hbom, ?_, ?_⟩
  · rw [Value.KeysDistinct, DetCbor.entriesKeysDistinct_iff]
    refine ⟨hnodup, fun w hw => ?_⟩
    obtain ⟨e, he, rfl⟩ := List.mem_map.1 hw
    obtain ⟨v, hv⟩ := hvalues e he
    exact (ih e he v hv).2.1
  · rw [ofWire_map hbom hnodup, encodeValue_map_eq_ok]
    refine ⟨entries.map fun e => (e.1, ofWire (toWire e.2)), body, ?_, ?_, ?_, ?_, ?_⟩
    · rw [built, hws, hentriesEq, List.map_map, List.map_map, List.forall₂_map_left_iff, List.forall₂_map_right_iff,
        List.forall₂_same]
      intro e he
      obtain ⟨k, -, hk, -⟩ := Except.exists_of_forall₂_left hentries he
      refine ⟨?_, rfl⟩
      rw [(hkey e he _ hk).2] at hk
      exact hk
    · rw [sortEntries_map (fun v => ofWire (toWire v)), hasDuplicateKey_map (fun v => ofWire (toWire v))]
      exact hduplicate
    · rw [sortEntries_map (fun v => ofWire (toWire v)), List.length_map]
      exact hlength
    · rw [sortEntries_map (fun v => ofWire (toWire v)), List.forall₂_map_left_iff]
      refine Except.forall₂_imp_mem hbody fun e he out hout => ?_
      obtain ⟨v, hv, rfl⟩ := hout
      rw [hentriesEq, sortEntries, List.mem_insertionSort] at he
      obtain ⟨e', he', rfl⟩ := List.mem_map.1 he
      exact ⟨v, (ih e' he' v hv).2.2, rfl⟩
    · rw [sortEntries_map (fun v => ofWire (toWire v)), List.length_map]

/-- **What is written of a value** is what is written of the value it is on the wire. -/
theorem encodeValue_wire : ∀ lv v, WritesWire lv v := by
  intro lv
  induction lv with
  | zero =>
    intro v b h
    rw [encodeValue] at h
    cases h
  | succ lv ih =>
    intro v
    cases v with
    | number n => exact writesWire_number lv n
    | bigint n => exact writesWire_bigint lv n
    | bytes b =>
      intro bytes h
      exact ⟨by simp [toWire, Value.hasBom], by simp [toWire, Value.KeysDistinct], by rw [toWire, ofWire]; exact h⟩
    | text s => exact writesWire_text lv s
    | null =>
      intro bytes h
      exact ⟨by simp [toWire, Value.hasBom], by simp [toWire, Value.KeysDistinct], by rw [toWire, ofWire]; exact h⟩
    | array xs => exact writesWire_array fun x _ => ih x
    | map m => exact writesWire_map (fun e _ => ih _) fun e _ => ih _

/-- **Values that are written alike are one on the wire.** -/
theorem wireOf_eq_of_encode {v w : CborValue} {b : Bytes} (hv : encode v = .ok b) (hw : encode w = .ok b) :
    wireOf v = wireOf w := by
  obtain ⟨hbom, hdistinct, hwrite⟩ := encodeValue_wire 33 v b hv
  obtain ⟨hbom', hdistinct', hwrite'⟩ := encodeValue_wire 33 w b hw
  obtain ⟨hfits, hdepth, hbytes⟩ := (encodeValue_eq_ok_iff 33 _ hbom hdistinct b).1 hwrite
  obtain ⟨hfits', hdepth', hbytes'⟩ := (encodeValue_eq_ok_iff 33 _ hbom' hdistinct' b).1 hwrite'
  have hcanonical := DetCbor.canonical_sorted 33 _ hfits hdistinct hdepth
  have hcanonical' := DetCbor.canonical_sorted 33 _ hfits' hdistinct' hdepth'
  exact (DetCbor.encode_append_inj hcanonical hcanonical' (r := []) (s := [])
    (by rw [List.append_nil, List.append_nil, ← hbytes, ← hbytes'])).1

end VayuWeb
