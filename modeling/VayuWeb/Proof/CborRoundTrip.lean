import VayuWeb.Proof.CborWire
import Mathlib.Algebra.Order.BigOperators.Group.List
import Mathlib.Algebra.Order.Group.Nat

/-!
# Round trips of the TypeScript codec

* `encodeValue_ofWire`: a value read from a wire without byte order marks is written back
  as it stood there.
* `encodedLength_ofWire`: otherwise what is written is shorter, since the marks are lost.
* `encode_decode_iff`: **an accepted input is reproduced exactly when no text in it starts
  with a byte order mark.**
-/

namespace VayuWeb

open Bytes
open DetCbor (Key Value Canonical head encodeItems encodeEntries encodeItems_eq_flatten
  encodeEntries_eq_flatten)

/-! ## Maps as they come off the wire -/

theorem keyOfWire_of_not {k : Key} (h : k.toValue.hasBom = false) : keyOfWire k = k := by
  cases k with
  | text s => exact congrArg Key.text (dropBom_of_not h)
  | bytes b => rfl

theorem ofKey_keyOfWire (k : Key) : ofKey (keyOfWire k) = ofWire k.toValue := by
  cases k <;> rfl

/-- A new key is set at the end. -/
theorem set_of_not_mem {m : CborMap} {k : Key} {v : CborValue} (h : k ∉ m.map Prod.fst) :
    m.set k v = m ++ [(k, v)] := by
  induction m with
  | nil => rfl
  | cons e m ih =>
    obtain ⟨k', v'⟩ := e
    simp only [List.map_cons, List.mem_cons, not_or] at h
    have hs : CborMap.sameKey k' k = false := by
      cases k <;> simp [CborMap.sameKey, Ne.symm h.1]
    simp [CborMap.set, hs, ih h.2]

/-- Keys that stay distinct are all kept, in the order of the wire. -/
theorem ofWireEntries_of_nodup (es : List (Key × Value)) : ∀ out : CborMap,
    (out.map Prod.fst ++ es.map fun e => keyOfWire e.1).Nodup →
      ofWireEntries out es = out ++ es.map fun e => (keyOfWire e.1, ofWire e.2) := by
  induction es with
  | nil => intro out _; simp [ofWireEntries]
  | cons e es ih =>
    intro out h
    obtain ⟨k, v⟩ := e
    have hk : keyOfWire k ∉ out.map Prod.fst := by
      intro hm
      exact (List.disjoint_of_nodup_append h) hm (by simp)
    rw [ofWireEntries, set_of_not_mem hk, ih]
    · simp
    · simpa using h

/-- Keys in order are not repeated. -/
theorem sortedKeys_nodup {es : List (Key × Value)} (h : DetCbor.SortedKeys es) :
    (es.map Prod.fst).Nodup := by
  rw [List.Nodup, List.pairwise_map]
  refine List.Pairwise.imp ?_ h
  intro e f hef heq
  rw [heq] at hef
  exact List.lt_irrefl _ hef

/-- No key of a map without byte order marks is lost. -/
theorem ofWireEntries_of_not_hasBom {es : List (Key × Value)} (hs : DetCbor.SortedKeys es)
    (hb : ∀ e ∈ es, e.1.toValue.hasBom = false) :
    ofWireEntries [] es = es.map fun e => (e.1, ofWire e.2) := by
  have hk : (es.map fun e => keyOfWire e.1) = es.map Prod.fst :=
    List.map_congr_left fun e he => keyOfWire_of_not (hb e he)
  rw [ofWireEntries_of_nodup es [] (by simpa [hk] using sortedKeys_nodup hs), List.nil_append]
  exact List.map_congr_left fun e he => by rw [keyOfWire_of_not (hb e he)]

/-! ## Writing back -/

theorem hasDuplicateKey_of_pairwise {α : Type} {es : List (Bytes × α)}
    (h : es.Pairwise fun a b => a.1 < b.1) : hasDuplicateKey es = false := by
  induction es with
  | nil => rfl
  | cons a es ih =>
    cases es with
    | nil => rfl
    | cons b es =>
      have hab : compareBytes a.1 b.1 = .lt :=
        compareBytes_lt.2 ((List.pairwise_cons.1 h).1 b List.mem_cons_self)
      simp only [hasDuplicateKey, hab, ih (List.pairwise_cons.1 h).2]
      rfl

theorem sortEntries_of_pairwise {α : Type} {es : List (Bytes × α)}
    (h : es.Pairwise fun a b => a.1 < b.1) : sortEntries es = es :=
  List.Pairwise.insertionSort_eq (List.Pairwise.imp (fun h => by rw [compareBytes_lt.2 h]; simp) h)

/-- When a head is written. -/
theorem writeHead_eq_ok {major n : ℕ} {b : Bytes} :
    writeHead major n = .ok b ↔ n < 2 ^ 64 ∧ b = head major n := by
  rw [writeHead_eq]
  split_ifs with h
  · simp only [Except.ok.injEq, h, true_and, eq_comm]
  · simp only [h, false_and]

/-- When an array is encoded. -/
theorem encodeValue_array_eq_ok {lv : ℕ} {xs : List CborValue} {b : Bytes} :
    encodeValue (lv + 1) (.array xs) = .ok b ↔ xs.length < 2 ^ 64 ∧ ∃ items,
      List.Forall₂ (fun x y => encodeValue lv x = .ok y) xs items ∧
      b = head 4 xs.length ++ items.flatten := by
  simp only [encodeValue, Except.bind_eq_ok, writeHead_eq_ok, Except.mapM_eq_ok, Except.pure_eq_ok,
    Except.ok.injEq]
  constructor
  · rintro ⟨_, ⟨hn, rfl⟩, items, hi, rfl⟩; exact ⟨hn, items, hi, rfl⟩
  · rintro ⟨hn, items, hi, rfl⟩; exact ⟨_, ⟨hn, rfl⟩, items, hi, rfl⟩

/-- A map is written when its keys are written, are distinct, and its values are written. -/
theorem encodeValue_map_eq_ok {lv : ℕ} {m : CborMap} {b : Bytes} :
    encodeValue (lv + 1) (.map m) = .ok b ↔ ∃ entries body,
      List.Forall₂ (fun e k => encodeValue lv (ofKey e.1) = .ok k.1 ∧ k.2 = e.2) m entries ∧
      hasDuplicateKey (sortEntries entries) = false ∧ (sortEntries entries).length < 2 ^ 64 ∧
      List.Forall₂ (fun e out => ∃ v, encodeValue lv e.2 = .ok v ∧ out = e.1 ++ v)
        (sortEntries entries) body ∧
      b = head 5 (sortEntries entries).length ++ body.flatten := by
  have hkey : ∀ (e : Key × CborValue) (k : Bytes × CborValue),
      (do let key ← encodeValue lv (ofKey e.1); return (key, e.2)) = Except.ok k ↔
        encodeValue lv (ofKey e.1) = .ok k.1 ∧ k.2 = e.2 := by
    intro e k
    simp only [Except.bind_eq_ok, Except.pure_eq_ok, Except.ok.injEq]
    constructor
    · rintro ⟨key, hk, rfl⟩; exact ⟨hk, rfl⟩
    · rintro ⟨hk, h2⟩; exact ⟨k.1, hk, by rw [← h2]⟩
  have hval : ∀ (e : Bytes × CborValue) (out : Bytes),
      (do let v ← encodeValue lv e.2; return e.1 ++ v) = Except.ok out ↔
        ∃ v, encodeValue lv e.2 = .ok v ∧ out = e.1 ++ v := by
    intro e out
    simp only [Except.bind_eq_ok, Except.pure_eq_ok, Except.ok.injEq, @eq_comm _ out]
  simp only [encodeValue]
  rw [Except.bind_eq_ok]
  -- the steps of the encoder in order: the keys, their order, the head, the values
  constructor
  · rintro ⟨entries, he, h⟩
    rw [Except.mapM_eq_ok] at he
    cases hd : hasDuplicateKey (sortEntries entries) with
    | true => simp [hd] at h
    | false =>
      simp only [hd, Bool.false_eq_true, if_false, Except.bind_eq_ok, writeHead_eq_ok,
        Except.mapM_eq_ok, Except.pure_eq_ok, Except.ok.injEq] at h
      obtain ⟨_, ⟨hn, rfl⟩, body, hb, rfl⟩ := h
      exact ⟨entries, body, he.imp fun e k => (hkey e k).1, hd, hn, hb.imp fun e o ⟨v, hv, ho⟩ => ⟨v, hv, ho.symm⟩, rfl⟩
  · rintro ⟨entries, body, he, hd, hn, hb, rfl⟩
    refine ⟨entries, Except.mapM_eq_ok.2 (he.imp fun e k => (hkey e k).2), ?_⟩
    have hb' := Except.mapM_eq_ok.2 (hb.imp fun e o => (hval e o).2)
    simp only [hd, Bool.false_eq_true, if_false, writeHead_eq, if_pos hn]
    exact Except.bind_eq_ok.2 ⟨_, rfl, Except.bind_eq_ok.2 ⟨_, hb', rfl⟩⟩

/-- **Without byte order marks the wire is reproduced.** -/
theorem encodeValue_ofWire : ∀ lv w, Canonical lv w → w.hasBom = false →
    encodeValue lv (ofWire w) = .ok w.encode := by
  intro lv
  induction lv with
  | zero => intro w hc; exact hc.elim
  | succ lv ih =>
    intro w hc hb
    cases w with
    | uint n =>
      have hn : n < 2 ^ 64 := hc
      -- both branches of the source's integer write the same head
      simp only [ofWire, Value.encode]
      split_ifs with h
      · simp only [encodeValue, assertUint, if_pos h, Except.ok_bind, writeHead_eq, if_pos hn]
      · simp only [encodeValue, writeHead_eq, if_pos hn]
    | bytes b =>
      have hn : b.length < 2 ^ 64 := hc
      simp only [ofWire, encodeValue, writeHead_eq, if_pos hn, Except.ok_bind, Value.encode,
        Except.pure_eq_ok]
    | text s =>
      have hn : (utf8Encode s).length < 2 ^ 64 := hc
      have hs : textDecoderSafe (utf8Encode s) = some s := by
        rw [textDecoderSafe_utf8Encode, dropBom_of_not hb]
      simp only [ofWire, dropBom_of_not hb, encodeValue, hs, writeHead_eq, if_pos hn, Value.encode,
        ne_eq, not_true_eq_false, if_false, Except.ok_bind, Except.pure_eq_ok]
    | array xs =>
      obtain ⟨hn, hall⟩ := DetCbor.canonical_array.1 hc
      rw [Value.hasBom, DetCbor.itemsHaveBom_eq_any, List.any_eq_false] at hb
      rw [ofWire, ofWireItems_eq_map, encodeValue_array_eq_ok]
      refine ⟨by simpa using hn, xs.map Value.encode, ?_, ?_⟩
      · rw [List.forall₂_map_left_iff, List.forall₂_map_right_iff, List.forall₂_same]
        exact fun x hx => ih x (hall x hx) (by simpa using hb x hx)
      · rw [List.length_map, Value.encode, encodeItems_eq_flatten]
    | map es =>
      obtain ⟨hn, hsort, hall⟩ := DetCbor.canonical_map.1 hc
      rw [Value.hasBom, DetCbor.entriesHaveBom_eq_any, List.any_eq_false] at hb
      simp only [Bool.or_eq_true, not_or, Bool.not_eq_true] at hb
      -- the entries come in the order of their encoded keys already, so the sort leaves them
      have hlt : (es.map fun e => (e.1.encode, ofWire e.2)).Pairwise fun a b => a.1 < b.1 := by
        rw [List.pairwise_map]; exact hsort
      rw [ofWire, ofWireEntries_of_not_hasBom hsort fun e he => (hb e he).1, encodeValue_map_eq_ok]
      refine ⟨es.map fun e => (e.1.encode, ofWire e.2), es.map fun e => e.1.encode ++ e.2.encode, ?_⟩
      rw [sortEntries_of_pairwise hlt]
      refine ⟨?_, hasDuplicateKey_of_pairwise hlt, by simpa using hn, ?_, ?_⟩
      · rw [List.forall₂_map_left_iff, List.forall₂_map_right_iff, List.forall₂_same]
        intro e he
        refine ⟨?_, rfl⟩
        have hk := ih _ (hall e he).1 (hb e he).1
        rwa [← ofKey_keyOfWire, keyOfWire_of_not (hb e he).1, DetCbor.Key.encode_toValue] at hk
      · rw [List.forall₂_map_left_iff, List.forall₂_map_right_iff, List.forall₂_same]
        exact fun e he => ⟨_, ih _ (hall e he).2 (hb e he).2, rfl⟩
      · rw [List.length_map, Value.encode, encodeEntries_eq_flatten]
    | null => rfl

/-! ## What a byte order mark costs -/

/-- The length of what is written for a value, 0 when it is refused. -/
def encodedLength (lv : ℕ) (v : CborValue) : ℕ :=
  match encodeValue lv v with
  | .ok b => b.length
  | .error _ => 0

/-- The length of what is encoded. -/
theorem encodedLength_of_ok {lv : ℕ} {v : CborValue} {b : Bytes} (h : encodeValue lv v = .ok b) :
    encodedLength lv v = b.length := by
  simp [encodedLength, h]

/-- What the entries of a map cost, without its head. -/
def entriesLength (lv : ℕ) (m : CborMap) : ℕ :=
  (m.map fun e => encodedLength lv (ofKey e.1) + encodedLength lv e.2).sum

/-- Setting a value adds at most its key and itself. -/
theorem entriesLength_set (lv : ℕ) (m : CborMap) (k : Key) (v : CborValue) :
    entriesLength lv (m.set k v) ≤
      entriesLength lv m + (encodedLength lv (ofKey k) + encodedLength lv v) := by
  induction m with
  | nil => simp [CborMap.set, entriesLength]
  | cons e m ih =>
    obtain ⟨k', v'⟩ := e
    simp only [CborMap.set]
    split_ifs with hs
    · have hk : k' = k := by cases k <;> simp_all [CborMap.sameKey]
      subst hk
      simp only [entriesLength, List.map_cons, List.sum_cons]; omega
    · simp only [entriesLength, List.map_cons, List.sum_cons] at ih ⊢; omega

theorem length_set (m : CborMap) (k : Key) (v : CborValue) : (m.set k v).length ≤ m.length + 1 := by
  induction m with
  | nil => simp [CborMap.set]
  | cons e m ih =>
    simp only [CborMap.set]
    split_ifs <;> simp only [List.length_cons] <;> omega

theorem length_ofWireEntries (es : List (Key × Value)) :
    ∀ out : CborMap, (ofWireEntries out es).length ≤ out.length + es.length := by
  induction es with
  | nil => intro out; simp [ofWireEntries]
  | cons e es ih =>
    intro out
    obtain ⟨k, v⟩ := e
    have h1 := ih (out.set (keyOfWire k) (ofWire v))
    have h2 := length_set out (keyOfWire k) (ofWire v)
    simp only [ofWireEntries, List.length_cons]; omega

/-- Collecting entries adds at most each of them. -/
theorem entriesLength_ofWireEntries (lv : ℕ) (es : List (Key × Value)) : ∀ out : CborMap,
    entriesLength lv (ofWireEntries out es) ≤ entriesLength lv out +
      (es.map fun e => encodedLength lv (ofWire e.1.toValue) + encodedLength lv (ofWire e.2)).sum := by
  induction es with
  | nil => intro out; simp [ofWireEntries]
  | cons e es ih =>
    intro out
    obtain ⟨k, v⟩ := e
    have h1 := ih (out.set (keyOfWire k) (ofWire v))
    have h2 := entriesLength_set lv out (keyOfWire k) (ofWire v)
    rw [ofKey_keyOfWire] at h2
    simp only [ofWireEntries, List.map_cons, List.sum_cons]; omega

theorem map_eq_map_of_forall₂ {α β γ : Type} {f : α → γ} {g : β → γ} {xs : List α} {ys : List β}
    (h : List.Forall₂ (fun x y => f x = g y) xs ys) : xs.map f = ys.map g := by
  rw [← List.forall₂_eq_eq_eq, List.forall₂_map_left_iff, List.forall₂_map_right_iff]
  exact h

theorem encodedLength_array (lv : ℕ) (xs : List CborValue) :
    encodedLength (lv + 1) (.array xs) ≤ (head 4 xs.length).length + (xs.map (encodedLength lv)).sum := by
  cases h : encodeValue (lv + 1) (.array xs) with
  | error e => simp [encodedLength, h]
  | ok b =>
    obtain ⟨-, items, hi, rfl⟩ := encodeValue_array_eq_ok.1 h
    rw [encodedLength_of_ok h, List.length_append, List.length_flatten]
    rw [map_eq_map_of_forall₂ (hi.imp fun x y hx => encodedLength_of_ok hx)]

theorem encodedLength_map (lv : ℕ) (m : CborMap) :
    encodedLength (lv + 1) (.map m) ≤ (head 5 m.length).length + entriesLength lv m := by
  cases h : encodeValue (lv + 1) (.map m) with
  | error e => simp [encodedLength, h]
  | ok b =>
    obtain ⟨entries, body, hkeys, -, -, hbody, rfl⟩ := encodeValue_map_eq_ok.1 h
    have hperm : (sortEntries entries).Perm entries := List.perm_insertionSort _ _
    have hlen : (sortEntries entries).length = m.length := by
      rw [hperm.length_eq, hkeys.length_eq]
    have hb : (sortEntries entries).map (fun e => e.1.length + encodedLength lv e.2) =
        body.map List.length :=
      map_eq_map_of_forall₂ (hbody.imp fun e o ⟨v, hv, ho⟩ => by
        rw [ho, List.length_append, encodedLength_of_ok hv])
    have he : m.map (fun e => encodedLength lv (ofKey e.1) + encodedLength lv e.2) =
        entries.map fun e => e.1.length + encodedLength lv e.2 :=
      map_eq_map_of_forall₂ (hkeys.imp fun e k ⟨hk, h2⟩ => by rw [encodedLength_of_ok hk, h2])
    rw [encodedLength_of_ok h, List.length_append, List.length_flatten, hlen, ← hb,
      (hperm.map _).sum_eq, entriesLength, he]

theorem length_encodeItems (xs : List Value) :
    (encodeItems xs).length = (xs.map fun x => x.encode.length).sum := by
  rw [encodeItems_eq_flatten, List.length_flatten, List.map_map]; rfl

theorem length_encodeEntries (es : List (Key × Value)) :
    (encodeEntries es).length = (es.map fun e => e.1.encode.length + e.2.encode.length).sum := by
  rw [encodeEntries_eq_flatten, List.length_flatten, List.map_map]
  simp [Function.comp_def]

/-- **Nothing is written back longer than it was read, and a value that lost a byte order
mark is written back shorter.** -/
theorem encodedLength_ofWire : ∀ lv w, encodedLength lv (ofWire w) ≤ w.encode.length ∧
    (w.hasBom = true → encodedLength lv (ofWire w) < w.encode.length) := by
  intro lv
  induction lv with
  | zero =>
    intro w
    have := DetCbor.encode_length_pos w
    have h0 : encodedLength 0 (ofWire w) = 0 := rfl
    omega
  | succ lv ih =>
    intro w
    cases w with
    | uint n =>
      refine ⟨?_, by simp [Value.hasBom]⟩
      have hle : ∀ v, encodeValue (lv + 1) v = writeHead 0 n →
          encodedLength (lv + 1) v ≤ (head 0 n).length := by
        intro v hv
        rw [encodedLength, hv, writeHead_eq]
        split_ifs <;> simp
      simp only [ofWire, Value.encode]
      -- an integer above 2^53 - 1 comes back as one the encoder refuses, which has length 0
      split_ifs with h
      · exact hle _ (by simp only [encodeValue, assertUint, if_pos h, Except.ok_bind])
      · exact hle _ rfl
    | bytes b =>
      refine ⟨?_, by simp [Value.hasBom]⟩
      simp only [ofWire, Value.encode, encodedLength, encodeValue, writeHead_eq]
      split_ifs <;> simp
    -- `TextDecoder` drops a leading byte order mark, the only thing that shortens a text
    | text s =>
      have hle := length_dropBom_le s
      have hmono := DetCbor.head_length_mono 3 hle
      have hwrite : encodedLength (lv + 1) (.text (dropBom s)) ≤
          (head 3 (utf8Encode (dropBom s)).length).length + (utf8Encode (dropBom s)).length := by
        simp only [encodedLength, encodeValue, writeHead_eq]
        split_ifs <;> simp
      simp only [ofWire, Value.encode, Value.hasBom, List.length_append]
      exact ⟨by omega, fun hb => by have := length_dropBom hb; omega⟩
    | array xs =>
      have hle := encodedLength_array lv (xs.map ofWire)
      rw [List.length_map, List.map_map] at hle
      simp only [ofWire, ofWireItems_eq_map, Value.encode, Value.hasBom, List.length_append,
        length_encodeItems, DetCbor.itemsHaveBom_eq_any, List.any_eq_true]
      have hsum : (xs.map (encodedLength lv ∘ ofWire)).sum ≤ (xs.map fun x => x.encode.length).sum :=
        List.sum_le_sum fun x _ => (ih x).1
      refine ⟨by omega, ?_⟩
      -- one item with a mark is enough to make the whole shorter
      rintro ⟨x, hx, hb⟩
      have : (xs.map (encodedLength lv ∘ ofWire)).sum < (xs.map fun x => x.encode.length).sum :=
        List.sum_lt_sum _ _ (fun x _ => (ih x).1) ⟨x, hx, (ih x).2 hb⟩
      omega
    | map es =>
      have hle := encodedLength_map lv (ofWireEntries [] es)
      -- a `Map` keeps the last value of a repeated key, so it may also hold fewer entries
      have hcount := DetCbor.head_length_mono 5 (length_ofWireEntries es [])
      have hset := entriesLength_ofWireEntries lv es []
      have hle1 : ∀ e ∈ es, encodedLength lv (ofWire e.1.toValue) + encodedLength lv (ofWire e.2) ≤
          e.1.encode.length + e.2.encode.length := by
        intro e _
        have h1 := (ih e.1.toValue).1
        have h2 := (ih e.2).1
        rw [DetCbor.Key.encode_toValue] at h1; omega
      have hsum := List.sum_le_sum hle1
      simp only [List.length_nil, Nat.zero_add, show entriesLength lv [] = 0 from rfl] at hcount hset
      simp only [ofWire, Value.encode, Value.hasBom, List.length_append, length_encodeEntries,
        DetCbor.entriesHaveBom_eq_any, List.any_eq_true, Bool.or_eq_true]
      refine ⟨by omega, ?_⟩
      rintro ⟨e, he, hb⟩
      have hlt : encodedLength lv (ofWire e.1.toValue) + encodedLength lv (ofWire e.2) <
          e.1.encode.length + e.2.encode.length := by
        have h1 := ih e.1.toValue
        have h2 := ih e.2
        rw [DetCbor.Key.encode_toValue] at h1
        rcases hb with hb | hb
        · have := h1.2 hb; omega
        · have := h2.2 hb; omega
      have := List.sum_lt_sum _ _ hle1 ⟨e, he, hlt⟩
      omega
    | null => exact ⟨le_refl 1, by simp [Value.hasBom]⟩

/-! ## Decoding and encoding again -/

mutual

/-- The maps inside a value, each as its entries. -/
def mapsIn : Value → List (List (Key × Value))
  | .array xs => itemsMapsIn xs
  | .map es => es :: entriesMapsIn es
  | _ => []

/-- `mapsIn` of every item of an array. -/
def itemsMapsIn : List Value → List (List (Key × Value))
  | [] => []
  | x :: xs => mapsIn x ++ itemsMapsIn xs

/-- `mapsIn` of every value of a map. -/
def entriesMapsIn : List (Key × Value) → List (List (Key × Value))
  | [] => []
  | e :: es => mapsIn e.2 ++ entriesMapsIn es

end

/-- No text, at any depth of the item `b` spells, starts with a byte order mark. -/
def BomFree (b : Bytes) : Prop := ∀ w, DetCbor.parse 33 b = some w → w.hasBom = false

/-- What `decode` makes of `b` is written back as `b`. -/
def RoundTrips (b : Bytes) : Prop := ∀ v, decode b = .ok v → encode v = .ok b

/-- No two encoded keys of one map in `b` decode to the same key. -/
def KeysStayDistinct (b : Bytes) : Prop := ∀ w, DetCbor.parse 33 b = some w →
  ∀ es ∈ mapsIn w, es.Pairwise fun e f => decode e.1.encode ≠ decode f.1.encode

/-- Bytes come back exactly where no text in them starts with a byte order mark. -/
theorem roundTrips_iff (b : Bytes) : RoundTrips b ↔ BomFree b := by
  constructor
  · intro h w hw
    obtain ⟨hc, rfl⟩ := DetCbor.parse_eq_some.1 hw
    have henc := h (ofWire w) (decode_eq_ok.2 ⟨w, hw, rfl⟩)
    by_contra hb
    have hlt := (encodedLength_ofWire 33 w).2 (by simpa using hb)
    rw [encodedLength_of_ok henc] at hlt
    exact Nat.lt_irrefl _ hlt
  · intro h v hv
    obtain ⟨w, hw, rfl⟩ := decode_eq_ok.1 hv
    obtain ⟨hc, rfl⟩ := DetCbor.parse_eq_some.1 hw
    exact encodeValue_ofWire 33 w hc (h w hw)

theorem mapsIn_array {xs : List Value} {es : List (Key × Value)} :
    es ∈ mapsIn (.array xs) ↔ ∃ x ∈ xs, es ∈ mapsIn x := by
  rw [mapsIn]
  induction xs with
  | nil => simp [itemsMapsIn]
  | cons x xs ih => simp [itemsMapsIn, ih]

theorem mapsIn_map {fs es : List (Key × Value)} :
    es ∈ mapsIn (.map fs) ↔ es = fs ∨ ∃ f ∈ fs, es ∈ mapsIn f.2 := by
  rw [mapsIn, List.mem_cons]
  have h : es ∈ entriesMapsIn fs ↔ ∃ f ∈ fs, es ∈ mapsIn f.2 := by
    induction fs with
    | nil => simp [entriesMapsIn]
    | cons f fs ih => simp [entriesMapsIn, ih]
  rw [h]

/-- Every map inside a canonical value is sorted, and its keys are canonical by themselves. -/
theorem mapsIn_canonical : ∀ lv w, Canonical lv w → w.hasBom = false → ∀ es ∈ mapsIn w,
    DetCbor.SortedKeys es ∧ ∀ e ∈ es, Canonical 33 e.1.toValue ∧ e.1.toValue.hasBom = false := by
  intro lv
  induction lv with
  | zero => intro w hc; exact hc.elim
  | succ lv ih =>
    intro w hc hb es hes
    cases w with
    | array xs =>
      obtain ⟨x, hx, hin⟩ := mapsIn_array.1 hes
      rw [Value.hasBom, DetCbor.itemsHaveBom_eq_any, List.any_eq_false] at hb
      exact ih x ((DetCbor.canonical_array.1 hc).2 x hx) (by simpa using hb x hx) es hin
    | map fs =>
      obtain ⟨-, hsort, hall⟩ := DetCbor.canonical_map.1 hc
      rw [Value.hasBom, DetCbor.entriesHaveBom_eq_any, List.any_eq_false] at hb
      simp only [Bool.or_eq_true, not_or, Bool.not_eq_true] at hb
      rcases mapsIn_map.1 hes with rfl | ⟨f, hf, hin⟩
      · refine ⟨hsort, fun e he => ⟨?_, (hb e he).1⟩⟩
        have hk := (hall e he).1
        cases lv with
        | zero => exact hk.elim
        | succ lv => cases hkey : e.1 <;> rw [hkey] at hk <;> exact hk
      · exact ih f.2 (hall f hf).2 (hb f hf).2 es hin
    | _ => simp [mapsIn] at hes

/-- Without byte order marks no two keys become one. -/
theorem keysStayDistinct_of_bomFree {b : Bytes} (h : BomFree b) : KeysStayDistinct b := by
  intro w hw es hes
  obtain ⟨hc, -⟩ := DetCbor.parse_eq_some.1 hw
  obtain ⟨hsort, hkeys⟩ := mapsIn_canonical 33 w hc (h w hw) es hes
  have hdec : ∀ e ∈ es, decode e.1.encode = .ok (ofKey e.1) := by
    intro e he
    refine decode_eq_ok.2 ⟨e.1.toValue, DetCbor.parse_eq_some.2 ⟨(hkeys e he).1, by simp⟩, ?_⟩
    rw [← ofKey_keyOfWire, keyOfWire_of_not (hkeys e he).2]
  refine List.Pairwise.imp_of_mem ?_ hsort
  intro e f he hf hlt heq
  rw [hdec e he, hdec f hf, Except.ok.injEq] at heq
  have hk : e.1 = f.1 := by
    revert heq
    cases e.1 <;> cases f.1 <;> simp [ofKey]
  rw [hk] at hlt
  exact List.lt_irrefl _ hlt

/-- **An accepted input is reproduced, its keys kept apart, exactly when no text in it starts
with a byte order mark**; and on such inputs decoding loses nothing. -/
theorem decode_lossless_iff (b : Bytes) :
    (RoundTrips b ∧ KeysStayDistinct b ↔ BomFree b) ∧
      ∀ b' v, BomFree b ∧ BomFree b' ∧ decode b = .ok v ∧ decode b' = .ok v → b = b' := by
  refine ⟨⟨fun h => (roundTrips_iff b).1 h.1, fun h => ⟨(roundTrips_iff b).2 h,
    keysStayDistinct_of_bomFree h⟩⟩, ?_⟩
  rintro b' v ⟨h, h', hd, hd'⟩
  have h1 := (roundTrips_iff b).2 h v hd
  rw [(roundTrips_iff b').2 h' v hd', Except.ok.injEq] at h1
  exact h1.symm

/-- A byte order mark alone is read as the empty text, which is written without it. -/
theorem decode_bom_not_reproduced : ¬ ∀ b v, decode b = .ok v → encode v = .ok b := by
  intro h
  have hb := h [0x63, 0xEF, 0xBB, 0xBF] (.text "") (by decide)
  have he : encode (.text "") = .ok [0x60] := by decide
  rw [he] at hb
  simp at hb

end VayuWeb
