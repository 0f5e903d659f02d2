import VayuWeb.DetCbor.Value

/-!
# Deterministic CBOR: reading

`parseValue lv` reads one value of at most `lv` levels from the front of a byte
string, refusing every encoding that is not the deterministic one.

* `parseValue_eq_some`: what is read is canonical, and the bytes consumed are its
  encoding; conversely the encoding of a canonical value is read back.
* `encode_append_inj`: encodings are prefix-free and injective.
-/

namespace DetCbor

open Bytes

/-- An argument of `w` bytes that no shorter head could carry. -/
def readWide (w least : ℕ) (bs : Bytes) : Option (ℕ × Bytes) :=
  match splitAt? w bs with
  | some (raw, rest) => if beNat raw < least then none else some (beNat raw, rest)
  | none => none

/-- The argument of a head with additional information `info`. -/
def readArgument (info : ℕ) (bs : Bytes) : Option (ℕ × Bytes) :=
  if info < 24 then some (info, bs)
  else if info = 24 then readWide 1 24 bs
  else if info = 25 then readWide 2 (2 ^ 8) bs
  else if info = 26 then readWide 4 (2 ^ 16) bs
  else if info = 27 then readWide 8 (2 ^ 32) bs
  else none

/-- `n` items, one after the other. -/
def parseItems (item : Bytes → Option (Value × Bytes)) : ℕ → Bytes → Option (List Value × Bytes)
  | 0, bs => some ([], bs)
  | n + 1, bs =>
    match item bs with
    | none => none
    | some (x, bs) =>
      match parseItems item n bs with
      | none => none
      | some (xs, bs) => some (x :: xs, bs)

/-- A key: an item that is text or a byte string. -/
def asKey : Value → Option Key
  | .text s => some (.text s)
  | .bytes b => some (.bytes b)
  | _ => none

/-- The key `k` may follow `previous`. -/
def keyFollows (previous : Option Bytes) (k : Bytes) : Bool :=
  match previous with
  | none => true
  | some p => p < k

/-- `n` entries, each key after the one before it. -/
def parseEntries (item : Bytes → Option (Value × Bytes)) :
    ℕ → Option Bytes → Bytes → Option (List (Key × Value) × Bytes)
  | 0, _, bs => some ([], bs)
  | n + 1, previous, bs =>
    match item bs with
    | none => none
    | some (kv, bs₁) =>
      match asKey kv with
      | none => none
      | some k =>
        let raw := bs.take (bs.length - bs₁.length)
        if keyFollows previous raw then
          match item bs₁ with
          | none => none
          | some (v, bs₂) =>
            match parseEntries item n (some raw) bs₂ with
            | none => none
            | some (es, bs₃) => some ((k, v) :: es, bs₃)
        else none

/-- One value of at most `lv` levels, and the rest of the input. -/
def parseValue : ℕ → Bytes → Option (Value × Bytes)
  | 0, _ => none
  | _ + 1, [] => none
  | lv + 1, initial :: bs =>
    let major := initial.toNat / 32
    let info := initial.toNat % 32
    match major with
    | 0 => (readArgument info bs).map fun (n, bs) => (.uint n, bs)
    | 2 => (readArgument info bs).bind fun (n, bs) =>
        (splitAt? n bs).map fun (b, bs) => (.bytes b, bs)
    | 3 => (readArgument info bs).bind fun (n, bs) =>
        (splitAt? n bs).bind fun (raw, bs) => (utf8Decode raw).map fun s => (.text s, bs)
    | 4 => (readArgument info bs).bind fun (n, bs) =>
        (parseItems (parseValue lv) n bs).map fun (xs, bs) => (.array xs, bs)
    | 5 => (readArgument info bs).bind fun (n, bs) =>
        (parseEntries (parseValue lv) n none bs).map fun (es, bs) => (.map es, bs)
    | 7 => if info = 22 then some (.null, bs) else none
    | _ => none

/-- Read a whole input as one value of at most `lv` levels. -/
def parse (lv : ℕ) (bs : Bytes) : Option Value :=
  match parseValue lv bs with
  | some (v, []) => some v
  | _ => none

/-! ## Heads -/

/-- When a wide argument is read: at its width and not below the least that needs it. -/
theorem readWide_eq_some {w least : ℕ} {bs rest : Bytes} {n : ℕ} :
    readWide w least bs = some (n, rest) ↔ bs = beBytes w n ++ rest ∧ least ≤ n ∧ n < 256 ^ w := by
  unfold readWide
  constructor
  · intro h
    split at h
    · rename_i raw r hs
      obtain ⟨rfl, rfl⟩ := splitAt?_eq_some.1 hs
      split at h
      · simp at h
      · simp only [Option.some.injEq, Prod.mk.injEq] at h
        obtain ⟨rfl, rfl⟩ := h
        rw [beBytes_beNat]
        exact ⟨rfl, by omega, beNat_lt raw⟩
    · simp at h
  · rintro ⟨rfl, hl, hn⟩
    have hs : splitAt? w (beBytes w n ++ rest) = some (beBytes w n, rest) :=
      splitAt?_eq_some.2 ⟨rfl, length_beBytes w n⟩
    rw [hs]
    simp only [beNat_beBytes hn]
    rw [if_neg (by omega)]

/-- Additional information above 23 announces an argument of the width it names. -/
theorem readArgument_eq_some {info n : ℕ} {bs rest : Bytes} :
    readArgument info bs = some (n, rest) ↔
      (info < 24 ∧ n = info ∧ bs = rest) ∨
      (info = 24 ∧ bs = beBytes 1 n ++ rest ∧ 24 ≤ n ∧ n < 2 ^ 8) ∨
      (info = 25 ∧ bs = beBytes 2 n ++ rest ∧ 2 ^ 8 ≤ n ∧ n < 2 ^ 16) ∨
      (info = 26 ∧ bs = beBytes 4 n ++ rest ∧ 2 ^ 16 ≤ n ∧ n < 2 ^ 32) ∨
      (info = 27 ∧ bs = beBytes 8 n ++ rest ∧ 2 ^ 32 ≤ n ∧ n < 2 ^ 64) := by
  unfold readArgument
  split_ifs with h1 h2 h3 h4 h5
  · simp only [Option.some.injEq, Prod.mk.injEq]
    constructor
    · rintro ⟨rfl, rfl⟩; exact Or.inl ⟨h1, rfl, rfl⟩
    · rintro (⟨-, rfl, rfl⟩ | ⟨h, -⟩ | ⟨h, -⟩ | ⟨h, -⟩ | ⟨h, -⟩)
      · exact ⟨rfl, rfl⟩
      all_goals omega
  · rw [readWide_eq_some, show 256 ^ 1 = 2 ^ 8 from rfl]; grind
  · rw [readWide_eq_some, show 256 ^ 2 = 2 ^ 16 from rfl]; grind
  · rw [readWide_eq_some, show 256 ^ 4 = 2 ^ 32 from rfl]; grind
  · rw [readWide_eq_some, show 256 ^ 8 = 2 ^ 64 from rfl]; grind
  · grind

theorem eq_ofNat_iff {b : UInt8} {a : ℕ} (ha : a < 256) : b = UInt8.ofNat a ↔ b.toNat = a := by
  rw [← UInt8.toNat_inj, UInt8.toNat_ofNat', Nat.mod_eq_of_lt (by omega)]

/-- **A head is read back, and only a shortest head is read.** -/
theorem readHead {major : ℕ} (hm : major < 8) {initial : UInt8} {n : ℕ} {bs rest : Bytes} :
    (initial.toNat / 32 = major ∧ readArgument (initial.toNat % 32) bs = some (n, rest)) ↔
      (initial :: bs = head major n ++ rest ∧ n < 2 ^ 64) := by
  have hi := initial.toNat_lt
  rw [readArgument_eq_some]
  unfold head
  split_ifs with h1 h2 h3 h4 <;>
    simp only [List.cons_append, List.nil_append, List.cons.injEq] <;>
    rw [eq_ofNat_iff (by omega)]
  -- reading: the width announced and the argument found force the same branch of `head`
  all_goals constructor
  any_goals
    rintro ⟨h, (⟨h5, h6, h7⟩ | ⟨h5, h6, h7, h8⟩ | ⟨h5, h6, h7, h8⟩ | ⟨h5, h6, h7, h8⟩ | ⟨h5, h6, h7, h8⟩)⟩ <;>
      first | omega | (refine ⟨⟨by omega, ?_⟩, by omega⟩; assumption)
  all_goals
    rintro ⟨⟨h5, h6⟩, h7⟩
    refine ⟨by omega, ?_⟩
  · exact Or.inl ⟨by omega, by omega, h6⟩
  · exact Or.inr (Or.inl ⟨by omega, h6, by omega, h2⟩)
  · exact Or.inr (Or.inr (Or.inl ⟨by omega, h6, by omega, h3⟩))
  · exact Or.inr (Or.inr (Or.inr (Or.inl ⟨by omega, h6, by omega, h4⟩)))
  · exact Or.inr (Or.inr (Or.inr (Or.inr ⟨by omega, h6, by omega, h7⟩)))

/-- What a head announces, read back: the major type and the argument. -/
theorem head_cons {major n : ℕ} (hm : major < 8) (hn : n < 2 ^ 64) (rest : Bytes) :
    ∃ initial bs, head major n ++ rest = initial :: bs ∧ initial.toNat / 32 = major ∧
      readArgument (initial.toNat % 32) bs = some (n, rest) := by
  cases h : head major n with
  | nil => exact absurd (head_length_pos major n) (by simp [h])
  | cons initial hs =>
    refine ⟨initial, hs ++ rest, by simp, ?_⟩
    exact (readHead hm).2 ⟨by rw [h]; rfl, hn⟩

/-! ## Reading is the inverse of encoding -/

theorem asKey_eq_some {v : Value} {k : Key} : asKey v = some k ↔ v = k.toValue := by
  cases v <;> cases k <;> simp [asKey, Key.toValue, eq_comm]

/-- When the items of an array are read. -/
theorem parseItems_eq_some {item : Bytes → Option (Value × Bytes)} {P : Value → Prop}
    (hitem : ∀ bs v rest, item bs = some (v, rest) ↔ P v ∧ bs = v.encode ++ rest) :
    ∀ n bs xs rest, parseItems item n bs = some (xs, rest) ↔
      xs.length = n ∧ (∀ x ∈ xs, P x) ∧ bs = encodeItems xs ++ rest := by
  intro n
  induction n with
  | zero =>
    intro bs xs rest
    cases xs <;> simp [parseItems, encodeItems]
  | succ n ih =>
    intro bs xs rest
    simp only [parseItems]
    constructor
    · intro h
      split at h
      · simp at h
      rename_i x bs₁ hx
      split at h
      · simp at h
      rename_i ys bs₂ hys
      simp only [Option.some.injEq, Prod.mk.injEq] at h
      obtain ⟨rfl, rfl⟩ := h
      -- the first item ends where its own encoding ends, and the rest follows
      obtain ⟨hP, rfl⟩ := (hitem _ _ _).1 hx
      obtain ⟨hlen, hall, rfl⟩ := (ih _ _ _).1 hys
      refine ⟨by simp [hlen], ?_, by simp [encodeItems]⟩
      intro y hy
      rcases List.mem_cons.1 hy with rfl | hy
      · exact hP
      · exact hall y hy
    · rintro ⟨hlen, hall, rfl⟩
      cases xs with
      | nil => simp at hlen
      | cons x xs =>
        have hx := (hitem _ x (encodeItems xs ++ rest)).2 ⟨hall x List.mem_cons_self, rfl⟩
        have hxs := (ih (encodeItems xs ++ rest) xs rest).2
          ⟨by simpa using hlen, fun y hy => hall y (List.mem_cons_of_mem _ hy), rfl⟩
        simp only [encodeItems, List.append_assoc, hx, hxs]

/-- The order of entries, told from the key before the first of them. -/
def SortedFrom (previous : Option Bytes) (es : List (Key × Value)) : Prop :=
  (∀ p, previous = some p → ∀ e ∈ es, p < e.1.encode) ∧ SortedKeys es

theorem sortedFrom_cons {previous : Option Bytes} {e : Key × Value} {es : List (Key × Value)} :
    SortedFrom previous (e :: es) ↔
      keyFollows previous e.1.encode = true ∧ SortedFrom (some e.1.encode) es := by
  unfold SortedFrom SortedKeys
  simp only [List.pairwise_cons, Option.some.injEq, forall_eq', List.mem_cons, forall_eq_or_imp]
  cases previous with
  | none => simp [keyFollows]
  | some p =>
    simp only [Option.some.injEq, forall_eq', keyFollows, decide_eq_true_eq]
    constructor
    · rintro ⟨⟨h1, -⟩, h3, h4⟩; exact ⟨h1, h3, h4⟩
    · rintro ⟨h1, h3, h4⟩; exact ⟨⟨h1, fun f hf => List.lt_trans h1 (h3 f hf)⟩, h3, h4⟩

/-- When the entries of a map are read: in order, and each as itself. -/
theorem parseEntries_eq_some {item : Bytes → Option (Value × Bytes)} {P : Value → Prop}
    (hitem : ∀ bs v rest, item bs = some (v, rest) ↔ P v ∧ bs = v.encode ++ rest) :
    ∀ n previous bs es rest, parseEntries item n previous bs = some (es, rest) ↔
      es.length = n ∧ SortedFrom previous es ∧ (∀ e ∈ es, P e.1.toValue ∧ P e.2) ∧
        bs = encodeEntries es ++ rest := by
  intro n
  induction n with
  | zero =>
    intro previous bs es rest
    cases es <;> simp [parseEntries, encodeEntries, SortedFrom, SortedKeys]
  | succ n ih =>
    intro previous bs es rest
    simp only [parseEntries]
    constructor
    · intro h
      split at h
      · simp at h
      rename_i kv bs₁ hkv
      split at h
      · simp at h
      rename_i k hk
      rw [asKey_eq_some] at hk; subst hk
      obtain ⟨hPk, rfl⟩ := (hitem _ _ _).1 hkv
      -- the key's bytes are what the item parser consumed, so its order is that of the encodings
      simp only [Key.encode_toValue, List.length_append, Nat.add_sub_cancel, List.take_left'] at h
      split at h
      · rename_i hfol
        split at h
        · simp at h
        rename_i v bs₂ hv
        split at h
        · simp at h
        rename_i fs bs₃ hfs
        simp only [Option.some.injEq, Prod.mk.injEq] at h
        obtain ⟨rfl, rfl⟩ := h
        obtain ⟨hPv, rfl⟩ := (hitem _ _ _).1 hv
        obtain ⟨hlen, hsort, hall, rfl⟩ := (ih _ _ _ _).1 hfs
        refine ⟨by simp [hlen], sortedFrom_cons.2 ⟨hfol, hsort⟩, ?_, by simp [encodeEntries]⟩
        intro e he
        rcases List.mem_cons.1 he with rfl | he
        · exact ⟨hPk, hPv⟩
        · exact hall e he
      · simp at h
    · rintro ⟨hlen, hsort, hall, rfl⟩
      cases es with
      | nil => simp at hlen
      | cons e es =>
        obtain ⟨k, v⟩ := e
        obtain ⟨hfol, hsort⟩ := sortedFrom_cons.1 hsort
        obtain ⟨hPk, hPv⟩ := hall _ List.mem_cons_self
        have hk := (hitem _ k.toValue (v.encode ++ (encodeEntries es ++ rest))).2 ⟨hPk, rfl⟩
        have hv := (hitem _ v (encodeEntries es ++ rest)).2 ⟨hPv, rfl⟩
        have hes := (ih (some k.encode) (encodeEntries es ++ rest) es rest).2
          ⟨by simpa using hlen, hsort, fun f hf => hall f (List.mem_cons_of_mem _ hf), rfl⟩
        rw [Key.encode_toValue] at hk
        have hkey : asKey k.toValue = some k := asKey_eq_some.2 rfl
        simp only [encodeEntries, List.append_assoc, hk, hkey, List.length_append,
          Nat.add_sub_cancel, List.take_left', hfol, if_true, hv, hes]

/-- **Reading accepts exactly the canonical values, and consumes exactly their encodings.** -/
theorem parseValue_eq_some : ∀ lv bs v rest,
    parseValue lv bs = some (v, rest) ↔ Canonical lv v ∧ bs = v.encode ++ rest := by
  intro lv
  induction lv with
  | zero => intro bs v rest; simp [parseValue, Canonical]
  | succ lv ih =>
    intro bs v rest
    constructor
    -- one case for each major type the parser knows, in the order in which it tries them
    · intro h
      cases bs with
      | nil => simp [parseValue] at h
      | cons initial bs =>
        have hi := initial.toNat_lt
        simp only [parseValue] at h
        split at h
        · rename_i hmaj
          simp only [Option.map_eq_some_iff, Prod.mk.injEq, Prod.exists] at h
          obtain ⟨n, r, hr, rfl, rfl⟩ := h
          obtain ⟨he, hn⟩ := (readHead (by decide)).1 ⟨hmaj, hr⟩
          exact ⟨hn, he⟩
        · rename_i hmaj
          simp only [Option.bind_eq_some_iff, Option.map_eq_some_iff, Prod.mk.injEq, Prod.exists] at h
          obtain ⟨n, r, hr, b, r', hs, rfl, rfl⟩ := h
          obtain ⟨he, hn⟩ := (readHead (by decide)).1 ⟨hmaj, hr⟩
          obtain ⟨rfl, rfl⟩ := splitAt?_eq_some.1 hs
          exact ⟨hn, by rw [he, Value.encode, List.append_assoc]⟩
        · rename_i hmaj
          simp only [Option.bind_eq_some_iff, Option.map_eq_some_iff, Prod.mk.injEq, Prod.exists] at h
          obtain ⟨n, r, hr, b, r', hs, s, hd, rfl, rfl⟩ := h
          obtain ⟨he, hn⟩ := (readHead (by decide)).1 ⟨hmaj, hr⟩
          obtain ⟨rfl, rfl⟩ := splitAt?_eq_some.1 hs
          rw [utf8Decode_eq_some] at hd; subst hd
          exact ⟨hn, by rw [he, Value.encode, List.append_assoc]⟩
        · rename_i hmaj
          simp only [Option.bind_eq_some_iff, Option.map_eq_some_iff, Prod.mk.injEq, Prod.exists] at h
          obtain ⟨n, r, hr, xs, r', hs, rfl, rfl⟩ := h
          obtain ⟨he, hn⟩ := (readHead (by decide)).1 ⟨hmaj, hr⟩
          obtain ⟨rfl, hall, rfl⟩ := (parseItems_eq_some ih _ _ _ _).1 hs
          exact ⟨canonical_array.2 ⟨hn, hall⟩, by rw [he, Value.encode, List.append_assoc]⟩
        · rename_i hmaj
          simp only [Option.bind_eq_some_iff, Option.map_eq_some_iff, Prod.mk.injEq, Prod.exists] at h
          obtain ⟨n, r, hr, es, r', hs, rfl, rfl⟩ := h
          obtain ⟨he, hn⟩ := (readHead (by decide)).1 ⟨hmaj, hr⟩
          obtain ⟨rfl, hsort, hall, rfl⟩ := (parseEntries_eq_some ih _ _ _ _ _).1 hs
          exact ⟨canonical_map.2 ⟨hn, hsort.2, hall⟩, by rw [he, Value.encode, List.append_assoc]⟩
        -- major type 7: null is the only simple value that is read
        · rename_i hmaj
          split at h
          · rename_i hinfo
            simp only [Option.some.injEq, Prod.mk.injEq] at h
            obtain ⟨rfl, rfl⟩ := h
            have h0 : initial = 0xF6 := UInt8.toNat_inj.1 (by rw [show (0xF6 : UInt8).toNat = 246 from rfl]; omega)
            rw [h0]
            exact ⟨trivial, rfl⟩
          · simp at h
        · simp at h
    -- the other way each constructor's head decides the branch that reads it
    · rintro ⟨hc, rfl⟩
      cases v with
      | uint n =>
        obtain ⟨initial, bs, he, hmaj, hr⟩ := head_cons (show 0 < 8 by decide) hc rest
        rw [Value.encode, he]
        simp only [parseValue, hmaj, hr, Option.map_some]
      | bytes b =>
        obtain ⟨initial, bs, he, hmaj, hr⟩ := head_cons (show 2 < 8 by decide) hc (b ++ rest)
        rw [Value.encode, List.append_assoc, he]
        simp only [parseValue, hmaj, hr, Option.bind_some, splitAt?_append, Option.map_some]
      | text s =>
        obtain ⟨initial, bs, he, hmaj, hr⟩ :=
          head_cons (show 3 < 8 by decide) hc (utf8Encode s ++ rest)
        rw [Value.encode, List.append_assoc, he]
        simp only [parseValue, hmaj, hr, Option.bind_some, splitAt?_append, Option.map_some,
          utf8Decode_utf8Encode]
      | array xs =>
        obtain ⟨hn, hall⟩ := canonical_array.1 hc
        obtain ⟨initial, bs, he, hmaj, hr⟩ :=
          head_cons (show 4 < 8 by decide) hn (encodeItems xs ++ rest)
        have hxs := (parseItems_eq_some ih xs.length (encodeItems xs ++ rest) xs rest).2
          ⟨rfl, hall, rfl⟩
        rw [Value.encode, List.append_assoc, he]
        simp only [parseValue, hmaj, hr, Option.bind_some, hxs, Option.map_some]
      | map es =>
        obtain ⟨hn, hsort, hall⟩ := canonical_map.1 hc
        obtain ⟨initial, bs, he, hmaj, hr⟩ :=
          head_cons (show 5 < 8 by decide) hn (encodeEntries es ++ rest)
        have hes := (parseEntries_eq_some ih es.length none (encodeEntries es ++ rest) es rest).2
          ⟨rfl, ⟨by simp, hsort⟩, hall, rfl⟩
        rw [Value.encode, List.append_assoc, he]
        simp only [parseValue, hmaj, hr, Option.bind_some, hes, Option.map_some]
      | null => rfl

/-- More items than bytes cannot be. -/
theorem parseItems_count {lv n : ℕ} {bs : Bytes} {p : List Value × Bytes}
    (h : parseItems (parseValue lv) n bs = some p) : n ≤ bs.length := by
  obtain ⟨hn, -, rfl⟩ := (parseItems_eq_some (parseValue_eq_some lv) n bs p.1 p.2).1 h
  have := length_le_encodeItems p.1
  simp only [List.length_append]; omega

/-- A map that is read has no more entries than bytes. -/
theorem parseEntries_count {lv n : ℕ} {bs : Bytes} {p : List (Key × Value) × Bytes}
    (h : parseEntries (parseValue lv) n none bs = some p) : n ≤ bs.length := by
  obtain ⟨hn, -, -, rfl⟩ :=
    (parseEntries_eq_some (parseValue_eq_some lv) n none bs p.1 p.2).1 h
  have := length_le_encodeEntries p.1
  simp only [List.length_append]; omega

/-- Bytes parse to a value exactly where they are its canonical encoding. -/
theorem parse_eq_some {lv : ℕ} {bs : Bytes} {v : Value} :
    parse lv bs = some v ↔ Canonical lv v ∧ bs = v.encode := by
  unfold parse
  constructor
  · intro h
    split at h
    · rename_i w hw
      simp only [Option.some.injEq] at h; subst h
      simpa using (parseValue_eq_some _ _ _ _).1 hw
    · simp at h
  · rintro ⟨hc, rfl⟩
    have h := (parseValue_eq_some lv v.encode v []).2 ⟨hc, by simp⟩
    rw [h]

/-- **Encodings are prefix-free and injective** on the canonical values. -/
theorem encode_append_inj {lv : ℕ} {v w : Value} {r s : Bytes} (hv : Canonical lv v)
    (hw : Canonical lv w) (h : v.encode ++ r = w.encode ++ s) : v = w ∧ r = s := by
  have h1 := (parseValue_eq_some lv _ v r).2 ⟨hv, rfl⟩
  have h2 := (parseValue_eq_some lv _ w s).2 ⟨hw, rfl⟩
  rw [h, h2] at h1
  simp only [Option.some.injEq, Prod.mk.injEq] at h1
  exact ⟨h1.1.symm, h1.2.symm⟩

end DetCbor
