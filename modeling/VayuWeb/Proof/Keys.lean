import VayuWeb.Base.Words
import VayuWeb.Proof.CborWire
import VayuWeb.Spec.Keys

/-!
# What an index scan selects

A key is built from components that carry what the encoders check: text of the label grammar, a
timestamp in range, an owner key of the width of its field.

* `Component.bytes_range`, `timestamp_lt_iff`: a component holds no separator and no byte order
  mark, and timestamps are ordered like their bytes.
* `selects_iff`: a bound selects exactly the keys that the scan names.
* `readsBack`: each decoder returns what its encoder was given.
* `index_scans_exact`: both, for every key and every scan.
-/

namespace VayuWeb

open Bytes
open Words (Apart)

/-! ## Components -/

/-- Text that the encoders take. -/
def Grammatical (value : String) : Prop := value ≠ "" ∧ value.toList.all isGrammar = true

/-- A `tld` or a `label`. -/
abbrev Component := { value : String // Grammatical value }

/-- A second that the key encoding can hold. -/
abbrev Timestamp := { value : ℤ // 0 ≤ value ∧ value ≤ maxTimestamp }

/-- An owner key as wide as its field. -/
abbrev OwnerKey := { key : Bytes // key.length = ownerKeyFieldBytes }

/-- The bytes of a component. -/
def Component.bytes (c : Component) : Bytes := utf8Encode c.1

/-- The bytes of a timestamp. -/
def Timestamp.bytes (t : Timestamp) : Bytes := beBytes timestampBytes t.1.toNat

theorem isGrammar_range {c : Char} (h : isGrammar c = true) : 45 ≤ c.toNat ∧ c.toNat ≤ 122 := by
  simp only [isGrammar, Bool.or_eq_true, Bool.and_eq_true, decide_eq_true_eq, Char.le_def, UInt32.le_iff_toNat_le] at h
  have ha : 'a'.val.toNat = 97 := rfl
  have hz : 'z'.val.toNat = 122 := rfl
  have h0 : '0'.val.toNat = 48 := rfl
  have h9 : '9'.val.toNat = 57 := rfl
  change 45 ≤ c.val.toNat ∧ c.val.toNat ≤ 122
  rcases h with (h | h) | rfl
  · omega
  · omega
  · decide

theorem utf8Encode_ofList (chars : List Char) :
    utf8Encode (String.ofList chars) = chars.flatMap String.utf8EncodeChar := by
  simp [utf8Encode, List.utf8Encode]

/-- A component is ASCII from the hyphen to `z`. -/
theorem Component.bytes_range (c : Component) : ∀ b ∈ c.bytes, 45 ≤ b.toNat ∧ b.toNat ≤ 122 := by
  obtain ⟨value, -, hall⟩ := c
  have hdata : utf8Encode value = value.toList.flatMap String.utf8EncodeChar := by
    rw [← utf8Encode_ofList, String.ofList_toList]
  intro b hb
  unfold Component.bytes at hb
  rw [hdata, List.mem_flatMap] at hb
  obtain ⟨char, hchar, hb⟩ := hb
  have hrange := isGrammar_range (List.all_eq_true.1 hall char hchar)
  have hchar' : Char.ofNat char.toNat = char := Char.ofNat_toNat char
  rw [← hchar', utf8EncodeChar_ascii (by omega), List.mem_singleton] at hb
  rw [hb, UInt8.toNat_ofNat']
  omega

/-- No component contains the separator. -/
theorem Component.separator_notMem (c : Component) : separator ∉ c.bytes := by
  intro h
  have hrange := c.bytes_range _ h
  have hzero : separator.toNat = 0 := rfl
  omega

theorem Component.bytes_ne_nil (c : Component) : c.bytes ≠ [] := by
  intro h
  apply c.2.1
  apply utf8Encode_injective
  rw [show utf8Encode c.1 = [] from h]
  rfl

/-- Two components are never written alike. -/
theorem Component.bytes_injective {c d : Component} (h : c.bytes = d.bytes) : c = d :=
  Subtype.ext (utf8Encode_injective h)

/-- A component is read back. -/
theorem Component.decode (c : Component) : textDecoderSafe c.bytes = some c.1 := by
  have hbom : DetCbor.startsWithBom c.1 = false := by
    rw [Bool.eq_false_iff]
    intro h
    obtain ⟨rest, hrest⟩ := startsWithBom_iff.1 h
    have hmem : (0xEF : UInt8) ∈ c.bytes := by
      rw [show c.bytes = bom ++ rest from hrest]
      exact List.mem_append_left _ List.mem_cons_self
    have hrange := c.bytes_range _ hmem
    have hmark : (0xEF : UInt8).toNat = 239 := rfl
    omega
  rw [Component.bytes, textDecoderSafe_utf8Encode, dropBom_of_not hbom]

/-- A component is written. -/
theorem textComponent_eq (c : Component) (what : String) : textComponent c.1 what = .ok c.bytes := by
  have hne := c.bytes_ne_nil
  have hsep : c.bytes.contains separator = false := by
    rw [Bool.eq_false_iff]
    intro h
    exact c.separator_notMem (List.contains_iff_mem.1 h)
  unfold textComponent
  change (if c.bytes.length = 0 then _ else if c.bytes.contains separator = true then _ else _) = _
  rw [if_neg (fun h => hne (List.length_eq_zero_iff.1 h)), hsep, if_neg Bool.false_ne_true, if_neg (by simp [c.2.2])]
  rfl

theorem Timestamp.toNat_lt (t : Timestamp) : t.1.toNat < 256 ^ timestampBytes := by
  obtain ⟨value, hlow, hhigh⟩ := t
  unfold maxTimestamp at hhigh
  unfold timestampBytes
  simp only
  omega

theorem Timestamp.length_bytes (t : Timestamp) : t.bytes.length = timestampBytes := length_beBytes _ _

/-- Two timestamps are never written alike. -/
theorem Timestamp.bytes_injective {t u : Timestamp} (h : t.bytes = u.bytes) : t = u := by
  have hnat := congrArg beNat h
  unfold Timestamp.bytes at hnat
  rw [beNat_beBytes t.toNat_lt, beNat_beBytes u.toNat_lt] at hnat
  have ht := t.2.1
  have hu := u.2.1
  apply Subtype.ext
  omega

/-- A timestamp is written. -/
theorem encodeTimestamp_eq (t : Timestamp) : encodeTimestamp t.1 = .ok t.bytes := by
  have hlow := t.2.1
  have hhigh := t.2.2
  unfold encodeTimestamp
  rw [if_neg (by omega)]
  rfl

/-- Numbers of one width are in order as their bytes are. -/
theorem beBytes_lt_iff {k m n : ℕ} (hm : m < 256 ^ k) (hn : n < 256 ^ k) : beBytes k m < beBytes k n ↔ m < n := by
  induction k generalizing m n with
  | zero =>
    rw [Nat.pow_zero] at hm hn
    simp only [beBytes, List.not_lt_nil, false_iff]
    omega
  | succ k ih =>
    rw [Nat.pow_succ] at hm hn
    have hm' : m / 256 < 256 ^ k := by omega
    have hn' : n / 256 < 256 ^ k := by omega
    simp only [beBytes]
    by_cases heq : m / 256 = n / 256
    · rw [heq, Words.append_lt_append_left_iff, List.cons_lt_cons_iff, UInt8.lt_iff_toNat_lt, UInt8.toNat_ofNat',
        UInt8.toNat_ofNat']
      simp only [List.not_lt_nil, and_false, or_false]
      omega
    · -- the upper bytes decide
      have hne : beBytes k (m / 256) ≠ beBytes k (n / 256) := by
        intro h
        have hnat := congrArg beNat h
        rw [beNat_beBytes hm', beNat_beBytes hn'] at hnat
        exact heq hnat
      have hlen : (beBytes k (m / 256)).length = (beBytes k (n / 256)).length := by
        rw [length_beBytes, length_beBytes]
      rw [(Apart.of_length hlen hne).append_lt_append_iff, ih hm' hn']
      omega

/-- **Timestamps are ordered like their bytes**, whatever follows. -/
theorem timestamp_between_iff (t from_ to_ : Timestamp) (rest : Bytes) :
    (¬ t.bytes ++ rest < from_.bytes ∧ t.bytes ++ rest < to_.bytes) ↔ from_.1 ≤ t.1 ∧ t.1 < to_.1 := by
  have hlt : ∀ bound : Timestamp, t.bytes ++ rest < bound.bytes ↔ t.1 < bound.1 := by
    intro bound
    have ht := t.2.1
    have hbound := bound.2.1
    by_cases heq : t = bound
    · subst heq
      exact iff_of_false (Words.not_append_lt_self _ _) (lt_irrefl _)
    · have hne : t.bytes ≠ bound.bytes := fun h => heq (Timestamp.bytes_injective h)
      have hlen : t.bytes.length = bound.bytes.length := by rw [t.length_bytes, bound.length_bytes]
      have horder := (Apart.of_length hlen hne).append_lt_append_iff (x := rest) (y := [])
      rw [List.append_nil] at horder
      rw [horder]
      unfold Timestamp.bytes
      rw [beBytes_lt_iff t.toNat_lt bound.toNat_lt]
      omega
  rw [hlt, hlt, not_lt]

/-! ## Keys and scans -/

/-- The keys of the four keyspaces. -/
inductive IndexKey where
  | current (tld label : Component)
  | byOwner (ownerKey : OwnerKey) (tld label : Component)
  | expiry (notAfter : Timestamp) (tld label : Component)
  | rate (tld : Component) (notBefore : Timestamp) (label : Component)

namespace IndexKey

/-- The key an index entry is stored under. -/
def encode : IndexKey → Except KeyError Bytes
  | .current tld label => currentKey tld.1 label.1
  | .byOwner ownerKey tld label => byOwnerKey ownerKey.1 tld.1 label.1
  | .expiry notAfter tld label => expiryKey notAfter.1 tld.1 label.1
  | .rate tld notBefore label => rateKey tld.1 notBefore.1 label.1

/-- The tag of an index entry's key. -/
def tag : IndexKey → UInt8
  | .current .. => tagCurrent
  | .byOwner .. => tagByOwner
  | .expiry .. => tagExpiry
  | .rate .. => tagRate

/-- What follows the tag of a key. -/
def body : IndexKey → Bytes
  | .current tld label => tld.bytes ++ [separator] ++ label.bytes
  | .byOwner ownerKey tld label => ownerKey.1 ++ [separator] ++ (tld.bytes ++ [separator] ++ label.bytes)
  | .expiry notAfter tld label => notAfter.bytes ++ [separator] ++ (tld.bytes ++ [separator] ++ label.bytes)
  | .rate tld notBefore label => tld.bytes ++ [separator] ++ (notBefore.bytes ++ ([separator] ++ label.bytes))

/-- The key of an entry is its tag and its body. -/
theorem encode_eq (key : IndexKey) : key.encode = .ok (tagged key.tag ++ key.body) := by
  cases key with
  | current tld label => simp [encode, currentKey, textComponent_eq, tag, body]
  | byOwner ownerKey tld label => simp [encode, byOwnerKey, ownerKey.2, textComponent_eq, tag, body]
  | expiry notAfter tld label => simp [encode, expiryKey, encodeTimestamp_eq, textComponent_eq, tag, body]
  | rate tld notBefore label => simp [encode, rateKey, encodeTimestamp_eq, textComponent_eq, tag, body]

/-- The decoder of the keyspace returns what the encoder was given. -/
def ReadsBack (bytes : Bytes) : IndexKey → Prop
  | .current tld label => decodeCurrentKey bytes = .ok ⟨tld.1, label.1⟩
  | .byOwner ownerKey tld label => decodeByOwnerKey bytes = .ok ⟨ownerKey.1, tld.1, label.1⟩
  | .expiry notAfter tld label => decodeExpiryKey bytes = .ok ⟨notAfter.1, tld.1, label.1⟩
  | .rate tld notBefore label => decodeRateKey bytes = .ok ⟨tld.1, notBefore.1, label.1⟩

end IndexKey

/-- A scan of the index, by what it asks for. -/
inductive Scan where
  | currentOf (tld : Component)
  | ownedBy (ownerKey : OwnerKey)
  | expiring (from_ to_ : Timestamp) (ordered : from_.1 ≤ to_.1)
  | registered (tld : Component) (from_ to_ : Timestamp) (ordered : from_.1 ≤ to_.1)

/-- The keys a scan reads. -/
inductive Selection where
  | startingWith (start : Bytes)
  | between (range : KeyRange)

/-- In unsigned lexicographic order. -/
def Selection.Selects : Selection → Bytes → Prop
  | .startingWith start, key => start <+: key
  | .between range, key => ¬ key < range.gte ∧ key < range.lt

namespace Scan

/-- What a scan selects. -/
def selection : Scan → Except KeyError Selection
  | .currentOf tld => (currentPrefix tld.1).map .startingWith
  | .ownedBy ownerKey => (byOwnerPrefix ownerKey.1).map .startingWith
  | .expiring from_ to_ _ => (expiryRange from_.1 to_.1).map .between
  | .registered tld from_ to_ _ => (rateRange tld.1 from_.1 to_.1).map .between

/-- What a scan asks for. -/
def Names : Scan → IndexKey → Prop
  | .currentOf tld, .current tld' _ => tld' = tld
  | .ownedBy ownerKey, .byOwner ownerKey' _ _ => ownerKey' = ownerKey
  | .expiring from_ to_ _, .expiry notAfter _ _ => from_.1 ≤ notAfter.1 ∧ notAfter.1 < to_.1
  | .registered tld from_ to_ _, .rate tld' notBefore _ =>
    tld' = tld ∧ from_.1 ≤ notBefore.1 ∧ notBefore.1 < to_.1
  | _, _ => False

/-- The tag of the keys a scan is over. -/
def tag : Scan → UInt8
  | .currentOf _ => tagCurrent
  | .ownedBy _ => tagByOwner
  | .expiring .. => tagExpiry
  | .registered .. => tagRate

/-- The bounds of a scan. -/
def bounds : Scan → Selection
  | .currentOf tld => .startingWith (tagged tagCurrent ++ (tld.bytes ++ [separator]))
  | .ownedBy ownerKey => .startingWith (tagged tagByOwner ++ (ownerKey.1 ++ [separator]))
  | .expiring from_ to_ _ => .between ⟨tagged tagExpiry ++ from_.bytes, tagged tagExpiry ++ to_.bytes⟩
  | .registered tld from_ to_ _ =>
    .between ⟨tagged tagRate ++ (tld.bytes ++ [separator] ++ from_.bytes),
      tagged tagRate ++ (tld.bytes ++ [separator] ++ to_.bytes)⟩

/-- Every scan has bounds. -/
theorem selection_eq (scan : Scan) : scan.selection = .ok scan.bounds := by
  cases scan with
  | currentOf tld => simp [selection, currentPrefix, textComponent_eq, bounds, Except.map]
  | ownedBy ownerKey => simp [selection, byOwnerPrefix, ownerKey.2, bounds, Except.map]
  | expiring from_ to_ ordered =>
    have horder : ¬ to_.1 < from_.1 := by omega
    simp only [selection, expiryRange, horder, encodeTimestamp_eq, bounds, if_false]
    rfl
  | registered tld from_ to_ ordered =>
    have horder : ¬ to_.1 < from_.1 := by omega
    simp only [selection, rateRange, horder, encodeTimestamp_eq, textComponent_eq, bounds, if_false]
    simp [Except.map]

/-! ## Selecting -/

/-- Keys of another keyspace are outside every bound. -/
theorem not_selects_of_tag {scan : Scan} {key : IndexKey} (h : key.tag ≠ scan.tag) :
    ¬ scan.bounds.Selects (tagged key.tag ++ key.body) := by
  have hapart : Apart (tagged scan.tag) (tagged key.tag) := Apart.of_head (Ne.symm h) _ _
  have hstart : ∀ rest, ¬ tagged scan.tag ++ rest <+: tagged key.tag ++ key.body := by
    intro rest hprefix
    exact h (List.cons_prefix_cons.1 hprefix).1.symm
  cases scan with
  | currentOf tld => exact hstart _
  | ownedBy ownerKey => exact hstart _
  | expiring from_ to_ ordered => exact hapart.not_between
  | registered tld from_ to_ ordered => exact hapart.not_between

theorem currentOf_selects_iff (tld tld' label : Component) :
    (currentOf tld).bounds.Selects (tagged tagCurrent ++ (tld'.bytes ++ [separator] ++ label.bytes)) ↔ tld' = tld := by
  change tagged tagCurrent ++ _ <+: _ ↔ _
  rw [List.prefix_append_right_inj]
  constructor
  · intro hprefix
    by_contra hne
    have hbytes : tld.bytes ≠ tld'.bytes := fun h => hne (Component.bytes_injective h).symm
    have hapart := Apart.of_separator tld.separator_notMem tld'.separator_notMem hbytes
    rcases List.prefix_or_prefix_of_prefix hprefix (List.prefix_append _ _) with hp | hp
    · exact hapart.1 hp
    · exact hapart.2 hp
  · rintro rfl
    exact List.prefix_append _ _

theorem ownedBy_selects_iff (ownerKey ownerKey' : OwnerKey) (rest : Bytes) :
    (ownedBy ownerKey).bounds.Selects (tagged tagByOwner ++ (ownerKey'.1 ++ [separator] ++ rest)) ↔
      ownerKey' = ownerKey := by
  change tagged tagByOwner ++ _ <+: _ ↔ _
  rw [List.prefix_append_right_inj]
  constructor
  · intro hprefix
    have hlen : (ownerKey.1 ++ [separator]).length = (ownerKey'.1 ++ [separator]).length := by
      rw [List.length_append, List.length_append, ownerKey.2, ownerKey'.2]
    have hbegins := List.prefix_of_prefix_length_le hprefix (List.prefix_append _ _) hlen.le
    exact Subtype.ext (List.append_cancel_right (hbegins.eq_of_length hlen)).symm
  · rintro rfl
    exact List.prefix_append _ _

theorem expiring_selects_iff (from_ to_ notAfter : Timestamp) (ordered : from_.1 ≤ to_.1) (rest : Bytes) :
    (expiring from_ to_ ordered).bounds.Selects (tagged tagExpiry ++ (notAfter.bytes ++ rest)) ↔
      from_.1 ≤ notAfter.1 ∧ notAfter.1 < to_.1 := by
  change ¬ _ < tagged tagExpiry ++ from_.bytes ∧ _ < tagged tagExpiry ++ to_.bytes ↔ _
  rw [Words.append_lt_append_left_iff, Words.append_lt_append_left_iff]
  exact timestamp_between_iff notAfter from_ to_ rest

/-- Which registrations a scan by time selects. -/
theorem registered_selects_iff (tld tld' : Component) (from_ to_ notBefore : Timestamp)
    (ordered : from_.1 ≤ to_.1) (rest : Bytes) :
    (registered tld from_ to_ ordered).bounds.Selects
        (tagged tagRate ++ (tld'.bytes ++ [separator] ++ (notBefore.bytes ++ rest))) ↔
      tld' = tld ∧ from_.1 ≤ notBefore.1 ∧ notBefore.1 < to_.1 := by
  change ¬ _ < tagged tagRate ++ (tld.bytes ++ [separator] ++ from_.bytes) ∧
    _ < tagged tagRate ++ (tld.bytes ++ [separator] ++ to_.bytes) ↔ _
  rw [Words.append_lt_append_left_iff, Words.append_lt_append_left_iff]
  by_cases heq : tld' = tld
  · subst heq
    rw [Words.append_lt_append_left_iff, Words.append_lt_append_left_iff, timestamp_between_iff]
    exact (and_iff_right rfl).symm
  · -- the separator decides, whatever the timestamps are
    have hbytes : tld.bytes ≠ tld'.bytes := fun h => heq (Component.bytes_injective h).symm
    have hapart := Apart.of_separator tld.separator_notMem tld'.separator_notMem hbytes
    exact iff_of_false hapart.not_between fun h => heq h.1

/-- **A bound selects exactly the keys that the scan names.** -/
theorem selects_iff (scan : Scan) (key : IndexKey) :
    scan.bounds.Selects (tagged key.tag ++ key.body) ↔ scan.Names key := by
  -- a key of another table is out of bounds by its tag
  have hother : key.tag ≠ scan.tag → (scan.bounds.Selects (tagged key.tag ++ key.body) ↔ False) :=
    fun htag => iff_of_false (not_selects_of_tag htag) id
  cases scan with
  | currentOf tld =>
    cases key with
    | current tld' label => exact currentOf_selects_iff tld tld' label
    | byOwner | expiry | rate =>
      exact hother (by simp [IndexKey.tag, tag, tagCurrent, tagByOwner, tagExpiry, tagRate])
  | ownedBy ownerKey =>
    cases key with
    | byOwner ownerKey' tld label => exact ownedBy_selects_iff ownerKey ownerKey' _
    | current | expiry | rate =>
      exact hother (by simp [IndexKey.tag, tag, tagCurrent, tagByOwner, tagExpiry, tagRate])
  | expiring from_ to_ ordered =>
    cases key with
    | expiry notAfter tld label =>
      have hbody : (IndexKey.expiry notAfter tld label).body =
          notAfter.bytes ++ ([separator] ++ (tld.bytes ++ [separator] ++ label.bytes)) := List.append_assoc _ _ _
      rw [hbody]
      exact expiring_selects_iff from_ to_ notAfter ordered _
    | current | byOwner | rate =>
      exact hother (by simp [IndexKey.tag, tag, tagCurrent, tagByOwner, tagExpiry, tagRate])
  | registered tld from_ to_ ordered =>
    cases key with
    | rate tld' notBefore label => exact registered_selects_iff tld tld' from_ to_ notBefore ordered _
    | current | byOwner | expiry =>
      exact hother (by simp [IndexKey.tag, tag, tagCurrent, tagByOwner, tagExpiry, tagRate])

end Scan

/-! ## Reading back -/

section Reading

variable {key : Bytes} {offset : ℕ} (front rest : Bytes)

theorem Component.length_bytes_ne (c : Component) : c.bytes.length ≠ 0 :=
  fun h => c.bytes_ne_nil (List.length_eq_zero_iff.1 h)

/-- A text component is read up to the separator, or up to the end. -/
theorem readText_eq (c : Component) (what : String) (hkey : key = front ++ (c.bytes ++ rest))
    (hoffset : offset = front.length) (hrest : rest.takeWhile (· ≠ separator) = []) :
    readText key offset what = .ok (c.1, offset + c.bytes.length + 1) := by
  have htake : (c.bytes ++ rest).takeWhile (· ≠ separator) = c.bytes := by
    rw [List.takeWhile_append_of_pos, hrest, List.append_nil]
    intro b hb
    apply decide_eq_true
    rintro rfl
    exact c.separator_notMem hb
  unfold readText
  rw [hkey, hoffset, List.drop_left, htake]
  simp only [c.length_bytes_ne, if_false, c.decode]

/-- The text that ends a key. -/
theorem readLabel_eq (c : Component) (hkey : key = front ++ c.bytes) (hoffset : offset = front.length) :
    readLabel key offset = .ok c.1 := by
  have hread : readText key offset "label" = .ok (c.1, offset + c.bytes.length + 1) := by
    apply readText_eq front [] c "label" _ hoffset rfl
    rw [hkey, List.append_nil]
  have hend : offset + c.bytes.length + 1 = key.length + 1 := by rw [hkey, hoffset, List.length_append]
  unfold readLabel
  rw [hread]
  simp only [Except.ok_bind, hend, ne_eq, not_true_eq_false, if_false]
  rfl

theorem expectTag_eq (tag : UInt8) (what : String) (hkey : key = tagged tag ++ rest) :
    expectTag key tag what = .ok () := by
  unfold expectTag
  rw [hkey]
  simp [tagged]

/-- A field is followed by its separator. -/
theorem expectField_eq (what : String) (hkey : key = front ++ (separator :: rest)) (hoffset : offset = front.length) :
    expectField key offset what = .ok () := by
  unfold expectField
  rw [hkey, hoffset]
  simp

/-- A timestamp stands where its field is. -/
theorem decodeTimestamp_eq (t : Timestamp) (hkey : key = front ++ (t.bytes ++ rest)) (hoffset : offset = front.length) :
    decodeTimestamp key offset = .ok t.1 := by
  have hlen := t.length_bytes
  have hhigh := t.2.2
  have hnat : (beNat t.bytes : ℤ) = t.1 := by
    unfold Timestamp.bytes
    rw [beNat_beBytes t.toNat_lt]
    have ht := t.2.1
    omega
  have hroom : ¬ offset + timestampBytes > key.length := by
    rw [hkey, hoffset, List.length_append, List.length_append]
    omega
  have htake : (key.drop offset).take timestampBytes = t.bytes := by
    rw [hkey, hoffset, List.drop_left, ← hlen, List.take_left]
  unfold decodeTimestamp
  rw [if_neg hroom, htake]
  simp only [hnat]
  rw [if_neg (by omega)]

variable (tld label : Component)

/-- A `current` key is read back. -/
theorem decodeCurrentKey_eq (hkey : key = tagged tagCurrent ++ (tld.bytes ++ [separator] ++ label.bytes)) :
    decodeCurrentKey key = .ok ⟨tld.1, label.1⟩ := by
  have htag : expectTag key tagCurrent "current" = .ok () := expectTag_eq _ tagCurrent _ hkey
  have htld : readText key 2 "tld" = .ok (tld.1, 2 + tld.bytes.length + 1) :=
    readText_eq (tagged tagCurrent) (separator :: label.bytes) tld _ (by simp [hkey]) rfl (by simp)
  have hlabel : readLabel key (2 + tld.bytes.length + 1) = .ok label.1 :=
    readLabel_eq (tagged tagCurrent ++ (tld.bytes ++ [separator])) label (by simp [hkey])
      (by simp [tagged]; omega)
  unfold decodeCurrentKey
  simp only [htag, htld, hlabel, Except.ok_bind]
  rfl

/-- A `by-owner` key is read back. -/
theorem decodeByOwnerKey_eq (ownerKey : OwnerKey)
    (hkey : key = tagged tagByOwner ++ (ownerKey.1 ++ [separator] ++ (tld.bytes ++ [separator] ++ label.bytes))) :
    decodeByOwnerKey key = .ok ⟨ownerKey.1, tld.1, label.1⟩ := by
  have howner : ownerKey.1.length = 32 := ownerKey.2
  have htag : expectTag key tagByOwner "by-owner" = .ok () := expectTag_eq _ tagByOwner _ hkey
  have hfield : expectField key (2 + ownerKeyFieldBytes) "ownerKey" = .ok () :=
    expectField_eq (tagged tagByOwner ++ ownerKey.1) _ _ (by simp [hkey]; rfl)
      (by simp [tagged, howner, ownerKeyFieldBytes])
  have htld : readText key (2 + ownerKeyFieldBytes + 1) "tld" = .ok (tld.1, 35 + tld.bytes.length + 1) :=
    readText_eq (tagged tagByOwner ++ (ownerKey.1 ++ [separator])) (separator :: label.bytes) tld _ (by simp [hkey])
      (by simp [tagged, howner, ownerKeyFieldBytes]) (by simp)
  have hlabel : readLabel key (35 + tld.bytes.length + 1) = .ok label.1 :=
    readLabel_eq (tagged tagByOwner ++ (ownerKey.1 ++ [separator] ++ (tld.bytes ++ [separator]))) label (by simp [hkey])
      (by simp [tagged, howner]; omega)
  have hslice : (key.drop 2).take ownerKeyFieldBytes = ownerKey.1 := by
    have hdrop : key.drop 2 = ownerKey.1 ++ ([separator] ++ (tld.bytes ++ [separator] ++ label.bytes)) := by
      rw [hkey, List.append_assoc]
      rfl
    rw [hdrop, List.take_left' ownerKey.2]
  unfold decodeByOwnerKey
  simp only [htag, hfield, htld, hlabel, hslice, Except.ok_bind]
  rfl

/-- An `expiry` key is read back. -/
theorem decodeExpiryKey_eq (notAfter : Timestamp)
    (hkey : key = tagged tagExpiry ++ (notAfter.bytes ++ [separator] ++ (tld.bytes ++ [separator] ++ label.bytes))) :
    decodeExpiryKey key = .ok ⟨notAfter.1, tld.1, label.1⟩ := by
  have hlen : notAfter.bytes.length = 8 := notAfter.length_bytes
  have htag : expectTag key tagExpiry "expiry" = .ok () := expectTag_eq _ tagExpiry _ hkey
  have hfield : expectField key (2 + timestampBytes) "timestamp" = .ok () :=
    expectField_eq (tagged tagExpiry ++ notAfter.bytes) _ _ (by simp [hkey]; rfl)
      (by simp [tagged, hlen, timestampBytes])
  have htime : decodeTimestamp key 2 = .ok notAfter.1 :=
    decodeTimestamp_eq (tagged tagExpiry) _ notAfter (by rw [hkey, List.append_assoc]) rfl
  have htld : readText key (2 + timestampBytes + 1) "tld" = .ok (tld.1, 11 + tld.bytes.length + 1) :=
    readText_eq (tagged tagExpiry ++ (notAfter.bytes ++ [separator])) (separator :: label.bytes) tld _ (by simp [hkey])
      (by simp [tagged, hlen, timestampBytes]) (by simp)
  have hlabel : readLabel key (11 + tld.bytes.length + 1) = .ok label.1 :=
    readLabel_eq (tagged tagExpiry ++ (notAfter.bytes ++ [separator] ++ (tld.bytes ++ [separator]))) label
      (by simp [hkey]) (by simp [tagged, hlen]; omega)
  unfold decodeExpiryKey
  simp only [htag, hfield, htime, htld, hlabel, Except.ok_bind]
  rfl

/-- A `rate` key is read back. -/
theorem decodeRateKey_eq (notBefore : Timestamp)
    (hkey : key = tagged tagRate ++ (tld.bytes ++ [separator] ++ (notBefore.bytes ++ ([separator] ++ label.bytes)))) :
    decodeRateKey key = .ok ⟨tld.1, notBefore.1, label.1⟩ := by
  have hlen : notBefore.bytes.length = 8 := notBefore.length_bytes
  have htag : expectTag key tagRate "rate" = .ok () := expectTag_eq _ tagRate _ hkey
  have htld : readText key 2 "tld" = .ok (tld.1, 2 + tld.bytes.length + 1) :=
    readText_eq (tagged tagRate) (separator :: (notBefore.bytes ++ ([separator] ++ label.bytes))) tld _ (by simp [hkey])
      rfl (by simp)
  have hfield : expectField key (2 + tld.bytes.length + 1 + timestampBytes) "timestamp" = .ok () :=
    expectField_eq (tagged tagRate ++ (tld.bytes ++ [separator] ++ notBefore.bytes)) _ _ (by simp [hkey]; rfl)
      (by simp [tagged, hlen, timestampBytes]; omega)
  have htime : decodeTimestamp key (2 + tld.bytes.length + 1) = .ok notBefore.1 :=
    decodeTimestamp_eq (tagged tagRate ++ (tld.bytes ++ [separator])) _ notBefore (by simp [hkey]; rfl)
      (by simp [tagged]; omega)
  have hlabel : readLabel key (2 + tld.bytes.length + 1 + timestampBytes + 1) = .ok label.1 :=
    readLabel_eq (tagged tagRate ++ (tld.bytes ++ [separator] ++ (notBefore.bytes ++ [separator]))) label
      (by simp [hkey]) (by simp [tagged, hlen, timestampBytes]; omega)
  unfold decodeRateKey
  simp only [htag, htld, hfield, htime, hlabel, Except.ok_bind]
  rfl

end Reading

/-- **Each decoder returns what its encoder was given.** -/
theorem IndexKey.readsBack (key : IndexKey) : key.ReadsBack (tagged key.tag ++ key.body) := by
  cases key with
  | current tld label => exact decodeCurrentKey_eq tld label rfl
  | byOwner ownerKey tld label => exact decodeByOwnerKey_eq tld label ownerKey rfl
  | expiry notAfter tld label => exact decodeExpiryKey_eq tld label notAfter rfl
  | rate tld notBefore label => exact decodeRateKey_eq tld label notBefore rfl

/-- **Index range scans select exactly what they name**, among the keys of all keyspaces, and each
decoder returns what its encoder was given. -/
theorem index_scans_exact (key : IndexKey) (scan : Scan) : ∃ bytes selection, key.encode = .ok bytes ∧
    scan.selection = .ok selection ∧ (selection.Selects bytes ↔ scan.Names key) ∧ key.ReadsBack bytes :=
  ⟨_, _, key.encode_eq, scan.selection_eq, scan.selects_iff key, key.readsBack⟩

end VayuWeb
