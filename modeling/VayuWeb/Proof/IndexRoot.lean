import VayuWeb.Proof.InclusionSound
import VayuWeb.Proof.Keys
import VayuWeb.Spec.Checkpoint

/-!
# The index root commits to the index

* `IndexRow.eq_of_suffix`: a row is read back from its end, where the hash is as wide as a hash
  and the components before it hold no separator.
* `sortRows_eq_iff`: the sorted rows are one list exactly when the rows are the same.
* `index_root_commits`: two indexes have one root exactly when they have the same rows.
-/

namespace VayuWeb

open Bytes

variable {C : Crypto}

/-! ## Rows -/

/-- A record hash. -/
abbrev RecordHash := { hash : Bytes // hash.length = recordHashLength }

/-- What one name of the index points at. -/
structure IndexRow where
  tld : Component
  label : Component
  hash : RecordHash
  deriving DecidableEq

/-- An index in the order its rows were inserted: no name stands in it twice. -/
structure Index where
  rows : List IndexRow
  nodup : (rows.map fun row => (row.tld, row.label)).Nodup

namespace IndexRow

/-- The name as the index writes it. -/
def name (row : IndexRow) : String := row.label.1 ++ "." ++ row.tld.1

/-- The `n` key of the name and the hash. -/
def bytes (row : IndexRow) : Bytes :=
  tagged tagCurrent ++ row.tld.bytes ++ [separator] ++ row.label.bytes ++ row.hash.1

end IndexRow

/-- What the index says of each name. -/
def Index.current (index : Index) : OrdMap String Bytes := index.rows.map fun row => (row.name, row.hash.1)

theorem not_isGrammar_dot : isGrammar '.' = false := by decide

theorem Component.dot_notMem (c : Component) : '.' ∉ c.1.toList := by
  intro h
  have hgrammar := List.all_eq_true.1 c.2.2 '.' h
  rw [not_isGrammar_dot] at hgrammar
  exact absurd hgrammar Bool.false_ne_true

theorem Component.exists_length (c : Component) : ∃ n, c.1.toList.length = n + 1 := by
  apply Nat.exists_eq_add_one.2
  apply List.length_pos_of_ne_nil
  intro hnil
  exact c.2.1 (String.toList_eq_nil_iff.1 hnil)

/-- The last dot of a name stands before its TLD. -/
theorem lastDot_append (label : List Char) {tld : List Char} (h : '.' ∉ tld) :
    lastDot (label ++ '.' :: tld) = some label.length := by
  have hreverse : (label ++ '.' :: tld).reverse = tld.reverse ++ '.' :: label.reverse := by simp
  have hfirst : (label ++ '.' :: tld).reverse.idxOf? '.' = some tld.length := by
    rw [hreverse, List.idxOf?_eq_some_iff, ← List.length_reverse]
    refine ⟨by simp, by simp, ?_⟩
    intro j hj hdot
    rw [List.getElem_append_left hj] at hdot
    exact h (List.mem_reverse.1 (hdot ▸ List.getElem_mem hj))
  unfold lastDot
  rw [hfirst, Option.map_some, List.length_append, List.length_cons]
  congr 1
  omega

/-- The key of a row. -/
theorem indexKey_name (row : IndexRow) : indexKey row.name =
    .ok (tagged tagCurrent ++ row.tld.bytes ++ [separator] ++ row.label.bytes) := by
  have hchars : row.name.toList = row.label.1.toList ++ '.' :: row.tld.1.toList := by
    simp [IndexRow.name]
  obtain ⟨n, hn⟩ := row.label.exists_length
  have htake : (row.label.1.toList ++ '.' :: row.tld.1.toList).take (n + 1) = row.label.1.toList := by
    rw [← hn, List.take_left]
  have hdrop : (row.label.1.toList ++ '.' :: row.tld.1.toList).drop (n + 2) = row.tld.1.toList := by
    rw [show n + 2 = row.label.1.toList.length + 1 by omega, List.drop_append]
    simp
  unfold indexKey
  rw [hchars, lastDot_append _ row.tld.dot_notMem, hn]
  simp only [htake, hdrop, String.ofList_toList, currentKey, textComponent_eq, Except.ok_bind]
  rfl

/-- Two rows of one name have the same parts. -/
theorem IndexRow.name_inj {row row' : IndexRow} (h : row.name = row'.name) :
    row.tld = row'.tld ∧ row.label = row'.label := by
  have hchars : row.label.1.toList ++ '.' :: row.tld.1.toList = row'.label.1.toList ++ '.' :: row'.tld.1.toList := by
    simpa [IndexRow.name] using congrArg String.toList h
  obtain ⟨hlabel, htld⟩ := Words.append_separator_inj row.tld.dot_notMem row'.tld.dot_notMem hchars
  exact ⟨Subtype.ext (String.toList_injective htld), Subtype.ext (String.toList_injective hlabel)⟩

/-! ## Reading rows back -/

/-- **A row is known from its end.** -/
theorem IndexRow.eq_of_suffix {row row' : IndexRow} (h : row.bytes <:+ row'.bytes) : row = row' := by
  obtain ⟨front, h⟩ := h
  unfold IndexRow.bytes at h
  rw [← List.append_assoc] at h
  -- the hash is the last 32 bytes
  obtain ⟨hkey, hhash⟩ := List.append_inj' h (row.hash.2.trans row'.hash.2.symm)
  have hlabel : ∀ (p : Bytes) (r : IndexRow), p ++ tagged tagCurrent ++ r.tld.bytes ++ [separator] ++ r.label.bytes =
      (p ++ tagged tagCurrent ++ r.tld.bytes) ++ separator :: r.label.bytes := by
    intro p r
    simp
  have hkey' : (front ++ tagged tagCurrent ++ row.tld.bytes) ++ separator :: row.label.bytes =
      (tagged tagCurrent ++ row'.tld.bytes) ++ separator :: row'.label.bytes := by
    simpa using hkey
  obtain ⟨hrest, hlabel⟩ := Words.append_separator_inj row.label.separator_notMem row'.label.separator_notMem hkey'
  have hrest' : (front ++ [tagCurrent]) ++ separator :: row.tld.bytes =
      [tagCurrent] ++ separator :: row'.tld.bytes := by
    simpa [tagged] using hrest
  obtain ⟨-, htld⟩ := Words.append_separator_inj row.tld.separator_notMem row'.tld.separator_notMem hrest'
  obtain ⟨tld, label, hash⟩ := row
  obtain ⟨tld', label', hash'⟩ := row'
  obtain rfl : tld = tld' := Component.bytes_injective htld
  obtain rfl : label = label' := Component.bytes_injective hlabel
  obtain rfl : hash = hash' := Subtype.ext hhash
  rfl

/-- Two rows are never written alike. -/
theorem IndexRow.bytes_injective : Function.Injective IndexRow.bytes := by
  intro row row' h
  exact IndexRow.eq_of_suffix (h ▸ List.suffix_refl _)

/-- No row is the end of another. -/
theorem IndexRow.suffixFree : Words.SuffixFree (Set.range IndexRow.bytes) := by
  constructor
  · rintro w ⟨row, rfl⟩
    simp [IndexRow.bytes, tagged]
  · rintro u ⟨row, rfl⟩ v ⟨row', rfl⟩ h
    rw [IndexRow.eq_of_suffix h]

/-! ## Sorting -/

theorem compareBytes_ne_gt {a b : Bytes} : compareBytes a b ≠ .gt ↔ a ≤ b := by
  change _ ↔ ¬ b < a
  induction a generalizing b with
  | nil => cases b <;> simp [compareBytes]
  | cons x a ih =>
    cases b with
    | nil => simp [compareBytes]
    | cons y b =>
      simp only [compareBytes, List.cons_lt_cons_iff]
      split_ifs with hne hlt
      · simp [UInt8.lt_asymm hlt, Ne.symm hne]
      · have hgt : y < x := by
          rw [UInt8.lt_iff_toNat_lt] at hlt ⊢
          have hnat : x.toNat ≠ y.toNat := fun h => hne (UInt8.toNat_inj.1 h)
          omega
        simp [hgt]
      · simp only [ne_eq, Decidable.not_not] at hne
        subst hne
        simp [ih, UInt8.lt_irrefl]

/-- The rows as `indexInput` sorts them. -/
def sortRows (rows : List Bytes) : List Bytes := rows.insertionSort fun a b => compareBytes a b ≠ .gt

instance : Std.Total fun a b : Bytes => compareBytes a b ≠ .gt := by
  constructor
  intro a b
  rw [compareBytes_ne_gt, compareBytes_ne_gt]
  exact List.le_total a b

instance : IsTrans Bytes fun a b => compareBytes a b ≠ .gt := by
  constructor
  intro a b c
  rw [compareBytes_ne_gt, compareBytes_ne_gt, compareBytes_ne_gt]
  exact List.le_trans

/-- **The order in which rows are listed does not matter.** -/
theorem sortRows_eq_iff {rows rows' : List Bytes} : sortRows rows = sortRows rows' ↔ rows.Perm rows' := by
  constructor
  · intro h
    have hperm : (sortRows rows).Perm rows := List.perm_insertionSort _ rows
    have hperm' : (sortRows rows').Perm rows' := List.perm_insertionSort _ rows'
    rw [← h] at hperm'
    exact hperm.symm.trans hperm'
  · intro h
    have hsorted := List.pairwise_insertionSort (fun a b : Bytes => compareBytes a b ≠ .gt)
    apply List.Perm.eq_of_pairwise _ (hsorted rows) (hsorted rows')
    · exact (List.perm_insertionSort _ rows).trans (h.trans (List.perm_insertionSort _ rows').symm)
    · intro a b _ _ hab hba
      exact List.le_antisymm (compareBytes_ne_gt.1 hab) (compareBytes_ne_gt.1 hba)

/-- Sorted rows are read back from their concatenation. -/
theorem sortRows_flatten_inj {rows rows' : List IndexRow}
    (h : (sortRows (rows.map IndexRow.bytes)).flatten = (sortRows (rows'.map IndexRow.bytes)).flatten) :
    sortRows (rows.map IndexRow.bytes) = sortRows (rows'.map IndexRow.bytes) := by
  have hcode : ∀ rows : List IndexRow, ∀ w ∈ sortRows (rows.map IndexRow.bytes), w ∈ Set.range IndexRow.bytes := by
    intro rows w hw
    rw [sortRows, (List.perm_insertionSort _ _).mem_iff, List.mem_map] at hw
    obtain ⟨row, -, rfl⟩ := hw
    exact Set.mem_range_self row
  exact IndexRow.suffixFree.uniquelyDecodable _ _ (hcode rows) (hcode rows') h

/-! ## The root -/

namespace Index

variable {index index' : Index}

/-- What stands before the rows. -/
def preamble : Bytes := utf8Encode indexRootPrefix ++ [0x00]

/-- What the root of an index hashes. -/
def input (index : Index) : Bytes := preamble ++ (sortRows (index.rows.map IndexRow.bytes)).flatten

/-- What is hashed for an index. -/
theorem indexInput_eq (index : Index) : indexInput index.current = .ok index.input := by
  unfold indexInput current
  rw [List.mapM_map, Except.mapM_ok (g := IndexRow.bytes)]
  · rfl
  · intro row _
    simp only [Function.comp_apply, indexKey_name, Except.ok_bind]
    rfl

/-- The root of an index. -/
theorem indexRoot_eq (C : Crypto) (index : Index) : indexRoot C index.current = .ok (C.blake2b index.input) := by
  rw [indexRoot, indexInput_eq]
  rfl

theorem rows_nodup (index : Index) : index.rows.Nodup := List.Nodup.of_map _ index.nodup

/-- Two indexes are written alike exactly where they have the same rows. -/
theorem input_eq_iff : index.input = index'.input ↔ ∀ row, row ∈ index.rows ↔ row ∈ index'.rows := by
  have hbytes : index.input = index'.input ↔
      sortRows (index.rows.map IndexRow.bytes) = sortRows (index'.rows.map IndexRow.bytes) := by
    constructor
    · intro h
      exact sortRows_flatten_inj (List.append_cancel_left h)
    · intro h
      unfold input
      rw [h]
  rw [hbytes, sortRows_eq_iff, List.map_perm_map_iff IndexRow.bytes_injective,
    List.perm_ext_iff_of_nodup index.rows_nodup index'.rows_nodup]

end Index

/-- **The index root commits to the index**: two indexes have one root exactly when they have the
same rows, in whatever order these were inserted. -/
theorem index_root_commits (C : Crypto) (index index' : Index) (hfree : NoCollision C [index.input, index'.input]) :
    indexInput index.current = .ok index.input ∧ indexInput index'.current = .ok index'.input ∧
      ∃ root root', indexRoot C index.current = .ok root ∧ indexRoot C index'.current = .ok root' ∧
        (root = root' ↔ ∀ row, row ∈ index.rows ↔ row ∈ index'.rows) := by
  refine ⟨index.indexInput_eq, index'.indexInput_eq, _, _, index.indexRoot_eq C, index'.indexRoot_eq C, ?_⟩
  rw [← Index.input_eq_iff]
  constructor
  · intro h
    exact hfree _ (by simp) _ (by simp) h
  · intro h
    rw [h]

instance (value : String) : Decidable (Grammatical value) :=
  inferInstanceAs (Decidable (value ≠ "" ∧ value.toList.all isGrammar = true))

/-- A name that points at a hash of one byte. -/
def atlasRow (byte : UInt8) : IndexRow :=
  { tld := ⟨"vayu", by decide⟩, label := ⟨"atlas", by decide⟩
    hash := ⟨List.replicate 32 byte, List.length_replicate⟩ }

/-- An index of one name. -/
def atlasIndex (byte : UInt8) : Index := { rows := [atlasRow byte], nodup := List.nodup_singleton _ }

/-- BLAKE2b-256 of two indexes. -/
def atlasCrypto : Crypto :=
  { Sample.crypto with
    blake2b := fun b => (Sample.find
      [((atlasIndex 1).input, Sample.literal 32 0x27695f9d1f5f77d0f43e49d3883e5a8f3ec26b62dbf9b1b44173b4b2b094c086),
       ((atlasIndex 2).input, Sample.literal 32 0x7829ee984c9f9b0920096a3a83870efd92a390abd75c22b49ab912f8ad69662b)]
      b).takeD 32 0
    length_blake2b := fun _ => List.takeD_length _ _ _ }

theorem index_root_commits_atlas : ∃ root root', indexRoot atlasCrypto (atlasIndex 1).current = .ok root ∧
    indexRoot atlasCrypto (atlasIndex 2).current = .ok root' ∧ root ≠ root' := by
  obtain ⟨-, -, root, root', hroot, hroot', hiff⟩ :=
    index_root_commits atlasCrypto (atlasIndex 1) (atlasIndex 2) (by decide +kernel)
  refine ⟨root, root', hroot, hroot', ?_⟩
  intro h
  have hrow : atlasRow 1 ∈ (atlasIndex 2).rows := (hiff.1 h (atlasRow 1)).1 List.mem_cons_self
  exact absurd hrow (by decide)

end VayuWeb
