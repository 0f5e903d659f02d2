import VayuWeb.Base.Except
import VayuWeb.Spec.Fetch

/-!
# What is written reads back

The encoder writes messages of the wire format; the decoder gives back what they were made of.

* `readFields_write`: a message reads back as its fields.
* `decodeLink_pbLink`: a link reads back, with its name as a text decoder leaves it.
* `decodeNode_directory`, `decodeNode_file`: a node reads back.
-/

namespace VayuWeb.Unixfs

open Bytes Content Wire

/-! ## What the encoder writes -/

/-- The numbers of a field that both sides can hold. -/
def Safe (item : Item) : Prop := item.key ≤ maxSafeInteger ∧ item.value ≤ maxSafeInteger

theorem Safe.below {item : Item} (h : Safe item) : item.Below (2 ^ 64) := by
  have hsafe : maxSafeInteger < 2 ^ 64 := by decide
  exact ⟨Nat.lt_of_le_of_lt h.1 hsafe, Nat.lt_of_le_of_lt h.2 hsafe⟩

/-- When a payload's field is written, and how. -/
theorem lengthDelimited_eq_ok {field : ℕ} {payload bytes : Bytes} :
    lengthDelimited field payload = .ok bytes ↔
      Safe (.bytes field payload) ∧ bytes = (Item.bytes field payload).write := by
  rw [lengthDelimited, tag]
  simp only [Except.bind_eq_ok, varint_eq_ok, Except.pure_eq_ok, Except.ok.injEq]
  constructor
  · rintro ⟨_, ⟨hkey, rfl⟩, _, ⟨hvalue, rfl⟩, rfl⟩
    exact ⟨⟨hkey, hvalue⟩, rfl⟩
  · rintro ⟨⟨hkey, hvalue⟩, rfl⟩
    exact ⟨_, ⟨hkey, rfl⟩, _, ⟨hvalue, rfl⟩, rfl⟩

/-- When a number's field is written, and how. -/
theorem varintField_eq_ok {field value : ℕ} {bytes : Bytes} :
    varintField field value = .ok bytes ↔
      Safe (.varint field value) ∧ bytes = (Item.varint field value).write := by
  rw [varintField, tag]
  simp only [Except.bind_eq_ok, varint_eq_ok, Except.pure_eq_ok, Except.ok.injEq]
  constructor
  · rintro ⟨_, ⟨hkey, rfl⟩, _, ⟨hvalue, rfl⟩, rfl⟩
    exact ⟨⟨hkey, hvalue⟩, by rw [Item.write]; exact (List.append_nil _).symm⟩
  · rintro ⟨⟨hkey, hvalue⟩, rfl⟩
    exact ⟨_, ⟨hkey, rfl⟩, _, ⟨hvalue, rfl⟩, by rw [Item.write]; exact (List.append_nil _).symm⟩

theorem unixfsDirectory_eq : unixfsDirectory = .ok (write [.varint 1 typeDirectory]) := by
  have hwritten := varintField_eq_ok.2 ⟨(⟨by decide, by decide⟩ : Safe (.varint 1 typeDirectory)), rfl⟩
  rw [unixfsDirectory, hwritten, write_cons, write_nil, List.append_nil]

/-- The fields of the UnixFS message of a file. -/
def fileItems (chunkSizes : List ℕ) : List Item :=
  [.varint 1 typeFile, .varint 3 chunkSizes.sum] ++ chunkSizes.map (.varint 4)

theorem mapM_varintField_eq_ok {field : ℕ} {values : List ℕ} {written : List Bytes} :
    values.mapM (varintField field) = .ok written ↔
      (∀ value ∈ values, Safe (.varint field value)) ∧ written = values.map fun value =>
      (Item.varint field value).write := by
  rw [Except.mapM_eq_ok]
  induction values generalizing written with
  | nil => simp
  | cons value values ih =>
    rw [List.forall₂_cons_left_iff]
    constructor
    · rintro ⟨bytes, written', hbytes, hwritten, rfl⟩
      obtain ⟨hsafe, rfl⟩ := varintField_eq_ok.1 hbytes
      obtain ⟨hrest, rfl⟩ := ih.1 hwritten
      refine ⟨?_, rfl⟩
      intro v hv
      rcases List.mem_cons.1 hv with rfl | hv
      · exact hsafe
      · exact hrest v hv
    · rintro ⟨hsafe, rfl⟩
      refine ⟨_, _, varintField_eq_ok.2 ⟨hsafe value List.mem_cons_self, rfl⟩, ih.2 ⟨?_, rfl⟩, rfl⟩
      intro v hv
      exact hsafe v (List.mem_cons_of_mem _ hv)

/-- What is written for the message of a file. -/
theorem unixfsFile_eq_ok {chunkSizes : List ℕ} {bytes : Bytes} (h : unixfsFile chunkSizes = .ok bytes) :
    (∀ item ∈ fileItems chunkSizes, Safe item) ∧ bytes = write (fileItems chunkSizes) := by
  rw [unixfsFile] at h
  simp only [Except.bind_eq_ok, varintField_eq_ok, mapM_varintField_eq_ok, Except.pure_eq_ok, Except.ok.injEq] at h
  obtain ⟨_, ⟨htype, rfl⟩, _, ⟨htotal, rfl⟩, _, ⟨hsizes, rfl⟩, rfl⟩ := h
  constructor
  · intro item hitem
    rcases List.mem_append.1 hitem with hitem | hitem
    · rcases List.mem_cons.1 hitem with rfl | hitem
      · exact htype
      · rw [List.mem_singleton.1 hitem]
        exact htotal
    · obtain ⟨size, hsize, rfl⟩ := List.mem_map.1 hitem
      exact hsizes size hsize
  · rw [fileItems, write_append, write_cons, write_cons, write_nil, List.append_nil, Wire.write, List.flatMap_map,
      List.flatMap_def]

/-- The fields of a link. -/
def linkItems (c : Cid) (link : Link) : List Item :=
  [.bytes 1 (bytesOf c), .bytes 2 (utf8Encode link.name), .varint 3 link.tsize]

/-- What is written for a link. -/
theorem pbLink_eq_ok {link : Link} {bytes : Bytes} (h : pbLink link = .ok bytes) :
    ∃ c, decodeCid link.cid = .ok c ∧ (∀ item ∈ linkItems c link, Safe item) ∧ bytes = write (linkItems c link) := by
  rw [pbLink] at h
  simp only [Except.bind_eq_ok, varint_eq_ok, lengthDelimited_eq_ok, varintField_eq_ok, Except.pure_eq_ok,
    Except.ok.injEq] at h
  obtain ⟨c, hc, _, ⟨-, rfl⟩, _, ⟨-, rfl⟩, _, ⟨-, rfl⟩, _, ⟨-, rfl⟩, _, ⟨hhash, rfl⟩, _, ⟨hname, rfl⟩, _,
    ⟨htsize, rfl⟩, rfl⟩ := h
  have hdigest : c.digest.1.length = digestBytes := c.digest.2
  rw [hdigest] at hhash ⊢
  refine ⟨c, hc, ?_, ?_⟩
  · intro item hitem
    rcases List.mem_cons.1 hitem with rfl | hitem
    · exact hhash
    · rcases List.mem_cons.1 hitem with rfl | hitem
      · exact hname
      · rw [List.mem_singleton.1 hitem]
        exact htsize
  · rw [linkItems, write_cons, write_cons, write_cons, write_nil, List.append_nil, ← List.append_assoc]
    rfl

/-- The fields of a node: its links, each with what it is written as, and its data. -/
def nodeItems (written : List Bytes) (data : Bytes) : List Item :=
  written.map (.bytes 2) ++ if data.length > 0 then [.bytes 1 data] else []

/-- What is written for a node. -/
theorem encodePbNode_eq_ok {links : List Link} {data bytes : Bytes} (h : encodePbNode links data = .ok bytes) :
    ∃ written, List.Forall₂ (fun link region => pbLink link = .ok region) links written ∧
      (∀ item ∈ nodeItems written data, Safe item) ∧ bytes = write (nodeItems written data) := by
  rw [encodePbNode, Except.bind_eq_ok] at h
  obtain ⟨encoded, hlinks, h⟩ := h
  have hwritten : ∃ written, List.Forall₂ (fun link region => pbLink link = .ok region) links written ∧
      (∀ region ∈ written, Safe (.bytes 2 region)) ∧ encoded.flatten = write (written.map (.bytes 2)) := by
    rw [Except.mapM_eq_ok] at hlinks
    clear h
    induction hlinks with
    | nil => exact ⟨[], .nil, by simp, rfl⟩
    | @cons link out links encoded hlink _ ih =>
      obtain ⟨region, hregion, hout⟩ := Except.bind_eq_ok.1 hlink
      obtain ⟨hsafe, rfl⟩ := lengthDelimited_eq_ok.1 hout
      obtain ⟨written, hwritten, hsafes, heq⟩ := ih
      refine ⟨region :: written, .cons hregion hwritten, ?_, ?_⟩
      · intro region' hregion'
        rcases List.mem_cons.1 hregion' with rfl | hregion'
        · exact hsafe
        · exact hsafes region' hregion'
      · rw [List.flatten_cons, heq, List.map_cons, write_cons]
  obtain ⟨written, hforall, hsafes, heq⟩ := hwritten
  refine ⟨written, hforall, ?_⟩
  rw [nodeItems]
  -- empty data is not written at all
  by_cases hdata : data.length > 0
  · simp only [hdata, if_true, Except.bind_eq_ok, Except.pure_eq_ok, Except.ok.injEq] at h ⊢
    obtain ⟨out, hout, rfl⟩ := h
    obtain ⟨hsafe, rfl⟩ := lengthDelimited_eq_ok.1 hout
    constructor
    · intro item hitem
      rcases List.mem_append.1 hitem with hitem | hitem
      · obtain ⟨region, hregion, rfl⟩ := List.mem_map.1 hitem
        exact hsafes region hregion
      · rw [List.mem_singleton.1 hitem]
        exact hsafe
    · rw [write_append, heq, write_cons, write_nil, List.append_nil]
  · simp only [hdata, if_false, Except.pure_eq_ok, Except.ok.injEq, List.append_nil] at h ⊢
    constructor
    · intro item hitem
      obtain ⟨region, hregion, rfl⟩ := List.mem_map.1 hitem
      exact hsafes region hregion
    · rw [← h, heq]

/-! ## What the decoder reads -/

open Fetch (Field readField readFields readFieldsFrom linkCid decodeLink linkField nodeField unixfsField
  decodeNode DecodedLink DecodedNode)

/-- A field as the decoder holds it. -/
def fieldOf : Item → Field
  | .varint number value => { number := number, varint := value, bytes := [] }
  | .bytes number payload => { number := number, varint := 0, bytes := payload }

/-- The field number of an item. -/
def number : Item → ℕ
  | .varint number _ => number
  | .bytes number _ => number

theorem readVarint_eq {value : ℕ} {bytes rest : Bytes} (h : Varint.read 10 bytes = .ok (value, rest))
    (hsafe : value ≤ maxSafeInteger) : Fetch.readVarint bytes = .ok (value, rest) := by
  rw [Fetch.readVarint, h]
  exact if_pos hsafe

/-- A safe field is read back. -/
theorem readField_write {item : Item} (hsafe : Safe item) (hnumber : number item ≠ 0) (rest : Bytes) :
    readField (item.write ++ rest) = .ok (fieldOf item, rest) := by
  rw [readField, readVarint_eq (read_key hsafe.below rest) hsafe.1, Except.ok_bind]
  have hvalue := readVarint_eq (read_value hsafe.below (item.payload ++ rest)) hsafe.2
  cases item with
  | varint n value =>
    have hkey : (Item.varint n value).key / 8 = n ∧ (Item.varint n value).key % 8 = 0 := by
      rw [Item.key]
      omega
    have hn : n ≠ 0 := hnumber
    simp only [hkey.1, hkey.2, hn, if_false, if_true, hvalue, Except.ok_bind, Except.pure_eq_ok]
    rfl
  | bytes n payload =>
    have hkey : (Item.bytes n payload).key / 8 = n ∧ (Item.bytes n payload).key % 8 = 2 := by
      rw [Item.key]
      omega
    have hn : n ≠ 0 := hnumber
    simp only [hkey.1, hkey.2, hn, if_false, if_true, hvalue, Except.ok_bind, splitAt_payload, Except.pure_eq_ok,
      OfNat.ofNat_ne_zero]
    rfl

/-- Safe fields are read back. -/
theorem readFieldsFrom_write {items : List Item} (hsafe : ∀ item ∈ items, Safe item)
    (hnumber : ∀ item ∈ items, number item ≠ 0) {fuel : ℕ} (hfuel : (write items).length ≤ fuel) :
    readFieldsFrom fuel (write items) = .ok (items.map fieldOf) := by
  induction items generalizing fuel with
  | nil =>
    cases fuel with
    | zero => rfl
    | succ fuel => rfl
  | cons item items ih =>
    have hne := write_ne_nil item (write items)
    have hpos := List.length_pos_iff.2 hne
    have hitem : 0 < item.write.length := by
      have hself := List.length_pos_iff.2 (write_ne_nil item [])
      rwa [List.append_nil] at hself
    rw [write_cons, List.length_append] at hfuel
    obtain ⟨fuel, rfl⟩ : ∃ k, fuel = k + 1 := ⟨fuel - 1, by omega⟩
    have hrest := @ih (fun i hi => hsafe i (List.mem_cons_of_mem _ hi))
      (fun i hi => hnumber i (List.mem_cons_of_mem _ hi)) fuel (by omega)
    rw [write_cons, readFieldsFrom, if_neg hne,
      readField_write (hsafe item List.mem_cons_self) (hnumber item List.mem_cons_self)]
    simp only [Except.ok_bind, hrest, Except.pure_eq_ok, List.map_cons]

/-- **A message reads back as its fields.** -/
theorem readFields_write {items : List Item} (hsafe : ∀ item ∈ items, Safe item)
    (hnumber : ∀ item ∈ items, number item ≠ 0) : readFields (write items) = .ok (items.map fieldOf) :=
  readFieldsFrom_write hsafe hnumber (Nat.le_refl _)

theorem readVarint_encode {n : ℕ} (hn : n < 128) (rest : Bytes) :
    Fetch.readVarint (Varint.encode n ++ rest) = .ok (n, rest) := by
  have h64 : n < 2 ^ 64 := Nat.lt_trans hn (by decide)
  exact readVarint_eq (Varint.read_encode h64 rest) (small_le_safe hn)

/-- The CID of a link comes back from its bytes. -/
theorem linkCid_bytesOf {c : Cid} (h : Admitted c) : linkCid (bytesOf c) = .ok (textOf c) := by
  have hread : bytesOf c = Varint.encode version ++ (Varint.encode c.codec ++
      (Varint.encode multihashSha2_256 ++ (Varint.encode digestBytes ++ c.digest.1))) := by
    rw [bytesOf, h.1, List.append_assoc, List.append_assoc, List.append_assoc]
  have hversion : version = 1 := rfl
  have hdigest : digestBytes = 32 := rfl
  have hlength := c.digest.2
  have hcid : ({ version := 1, codec := c.codec, digest := ⟨c.digest.1, hlength⟩ } : Cid) = c := by
    rw [← hversion, ← h.1]
  rw [linkCid, hread]
  simp only [readVarint_encode version_lt, readVarint_encode h.codec_lt, readVarint_encode multihash_lt,
    readVarint_encode digestBytes_lt, Except.ok_bind]
  simp only [hversion, ne_eq, not_true_eq_false, if_false, hdigest, hlength, and_self, dif_pos, hcid]
  rw [encodeCid_admitted h]
  rfl

/-- A CID as the decoder writes it. -/
def canonical (cid : String) : String :=
  match decodeCid cid with
  | .ok c => textOf c
  | .error _ => cid

/-- The text of an admitted CID is canonical. -/
theorem canonical_textOf {c : Cid} (h : Admitted c) : canonical (textOf c) = textOf c := by
  rw [canonical, decodeCid_textOf h]

/-- A link as the decoder gives it. -/
def readLink (link : Link) : DecodedLink :=
  { cid := canonical link.cid, name := TextDecoder.stripped link.name, tsize := link.tsize }

/-- **A link reads back**, its name as a text decoder leaves it. -/
theorem decodeLink_pbLink {link : Link} {region : Bytes} (h : pbLink link = .ok region) :
    decodeLink region = .ok (readLink link) := by
  obtain ⟨c, hc, hsafe, rfl⟩ := pbLink_eq_ok h
  have hnumber : ∀ item ∈ linkItems c link, number item ≠ 0 := by
    intro item hitem
    simp only [linkItems, List.mem_cons, List.not_mem_nil, or_false] at hitem
    rcases hitem with rfl | rfl | rfl
    · exact Nat.one_ne_zero
    · exact Nat.succ_ne_zero 1
    · exact Nat.succ_ne_zero 2
  have hfields : ((linkItems c link).map fieldOf).foldlM linkField { cid := none, name := "", tsize := 0 } =
      .ok { cid := some (textOf c), name := TextDecoder.decode (utf8Encode link.name), tsize := link.tsize } := by
    simp [linkItems, fieldOf, linkField, linkCid_bytesOf (decodeCid_admitted hc)]
  rw [decodeLink, readFields_write hsafe hnumber, Except.ok_bind, hfields, TextDecoder.decode_utf8Encode, readLink,
    canonical, hc]
  rfl

/-- The links of a node, as many as the bound on them allows. -/
theorem foldlM_links {links : List Link} {written : List Bytes}
    (h : List.Forall₂ (fun link region => pbLink link = .ok region) links written) {node : DecodedNode}
    (hcount : node.links.length + links.length ≤ Fetch.linksPerNodeLimit) :
    ((written.map (Item.bytes 2)).map fieldOf).foldlM nodeField node =
      .ok { node with links := node.links ++ links.map readLink } := by
  induction h generalizing node with
  | nil => simp
  | @cons link region links written hlink _ ih =>
    rw [List.length_cons] at hcount
    have hfield : nodeField node (fieldOf (.bytes 2 region)) =
        .ok { node with links := node.links ++ [readLink link] } := by
      have hroom : ¬ node.links.length ≥ Fetch.linksPerNodeLimit := by omega
      rw [nodeField, fieldOf, if_pos rfl, if_neg hroom, decodeLink_pbLink hlink]
      rfl
    have hrest := @ih { node with links := node.links ++ [readLink link] }
      (by rw [List.length_append, List.length_singleton]; omega)
    rw [List.map_cons, List.map_cons, List.foldlM_cons, hfield, Except.ok_bind, hrest]
    simp

theorem number_nodeItems {written : List Bytes} {data : Bytes} : ∀ item ∈ nodeItems written data, number item ≠ 0 := by
  intro item hitem
  rcases List.mem_append.1 hitem with hitem | hitem
  · obtain ⟨region, -, rfl⟩ := List.mem_map.1 hitem
    exact Nat.succ_ne_zero 1
  · split_ifs at hitem
    · rw [List.mem_singleton.1 hitem]
      exact Nat.one_ne_zero
    · simp at hitem

/-- A node reads back as its links and what its data say. -/
theorem decodeNode_encode {links : List Link} {bytes : Bytes} {items : List Item}
    (h : encodePbNode links (write items) = .ok bytes) (hcount : links.length ≤ Fetch.linksPerNodeLimit)
    (hne : items ≠ []) (hsafe : ∀ item ∈ items, Safe item)
    (hnumber : ∀ item ∈ items, number item ≠ 0) :
    decodeNode bytes = .ok ((items.map fieldOf).foldl unixfsField
      { links := links.map readLink, type := -1, filesize := 0, blocksizes := [] }) := by
  obtain ⟨written, hforall, hsafes, rfl⟩ := encodePbNode_eq_ok h
  have hdata : (write items).length > 0 := by
    obtain ⟨item, rest, rfl⟩ := List.exists_cons_of_ne_nil hne
    rw [write_cons]
    exact List.length_pos_iff.2 (write_ne_nil item (write rest))
  have hlinks := @foldlM_links _ _ hforall { links := [], type := -1, filesize := 0, blocksizes := [] }
    (by simpa using hcount)
  rw [decodeNode, readFields_write hsafes number_nodeItems, Except.ok_bind, nodeItems, if_pos hdata, List.map_append,
    List.foldlM_append, hlinks, Except.ok_bind]
  have hfield : ∀ node : DecodedNode, nodeField node (fieldOf (.bytes 1 (write items))) =
      .ok ((items.map fieldOf).foldl unixfsField node) := by
    intro node
    simp [nodeField, fieldOf, readFields_write hsafe hnumber]
  rw [List.map_singleton, List.foldlM_cons, hfield, Except.ok_bind, List.foldlM_nil, List.nil_append,
    Except.pure_eq_ok]

/-- **A directory reads back.** -/
theorem decodeNode_directory {links : List Link} {data bytes : Bytes} (hdata : unixfsDirectory = .ok data)
    (h : encodePbNode links data = .ok bytes) (hcount : links.length ≤ Fetch.linksPerNodeLimit) :
    decodeNode bytes =
      .ok { links := links.map readLink, type := typeDirectory, filesize := 0, blocksizes := [] } := by
  rw [unixfsDirectory_eq, Except.ok.injEq] at hdata
  rw [← hdata] at h
  have hitems : ∀ item ∈ [Item.varint 1 typeDirectory], Safe item ∧ number item ≠ 0 := by
    intro item hitem
    rw [List.mem_singleton.1 hitem]
    exact ⟨⟨by decide, by decide⟩, Nat.one_ne_zero⟩
  rw [decodeNode_encode h hcount (List.cons_ne_nil _ _) (fun item hitem => (hitems item hitem).1)
    fun item hitem => (hitems item hitem).2]
  rfl

/-- Reading the sizes of a file's chunks gives each of them back. -/
theorem foldl_blocksizes (sizes : List ℕ) (node : DecodedNode) :
    ((sizes.map (Item.varint 4)).map fieldOf).foldl unixfsField node =
      { node with blocksizes := node.blocksizes ++ sizes } := by
  induction sizes generalizing node with
  | nil => simp
  | cons size sizes ih =>
    rw [List.map_cons, List.map_cons, List.foldl_cons, ih]
    simp [unixfsField, fieldOf]

/-- **A file node reads back.** -/
theorem decodeNode_file {links : List Link} {sizes : List ℕ} {data bytes : Bytes} (hdata : unixfsFile sizes = .ok data)
    (h : encodePbNode links data = .ok bytes) (hcount : links.length ≤ Fetch.linksPerNodeLimit) :
    decodeNode bytes =
      .ok { links := links.map readLink, type := typeFile, filesize := sizes.sum, blocksizes := sizes } := by
  obtain ⟨hsafe, rfl⟩ := unixfsFile_eq_ok hdata
  have hnumber : ∀ item ∈ fileItems sizes, number item ≠ 0 := by
    intro item hitem
    rcases List.mem_append.1 hitem with hitem | hitem
    · rcases List.mem_cons.1 hitem with rfl | hitem
      · exact Nat.one_ne_zero
      · rw [List.mem_singleton.1 hitem]
        exact Nat.succ_ne_zero 2
    · obtain ⟨size, -, rfl⟩ := List.mem_map.1 hitem
      exact Nat.succ_ne_zero 3
  rw [decodeNode_encode h hcount (List.cons_ne_nil _ _) hsafe hnumber, fileItems, List.map_append,
    List.foldl_append, foldl_blocksizes]
  rfl

end VayuWeb.Unixfs
