import VayuWeb.Client.Cid

/-!
# The spellings of a CID

Both implementations take a CID whose varints have groups to spare, and a text with bits to spare.

* `cidFromBytes_eq_ok`, `Client.Cid.fromBytes_eq_ok`: the bytes that each takes.
* `one_spelling_iff`: when a text and bytes are spelt in the one way.
-/

namespace VayuWeb

open Bytes
open Content (version codecRaw codecDagPb multihashSha2_256 digestBytes cidFromBytes cidBytes decodeCid encodeCid)

/-! ## Bytes -/

/-- A varint of at most `limit` groups that reads as `n` in 64 bits. -/
def Spells (limit : ℕ) (front : Bytes) (n : ℕ) : Prop :=
  ∃ m, Varint.read limit front = .ok (m, []) ∧ m % 2 ^ 64 = n

/-- Four varints and a digest that spell a CID. -/
structure SpelledCid (limit : ℕ) (bytes : Bytes) (codec : ℕ) (digest : Bytes) : Prop where
  heads : ∃ v c m l, bytes = v ++ (c ++ (m ++ (l ++ digest))) ∧ Spells limit v version ∧ Spells limit c codec ∧
    Spells limit m multihashSha2_256 ∧ Spells limit l digestBytes
  codec_admitted : codec = codecRaw ∨ codec = codecDagPb
  digest_length : digest.length = 32

/-- The one way to write it. -/
def plainCid (codec : ℕ) (digest : Bytes) : Bytes :=
  Varint.encode version ++ Varint.encode codec ++ Varint.encode multihashSha2_256 ++ Varint.encode digestBytes ++ digest

section Spelled

variable {limit limit' codec n : ℕ} {front bytes digest : Bytes}

theorem Spells.length_pos (h : Spells limit front n) : 0 < front.length := by
  obtain ⟨m, hread, -⟩ := h
  exact Varint.read_length hread

theorem Spells.mono (hle : limit ≤ limit') (h : Spells limit front n) : Spells limit' front n := by
  obtain ⟨m, hread, hm⟩ := h
  exact ⟨m, Varint.read_mono hle hread, hm⟩

/-- A number in one byte is spelled in one way. -/
theorem Spells.encode (h : Spells limit front n) (hlength : front.length = 1) : front = Varint.encode n := by
  obtain ⟨m, hread, hm⟩ := h
  obtain ⟨hlt, heq⟩ := Varint.encode_of_read_one hread hlength
  rw [heq, ← hm, Nat.mod_eq_of_lt (by omega)]

theorem Spells.one (h : Spells limit front n) (hlength : front.length = 1) : Spells 1 front n := by
  obtain ⟨m, hread, hm⟩ := h
  obtain ⟨hlt, heq⟩ := Varint.encode_of_read_one hread hlength
  refine ⟨m, ?_, hm⟩
  rw [heq, Varint.encode, Varint.groups, if_pos hlt]
  exact Varint.read_small hlt []

/-- A spelling within a limit is one within any larger. -/
theorem SpelledCid.mono (hle : limit ≤ limit') (h : SpelledCid limit bytes codec digest) :
    SpelledCid limit' bytes codec digest := by
  obtain ⟨v, c, m, l, hbytes, hv, hc, hm, hl⟩ := h.heads
  exact ⟨⟨v, c, m, l, hbytes, hv.mono hle, hc.mono hle, hm.mono hle, hl.mono hle⟩, h.codec_admitted, h.digest_length⟩

/-- A plain CID has 36 bytes. -/
theorem length_plainCid (hcodec : codec = codecRaw ∨ codec = codecDagPb) (hdigest : digest.length = 32) :
    (plainCid codec digest).length = 36 := by
  have hone : (Varint.encode codec).length = 1 := by
    rcases hcodec with rfl | rfl
    · rfl
    · rfl
  have hrest : (Varint.encode version).length = 1 ∧ (Varint.encode multihashSha2_256).length = 1 ∧
      (Varint.encode digestBytes).length = 1 := ⟨rfl, rfl, rfl⟩
  rw [plainCid, List.length_append, List.length_append, List.length_append, List.length_append, hone, hdigest]
  omega

/-- Without a group to spare there are 36 bytes, and then they are written in the one way. -/
theorem SpelledCid.plain_iff (h : SpelledCid limit bytes codec digest) :
    plainCid codec digest = bytes ↔ bytes.length = 36 := by
  constructor
  · intro heq
    rw [← heq]
    exact length_plainCid h.codec_admitted h.digest_length
  · intro hlength
    obtain ⟨v, c, m, l, hbytes, hv, hc, hm, hl⟩ := h.heads
    have hdigest := h.digest_length
    have hvpos := hv.length_pos
    have hcpos := hc.length_pos
    have hmpos := hm.length_pos
    have hlpos := hl.length_pos
    rw [hbytes, List.length_append, List.length_append, List.length_append, List.length_append] at hlength
    rw [hbytes, plainCid, ← hv.encode (by omega), ← hc.encode (by omega), ← hm.encode (by omega),
      ← hl.encode (by omega), List.append_assoc, List.append_assoc, List.append_assoc]

/-- A CID of 36 bytes is spelled in one way. -/
theorem SpelledCid.one (h : SpelledCid limit bytes codec digest) (hlength : bytes.length = 36) :
    SpelledCid 1 bytes codec digest := by
  obtain ⟨v, c, m, l, hbytes, hv, hc, hm, hl⟩ := h.heads
  have hdigest := h.digest_length
  have hvpos := hv.length_pos
  have hcpos := hc.length_pos
  have hmpos := hm.length_pos
  have hlpos := hl.length_pos
  have hsum := hlength
  rw [hbytes, List.length_append, List.length_append, List.length_append, List.length_append] at hsum
  exact ⟨⟨v, c, m, l, hbytes, hv.one (by omega), hc.one (by omega), hm.one (by omega), hl.one (by omega)⟩,
    h.codec_admitted, hdigest⟩

end Spelled

/-! ## What each implementation takes -/

/-- A reader of varints, of at most `limit` groups. -/
def Reads {ε : Type} (limit : ℕ) (read : Bytes → Except ε (ℕ × Bytes)) : Prop :=
  ∀ bytes n rest, read bytes = .ok (n, rest) ↔ ∃ front, bytes = front ++ rest ∧ Spells limit front n

/-- What four reads and the checks between them come to. -/
theorem spelled_iff {ε : Type} {limit codec : ℕ} {read : Bytes → Except ε (ℕ × Bytes)} (h : Reads limit read)
    {bytes digest : Bytes} : SpelledCid limit bytes codec digest ↔
      ∃ rest rest' rest'', read bytes = .ok (version, rest) ∧ read rest = .ok (codec, rest') ∧
        read rest' = .ok (multihashSha2_256, rest'') ∧ read rest'' = .ok (digestBytes, digest) ∧
        (codec = codecRaw ∨ codec = codecDagPb) ∧ digest.length = 32 := by
  constructor
  · rintro ⟨⟨v, c, m, l, hbytes, hv, hc, hm, hl⟩, hcodec, hdigest⟩
    exact ⟨_, _, _, (h _ _ _).2 ⟨v, hbytes, hv⟩, (h _ _ _).2 ⟨c, rfl, hc⟩, (h _ _ _).2 ⟨m, rfl, hm⟩,
      (h _ _ _).2 ⟨l, rfl, hl⟩, hcodec, hdigest⟩
  · rintro ⟨rest, rest', rest'', hv, hc, hm, hl, hcodec, hdigest⟩
    obtain ⟨v, hbytes, hv⟩ := (h _ _ _).1 hv
    obtain ⟨c, hrest, hc⟩ := (h _ _ _).1 hc
    obtain ⟨m, hrest', hm⟩ := (h _ _ _).1 hm
    obtain ⟨l, hrest'', hl⟩ := (h _ _ _).1 hl
    refine ⟨⟨v, c, m, l, ?_, hv, hc, hm, hl⟩, hcodec, hdigest⟩
    rw [hbytes, hrest, hrest', hrest'']

theorem codec_of_not {codec : ℕ} : ¬ (codec ≠ codecRaw ∧ codec ≠ codecDagPb) ↔
    codec = codecRaw ∨ codec = codecDagPb := by
  tauto

/-! ### The registry -/

/-- The registry reads numbers of up to eight bytes. -/
theorem reads_registry : Reads 8 Content.readVarint := by
  intro bytes n rest
  have hread : Content.readVarint bytes = .ok (n, rest) ↔ Varint.read 8 bytes = .ok (n, rest) := by
    unfold Content.readVarint
    cases Varint.read 8 bytes with
    | ok result => simp
    | error fault => cases fault <;> simp
  have hlt : ∀ {bytes rest : Bytes} {n : ℕ}, Varint.read 8 bytes = .ok (n, rest) → n % 2 ^ 64 = n := by
    intro bytes rest n h
    exact Nat.mod_eq_of_lt (Nat.lt_trans (Varint.read_lt h) (by decide))
  rw [hread]
  constructor
  · intro h
    obtain ⟨front, hfront, hagain⟩ := Varint.read_front h
    exact ⟨front, hfront, n, hagain, hlt h⟩
  · rintro ⟨front, rfl, m, hm, hn⟩
    rw [← hn, hlt hm]
    exact Varint.read_append hm rest

/-- **The bytes that the registry takes.** -/
theorem cidFromBytes_eq_ok {bytes : Bytes} {cid : Content.Cid} : cidFromBytes bytes = .ok cid ↔
    cid.version = version ∧ SpelledCid 8 bytes cid.codec cid.digest.1 := by
  simp only [cidFromBytes, Except.guarded_eq_ok, Except.bind_eq_ok, Prod.exists, not_not, codec_of_not]
  rw [spelled_iff reads_registry]
  constructor
  · rintro ⟨v, rest, hv, rfl, codec, rest', hc, hcodec, m, rest'', hm, rfl, l, digest, hl, rfl, hcid⟩
    split_ifs at hcid with hdigest
    rw [Except.pure_eq_ok, Except.ok.injEq] at hcid
    rw [← hcid]
    exact ⟨rfl, rest, rest', rest'', hv, hc, hm, hl, hcodec, hdigest⟩
  · rintro ⟨hversion, rest, rest', rest'', hv, hc, hm, hl, hcodec, hdigest⟩
    refine ⟨_, _, hv, rfl, _, _, hc, hcodec, _, _, hm, rfl, _, _, hl, rfl, ?_⟩
    rw [dif_pos hdigest, ← hversion, Except.pure_eq_ok]

/-- The registry writes every CID plainly. -/
theorem cidBytes_plain {bytes : Bytes} {cid : Content.Cid} (h : cidFromBytes bytes = .ok cid) :
    cidBytes cid = .ok (plainCid cid.codec cid.digest.1) ∧
      encodeCid cid = .ok ("b" ++ Base32.encode (plainCid cid.codec cid.digest.1)) := by
  obtain ⟨hversion, hspelled⟩ := cidFromBytes_eq_ok.1 h
  have hadmitted : Content.Admitted cid := ⟨hversion, hspelled.codec_admitted⟩
  have hplain : Content.bytesOf cid = plainCid cid.codec cid.digest.1 := by
    rw [Content.bytesOf, plainCid, hversion]
  have hbytes := @Content.cidBytes_eq cid (hversion ▸ Content.small_le_safe Content.version_lt)
    (Content.small_le_safe hadmitted.codec_lt)
  have htext := Content.encodeCid_admitted hadmitted
  rw [Content.textOf, hplain] at htext
  rw [hplain] at hbytes
  exact ⟨hbytes, htext⟩

/-! ### The client -/

/-- The client reads numbers of up to ten bytes. -/
theorem reads_client : Reads 10 Client.readVarint := by
  intro bytes n rest
  have hread : Client.readVarint bytes = .ok (n, rest) ↔
      ∃ m, Varint.read 10 bytes = .ok (m, rest) ∧ m % 2 ^ 64 = n := by
    unfold Client.readVarint
    cases Varint.read 10 bytes with
    | ok result =>
      obtain ⟨m, rest'⟩ := result
      simp only [Except.ok.injEq, Prod.mk.injEq]
      constructor
      · rintro ⟨hn, hrest⟩
        exact ⟨m, ⟨rfl, hrest⟩, hn⟩
      · rintro ⟨m', ⟨rfl, hrest⟩, hn⟩
        exact ⟨hn, hrest⟩
    | error fault => cases fault <;> simp
  rw [hread]
  constructor
  · rintro ⟨m, hm, hn⟩
    obtain ⟨front, hfront, hagain⟩ := Varint.read_front hm
    exact ⟨front, hfront, m, hagain, hn⟩
  · rintro ⟨front, rfl, m, hm, hn⟩
    exact ⟨m, Varint.read_append hm rest, hn⟩

/-- **The bytes that the client takes.** -/
theorem fromBytes_eq_ok {bytes : Bytes} {cid : Client.Cid} : Client.Cid.fromBytes bytes = .ok cid ↔
    cid.version = version ∧ SpelledCid 10 bytes cid.codec cid.digest.1 := by
  have hcodecs : ∀ codec : ℕ, ¬ (codec ≠ Client.codecRaw ∧ codec ≠ Client.codecDagPb) ↔
      codec = codecRaw ∨ codec = codecDagPb := fun _ => codec_of_not
  simp only [Client.Cid.fromBytes, Except.guarded_eq_ok, Except.bind_eq_ok, Prod.exists, not_not, hcodecs]
  rw [spelled_iff reads_client]
  constructor
  · rintro ⟨v, rest, hv, rfl, codec, rest', hc, hcodec, m, rest'', hm, rfl, l, digest, hl, rfl, hcid⟩
    split_ifs at hcid with hdigest
    rw [Except.pure_eq_ok, Except.ok.injEq] at hcid
    rw [← hcid]
    exact ⟨rfl, rest, rest', rest'', hv, hc, hm, hl, hcodec, hdigest⟩
  · rintro ⟨hversion, rest, rest', rest'', hv, hc, hm, hl, hcodec, hdigest⟩
    refine ⟨_, _, hv, rfl, _, _, hc, hcodec, _, _, hm, rfl, _, _, hl, rfl, ?_⟩
    have hversion : cid.version = Client.cidVersion := hversion
    rw [dif_pos hdigest, Except.pure_eq_ok]
    exact congrArg Except.ok (congrArg (fun v =>
      ({ version := v, codec := cid.codec, digest := cid.digest } : Client.Cid))
      hversion.symm)

/-- The client writes every CID plainly. -/
theorem toBytes_plain {bytes : Bytes} {cid : Client.Cid} (h : Client.Cid.fromBytes bytes = .ok cid) :
    cid.toBytes = plainCid cid.codec cid.digest.1 := by
  obtain ⟨hversion, -⟩ := fromBytes_eq_ok.1 h
  rw [Client.Cid.toBytes, plainCid, hversion]
  rfl

/-! ## Texts -/

/-- When the registry reads a text. -/
theorem decodeCid_eq_ok {text : String} {cid : Content.Cid} : decodeCid text = .ok cid ↔
    ∃ encoded raw, text.toList = 'b' :: encoded ∧ Base32.decodeFrom 0 0 encoded = some raw ∧
      cidFromBytes raw = .ok cid := by
  have hdecode : ∀ {encoded : List Char} {raw : Bytes}, Content.base32Decode (String.ofList encoded) = .ok raw ↔
      Base32.decodeFrom 0 0 encoded = some raw := by
    intro encoded raw
    rw [Content.base32Decode, Base32.decode, String.toList_ofList]
    cases Base32.decodeFrom 0 0 encoded with
    | some bytes => simp
    | none => simp
  unfold decodeCid
  split
  · rename_i encoded htext
    simp only [Except.bind_eq_ok, hdecode, htext, List.cons.injEq, true_and]
    constructor
    · rintro ⟨raw, hraw, hcid⟩
      exact ⟨encoded, raw, rfl, hraw, hcid⟩
    · rintro ⟨encoded', raw, rfl, hraw, hcid⟩
      exact ⟨raw, hraw, hcid⟩
  · rename_i hnot
    simp only [Except.throw_eq_error, reduceCtorEq, false_iff, not_exists]
    rintro encoded raw ⟨htext, -⟩
    exact hnot encoded htext

/-- When the client reads a text. -/
theorem fromText_eq_ok {text : String} {cid : Client.Cid} : Client.Cid.fromText text = .ok cid ↔
    ∃ encoded raw, text.toList = 'b' :: encoded ∧ Base32.decodeFrom 0 0 encoded = some raw ∧
      Client.Cid.fromBytes raw = .ok cid := by
  have hdecode : ∀ {encoded : List Char} {raw : Bytes}, Client.base32Decode (String.ofList encoded) = .ok raw ↔
      Base32.decodeFrom 0 0 encoded = some raw := by
    intro encoded raw
    rw [Client.base32Decode, Base32.decode, String.toList_ofList]
    cases Base32.decodeFrom 0 0 encoded with
    | some bytes => simp
    | none => simp
  unfold Client.Cid.fromText
  split
  · rename_i encoded htext
    simp only [Except.bind_eq_ok, hdecode, htext, List.cons.injEq, true_and]
    constructor
    · rintro ⟨raw, hraw, hcid⟩
      exact ⟨encoded, raw, rfl, hraw, hcid⟩
    · rintro ⟨encoded', raw, rfl, hraw, hcid⟩
      exact ⟨raw, hraw, hcid⟩
  · rename_i hnot
    simp only [reduceCtorEq, false_iff, not_exists]
    rintro encoded raw ⟨htext, -⟩
    exact hnot encoded htext

/-- The text that the encoder writes of some bytes. -/
theorem text_eq_iff {text : String} {encoded : List Char} {raw : Bytes} (htext : text.toList = 'b' :: encoded)
    (bytes : Bytes) (hraw : Base32.decodeFrom 0 0 encoded = some raw) :
    "b" ++ Base32.encode bytes = text ↔ bytes = raw ∧ Base32.Exact encoded := by
  have hlist : "b" ++ Base32.encode bytes = text ↔ Base32.encodeFrom 0 0 bytes = encoded := by
    have hencoded : (Base32.encode bytes).toList = Base32.encodeFrom 0 0 bytes := by
      rw [Base32.encode, String.toList_ofList]
    rw [← String.toList_inj, String.toList_append, htext, hencoded]
    exact List.cons_inj_right 'b'
  rw [hlist]
  constructor
  · intro heq
    have hback : Base32.decodeFrom 0 0 (Base32.encodeFrom 0 0 bytes) = some bytes :=
      (Base32.decodeFrom_encodeFrom bytes).1 0 0
    rw [heq, hraw, Option.some.injEq] at hback
    rw [← hback] at heq
    exact ⟨hback.symm, (Base32.encode_eq_iff hraw).1 heq⟩
  · rintro ⟨rfl, hexact⟩
    exact (Base32.encode_eq_iff hraw).2 hexact

/-! ## One spelling -/

/-- What decodes is what is written of the CID it decodes to, and the two implementations decode alike. -/
structure OneSpelling (text : String) (bytes : Bytes) : Prop where
  decodeCid : ∀ cid, decodeCid text = .ok cid → encodeCid cid = .ok text
  fromText : ∀ cid, Client.Cid.fromText text = .ok cid → cid.toText = text
  cidFromBytes : ∀ cid, cidFromBytes bytes = .ok cid → cidBytes cid = .ok bytes
  fromBytes : ∀ cid, Client.Cid.fromBytes bytes = .ok cid → cid.toBytes = bytes
  texts : (∃ cid, Content.decodeCid text = .ok cid) ↔ ∃ cid, Client.Cid.fromText text = .ok cid
  bytes : (∃ cid, Content.cidFromBytes bytes = .ok cid) ↔ ∃ cid, Client.Cid.fromBytes bytes = .ok cid

section Accepts

variable {raw digest : Bytes} {codec : ℕ}

theorem fromBytes_of_spelled (h : SpelledCid 10 raw codec digest) :
    Client.Cid.fromBytes raw = .ok { version := version, codec := codec, digest := ⟨digest, h.digest_length⟩ } :=
  fromBytes_eq_ok.2 ⟨rfl, h⟩

/-- What the registry takes the client takes. -/
theorem fromBytes_of_cidFromBytes {cid : Content.Cid} (h : cidFromBytes raw = .ok cid) :
    ∃ cid, Client.Cid.fromBytes raw = .ok cid :=
  ⟨_, fromBytes_of_spelled ((cidFromBytes_eq_ok.1 h).2.mono (by decide))⟩

/-- The registry takes what the client takes that has no group to spare. -/
theorem cidFromBytes_of_fromBytes {cid : Client.Cid} (h : Client.Cid.fromBytes raw = .ok cid)
    (hlength : raw.length = 36) : ∃ cid, cidFromBytes raw = .ok cid := by
  obtain ⟨-, hspelled⟩ := fromBytes_eq_ok.1 h
  exact ⟨{ version := version, codec := cid.codec, digest := cid.digest },
    cidFromBytes_eq_ok.2 ⟨rfl, (hspelled.one hlength).mono (by decide)⟩⟩

end Accepts

/-- **One spelling**: exactly for bytes whose varints have one group each, and texts of such bytes with nothing
left over; whatever else is no CID. -/
theorem one_spelling_iff (text : String) (bytes : Bytes) : OneSpelling text bytes ↔
    (∀ codec digest, SpelledCid 10 bytes codec digest → bytes.length = 36) ∧
      ∀ encoded raw codec digest, text.toList = 'b' :: encoded → Base32.decodeFrom 0 0 encoded = some raw →
        SpelledCid 10 raw codec digest → raw.length = 36 ∧ Base32.Exact encoded := by
  constructor
  · intro h
    constructor
    · intro codec digest hspelled
      have hcid := fromBytes_of_spelled hspelled
      have heq := h.fromBytes _ hcid
      rw [toBytes_plain hcid] at heq
      exact hspelled.plain_iff.1 heq
    -- a text has one spelling when its bytes have one and its trailing bits are the encoder's
    · intro encoded raw codec digest htext hraw hspelled
      have hcid := fromBytes_of_spelled hspelled
      have heq := h.fromText _ (fromText_eq_ok.2 ⟨encoded, raw, htext, hraw, hcid⟩)
      rw [Client.Cid.toText, toBytes_plain hcid] at heq
      obtain ⟨hplain, hexact⟩ := (text_eq_iff htext _ hraw).1 heq
      exact ⟨hspelled.plain_iff.1 hplain, hexact⟩
  · rintro ⟨hbytes, htexts⟩
    constructor
    case decodeCid =>
      intro cid hcid
      obtain ⟨encoded, raw, htext, hraw, hcid⟩ := decodeCid_eq_ok.1 hcid
      have hspelled := (cidFromBytes_eq_ok.1 hcid).2
      obtain ⟨hlength, hexact⟩ := htexts _ _ _ _ htext hraw (hspelled.mono (by decide))
      rw [(cidBytes_plain hcid).2, (text_eq_iff htext _ hraw).2 ⟨hspelled.plain_iff.2 hlength, hexact⟩]
    case fromText =>
      intro cid hcid
      obtain ⟨encoded, raw, htext, hraw, hcid⟩ := fromText_eq_ok.1 hcid
      have hspelled := (fromBytes_eq_ok.1 hcid).2
      obtain ⟨hlength, hexact⟩ := htexts _ _ _ _ htext hraw hspelled
      rw [Client.Cid.toText, toBytes_plain hcid]
      exact (text_eq_iff htext _ hraw).2 ⟨hspelled.plain_iff.2 hlength, hexact⟩
    case cidFromBytes =>
      intro cid hcid
      have hspelled := (cidFromBytes_eq_ok.1 hcid).2
      rw [(cidBytes_plain hcid).1, hspelled.plain_iff.2 (hbytes _ _ (hspelled.mono (by decide)))]
    case fromBytes =>
      intro cid hcid
      have hspelled := (fromBytes_eq_ok.1 hcid).2
      rw [toBytes_plain hcid]
      exact hspelled.plain_iff.2 (hbytes _ _ hspelled)
    -- each decoder accepts a text exactly when the other does
    case texts =>
      constructor
      · rintro ⟨cid, hcid⟩
        obtain ⟨encoded, raw, htext, hraw, hcid⟩ := decodeCid_eq_ok.1 hcid
        obtain ⟨cid', hcid'⟩ := fromBytes_of_cidFromBytes hcid
        exact ⟨cid', fromText_eq_ok.2 ⟨encoded, raw, htext, hraw, hcid'⟩⟩
      · rintro ⟨cid, hcid⟩
        obtain ⟨encoded, raw, htext, hraw, hcid⟩ := fromText_eq_ok.1 hcid
        obtain ⟨hlength, -⟩ := htexts _ _ _ _ htext hraw (fromBytes_eq_ok.1 hcid).2
        obtain ⟨cid', hcid'⟩ := cidFromBytes_of_fromBytes hcid hlength
        exact ⟨cid', decodeCid_eq_ok.2 ⟨encoded, raw, htext, hraw, hcid'⟩⟩
    case bytes =>
      constructor
      · rintro ⟨cid, hcid⟩
        exact fromBytes_of_cidFromBytes hcid
      · rintro ⟨cid, hcid⟩
        exact cidFromBytes_of_fromBytes hcid (hbytes _ _ (fromBytes_eq_ok.1 hcid).2)

/-- The CID of a digest of zeros, and its bytes with a group to spare in the first varint. -/
def zeroCid : Content.Cid :=
  { version := version, codec := codecRaw, digest := ⟨List.replicate 32 0, by decide⟩ }

/-- A CID whose version is spelled in two bytes. -/
def paddedBytes : Bytes := [0x81, 0x00, 0x55, 0x12, 0x20] ++ List.replicate 32 0

/-- The text of the same CID with a bit to spare in the last character. -/
def looseText : String := "bafkreiaaaaaaaaaaaaaaaaaaaaaaaaaaaaaaaaaaaaaaaaaaaaaaaaaaaab"

/-- Both implementations take `paddedBytes` and `looseText`, and write neither. -/
theorem spellings_loose : cidFromBytes paddedBytes = .ok zeroCid ∧ cidBytes zeroCid ≠ .ok paddedBytes ∧
    decodeCid looseText = .ok zeroCid ∧ encodeCid zeroCid ≠ .ok looseText := by
  decide +kernel

/-- A CID has more than one spelling. -/
theorem spellings_differ : ¬ ∀ (text : String) (bytes : Bytes), OneSpelling text bytes := by
  intro h
  obtain ⟨htake, hwrite, -, -⟩ := spellings_loose
  exact hwrite ((h looseText paddedBytes).cidFromBytes zeroCid htake)

end VayuWeb
