import VayuWeb.Proof.BlockCodecs

/-!
# What a BWANT is answered with

* `encode_prefix`: a prefix of the blocks encodes exactly when its message is within the bound, and
  a longer prefix is a longer message.
* `replyFor_spec`: the reply takes the largest prefix that encodes.
* `delivers_all`: replies to what the ones before left deliver every block once.
* `bwant_answered_iff`: both answers to a request.
-/

namespace VayuWeb.BlockExchange

open Bytes
open DetCbor (Key Value)
open BlockCodecs (Representable written)

section

variable {blocks xs cids unanswered : List Bytes} {reply : BlocksReply}

/-! ## The size of a message -/

/-- Every block is one that may be exchanged. -/
def Exchangeable (blocks : List Bytes) : Prop := ∀ block ∈ blocks, block.length ≤ limitBlockBytes

theorem Exchangeable.take (h : Exchangeable blocks) (n : ℕ) : Exchangeable (blocks.take n) :=
  fun block hblock => h block (List.mem_of_mem_take hblock)

theorem Exchangeable.drop (h : Exchangeable blocks) (n : ℕ) : Exchangeable (blocks.drop n) :=
  fun block hblock => h block (List.mem_of_mem_drop hblock)

theorem entries_blocks : entries (BlockMessage.blocks xs).fields =
    [(.text "t", .text "BLOCKS"), (.text "blks", byteStrings xs)] := rfl

/-- The type's key comes first, so that the entries are in order already. -/
theorem sorted_blocks : (Value.map (entries (BlockMessage.blocks xs).fields)).sorted =
    .map (entries (BlockMessage.blocks xs).fields) := by
  have hkeys : DetCbor.SortedKeys (entries (BlockMessage.blocks xs).fields) := by
    have hlt : (Key.text "t").encode < (Key.text "blks").encode := by decide
    rw [entries_blocks, DetCbor.SortedKeys]
    simpa using hlt
  rw [DetCbor.sorted_map, DetCbor.sortByKey_of_sortedKeys hkeys, entries_blocks]
  simp [sorted_byteStrings, Value.sorted]

theorem length_byteStrings (xs : List Bytes) : (byteStrings xs).encode.length =
    (DetCbor.head 4 xs.length).length + (xs.map fun x => (DetCbor.head 2 x.length).length + x.length).sum := by
  rw [byteStrings, Value.encode, List.length_append, length_encodeItems, List.length_map, List.map_map]
  simp [Function.comp_def, Value.encode]

/-- How long a BLOCKS message is. -/
theorem length_blocks (xs : List Bytes) : (written (.blocks xs)).length = 15 + (byteStrings xs).encode.length := by
  have hkeys : (Key.text "t").encode.length = 2 ∧ (Key.text "blks").encode.length = 5 ∧
      (Value.text "BLOCKS").encode.length = 7 ∧ (DetCbor.head 5 2).length = 1 := by decide
  obtain ⟨ht, hblks, htype, hhead⟩ := hkeys
  rw [written, sorted_blocks, entries_blocks, Value.encode, List.length_append, length_encodeEntries]
  simp only [List.length_cons, List.length_nil, List.map_cons, List.map_nil, List.sum_cons, List.sum_nil, ht, hblks,
    htype, hhead]
  omega

/-- **A longer prefix is a longer message.** -/
theorem length_take_mono {m n : ℕ} (h : m ≤ n) :
    (written (.blocks (blocks.take m))).length ≤ (written (.blocks (blocks.take n))).length := by
  obtain ⟨rest, hrest⟩ : ∃ rest, blocks.take m ++ rest = blocks.take n := List.take_prefix_take_left h
  have hhead := DetCbor.head_length_mono 4 (show (blocks.take m).length ≤ (blocks.take m ++ rest).length by simp)
  rw [length_blocks, length_blocks, length_byteStrings, length_byteStrings, ← hrest, List.map_append, List.sum_append]
  omega

/-- A single block is within the bound. -/
theorem length_single {block : Bytes} (h : block.length ≤ limitBlockBytes) :
    (written (.blocks [block])).length ≤ limitMessageBytes := by
  unfold limitBlockBytes at h
  unfold limitMessageBytes
  have hhead : (DetCbor.head 2 block.length).length ≤ 9 := by
    rw [DetCbor.head]
    split_ifs <;> simp
  have hcount : (DetCbor.head 4 1).length = 1 := by decide
  rw [length_blocks, length_byteStrings]
  simp only [List.length_cons, List.length_nil, List.map_cons, List.map_nil, List.sum_cons, List.sum_nil, hcount]
  omega

/-! ## What encodes -/

theorem representable_blocks (hsizes : Exchangeable xs) (hcount : xs.length ≤ limitBlocksPerMessage) :
    Representable (.blocks xs) := by
  unfold limitBlocksPerMessage at hcount
  refine ⟨by omega, ?_⟩
  intro x hx
  have hsize := hsizes x hx
  unfold limitBlockBytes at hsize
  omega

/-- **A BLOCKS message encodes** exactly when it is within the bound. -/
theorem encode_blocks (hsizes : Exchangeable xs) (hcount : xs.length ≤ limitBlocksPerMessage) :
    encode (.map (BlockMessage.blocks xs).toMap) = .ok (written (.blocks xs)) ∧
      encodeBlockMessage (.blocks xs) = if (written (.blocks xs)).length > limitMessageBytes then
        .error (.refused .tooLarge
          s!"message is {(written (.blocks xs)).length} bytes, over the {limitMessageBytes} limit")
      else .ok (written (.blocks xs)) := by
  have hwrite := BlockCodecs.registry_write (representable_blocks hsizes hcount) trivial
  refine ⟨hwrite, ?_⟩
  have hcheck : checkMessage (.blocks xs) = .ok () := rfl
  rw [encodeBlockMessage, hcheck, Except.ok_bind, writeMap_eq_ok.2 hwrite, Except.ok_bind, checkMessageSize, checkSize]
  split_ifs <;> rfl

/-! ## The largest reply -/

/-- What the loop has found: the longest of the prefixes that it looked at, up to the first that does not encode. -/
theorem replyFrom_spec (rounds : ℕ) : ∀ (best : Option BlocksReply) (take : ℕ), ∃ n ≤ rounds,
    (n < rounds → ∃ e, encodeBlockMessage (.blocks (blocks.take (take + n))) = .error e) ∧
      (n = 0 ∧ replyFrom blocks best rounds take = best ∨
        ∃ reply, 0 < n ∧ reply.take + 1 = take + n ∧
          encodeBlockMessage (.blocks (blocks.take reply.take)) = .ok reply.encoded ∧
          replyFrom blocks best rounds take = some reply) := by
  induction rounds with
  | zero =>
    intro best take
    exact ⟨0, le_refl 0, fun h => absurd h (lt_irrefl 0), Or.inl ⟨rfl, rfl⟩⟩
  | succ rounds ih =>
    intro best take
    rw [replyFrom]
    cases hencode : encodeBlockMessage (.blocks (blocks.take take)) with
    | error e =>
      refine ⟨0, Nat.zero_le _, fun _ => ⟨e, ?_⟩, Or.inl ⟨rfl, rfl⟩⟩
      rw [Nat.add_zero]
      exact hencode
    | ok encoded =>
      -- a message that fits is kept as the best so far, and one block more is tried
      obtain ⟨n, hn, hstop, hfound⟩ := ih (some { take := take, encoded := encoded }) (take + 1)
      refine ⟨n + 1, Nat.succ_le_succ hn, ?_, Or.inr ?_⟩
      · intro hlt
        obtain ⟨e, he⟩ := hstop (Nat.lt_of_succ_lt_succ hlt)
        refine ⟨e, ?_⟩
        have hindex : take + 1 + n = take + (n + 1) := by omega
        rw [hindex] at he
        exact he
      · rcases hfound with ⟨rfl, hbest⟩ | ⟨reply, hpos, htake, hreply, hbest⟩
        · exact ⟨{ take := take, encoded := encoded }, Nat.succ_pos 0, rfl, hencode, hbest⟩
        · exact ⟨reply, Nat.succ_pos n, by omega, hreply, hbest⟩

/-- What the reply to some blocks is. -/
structure Largest (blocks : List Bytes) (reply : BlocksReply) : Prop where
  pos : 1 ≤ reply.take
  le : reply.take ≤ min blocks.length limitBlocksPerMessage
  encodes : encodeBlockMessage (.blocks (blocks.take reply.take)) = .ok reply.encoded
  size : reply.encoded.length ≤ limitMessageBytes
  maximal : ∀ n, reply.take < n → n ≤ min blocks.length limitBlocksPerMessage →
    ∃ bytes, encode (.map (BlockMessage.blocks (blocks.take n)).toMap) = .ok bytes ∧ limitMessageBytes < bytes.length
  decodes : decodeBlockMessage reply.encoded = .ok (.blocks (blocks.take reply.take))

/-- **The reply takes the largest prefix that encodes.** -/
theorem replyFor_spec (hne : blocks ≠ []) (hsizes : Exchangeable blocks) :
    ∃ reply, blocksReplyFor blocks = .ok reply ∧ Largest blocks reply := by
  have hpos : 0 < blocks.length := List.length_pos_iff.2 hne
  have hcount : ∀ n ≤ min blocks.length limitBlocksPerMessage, (blocks.take n).length ≤ limitBlocksPerMessage := by
    intro n hn
    rw [List.length_take]
    omega
  obtain ⟨n, hn, hstop, hfound⟩ := @replyFrom_spec blocks (min blocks.length limitBlocksPerMessage) none 1
  have hroom : 0 < min blocks.length limitBlocksPerMessage := by
    unfold limitBlocksPerMessage
    omega
  rcases hfound with ⟨rfl, -⟩ | ⟨reply, hn', htake, hreply, hbest⟩
  · -- the first block alone encodes
    obtain ⟨e, he⟩ := hstop hroom
    obtain ⟨block, rest, rfl⟩ := List.exists_cons_of_ne_nil hne
    have hsingle : (block :: rest).take (1 + 0) = [block] := rfl
    have hfits := length_single (hsizes block List.mem_cons_self)
    have hone : Exchangeable [block] := hsizes.take 1
    have hencode := (encode_blocks hone (by unfold limitBlocksPerMessage; simp)).2
    rw [if_neg (Nat.not_lt.2 hfits)] at hencode
    rw [hsingle, hencode] at he
    exact absurd he (by simp)
  -- the largest reply that encodes, and one block more would not
  · have hle : reply.take ≤ min blocks.length limitBlocksPerMessage := by omega
    obtain ⟨-, hencode⟩ := encode_blocks (hsizes.take reply.take) (hcount _ hle)
    have hsize : reply.encoded.length ≤ limitMessageBytes := by
      rw [hreply] at hencode
      split_ifs at hencode with hover
      rw [Except.ok.inj hencode]
      omega
    refine ⟨reply, ?_, ⟨by omega, hle, hreply, hsize, ?_, ?_⟩⟩
    · rw [blocksReplyFor, hbest]
    · intro m hm hroom'
      obtain ⟨hwrite, hencode'⟩ := encode_blocks (hsizes.take (1 + n)) (hcount _ (by omega))
      obtain ⟨e, he⟩ := hstop (by omega)
      have hover : limitMessageBytes < (written (.blocks (blocks.take (1 + n)))).length := by
        by_contra hfits
        rw [if_neg hfits, he] at hencode'
        exact absurd hencode' (by simp)
      refine ⟨_, (encode_blocks (hsizes.take m) (hcount _ hroom')).1, ?_⟩
      have hmono : (written (.blocks (blocks.take (1 + n)))).length ≤ (written (.blocks (blocks.take m))).length :=
        length_take_mono (by omega)
      omega
    · exact (BlockMessage.decode_encode_iff (m := .blocks _) trivial hreply).2 ⟨hcount _ hle, hsizes.take _⟩

/-! ## Every block once -/

/-- Replies that are sent one after the other, each for what the ones before left, as they are read. -/
inductive Delivers : List Bytes → List (List Bytes) → Prop
  | done : Delivers [] []
  | reply {blocks received : List Bytes} {replies : List (List Bytes)} {reply : BlocksReply} (hne : blocks ≠ [])
      (hreply : blocksReplyFor blocks = .ok reply) (hread : decodeBlockMessage reply.encoded = .ok (.blocks received))
      (rest : Delivers (blocks.drop reply.take) replies) : Delivers blocks (received :: replies)

/-- **The replies end, and deliver every block once.** -/
theorem delivers_all (hsizes : Exchangeable blocks) :
    (∃ replies, Delivers blocks replies) ∧ ∀ replies, Delivers blocks replies → replies.flatten = blocks := by
  constructor
  · -- by induction on how many blocks are left
    generalize hlength : blocks.length = n
    induction n using Nat.strong_induction_on generalizing blocks with
    | _ n ih =>
      by_cases hne : blocks = []
      · exact ⟨[], hne ▸ .done⟩
      · obtain ⟨reply, hreply, hlargest⟩ := replyFor_spec hne hsizes
        have hpos := hlargest.pos
        have hle := hlargest.le
        have hless : (blocks.drop reply.take).length < n := by
          rw [List.length_drop]
          omega
        obtain ⟨replies, hreplies⟩ := ih _ hless (hsizes.drop reply.take) rfl
        exact ⟨_, .reply hne hreply hlargest.decodes hreplies⟩
  · intro replies h
    induction h with
    | done => rfl
    | @reply blocks received replies reply hne hreply hread rest ih =>
      obtain ⟨reply', hreply', hlargest⟩ := replyFor_spec hne hsizes
      rw [hreply, Except.ok.injEq] at hreply'
      have hreceived := hlargest.decodes
      rw [← hreply', hread, Except.ok.injEq, BlockMessage.blocks.injEq] at hreceived
      rw [List.flatten_cons, ih (hsizes.drop _), hreceived, List.take_append_drop]

/-! ## The refusal -/

theorem assertDistinctFrom_eq_ok (cids : List Bytes) : ∀ seen : List Bytes,
    assertDistinctFrom seen cids = .ok () ↔ cids.Nodup ∧ ∀ cid ∈ cids, cid ∉ seen := by
  induction cids with
  | nil =>
    intro seen
    simp [assertDistinctFrom]
  | cons cid cids ih =>
    intro seen
    rw [assertDistinctFrom]
    by_cases hseen : cid ∈ seen
    · rw [if_pos hseen]
      refine iff_of_false (by simp) ?_
      intro h
      exact h.2 cid List.mem_cons_self hseen
    · rw [if_neg hseen, ih, List.nodup_cons, List.forall_mem_cons]
      constructor
      · rintro ⟨hnodup, hall⟩
        refine ⟨⟨?_, hnodup⟩, hseen, fun c hc hmem => hall c hc (List.mem_cons_of_mem _ hmem)⟩
        intro hmem
        exact hall cid hmem List.mem_cons_self
      · rintro ⟨⟨hnot, hnodup⟩, -, hall⟩
        refine ⟨hnodup, fun c hc hmem => ?_⟩
        rcases List.mem_cons.1 hmem with rfl | hmem
        · exact hnot hc
        · exact hall c hc hmem

/-- The check passes exactly where no identifier is repeated. -/
theorem assertDistinct_eq_ok (cids : List Bytes) : assertDistinct cids = .ok () ↔ cids.Nodup := by
  rw [assertDistinct, assertDistinctFrom_eq_ok]
  simp

/-- The one answer about a list that names an identifier twice. -/
def repeated : BlockExchangeError := .refused .malformed "an identifier is named twice; see 3.6.a"

/-- The check passes or names the repetition. -/
theorem assertDistinctFrom_answers (cids : List Bytes) : ∀ seen : List Bytes,
    assertDistinctFrom seen cids = .ok () ∨ assertDistinctFrom seen cids = .error repeated := by
  induction cids with
  | nil =>
    intro seen
    exact Or.inl rfl
  | cons cid cids ih =>
    intro seen
    rw [assertDistinctFrom]
    by_cases hseen : cid ∈ seen
    · rw [if_pos hseen]
      exact Or.inr rfl
    · rw [if_neg hseen]
      exact ih _

/-- **The encoder refuses** a message that names an identifier twice. -/
theorem encode_bdone_of_repeated (h : ¬ cids.Nodup) : encodeBlockMessage (.bdone cids) = .error repeated := by
  have hrefused : checkMessage (.bdone cids) = .error repeated := by
    rcases assertDistinctFrom_answers cids [] with hok | hrefused
    · exact absurd ((assertDistinct_eq_ok cids).1 hok) h
    · exact hrefused
  rw [encodeBlockMessage, hrefused]
  rfl

/-- Identifiers within their limits. -/
structure Wanted (cids : List Bytes) : Prop where
  count : cids.length ≤ limitWantCids
  sizes : ∀ cid ∈ cids, cid.length ≤ limitCidBytes

/-- Part of a request can be answered as the request can. -/
theorem Wanted.filter (h : Wanted cids) (p : Bytes → Bool) : Wanted (cids.filter p) where
  count := (List.length_filter_le _ _).trans h.count
  sizes cid hcid := h.sizes cid (List.mem_of_mem_filter hcid)

theorem Wanted.representable (h : Wanted cids) : Representable (.bdone cids) := by
  have hcount := h.count
  unfold limitWantCids at hcount
  refine ⟨by omega, ?_⟩
  intro cid hcid
  have hsize := h.sizes cid hcid
  unfold limitCidBytes at hsize
  omega

/-- A refusal is short. -/
theorem Wanted.length_bdone (h : Wanted cids) : (written (.bdone cids)).length ≤ limitMessageBytes := by
  have hcount := h.count
  unfold limitWantCids at hcount
  unfold limitMessageBytes
  have hplain := (BlockMessage.bdone cids).fields_ok.plainMap
  have hlength := length_sorted hplain.bom hplain.distinct (BlockCodecs.fields_fit h.representable)
    (BlockCodecs.fields_depth _)
  refine hlength.trans ?_
  have hentries : entries (BlockMessage.bdone cids).fields =
      [(.text "t", .text "BDONE"), (.text "cids", byteStrings cids)] := rfl
  have hkeys : (Key.text "t").encode.length = 2 ∧ (Key.text "cids").encode.length = 5 ∧
      (Value.text "BDONE").encode.length = 6 ∧ (DetCbor.head 5 2).length = 1 := by decide
  obtain ⟨ht, hcids, htype, hhead⟩ := hkeys
  have hwidth : ∀ major n, (DetCbor.head major n).length ≤ 9 := by
    intro major n
    rw [DetCbor.head]
    split_ifs <;> simp
  -- at most 64 identifiers of 64 bytes, each with a head
  have hsum : (cids.map fun cid => (DetCbor.head 2 cid.length).length + cid.length).sum ≤ cids.length * 73 := by
    have hcost : ∀ cost ∈ cids.map fun cid => (DetCbor.head 2 cid.length).length + cid.length, cost ≤ 73 := by
      intro cost hcost
      obtain ⟨cid, hcid, rfl⟩ := List.mem_map.1 hcost
      have hsize := h.sizes cid hcid
      unfold limitCidBytes at hsize
      have hcid' := hwidth 2 cid.length
      omega
    have hbound := List.sum_le_card_nsmul _ 73 hcost
    rwa [List.length_map, Nat.nsmul_eq_mul] at hbound
  have harray := hwidth 4 cids.length
  rw [hentries, Value.encode, List.length_append, length_encodeEntries]
  simp only [List.length_cons, List.length_nil, List.map_cons, List.map_nil, List.sum_cons, List.sum_nil, ht, hcids,
    htype, hhead, length_byteStrings]
  omega

/-- **A refusal is sent and read back** exactly when it names no identifier twice. -/
theorem bdone_iff (h : Wanted cids) :
    (∃ encoded, encodeBlockMessage (.bdone cids) = .ok encoded ∧ decodeBlockMessage encoded = .ok (.bdone cids)) ↔
      cids.Nodup := by
  constructor
  · rintro ⟨encoded, hencoded, -⟩
    rw [encodeBlockMessage, Except.bind_eq_ok] at hencoded
    obtain ⟨_, hcheck, -⟩ := hencoded
    exact (assertDistinct_eq_ok cids).1 hcheck
  · intro hnodup
    have hcheck : checkMessage (.bdone cids) = .ok () := (assertDistinct_eq_ok cids).2 hnodup
    have hencoded := BlockCodecs.registry_encode h.representable hcheck trivial
    have hlength := h.length_bdone
    unfold limitMessageBytes at hlength
    rw [BlockCodecs.sized, if_neg (Nat.not_lt.2 hlength), Except.toOption_eq_some] at hencoded
    exact ⟨_, hencoded, (BlockMessage.decode_encode_iff (m := .bdone cids) trivial hencoded).2 ⟨h.count, h.sizes⟩⟩

/-! ## The request -/

theorem bstrArray_eq_ok {map : CborMap} {key : String} {limit each : ℕ} (h : bstrArray map key limit each = .ok xs) :
    xs.length ≤ limit ∧ ∀ x ∈ xs, x.length ≤ each := by
  unfold bstrArray at h
  split at h
  · rename_i value hget
    split_ifs at h with hlimit
    rw [Except.mapM_eq_ok] at h
    refine ⟨by rw [← h.length_eq]; omega, ?_⟩
    intro x hx
    obtain ⟨v, -, hv⟩ := Except.exists_of_forall₂_right h hx
    unfold bstrEntry at hv
    split at hv
    · split_ifs at hv with heach
      rw [← Except.ok.inj hv]
      omega
    · exact absurd hv (by simp)
  · exact absurd h (by simp)

/-- An accepted request is within the limits. -/
theorem wanted_of_decode {bytes : Bytes} (h : decodeBlockMessage bytes = .ok (.bwant cids)) : Wanted cids := by
  unfold decodeBlockMessage at h
  obtain ⟨_, -, h⟩ := Except.bind_eq_ok.1 h
  obtain ⟨⟨map, type⟩, -, h⟩ := Except.bind_eq_ok.1 h
  simp only at h
  split_ifs at h
  · obtain ⟨v, -, h⟩ := Except.bind_eq_ok.1 h
    obtain ⟨max, -, h⟩ := Except.bind_eq_ok.1 h
    rw [Except.pure_eq_ok, Except.ok.injEq] at h
    exact absurd h (by simp)
  · obtain ⟨xs, hxs, h⟩ := Except.bind_eq_ok.1 h
    rw [Except.pure_eq_ok, Except.ok.injEq, BlockMessage.bwant.injEq] at h
    obtain ⟨hcount, hsizes⟩ := bstrArray_eq_ok hxs
    rw [h] at hcount hsizes
    exact ⟨hcount, hsizes⟩
  · obtain ⟨xs, -, h⟩ := Except.bind_eq_ok.1 h
    rw [Except.pure_eq_ok, Except.ok.injEq] at h
    exact absurd h (by simp)
  · obtain ⟨xs, -, h⟩ := Except.bind_eq_ok.1 h
    rw [Except.pure_eq_ok, Except.ok.injEq] at h
    exact absurd h (by simp)

/-- **Every accepted request can be answered**: with the largest replies that encode, which deliver every block once,
and, for what is not answered, with a refusal in the order of the request exactly when the request names no such
identifier twice. A refusal that would name one twice is not sent. -/
theorem bwant_answered_iff (bytes : Bytes) (cids answers unanswered : List Bytes)
    (haccepted : decodeBlockMessage bytes = .ok (.bwant cids)) (hunanswered : ∀ cid ∈ unanswered, cid ∈ cids)
    (hsizes : Exchangeable answers) :
    (answers ≠ [] → ∃ reply, blocksReplyFor answers = .ok reply ∧ Largest answers reply) ∧
      (∃ replies, Delivers answers replies) ∧ (∀ replies, Delivers answers replies → replies.flatten = answers) ∧
        ((∃ done encoded, blockDoneFor cids unanswered = .ok done ∧ encodeBlockMessage done = .ok encoded ∧
          decodeBlockMessage encoded = .ok (.bdone (cids.filter fun cid => cid ∈ unanswered))) ↔
            (cids.filter fun cid => cid ∈ unanswered).Nodup) ∧
          (¬ (cids.filter fun cid => cid ∈ unanswered).Nodup →
            ∃ done, blockDoneFor cids unanswered = .ok done ∧ encodeBlockMessage done = .error repeated) := by
  obtain ⟨hdelivers, hall⟩ := delivers_all hsizes
  have hdone : blockDoneFor cids unanswered = .ok (.bdone (cids.filter fun cid => cid ∈ unanswered)) :=
    if_pos hunanswered
  refine ⟨fun hne => replyFor_spec hne hsizes, hdelivers, hall, ?_,
    fun hrepeated => ⟨_, hdone, encode_bdone_of_repeated hrepeated⟩⟩
  rw [← bdone_iff ((wanted_of_decode haccepted).filter _)]
  constructor
  · rintro ⟨done, encoded, hdone', hencoded, hdecoded⟩
    rw [hdone, Except.ok.injEq] at hdone'
    rw [← hdone'] at hencoded
    exact ⟨encoded, hencoded, hdecoded⟩
  · rintro ⟨encoded, hencoded, hdecoded⟩
    exact ⟨_, encoded, hdone, hencoded, hdecoded⟩

end

/-! ## Requests for two identifiers -/

/-- A request, as it is written. -/
def requestFor (cids : List Bytes) : Bytes := (Value.map (entries (BlockMessage.bwant cids).fields)).encode

theorem decode_requests : decodeBlockMessage (requestFor [[1], [2]]) = .ok (.bwant [[1], [2]]) ∧
    decodeBlockMessage (requestFor [[1], [1]]) = .ok (.bwant [[1], [1]]) := by decide +kernel

theorem bwant_answered_iff_two : (∃ done encoded, blockDoneFor [[1], [2]] [[2]] = .ok done ∧
    encodeBlockMessage done = .ok encoded ∧ decodeBlockMessage encoded = .ok (.bdone [[2]])) ∧
      ∃ done, blockDoneFor [[1], [1]] [[1]] = .ok done ∧ encodeBlockMessage done = .error repeated := by
  have hsizes : Exchangeable [[7, 7]] := by
    intro block hblock
    rw [List.mem_singleton.1 hblock]
    decide
  have hnone : Exchangeable [] := fun block hblock => absurd hblock (List.not_mem_nil)
  obtain ⟨-, -, -, hrefusal, -⟩ := bwant_answered_iff (requestFor [[1], [2]]) [[1], [2]] [[7, 7]] [[2]]
    decode_requests.1 (by decide) hsizes
  obtain ⟨-, -, -, -, hrepeated⟩ := bwant_answered_iff (requestFor [[1], [1]]) [[1], [1]] [] [[1]] decode_requests.2
    (by decide) hnone
  exact ⟨hrefusal.2 (by decide), hrepeated (by decide)⟩

/-- A request that names one identifier twice is accepted, and its refusal is not sent. -/
theorem repeated_unanswered : ¬ ∀ (bytes : Bytes) (cids unanswered : List Bytes),
    decodeBlockMessage bytes = .ok (.bwant cids) → (∀ cid ∈ unanswered, cid ∈ cids) →
      ∃ done encoded, blockDoneFor cids unanswered = .ok done ∧ encodeBlockMessage done = .ok encoded ∧
        decodeBlockMessage encoded = .ok (.bdone (cids.filter fun cid => cid ∈ unanswered)) := by
  intro h
  obtain ⟨done, encoded, hdone, hencoded, -⟩ := h (requestFor [[1], [1]]) [[1], [1]] [[1]] decode_requests.2 (by decide)
  have hnamed : blockDoneFor [[1], [1]] [[1]] = .ok (.bdone [[1], [1]]) := by decide
  have hrefused : (encodeBlockMessage (.bdone [[1], [1]])).toOption = none := by decide
  rw [hnamed, Except.ok.injEq] at hdone
  rw [hdone, hencoded] at hrefused
  exact absurd hrefused (by simp [Except.toOption])

end VayuWeb.BlockExchange
