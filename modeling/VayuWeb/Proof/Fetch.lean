import Mathlib.Data.Set.Function
import Mathlib.Logic.Relation
import VayuWeb.Base.Except
import VayuWeb.Base.Trial
import VayuWeb.Spec.Fetch

/-!
# What a traversal returns

`Assembles` and `Descends` say what a root and a path mean over a set of blocks, whoever answered
them and in whatever order.

* `fetchVerified_eq_ok`: when one block is handed on.
* `Assembles.unique`, `Descends.unique`: no two meanings, where no two blocks have one digest.
* `fetchLevels_eq_ok`, `descend_cons_eq_ok`: how a file and a path go on after a block.
* `keeps_fetchPath`: an invariant of the single fetches is one of the traversal.
-/

namespace VayuWeb.Fetch

open Bytes Content Trial
open Unixfs (typeFile typeDirectory)

variable {σ : Type} {H : ContentHash}

/-! ## The meaning of a root -/

/-- The bytes are the ones that a CID names. -/
def Verified (H : ContentHash) (c : Cid) (bytes : Bytes) : Prop := H.sha256 bytes = c.digest

/-- A block among `answers` for a CID: its bytes and the decoded CID. -/
structure VerifiedBlock (H : ContentHash) (answers : Set Bytes) (cid : String) (c : Cid) (bytes : Bytes) : Prop where
  mem : bytes ∈ answers
  decodes : decodeCid cid = .ok c
  verified : Verified H c bytes

/-- What the file addressed by a CID is, so many levels deep. -/
def Assembles (H : ContentHash) (answers : Set Bytes) : ℕ → String → Bytes → Prop
  | 0, _, _ => False
  | levels + 1, cid, content => ∃ c bytes, VerifiedBlock H answers cid c bytes ∧
      ((c.codec = codecRaw ∧ content = bytes) ∨
        (c.codec ≠ codecRaw ∧ ∃ node parts, decodeNode bytes = .ok node ∧ node.type = typeFile ∧
          List.Forall₂ (fun link part => Assembles H answers levels link.cid part) node.links parts ∧
          content = parts.flatten))

/-- What CID the segments of a path lead to. -/
def Descends (H : ContentHash) (answers : Set Bytes) : List String → String → String → Prop
  | [], root, cid => cid = root
  | segment :: segments, root, cid => ∃ c bytes node next, VerifiedBlock H answers root c bytes ∧
      c.codec = codecDagPb ∧ decodeNode bytes = .ok node ∧ entryOf root segment node = .ok next ∧
      Descends H answers segments next cid

/-- One CID has one block, where no two blocks have one digest. -/
theorem VerifiedBlock.unique {answers : Set Bytes} {cid : String} {c c' : Cid} {bytes bytes' : Bytes}
    (hinj : Set.InjOn H.sha256 answers) (h : VerifiedBlock H answers cid c bytes)
    (h' : VerifiedBlock H answers cid c' bytes') :
    c = c' ∧ bytes = bytes' := by
  have hcid : c = c' := by
    have hdecodes := h.decodes
    rw [h'.decodes, Except.ok.injEq] at hdecodes
    exact hdecodes.symm
  have hdigest : H.sha256 bytes = H.sha256 bytes' := by
    rw [show H.sha256 bytes = c.digest from h.verified, hcid]
    exact h'.verified.symm
  exact ⟨hcid, hinj h.mem h'.mem hdigest⟩

theorem VerifiedBlock.mono {answers answers' : Set Bytes} (hsub : answers ⊆ answers') {cid : String} {c : Cid}
    {bytes : Bytes}
    (h : VerifiedBlock H answers cid c bytes) : VerifiedBlock H answers' cid c bytes :=
  ⟨hsub h.mem, h.decodes, h.verified⟩

/-- More answers take no content away. -/
theorem Assembles.mono {answers answers' : Set Bytes} (hsub : answers ⊆ answers') {levels : ℕ} {cid : String}
    {content : Bytes} (h : Assembles H answers levels cid content) : Assembles H answers' levels cid content := by
  induction levels generalizing cid content with
  | zero => exact h
  | succ levels ih =>
    obtain ⟨c, bytes, hblock, h⟩ := h
    refine ⟨c, bytes, hblock.mono hsub, ?_⟩
    rcases h with h | ⟨hraw, node, parts, hdecode, htype, hparts, hcontent⟩
    · exact Or.inl h
    · exact Or.inr ⟨hraw, node, parts, hdecode, htype, hparts.imp fun _ _ => ih, hcontent⟩

/-- More answers take no path away. -/
theorem Descends.mono {answers answers' : Set Bytes} (hsub : answers ⊆ answers') {segments : List String}
    {root cid : String} (h : Descends H answers segments root cid) : Descends H answers' segments root cid := by
  induction segments generalizing root with
  | nil => exact h
  | cons segment segments ih =>
    obtain ⟨c, bytes, node, next, hblock, hcodec, hdecode, hentry, h⟩ := h
    exact ⟨c, bytes, node, next, hblock.mono hsub, hcodec, hdecode, hentry, ih h⟩

theorem forall₂_unique {α β : Type} {R S : α → β → Prop} (huniq : ∀ a b b', R a b → S a b' → b = b') {as : List α}
    {bs bs' : List β} (h : List.Forall₂ R as bs) (h' : List.Forall₂ S as bs') : bs = bs' := by
  induction h generalizing bs' with
  | nil =>
    cases h'
    rfl
  | cons hab _ ih =>
    cases h' with
    | cons hab' htail => rw [huniq _ _ _ hab hab', ih htail]

/-- **A CID has one content**, where no two blocks have one digest. -/
theorem Assembles.unique {answers : Set Bytes} (hinj : Set.InjOn H.sha256 answers) {levels levels' : ℕ}
    {cid : String} {x y : Bytes} (hx : Assembles H answers levels cid x) (hy : Assembles H answers levels' cid y) :
    x = y := by
  induction levels generalizing levels' cid x y with
  | zero => exact hx.elim
  | succ levels ih =>
    cases levels' with
    | zero => exact hy.elim
    | succ levels' =>
      obtain ⟨c, bytes, hblock, hx⟩ := hx
      obtain ⟨c', bytes', hblock', hy⟩ := hy
      obtain ⟨rfl, rfl⟩ := hblock.unique hinj hblock'
      rcases hx with ⟨hraw, rfl⟩ | ⟨hnode, node, parts, hdecode, -, hparts, rfl⟩
      · rcases hy with ⟨-, rfl⟩ | ⟨hnode, -⟩
        · rfl
        · exact absurd hraw hnode
      · rcases hy with ⟨hraw, -⟩ | ⟨-, node', parts', hdecode', -, hparts', rfl⟩
        · exact absurd hraw hnode
        · rw [hdecode, Except.ok.injEq] at hdecode'
          rw [← hdecode'] at hparts'
          have huniq : ∀ (link : DecodedLink) part part', Assembles H answers levels link.cid part →
              Assembles H answers levels' link.cid part' → part = part' := by
            intro link part part' hpart hpart'
            exact ih hpart hpart'
          rw [forall₂_unique huniq hparts hparts']

/-- **A path leads to one CID**, where no two blocks have one digest. -/
theorem Descends.unique {answers : Set Bytes} (hinj : Set.InjOn H.sha256 answers) {segments : List String}
    {root cid cid' : String} (h : Descends H answers segments root cid) (h' : Descends H answers segments root cid') :
    cid = cid' := by
  induction segments generalizing root with
  | nil => rw [show cid = root from h, show cid' = root from h']
  | cons segment segments ih =>
    obtain ⟨c, bytes, node, next, hblock, -, hdecode, hentry, h⟩ := h
    obtain ⟨c', bytes', node', next', hblock', -, hdecode', hentry', h'⟩ := h'
    obtain ⟨rfl, rfl⟩ := hblock.unique hinj hblock'
    rw [hdecode, Except.ok.injEq] at hdecode'
    rw [← hdecode', hentry, Except.ok.injEq] at hentry'
    rw [← hentry'] at h'
    exact ih h h'

/-! ## Where the bytes come from -/

/-- A block for a CID is a node that links to another one. -/
def Linked (H : ContentHash) (answers : Set Bytes) (cid cid' : String) : Prop :=
  ∃ c bytes node, VerifiedBlock H answers cid c bytes ∧ c.codec = codecDagPb ∧ decodeNode bytes = .ok node ∧
    ∃ link ∈ node.links, link.cid = cid'

/-- One CID is reached from another over answered blocks. -/
abbrev Reach (H : ContentHash) (answers : Set Bytes) : String → String → Prop :=
  Relation.ReflTransGen (Linked H answers)

/-- A raw block that the links below a CID reach. -/
def Leaf (H : ContentHash) (answers : Set Bytes) (root cid : String) (bytes : Bytes) : Prop :=
  Reach H answers root cid ∧ ∃ c, VerifiedBlock H answers cid c bytes ∧ c.codec = codecRaw

/-- A leaf below what is reached is a leaf below the root. -/
theorem Leaf.of_reach {answers : Set Bytes} {root cid cid' : String} {bytes : Bytes}
    (hreach : Reach H answers root cid) (h : Leaf H answers cid cid' bytes) : Leaf H answers root cid' bytes :=
  ⟨hreach.trans h.1, h.2⟩

/-- The codec of a decoded CID that is not raw. -/
theorem codec_of_ne_raw {cid : String} {c : Cid} (h : decodeCid cid = .ok c) (hne : c.codec ≠ codecRaw) :
    c.codec = codecDagPb :=
  (decodeCid_admitted h).2.resolve_left hne

/-- **A content is the leaves below its CID**, in order. -/
theorem Assembles.leaves {answers : Set Bytes} {levels : ℕ} {cid : String} {content : Bytes}
    (h : Assembles H answers levels cid content) :
    ∃ leaves : List (String × Bytes), content = (leaves.map (·.2)).flatten ∧
      ∀ leaf ∈ leaves, Leaf H answers cid leaf.1 leaf.2 := by
  induction levels generalizing cid content with
  | zero => exact h.elim
  | succ levels ih =>
    obtain ⟨c, bytes, hblock, h⟩ := h
    rcases h with ⟨hraw, rfl⟩ | ⟨hnode, node, parts, hdecode, -, hparts, rfl⟩
    · refine ⟨[(cid, content)], by simp, ?_⟩
      intro leaf hleaf
      rw [List.mem_singleton.1 hleaf]
      exact ⟨.refl, c, hblock, hraw⟩
    -- a node's leaves are those of its pieces, one after the other
    · have hlinked : ∀ link ∈ node.links, Linked H answers cid link.cid := by
        intro link hlink
        exact ⟨c, bytes, node, hblock, codec_of_ne_raw hblock.decodes hnode, hdecode, link, hlink, rfl⟩
      clear hdecode hnode hblock
      generalize node.links = links at hparts hlinked
      induction hparts with
      | nil => exact ⟨[], rfl, by simp⟩
      | @cons link part links parts hpart _ ihparts =>
        obtain ⟨leaves, hcontent, hleaves⟩ := ih hpart
        obtain ⟨leaves', hcontent', hleaves'⟩ := ihparts fun l hl => hlinked l (List.mem_cons_of_mem _ hl)
        refine ⟨leaves ++ leaves', ?_, ?_⟩
        · rw [List.flatten_cons, hcontent, hcontent', List.map_append, List.flatten_append]
        · intro leaf hleaf
          rcases List.mem_append.1 hleaf with hleaf | hleaf
          · exact (hleaves leaf hleaf).of_reach (.single (hlinked link List.mem_cons_self))
          · exact hleaves' leaf hleaf

/-- An entry is one of the links. -/
theorem entryOf_eq_ok {cid segment next : String} {node : DecodedNode} :
    entryOf cid segment node = .ok next ↔
      node.type = typeDirectory ∧ ∃ link, (node.links.filter fun link => link.name = segment) = [link] ∧
        link.cid = next := by
  rw [entryOf]
  by_cases htype : node.type = typeDirectory
  · rw [if_neg (not_not.2 htype)]
    cases hlinks : node.links.filter fun link => link.name = segment with
    | nil => simp
    | cons link links =>
      cases links with
      | nil => simp [htype]
      | cons => simp
  · rw [if_pos htype]
    simp [htype]

/-- A path leads to what is reached. -/
theorem Descends.reach {answers : Set Bytes} {segments : List String} {root cid : String}
    (h : Descends H answers segments root cid) : Reach H answers root cid := by
  induction segments generalizing root with
  | nil =>
    rw [show cid = root from h]
  | cons segment segments ih =>
    obtain ⟨c, bytes, node, next, hblock, hcodec, hdecode, hentry, h⟩ := h
    obtain ⟨-, link, hlink, hnext⟩ := entryOf_eq_ok.1 hentry
    have hmem : link ∈ node.links := by
      have hfilter : link ∈ node.links.filter fun link => link.name = segment := by
        rw [hlink]
        exact List.mem_singleton_self link
      exact List.mem_of_mem_filter hfilter
    exact .head ⟨c, bytes, node, hblock, hcodec, hdecode, link, hmem, hnext⟩ (ih h)

/-! ## What a step does -/

section Steps

variable {source : BlockSource σ} {s s' : σ × Budget}

theorem offline_eq_ok {α : Type} {x : Except Thrown α} {a : α} :
    outcome (offline x : Traversal σ α) s = (.ok a, s') ↔ x = .ok a ∧ s' = s := by
  cases x with
  | ok b =>
    rw [offline, outcome_pure]
    simp [eq_comm]
  | error e =>
    rw [offline, outcome_throw]
    simp

theorem keeps_offline {I : σ × Budget → Prop} {α : Type} (x : Except Thrown α) : Keeps I (offline x) := by
  cases x with
  | ok a => exact keeps_pure a
  | error e => exact keeps_throw e

/-- What counting a block does. -/
theorem outcome_spendBlock (s : σ × Budget) :
    outcome spendBlock s = (if s.2.blocks + 1 > blocksLimit then
      .error (.fetch .responseTooLarge s!"this request would fetch more than {blocksLimit} blocks") else .ok (),
      (s.1, { s.2 with blocks := s.2.blocks + 1 })) := by
  unfold spendBlock
  rw [bind_of_ok (outcome_get s), bind_of_ok (outcome_set s _)]
  split_ifs
  · rfl
  · rfl

/-- What counting bytes does. -/
theorem outcome_spendBytes (s : σ × Budget) (count : ℕ) :
    outcome (spendBytes count) s = (if s.2.bytes + count > resourceBytesLimit then
      .error (.fetch .responseTooLarge s!"a single resource is capped at {resourceBytesLimit} bytes") else .ok (),
      (s.1, { s.2 with bytes := s.2.bytes + count })) := by
  unfold spendBytes
  rw [bind_of_ok (outcome_get s), bind_of_ok (outcome_set s _)]
  split_ifs
  · rfl
  · rfl

theorem outcome_ask (s : σ × Budget) (cid : String) :
    outcome (ask source cid) s = (.ok (source.get cid s.1).1, ((source.get cid s.1).2, s.2)) := by
  unfold ask
  rw [bind_of_ok (outcome_get s)]
  rfl

theorem contentCid_eq_ok {cid : String} {c : Cid} : contentCid cid = .ok c ↔ decodeCid cid = .ok c := by
  rw [contentCid]
  cases decodeCid cid with
  | ok c' => simp
  | error e => simp

/-- When an answer is taken for a block. -/
theorem checkAnswer_eq_ok {cid : String} {answer : Option Bytes} {bytes : Bytes} :
    checkAnswer H cid answer = .ok bytes ↔ answer = some bytes ∧ bytes.length ≤ blockBytesLimit ∧
      ∃ c, decodeCid cid = .ok c ∧ Verified H c bytes := by
  cases answer with
  | none => simp [checkAnswer]
  | some answer =>
    rw [checkAnswer, Option.some.injEq]
    by_cases hlength : answer.length > blockBytesLimit
    · rw [if_pos hlength]
      simp only [reduceCtorEq, false_iff, not_and]
      intro heq hle
      rw [← heq] at hle
      omega
    · rw [if_neg hlength, Except.bind_eq_ok]
      constructor
      · rintro ⟨c, hc, h⟩
        split_ifs at h with hdigest
        · rw [Except.pure_eq_ok, Except.ok.injEq] at h
          rw [← h]
          exact ⟨rfl, Nat.not_lt.1 hlength, c, contentCid_eq_ok.1 hc, hdigest⟩
      · rintro ⟨rfl, -, c, hc, hverified⟩
        exact ⟨c, contentCid_eq_ok.2 hc, if_pos hverified⟩

/-- The state after a fetch that the budget allows. -/
def asked (source : BlockSource σ) (cid : String) (s : σ × Budget) : σ × Budget :=
  ((source.get cid s.1).2, { s.2 with blocks := s.2.blocks + 1 })

/-- A fetch beyond the budget throws before it asks. -/
theorem fetchVerified_beyond {cid : String} (h : s.2.blocks + 1 > blocksLimit) :
    outcome (fetchVerified H source cid) s = (.error (.fetch .responseTooLarge
      s!"this request would fetch more than {blocksLimit} blocks"), (s.1, { s.2 with blocks := s.2.blocks + 1 })) := by
  have hspend := outcome_spendBlock s
  rw [if_pos h] at hspend
  rw [fetchVerified, bind_of_error hspend]

/-- Fetching a block while the budget lasts. -/
theorem fetchVerified_within {cid : String} (h : s.2.blocks + 1 ≤ blocksLimit) :
    outcome (fetchVerified H source cid) s =
      outcome (offline (checkAnswer H cid (source.get cid s.1).1)) (asked source cid s) := by
  have hspend := outcome_spendBlock s
  rw [if_neg (Nat.not_lt.2 h)] at hspend
  rw [fetchVerified, bind_of_ok hspend, bind_of_ok (outcome_ask _ _)]
  rfl

/-- **When one block is handed on.** -/
theorem fetchVerified_eq_ok {cid : String} {bytes : Bytes} :
    outcome (fetchVerified H source cid) s = (.ok bytes, s') ↔
      s.2.blocks + 1 ≤ blocksLimit ∧ (source.get cid s.1).1 = some bytes ∧ bytes.length ≤ blockBytesLimit ∧
        (∃ c, decodeCid cid = .ok c ∧ Verified H c bytes) ∧ s' = asked source cid s := by
  by_cases hblocks : s.2.blocks + 1 ≤ blocksLimit
  · rw [fetchVerified_within hblocks, offline_eq_ok, checkAnswer_eq_ok]
    tauto
  · rw [fetchVerified_beyond (Nat.not_le.1 hblocks)]
    simp [hblocks]

/-- What is read of one block decides how a file goes on. -/
theorem fetchLevels_eq_ok {levels : ℕ} {cid : String} {content : Bytes} :
    outcome (fetchLevels H source (levels + 1) cid) s = (.ok content, s') ↔
      ∃ bytes s₁ c, outcome (fetchVerified H source cid) s = (.ok bytes, s₁) ∧ decodeCid cid = .ok c ∧
        ((c.codec = codecRaw ∧ s₁.2.bytes + bytes.length ≤ resourceBytesLimit ∧ content = bytes ∧
            s' = (s₁.1, { s₁.2 with bytes := s₁.2.bytes + bytes.length })) ∨
          (c.codec ≠ codecRaw ∧ ∃ node parts, decodeNode bytes = .ok node ∧ checkFile cid node = .ok () ∧
            outcome ((node.links.zip node.blocksizes).zipIdx.mapM
              (fetchChunk (fetchLevels H source levels) cid)) s₁ = (.ok parts, s') ∧
            checkTotal cid node parts.flatten = .ok () ∧ content = parts.flatten)) := by
  rw [fetchLevels, bind_eq_ok]
  apply exists_congr
  intro bytes
  apply exists_congr
  intro s₁
  rw [bind_eq_ok]
  simp only [offline_eq_ok, contentCid_eq_ok]
  constructor
  · rintro ⟨hfetch, c, s₂, ⟨hc, rfl⟩, h⟩
    refine ⟨c, hfetch, hc, ?_⟩
    -- a raw leaf is charged against the bytes of the request, a node against its links' blocks
    by_cases hraw : c.codec = codecRaw
    · rw [if_pos hraw, bind_eq_ok] at h
      obtain ⟨_, s₃, hspend, h⟩ := h
      rw [outcome_spendBytes] at hspend
      rw [outcome_pure, Prod.mk.injEq, Except.ok.injEq] at h
      split_ifs at hspend with hover
      · simp at hspend
      · rw [Prod.mk.injEq] at hspend
        refine Or.inl ⟨hraw, Nat.not_lt.1 hover, h.1.symm, ?_⟩
        rw [← h.2, ← hspend.2]
    · rw [if_neg hraw] at h
      simp only [bind_eq_ok, offline_eq_ok, outcome_pure, Prod.mk.injEq, Except.ok.injEq] at h
      obtain ⟨node, _, ⟨hdecode, rfl⟩, _, _, ⟨hfile, rfl⟩, parts, s₄, hparts, _, _, ⟨htotal, rfl⟩, hcontent, rfl⟩ := h
      exact Or.inr ⟨hraw, node, parts, hdecode, hfile, hparts, htotal, hcontent.symm⟩
  · rintro ⟨c, hfetch, hc, h⟩
    refine ⟨hfetch, c, s₁, ⟨hc, rfl⟩, ?_⟩
    rcases h with ⟨hraw, hwithin, rfl, rfl⟩ | ⟨hraw, node, parts, hdecode, hfile, hparts, htotal, rfl⟩
    · have hspend := outcome_spendBytes s₁ content.length
      rw [if_neg (Nat.not_lt.2 hwithin)] at hspend
      rw [if_pos hraw, bind_of_ok hspend, outcome_pure]
    · rw [if_neg hraw]
      simp only [bind_eq_ok, offline_eq_ok, outcome_pure, Prod.mk.injEq, Except.ok.injEq]
      exact ⟨node, s₁, ⟨hdecode, rfl⟩, (), s₁, ⟨hfile, rfl⟩, parts, s', hparts, (), s', ⟨htotal, rfl⟩, rfl, rfl⟩

/-- When a node is a file whose chunks are fetched. -/
theorem checkFile_eq_ok {cid : String} {node : DecodedNode} :
    checkFile cid node = .ok () ↔ node.type = typeFile ∧ node.blocksizes.length = node.links.length := by
  have hne : (typeFile : ℤ) ≠ typeDirectory := by decide
  rw [checkFile]
  by_cases htype : node.type = typeFile
  · rw [if_neg (by rw [htype]; exact hne), if_neg (not_not.2 htype)]
    by_cases hlength : node.blocksizes.length = node.links.length
    · simp [htype, hlength]
    · simp [hlength]
  · split_ifs
    · simp [htype]
    · simp [htype]

/-- When a chunk is taken. -/
theorem fetchChunk_eq_ok {fetch : String → Traversal σ Bytes} {cid : String} {entry : (DecodedLink × ℕ) × ℕ}
    {part : Bytes} :
    outcome (fetchChunk fetch cid entry) s = (.ok part, s') ↔
      outcome (fetch entry.1.1.cid) s = (.ok part, s') ∧ part.length = entry.1.2 := by
  have hcheck : ∀ part : Bytes, checkChunk cid entry.2 entry.1.2 part = .ok () ↔ part.length = entry.1.2 := by
    intro part
    rw [checkChunk]
    split_ifs with hlength
    · simp [hlength]
    · simp [not_not.1 hlength]
  rw [fetchChunk]
  simp only [bind_eq_ok, offline_eq_ok, outcome_pure, Prod.mk.injEq, Except.ok.injEq, hcheck]
  constructor
  · rintro ⟨_, s₁, hfetch, _, _, ⟨hlength, rfl⟩, rfl, rfl⟩
    exact ⟨hfetch, hlength⟩
  · rintro ⟨hfetch, hlength⟩
    exact ⟨part, s', hfetch, (), s', ⟨hlength, rfl⟩, rfl, rfl⟩

/-- When a walk goes on along one segment. -/
theorem descend_cons_eq_ok {cid segment target : String} {index : ℕ} {segments : List String} :
    outcome (descend H source cid index (segment :: segments)) s = (.ok target, s') ↔
      index ≤ depthLimit ∧ ∃ bytes s₁ c node next, outcome (fetchVerified H source cid) s = (.ok bytes, s₁) ∧
        decodeCid cid = .ok c ∧ c.codec = codecDagPb ∧ decodeNode bytes = .ok node ∧
        entryOf cid segment node = .ok next ∧
        outcome (descend H source next (index + 1) segments) s₁ = (.ok target, s') := by
  rw [descend]
  -- one step too deep fails before the block is asked for
  by_cases hindex : index > depthLimit
  · simp only [hindex, if_true]
    rw [bind_of_error (outcome_throw _ _)]
    simp only [Prod.mk.injEq, reduceCtorEq, false_and, false_iff, not_and]
    intro hle
    omega
  · simp only [hindex, if_false]
    rw [bind_eq_ok]
    simp only [Nat.not_lt.1 hindex, true_and]
    apply exists_congr
    intro bytes
    apply exists_congr
    intro s₁
    rw [bind_eq_ok]
    simp only [offline_eq_ok, contentCid_eq_ok]
    constructor
    · rintro ⟨hfetch, c, s₂, ⟨hc, rfl⟩, h⟩
      by_cases hcodec : c.codec = codecDagPb
      · simp only [hcodec, ne_eq, not_true_eq_false, if_false] at h
        simp only [bind_eq_ok, offline_eq_ok] at h
        obtain ⟨node, _, ⟨hdecode, rfl⟩, next, _, ⟨hentry, rfl⟩, h⟩ := h
        exact ⟨c, node, next, hfetch, hc, hcodec, hdecode, hentry, h⟩
      · simp only [hcodec, ne_eq, not_false_eq_true, if_true] at h
        rw [bind_of_error (outcome_throw _ _)] at h
        simp at h
    · rintro ⟨c, node, next, hfetch, hc, hcodec, hdecode, hentry, h⟩
      refine ⟨hfetch, c, s₁, ⟨hc, rfl⟩, ?_⟩
      simp only [hcodec, ne_eq, not_true_eq_false, if_false, bind_eq_ok, offline_eq_ok]
      exact ⟨node, s₁, ⟨hdecode, rfl⟩, next, s₁, ⟨hentry, rfl⟩, h⟩

end Steps

/-! ## Invariants of a traversal -/

section Invariants

variable {source : BlockSource σ} {I : σ × Budget → Prop}

/-- Fetching a file keeps what fetching blocks keeps. -/
theorem keeps_fetchLevels (hblock : ∀ cid, Keeps I (fetchVerified H source cid)) (hbytes : ∀ n, Keeps I (spendBytes n))
    (levels : ℕ) (cid : String) : Keeps I (fetchLevels H source levels cid) := by
  induction levels generalizing cid with
  | zero => exact keeps_throw _
  | succ levels ih =>
    rw [fetchLevels]
    apply (hblock cid).bind
    intro bytes
    refine (keeps_offline _).bind ?_
    intro c
    split_ifs
    · apply (hbytes _).bind
      intro _
      exact keeps_pure _
    · refine (keeps_offline _).bind ?_
      intro node
      refine (keeps_offline _).bind ?_
      intro _
      have hchunk : ∀ entry ∈ (node.links.zip node.blocksizes).zipIdx,
          Keeps I (fetchChunk (fetchLevels H source levels) cid entry) := by
        intro entry _
        apply (ih entry.1.1.cid).bind
        intro part
        refine (keeps_offline _).bind ?_
        intro _
        exact keeps_pure _
      apply (keeps_mapM hchunk).bind
      intro parts
      refine (keeps_offline _).bind ?_
      intro _
      exact keeps_pure _

/-- Walking a path keeps what fetching blocks keeps. -/
theorem keeps_descend (hblock : ∀ cid, Keeps I (fetchVerified H source cid)) (segments : List String) (cid : String)
    (index : ℕ) : Keeps I (descend H source cid index segments) := by
  induction segments generalizing cid index with
  | nil => exact keeps_pure _
  | cons segment segments ih =>
    rw [descend]
    split_ifs
    · exact keeps_throw_bind _ _
    · apply (hblock cid).bind
      intro bytes
      refine (keeps_offline _).bind ?_
      intro c
      split_ifs
      · exact keeps_throw_bind _ _
      · refine (keeps_offline _).bind ?_
        intro node
        refine (keeps_offline _).bind ?_
        intro next
        exact ih next (index + 1)

/-- The traversal behind `fetchPath`. -/
theorem fetchPath_eq (root path : String) (s : σ) :
    fetchPath H source root path s = outcome (do
      offline ((segmentsOf path).forM checkSegment)
      let cid ← descend H source root 0 (segmentsOf path)
      fetchFile H source cid (segmentsOf path).length) (s, .fresh) := rfl

/-- **An invariant of the single fetches is one of the traversal.** -/
theorem keeps_fetchPath (hblock : ∀ cid, Keeps I (fetchVerified H source cid)) (hbytes : ∀ n, Keeps I (spendBytes n))
    (root path : String) {s : σ} (hs : I (s, .fresh)) : I (fetchPath H source root path s).2 := by
  have hkeeps : Keeps I (do
      offline ((segmentsOf path).forM checkSegment)
      let cid ← descend H source root 0 (segmentsOf path)
      fetchFile H source cid (segmentsOf path).length) := by
    refine (keeps_offline _).bind ?_
    intro _
    apply (keeps_descend hblock _ _ _).bind
    intro cid
    exact keeps_fetchLevels hblock hbytes _ cid
  exact hkeeps _ hs

end Invariants

end VayuWeb.Fetch
