import VayuWeb.Base.Import
import VayuWeb.Proof.Fetch

/-!
# What a root names does not depend on the peer

Of every traversal the calls of `source.get` and their answers are written down. What the
traversal returns is the meaning of the root over these answers.

* `fetchPath_recorded`: writing down changes nothing else.
* `content_of_fetchPath`: what is returned is the meaning over the answers.
* `calls_le`, `content_determined`: the bounds, and that two sources do not differ.
-/

namespace VayuWeb.Fetch

open Bytes Content Trial
open Unixfs (typeFile typeDirectory)

variable {σ : Type} {H : ContentHash} {source : BlockSource σ}

/-! ## Calls -/

/-- Calls of `source.get` with their answers, in order. -/
abbrev Calls := List (String × Option Bytes)

/-- The source, and what is asked of it. -/
def recorded (source : BlockSource σ) : BlockSource (σ × Calls) where
  get cid s := ((source.get cid s.1).1, ((source.get cid s.1).2, s.2 ++ [(cid, (source.get cid s.1).1)]))

/-- The calls that `fetchPath` makes. -/
def callsOf (H : ContentHash) (source : BlockSource σ) (root path : String) (s : σ) : Calls :=
  (fetchPath H (recorded source) root path (s, [])).2.1.2

/-- The blocks among the answers. -/
def blocksIn (calls : Calls) : Set Bytes := { bytes | ∃ cid, (cid, some bytes) ∈ calls }

/-- The blocks that are answered to `fetchPath`. -/
def answersTo (H : ContentHash) (source : BlockSource σ) (root path : String) (s : σ) : Set Bytes :=
  blocksIn (callsOf H source root path s)

theorem blocksIn_append_left (calls calls' : Calls) : blocksIn calls ⊆ blocksIn (calls ++ calls') := by
  rintro bytes ⟨cid, hmem⟩
  exact ⟨cid, List.mem_append_left _ hmem⟩

/-- The state without the record. -/
def bare (s : (σ × Calls) × Budget) : σ × Budget := (s.1.1, s.2)

theorem lifts_offline {α : Type} (x : Except Thrown α) :
    Lifts bare (offline x : Traversal σ α) (offline x : Traversal (σ × Calls) α) := by
  cases x with
  | ok a => exact lifts_pure a
  | error e => exact lifts_throw e

theorem lifts_spendBytes (n : ℕ) : Lifts bare (spendBytes n : Traversal σ Unit) (spendBytes n) := by
  intro t
  rw [outcome_spendBytes, outcome_spendBytes]
  rfl

/-- Recording the answers changes no fetch of a block. -/
theorem lifts_fetchVerified (cid : String) :
    Lifts bare (fetchVerified H source cid) (fetchVerified H (recorded source) cid) := by
  intro t
  by_cases hblocks : t.2.blocks + 1 ≤ blocksLimit
  · rw [fetchVerified_within hblocks, fetchVerified_within (show (bare t).2.blocks + 1 ≤ blocksLimit from hblocks)]
    exact lifts_offline _ (asked (recorded source) cid t)
  · rw [fetchVerified_beyond (Nat.not_le.1 hblocks),
      fetchVerified_beyond (show (bare t).2.blocks + 1 > blocksLimit from Nat.not_le.1 hblocks)]
    rfl

/-- Recording the answers changes no fetch of a file. -/
theorem lifts_fetchLevels (levels : ℕ) (cid : String) :
    Lifts bare (fetchLevels H source levels cid) (fetchLevels H (recorded source) levels cid) := by
  induction levels generalizing cid with
  | zero => exact lifts_throw _
  | succ levels ih =>
    rw [fetchLevels, fetchLevels]
    apply (lifts_fetchVerified cid).bind
    intro bytes
    refine (lifts_offline _).bind ?_
    intro c
    split_ifs
    · apply (lifts_spendBytes _).bind
      intro _
      exact lifts_pure _
    · refine (lifts_offline _).bind ?_
      intro node
      refine (lifts_offline _).bind ?_
      intro _
      have hchunk : ∀ entry, Lifts bare (fetchChunk (fetchLevels H source levels) cid entry)
          (fetchChunk (fetchLevels H (recorded source) levels) cid entry) := by
        intro entry
        apply (ih entry.1.1.cid).bind
        intro part
        refine (lifts_offline _).bind ?_
        intro _
        exact lifts_pure _
      apply (lifts_mapM hchunk _).bind
      intro parts
      refine (lifts_offline _).bind ?_
      intro _
      exact lifts_pure _

/-- Recording the answers changes no walk along a path. -/
theorem lifts_descend (segments : List String) (cid : String) (index : ℕ) :
    Lifts bare (descend H source cid index segments) (descend H (recorded source) cid index segments) := by
  induction segments generalizing cid index with
  | nil => exact lifts_pure _
  | cons segment segments ih =>
    rw [descend, descend]
    split_ifs
    · exact lifts_throw_bind _ _ _
    · apply (lifts_fetchVerified cid).bind
      intro bytes
      refine (lifts_offline _).bind ?_
      intro c
      split_ifs
      · exact lifts_throw_bind _ _ _
      · refine (lifts_offline _).bind ?_
        intro node
        refine (lifts_offline _).bind ?_
        intro next
        exact ih next (index + 1)

/-- **Writing down changes nothing else.** -/
theorem fetchPath_recorded (root path : String) (s : σ) :
    (fetchPath H (recorded source) root path (s, [])).1 = (fetchPath H source root path s).1 := by
  have hlifts : Lifts bare (do
      offline ((segmentsOf path).forM checkSegment)
      let cid ← descend H source root 0 (segmentsOf path)
      fetchFile H source cid (segmentsOf path).length) (do
      offline ((segmentsOf path).forM checkSegment)
      let cid ← descend H (recorded source) root 0 (segmentsOf path)
      fetchFile H (recorded source) cid (segmentsOf path).length) := by
    refine (lifts_offline _).bind ?_
    intro _
    apply (lifts_descend _ _ _).bind
    intro cid
    exact lifts_fetchLevels _ cid
  rw [fetchPath_eq, fetchPath_eq, show (s, Budget.fresh) = bare ((s, []), .fresh) from rfl, hlifts]

/-! ## The bounds -/

/-- Never more calls than blocks spent, and no more of these than the budget has. -/
def Bounded (s : (σ × Calls) × Budget) : Prop := s.1.2.length ≤ s.2.blocks ∧ s.1.2.length ≤ blocksLimit

/-- Fetching a block keeps the record of answers bounded. -/
theorem keeps_bounded_fetchVerified (cid : String) : Keeps Bounded (fetchVerified H (recorded source) cid) := by
  intro s hs
  by_cases hblocks : s.2.blocks + 1 ≤ blocksLimit
  · rw [fetchVerified_within hblocks]
    have hasked : Bounded (asked (recorded source) cid s) := by
      have hlength : (asked (recorded source) cid s).1.2.length = s.1.2.length + 1 := List.length_append
      refine ⟨?_, ?_⟩
      · rw [hlength]
        exact Nat.succ_le_succ hs.1
      · rw [hlength]
        exact Nat.le_trans (Nat.succ_le_succ hs.1) hblocks
    exact keeps_offline _ _ hasked
  · rw [fetchVerified_beyond (Nat.not_le.1 hblocks)]
    exact ⟨Nat.le_succ_of_le hs.1, hs.2⟩

theorem keeps_bounded_spendBytes (n : ℕ) : Keeps (Bounded (σ := σ)) (spendBytes n) := by
  intro s hs
  rw [outcome_spendBytes]
  exact hs

/-- **At most `FETCH_LIMITS.blocks` calls**, whatever the source answers. -/
theorem calls_le (root path : String) (s : σ) : (callsOf H source root path s).length ≤ blocksLimit :=
  (keeps_fetchPath keeps_bounded_fetchVerified keeps_bounded_spendBytes root path
    (show Bounded ((s, []), Budget.fresh) from ⟨Nat.zero_le _, Nat.zero_le _⟩)).2

/-! ## What is returned -/

/-- So far answered: `blocks` among the calls. -/
def Answered (blocks : Set Bytes) (s : (σ × Calls) × Budget) : Prop := blocks ⊆ blocksIn s.1.2

/-- Fetching a block records what was answered. -/
theorem keeps_answered_fetchVerified (blocks : Set Bytes) (cid : String) :
    Keeps (Answered blocks) (fetchVerified H (recorded source) cid) := by
  intro s hs
  by_cases hblocks : s.2.blocks + 1 ≤ blocksLimit
  · rw [fetchVerified_within hblocks]
    have hasked : Answered blocks (asked (recorded source) cid s) :=
      hs.trans (blocksIn_append_left s.1.2 _)
    exact keeps_offline _ _ hasked
  · rw [fetchVerified_beyond (Nat.not_le.1 hblocks)]
    exact hs

theorem keeps_answered_spendBytes (blocks : Set Bytes) (n : ℕ) : Keeps (Answered (σ := σ) blocks) (spendBytes n) := by
  intro s hs
  rw [outcome_spendBytes]
  exact hs

/-- Fetching a file records what was answered. -/
theorem keeps_answered_fetchLevels (blocks : Set Bytes) (levels : ℕ) (cid : String) :
    Keeps (Answered blocks) (fetchLevels H (recorded source) levels cid) :=
  keeps_fetchLevels (keeps_answered_fetchVerified blocks) (keeps_answered_spendBytes blocks) levels cid

theorem keeps_answered_chunks (blocks : Set Bytes) (levels : ℕ) (cid : String)
    (entries : List ((DecodedLink × ℕ) × ℕ)) :
    Keeps (Answered blocks) (entries.mapM (fetchChunk (fetchLevels H (recorded source) levels) cid)) := by
  apply keeps_mapM
  intro entry _
  apply (keeps_answered_fetchLevels blocks levels entry.1.1.cid).bind
  intro part
  refine (keeps_offline _).bind ?_
  intro _
  exact keeps_pure _

variable {s s' : (σ × Calls) × Budget} {answers : Set Bytes}

/-- A block that is handed on is among the answers. -/
theorem block_of_fetchVerified {cid : String} {c : Cid} {bytes : Bytes}
    (h : outcome (fetchVerified H (recorded source) cid) s = (.ok bytes, s')) (hc : decodeCid cid = .ok c)
    (hanswers : blocksIn s'.1.2 ⊆ answers) : VerifiedBlock H answers cid c bytes := by
  obtain ⟨-, hanswer, -, ⟨c', hc', hverified⟩, rfl⟩ := fetchVerified_eq_ok.1 h
  rw [hc, Except.ok.injEq] at hc'
  rw [← hc'] at hverified
  have hmem : bytes ∈ blocksIn (asked (recorded source) cid s).1.2 := by
    refine ⟨cid, List.mem_append_right _ ?_⟩
    rw [List.mem_singleton]
    exact Prod.ext rfl hanswer.symm
  exact ⟨hanswers hmem, hc, hverified⟩

/-- The loop over the chunks, from what each fetch of a chunk gives. -/
theorem chunks_of_mapM {levels : ℕ} {cid : String}
    (hfetch : ∀ {link : DecodedLink} {part : Bytes} {s s' : (σ × Calls) × Budget},
      outcome (fetchLevels H (recorded source) levels link.cid) s = (.ok part, s') → blocksIn s'.1.2 ⊆ answers →
        Assembles H answers levels link.cid part ∧ s'.2.bytes = s.2.bytes + part.length ∧
          (s.2.bytes ≤ resourceBytesLimit → s'.2.bytes ≤ resourceBytesLimit))
    {entries : List ((DecodedLink × ℕ) × ℕ)} {parts : List Bytes}
    (h : outcome (entries.mapM (fetchChunk (fetchLevels H (recorded source) levels) cid)) s = (.ok parts, s'))
    (hanswers : blocksIn s'.1.2 ⊆ answers) :
    List.Forall₂ (fun entry part => Assembles H answers levels entry.1.1.cid part) entries parts ∧
      s'.2.bytes = s.2.bytes + parts.flatten.length ∧
      (s.2.bytes ≤ resourceBytesLimit → s'.2.bytes ≤ resourceBytesLimit) := by
  induction entries generalizing s parts with
  | nil =>
    rw [List.mapM_nil, outcome_pure, Prod.mk.injEq, Except.ok.injEq] at h
    rw [← h.1, ← h.2]
    exact ⟨.nil, rfl, id⟩
  | cons entry entries ih =>
    obtain ⟨part, s₁, rest, hpart, hrest, rfl⟩ := mapM_cons_eq_ok.1 h
    -- what the first turn was answered is among the answers at the end
    have hkept : blocksIn s₁.1.2 ⊆ blocksIn s'.1.2 :=
      (keeps_answered_chunks _ levels cid entries).of_ok (Set.Subset.refl _) hrest
    obtain ⟨hassembles, hbytes, hbound⟩ := hfetch (fetchChunk_eq_ok.1 hpart).1 (hkept.trans hanswers)
    obtain ⟨hassemblesRest, hbytesRest, hboundRest⟩ := ih hrest
    refine ⟨.cons hassembles hassemblesRest, ?_, fun hle => hboundRest (hbound hle)⟩
    rw [List.flatten_cons, List.length_append, hbytesRest, hbytes]
    omega

/-- **A file that is returned is the meaning of its CID over the answers**, and its bytes are on the
budget. -/
theorem content_of_fetchLevels {levels : ℕ} {cid : String} {content : Bytes}
    (h : outcome (fetchLevels H (recorded source) levels cid) s = (.ok content, s'))
    (hanswers : blocksIn s'.1.2 ⊆ answers) :
    Assembles H answers levels cid content ∧ s'.2.bytes = s.2.bytes + content.length ∧
      (s.2.bytes ≤ resourceBytesLimit → s'.2.bytes ≤ resourceBytesLimit) := by
  induction levels generalizing cid content s s' with
  | zero =>
    rw [fetchLevels, outcome_throw] at h
    simp at h
  | succ levels ih =>
    obtain ⟨bytes, s₁, c, hfetch, hc, h⟩ := fetchLevels_eq_ok.1 h
    have hspent : s₁.2.bytes = s.2.bytes := by
      obtain ⟨-, -, -, -, rfl⟩ := fetchVerified_eq_ok.1 hfetch
      rfl
    rcases h with ⟨hraw, hwithin, rfl, rfl⟩ | ⟨hraw, node, parts, hdecode, hfile, hparts, -, rfl⟩
    · have hblock := block_of_fetchVerified hfetch hc hanswers
      refine ⟨⟨c, content, hblock, Or.inl ⟨hraw, rfl⟩⟩, ?_, fun _ => hwithin⟩
      rw [← hspent]
    -- the blocks of the pieces are among the answers that the whole fetch left
    · have hkept : blocksIn s₁.1.2 ⊆ blocksIn s'.1.2 :=
        (keeps_answered_chunks _ levels cid _).of_ok (Set.Subset.refl _) hparts
      have hblock := block_of_fetchVerified hfetch hc (hkept.trans hanswers)
      obtain ⟨hassembles, hbytes, hbound⟩ := chunks_of_mapM ih hparts hanswers
      have hchecked := checkFile_eq_ok.1 hfile
      refine ⟨⟨c, bytes, hblock, Or.inr ⟨hraw, node, parts, hdecode, hchecked.1, ?_, rfl⟩⟩, ?_, ?_⟩
      · have hlinks : (node.links.zip node.blocksizes).zipIdx.map (fun entry => entry.1.1) = node.links := by
          rw [show (fun entry : (DecodedLink × ℕ) × ℕ => entry.1.1) = Prod.fst ∘ Prod.fst from rfl, ← List.map_map,
            List.zipIdx_map_fst, List.map_fst_zip (Nat.le_of_eq hchecked.2.symm)]
        rw [← hlinks, List.forall₂_map_left_iff]
        exact hassembles
      · rw [hbytes, hspent]
      · rw [← hspent]
        exact hbound

/-- **A path that is descended is the meaning of the segments over the answers.** -/
theorem descends_of_descend {segments : List String} {root cid : String} {index : ℕ}
    (h : outcome (descend H (recorded source) root index segments) s = (.ok cid, s'))
    (hanswers : blocksIn s'.1.2 ⊆ answers) :
    Descends H answers segments root cid ∧ s'.2.bytes = s.2.bytes := by
  induction segments generalizing root index s with
  | nil =>
    rw [descend, outcome_pure, Prod.mk.injEq, Except.ok.injEq] at h
    rw [← h.1, ← h.2]
    exact ⟨rfl, rfl⟩
  | cons segment segments ih =>
    obtain ⟨-, bytes, s₁, c, node, next, hfetch, hc, hcodec, hdecode, hentry, h⟩ := descend_cons_eq_ok.1 h
    have hkept : blocksIn s₁.1.2 ⊆ blocksIn s'.1.2 :=
      (keeps_descend (keeps_answered_fetchVerified _) segments next (index + 1)).of_ok (Set.Subset.refl _) h
    have hblock := block_of_fetchVerified hfetch hc (hkept.trans hanswers)
    obtain ⟨hdescends, hbytes⟩ := ih h
    refine ⟨⟨c, bytes, node, next, hblock, hcodec, hdecode, hentry, hdescends⟩, ?_⟩
    obtain ⟨-, -, -, -, rfl⟩ := fetchVerified_eq_ok.1 hfetch
    exact hbytes

/-- **What is returned is the meaning of root and path over the answers.** -/
theorem content_of_fetchPath {root path : String} {s : σ} {content : Bytes}
    (h : (fetchPath H source root path s).1 = .ok content) :
    content.length ≤ resourceBytesLimit ∧ ∃ cid levels,
      Descends H (answersTo H source root path s) (segmentsOf path) root cid ∧
      Assembles H (answersTo H source root path s) levels cid content := by
  have hrun : outcome (do
      offline ((segmentsOf path).forM checkSegment)
      let cid ← descend H (recorded source) root 0 (segmentsOf path)
      fetchFile H (recorded source) cid (segmentsOf path).length) ((s, []), .fresh) =
      (.ok content, (fetchPath H (recorded source) root path (s, [])).2) := by
    rw [← fetchPath_eq, ← h, ← fetchPath_recorded]
  obtain ⟨_, s₀, hcheck, hrun⟩ := bind_eq_ok.1 hrun
  obtain ⟨-, rfl⟩ := offline_eq_ok.1 hcheck
  obtain ⟨cid, s₁, hdescend, hfile⟩ := bind_eq_ok.1 hrun
  have hkept : blocksIn s₁.1.2 ⊆ answersTo H source root path s :=
    (keeps_answered_fetchLevels _ _ cid).of_ok (Set.Subset.refl _) hfile
  obtain ⟨hdescends, hspent⟩ := descends_of_descend hdescend hkept
  obtain ⟨hassembles, hbytes, hbound⟩ := content_of_fetchLevels hfile (Set.Subset.refl _)
  have hle := hbound (by rw [hspent]; exact Nat.zero_le _)
  refine ⟨?_, cid, _, hdescends, hassembles⟩
  rw [hbytes] at hle
  omega

/-- **Content is determined by the root, not by the peer.** Two sources among whose answers no two
blocks have one digest do not return different bytes. What is returned is in order the raw blocks
of links that the root reaches, within the resource's bound, and the calls are bounded on every
source. -/
theorem content_determined {σ₁ σ₂ : Type} (H : ContentHash) (source₁ : BlockSource σ₁) (source₂ : BlockSource σ₂)
    (root path : String) (s₁ : σ₁) (s₂ : σ₂) :
    (∀ x y, Set.InjOn H.sha256 (answersTo H source₁ root path s₁ ∪ answersTo H source₂ root path s₂) →
      (fetchPath H source₁ root path s₁).1 = .ok x → (fetchPath H source₂ root path s₂).1 = .ok y → x = y) ∧
    (∀ x, (fetchPath H source₁ root path s₁).1 = .ok x →
      x.length ≤ resourceBytesLimit ∧ ∃ leaves : List (String × Bytes), x = (leaves.map (·.2)).flatten ∧
        ∀ leaf ∈ leaves, Leaf H (answersTo H source₁ root path s₁) root leaf.1 leaf.2) ∧
    (callsOf H source₁ root path s₁).length ≤ blocksLimit := by
  refine ⟨?_, ?_, calls_le root path s₁⟩
  · intro x y hinj hx hy
    obtain ⟨-, cid, levels, hdescends, hassembles⟩ := content_of_fetchPath hx
    obtain ⟨-, cid', levels', hdescends', hassembles'⟩ := content_of_fetchPath hy
    have hcid := (hdescends.mono Set.subset_union_left).unique hinj (hdescends'.mono Set.subset_union_right)
    rw [← hcid] at hassembles'
    exact (hassembles.mono Set.subset_union_left).unique hinj (hassembles'.mono Set.subset_union_right)
  · intro x hx
    obtain ⟨hle, cid, levels, hdescends, hassembles⟩ := content_of_fetchPath hx
    obtain ⟨leaves, hcontent, hleaves⟩ := hassembles.leaves
    refine ⟨hle, leaves, hcontent, ?_⟩
    intro leaf hleaf
    exact (hleaves leaf hleaf).of_reach hdescends.reach

/-! ## A site of one file -/

namespace OneFile

/-- A file of one chunk. -/
def leafBlock : Bytes := [0x68, 0x69]

/-- A directory of that one file. -/
def rootBlock : Bytes :=
  [0x12, 0x2b, 0x0a, 0x24, 0x01, 0x55, 0x12, 0x20, 0x8f, 0x43, 0x43, 0x46, 0x64, 0x8f, 0x6b, 0x96,
   0xdf, 0x89, 0xdd, 0xa9, 0x01, 0xc5, 0x17, 0x6b, 0x10, 0xa6, 0xd8, 0x39, 0x61, 0xdd, 0x3c, 0x1a,
   0xc8, 0x8b, 0x59, 0xb2, 0xdc, 0x32, 0x7a, 0xa4, 0x12, 0x01, 0x61, 0x18, 0x02, 0x0a, 0x02, 0x08,
   0x01]

/-- The CID of the file. -/
def leafCid : String := "bafkreiepinbumzepnoln7co5vea4kf3lcctnqolb3u6bvsellgznymt2uq"

/-- The CID of the directory. -/
def rootCid : String := "bafybeicje2tlcxm5kpljtfelvwim4rb44gftddp2qfh3ksfxf42nuxhxsa"

/-- The digest of the file. -/
def leafDigest : Digest :=
  ⟨[0x8f, 0x43, 0x43, 0x46, 0x64, 0x8f, 0x6b, 0x96, 0xdf, 0x89, 0xdd, 0xa9, 0x01, 0xc5, 0x17, 0x6b,
    0x10, 0xa6, 0xd8, 0x39, 0x61, 0xdd, 0x3c, 0x1a, 0xc8, 0x8b, 0x59, 0xb2, 0xdc, 0x32, 0x7a, 0xa4], by decide⟩

/-- The digest of the directory. -/
def rootDigest : Digest :=
  ⟨[0x49, 0x26, 0xa6, 0xb1, 0x5d, 0x9d, 0x53, 0xd6, 0x99, 0x94, 0x8b, 0xad, 0x90, 0xce, 0x44, 0x3c,
    0xe1, 0x8b, 0x31, 0x8d, 0xfa, 0x81, 0x4f, 0xb5, 0x48, 0xb7, 0x2f, 0x34, 0xda, 0x5c, 0xf7, 0x90], by decide⟩

/-- SHA-256 on the two blocks. -/
def hash : ContentHash where
  sha256 bytes := if bytes = leafBlock then leafDigest else rootDigest

/-- The blocks of the site. -/
def blocks : List Unixfs.Block := [⟨leafCid, leafBlock⟩, ⟨rootCid, rootBlock⟩]

/-- A peer that answers rubbish from its third call on. -/
def peer : BlockSource ℕ where
  get cid n := (if n < 2 then ((blockSourceOf blocks).get cid ()).1 else some [], n + 1)

/-- What each of the two sources is asked. -/
def calls : Calls := [(rootCid, some rootBlock), (leafCid, some leafBlock)]

theorem injOn_calls : Set.InjOn hash.sha256 (blocksIn calls) := by
  have hmem : ∀ bytes ∈ blocksIn calls, bytes ∈ [rootBlock, leafBlock] := by
    rintro bytes ⟨cid, hcall⟩
    rcases List.mem_cons.1 hcall with hcall | hcall
    · exact List.mem_pair.2 (Or.inl (Option.some.inj (Prod.mk.inj hcall).2))
    · exact List.mem_pair.2 (Or.inr (Option.some.inj (Prod.mk.inj (List.mem_singleton.1 hcall)).2))
  exact Site.injOn_of_nodup hmem (by decide)

end OneFile

/-! ## A site of two files -/

namespace TwoFiles

/-- The content of the first file. -/
def first : Bytes := [0x68, 0x69]

/-- The content of the second file. -/
def second : Bytes := [0x79, 0x6f]

/-- The directory of the second file. -/
def innerBlock : Bytes :=
  [0x12, 0x2b, 0x0a, 0x24, 0x01, 0x55, 0x12, 0x20, 0xe9, 0x05, 0x8a, 0xb1, 0x98, 0xf6, 0x90, 0x8f,
   0x70, 0x21, 0x11, 0xb0, 0xc0, 0xfb, 0x5b, 0x36, 0xf9, 0x9d, 0x00, 0x55, 0x45, 0x21, 0x88, 0x6c,
   0x40, 0xe2, 0x89, 0x1b, 0x34, 0x9d, 0xc7, 0xa1, 0x12, 0x01, 0x62, 0x18, 0x02, 0x0a, 0x02, 0x08,
   0x01]

/-- A directory of a file and of a directory. -/
def rootBlock : Bytes :=
  [0x12, 0x2b, 0x0a, 0x24, 0x01, 0x55, 0x12, 0x20, 0x8f, 0x43, 0x43, 0x46, 0x64, 0x8f, 0x6b, 0x96,
   0xdf, 0x89, 0xdd, 0xa9, 0x01, 0xc5, 0x17, 0x6b, 0x10, 0xa6, 0xd8, 0x39, 0x61, 0xdd, 0x3c, 0x1a,
   0xc8, 0x8b, 0x59, 0xb2, 0xdc, 0x32, 0x7a, 0xa4, 0x12, 0x01, 0x61, 0x18, 0x02, 0x12, 0x2b, 0x0a,
   0x24, 0x01, 0x70, 0x12, 0x20, 0xba, 0xa9, 0x94, 0x4f, 0xf3, 0x46, 0xd2, 0x0c, 0xb5, 0x9e, 0x8f,
   0x1d, 0x7f, 0x51, 0xa3, 0x84, 0xc0, 0x40, 0x3e, 0x75, 0xaf, 0xc0, 0xda, 0x8f, 0x01, 0x40, 0x04,
   0xb0, 0x23, 0x09, 0x7d, 0xe5, 0x12, 0x01, 0x64, 0x18, 0x33, 0x0a, 0x02, 0x08, 0x01]

/-- The digest of the second file. -/
def secondDigest : Digest :=
  ⟨[0xe9, 0x05, 0x8a, 0xb1, 0x98, 0xf6, 0x90, 0x8f, 0x70, 0x21, 0x11, 0xb0, 0xc0, 0xfb, 0x5b, 0x36,
    0xf9, 0x9d, 0x00, 0x55, 0x45, 0x21, 0x88, 0x6c, 0x40, 0xe2, 0x89, 0x1b, 0x34, 0x9d, 0xc7, 0xa1], by decide⟩

/-- The digest of the inner directory. -/
def innerDigest : Digest :=
  ⟨[0xba, 0xa9, 0x94, 0x4f, 0xf3, 0x46, 0xd2, 0x0c, 0xb5, 0x9e, 0x8f, 0x1d, 0x7f, 0x51, 0xa3, 0x84,
    0xc0, 0x40, 0x3e, 0x75, 0xaf, 0xc0, 0xda, 0x8f, 0x01, 0x40, 0x04, 0xb0, 0x23, 0x09, 0x7d, 0xe5], by decide⟩

/-- The digest of the root. -/
def rootDigest : Digest :=
  ⟨[0x4e, 0xb8, 0x50, 0x10, 0x7f, 0x7f, 0x42, 0x06, 0xd6, 0xdb, 0x37, 0x69, 0x11, 0x2c, 0x4c, 0xf1,
    0xf0, 0x8d, 0xd3, 0x29, 0x3d, 0x5e, 0x07, 0x3e, 0x67, 0xd8, 0x74, 0x09, 0xec, 0xea, 0x17, 0x20], by decide⟩

/-- SHA-256 on the four blocks. -/
def hash : ContentHash where
  sha256 bytes :=
    if bytes = first then OneFile.leafDigest
    else if bytes = second then secondDigest
    else if bytes = innerBlock then innerDigest
    else rootDigest

/-- The CID of the second file. -/
def secondCid : String := "bafkreihjawfldghwschxaiirwdapwwzw7goqavkfegegyqhcrentjhohue"

/-- The CID of the inner directory. -/
def innerCid : String := "bafybeif2vgke742g2igllhupdv7vdi4eybad45npydni6akaasycgcl54u"

/-- The CID of the root. -/
def rootCid : String := "bafybeicoxbiba737iidnnwzxneisythr6cg5gkj5lydt4z6yoqe6z2qxea"

/-- The blocks of the site. -/
def blocks : List Unixfs.Block :=
  [⟨OneFile.leafCid, first⟩, ⟨secondCid, second⟩, ⟨innerCid, innerBlock⟩, ⟨rootCid, rootBlock⟩]

end TwoFiles

open OneFile in
/-- The peer and the list of blocks give the same file. -/
theorem content_determined_one_file :
    ∃ x y, (fetchPath hash peer rootCid "a" 0).1 = .ok x ∧
      (fetchPath hash (blockSourceOf blocks) rootCid "a" ()).1 = .ok y ∧ x = y ∧ x.length ≤ resourceBytesLimit := by
  have hpeer : (fetchPath hash peer rootCid "a" 0).1 = .ok leafBlock := by decide +kernel
  have hlist : (fetchPath hash (blockSourceOf blocks) rootCid "a" ()).1 = .ok leafBlock := by decide +kernel
  have hcalls : callsOf hash peer rootCid "a" 0 = calls := by decide +kernel
  have hcalls' : callsOf hash (blockSourceOf blocks) rootCid "a" () = calls := by decide +kernel
  have hinj : Set.InjOn hash.sha256
      (answersTo hash peer rootCid "a" 0 ∪ answersTo hash (blockSourceOf blocks) rootCid "a" ()) := by
    rw [answersTo, answersTo, hcalls, hcalls', Set.union_self]
    exact injOn_calls
  obtain ⟨hsame, hbounds, -⟩ := content_determined hash peer (blockSourceOf blocks) rootCid "a" 0 ()
  exact ⟨leafBlock, leafBlock, hpeer, hlist, hsame _ _ hinj hpeer hlist, (hbounds _ hpeer).1⟩

end VayuWeb.Fetch
