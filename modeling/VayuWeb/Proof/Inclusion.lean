import VayuWeb.Proof.Sample
import VayuWeb.Spec.Merkle

/-!
# Inclusion proofs are complete

* `built_of_treeOf`: what the carry loop keeps, the decomposition of the log so far.
* `treeOf_ok_iff`: a tree is built exactly when no peak covers more bytes than `uint64be` writes.
* `inclusion_complete`: the tree has the peaks of the prover, and every proof verifies.
-/

namespace VayuWeb

open Bytes
open Mountain (Range decompose Stack Peaks)

variable {C : Crypto} {entries : List Bytes} {left right node root : Root} {start height : ℕ}

/-! ## Hashing -/

/-- When a number is written, and how. -/
theorem uint64be_eq_ok {value : ℤ} {out : Bytes} : uint64be value = .ok out ↔
    0 ≤ value ∧ value ≤ maxSafeInteger ∧ out = beBytes 8 value.toNat := by
  unfold uint64be
  split_ifs with h
  · simp only [false_iff]
    omega
  · rw [Except.ok.injEq, eq_comm]
    constructor
    · intro hout
      exact ⟨by omega, by omega, hout⟩
    · intro hout
      exact hout.2.2

theorem uint64be_ok {value : ℤ} (hpos : 0 ≤ value) (hmax : value ≤ maxSafeInteger) :
    uint64be value = .ok (beBytes 8 value.toNat) :=
  uint64be_eq_ok.2 ⟨hpos, hmax, rfl⟩

/-- What is hashed for a parent. -/
theorem parentInput_eq_ok {input : Bytes} : parentInput left right = .ok input ↔
    ∃ size, uint64be (left.size + right.size) = .ok size ∧
      input = [parentType] ++ size ++ left.hash ++ right.hash := by
  simp only [parentInput, Except.bind_eq_ok, Except.pure_eq_ok, Except.ok.injEq]
  constructor
  · rintro ⟨size, hsize, rfl⟩
    exact ⟨size, hsize, rfl⟩
  · rintro ⟨size, hsize, rfl⟩
    exact ⟨size, hsize, rfl⟩

theorem joined_eq_ok {index : ℤ} : joined C left right index = .ok node ↔
    ∃ input, parentInput left right = .ok input ∧
      node = { hash := C.blake2b input, index := index, size := left.size + right.size } := by
  simp only [joined, parentHash, Except.bind_eq_ok, Except.pure_eq_ok, Except.ok.injEq]
  constructor
  · rintro ⟨hash, ⟨input, hinput, rfl⟩, rfl⟩
    exact ⟨input, hinput, rfl⟩
  · rintro ⟨input, hinput, rfl⟩
    exact ⟨_, ⟨input, hinput, rfl⟩, rfl⟩

/-- A node carries no more into its parent than its hash and its size. -/
theorem joined_hash {left' right' node : Root} {index index' : ℤ} (hleft : left'.hash = left.hash)
    (hlsize : left'.size = left.size) (hright : right'.hash = right.hash) (hrsize : right'.size = right.size)
    (h : joined C left right index = .ok node) :
    joined C left' right' index' = .ok { node with index := index' } := by
  obtain ⟨input, hinput, rfl⟩ := joined_eq_ok.1 h
  refine joined_eq_ok.2 ⟨input, ?_, ?_⟩
  · rw [parentInput_eq_ok] at hinput ⊢
    rw [hleft, hlsize, hright, hrsize]
    exact hinput
  · rw [hlsize, hrsize]

/-- What is hashed for a leaf. -/
theorem leafHash_eq_ok {data hash : Bytes} : leafHash C data = .ok hash ↔
    data.length ≤ maxSafeInteger ∧
      hash = C.blake2b ([leafType] ++ beBytes 8 data.length ++ data) := by
  simp only [leafHash, leafInput, Except.bind_eq_ok, Except.pure_eq_ok, Except.ok.injEq, uint64be_eq_ok]
  constructor
  · rintro ⟨input, ⟨size, ⟨-, hmax, rfl⟩, rfl⟩, rfl⟩
    exact ⟨by omega, by rw [Int.toNat_natCast]⟩
  · rintro ⟨hmax, rfl⟩
    exact ⟨_, ⟨_, ⟨Int.natCast_nonneg _, by omega, rfl⟩, rfl⟩, by rw [Int.toNat_natCast]⟩

/-! ## Subtrees -/

/-- The bytes of the entries under a subtree. -/
def byteSize (entries : List Bytes) (start : ℕ) : ℕ → ℕ
  | 0 => (entries.getD start []).length
  | height + 1 => byteSize entries start height + byteSize entries (start + 2 ^ height) height

/-- The root over one entry. -/
theorem subtreeRoot_zero_eq_ok : subtreeRoot C entries start 0 = .ok root ↔
    ∃ data hash, entries[start]? = some data ∧ leafHash C data = .ok hash ∧
      root = { hash := hash, index := flatIndex start 1, size := data.length } := by
  unfold subtreeRoot
  cases hdata : entries[start]? with
  | none => simp
  | some data =>
    simp only [Except.bind_eq_ok, Except.pure_eq_ok, Except.ok.injEq, Option.some.injEq]
    constructor
    · rintro ⟨hash, hhash, rfl⟩
      exact ⟨data, hash, rfl, hhash, rfl⟩
    · rintro ⟨_, hash, rfl, hhash, rfl⟩
      exact ⟨hash, hhash, rfl⟩

/-- The root over twice as many entries. -/
theorem subtreeRoot_succ_eq_ok : subtreeRoot C entries start (height + 1) = .ok root ↔
    ∃ left right, subtreeRoot C entries start height = .ok left ∧
      subtreeRoot C entries (start + 2 ^ height) height = .ok right ∧
      joined C left right (flatIndex start (2 ^ (height + 1))) = .ok root := by
  simp only [subtreeRoot, Except.bind_eq_ok]
  constructor
  · rintro ⟨left, hleft, right, hright, hroot⟩
    exact ⟨left, right, hleft, hright, hroot⟩
  · rintro ⟨left, right, hleft, hright, hroot⟩
    exact ⟨left, hleft, right, hright, hroot⟩

/-- The flat-tree index and the byte size of a subtree, which lies inside the log. -/
theorem subtreeRoot_fields (h : subtreeRoot C entries start height = .ok root) :
    root.index = flatIndex start (2 ^ height) ∧ root.size = byteSize entries start height ∧
      byteSize entries start height ≤ maxSafeInteger ∧ start + 2 ^ height ≤ entries.length := by
  induction height generalizing start root with
  | zero =>
    obtain ⟨data, hash, hdata, hhash, rfl⟩ := subtreeRoot_zero_eq_ok.1 h
    have hlen : (entries.getD start []).length = data.length := by
      rw [List.getD_eq_getElem?_getD, hdata, Option.getD_some]
    obtain ⟨hstart, -⟩ := List.getElem?_eq_some_iff.1 hdata
    refine ⟨rfl, ?_, ?_, hstart⟩
    · simp only [byteSize, hlen]
    · simp only [byteSize, hlen]
      exact (leafHash_eq_ok.1 hhash).1
  | succ height ih =>
    obtain ⟨left, right, hleft, hright, hroot⟩ := subtreeRoot_succ_eq_ok.1 h
    obtain ⟨-, hlsize, -, -⟩ := ih hleft
    obtain ⟨-, hrsize, -, hstop⟩ := ih hright
    obtain ⟨input, hinput, rfl⟩ := joined_eq_ok.1 hroot
    obtain ⟨size, hsize, -⟩ := parentInput_eq_ok.1 hinput
    obtain ⟨-, hmax, -⟩ := uint64be_eq_ok.1 hsize
    rw [hlsize, hrsize] at hmax
    refine ⟨rfl, ?_, ?_, ?_⟩
    · simp only [byteSize, hlsize, hrsize, Int.natCast_add]
    · simp only [byteSize]
      omega
    · rw [Nat.pow_succ]
      omega

/-- A subtree inside the log has a root when `uint64be` writes its byte size. -/
theorem subtreeRoot_ok (hin : start + 2 ^ height ≤ entries.length)
    (hsize : byteSize entries start height ≤ maxSafeInteger) :
    ∃ root, subtreeRoot C entries start height = .ok root := by
  induction height generalizing start with
  | zero =>
    have hstart : start < entries.length := hin
    have hdata : entries[start]? = some entries[start] := List.getElem?_eq_getElem hstart
    simp only [byteSize, List.getD_eq_getElem?_getD, hdata, Option.getD_some] at hsize
    exact ⟨_, subtreeRoot_zero_eq_ok.2 ⟨_, _, hdata, leafHash_eq_ok.2 ⟨hsize, rfl⟩, rfl⟩⟩
  | succ height ih =>
    rw [Nat.pow_succ] at hin
    simp only [byteSize] at hsize
    obtain ⟨left, hleft⟩ := @ih start (by omega) (by omega)
    obtain ⟨right, hright⟩ := @ih (start + 2 ^ height) (by omega) (by omega)
    obtain ⟨-, hlsize, -, -⟩ := subtreeRoot_fields hleft
    obtain ⟨-, hrsize, -, -⟩ := subtreeRoot_fields hright
    have hbe : uint64be (left.size + right.size) = .ok (beBytes 8 (left.size + right.size).toNat) := by
      apply uint64be_ok
      · omega
      · omega
    exact ⟨_, subtreeRoot_succ_eq_ok.2 ⟨left, right, hleft, hright,
      joined_eq_ok.2 ⟨_, parentInput_eq_ok.2 ⟨_, hbe, rfl⟩, rfl⟩⟩⟩

/-- The root of a subtree is there. -/
def HasRoot (C : Crypto) (entries : List Bytes) (r : Range) : Prop :=
  ∃ root, subtreeRoot C entries r.start r.height = .ok root

/-- A range with a root has one in each half. -/
theorem HasRoot.split (h : HasRoot C entries ⟨start, height + 1⟩) :
    HasRoot C entries ⟨start, height⟩ ∧ HasRoot C entries ⟨start + 2 ^ height, height⟩ := by
  obtain ⟨root, hroot⟩ := h
  obtain ⟨left, right, hleft, hright, -⟩ := subtreeRoot_succ_eq_ok.1 hroot
  exact ⟨⟨left, hleft⟩, ⟨right, hright⟩⟩

/-- Later entries change no subtree. -/
theorem subtreeRoot_append (more : List Bytes) (hin : start + 2 ^ height ≤ entries.length) :
    subtreeRoot C (entries ++ more) start height = subtreeRoot C entries start height := by
  induction height generalizing start with
  | zero =>
    have hstart : start < entries.length := hin
    unfold subtreeRoot
    rw [List.getElem?_append_left hstart]
  | succ height ih =>
    rw [Nat.pow_succ] at hin
    unfold subtreeRoot
    rw [ih (by omega), ih (by omega)]

/-! ## The carry loop -/

/-- The nodes at these subtrees, in the same order. -/
def Nodes (C : Crypto) (entries : List Bytes) (rs : List Range) (roots : List Root) : Prop :=
  List.Forall₂ (fun r root => subtreeRoot C entries r.start r.height = .ok root) rs roots

theorem Nodes.hasRoot {rs : List Range} {roots : List Root} (h : Nodes C entries rs roots) :
    ∀ r ∈ rs, HasRoot C entries r := by
  induction h with
  | nil => simp
  | cons hroot _ ih => exact List.forall_mem_cons.2 ⟨⟨_, hroot⟩, ih⟩

/-- **One carry**: the loop leaves the nodes at the stack of the carry, when it ends. -/
theorem carryLoop_nodes {rs : List Range} {stop : ℕ} {peaks peaks' : List Root} {carry : Root}
    {spans' : List ℕ} (hstack : Stack height stop rs) (hpeaks : Nodes C entries rs peaks)
    (hcarry : subtreeRoot C entries stop height = .ok carry)
    (h : carryLoop C (stop + 2 ^ height) peaks (rs.map Range.span) carry (2 ^ height) =
      .ok (peaks', spans')) :
    Nodes C entries (Mountain.carry stop height rs) peaks' ∧
      spans' = (Mountain.carry stop height rs).map Range.span := by
  induction rs generalizing height stop peaks carry with
  | nil =>
    cases hpeaks
    simp only [List.map_nil, carryLoop, Except.ok.injEq, Prod.mk.injEq] at h
    obtain ⟨rfl, rfl⟩ := h
    exact ⟨.cons hcarry .nil, rfl⟩
  | cons r rs ih =>
    cases hpeaks with
    | @cons _ left _ peaks hleft hpeaks =>
    cases hstack with
    | @cons _ height' start _ hle rest =>
      simp only [List.map_cons, carryLoop, Range.span] at h
      unfold Mountain.carry
      -- two ranges of one height join, and the loop goes on one level up
      by_cases heq : height' = height
      · subst heq
        rw [if_pos rfl, Except.bind_eq_ok] at h
        obtain ⟨node, hnode, h⟩ := h
        have hdouble : 2 ^ height' * 2 = 2 ^ (height' + 1) := (Nat.pow_succ 2 height').symm
        have hstop : start + 2 ^ height' + 2 ^ height' = start + 2 ^ (height' + 1) := by omega
        have hstart : start + 2 ^ (height' + 1) - 2 ^ (height' + 1) = start := Nat.add_sub_cancel _ _
        rw [hdouble, hstop, hstart] at hnode
        rw [hdouble, hstop] at h
        rw [if_pos rfl]
        exact ih rest hpeaks (subtreeRoot_succ_eq_ok.2 ⟨left, carry, hleft, hcarry, hnode⟩) h
      · have hne : 2 ^ height' ≠ 2 ^ height := fun hpow => heq (Nat.pow_right_injective (le_refl 2) hpow)
        rw [if_neg hne, Except.ok.injEq, Prod.mk.injEq] at h
        obtain ⟨rfl, rfl⟩ := h
        rw [if_neg heq]
        exact ⟨.cons hcarry (.cons hleft hpeaks), rfl⟩

/-- The loop ends when the subtrees it leaves have roots. -/
theorem carryLoop_ok {rs : List Range} {stop : ℕ} {peaks : List Root} {carry : Root}
    (hstack : Stack height stop rs) (hpeaks : Nodes C entries rs peaks)
    (hcarry : subtreeRoot C entries stop height = .ok carry)
    (hall : ∀ r ∈ Mountain.carry stop height rs, HasRoot C entries r) :
    ∃ out, carryLoop C (stop + 2 ^ height) peaks (rs.map Range.span) carry (2 ^ height) = .ok out := by
  induction rs generalizing height stop peaks carry with
  | nil =>
    cases hpeaks
    exact ⟨_, rfl⟩
  | cons r rs ih =>
    cases hpeaks with
    | @cons _ left _ peaks hleft hpeaks =>
    cases hstack with
    | @cons _ height' start _ hle rest =>
      simp only [List.map_cons, carryLoop, Range.span]
      unfold Mountain.carry at hall
      by_cases heq : height' = height
      · subst heq
        rw [if_pos rfl] at hall
        have hdouble : 2 ^ height' * 2 = 2 ^ (height' + 1) := (Nat.pow_succ 2 height').symm
        have hstop : start + 2 ^ height' + 2 ^ height' = start + 2 ^ (height' + 1) := by omega
        have hstart : start + 2 ^ (height' + 1) - 2 ^ (height' + 1) = start := Nat.add_sub_cancel _ _
        -- the joined subtree lies in one that is left, so it has a root
        obtain ⟨⟨node, hnode⟩, -⟩ := rest.of_carry (fun _ _ => HasRoot.split) hall
        obtain ⟨left', right', hleft', hright', hjoined⟩ := subtreeRoot_succ_eq_ok.1 hnode
        rw [hleft, Except.ok.injEq] at hleft'
        rw [hcarry, Except.ok.injEq] at hright'
        subst hleft' hright'
        rw [if_pos rfl, hdouble, hstop, hstart, hjoined]
        exact ih rest hpeaks hnode hall
      · have hne : 2 ^ height' ≠ 2 ^ height := fun hpow => heq (Nat.pow_right_injective (le_refl 2) hpow)
        rw [if_neg hne]
        exact ⟨_, rfl⟩

/-! ## The tree -/

/-- The tree holds the nodes of the decomposition of the log. -/
structure Built (C : Crypto) (entries : List Bytes) (tree : MerkleTree) (rs : List Range) : Prop where
  stack : Stack 0 entries.length rs
  nodes : Nodes C entries rs tree.peaks
  spans : tree.spans = rs.map Range.span
  leafCount : tree.leafCount = entries.length

/-- The nodes over a log stay when it grows. -/
theorem Nodes.append {rs : List Range} {roots : List Root} {stop : ℕ} (h : Nodes C entries rs roots)
    (hstack : Stack height stop rs) (hstop : stop ≤ entries.length) (more : List Bytes) :
    Nodes C (entries ++ more) rs roots := by
  induction hstack generalizing roots with
  | nil =>
    cases h
    exact .nil
  | @cons height height' start rs _ rest ih =>
    cases h with
    | cons hroot hroots =>
      have hpow := Nat.two_pow_pos height'
      refine .cons ?_ (ih hroots (by omega))
      rw [subtreeRoot_append more hstop]
      exact hroot

/-- What appending a leaf makes. -/
theorem append_eq_ok {tree tree' : MerkleTree} {data : Bytes} : tree.append C data = .ok tree' ↔
    ∃ hash peaks spans, leafHash C data = .ok hash ∧
      carryLoop C (tree.leafCount + 1) tree.peaks tree.spans
        { hash := hash, index := flatIndex tree.leafCount 1, size := data.length } 1 = .ok (peaks, spans) ∧
      tree' = { peaks := peaks, spans := spans, leafCount := tree.leafCount + 1,
                bytes := tree.bytes + data.length } := by
  simp only [MerkleTree.append, Except.bind_eq_ok, Except.pure_eq_ok, Except.ok.injEq, Prod.exists]
  constructor
  · rintro ⟨hash, hhash, peaks, spans, hloop, rfl⟩
    exact ⟨hash, peaks, spans, hhash, hloop, rfl⟩
  · rintro ⟨hash, peaks, spans, hhash, hloop, rfl⟩
    exact ⟨hash, hhash, peaks, spans, hloop, rfl⟩

/-- The tree of a log once one more entry is appended. -/
theorem treeOf_concat (entries : List Bytes) (data : Bytes) :
    treeOf C (entries ++ [data]) = treeOf C entries >>= fun tree => tree.append C data := by
  unfold treeOf
  rw [List.foldlM_append]
  cases List.foldlM (MerkleTree.append C) MerkleTree.empty entries with
  | error e => rfl
  | ok tree =>
    simp only [Except.ok_bind, List.foldlM_cons, List.foldlM_nil]
    cases tree.append C data <;> rfl

/-- The last leaf as a subtree. -/
theorem leaf_root {data hash : Bytes} (h : leafHash C data = .ok hash) :
    subtreeRoot C (entries ++ [data]) entries.length 0 =
      .ok { hash := hash, index := flatIndex entries.length 1, size := data.length } :=
  subtreeRoot_zero_eq_ok.2 ⟨data, hash, List.getElem?_concat_length, h, rfl⟩

/-- **What the tree is built of**: the decomposition of the log, whatever its length. -/
theorem built_of_treeOf {tree : MerkleTree} (h : treeOf C entries = .ok tree) :
    ∃ rs, Built C entries tree rs := by
  induction entries using List.reverseRecOn generalizing tree with
  | nil =>
    unfold treeOf at h
    rw [List.foldlM_nil, Except.pure_eq_ok, Except.ok.injEq] at h
    subst h
    exact ⟨[], .nil _, .nil, rfl, rfl⟩
  | append_singleton entries data ih =>
    rw [treeOf_concat, Except.bind_eq_ok] at h
    obtain ⟨before, hbefore, h⟩ := h
    obtain ⟨rs, hbuilt⟩ := ih hbefore
    obtain ⟨hash, peaks, spans, hhash, hloop, rfl⟩ := append_eq_ok.1 h
    rw [hbuilt.leafCount, hbuilt.spans] at hloop
    obtain ⟨hnodes, hspans⟩ := carryLoop_nodes hbuilt.stack
      (hbuilt.nodes.append hbuilt.stack (Nat.le_refl _) [data]) (leaf_root hhash) hloop
    have hstack := hbuilt.stack.carry
    refine ⟨_, ?_, hnodes, hspans, ?_⟩
    · rw [List.length_append, List.length_singleton]
      exact hstack
    · rw [List.length_append, List.length_singleton, hbuilt.leafCount]

/-- The subtrees of the log, as the prover finds them. -/
def peakRanges (entries : List Bytes) : List Range := decompose 53 0 entries.length

theorem Built.ranges {tree : MerkleTree} {rs : List Range} (h : Built C entries tree rs)
    (hlen : entries.length < 2 ^ 53) : rs.reverse = peakRanges entries :=
  (h.stack.decompose_eq hlen).symm

/-- The peaks of the tree are the roots over the peak ranges. -/
theorem Built.roots {tree : MerkleTree} {rs : List Range} (h : Built C entries tree rs)
    (hlen : entries.length < 2 ^ 53) : Nodes C entries (peakRanges entries) tree.roots := by
  rw [← h.ranges hlen]
  exact List.rel_reverse h.nodes

/-- The peak ranges cover the log. -/
theorem peakRanges_peaks (hlen : entries.length < 2 ^ 53) :
    Peaks 53 0 entries.length (peakRanges entries) := by
  have h := Peaks.decompose 53 0 entries.length hlen
  rw [Nat.zero_add] at h
  exact h

/-- A tree is built when every peak of it has a root. -/
theorem treeOf_ok (hlen : entries.length < 2 ^ 53) (hall : ∀ r ∈ peakRanges entries, HasRoot C entries r) :
    ∃ tree, treeOf C entries = .ok tree := by
  induction entries using List.reverseRecOn with
  | nil => exact ⟨_, rfl⟩
  | append_singleton entries data ih =>
    have hlen' : entries.length < 2 ^ 53 := by
      rw [List.length_append, List.length_singleton] at hlen
      omega
    -- the peaks of the log before are peaks now, or parts of the new one
    obtain ⟨ranges, hpeaks⟩ := Stack.exists_stack entries.length
    have hnext : Stack 0 (entries ++ [data]).length (Mountain.carry entries.length 0 ranges) := by
      have hcarry := hpeaks.carry
      rw [List.length_append, List.length_singleton]
      exact hcarry
    have hranges := hnext.decompose_eq hlen
    have hcarried : ∀ r ∈ Mountain.carry entries.length 0 ranges, HasRoot C (entries ++ [data]) r := by
      intro r hr
      apply hall
      unfold peakRanges
      rw [hranges]
      exact List.mem_reverse.2 hr
    obtain ⟨⟨leaf, hleaf⟩, hbefore⟩ := hpeaks.of_carry (fun _ _ => HasRoot.split) hcarried
    have hold : ∀ r ∈ peakRanges entries, HasRoot C entries r := by
      intro r hr
      have hbounds := (peakRanges_peaks hlen').bounds r hr
      unfold peakRanges at hr
      rw [hpeaks.decompose_eq hlen'] at hr
      obtain ⟨root, hroot⟩ := hbefore r (List.mem_reverse.1 hr)
      rw [subtreeRoot_append [data] hbounds.2] at hroot
      exact ⟨root, hroot⟩
    obtain ⟨before, hbefore'⟩ := ih hlen' hold
    obtain ⟨rs, hbuilt⟩ := built_of_treeOf hbefore'
    have hrs : rs = ranges := by
      have heq := (hbuilt.stack.decompose_eq hlen').symm.trans (hpeaks.decompose_eq hlen')
      exact List.reverse_injective heq
    subst hrs
    obtain ⟨data', hash, hdata, hhash, hleaf'⟩ := subtreeRoot_zero_eq_ok.1 hleaf
    obtain rfl : data = data' := by
      rw [List.getElem?_concat_length, Option.some.injEq] at hdata
      exact hdata
    obtain ⟨⟨peaks, spans⟩, hloop⟩ := carryLoop_ok hbuilt.stack
      (hbuilt.nodes.append hbuilt.stack (Nat.le_refl _) [data]) (leaf_root hhash) hcarried
    rw [treeOf_concat, hbefore', Except.ok_bind]
    refine ⟨_, append_eq_ok.2 ⟨hash, peaks, spans, hhash, ?_, rfl⟩⟩
    rw [hbuilt.leafCount, hbuilt.spans]
    exact hloop

/-- A subtree inside the log has a root exactly when `uint64be` writes its byte size. -/
theorem hasRoot_iff (hlen : entries.length < 2 ^ 53) {r : Range} (hr : r ∈ peakRanges entries) :
    HasRoot C entries r ↔ byteSize entries r.start r.height ≤ maxSafeInteger := by
  constructor
  · rintro ⟨root, hroot⟩
    exact (subtreeRoot_fields hroot).2.2.1
  · intro hsize
    exact subtreeRoot_ok ((peakRanges_peaks hlen).bounds r hr).2 hsize

/-- **When a tree is built**: every peak covers at most `maxSafeInteger` bytes. -/
theorem treeOf_ok_iff (hlen : entries.length < 2 ^ 53) : (∃ tree, treeOf C entries = .ok tree) ↔
    ∀ r ∈ peakRanges entries, byteSize entries r.start r.height ≤ maxSafeInteger := by
  constructor
  · rintro ⟨tree, htree⟩ r hr
    obtain ⟨rs, hbuilt⟩ := built_of_treeOf htree
    exact (hasRoot_iff hlen hr).1 ((hbuilt.roots hlen).hasRoot r hr)
  · intro hsize
    exact treeOf_ok hlen fun r hr => (hasRoot_iff hlen hr).2 (hsize r hr)

/-! ## Proofs -/

/-- **The walk down and the fold up meet**: folding the siblings of a leaf gives the root of the
subtree walked down. -/
theorem descend_foldUp {leafIndex lo : ℕ} {data : Bytes} (hfrom : lo ≤ leafIndex)
    (hto : leafIndex < lo + 2 ^ height) (hdata : entries[leafIndex]? = some data)
    (hroot : subtreeRoot C entries lo height = .ok root) :
    ∃ siblings siblingIsLeft hash node,
      descend C entries leafIndex lo height = .ok (siblings, siblingIsLeft) ∧
      siblings.length = siblingIsLeft.length ∧ leafHash C data = .ok hash ∧
      foldUp C (siblings.zip siblingIsLeft) { hash := hash, index := 0, size := data.length } = .ok node ∧
      node.hash = root.hash ∧ node.size = root.size := by
  induction height generalizing lo root with
  | zero =>
    have hlo : lo = leafIndex := by
      rw [Nat.pow_zero] at hto
      omega
    subst hlo
    obtain ⟨data', hash, hdata', hhash, rfl⟩ := subtreeRoot_zero_eq_ok.1 hroot
    rw [hdata, Option.some.injEq] at hdata'
    subst hdata'
    exact ⟨[], [], hash, _, rfl, rfl, hhash, rfl, rfl, rfl⟩
  | succ height ih =>
    rw [Nat.pow_succ] at hto
    obtain ⟨left, right, hleft, hright, hjoined⟩ := subtreeRoot_succ_eq_ok.1 hroot
    have hsize : root.size = left.size + right.size := by
      obtain ⟨input, -, rfl⟩ := joined_eq_ok.1 hjoined
      rfl
    by_cases hgo : leafIndex ≥ lo + 2 ^ height
    · -- down the right half, past the left one
      obtain ⟨siblings, lefts, hash, node, hdescend, hlength, hhash, hfold, hnode, hnodeSize⟩ :=
        ih hgo (by omega) hright
      have hparent : joined C left node 0 = .ok { root with index := 0 } :=
        joined_hash rfl rfl hnode hnodeSize hjoined
      refine ⟨left :: siblings, true :: lefts, hash, { root with index := 0 }, ?_, ?_, hhash, ?_, rfl, rfl⟩
      · simp only [descend, ge_iff_le, hgo, decide_true, if_true, hleft, hdescend, Except.ok_bind,
          Except.pure_eq_ok]
      · rw [List.length_cons, List.length_cons, hlength]
      · simp only [List.zip_cons_cons, foldUp, hfold, Except.ok_bind, if_true]
        exact hparent
    -- down the left half, with the right one as the sibling
    · obtain ⟨siblings, lefts, hash, node, hdescend, hlength, hhash, hfold, hnode, hnodeSize⟩ :=
        ih hfrom (by omega) hleft
      have hparent : joined C node right 0 = .ok { root with index := 0 } :=
        joined_hash hnode hnodeSize rfl rfl hjoined
      refine ⟨right :: siblings, false :: lefts, hash, { root with index := 0 }, ?_, ?_, hhash, ?_, rfl, rfl⟩
      · simp only [descend, ge_iff_le, hgo, decide_false, Bool.false_eq_true, if_false, hright, hdescend,
          Except.ok_bind, Except.pure_eq_ok]
      · rw [List.length_cons, List.length_cons, hlength]
      · simp only [List.zip_cons_cons, foldUp, hfold, Except.ok_bind, Bool.false_eq_true, if_false]
        exact hparent

/-- The roots over ranges, computed one by one. -/
theorem Nodes.mapM {rs : List Range} {roots : List Root} (h : Nodes C entries rs roots) :
    (rs.mapM fun p => subtreeRoot C entries p.start p.height) = .ok roots :=
  Except.mapM_eq_ok.2 h

/-- What the tree's peaks are: the nodes of the decomposition with their indices and sizes. -/
def PeakOf (C : Crypto) (entries : List Bytes) (r : Range) (peak : Root) : Prop :=
  subtreeRoot C entries r.start r.height = .ok peak ∧ peak.index = flatIndex r.start r.span ∧
    peak.size = byteSize entries r.start r.height

theorem Nodes.peaks {rs : List Range} {roots : List Root} (h : Nodes C entries rs roots) :
    List.Forall₂ (PeakOf C entries) rs roots := by
  refine h.imp fun r root hroot => ?_
  obtain ⟨hindex, hsize, -, -⟩ := subtreeRoot_fields hroot
  exact ⟨hroot, hindex, hsize⟩

/-- The peaks of a log that an array holds can be hashed. -/
theorem treeHash_ok {rs : List Range} {roots : List Root} (h : Nodes C entries rs roots)
    (hlen : entries.length < 2 ^ 32) : ∃ hash, treeHash C roots = .ok hash := by
  have hparts : ∃ parts, roots.mapM rootPart = .ok parts := by
    induction h with
    | nil => exact ⟨[], rfl⟩
    | @cons r root rs roots hroot _ ih =>
      obtain ⟨parts, hparts⟩ := ih
      obtain ⟨hindex, hsize, hmax, hstop⟩ := subtreeRoot_fields hroot
      have hpow := Nat.two_pow_pos r.height
      have hsafe : (2 : ℤ) ^ 33 ≤ maxSafeInteger := by decide
      have hindexOk : uint64be root.index = .ok (beBytes 8 root.index.toNat) := by
        rw [hindex]
        unfold flatIndex
        apply uint64be_ok
        · omega
        · omega
      have hsizeOk : uint64be root.size = .ok (beBytes 8 root.size.toNat) := by
        rw [hsize]
        apply uint64be_ok
        · omega
        · omega
      refine ⟨(root.hash ++ beBytes 8 root.index.toNat ++ beBytes 8 root.size.toNat) :: parts, ?_⟩
      rw [List.mapM_cons, hparts, rootPart, hindexOk, hsizeOk]
      rfl
  obtain ⟨parts, hparts⟩ := hparts
  unfold treeHash treeInput
  rw [hparts]
  exact ⟨_, rfl⟩

/-- The node at the first subtree that a test picks. -/
theorem Nodes.find {rs : List Range} {roots : List Root} {p : Range → Bool} {r : Range}
    (h : Nodes C entries rs roots) (hr : rs.find? p = some r) :
    ∃ peak, roots[rs.findIdx p]? = some peak ∧ subtreeRoot C entries r.start r.height = .ok peak := by
  induction h with
  | nil => simp at hr
  | @cons s root rs roots hroot _ ih =>
    rw [List.find?_cons] at hr
    rw [List.findIdx_cons]
    cases hp : p s with
    | true =>
      rw [hp, Option.some.injEq] at hr
      subst hr
      exact ⟨root, rfl, hroot⟩
    | false =>
      rw [hp] at hr
      exact ih hr

/-- Some peak is over the leaf. -/
theorem exists_covering {i : ℕ} (hlen : entries.length < 2 ^ 53) (hi : i < entries.length) :
    ∃ r, (peakRanges entries).find? (covers i) = some r ∧ r.start ≤ i ∧ i < r.start + 2 ^ r.height := by
  obtain ⟨r, hr, hin⟩ := (peakRanges_peaks hlen).covers (Nat.zero_le i) hi
  have hsome : ((peakRanges entries).find? (covers i)).isSome = true := by
    rw [List.find?_isSome]
    exact ⟨r, hr, decide_eq_true hin⟩
  obtain ⟨r', hr'⟩ := Option.isSome_iff_exists.1 hsome
  have hcovers : covers i r' = true := List.find?_some hr'
  exact ⟨r', hr', of_decide_eq_true hcovers⟩

/-- **Inclusion proofs are complete**: a tree is built when no peak covers more bytes than a safe
integer counts, it has the prover's peaks, and then the proof of every leaf verifies. -/
theorem inclusion_complete (C : Crypto) (entries : List Bytes) (i : ℕ) (hlen : entries.length < 2 ^ 32)
    (hi : i < entries.length) :
    ((∃ tree, treeOf C entries = .ok tree) ↔
      ∀ r ∈ peakRanges entries, byteSize entries r.start r.height ≤ maxSafeInteger) ∧
    ∀ tree, treeOf C entries = .ok tree → ∃ proof root,
      proveInclusion C entries i = .ok proof ∧ tree.roots = proof.roots ∧
        List.Forall₂ (PeakOf C entries) (peakRanges entries) tree.roots ∧
        tree.root C = .ok root ∧ verifyInclusion C entries[i] proof root = .ok true := by
  have hlen53 : entries.length < 2 ^ 53 := by omega
  refine ⟨treeOf_ok_iff hlen53, ?_⟩
  intro tree htree
  obtain ⟨rs, hbuilt⟩ := built_of_treeOf htree
  have hnodes : Nodes C entries (peakRanges entries) tree.roots := hbuilt.roots hlen53
  obtain ⟨root, hroot⟩ := treeHash_ok hnodes hlen
  have hdata : entries[i]? = some entries[i] := List.getElem?_eq_getElem hi
  -- the leaf lies in one of the mountains, and the path runs up to its peak
  obtain ⟨r, hr, hfrom, hto⟩ := exists_covering hlen53 hi
  obtain ⟨peak, hpeak, hpeakRoot⟩ := hnodes.find hr
  obtain ⟨siblings, lefts, hash, node, hdescend, hlength, hhash, hfold, hnode, -⟩ :=
    descend_foldUp hfrom hto hdata hpeakRoot
  have hproof : proveInclusion C entries i =
      .ok { leafIndex := i, leafSize := entries[i].length, siblings := siblings, siblingIsLeft := lefts,
            roots := tree.roots, rootIndex := (peakRanges entries).findIdx (covers i) } := by
    unfold proveInclusion
    have hfind : (decompose 53 0 entries.length).find? (covers i) = some r := hr
    have hmapM : ((decompose 53 0 entries.length).mapM fun p => subtreeRoot C entries p.start p.height) =
        .ok tree.roots := hnodes.mapM
    rw [if_neg (Nat.not_le.2 hi)]
    simp only [hfind, hdata, hdescend, hmapM, Except.ok_bind]
    rfl
  refine ⟨_, root, hproof, rfl, hnodes.peaks, hroot, ?_⟩
  have hindex : (peakRanges entries).findIdx (covers i) < tree.roots.length :=
    (List.getElem?_eq_some_iff.1 hpeak).1
  unfold verifyInclusion
  rw [if_neg (by simp), if_neg (by simp [hlength]), if_neg (by simp only [not_or]; omega)]
  simp only [hhash, hfold, hpeak, hroot, hnode, Except.ok_bind, Int.toNat_natCast, ne_eq, not_true_eq_false,
    if_false, Except.pure_eq_ok, decide_true]

/-! ## A log of three entries -/

/-- A log of three entries. -/
def logEntries : List Bytes := [utf8Encode "a", utf8Encode "bc", utf8Encode "d"]

/-- BLAKE2b-256 of what the tree over `logEntries` hashes. -/
def logDigests : List (Bytes × Bytes) :=
  let a := Sample.literal 32 0xab27d45f509274ce0d08f4f09ba2d0e0d8df61a0c2a78932e81b5ef26ef398df
  let b := Sample.literal 32 0xd0020a9b0c9a5f6ef0e67ad29514323a292895d0cd7fe3a33589613f3a0aeab8
  let c := Sample.literal 32 0x2828647a654a712738e35f49d1c05c676010be0b33882affc1d1e7e9fee59d40
  let ab := Sample.literal 32 0xeb2ade16daf1e023998dc558bb725051d5081a25ecda33d3292b9fefdaf82e92
  [([leafType] ++ beBytes 8 1 ++ utf8Encode "a", a), ([leafType] ++ beBytes 8 2 ++ utf8Encode "bc", b),
   ([leafType] ++ beBytes 8 1 ++ utf8Encode "d", c), ([parentType] ++ beBytes 8 3 ++ a ++ b, ab),
   ([rootType] ++ ab ++ beBytes 8 1 ++ beBytes 8 3 ++ c ++ beBytes 8 4 ++ beBytes 8 1,
    Sample.literal 32 0xe38270166debeb64bd2d1856937903fa8d6e84becf3b41dbd7f3171b75e23cfd)]

/-- Primitives that know the hashes of that log's tree. -/
def logCrypto : Crypto :=
  { Sample.crypto with
    blake2b := fun b => (Sample.find logDigests b).takeD 32 0
    length_blake2b := fun _ => List.takeD_length _ _ _ }

theorem inclusion_complete_log : ∃ tree proof root, treeOf logCrypto logEntries = .ok tree ∧
    proveInclusion logCrypto logEntries 1 = .ok proof ∧ tree.root logCrypto = .ok root ∧
      verifyInclusion logCrypto (utf8Encode "bc") proof root = .ok true := by
  obtain ⟨htree, hproof⟩ := inclusion_complete logCrypto logEntries 1 (by decide) (by decide)
  obtain ⟨tree, htree⟩ := htree.2 (by decide)
  obtain ⟨proof, root, hproof, -, -, hroot, hverify⟩ := hproof tree htree
  exact ⟨tree, proof, root, htree, hproof, hroot, hverify⟩

theorem byteSize_replicate {n : ℕ} (data : Bytes) (hin : start + 2 ^ height ≤ n) :
    byteSize (List.replicate n data) start height = 2 ^ height * data.length := by
  induction height generalizing start with
  | zero =>
    have hstart : start < n := hin
    simp only [byteSize, List.getD_eq_getElem?_getD, List.getElem?_replicate, hstart, if_true, Option.getD_some,
      Nat.pow_zero, Nat.one_mul]
  | succ height ih =>
    rw [Nat.pow_succ] at hin
    simp only [byteSize]
    rw [ih (by omega), ih (by omega), Nat.pow_succ]
    rw [Nat.mul_comm (2 ^ height) 2, Nat.mul_assoc, Nat.two_mul]

/-- Of 2^22 entries of 2^31 bytes each, `uint64be` cannot write the size of the one peak. -/
theorem inclusion_of_huge_log : ¬ ∀ (C : Crypto) (entries : List Bytes) (i : ℕ), i < entries.length →
    ∃ tree proof root, treeOf C entries = .ok tree ∧ proveInclusion C entries i = .ok proof ∧
      tree.root C = .ok root ∧ verifyInclusion C (entries.getD i []) proof root = .ok true := by
  intro h
  have hlength : (List.replicate (2 ^ 22) (List.replicate (2 ^ 31) (0 : UInt8))).length = 2 ^ 22 :=
    List.length_replicate
  obtain ⟨tree, -, -, htree, -⟩ := h Sample.crypto
    (List.replicate (2 ^ 22) (List.replicate (2 ^ 31) 0)) 0 (by rw [hlength]; decide)
  have hpeaks : peakRanges (List.replicate (2 ^ 22) (List.replicate (2 ^ 31) 0)) = [⟨0, 22⟩] := by
    unfold peakRanges
    rw [hlength]
    have hone : Peaks 53 0 (2 ^ 22) [⟨0, 22⟩] := .cons (by decide) (.nil _ _)
    exact hone.decompose_eq
  have hsize := (treeOf_ok_iff (by rw [hlength]; decide)).1 ⟨tree, htree⟩ ⟨0, 22⟩
    (by rw [hpeaks]; exact List.mem_singleton_self _)
  rw [byteSize_replicate _ (by decide), List.length_replicate] at hsize
  exact absurd hsize (by decide)

end VayuWeb
