import VayuWeb.Proof.Inclusion

/-!
# Inclusion proofs are sound

Collisions are excluded among the inputs that the tree and the verifier really hash, a list that
`treeInputs` and `proofInputs` spell out.

* `mem_of_foldUp`: a fold that reaches a node of the tree started from an entry.
* `entries_eq_of_root`: the root determines the log.
* `inclusion_sound`: a proof whose claimed peak stands where a peak of the tree does.
* `inclusion_unsound`: one that claims the end of one peak and the index and size after it.
-/

namespace VayuWeb

open Bytes
open Mountain (Range decompose Peaks)

variable {C : Crypto} {entries : List Bytes} {left right node root : Root} {start height : ℕ}

/-! ## What is hashed -/

/-- What `subtreeRoot` hashes. -/
def subtreeInputs (C : Crypto) (entries : List Bytes) (start : ℕ) : ℕ → List Bytes
  | 0 => ((entries[start]?).bind fun data => (leafInput data).toOption).toList
  | height + 1 =>
    let parent := do
      let left ← subtreeRoot C entries start height
      let right ← subtreeRoot C entries (start + 2 ^ height) height
      parentInput left right
    subtreeInputs C entries start height ++ subtreeInputs C entries (start + 2 ^ height) height ++
      parent.toOption.toList

/-- What the root of a log hashes. -/
def treeInputs (C : Crypto) (entries : List Bytes) : List Bytes :=
  let peaks := do
    let tree ← treeOf C entries
    treeInput tree.roots
  (peakRanges entries).flatMap (fun r => subtreeInputs C entries r.start r.height) ++ peaks.toOption.toList

/-- What folding upward hashes. -/
def foldInputs (C : Crypto) : List (Root × Bool) → Root → List Bytes
  | [], _ => []
  | (sibling, siblingLeft) :: path, node =>
    let parent := do
      let node ← foldUp C path node
      if siblingLeft then parentInput sibling node else parentInput node sibling
    foldInputs C path node ++ parent.toOption.toList

/-- The leaf a verifier starts from. -/
def verifierLeaf (data hash : Bytes) : Root := { hash := hash, index := 0, size := data.length }

/-- What `verifyInclusion` hashes. -/
def proofInputs (C : Crypto) (data : Bytes) (proof : Proof) : List Bytes :=
  let path := proof.siblings.zip proof.siblingIsLeft
  (leafInput data).toOption.toList ++
    ((leafHash C data).toOption.toList.flatMap fun hash => foldInputs C path (verifierLeaf data hash)) ++
    (treeInput proof.roots).toOption.toList

/-- No two of these inputs have one hash. -/
def NoCollision (C : Crypto) (inputs : List Bytes) : Prop :=
  ∀ x ∈ inputs, ∀ y ∈ inputs, C.blake2b x = C.blake2b y → x = y

/-- Fewer inputs have no more collisions. -/
theorem NoCollision.subset {xs ys : List Bytes} (h : NoCollision C ys) (hsub : xs ⊆ ys) : NoCollision C xs :=
  fun x hx y hy => h x (hsub hx) y (hsub hy)

theorem NoCollision.of_append {xs xs' ys ys' : List Bytes} (h : NoCollision C (ys ++ ys')) (hsub : xs ⊆ ys)
    (hsub' : xs' ⊆ ys') : NoCollision C (xs ++ xs') := by
  apply h.subset
  rw [List.append_subset]
  exact ⟨List.subset_append_of_subset_left _ hsub, List.subset_append_of_subset_right _ hsub'⟩

/-! ## Inputs determine their parts -/

theorem leafInput_eq_ok {data input : Bytes} : leafInput data = .ok input ↔
    data.length ≤ maxSafeInteger ∧ input = [leafType] ++ beBytes 8 data.length ++ data := by
  simp only [leafInput, Except.bind_eq_ok, Except.pure_eq_ok, Except.ok.injEq, uint64be_eq_ok]
  constructor
  · rintro ⟨size, ⟨-, hmax, rfl⟩, rfl⟩
    exact ⟨by omega, by rw [Int.toNat_natCast]⟩
  · rintro ⟨hmax, rfl⟩
    exact ⟨_, ⟨Int.natCast_nonneg _, by omega, rfl⟩, by rw [Int.toNat_natCast]⟩

/-- Two leaves never share an input. -/
theorem leafInput_inj {data data' input : Bytes} (h : leafInput data = .ok input)
    (h' : leafInput data' = .ok input) : data = data' := by
  obtain ⟨-, hinput⟩ := leafInput_eq_ok.1 h
  obtain ⟨-, hinput'⟩ := leafInput_eq_ok.1 h'
  have heq := hinput.symm.trans hinput'
  have hlen : ([leafType] ++ beBytes 8 data.length).length = ([leafType] ++ beBytes 8 data'.length).length := by
    simp
  exact (List.append_inj heq hlen).2

/-- A leaf and a parent never share an input. -/
theorem leafInput_ne_parentInput {data input : Bytes} (h : leafInput data = .ok input) :
    parentInput left right ≠ .ok input := by
  intro h'
  obtain ⟨-, hinput⟩ := leafInput_eq_ok.1 h
  obtain ⟨size, -, hinput'⟩ := parentInput_eq_ok.1 h'
  have heq := hinput.symm.trans hinput'
  simp [leafType, parentType] at heq

theorem length_uint64be {value : ℤ} {out : Bytes} (h : uint64be value = .ok out) : out.length = 8 := by
  obtain ⟨-, -, rfl⟩ := uint64be_eq_ok.1 h
  exact length_beBytes _ _

/-- Two numbers are never written alike. -/
theorem uint64be_inj {value value' : ℤ} {out : Bytes} (h : uint64be value = .ok out)
    (h' : uint64be value' = .ok out) : value = value' := by
  obtain ⟨hpos, hmax, hout⟩ := uint64be_eq_ok.1 h
  obtain ⟨hpos', hmax', hout'⟩ := uint64be_eq_ok.1 h'
  have hsafe : maxSafeInteger < 256 ^ 8 := by decide
  have heq := congrArg beNat (hout.symm.trans hout')
  rw [beNat_beBytes (by omega), beNat_beBytes (by omega)] at heq
  omega

/-- Two parents of one input have the same children, once one child on each side is as long as a
hash. -/
theorem parentInput_left_inj {left' right' : Root} {input : Bytes} (h : parentInput left right = .ok input)
    (h' : parentInput left' right' = .ok input) (hlen : left.hash.length = left'.hash.length) :
    left.hash = left'.hash ∧ right.hash = right'.hash := by
  obtain ⟨size, hsize, hinput⟩ := parentInput_eq_ok.1 h
  obtain ⟨size', hsize', hinput'⟩ := parentInput_eq_ok.1 h'
  have heq := hinput.symm.trans hinput'
  have hlength : size.length = size'.length := by rw [length_uint64be hsize, length_uint64be hsize']
  obtain ⟨heq, hright⟩ := List.append_inj heq (by simp [hlength, hlen])
  exact ⟨(List.append_inj heq (by simp [hlength])).2, hright⟩

/-- Two parents with one input have the same children's hashes. -/
theorem parentInput_right_inj {left' right' : Root} {input : Bytes} (h : parentInput left right = .ok input)
    (h' : parentInput left' right' = .ok input) (hlen : right.hash.length = right'.hash.length) :
    left.hash = left'.hash ∧ right.hash = right'.hash := by
  obtain ⟨size, hsize, hinput⟩ := parentInput_eq_ok.1 h
  obtain ⟨size', hsize', hinput'⟩ := parentInput_eq_ok.1 h'
  have hlength := congrArg List.length (hinput.symm.trans hinput')
  simp only [List.length_append, length_uint64be hsize, length_uint64be hsize'] at hlength
  exact parentInput_left_inj h h' (by omega)

/-! ## Hashes of the tree -/

theorem leafHash_input {data hash : Bytes} (h : leafHash C data = .ok hash) :
    ∃ input, leafInput data = .ok input ∧ hash = C.blake2b input := by
  obtain ⟨hmax, rfl⟩ := leafHash_eq_ok.1 h
  exact ⟨_, leafInput_eq_ok.2 ⟨hmax, rfl⟩, rfl⟩

theorem length_subtreeRoot (h : subtreeRoot C entries start height = .ok root) : root.hash.length = 32 := by
  cases height with
  | zero =>
    obtain ⟨data, hash, -, hhash, rfl⟩ := subtreeRoot_zero_eq_ok.1 h
    obtain ⟨input, -, rfl⟩ := leafHash_input hhash
    exact C.length_blake2b input
  | succ height =>
    obtain ⟨left, right, -, -, hjoined⟩ := subtreeRoot_succ_eq_ok.1 h
    obtain ⟨input, -, rfl⟩ := joined_eq_ok.1 hjoined
    exact C.length_blake2b input

/-- The input of a subtree's own hash is among the inputs. -/
theorem root_mem_subtreeInputs (h : subtreeRoot C entries start height = .ok root) :
    ∃ input ∈ subtreeInputs C entries start height, root.hash = C.blake2b input ∧
      ((height = 0 ∧ ∃ data, entries[start]? = some data ∧ leafInput data = .ok input) ∨
        ∃ height' left right, height = height' + 1 ∧ subtreeRoot C entries start height' = .ok left ∧
          subtreeRoot C entries (start + 2 ^ height') height' = .ok right ∧
          parentInput left right = .ok input) := by
  cases height with
  | zero =>
    obtain ⟨data, hash, hdata, hhash, rfl⟩ := subtreeRoot_zero_eq_ok.1 h
    obtain ⟨input, hinput, rfl⟩ := leafHash_input hhash
    refine ⟨input, ?_, rfl, Or.inl ⟨rfl, data, hdata, hinput⟩⟩
    simp [subtreeInputs, hdata, hinput]
  | succ height =>
    obtain ⟨left, right, hleft, hright, hjoined⟩ := subtreeRoot_succ_eq_ok.1 h
    obtain ⟨input, hinput, rfl⟩ := joined_eq_ok.1 hjoined
    refine ⟨input, ?_, rfl, Or.inr ⟨height, left, right, rfl, hleft, hright, hinput⟩⟩
    simp [subtreeInputs, hleft, hright, hinput]

/-- What is hashed for the left half is hashed for the whole. -/
theorem subtreeInputs_left : subtreeInputs C entries start height ⊆ subtreeInputs C entries start (height + 1) := by
  intro x hx
  simp only [subtreeInputs, List.mem_append]
  exact Or.inl (Or.inl hx)

/-- What is hashed for the right half is hashed for the whole. -/
theorem subtreeInputs_right :
    subtreeInputs C entries (start + 2 ^ height) height ⊆ subtreeInputs C entries start (height + 1) := by
  intro x hx
  simp only [subtreeInputs, List.mem_append]
  exact Or.inl (Or.inr hx)

/-! ## Folding upward -/

theorem length_foldUp {path : List (Root × Bool)} {leaf : Root} (hleaf : leaf.hash.length = 32)
    (h : foldUp C path leaf = .ok node) : node.hash.length = 32 := by
  cases path with
  | nil =>
    rw [foldUp, Except.ok.injEq] at h
    rw [← h]
    exact hleaf
  | cons step path =>
    obtain ⟨sibling, siblingLeft⟩ := step
    rw [foldUp, Except.bind_eq_ok] at h
    obtain ⟨below, -, h⟩ := h
    split at h
    · obtain ⟨input, -, rfl⟩ := joined_eq_ok.1 h
      exact C.length_blake2b input
    · obtain ⟨input, -, rfl⟩ := joined_eq_ok.1 h
      exact C.length_blake2b input

/-- **A fold that reaches a node of the tree started from an entry under it**, whatever its
siblings are: every step of it is a step of the tree. -/
theorem mem_of_foldUp {path : List (Root × Bool)} {data hash : Bytes} (hhash : leafHash C data = .ok hash)
    (hfold : foldUp C path (verifierLeaf data hash) = .ok node)
    (hroot : subtreeRoot C entries start height = .ok root) (heq : node.hash = root.hash)
    (hfree : NoCollision C ((leafInput data).toOption.toList ++ foldInputs C path (verifierLeaf data hash) ++
      subtreeInputs C entries start height)) : data ∈ entries := by
  obtain ⟨rootInput, hrootMem, hrootHash, hshape⟩ := root_mem_subtreeInputs hroot
  obtain ⟨input, hinput, hleafHash⟩ := leafHash_input hhash
  have hleafLength : (verifierLeaf data hash).hash.length = 32 := by
    rw [hleafHash]
    exact C.length_blake2b input
  induction path generalizing node root start height rootInput with
  | nil =>
    rw [foldUp, Except.ok.injEq] at hfold
    subst hfold
    have hinputs : input = rootInput := by
      apply hfree
      · simp [hinput]
      · simp [hrootMem]
      · rw [← hrootHash, ← heq, ← hleafHash]
        rfl
    subst hinputs
    rcases hshape with ⟨-, data', hdata', hinput'⟩ | ⟨-, left, right, -, -, -, hparent⟩
    · rw [leafInput_inj hinput hinput']
      exact List.mem_of_getElem? hdata'
    · exact absurd hparent (leafInput_ne_parentInput hinput)
  | cons step path ih =>
    obtain ⟨sibling, siblingLeft⟩ := step
    rw [foldUp, Except.bind_eq_ok] at hfold
    obtain ⟨below, hbelow, hfold⟩ := hfold
    have hbelowLength : below.hash.length = 32 := length_foldUp hleafLength hbelow
    -- the input of the last step is among those of the fold
    obtain ⟨parent, hparent, hnode, hsides⟩ : ∃ parent,
        parent ∈ foldInputs C ((sibling, siblingLeft) :: path) (verifierLeaf data hash) ∧
        node.hash = C.blake2b parent ∧
        ((siblingLeft = true ∧ parentInput sibling below = .ok parent) ∨
          (siblingLeft = false ∧ parentInput below sibling = .ok parent)) := by
      cases siblingLeft with
      | true =>
        rw [if_pos rfl] at hfold
        obtain ⟨parent, hparent, rfl⟩ := joined_eq_ok.1 hfold
        exact ⟨parent, by simp [foldInputs, hbelow, hparent], rfl, Or.inl ⟨rfl, hparent⟩⟩
      | false =>
        rw [if_neg (by simp)] at hfold
        obtain ⟨parent, hparent, rfl⟩ := joined_eq_ok.1 hfold
        exact ⟨parent, by simp [foldInputs, hbelow, hparent], rfl, Or.inr ⟨rfl, hparent⟩⟩
    have hinputs : parent = rootInput := by
      apply hfree
      · simp [hparent]
      · simp [hrootMem]
      · rw [← hnode, heq, hrootHash]
    subst hinputs
    have hrest : foldInputs C path (verifierLeaf data hash) ⊆
        foldInputs C ((sibling, siblingLeft) :: path) (verifierLeaf data hash) := by
      intro x hx
      simp only [foldInputs, List.mem_append]
      exact Or.inl hx
    rcases hshape with ⟨-, data', -, hinput'⟩ | ⟨height', left, right, rfl, hleft, hright, hsame⟩
    · rcases hsides with ⟨-, hside⟩ | ⟨-, hside⟩
      · exact absurd hside (leafInput_ne_parentInput hinput')
      · exact absurd hside (leafInput_ne_parentInput hinput')
    · rcases hsides with ⟨-, hside⟩ | ⟨-, hside⟩
      · -- the sibling is the left child, and the fold below is the right one
        obtain ⟨-, hbelowHash⟩ := parentInput_right_inj hside hsame
          (by rw [hbelowLength, length_subtreeRoot hright])
        obtain ⟨rightInput, hmem, hrightHash, hrightShape⟩ := root_mem_subtreeInputs hright
        refine ih hbelow hright hbelowHash ?_ rightInput hmem hrightHash hrightShape
        apply hfree.subset
        intro x hx
        simp only [List.mem_append] at hx ⊢
        rcases hx with (hx | hx) | hx
        · exact Or.inl (Or.inl hx)
        · exact Or.inl (Or.inr (hrest hx))
        · exact Or.inr (subtreeInputs_right hx)
      · obtain ⟨hbelowHash, -⟩ := parentInput_left_inj hside hsame
          (by rw [hbelowLength, length_subtreeRoot hleft])
        obtain ⟨leftInput, hmem, hleftHash, hleftShape⟩ := root_mem_subtreeInputs hleft
        refine ih hbelow hleft hbelowHash ?_ leftInput hmem hleftHash hleftShape
        apply hfree.subset
        intro x hx
        simp only [List.mem_append] at hx ⊢
        rcases hx with (hx | hx) | hx
        · exact Or.inl (Or.inl hx)
        · exact Or.inl (Or.inr (hrest hx))
        · exact Or.inr (subtreeInputs_left hx)

/-! ## The list of peaks -/

theorem rootPart_eq_ok {part : Bytes} : rootPart root = .ok part ↔
    ∃ index size, uint64be root.index = .ok index ∧ uint64be root.size = .ok size ∧
      part = root.hash ++ index ++ size := by
  simp only [rootPart, Except.bind_eq_ok, Except.pure_eq_ok, Except.ok.injEq]
  constructor
  · rintro ⟨index, hindex, size, hsize, rfl⟩
    exact ⟨index, size, hindex, hsize, rfl⟩
  · rintro ⟨index, size, hindex, hsize, rfl⟩
    exact ⟨index, hindex, size, hsize, rfl⟩

/-- What is hashed for the root over the peaks. -/
theorem treeInput_eq_ok {roots : List Root} {input : Bytes} : treeInput roots = .ok input ↔
    ∃ parts, List.Forall₂ (fun root part => rootPart root = .ok part) roots parts ∧
      input = [rootType] ++ parts.flatten := by
  simp only [treeInput, Except.bind_eq_ok, Except.pure_eq_ok, Except.ok.injEq, Except.mapM_eq_ok]
  constructor
  · rintro ⟨parts, hparts, rfl⟩
    exact ⟨parts, hparts, rfl⟩
  · rintro ⟨parts, hparts, rfl⟩
    exact ⟨parts, hparts, rfl⟩

theorem length_rootPart {part : Bytes} (h : rootPart root = .ok part) : part.length = root.hash.length + 16 := by
  obtain ⟨index, size, hindex, hsize, rfl⟩ := rootPart_eq_ok.1 h
  rw [List.length_append, List.length_append, length_uint64be hindex, length_uint64be hsize]

/-- Two peaks are never written alike. -/
theorem rootPart_inj {root' : Root} {part : Bytes} (h : rootPart root = .ok part)
    (h' : rootPart root' = .ok part) : root = root' := by
  have hlength := (length_rootPart h).symm.trans (length_rootPart h')
  obtain ⟨index, size, hindex, hsize, hpart⟩ := rootPart_eq_ok.1 h
  obtain ⟨index', size', hindex', hsize', hpart'⟩ := rootPart_eq_ok.1 h'
  have heq := hpart.symm.trans hpart'
  have hindexLength : index.length = index'.length := by
    rw [length_uint64be hindex, length_uint64be hindex']
  have hfrontLength : (root.hash ++ index).length = (root'.hash ++ index').length := by
    rw [List.length_append, List.length_append]
    omega
  obtain ⟨hfront, hsizeEq⟩ := List.append_inj heq hfrontLength
  obtain ⟨hhash, hindexEq⟩ := List.append_inj hfront (by omega)
  rw [← hindexEq] at hindex'
  rw [← hsizeEq] at hsize'
  cases root with
  | mk hash rootIndex rootSize =>
    cases root' with
    | mk hash' rootIndex' rootSize' =>
      obtain rfl : hash = hash' := hhash
      obtain rfl : rootIndex = rootIndex' := uint64be_inj hindex hindex'
      obtain rfl : rootSize = rootSize' := uint64be_inj hsize hsize'
      rfl

/-- Where a peak's part starts among the parts of `treeHash`. -/
def peakOffset (roots : List Root) (index : ℕ) : ℕ :=
  ((roots.take index).map fun root => root.hash.length + 16).sum

theorem length_parts {roots : List Root} {parts : List Bytes}
    (h : List.Forall₂ (fun root part => rootPart root = .ok part) roots parts) :
    parts.flatten.length = (roots.map fun root => root.hash.length + 16).sum := by
  induction h with
  | nil => rfl
  | @cons root part roots parts hroot _ ih =>
    rw [List.flatten_cons, List.length_append, List.map_cons, List.sum_cons, ih, length_rootPart hroot]

/-- The part of one of the peaks, after the parts of the earlier ones. -/
theorem exists_split {roots : List Root} {parts : List Bytes} {index : ℕ} {claimed : Root}
    (h : List.Forall₂ (fun root part => rootPart root = .ok part) roots parts)
    (hclaimed : roots[index]? = some claimed) : ∃ before part after, parts.flatten = before ++ (part ++ after) ∧
      before.length = peakOffset roots index ∧ rootPart claimed = .ok part := by
  have htake := List.forall₂_take index h
  have hdrop := List.forall₂_drop index h
  have hflatten : parts.flatten = (parts.take index).flatten ++ (parts.drop index).flatten := by
    rw [← List.flatten_append, List.take_append_drop]
  rw [List.drop_eq_getElem?_toList_append, hclaimed] at hdrop
  obtain ⟨part, rest, hpart, -, hrest⟩ := List.forall₂_cons_left_iff.1 hdrop
  rw [hrest, List.flatten_cons] at hflatten
  exact ⟨_, part, _, hflatten, length_parts htake, hpart⟩

/-- In a run of parts of 48 bytes, 32 bytes that start at a multiple of 48 start a part. -/
theorem exists_part {parts : List Bytes} (hparts : ∀ part ∈ parts, part.length = 48) {m : ℕ}
    {before hash after : Bytes} (hbefore : before.length = 48 * m) (hhash : hash.length = 32)
    (h : parts.flatten = before ++ (hash ++ after)) : ∃ part ∈ parts, part.take 32 = hash := by
  induction m generalizing parts before with
  | zero =>
    obtain rfl : before = [] := List.length_eq_zero_iff.1 (by omega)
    cases parts with
    | nil =>
      have hlength := congrArg List.length h
      simp only [List.flatten_nil, List.length_nil, List.length_append] at hlength
      omega
    | cons part parts =>
      refine ⟨part, List.mem_cons_self, ?_⟩
      have hpart := hparts part List.mem_cons_self
      have htake := congrArg (List.take 32) h
      rw [List.flatten_cons, List.nil_append, List.take_append_of_le_length (by omega),
        List.take_append_of_le_length (by omega)] at htake
      rw [htake, ← hhash, List.take_length]
  | succ m ih =>
    cases parts with
    | nil =>
      have hlength := congrArg List.length h
      simp only [List.flatten_nil, List.length_nil, List.length_append] at hlength
      omega
    -- every part is 48 bytes long, so a place that is a multiple of 48 falls on a part
    | cons part parts =>
      have hpart := hparts part List.mem_cons_self
      have hsplit : part ++ parts.flatten = before.take 48 ++ (before.drop 48 ++ (hash ++ after)) := by
        rw [← List.flatten_cons, h, ← List.append_assoc (before.take 48), List.take_append_drop]
      obtain ⟨-, hrest⟩ := List.append_inj hsplit (by rw [List.length_take]; omega)
      obtain ⟨part', hmem, hpart'⟩ := ih (fun p hp => hparts p (List.mem_cons_of_mem _ hp))
        (by rw [List.length_drop]; omega) hrest
      exact ⟨part', List.mem_cons_of_mem _ hmem, hpart'⟩

section Tree

variable {tree : MerkleTree} {hash : Bytes}

/-- The root of a tree is the hash over its peaks. -/
theorem root_eq_ok : tree.root C = .ok hash ↔
    ∃ input, treeInput tree.roots = .ok input ∧ hash = C.blake2b input := by
  simp only [MerkleTree.root, treeHash, Except.bind_eq_ok, Except.pure_eq_ok, Except.ok.injEq]
  constructor
  · rintro ⟨input, hinput, rfl⟩
    exact ⟨input, hinput, rfl⟩
  · rintro ⟨input, hinput, rfl⟩
    exact ⟨input, hinput, rfl⟩

theorem Nodes.length_hash {rs : List Range} {roots : List Root} (h : Nodes C entries rs roots) :
    ∀ root ∈ roots, root.hash.length = 32 := by
  induction h with
  | nil => simp
  | cons hroot _ ih => exact List.forall_mem_cons.2 ⟨length_subtreeRoot hroot, ih⟩

theorem Nodes.length_part {rs : List Range} {roots : List Root} {parts : List Bytes}
    (h : Nodes C entries rs roots)
    (hparts : List.Forall₂ (fun root part => rootPart root = .ok part) roots parts) :
    ∀ part ∈ parts, part.length = 48 := by
  have hhashes := h.length_hash
  clear h
  induction hparts with
  | nil => simp
  | @cons root part roots parts hpart _ ih =>
    obtain ⟨hhash, hhashes⟩ := List.forall_mem_cons.1 hhashes
    rw [List.forall_mem_cons]
    exact ⟨by rw [length_rootPart hpart, hhash], ih hhashes⟩

/-- A root hashes the parts of as many honest peaks, 48 bytes each. -/
theorem exists_treeInput (htree : treeOf C entries = .ok tree) (hroot : tree.root C = .ok hash)
    (hlen : entries.length < 2 ^ 32) : ∃ parts, Nodes C entries (peakRanges entries) tree.roots ∧
      List.Forall₂ (fun root part => rootPart root = .ok part) tree.roots parts ∧
      (∀ part ∈ parts, part.length = 48) ∧ hash = C.blake2b ([rootType] ++ parts.flatten) ∧
      [rootType] ++ parts.flatten ∈ treeInputs C entries := by
  obtain ⟨rs, hbuilt⟩ := built_of_treeOf htree
  have hnodes : Nodes C entries (peakRanges entries) tree.roots := hbuilt.roots (by omega)
  obtain ⟨input, hinput, hhash⟩ := root_eq_ok.1 hroot
  obtain ⟨parts, hparts, rfl⟩ := treeInput_eq_ok.1 hinput
  refine ⟨parts, hnodes, hparts, hnodes.length_part hparts, hhash, ?_⟩
  simp only [treeInputs, List.mem_append]
  right
  simp only [htree, Except.ok_bind, hinput]
  exact List.mem_singleton_self _

/-- What is hashed for a peak is hashed for the tree. -/
theorem subtreeInputs_subset {r : Range} (hr : r ∈ peakRanges entries) :
    subtreeInputs C entries r.start r.height ⊆ treeInputs C entries := by
  intro x hx
  simp only [treeInputs, List.mem_append, List.mem_flatMap]
  exact Or.inl ⟨r, hr, hx⟩

/-- The peak of an honest part. -/
theorem Nodes.exists_range {rs : List Range} {roots : List Root} {parts : List Bytes} {part : Bytes}
    (h : Nodes C entries rs roots)
    (hparts : List.Forall₂ (fun root part => rootPart root = .ok part) roots parts) (hmem : part ∈ parts) :
    ∃ r ∈ rs, ∃ root, subtreeRoot C entries r.start r.height = .ok root ∧ rootPart root = .ok part := by
  induction hparts generalizing rs with
  | nil => simp at hmem
  | @cons root part' roots parts hpart _ ih =>
    cases h with
    | @cons r _ rs _ hroot hnodes =>
      rcases List.mem_cons.1 hmem with rfl | hmem
      · exact ⟨r, List.mem_cons_self, root, hroot, hpart⟩
      · obtain ⟨r', hr', hrest⟩ := ih hnodes hmem
        exact ⟨r', List.mem_cons_of_mem _ hr', hrest⟩

/-- What an accepting verifier has found. -/
theorem verifyInclusion_eq_true {data expected : Bytes} {proof : Proof}
    (h : verifyInclusion C data proof expected = .ok true) : ∃ hash node claimed input,
      leafHash C data = .ok hash ∧
      foldUp C (proof.siblings.zip proof.siblingIsLeft) (verifierLeaf data hash) = .ok node ∧
      proof.roots[proof.rootIndex.toNat]? = some claimed ∧ claimed.hash = node.hash ∧
      treeInput proof.roots = .ok input ∧ C.blake2b input = expected := by
  unfold verifyInclusion at h
  split_ifs at h
  · simp at h
  · simp at h
  · simp at h
  · simp only [Except.bind_eq_ok] at h
    obtain ⟨hash, hhash, node, hfold, h⟩ := h
    refine ⟨hash, node, ?_⟩
    cases hclaimed : proof.roots[proof.rootIndex.toNat]? with
    | none => simp [hclaimed] at h
    | some claimed =>
      simp only [hclaimed] at h
      split_ifs at h with hne
      · simp at h
      · simp only [treeHash, Except.bind_eq_ok, Except.pure_eq_ok, Except.ok.injEq, decide_eq_true_eq] at h
        obtain ⟨root, ⟨input, hinput, hroot⟩, hexpected⟩ := h
        exact ⟨claimed, input, hhash, hfold, rfl, Decidable.not_not.1 hne, hinput, hroot.trans hexpected⟩

/-- **An accepted leaf is an entry**, when the claimed peak starts where a peak of the tree does. -/
theorem mem_of_verifyInclusion {data : Bytes} {proof : Proof} (hlen : entries.length < 2 ^ 32)
    (htree : treeOf C entries = .ok tree) (hroot : tree.root C = .ok hash)
    (hfree : NoCollision C (treeInputs C entries ++ proofInputs C data proof))
    (haligned : 48 ∣ peakOffset proof.roots proof.rootIndex.toNat)
    (h : verifyInclusion C data proof hash = .ok true) : data ∈ entries := by
  obtain ⟨parts, hnodes, hparts, hlengths, hhash, hmem⟩ := exists_treeInput htree hroot hlen
  obtain ⟨leaf, node, claimed, input, hleaf, hfold, hclaimed, hnode, hinput, hexpected⟩ :=
    verifyInclusion_eq_true h
  -- the two lists of peaks are one string
  have hsame : input = [rootType] ++ parts.flatten := by
    apply hfree
    · simp only [proofInputs, List.mem_append]
      right
      right
      rw [hinput]
      exact List.mem_singleton_self _
    · exact List.mem_append_left _ hmem
    · rw [hexpected, hhash]
  obtain ⟨claims, hclaims, hclaimInput⟩ := treeInput_eq_ok.1 hinput
  have hflatten : claims.flatten = parts.flatten := List.append_cancel_left (hclaimInput.symm.trans hsame)
  -- and the claimed peak's hash starts one of the tree's parts
  obtain ⟨m, hoffset⟩ := haligned
  obtain ⟨before, part, after, hsplit, hbefore, hpart⟩ := exists_split hclaims hclaimed
  obtain ⟨index, size, -, -, rfl⟩ := rootPart_eq_ok.1 hpart
  obtain ⟨leafBytes, hleafInput, hleafHash⟩ := leafHash_input hleaf
  have hclaimedLength : claimed.hash.length = 32 := by
    rw [hnode]
    apply length_foldUp _ hfold
    rw [verifierLeaf, hleafHash]
    exact C.length_blake2b leafBytes
  rw [hflatten, List.append_assoc, List.append_assoc] at hsplit
  obtain ⟨honest, hhonest, htake⟩ := exists_part hlengths (hbefore.trans hoffset) hclaimedLength hsplit
  obtain ⟨r, hr, peak, hpeak, hpeakPart⟩ := hnodes.exists_range hparts hhonest
  have hpeakHash : node.hash = peak.hash := by
    obtain ⟨peakIndex, peakSize, -, -, rfl⟩ := rootPart_eq_ok.1 hpeakPart
    rw [← hnode, ← htake, List.append_assoc, ← length_subtreeRoot hpeak, List.take_left]
  refine mem_of_foldUp hleaf hfold hpeak hpeakHash (hfree.subset ?_)
  intro x hx
  simp only [proofInputs, List.mem_append, hleaf, hleafInput] at hx ⊢
  rcases hx with (hx | hx) | hx
  · exact Or.inr (Or.inl (Or.inl hx))
  · refine Or.inr (Or.inl (Or.inr ?_))
    rw [List.mem_flatMap]
    exact ⟨leaf, List.mem_singleton_self _, hx⟩
  · exact Or.inl (subtreeInputs_subset hr hx)

end Tree

/-! ## The root determines the log -/

/-- Subtrees of one hash have the same entries. -/
theorem getElem?_eq_of_subtreeRoot {entries' : List Bytes} {root' : Root}
    (h : subtreeRoot C entries start height = .ok root) (h' : subtreeRoot C entries' start height = .ok root')
    (heq : root.hash = root'.hash)
    (hfree : NoCollision C (subtreeInputs C entries start height ++ subtreeInputs C entries' start height))
    {i : ℕ} (hfrom : start ≤ i) (hto : i < start + 2 ^ height) : entries[i]? = entries'[i]? := by
  induction height generalizing start root root' with
  | zero =>
    obtain rfl : i = start := by
      rw [Nat.pow_zero] at hto
      omega
    obtain ⟨input, hmem, hinput, hshape⟩ := root_mem_subtreeInputs h
    obtain ⟨input', hmem', hinput', hshape'⟩ := root_mem_subtreeInputs h'
    -- equal hashes of inputs that were hashed on either side are of one input
    have hsame : input = input' := by
      apply hfree _ (List.mem_append_left _ hmem) _ (List.mem_append_right _ hmem')
      rw [← hinput, heq, hinput']
    subst hsame
    rcases hshape with ⟨-, data, hdata, hleaf⟩ | ⟨_, _, _, hheight, -⟩
    · rcases hshape' with ⟨-, data', hdata', hleaf'⟩ | ⟨_, _, _, hheight, -⟩
      · rw [hdata, hdata', leafInput_inj hleaf hleaf']
      · exact absurd hheight (Nat.zero_ne_add_one _)
    · exact absurd hheight (Nat.zero_ne_add_one _)
  | succ height ih =>
    obtain ⟨input, hmem, hinput, hshape⟩ := root_mem_subtreeInputs h
    obtain ⟨input', hmem', hinput', hshape'⟩ := root_mem_subtreeInputs h'
    have hsame : input = input' := by
      apply hfree _ (List.mem_append_left _ hmem) _ (List.mem_append_right _ hmem')
      rw [← hinput, heq, hinput']
    subst hsame
    rcases hshape with ⟨hheight, -⟩ | ⟨below, left, right, hheight, hleft, hright, hparent⟩
    · exact absurd hheight (Nat.succ_ne_zero _)
    rcases hshape' with ⟨hheight', -⟩ | ⟨below', left', right', hheight', hleft', hright', hparent'⟩
    · exact absurd hheight' (Nat.succ_ne_zero _)
    obtain rfl : height = below := Nat.succ.inj hheight
    obtain rfl : height = below' := Nat.succ.inj hheight'
    -- the halves' hashes stand in the parent's input, so equal inputs carry equal halves
    obtain ⟨hleftHash, hrightHash⟩ := parentInput_left_inj hparent hparent'
      (by rw [length_subtreeRoot hleft, length_subtreeRoot hleft'])
    rw [Nat.pow_succ] at hto
    by_cases hside : i < start + 2 ^ height
    · apply ih hleft hleft' hleftHash _ hfrom hside
      exact hfree.of_append subtreeInputs_left subtreeInputs_left
    · apply ih hright hright' hrightHash _ (by omega) (by omega)
      exact hfree.of_append subtreeInputs_right subtreeInputs_right

/-- The flat-tree indices of the peaks determine the peaks. -/
theorem peaks_eq_of_index {bit bit' start stop stop' : ℕ} {rs rs' : List Range} (h : Peaks bit start stop rs)
    (h' : Peaks bit' start stop' rs')
    (heq : rs.map (fun r => flatIndex r.start r.span) = rs'.map (fun r => flatIndex r.start r.span)) :
    rs = rs' ∧ stop = stop' := by
  induction h generalizing bit' rs' with
  | nil bit stop =>
    cases h' with
    | nil => exact ⟨rfl, rfl⟩
    | cons => simp at heq
  | @cons bit height start stop rs hlt _ ih =>
    cases h' with
    | nil => simp at heq
    | @cons _ height' _ _ rs' hlt' hrest' =>
      rw [List.map_cons, List.map_cons, List.cons.injEq] at heq
      obtain ⟨hhead, htail⟩ := heq
      have hspan : 2 ^ height = 2 ^ height' := by
        simp only [flatIndex, Range.span] at hhead
        omega
      obtain rfl : height = height' := Nat.pow_right_injective (Nat.le_refl 2) hspan
      obtain ⟨rfl, hstop⟩ := ih hrest' htail
      exact ⟨rfl, hstop⟩

theorem Nodes.indices {rs : List Range} {roots : List Root} (h : Nodes C entries rs roots) :
    rs.map (fun r => flatIndex r.start r.span) = roots.map Root.index := by
  induction h with
  | nil => rfl
  | cons hroot _ ih =>
    obtain ⟨hindex, -⟩ := subtreeRoot_fields hroot
    rw [List.map_cons, List.map_cons, ih, hindex]
    rfl

/-- The node at one of the ranges is the node of any log with the same nodes. -/
theorem Nodes.common {entries' : List Bytes} {rs : List Range} {roots : List Root}
    (h : Nodes C entries rs roots) (h' : Nodes C entries' rs roots) {r : Range} (hr : r ∈ rs) :
    ∃ root, subtreeRoot C entries r.start r.height = .ok root ∧
      subtreeRoot C entries' r.start r.height = .ok root := by
  induction h with
  | nil => simp at hr
  | @cons s root rs roots hroot _ ih =>
    obtain ⟨hroot', h'⟩ := List.forall₂_cons.1 h'
    rcases List.mem_cons.1 hr with rfl | hr
    · exact ⟨root, hroot, hroot'⟩
    · exact ih h' hr

/-- Two lists of peaks are never written alike. -/
theorem parts_inj {roots roots' : List Root} {parts : List Bytes}
    (h : List.Forall₂ (fun root part => rootPart root = .ok part) roots parts)
    (h' : List.Forall₂ (fun root part => rootPart root = .ok part) roots' parts) : roots = roots' := by
  induction h generalizing roots' with
  | nil => exact (List.forall₂_nil_right_iff.1 h').symm
  | cons hroot _ ih =>
    obtain ⟨root', rest, hroot', hrest, rfl⟩ := List.forall₂_cons_right_iff.1 h'
    rw [rootPart_inj hroot hroot', ih hrest]

/-- **Logs of one root are one log.** -/
theorem entries_eq_of_root {entries' : List Bytes} {tree tree' : MerkleTree} {hash : Bytes}
    (hlen : entries.length < 2 ^ 32) (hlen' : entries'.length < 2 ^ 32) (htree : treeOf C entries = .ok tree)
    (htree' : treeOf C entries' = .ok tree') (hroot : tree.root C = .ok hash) (hroot' : tree'.root C = .ok hash)
    (hfree : NoCollision C (treeInputs C entries ++ treeInputs C entries')) : entries = entries' := by
  obtain ⟨parts, hnodes, hparts, hlengths, hhash, hmem⟩ := exists_treeInput htree hroot hlen
  obtain ⟨parts', hnodes', hparts', hlengths', hhash', hmem'⟩ := exists_treeInput htree' hroot' hlen'
  have hinputs : [rootType] ++ parts.flatten = [rootType] ++ parts'.flatten :=
    hfree _ (List.mem_append_left _ hmem) _ (List.mem_append_right _ hmem') (hhash.symm.trans hhash')
  have hflatten : parts.flatten = parts'.flatten := List.append_cancel_left hinputs
  -- parts of one length, so equal in all means equal one by one
  have hmap : parts.map List.length = parts'.map List.length := by
    have hconst : parts.map List.length = List.replicate parts.length 48 := List.map_eq_replicate_iff.2 hlengths
    have hconst' : parts'.map List.length = List.replicate parts'.length 48 := List.map_eq_replicate_iff.2 hlengths'
    have htotal := congrArg List.length hflatten
    rw [List.length_flatten, List.length_flatten, hconst, hconst', List.sum_replicate_nat,
      List.sum_replicate_nat] at htotal
    rw [hconst, hconst', Nat.mul_right_cancel (by decide) htotal]
  obtain rfl : parts = parts' := List.eq_iff_flatten_eq.2 ⟨hflatten, hmap⟩
  have hroots : tree.roots = tree'.roots := parts_inj hparts hparts'
  rw [← hroots] at hnodes'
  obtain ⟨hranges, hlength⟩ := peaks_eq_of_index (peakRanges_peaks (by omega)) (peakRanges_peaks (by omega))
    (hnodes.indices.trans hnodes'.indices.symm)
  rw [← hranges] at hnodes'
  apply List.ext_getElem?
  intro i
  -- each entry lies below one of the peaks, and these are the same on both sides
  by_cases hi : i < entries.length
  · obtain ⟨r, hr, hfrom, hto⟩ := (peakRanges_peaks (by omega)).covers (Nat.zero_le i) hi
    obtain ⟨root, hroot, hroot'⟩ := hnodes.common hnodes' hr
    apply getElem?_eq_of_subtreeRoot hroot hroot' rfl _ hfrom hto
    exact hfree.of_append (subtreeInputs_subset hr) (subtreeInputs_subset (hranges ▸ hr))
  · rw [List.getElem?_eq_none (by omega), List.getElem?_eq_none (by omega)]

/-! ## Soundness -/

/-- **Inclusion proofs are sound**: an accepted leaf is an entry of the log, when the claimed peak
starts at a multiple of 48 bytes among the proof's peaks; and a root is the root of one log. -/
theorem inclusion_sound (C : Crypto) {tree : MerkleTree} {hash : Bytes} (hlen : entries.length < 2 ^ 32)
    (htree : treeOf C entries = .ok tree) (hroot : tree.root C = .ok hash) :
    (∀ data proof, NoCollision C (treeInputs C entries ++ proofInputs C data proof) →
      48 ∣ peakOffset proof.roots proof.rootIndex.toNat → verifyInclusion C data proof hash = .ok true →
        data ∈ entries) ∧
    ∀ entries' tree', entries'.length < 2 ^ 32 → treeOf C entries' = .ok tree' → tree'.root C = .ok hash →
      NoCollision C (treeInputs C entries ++ treeInputs C entries') → entries = entries' := by
  constructor
  · intro data proof hfree haligned hverify
    exact mem_of_verifyInclusion hlen htree hroot hfree haligned hverify
  · intro entries' tree' hlen' htree' hroot' hfree
    exact entries_eq_of_root hlen hlen' htree htree' hroot hroot' hfree

instance (inputs : List Bytes) : Decidable (NoCollision C inputs) :=
  inferInstanceAs (Decidable (∀ x ∈ inputs, ∀ y ∈ inputs, C.blake2b x = C.blake2b y → x = y))

/-- The proof of the second leaf of `logEntries`. -/
def logProof : Proof :=
  { leafIndex := 1, leafSize := 2
    siblings := [⟨Sample.literal 32 0xab27d45f509274ce0d08f4f09ba2d0e0d8df61a0c2a78932e81b5ef26ef398df, 0, 1⟩]
    siblingIsLeft := [true]
    roots :=
      [⟨Sample.literal 32 0xeb2ade16daf1e023998dc558bb725051d5081a25ecda33d3292b9fefdaf82e92, 1, 3⟩,
       ⟨Sample.literal 32 0x2828647a654a712738e35f49d1c05c676010be0b33882affc1d1e7e9fee59d40, 4, 1⟩]
    rootIndex := 0 }

/-- The root of the log's tree. -/
def logRoot : Bytes := Sample.literal 32 0xe38270166debeb64bd2d1856937903fa8d6e84becf3b41dbd7f3171b75e23cfd

theorem inclusion_sound_log : verifyInclusion logCrypto (utf8Encode "bc") logProof logRoot = .ok true ∧
    utf8Encode "bc" ∈ logEntries := by
  have htree : ((treeOf logCrypto logEntries).bind fun tree => tree.root logCrypto) = .ok logRoot := by decide
  obtain ⟨tree, htree, hroot⟩ := Except.bind_eq_ok.1 htree
  obtain ⟨hsound, hunique⟩ := inclusion_sound logCrypto (by decide) htree hroot
  have hverify : verifyInclusion logCrypto (utf8Encode "bc") logProof logRoot = .ok true := by decide
  have hsame : logEntries = logEntries := hunique logEntries tree (by decide) htree hroot (by decide)
  exact ⟨hverify, hsame ▸ hsound _ logProof (by decide) (by decide) hverify⟩

/-! ## A claimed peak between two peaks -/

/-- A hash under which the first peak over `forgedEntries` ends like the leaf of an entry that is
not there begins. -/
def forgedDigests : List (Bytes × Bytes) :=
  let left := Sample.literal 32 1
  let right := Sample.literal 32 2
  let first := beBytes 8 1 ++ beBytes 8 2 ++ Sample.literal 16 5
  let second := beBytes 8 3 ++ beBytes 8 4 ++ Sample.literal 16 6
  [([leafType] ++ beBytes 8 1 ++ utf8Encode "a", left), ([leafType] ++ beBytes 8 1 ++ utf8Encode "b", right),
   ([parentType] ++ beBytes 8 2 ++ left ++ right, first), ([leafType] ++ beBytes 8 1 ++ utf8Encode "c", second),
   ([leafType] ++ beBytes 8 1 ++ utf8Encode "e", Sample.literal 16 5 ++ beBytes 8 1 ++ beBytes 8 2),
   ([rootType] ++ first ++ beBytes 8 1 ++ beBytes 8 2 ++ second ++ beBytes 8 4 ++ beBytes 8 1,
    Sample.literal 32 7)]

/-- Primitives that know the hashes of the forgery. -/
def forgedCrypto : Crypto :=
  { Sample.crypto with
    blake2b := fun b => (Sample.find forgedDigests b).takeD 32 0
    length_blake2b := fun _ => List.takeD_length _ _ _ }

/-- The log that is forged. -/
def forgedEntries : List Bytes := [utf8Encode "a", utf8Encode "b", utf8Encode "c"]

/-- The first peak is empty, so that the second starts in the middle of the tree's first. -/
def forgedProof : Proof :=
  { leafIndex := 0, leafSize := 1, siblings := [], siblingIsLeft := []
    roots := [⟨[], 1, 2⟩, ⟨Sample.literal 16 5 ++ beBytes 8 1 ++ beBytes 8 2, 3, 4⟩, ⟨Sample.literal 16 6, 4, 1⟩]
    rootIndex := 1 }

theorem inclusion_unsound : ¬ ∀ (C : Crypto) (entries : List Bytes) (data : Bytes) (proof : Proof)
    (tree : MerkleTree) (hash : Bytes), treeOf C entries = .ok tree → tree.root C = .ok hash →
      NoCollision C (treeInputs C entries ++ proofInputs C data proof) →
        verifyInclusion C data proof hash = .ok true → data ∈ entries := by
  intro h
  have htree : ((treeOf forgedCrypto forgedEntries).bind fun tree => tree.root forgedCrypto) =
      .ok (Sample.literal 32 7) := by decide
  obtain ⟨tree, htree, hroot⟩ := Except.bind_eq_ok.1 htree
  have hmem := h forgedCrypto forgedEntries (utf8Encode "e") forgedProof tree _ htree hroot (by decide) (by decide)
  exact absurd hmem (by decide)

end VayuWeb
