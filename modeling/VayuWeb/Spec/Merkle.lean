import VayuWeb.Base.Mountain
import VayuWeb.Spec.Domain

/-!
# The merkle tree of the log (`registry/src/merkle.ts`)

The numbers of a `Root` and of a `Proof` are integers. A fraction among them makes `uint64be`
throw, or disappears in the rounding of a sum that only `uint64be` reads. A span is a power of
two, and what the source divides by two is the height here.
-/

namespace VayuWeb

open Bytes
open Mountain (Range decompose)

/-- `LEAF_TYPE`. -/
def leafType : UInt8 := 0x00

/-- `PARENT_TYPE`. -/
def parentType : UInt8 := 0x01

/-- `ROOT_TYPE`. -/
def rootType : UInt8 := 0x02

/-- What the tree throws. -/
inductive MerkleError where
  | sizeOutOfRange (value : ℤ)
  | outsideLog (leaf length : ℕ)
  /-- An entry that is not there is read. -/
  | undefinedEntry
  deriving DecidableEq, Repr

/-- A subtree peak: its hash, its flat-tree index, and the byte length it covers. -/
structure Root where
  hash : Bytes
  index : ℤ
  size : ℤ
  deriving DecidableEq, Repr

/-- `uint64be`: eight bytes, of a safe integer only. -/
def uint64be (value : ℤ) : Except MerkleError Bytes :=
  if value < 0 ∨ value > maxSafeInteger then .error (.sizeOutOfRange value)
  else .ok (beBytes 8 value.toNat)

/-! ## What is hashed -/

/-- What is hashed for a leaf. -/
def leafInput (data : Bytes) : Except MerkleError Bytes := do
  return [leafType] ++ (← uint64be data.length) ++ data

/-- What is hashed for a parent of two nodes. -/
def parentInput (left right : Root) : Except MerkleError Bytes := do
  return [parentType] ++ (← uint64be (left.size + right.size)) ++ left.hash ++ right.hash

/-- One peak among the parts of `treeHash`. -/
def rootPart (root : Root) : Except MerkleError Bytes := do
  return root.hash ++ (← uint64be root.index) ++ (← uint64be root.size)

/-- What is hashed for the root over the peaks. -/
def treeInput (roots : List Root) : Except MerkleError Bytes := do
  return [rootType] ++ (← roots.mapM rootPart).flatten

section Tree

variable (C : Crypto)

/-- The hash of a leaf. -/
def leafHash (data : Bytes) : Except MerkleError Bytes := do return C.blake2b (← leafInput data)

/-- The hash of a parent. -/
def parentHash (left right : Root) : Except MerkleError Bytes := do
  return C.blake2b (← parentInput left right)

/-- The tree root over a set of peaks. -/
def treeHash (roots : List Root) : Except MerkleError Bytes := do return C.blake2b (← treeInput roots)

/-- The flat-tree index of a subtree covering `count` leaves starting at leaf `start`. -/
def flatIndex (start count : ℕ) : ℤ := 2 * start + count - 1

/-! ## The tree -/

/-- An append-only merkle tree; the peaks and their spans stand rightmost first. -/
structure MerkleTree where
  peaks : List Root
  spans : List ℕ
  leafCount : ℕ
  bytes : ℕ
  deriving DecidableEq, Repr

/-- The tree of the empty log. -/
def MerkleTree.empty : MerkleTree := { peaks := [], spans := [], leafCount := 0, bytes := 0 }

/-- The node over two neighbours, as the carry loop and `subtreeRoot` make it. -/
def joined (left right : Root) (index : ℤ) : Except MerkleError Root := do
  return { hash := ← parentHash C left right, index := index, size := left.size + right.size }

/-- The carry loop: combine while the rightmost peak covers as many leaves as the node carried. -/
def carryLoop (leafCount : ℕ) : List Root → List ℕ → Root → ℕ → Except MerkleError (List Root × List ℕ)
  | left :: peaks, last :: spans, carry, span =>
    if last = span then do
      let span := span * 2
      let carry ← joined C left carry (flatIndex (leafCount - span) span)
      carryLoop leafCount peaks spans carry span
    else .ok (carry :: left :: peaks, span :: last :: spans)
  | peaks, spans, carry, span => .ok (carry :: peaks, span :: spans)

/-- Appends a leaf and merges peaks of equal span. -/
def MerkleTree.append (tree : MerkleTree) (data : Bytes) : Except MerkleError MerkleTree := do
  let leaf : Root :=
    { hash := ← leafHash C data, index := flatIndex tree.leafCount 1, size := data.length }
  let (peaks, spans) ← carryLoop C (tree.leafCount + 1) tree.peaks tree.spans leaf 1
  return { peaks := peaks, spans := spans, leafCount := tree.leafCount + 1,
           bytes := tree.bytes + data.length }

/-- The peaks, left to right. -/
def MerkleTree.roots (tree : MerkleTree) : List Root := tree.peaks.reverse

/-- The checkpoint's `treeRoot`. -/
def MerkleTree.root (tree : MerkleTree) : Except MerkleError Bytes := treeHash C tree.roots

/-- The tree of a list of entries. -/
def treeOf (entries : List Bytes) : Except MerkleError MerkleTree :=
  entries.foldlM (MerkleTree.append C) .empty

/-! ## Proofs -/

/-- An inclusion proof: the leaf, and the path of siblings to its peak. -/
structure Proof where
  leafIndex : ℤ
  leafSize : ℤ
  /-- Sibling nodes, the highest first. -/
  siblings : List Root
  siblingIsLeft : List Bool
  roots : List Root
  rootIndex : ℤ
  deriving DecidableEq, Repr

/-- The root node of the complete subtree of this height from `start`. -/
def subtreeRoot (entries : List Bytes) (start : ℕ) : ℕ → Except MerkleError Root
  | 0 =>
    match entries[start]? with
    | none => .error .undefinedEntry
    | some data => do
      return { hash := ← leafHash C data, index := flatIndex start 1, size := data.length }
  | height + 1 => do
    let left ← subtreeRoot entries start height
    let right ← subtreeRoot entries (start + 2 ^ height) height
    joined C left right (flatIndex start (2 ^ (height + 1)))

/-- The walk down the covering subtree, which records the sibling at each level. -/
def descend (entries : List Bytes) (leafIndex : ℕ) : ℕ → ℕ → Except MerkleError (List Root × List Bool)
  | _, 0 => .ok ([], [])
  | lo, height + 1 => do
    let half := 2 ^ height
    let goRight : Bool := leafIndex ≥ lo + half
    let sibling ← subtreeRoot C entries (if goRight then lo else lo + half) height
    let (siblings, siblingIsLeft) ← descend entries leafIndex (if goRight then lo + half else lo) height
    return (sibling :: siblings, goRight :: siblingIsLeft)

/-- The leaf is under this peak. -/
def covers (leafIndex : ℕ) (p : Range) : Bool :=
  leafIndex ≥ p.start ∧ leafIndex < p.start + p.span

/-- Proves the entry at an index, inside the peak that covers it. -/
def proveInclusion (entries : List Bytes) (leafIndex : ℕ) : Except MerkleError Proof :=
  if leafIndex ≥ entries.length then .error (.outsideLog leafIndex entries.length)
  else do
    let peakSpans := decompose 53 0 entries.length
    match peakSpans.find? (covers leafIndex), entries[leafIndex]? with
    | some covering, some leaf => do
      let (siblings, siblingIsLeft) ← descend C entries leafIndex covering.start covering.height
      let roots ← peakSpans.mapM fun p => subtreeRoot C entries p.start p.height
      return { leafIndex := leafIndex, leafSize := leaf.length, siblings := siblings,
               siblingIsLeft := siblingIsLeft, roots := roots, rootIndex := peakSpans.findIdx (covers leafIndex) }
    | _, _ => .error .undefinedEntry

/-- Fold upward from a leaf, the highest sibling last. -/
def foldUp : List (Root × Bool) → Root → Except MerkleError Root
  | [], node => .ok node
  | (sibling, siblingLeft) :: path, node => do
    let node ← foldUp path node
    if siblingLeft then joined C sibling node 0 else joined C node sibling 0

/-- Verify that `data` is a leaf in a log whose root is `expectedRoot`. -/
def verifyInclusion (data : Bytes) (proof : Proof) (expectedRoot : Bytes) : Except MerkleError Bool :=
  if data.length ≠ proof.leafSize then .ok false
  else if proof.siblings.length ≠ proof.siblingIsLeft.length then .ok false
  else if proof.rootIndex < 0 ∨ proof.rootIndex ≥ proof.roots.length then .ok false
  else do
    let leaf : Root := { hash := ← leafHash C data, index := 0, size := data.length }
    let node ← foldUp C (proof.siblings.zip proof.siblingIsLeft) leaf
    match proof.roots[proof.rootIndex.toNat]? with
    | none => .error .undefinedEntry
    | some claimed =>
      -- the lengths and then the bytes
      if claimed.hash ≠ node.hash then .ok false
      else do
        let root ← treeHash C proof.roots
        return root = expectedRoot

end Tree

end VayuWeb
