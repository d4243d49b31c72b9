import Nightfall.Trees.Hook

/-!
# The naive tree

The naive tree keeps all leaves and computes every node from them.  The mutable tree stores the
nodes that an operation touches only; it refines the naive tree (`Refines`), so that reading a node
of it is reading the node of the naive tree.

The operations are the commands `TreeOp`; their effect on the naive tree is `NaiveTree.apply`, for
the commands that fit into the tree (`TreeOp.Fits`).
-/

namespace Nightfall

namespace Trees

open Merkle

variable {F : Type}

/-! ### Commands -/

/-- The operations on a mutable tree. -/
inductive TreeOp (F : Type)
  | insertLeaf (leaf : F) (updateTree : Bool)
  | appendSubTrees (leaves : List F) (updateTree : Bool)
  | updateSubTree (subTreeIndex : ℕ) (leaves : List F) (updateTree : Bool)
  | insertForCircuit (commitments : List F)
  | batchInsertWithCircuitInfo (commitments : List F)
  | getRoot
  | getMembershipProof (leaf : Option F) (leafIndex : Option ℕ)
  deriving DecidableEq, Repr

/-- What an operation returns. -/
inductive TreeResult (F : Type)
  | root (root : F)
  | appended (root : F) (leafCount : ℕ)
  | inserted (infos : List (CircuitInsertionInfo F))
  | proof (proof : MembershipProof F)
  deriving DecidableEq, Repr

/-- The root in a result. -/
def TreeResult.returnedRoot : TreeResult F → Option F
  | .root r => some r
  | .appended r _ => some r
  | .inserted infos => infos.getLast?.map CircuitInsertionInfo.newRoot
  | .proof _ => none

/-- The leaf count in a result. -/
def TreeResult.leafCount : TreeResult F → Option ℕ
  | .appended _ count => some count
  | .inserted infos => infos.getLast?.map CircuitInsertionInfo.leafCount
  | _ => none

variable [Zero F]

/-- Run a command. -/
def TreeOp.exec [DecidableEq F] (treeHash : F → F → F) : TreeOp F → TreeM F (TreeResult F)
  | .insertLeaf leaf updateTree => do
    let root ← Trees.insertLeaf treeHash leaf updateTree
    pure (.root root)
  | .appendSubTrees leaves updateTree => do
    let appended ← Trees.appendSubTrees treeHash leaves updateTree
    pure (.appended appended.1 appended.2)
  | .updateSubTree subTreeIndex leaves updateTree => do
    let root ← Trees.updateSubTree treeHash subTreeIndex leaves updateTree
    pure (.root root)
  | .insertForCircuit commitments => do
    let info ← Trees.insertForCircuit treeHash commitments
    pure (.inserted [info])
  | .batchInsertWithCircuitInfo commitments => do
    let infos ← Trees.batchInsertWithCircuitInfo treeHash commitments
    pure (.inserted infos)
  | .getRoot => do
    let root ← Trees.getRoot
    pure (.root root)
  | .getMembershipProof leaf leafIndex => do
    let proof ← Trees.getMembershipProof leaf leafIndex
    pure (.proof proof)

/-! ### The naive tree -/

/-- All leaves of a tree, zero where none was written, and the number of its sub-trees. -/
structure NaiveTree (F : Type) where
  treeHeight : ℕ
  subTreeHeight : ℕ
  leaves : ℕ → F
  subTreeCount : ℕ

namespace NaiveTree

/-- The tree without leaves. -/
def new (treeHeight subTreeHeight : ℕ) : NaiveTree F := ⟨treeHeight, subTreeHeight, fun _ => 0, 0⟩

/-- The height of the whole tree. -/
def height (t : NaiveTree F) : ℕ := t.treeHeight + t.subTreeHeight

/-- The list of the leaves. -/
def leafList (t : NaiveTree F) : List F := (List.range (2 ^ t.height)).map t.leaves

/-- The node with number `i`. -/
def node (treeHash : F → F → F) (t : NaiveTree F) (i : ℕ) : F :=
  completeNode treeHash 0 t.height t.leaves i

/-- The leaves with `l` from `start` on. -/
def overwrite (f : ℕ → F) (start : ℕ) (l : List F) (i : ℕ) : F :=
  if start ≤ i ∧ i < start + l.length then l.getD (i - start) 0 else f i

/-- The tree with `l` written from the leaf `start` on. -/
def write (t : NaiveTree F) (start : ℕ) (l : List F) : NaiveTree F :=
  { t with leaves := overwrite t.leaves start l }

/-- The tree with `l` appended after the last sub-tree; `k` sub-trees are used up. -/
def append (t : NaiveTree F) (l : List F) (k : ℕ) : NaiveTree F :=
  { t.write (t.subTreeCount * 2 ^ t.subTreeHeight) l with subTreeCount := t.subTreeCount + k }

/-- The effect of a committed command. -/
def apply (t : NaiveTree F) : TreeOp F → NaiveTree F
  | .insertLeaf leaf true => t.append [leaf] 1
  | .appendSubTrees leaves true => t.append leaves (leaves.length / 2 ^ t.subTreeHeight)
  | .updateSubTree subTreeIndex leaves true => t.write (subTreeIndex * leaves.length) leaves
  | .insertForCircuit commitments => t.append commitments 1
  | .batchInsertWithCircuitInfo commitments =>
    t.append commitments (commitments.length / 2 ^ t.subTreeHeight)
  | _ => t

@[simp] theorem apply_treeHeight (t : NaiveTree F) (op : TreeOp F) :
    (t.apply op).treeHeight = t.treeHeight := by
  unfold apply
  split <;> rfl

@[simp] theorem apply_subTreeHeight (t : NaiveTree F) (op : TreeOp F) :
    (t.apply op).subTreeHeight = t.subTreeHeight := by
  unfold apply
  split <;> rfl

theorem foldl_apply_heights (t : NaiveTree F) (ops : List (TreeOp F)) :
    (ops.foldl apply t).treeHeight = t.treeHeight ∧
      (ops.foldl apply t).subTreeHeight = t.subTreeHeight := by
  induction ops generalizing t with
  | nil => exact ⟨rfl, rfl⟩
  | cons op ops ih =>
    rw [List.foldl_cons, (ih _).1, (ih _).2]
    exact ⟨apply_treeHeight t op, apply_subTreeHeight t op⟩

theorem node_eq_makeCompleteTree {treeHash : F → F → F} (t : NaiveTree F) (i : ℕ) :
    t.node treeHash i = (makeCompleteTree treeHash t.height t.leafList).getD i 0 := by
  rw [makeCompleteTree_getD (by simp [leafList])]
  refine completeNode_congr fun l hl _ => ?_
  simp [leafList, hl]

end NaiveTree

/-- The commands within the capacity of the tree. -/
def TreeOp.Fits (t : NaiveTree F) : TreeOp F → Prop
  | .insertLeaf _ _ => t.subTreeCount < 2 ^ t.treeHeight
  | .appendSubTrees leaves _ => leaves ≠ [] ∧ leaves.length % 2 ^ t.subTreeHeight = 0 ∧
    t.subTreeCount + leaves.length / 2 ^ t.subTreeHeight ≤ 2 ^ t.treeHeight
  | .updateSubTree subTreeIndex leaves _ =>
    leaves.length = 1 ∧ subTreeIndex < 2 ^ t.height ∨
      leaves.length = 2 ^ t.subTreeHeight ∧ subTreeIndex < 2 ^ t.treeHeight
  | .insertForCircuit commitments => commitments.length = 2 ^ t.subTreeHeight ∧
    t.subTreeCount < 2 ^ t.treeHeight
  | .batchInsertWithCircuitInfo commitments => commitments.length % 2 ^ t.subTreeHeight = 0 ∧
    t.subTreeCount + commitments.length / 2 ^ t.subTreeHeight ≤ 2 ^ t.treeHeight
  | _ => True

instance decidableFits [DecidableEq F] (t : NaiveTree F) : (op : TreeOp F) → Decidable (op.Fits t)
  | .insertLeaf _ _ => inferInstanceAs (Decidable (_ < _))
  | .appendSubTrees _ _ => inferInstanceAs (Decidable (_ ∧ _ ∧ _))
  | .updateSubTree _ _ _ => inferInstanceAs (Decidable (_ ∧ _ ∨ _ ∧ _))
  | .insertForCircuit _ => inferInstanceAs (Decidable (_ ∧ _))
  | .batchInsertWithCircuitInfo _ => inferInstanceAs (Decidable (_ ∧ _))
  | .getRoot => .isTrue trivial
  | .getMembershipProof _ _ => .isTrue trivial

end Trees

end Nightfall
