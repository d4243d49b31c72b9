import Mathlib.Data.Nat.Log
import Nightfall.Data.Chunks
import Nightfall.Data.Collection
import Nightfall.Trees.CompleteTree

/-!
# The mutable Merkle trees

A tree is four collections of a database: its metadata, its nodes, a cache of nodes that operations
with `update_tree = false` write to, and the leaves of an indexed tree.  The nodes are numbered row
by row from the root; those that were never written are zero.

An operation may fail, and what it wrote before it failed stays written (`EStateM`).  The reads of
an operation that sets nodes see the nodes before it, since the updates are collected and run
together at the end.  Databases that are unreachable are not modelled.
-/

namespace Nightfall

namespace Trees

open Merkle

/-! ### The collections -/

/-- The errors of a tree. -/
inductive MerkleTreeError
  | treeIsFull
  | incorrectBatchSize
  | noLeaves
  /-- The database refuses a write, because a document with the key exists, or a node's number, because
  it is none of its integers. -/
  | databaseError
  | treeNotFound
  | leafExists
  | invalidProof
  | itemNotFound
  | invalidIndex
  | serializationError
  | error (message : String)
  deriving DecidableEq, Repr

/-- How an operation fails. -/
inductive Failure
  /-- It returns an error. -/
  | err (e : MerkleTreeError)
  /-- It panics. -/
  | panic (message : String)
  deriving DecidableEq, Repr

/-- The metadata of a tree. -/
structure TreeMetadata (F : Type) where
  treeHeight : ℕ
  subTreeHeight : ℕ
  /-- The number of sub-trees in the tree. -/
  subTreeCount : ℕ
  root : F
  deriving DecidableEq, Repr

/-- The value of one node. -/
structure Node (F : Type) where
  id : ℕ
  value : F
  deriving DecidableEq, Repr

/-- A leaf of an indexed tree: its value, its index in the tree and the next larger value. -/
structure IndexedLeaf (F : Type) where
  value : F
  id : ℕ
  nextIndex : ℕ
  nextValue : F
  deriving DecidableEq, Repr

/-- The collections of a tree. -/
structure TreeDb (F : Type) where
  /-- The one document with the metadata. -/
  metadata : Option (TreeMetadata F)
  nodes : Collection (Node.id (F := F))
  cache : Collection (Node.id (F := F))
  indexedLeaves : Collection (IndexedLeaf.id (F := F))

/-- No collections. -/
def TreeDb.empty {F : Type} : TreeDb F := ⟨none, .empty, .empty, .empty⟩

/-- An operation on the collections of a tree. -/
abbrev TreeM (F : Type) := EStateM Failure (TreeDb F)

/-- Fail with an error. -/
def throwErr {F α : Type} (e : MerkleTreeError) : TreeM F α := throw (.err e)

/-- Panic instead of returning an error. -/
def expect {F α : Type} (message : String) (x : TreeM F α) : TreeM F α := fun db =>
  match x db with
  | .ok a db => .ok a db
  | .error _ db => .error (.panic message) db

variable {F : Type} [Zero F] [DecidableEq F] (treeHash : F → F → F)

/-! ### Metadata and nodes -/

/-- `new_mutable_tree`. -/
def newMutableTree (treeHeight subTreeHeight : ℕ) : TreeM F Unit := do
  let db ← get
  match db.metadata with
  | some _ => throwErr .databaseError
  | none => set { db with metadata := some ⟨treeHeight, subTreeHeight, 0, 0⟩ }

/-- Read the metadata. -/
def getMetadata : TreeM F (TreeMetadata F) := do
  let db ← get
  match db.metadata with
  | some metadata => pure metadata
  | none => throwErr .treeNotFound

/-- Replace the metadata. -/
def replaceMetadata (metadata : TreeMetadata F) : TreeM F Unit :=
  modify fun db => { db with metadata := some metadata }

/-- `get_root`. -/
def getRoot : TreeM F F := do
  let metadata ← getMetadata
  pure metadata.root

/-- The value of a node in the main database; nodes that aren't there are zero. -/
def storedValue (nodes : Collection (Node.id (F := F))) (index : ℕ) : F :=
  match nodes.find index with
  | some node => node.value
  | none => 0

/-- `get_node`: the cache first, then the main database. -/
def TreeDb.getNode (db : TreeDb F) (index : ℕ) : F :=
  match db.cache.find index with
  | some node => node.value
  | none => storedValue db.nodes index

/-- The calls of `set_node` that an operation collects, run together. -/
def setNodes (updateTree : Bool) (updates : List (Node F)) : TreeM F Unit :=
  modify fun db =>
    if updateTree then { db with nodes := db.nodes.upserts updates }
    else { db with cache := db.cache.upserts updates }

/-- `flush_cache`: write the cache to the nodes and drop it. -/
def flushCache : TreeM F Unit :=
  modify fun db => { db with nodes := db.nodes.upserts db.cache.docs, cache := .empty }

/-! ### Writing a sub-tree -/

/-- Hash the path from a node, whose value is `hash`, upwards: the last hash and the nodes above
the first one. -/
def hashPath (getNode : ℕ → F) : ℕ → ℕ → F → F × List (Node F)
  | 0, _, hash => (hash, [])
  | n + 1, index, hash =>
    let hash := if index % 2 = 0 then treeHash (getNode (index - 1)) hash
      else treeHash hash (getNode (index + 1))
    let path := hashPath getNode n ((index - 1) / 2) hash
    (path.1, ⟨(index - 1) / 2, hash⟩ :: path.2)

/-- The rows of a sub-tree below its root, counted downwards.  `index` is the first node of the last
row, `subIndex` the number of its last node in the sub-tree and `span` its length. -/
def rowUpdates (subTree : List F) : ℕ → ℕ → ℕ → ℕ → List (Node F)
  | 0, _, _, _ => []
  | n + 1, index, subIndex, span =>
    (List.range (span * 2)).map
        (fun j => ⟨index * 2 + 1 + j, subTree.getD (subIndex + 1 + j) 0⟩) ++
      rowUpdates subTree n (index * 2 + 1) (subIndex + span * 2) (span * 2)

/-- Hook a sub-tree into the main tree with its root at `index`, which lies `height` rows below the
root: the new root and the nodes to set. -/
def hookSubTree (getNode : ℕ → F) (height rows index : ℕ) (subTree : List F) :
    F × List (Node F) :=
  let path := hashPath treeHash getNode height index (subTree.getD 0 0)
  (path.1, ⟨index, subTree.getD 0 0⟩ :: path.2 ++ rowUpdates subTree rows index 0 1)

/-- `insert_leaf`: one leaf at the first slot of the next sub-tree. -/
def insertLeaf (leaf : F) (updateTree : Bool) : TreeM F F := do
  let metadata ← getMetadata
  let db ← get
  let height := metadata.treeHeight + metadata.subTreeHeight
  let index := 2 ^ height - 1 + metadata.subTreeCount * 2 ^ metadata.subTreeHeight
  let hooked := hookSubTree treeHash db.getNode height 0 index [leaf]
  setNodes updateTree hooked.2
  if updateTree then
    replaceMetadata { metadata with subTreeCount := metadata.subTreeCount + 1, root := hooked.1 }
    flushCache
  pure hooked.1

/-- One round of `append_sub_trees`: a sub-tree at the next position. -/
def appendSubTree (metadata : TreeMetadata F) (updateTree : Bool) (acc : F × ℕ)
    (leafBatch : List F) : TreeM F (F × ℕ) := do
  let db ← get
  let subTree := makeCompleteTree treeHash metadata.subTreeHeight leafBatch
  let hooked := hookSubTree treeHash db.getNode metadata.treeHeight metadata.subTreeHeight
    (2 ^ metadata.treeHeight - 1 + acc.2) subTree
  setNodes updateTree hooked.2
  pure (hooked.1, acc.2 + 1)

/-- `append_sub_trees`: the new root and the leaf count. -/
def appendSubTrees (leaves : List F) (updateTree : Bool) : TreeM F (F × ℕ) := do
  let metadata ← getMetadata
  let capacity := 2 ^ metadata.subTreeHeight
  if leaves.length % capacity ≠ 0 then throwErr .incorrectBatchSize
  else if leaves.isEmpty then pure (metadata.root, metadata.subTreeCount * capacity)
  else if metadata.subTreeCount > 2 ^ metadata.treeHeight then throwErr .treeIsFull
  else do
    let appended ← (chunks capacity leaves).foldlM (appendSubTree treeHash metadata updateTree)
      (0, metadata.subTreeCount)
    if updateTree then
      replaceMetadata { metadata with subTreeCount := appended.2, root := appended.1 }
      flushCache
      pure (appended.1, appended.2 * capacity)
    else pure (appended.1, metadata.subTreeCount * capacity)

/-- The `height_to_use` of `update_sub_tree`: the row of the root of the new leaves. -/
def heightToUse (metadata : TreeMetadata F) (leaves : List F) : ℕ :=
  if Nat.log 2 leaves.length = metadata.subTreeHeight then metadata.treeHeight
  else metadata.treeHeight + metadata.subTreeHeight - Nat.log 2 leaves.length

/-- The number of rows below it that `update_sub_tree` sets. -/
def rowsToSet (metadata : TreeMetadata F) (leaves : List F) : ℕ :=
  if leaves.length ≠ 1 then metadata.subTreeHeight else 0

/-- `update_sub_tree`.  The metadata gets the new root whatever `update_tree` is. -/
def updateSubTree (subTreeIndex : ℕ) (leaves : List F) (updateTree : Bool) : TreeM F F := do
  let metadata ← getMetadata
  let height := metadata.treeHeight + metadata.subTreeHeight
  let log := Nat.log 2 leaves.length
  if 2 ^ Nat.clog 2 leaves.length ≠ leaves.length then throwErr .incorrectBatchSize
  else if leaves.isEmpty then throwErr .noLeaves
  else if 2 ^ height ≤ subTreeIndex then throwErr .invalidIndex
  else if log ≠ metadata.subTreeHeight ∧ height < log then
    -- `height_to_use` wraps around (the build is a release), so the path upwards doesn't end at the
    -- root, and asks for a node number that the database doesn't have before anything is written
    throwErr .databaseError
  else do
    let db ← get
    let subTree := makeCompleteTree treeHash log leaves
    let rows := rowsToSet metadata leaves
    if subTree.length < 2 ^ (rows + 1) - 1 then throw (.panic "index out of bounds")
    else do
      let hooked := hookSubTree treeHash db.getNode (heightToUse metadata leaves) rows
        (2 ^ heightToUse metadata leaves - 1 + subTreeIndex) subTree
      setNodes updateTree hooked.2
      if updateTree then flushCache
      replaceMetadata { metadata with root := hooked.1 }
      pure hooked.1

/-! ### Proofs -/

/-- A membership proof: the siblings from the leaf upwards, the index and the value of the leaf. -/
structure MembershipProof (F : Type) where
  siblingPath : List (PathElement F)
  leafIndex : ℕ
  nodeValue : F
  deriving DecidableEq, Repr

/-- The proof leads from its value to `root`. -/
def MembershipProof.Verifies (proof : MembershipProof F) (root : F) : Prop :=
  foldPath treeHash proof.siblingPath proof.nodeValue = root

/-- The siblings of the nodes on the path from a node upwards. -/
def siblings (getNode : ℕ → F) : ℕ → ℕ → List (PathElement F)
  | 0, _ => []
  | n + 1, index =>
    (if index % 2 = 0 then ⟨true, getNode (index - 1)⟩ else ⟨false, getNode (index + 1)⟩) ::
      siblings getNode n ((index - 1) / 2)

omit [Zero F] [DecidableEq F] in
theorem length_siblings (getNode : ℕ → F) (n index : ℕ) : (siblings getNode n index).length = n := by
  induction n generalizing index with
  | zero => rfl
  | succ n ih => rw [siblings, List.length_cons, ih]

/-- The node of a leaf that is given by its value or, first of all, by its index. -/
def leafNodeIndex (db : TreeDb F) (height : ℕ) (leaf : Option F) (leafIndex : Option ℕ) :
    Except MerkleTreeError ℕ :=
  match leafIndex, leaf with
  | some leafIndex, _ => .ok (leafIndex + 2 ^ height - 1)
  | none, some leaf =>
    if leaf = 0 then .error (.error "Cannot search for the index of a zero leaf")
    else
      match db.nodes.findOne fun node => decide (node.value = leaf) with
      | some node => .ok node.id
      | none => .error .itemNotFound
  | none, none => .error .itemNotFound

/-- `get_membership_proof`. -/
def getMembershipProof (leaf : Option F) (leafIndex : Option ℕ) : TreeM F (MembershipProof F) := do
  let metadata ← getMetadata
  let db ← get
  let height := metadata.treeHeight + metadata.subTreeHeight
  match leafNodeIndex db height leaf leafIndex with
  | .error e => throwErr e
  | .ok index =>
    if index < 2 ^ height - 1 ∨ 2 ^ (height + 1) - 2 < index then throwErr .invalidProof
    else pure {
      siblingPath := siblings db.getNode height index
      -- the code subtracts first; the difference wraps, and the sum wraps back
      leafIndex := index + 1 - 2 ^ height
      nodeValue := leaf.getD (db.getNode index) }

/-- `is_leaf`: whether the first node with the value is a leaf. -/
def isLeaf (value : F) : TreeM F Bool := do
  let metadata ← getMetadata
  let db ← get
  let height := metadata.treeHeight + metadata.subTreeHeight
  match db.nodes.findOne fun node => decide (node.value = value) with
  | none => pure false
  | some node => pure (decide (2 ^ height - 1 ≤ node.id ∧ node.id ≤ 2 ^ (height + 1) - 2))

/-! ### Insertion for a circuit -/

/-- What the rollup circuit needs to know of the insertion of a sub-tree. -/
structure CircuitInsertionInfo (F : Type) where
  oldRoot : F
  newRoot : F
  leaves : List F
  proof : MembershipProof F
  leafCount : ℕ
  deriving DecidableEq, Repr

/-- `insert_for_circuit`: one sub-tree, and a proof that its place was empty. -/
def insertForCircuit (commitments : List F) : TreeM F (CircuitInsertionInfo F) := do
  let oldMetadata ← getMetadata
  let capacity := 2 ^ oldMetadata.subTreeHeight
  if commitments.length ≠ capacity then throwErr .incorrectBatchSize
  else do
    let proofOfEmptiness ← getMembershipProof none (some (oldMetadata.subTreeCount * capacity))
    let appended ← appendSubTrees treeHash commitments true
    pure {
      oldRoot := oldMetadata.root
      newRoot := appended.1
      leaves := commitments
      proof := {
        siblingPath := proofOfEmptiness.siblingPath.drop oldMetadata.subTreeHeight
        leafIndex := oldMetadata.subTreeCount
        nodeValue := 0 }
      leafCount := oldMetadata.subTreeCount * capacity + commitments.length }

/-- `batch_insert_with_circuit_info`: one sub-tree after the other. -/
def batchInsertWithCircuitInfo (commitments : List F) : TreeM F (List (CircuitInsertionInfo F)) := do
  let metadata ← getMetadata
  let capacity := 2 ^ metadata.subTreeHeight
  if commitments.length % capacity ≠ 0 then throwErr .incorrectBatchSize
  else (chunks capacity commitments).mapM fun chunk =>
    expect "Could not insert for circuit" (insertForCircuit treeHash chunk)

/-- `reset_mutable_tree`: drop the metadata, the nodes and the cache. -/
def resetMutableTree : TreeM F Unit :=
  modify fun db => { db with metadata := none, nodes := .empty, cache := .empty }

end Trees

end Nightfall
