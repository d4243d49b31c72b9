import Mathlib.Data.List.Dedup
import Nightfall.Trees.Mutable
import Nightfall.Trees.PaddedHex

/-!
# The indexed Merkle trees

An indexed tree is a mutable tree together with a collection of the preimages of its leaves, each of
which names the record with the next larger value.  The leaf of a record is the hash of its value and
the index and the value of the next one; the records of the two insertion paths are written one by
one, and the leaves of the tree in the order of the path.

Indices are 32-bit numbers and wrap, as they do in a release build.
-/

namespace Nightfall

namespace Trees

open Merkle

/-! ### The records -/

/-- `IndexedLeaf::default`. -/
def IndexedLeaf.default : IndexedLeaf Fr254 := ⟨0, 0, 0, 0⟩

/-- What the circuit knows of a record. -/
structure LeafDBEntry (F : Type) where
  value : F
  index : ℕ
  nextIndex : F
  nextValue : F
  deriving DecidableEq, Repr

/-- `LeafDBEntry::default`. -/
def LeafDBEntry.default : LeafDBEntry Fr254 := ⟨0, 0, 0, 0⟩

/-- `LeafDBEntry::from`. -/
def IndexedLeaf.toEntry (leaf : IndexedLeaf Fr254) : LeafDBEntry Fr254 :=
  ⟨leaf.value, leaf.id, (leaf.nextIndex : Fr254), leaf.nextValue⟩

/-- The decimal representation of a field element; the leading zeros are trimmed, also that of
zero. -/
def display (a : Fr254) : String := if a = 0 then "" else toString a.val

/-- `to_string_rep`. -/
def toStringRep (a : Fr254) : String := if a = 0 then "0" else display a

/-- `ok_or`. -/
def okOr {α : Type} (e : MerkleTreeError) : Option α → TreeM Fr254 α
  | some a => pure a
  | none => throwErr e

/-- `new_indexed_leaves_db`: a collection with the zero record. -/
def newIndexedLeavesDb : TreeM Fr254 Unit := do
  let db ← get
  match db.indexedLeaves.insertOne .default with
  | some indexedLeaves => set { db with indexedLeaves := indexedLeaves }
  | none => throwErr .databaseError

/-- `get_leaf`: a record with the value and the next value that are given. -/
def getLeaf (value nextValue : Option Fr254) : TreeM Fr254 (Option (IndexedLeaf Fr254)) := do
  let db ← get
  pure (db.indexedLeaves.findOne fun leaf =>
    (value.all fun v => serializeToPaddedHex leaf.value = serializeToPaddedHex v) &&
      nextValue.all fun v => serializeToPaddedHex leaf.nextValue = serializeToPaddedHex v)

/-- `get_low_leaf`: of the records whose values are smaller, the one with the largest. -/
def getLowLeaf (leafValue : Fr254) : TreeM Fr254 (Option (IndexedLeaf Fr254)) := do
  let db ← get
  let paddedHex := serializeToPaddedHex leafValue
  pure (db.indexedLeaves.findFirst (fun leaf => serializeToPaddedHex leaf.value < paddedHex)
    fun a b => serializeToPaddedHex b.value ≤ serializeToPaddedHex a.value)

/-- `update_leaf`: the record with the value gets a new next index and a new next value. -/
def updateLeaf (leaf : Fr254) (newNextIndex : ℕ) (newNextValue : Fr254) : TreeM Fr254 Unit :=
  modify fun db => { db with
    indexedLeaves := db.indexedLeaves.updateOne
      (fun x => serializeToPaddedHex x.value = serializeToPaddedHex leaf)
      (fun x => { x with nextIndex := newNextIndex, nextValue := newNextValue }) fun _ => rfl }

/-- `store_leaf`: a record that takes over what its low leaf names, and that its low leaf names. -/
def storeLeaf (leaf : Fr254) (index : Option ℕ) : TreeM Fr254 (Option Unit) := do
  let existing ← getLeaf (some leaf) none
  if existing.isSome then throwErr .leafExists
  else do
    let lowLeaf ← getLowLeaf leaf
    let lowLeaf ← okOr .leafExists lowLeaf
    let db ← get
    let index := index.getD (db.indexedLeaves.docs.length % 2 ^ 32)
    match db.indexedLeaves.insertOne ⟨leaf, index, lowLeaf.nextIndex, lowLeaf.nextValue⟩ with
    | none => throwErr .databaseError
    | some indexedLeaves => do
      set { db with indexedLeaves := indexedLeaves }
      updateLeaf lowLeaf.value index leaf
      pure (some ())

/-! ### The tree -/

section Operations

variable (treeHash : Fr254 → Fr254 → Fr254) (hash : Fr254 → Fr254 → Fr254 → Fr254)

/-- The leaf of a record. -/
def IndexedLeaf.leaf (record : IndexedLeaf Fr254) : Fr254 :=
  hash record.value (record.nextIndex : Fr254) record.nextValue

/-- `new_indexed_tree`: a new tree with the leaf of the zero record. -/
def newIndexedTree (treeHeight subTreeHeight : ℕ) : TreeM Fr254 Unit := do
  newMutableTree treeHeight subTreeHeight
  newIndexedLeavesDb
  let entry ← getLeaf (some 0) none
  let entry ← okOr .noLeaves entry
  let _ ← insertLeaf treeHash (entry.leaf hash) true
  pure ()

/-- The metadata, as the indexed tree reads them. -/
def findMetadata : TreeM Fr254 (TreeMetadata Fr254) := do
  let db ← get
  okOr .itemNotFound db.metadata

/-- `get_non_membership_proof`: a proof for the low leaf of a value. -/
def getNonMembershipProof (leaf : Fr254) : TreeM Fr254 (MembershipProof Fr254) := do
  if leaf = 0 then throwErr .leafExists
  else do
    let existing ← getLeaf (some leaf) none
    if existing.isSome then throwErr .leafExists
    else do
      let metadata ← findMetadata
      let height := metadata.treeHeight + metadata.subTreeHeight
      let lowNullifier ← getLowLeaf leaf
      let lowNullifier ← okOr (.error "Could not get low leaf") lowNullifier
      let db ← get
      pure {
        siblingPath := siblings db.getNode height (2 ^ height - 1 + lowNullifier.id)
        leafIndex := lowNullifier.id
        nodeValue := lowNullifier.leaf hash }

/-! ### Insertion of leaves -/

/-- The check at the start of `insert_leaves`. -/
def checkNew : List Fr254 → TreeM Fr254 Unit
  | [] => pure ()
  | leaf :: leaves => do
    let existing ← getLeaf (some leaf) none
    if existing.isSome ∧ leaf ≠ 0 then throwErr .leafExists
    else checkNew leaves

/-- Store the leaves that are not zero, with consecutive indices from `insertIndex` on. -/
def storeLeaves : ℕ → List Fr254 → TreeM Fr254 Unit
  | _, [] => pure ()
  | insertIndex, innerLeaf :: innerLeaves => do
    if innerLeaf ≠ 0 then
      let res ← storeLeaf innerLeaf (some insertIndex)
      okOr (.error s!"Failed to store leaf {toStringRep innerLeaf}") res
    storeLeaves ((insertIndex + 1) % 2 ^ 32) innerLeaves

/-- The record of a leaf that was stored. -/
def getIndexedLeaf (innerLeaf : Fr254) : TreeM Fr254 (IndexedLeaf Fr254) := do
  let leaf ← getLeaf (some innerLeaf) none
  okOr (.error s!"failed to get IndexedLeaf struct with value {display innerLeaf}") leaf

/-- The update of the tree for a low nullifier. -/
def getUpdateInfo (lowNullifier : Fr254) : TreeM Fr254 (Fr254 × ℕ) := do
  let leaf ← getLeaf (some lowNullifier) none
  let leaf ← okOr .itemNotFound leaf
  pure (leaf.leaf hash, leaf.id)

/-- The index of the first leaf of the next sub-tree. -/
def TreeMetadata.insertIndex (metadata : TreeMetadata Fr254) : ℕ :=
  metadata.subTreeCount % 2 ^ 32 * 2 ^ metadata.subTreeHeight % 2 ^ 32

/-- `insert_leaves`: store the leaves, append them to the tree and update their low nullifiers, which
are found before. -/
def insertLeaves (innerLeafValues : List Fr254) : TreeM Fr254 Fr254 := do
  if innerLeafValues.isEmpty then getRoot
  else do
    checkNew innerLeafValues
    let lowLeaves ← innerLeafValues.mapM getLowLeaf
    let lowNullifiers :=
      (((lowLeaves.filterMap id).map IndexedLeaf.value).insertionSort (·.val ≤ ·.val)).dedup
    let metadata ← findMetadata
    storeLeaves metadata.insertIndex innerLeafValues
    let indexedLeaves ← innerLeafValues.mapM getIndexedLeaf
    let leafValues := indexedLeaves.map fun leaf => if leaf.value ≠ 0 then leaf.leaf hash else 0
    let _ ← appendSubTrees treeHash leafValues true
    let updateInfo ← lowNullifiers.mapM (getUpdateInfo hash)
    updateInfo.foldlM (fun _ info => updateSubTree treeHash info.2 [info.1] true) 0

/-! ### Insertion for a circuit -/

/-- What the rollup circuit needs to know of the insertion of a sub-tree of nullifiers. -/
structure IMTCircuitInsertionInfo (F : Type) where
  oldRoot : F
  circuitInfo : CircuitInsertionInfo F
  firstIndex : ℕ
  /-- The low nullifier of each leaf, with its proof. -/
  lowNullifiers : List (LeafDBEntry F × MembershipProof F)
  pendingInserts : List (LeafDBEntry F)
  deriving DecidableEq, Repr

/-- A proof of which only the value, and the index, are used. -/
def dummyProof (metadata : TreeMetadata Fr254) (leafIndex : ℕ) (nodeValue : Fr254) :
    MembershipProof Fr254 where
  siblingPath := List.replicate (metadata.treeHeight + metadata.subTreeHeight) ⟨true, 0⟩
  leafIndex := leafIndex
  nodeValue := nodeValue

/-- One nullifier of `insert_nullifiers_for_circuit`: its low nullifier, and a proof of it if it is
in the tree. -/
def insertNullifier (metadata : TreeMetadata Fr254) (firstIndex initialIndex : ℕ)
    (innerValue : Fr254) : TreeM Fr254 (LeafDBEntry Fr254 × MembershipProof Fr254) := do
  let existing ← getLeaf (some innerValue) none
  if existing.isSome ∧ innerValue ≠ 0 then throwErr .leafExists
  else if innerValue ≠ 0 then do
    let lowNullifier ← getLowLeaf innerValue
    let lowNullifier ← okOr
      (.error s!"Could not get low nullifier for inner value: {display innerValue}") lowNullifier
    if lowNullifier.id < firstIndex then do
      let proof ← getNonMembershipProof hash innerValue
      let stored ← storeLeaf innerValue (some initialIndex)
      okOr (.error "Could not store nullifier") stored
      let updatedNullifier ← getLeaf (some lowNullifier.value) none
      let updatedNullifier ← okOr (.error "Could not get low nullifier") updatedNullifier
      let _ ← updateSubTree treeHash updatedNullifier.id [updatedNullifier.leaf hash] true
      pure (lowNullifier.toEntry, proof)
    else do
      -- the low nullifier is pending: it is inserted with the batch
      let stored ← storeLeaf innerValue (some initialIndex)
      okOr (.error "Could not store leaf") stored
      -- the 64-bit difference of the next index and 1
      let leafIndex := ((initialIndex + 1) % 2 ^ 32 + (2 ^ 64 - 1)) % 2 ^ 64
      pure (lowNullifier.toEntry, dummyProof metadata leafIndex (lowNullifier.leaf hash))
  else pure (IndexedLeaf.default.toEntry, dummyProof metadata 0 0)

/-- The nullifiers of `insert_nullifiers_for_circuit`, one by one. -/
def insertEach (metadata : TreeMetadata Fr254) (firstIndex : ℕ) :
    ℕ → List Fr254 → TreeM Fr254 (List (LeafDBEntry Fr254 × MembershipProof Fr254))
  | _, [] => pure []
  | initialIndex, innerValue :: leaves => do
    let lowNullifier ← insertNullifier treeHash hash metadata firstIndex initialIndex innerValue
    let lowNullifiers ← insertEach metadata firstIndex ((initialIndex + 1) % 2 ^ 32) leaves
    pure (lowNullifier :: lowNullifiers)

/-- The record of a nullifier after the batch was stored. -/
def getPendingInsert (innerValue : Fr254) : TreeM Fr254 (LeafDBEntry Fr254) := do
  if innerValue ≠ 0 then do
    let leaf ← getLeaf (some innerValue) none
    let leaf ← okOr (.error "Could not retrieve nullifier") leaf
    pure leaf.toEntry
  else pure .default

/-- The leaf of a pending insert. -/
def LeafDBEntry.leaf (entry : LeafDBEntry Fr254) : Fr254 :=
  if entry.value ≠ 0 then hash entry.value entry.nextIndex entry.nextValue else 0

/-- `insert_nullifiers_for_circuit`: update the low nullifiers that are in the tree one by one, and
insert the new leaves as a sub-tree. -/
def insertNullifiersForCircuit (leaves : List Fr254) :
    TreeM Fr254 (IMTCircuitInsertionInfo Fr254) := do
  let metadata ← findMetadata
  if 2 ^ metadata.subTreeHeight ≠ leaves.length then throwErr .incorrectBatchSize
  else do
    let firstIndex := metadata.insertIndex
    let lowNullifiers ← insertEach treeHash hash metadata firstIndex firstIndex leaves
    let pendingInserts ← leaves.mapM getPendingInsert
    let circuitInfo ← insertForCircuit treeHash (pendingInserts.map (LeafDBEntry.leaf hash))
    pure {
      oldRoot := metadata.root
      circuitInfo := circuitInfo
      firstIndex := firstIndex
      lowNullifiers := lowNullifiers
      pendingInserts := pendingInserts }

/-- `batch_insert_nullifiers_with_circuit_info`: batches of eight. -/
def batchInsertNullifiersWithCircuitInfo (nullifiers : List Fr254) :
    TreeM Fr254 (List (IMTCircuitInsertionInfo Fr254)) := do
  if nullifiers.isEmpty then pure []
  else (chunks 8 nullifiers).mapM (insertNullifiersForCircuit treeHash hash)

end Operations

end Trees

end Nightfall
