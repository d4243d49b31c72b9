import Mathlib.Data.List.GetD
import Nightfall.Merkle.NodeIndex

/-!
# `make_complete_tree`

`makeCompleteTree` computes all nodes of a small tree in one vector: it copies the leaves into the
last row and hashes the nodes in pairs, from the last one backwards.  `makeCompleteTree_getD` says
that the entries are the nodes `completeNode` of the tree, numbered row by row, and
`holdsTree_makeCompleteTree` that they form the Merkle tree over the padded leaves.
-/

namespace Nightfall

namespace Trees

open Merkle

variable {F : Type} [Zero F] (treeHash : F → F → F)

/-- Hash the nodes `index - 1` and `index`, where `index` is `n_nodes - 2 * k - 1`, into their
parent. -/
def hashPair (nNodes : ℕ) (nodes : List F) (k : ℕ) : List F :=
  let index := nNodes - 2 * k - 1
  nodes.set (index / 2 - 1) (treeHash (nodes.getD (index - 1) 0) (nodes.getD index 0))

/-- The nodes of the tree over at most `2 ^ height` leaves. -/
def makeCompleteTree (height : ℕ) (leaves : List F) : List F :=
  let nNodes := 2 ^ (height + 1) - 1
  let nLeaves := 2 ^ height
  let firstLeafIndex := nNodes - nLeaves
  let nodes := List.replicate firstLeafIndex 0 ++ leaves ++
    List.replicate (nLeaves - leaves.length) 0
  (List.range (nNodes / 2)).foldl (hashPair treeHash nNodes) nodes

variable {treeHash}

/-! ### The loop -/

/-- The nodes from number `j` on are those of the tree over `leaves`. -/
def NodesFrom (treeHash : F → F → F) (height : ℕ) (leaves nodes : List F) (j : ℕ) : Prop :=
  nodes.length = 2 ^ (height + 1) - 1 ∧
    ∀ i, j ≤ i → nodes.getD i 0 = completeNode treeHash 0 height (leaves.getD · 0) i

theorem nodesFrom_leaves {height : ℕ} {leaves : List F} (hlen : leaves.length ≤ 2 ^ height) :
    NodesFrom treeHash height leaves
      (List.replicate (2 ^ (height + 1) - 1 - 2 ^ height) 0 ++ leaves ++
        List.replicate (2 ^ height - leaves.length) 0) (2 ^ height - 1) := by
  have hpow : 2 ^ (height + 1) = 2 * 2 ^ height := pow_succ' 2 height
  have hpos := Nat.two_pow_pos height
  constructor
  · simp only [List.length_append, List.length_replicate]
    omega
  · intro i hi
    -- the position of the node in the last row
    obtain ⟨p, rfl⟩ : ∃ p, i = nodeIndex height p := ⟨i - (2 ^ height - 1), by
      unfold nodeIndex
      omega⟩
    have hfirst : nodeIndex height p = 2 ^ (height + 1) - 1 - 2 ^ height + p := by
      unfold nodeIndex
      omega
    have hleaf : (List.replicate (2 ^ (height + 1) - 1 - 2 ^ height) 0 ++ leaves ++
        List.replicate (2 ^ height - leaves.length) 0).getD (nodeIndex height p) 0 =
        leaves.getD p 0 := by
      rw [List.append_assoc, hfirst, List.getD_append_right _ _ _ _ (by simp)]
      simp only [List.length_replicate, Nat.add_sub_cancel_left]
      by_cases hp : p < leaves.length
      · rw [List.getD_append _ _ _ _ hp]
      · rw [List.getD_append_right _ _ _ _ (by omega), List.getD_eq_default leaves _ (by omega)]
        by_cases hp' : p - leaves.length < 2 ^ height - leaves.length
        · exact List.getD_replicate _ hp'
        · exact List.getD_eq_default _ _ (by simpa using hp')
    rw [hleaf]
    by_cases hp : p < 2 ^ height
    · rw [completeNode_nodeIndex le_rfl hp, Nat.sub_self]
      rfl
    · rw [completeNode_of_le (by unfold nodeIndex; omega), List.getD_eq_default _ _ (by omega)]

theorem nodesFrom_hashPair {height k : ℕ} {leaves nodes : List F} (hk : k < 2 ^ height - 1)
    (h : NodesFrom treeHash height leaves nodes (2 ^ height - 1 - k)) :
    NodesFrom treeHash height leaves (hashPair treeHash (2 ^ (height + 1) - 1) nodes k)
      (2 ^ height - 1 - (k + 1)) := by
  have hpow : 2 ^ (height + 1) = 2 * 2 ^ height := pow_succ' 2 height
  obtain ⟨hlen, hnodes⟩ := h
  refine ⟨by rw [hashPair, List.length_set, hlen], fun i hi => ?_⟩
  -- the parent that the step computes, and its children
  have hright : 2 ^ (height + 1) - 1 - 2 * k - 1 = 2 * (2 ^ height - 1 - (k + 1)) + 2 := by omega
  have hleft : 2 ^ (height + 1) - 1 - 2 * k - 1 - 1 = 2 * (2 ^ height - 1 - (k + 1)) + 1 := by
    omega
  have hparent : (2 ^ (height + 1) - 1 - 2 * k - 1) / 2 - 1 = 2 ^ height - 1 - (k + 1) := by
    rw [hright]
    omega
  rw [hashPair, hparent, hleft, hright, hnodes _ (by omega), hnodes _ (by omega)]
  rcases Nat.eq_or_lt_of_le hi with rfl | hlt
  · have hnode := completeNode_child (h := treeHash) (z := 0) (n := height)
      (i := 2 ^ height - 1 - (k + 1)) (by omega) (leaves.getD · 0)
    rw [hnode, List.getD_eq_getElem _ _ (by rw [List.length_set]; omega), List.getElem_set_self]
  · rw [List.getD_eq_getElem?_getD, List.getElem?_set_ne (by omega), ← List.getD_eq_getElem?_getD]
    exact hnodes i (by omega)

theorem nodesFrom_foldl {height k : ℕ} {leaves nodes : List F} (hk : k ≤ 2 ^ height - 1)
    (h : NodesFrom treeHash height leaves nodes (2 ^ height - 1)) :
    NodesFrom treeHash height leaves
      ((List.range k).foldl (hashPair treeHash (2 ^ (height + 1) - 1)) nodes)
      (2 ^ height - 1 - k) := by
  induction k with
  | zero => exact h
  | succ k ih =>
    rw [List.range_succ, List.foldl_append]
    exact nodesFrom_hashPair (by omega) (ih (by omega))

theorem nodesFrom_makeCompleteTree {height : ℕ} {leaves : List F}
    (hlen : leaves.length ≤ 2 ^ height) :
    NodesFrom treeHash height leaves (makeCompleteTree treeHash height leaves) 0 := by
  have hpow : 2 ^ (height + 1) = 2 * 2 ^ height := pow_succ' 2 height
  have hk : (2 ^ (height + 1) - 1) / 2 = 2 ^ height - 1 := by omega
  have hleaves : NodesFrom treeHash height leaves _ (2 ^ height - 1) := nodesFrom_leaves hlen
  have h := nodesFrom_foldl le_rfl hleaves
  rw [Nat.sub_self] at h
  rw [makeCompleteTree, hk]
  exact h

/-- **The entries of `make_complete_tree` are the nodes of the tree.** -/
theorem makeCompleteTree_getD {height : ℕ} {leaves : List F} (hlen : leaves.length ≤ 2 ^ height)
    (i : ℕ) :
    (makeCompleteTree treeHash height leaves).getD i 0 =
      completeNode treeHash 0 height (leaves.getD · 0) i :=
  (nodesFrom_makeCompleteTree hlen).2 i i.zero_le

@[simp] theorem length_makeCompleteTree {height : ℕ} {leaves : List F}
    (hlen : leaves.length ≤ 2 ^ height) :
    (makeCompleteTree treeHash height leaves).length = 2 ^ (height + 1) - 1 :=
  (nodesFrom_makeCompleteTree hlen).1

/-! ### The tree that the vector holds -/

/-- The vector holds the Merkle tree over `leaves`: the padded leaves in its last row, and in every
internal position the hash of the two positions below it. -/
structure HoldsTree (treeHash : F → F → F) (height : ℕ) (leaves nodes : List F) : Prop where
  length_eq : nodes.length = 2 ^ (height + 1) - 1
  /-- The last row. -/
  lastRow : nodes.drop (2 ^ height - 1) =
    leaves ++ List.replicate (2 ^ height - leaves.length) 0
  /-- The internal nodes. -/
  parent : ∀ i < 2 ^ height - 1,
    nodes.getD i 0 = treeHash (nodes.getD (2 * i + 1) 0) (nodes.getD (2 * i + 2) 0)

theorem drop_makeCompleteTree {height : ℕ} {leaves : List F} (hlen : leaves.length ≤ 2 ^ height) :
    (makeCompleteTree treeHash height leaves).drop (2 ^ height - 1) =
      leaves ++ List.replicate (2 ^ height - leaves.length) 0 := by
  have hpow : 2 ^ (height + 1) = 2 * 2 ^ height := pow_succ' 2 height
  have hpos := Nat.two_pow_pos height
  apply List.ext_getElem
  · simp only [List.length_drop, length_makeCompleteTree hlen, List.length_append,
      List.length_replicate]
    omega
  · intro p hp hp'
    have hlt : p < 2 ^ height := by
      simp only [List.length_append, List.length_replicate] at hp'
      omega
    -- the entry is the node of the last row over leaf `p`
    have hnode : (makeCompleteTree treeHash height leaves).getD (nodeIndex height p) 0 = _ :=
      makeCompleteTree_getD hlen _
    rw [completeNode_nodeIndex le_rfl hlt, Nat.sub_self, List.getD_eq_getElem _ _
      (by rw [length_makeCompleteTree hlen]; exact nodeIndex_lt hlt le_rfl)] at hnode
    rw [List.getElem_drop]
    refine hnode.trans ?_
    rw [Function.iterate_zero, id, List.getElem_append]
    split_ifs with hleaf
    · exact List.getD_eq_getElem _ _ hleaf
    · rw [List.getD_eq_default _ _ (by omega), List.getElem_replicate]

/-- **`make_complete_tree` computes the Merkle tree**, and its entry 0 is the root. -/
theorem holdsTree_makeCompleteTree (height : ℕ) (leaves : List F)
    (hlen : leaves.length ≤ 2 ^ height) :
    HoldsTree treeHash height leaves (makeCompleteTree treeHash height leaves) ∧
      (makeCompleteTree treeHash height leaves).getD 0 0 =
        treeRoot treeHash height (leaves.getD · 0) := by
  refine ⟨⟨length_makeCompleteTree hlen, drop_makeCompleteTree hlen, fun i hi => ?_⟩, ?_⟩
  · rw [makeCompleteTree_getD hlen, makeCompleteTree_getD hlen, makeCompleteTree_getD hlen]
    exact completeNode_child hi _
  · rw [makeCompleteTree_getD hlen, completeNode_zero]

/-- Three leaves, and one position that stays empty. -/
theorem holdsTree_three :
    [1, 2, 3].length ≤ 2 ^ 2 ∧
      HoldsTree (fun a b : ℕ => 10 * a + b) 2 [1, 2, 3]
        (makeCompleteTree (fun a b : ℕ => 10 * a + b) 2 [1, 2, 3]) ∧
      makeCompleteTree (fun a b : ℕ => 10 * a + b) 2 [1, 2, 3] = [150, 12, 30, 1, 2, 3, 0] :=
  ⟨by decide, (holdsTree_makeCompleteTree 2 [1, 2, 3] (by decide)).1, by decide⟩

/-! ### The naive root -/

/-- The root of the naive tree over a list of leaves.  `make_complete_tree` panics when they do not
fit into the tree. -/
def naiveRoot (treeHash : F → F → F) (height : ℕ) (leaves : List F) : Option F :=
  if leaves.length ≤ 2 ^ height then some ((makeCompleteTree treeHash height leaves).getD 0 0)
  else none

theorem naiveRoot_eq_some {height : ℕ} {leaves : List F} {root : F} :
    naiveRoot treeHash height leaves = some root ↔
      leaves.length ≤ 2 ^ height ∧ root = treeRoot treeHash height (leaves.getD · 0) := by
  unfold naiveRoot
  split_ifs with hlen
  · rw [makeCompleteTree_getD hlen, completeNode_zero, Option.some_inj, eq_comm]
    exact (and_iff_right hlen).symm
  · exact iff_of_false not_false fun h => hlen h.1

@[simp] theorem makeCompleteTree_zero (a : F) : makeCompleteTree treeHash 0 [a] = [a] := by
  simp [makeCompleteTree]

end Trees

end Nightfall
