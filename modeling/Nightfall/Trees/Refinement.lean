import Nightfall.Trees.Naive

/-!
# The mutable tree refines the naive tree

`Holds db t` says that the main database stores the nodes of the naive tree `t`.  Every operation
that fits into the tree takes a database that holds `t` to one that holds `t` after the operation,
and what it returns is computed from `t` alone.  The cache may hold nodes of the tree after the
operation; the operation flushes them.
-/

namespace Nightfall

namespace Trees

open Merkle

variable {F : Type} [Zero F] {treeHash : F → F → F}

/-! ### Leaves that are written -/

namespace NaiveTree

variable {f : ℕ → F} {start i : ℕ} {l : List F}

theorem overwrite_add {j : ℕ} (hj : j < l.length) : overwrite f start l (start + j) = l.getD j 0 := by
  rw [overwrite, if_pos (by omega), Nat.add_sub_cancel_left]

theorem overwrite_of_notMem (h : ¬ (start ≤ i ∧ i < start + l.length)) :
    overwrite f start l i = f i := if_neg h

/-- The nodes that cover no leaf of the sub-trees that are written stay as they are. -/
theorem node_overwrite_of_clear {n m a b : ℕ} (hstart : start = a * 2 ^ m)
    (hl : l.length ≤ (b - a) * 2 ^ m) (h : Clear n (leavesBetween m a b) i) :
    completeNode treeHash 0 n (overwrite f start l) i = completeNode treeHash 0 n f i := by
  subst hstart
  refine completeNode_congr fun j hj hcov => overwrite_of_notMem fun hmem => h j hj ?_ hcov
  have hpos := Nat.two_pow_pos m
  have hle : a * 2 ^ m + l.length ≤ max a b * 2 ^ m := by
    rcases le_total a b with hab | hab
    · rw [max_eq_right hab]
      calc a * 2 ^ m + l.length ≤ a * 2 ^ m + (b - a) * 2 ^ m := by omega
        _ = (a + (b - a)) * 2 ^ m := by ring
        _ = b * 2 ^ m := by rw [Nat.add_sub_cancel' hab]
    · rw [max_eq_left hab]
      rw [Nat.sub_eq_zero_of_le hab, Nat.zero_mul] at hl
      omega
  have h1 : a ≤ j / 2 ^ m := (Nat.le_div_iff_mul_le hpos).2 hmem.1
  have h2 : j / 2 ^ m < max a b := (Nat.div_lt_iff_lt_mul hpos).2 (by omega)
  exact ⟨h1, by omega⟩

/-- The metadata of a tree. -/
def metadata (treeHash : F → F → F) (t : NaiveTree F) : TreeMetadata F :=
  ⟨t.treeHeight, t.subTreeHeight, t.subTreeCount, t.node treeHash 0⟩

end NaiveTree

/-! ### Databases that hold a tree -/

/-- The database has the metadata of `t` and stores its nodes. -/
structure Holds (treeHash : F → F → F) (db : TreeDb F) (t : NaiveTree F) : Prop where
  metadata : db.metadata = some (t.metadata treeHash)
  nodes : ∀ i, storedValue db.nodes i = t.node treeHash i

/-- The database holds `t`, and nothing is in the cache. -/
structure Refines (treeHash : F → F → F) (db : TreeDb F) (t : NaiveTree F) : Prop extends
    Holds treeHash db t where
  cache : db.cache = .empty

omit [Zero F] in
theorem cacheAgrees_of_empty {db : TreeDb F} (h : db.cache = .empty) (N : ℕ → F) :
    CacheAgrees db N := by
  intro node hnode
  rw [h] at hnode
  exact absurd hnode List.not_mem_nil

/-- Reading a node is reading the node of the naive tree. -/
theorem Refines.getNode {db : TreeDb F} {t : NaiveTree F} (h : Refines treeHash db t) (i : ℕ) :
    db.getNode i = t.node treeHash i :=
  getNode_eq (cacheAgrees_of_empty h.cache _) (h.nodes i)

/-- What a committed operation leaves: the metadata of `t`, and the nodes that it set and those from
the cache. -/
def commit (treeHash : F → F → F) (db : TreeDb F) (t : NaiveTree F) (updates : List (Node F)) :
    TreeDb F :=
  { db with
    metadata := some (t.metadata treeHash)
    nodes := (db.nodes.upserts updates).upserts db.cache.docs
    cache := .empty }

/-- A commit with the nodes of `t`, when the cache has such nodes only. -/
theorem refines_commit {db : TreeDb F} {t : NaiveTree F} {updates : List (Node F)}
    (hcache : CacheAgrees db (t.node treeHash))
    (hnodes : ∀ i, storedValue (db.nodes.upserts updates) i = t.node treeHash i) :
    Refines treeHash (commit treeHash db t updates) t where
  metadata := rfl
  nodes i := storedValue_upserts (hnodes i) hcache
  cache := rfl

omit [Zero F] in
@[simp] theorem run_getMetadata {db : TreeDb F} {metadata : TreeMetadata F}
    (h : db.metadata = some metadata) : getMetadata.run db = .ok metadata db := by
  simp [getMetadata, EStateM.run_bind, h]

omit [Zero F] in
@[simp] theorem run_throwErr {α : Type} (e : MerkleTreeError) (db : TreeDb F) :
    (throwErr e : TreeM F α).run db = .error (.err e) db := rfl

/-! ### Sub-trees -/

theorem getD_chunks_append (t : NaiveTree F) {l : List F} {k j : ℕ}
    (hlen : l.length % 2 ^ t.subTreeHeight = 0) (hk : k < (chunks (2 ^ t.subTreeHeight) l).length)
    (hj : j < 2 ^ t.subTreeHeight) (count : ℕ) :
    (t.append l count).leaves (2 ^ t.subTreeHeight * (t.subTreeCount + k) + j) =
      (chunks (2 ^ t.subTreeHeight) l)[k].getD j 0 := by
  have hpos := Nat.two_pow_pos t.subTreeHeight
  obtain ⟨hchunks, -, -⟩ := chunks_spec hpos hlen
  have hlt : 2 ^ t.subTreeHeight * k + j < l.length := by
    calc 2 ^ t.subTreeHeight * k + j < 2 ^ t.subTreeHeight * (k + 1) := by
          rw [Nat.mul_succ]
          omega
      _ ≤ 2 ^ t.subTreeHeight * (l.length / 2 ^ t.subTreeHeight) :=
          Nat.mul_le_mul_left _ (hchunks ▸ hk)
      _ ≤ l.length := Nat.mul_div_le _ _
  have hleaf : NaiveTree.overwrite t.leaves (t.subTreeCount * 2 ^ t.subTreeHeight) l
      (t.subTreeCount * 2 ^ t.subTreeHeight + (2 ^ t.subTreeHeight * k + j)) =
        l.getD (2 ^ t.subTreeHeight * k + j) 0 := NaiveTree.overwrite_add hlt
  rw [getD_chunks hk hj, ← hleaf, show t.subTreeCount * 2 ^ t.subTreeHeight +
    (2 ^ t.subTreeHeight * k + j) = 2 ^ t.subTreeHeight * (t.subTreeCount + k) + j by ring]
  rfl

/-- **`append_sub_trees` refines the append.** -/
theorem run_appendSubTrees {db : TreeDb F} {t : NaiveTree F} {l : List F}
    (hdb : Holds treeHash db t) (hne : l ≠ []) (hlen : l.length % 2 ^ t.subTreeHeight = 0)
    (hfit : t.subTreeCount + l.length / 2 ^ t.subTreeHeight ≤ 2 ^ t.treeHeight)
    (hcache : CacheAgrees db ((t.append l (l.length / 2 ^ t.subTreeHeight)).node treeHash)) :
    ∃ updates, (appendSubTrees treeHash l true).run db =
        .ok ((t.append l (l.length / 2 ^ t.subTreeHeight)).node treeHash 0,
            (t.subTreeCount + l.length / 2 ^ t.subTreeHeight) * 2 ^ t.subTreeHeight)
          (commit treeHash db (t.append l (l.length / 2 ^ t.subTreeHeight)) updates) ∧
      updates.map Node.id = appendKeys (t.metadata treeHash) t.subTreeCount
        (l.length / 2 ^ t.subTreeHeight) ∧
      ∀ i, storedValue (db.nodes.upserts updates) i =
        (t.append l (l.length / 2 ^ t.subTreeHeight)).node treeHash i := by
  have hpos := Nat.two_pow_pos t.subTreeHeight
  obtain ⟨hchunks, hsize, hflat⟩ := chunks_spec hpos hlen
  have hnonempty : chunks (2 ^ t.subTreeHeight) l ≠ [] := by
    intro h
    rw [h, List.flatten_nil] at hflat
    exact hne hflat.symm
  have huntouched : ∀ i, Clear t.height (leavesBetween t.subTreeHeight t.subTreeCount
      (t.subTreeCount + (chunks (2 ^ t.subTreeHeight) l).length)) i → storedValue db.nodes i =
      completeNode treeHash 0 t.height (t.append l (l.length / 2 ^ t.subTreeHeight)).leaves i := by
    intro i hi
    rw [hdb.nodes, NaiveTree.node]
    refine (NaiveTree.node_overwrite_of_clear rfl ?_ hi).symm
    rw [Nat.add_sub_cancel_left, hchunks, Nat.div_mul_cancel (Nat.dvd_of_mod_eq_zero hlen)]
  obtain ⟨hash, updates, hrun, hkeys, hvalues, hhash⟩ := @run_foldlM_appendSubTree F treeHash _
    t.height (t.append l (l.length / 2 ^ t.subTreeHeight)).leaves db (t.metadata treeHash)
    (chunks (2 ^ t.subTreeHeight) l) (0, t.subTreeCount) rfl hsize (hchunks ▸ hfit)
    (fun k hk j hj => getD_chunks_append t hlen hk hj _) hcache huntouched
  rw [hchunks] at hrun hkeys
  refine ⟨updates, ?_, hkeys, hvalues⟩
  have hcount : ¬ 2 ^ t.treeHeight < t.subTreeCount := by omega
  have hmeta := hdb.metadata
  simp only [NaiveTree.metadata] at hmeta hrun
  simp only [appendSubTrees, ne_eq, List.isEmpty_iff, hne, if_false, gt_iff_lt, replaceMetadata,
    flushCache, bind_pure_comp, ite_not, EStateM.run_bind, run_getMetadata hmeta, hlen, if_true,
    hcount, hrun, hhash hnonempty, EStateM.run_modify, commit]
  rfl

/-! ### One sub-tree -/

section OneSubTree

variable {db : TreeDb F} {t u : NaiveTree F} {d m p : ℕ} {l : List F}

theorem leavesBetween_succ (m p : ℕ) : leavesBetween m p (p + 1) = leavesBelow m p := by
  ext i
  simp only [leavesBetween, leavesBelow, Set.mem_ofPred_eq]
  omega

/-- A sub-tree that is hooked in takes the nodes of `t` to those of `t` with its leaves. -/
theorem storedValue_hookSubTree (hdb : Holds treeHash db t) (hn : d + m = t.height)
    (hp : p < 2 ^ d) (hlen : l.length = 2 ^ m) (hheight : u.height = t.height)
    (hleaves : u.leaves = NaiveTree.overwrite t.leaves (p * 2 ^ m) l)
    (hcache : CacheAgrees db (u.node treeHash)) :
    (∀ i, storedValue (db.nodes.upserts (hookSubTree treeHash db.getNode d m (nodeIndex d p)
        (makeCompleteTree treeHash m l)).2) i = u.node treeHash i) ∧
      (hookSubTree treeHash db.getNode d m (nodeIndex d p)
        (makeCompleteTree treeHash m l)).1 = u.node treeHash 0 := by
  have hnode : u.node treeHash = completeNode treeHash 0 t.height
      (NaiveTree.overwrite t.leaves (p * 2 ^ m) l) := by
    funext i
    rw [NaiveTree.node, hheight, hleaves]
  rw [hnode] at hcache ⊢
  have hf : ∀ j < 2 ^ m,
      NaiveTree.overwrite t.leaves (p * 2 ^ m) l (2 ^ m * p + j) = l.getD j 0 := by
    intro j hj
    rw [Nat.mul_comm]
    exact NaiveTree.overwrite_add (hlen ▸ hj)
  have huntouched : ∀ i, Clear t.height (leavesBelow m p ∪ ∅) i → storedValue db.nodes i =
      completeNode treeHash 0 t.height (NaiveTree.overwrite t.leaves (p * 2 ^ m) l) i := by
    intro i hi
    rw [Set.union_empty, ← leavesBetween_succ] at hi
    rw [hdb.nodes, NaiveTree.node_overwrite_of_clear rfl (by simp [hlen]) hi]
    rfl
  obtain ⟨hvalues, hroot⟩ := storedValue_hooked hn hp hlen.le hf hcache huntouched
  exact ⟨fun i => hvalues i fun _ _ h => absurd h (Set.notMem_empty _),
    hroot fun _ _ h => absurd h (Set.notMem_empty _)⟩

/-- **`insert_leaf` refines the append of one leaf.** -/
theorem run_insertLeaf {leaf : F} (hdb : Holds treeHash db t)
    (hfit : t.subTreeCount < 2 ^ t.treeHeight)
    (hcache : CacheAgrees db ((t.append [leaf] 1).node treeHash)) :
    ∃ updates, (insertLeaf treeHash leaf true).run db =
        .ok ((t.append [leaf] 1).node treeHash 0) (commit treeHash db (t.append [leaf] 1) updates) ∧
      updates.map Node.id = hookKeys t.height 0
        (nodeIndex t.height (t.subTreeCount * 2 ^ t.subTreeHeight)) ∧
      ∀ i, storedValue (db.nodes.upserts updates) i = (t.append [leaf] 1).node treeHash i := by
  have hlt : t.subTreeCount * 2 ^ t.subTreeHeight < 2 ^ t.height := by
    rw [NaiveTree.height, pow_add]
    exact Nat.mul_lt_mul_of_pos_right hfit (Nat.two_pow_pos _)
  obtain ⟨hvalues, hroot⟩ := storedValue_hookSubTree (u := t.append [leaf] 1) (l := [leaf]) hdb
    (Nat.add_zero _) hlt rfl rfl (by rw [pow_zero, Nat.mul_one]; rfl) hcache
  rw [makeCompleteTree_zero] at hvalues hroot
  let hooked := hookSubTree treeHash db.getNode t.height 0
    (nodeIndex t.height (t.subTreeCount * 2 ^ t.subTreeHeight)) [leaf]
  have hrun : (insertLeaf treeHash leaf true).run db = .ok hooked.1
      { db with
        metadata := some
          { t.metadata treeHash with subTreeCount := t.subTreeCount + 1, root := hooked.1 }
        nodes := (db.nodes.upserts hooked.2).upserts db.cache.docs
        cache := .empty } := by
    simp only [insertLeaf, EStateM.run_bind, run_getMetadata hdb.metadata]
    rfl
  refine ⟨hooked.2, ?_, map_id_hookSubTree _ _ _ _ _, hvalues⟩
  rw [hrun, show hooked.1 = _ from hroot]
  rfl

/-- Where `update_sub_tree` hooks the leaves in. -/
structure Position (metadata : TreeMetadata F) (subTreeIndex : ℕ) (l : List F) : Prop where
  height : heightToUse metadata l + rowsToSet metadata l =
    metadata.treeHeight + metadata.subTreeHeight
  lt : subTreeIndex < 2 ^ heightToUse metadata l
  length : l.length = 2 ^ rowsToSet metadata l
  log : Nat.log 2 l.length = rowsToSet metadata l

theorem position_of_fits {subTreeIndex : ℕ} {b : Bool}
    (hfit : (TreeOp.updateSubTree subTreeIndex l b).Fits t) :
    Position (t.metadata treeHash) subTreeIndex l := by
  rcases hfit with ⟨hlen, hlt⟩ | ⟨hlen, hlt⟩
  · have hrows : rowsToSet (t.metadata treeHash) l = 0 := by simp [rowsToSet, hlen]
    have hheight : heightToUse (t.metadata treeHash) l = t.height := by
      unfold heightToUse
      rw [hlen, Nat.log_one_right, Nat.sub_zero]
      split_ifs with h
      · rw [NaiveTree.height, show t.subTreeHeight = 0 from h.symm]
        rfl
      · rfl
    exact ⟨by rw [hheight, hrows]; rfl, hheight ▸ hlt, by rw [hrows, hlen]; rfl,
      by rw [hrows, hlen, Nat.log_one_right]⟩
  · have hlog : Nat.log 2 l.length = t.subTreeHeight := by
      rw [hlen, Nat.log_pow one_lt_two]
    have hheight : heightToUse (t.metadata treeHash) l = t.treeHeight := if_pos hlog
    have hrows : rowsToSet (t.metadata treeHash) l = t.subTreeHeight := by
      unfold rowsToSet
      split_ifs with h
      · rfl
      · rw [not_not, hlen] at h
        exact ((Nat.pow_eq_one.1 h).resolve_left (by decide)).symm
    exact ⟨by rw [hheight, hrows]; rfl, hheight ▸ hlt, by rw [hrows, hlen], by rw [hrows, hlog]⟩

/-- **`update_sub_tree` refines the write of a leaf or of a sub-tree.**  The database holds the
new root also when the nodes stay in the cache. -/
theorem run_updateSubTree [DecidableEq F] {subTreeIndex : ℕ} (hdb : Holds treeHash db t) (b : Bool)
    (hfit : (TreeOp.updateSubTree subTreeIndex l b).Fits t)
    (hu : u = t.write (subTreeIndex * l.length) l) (hcache : CacheAgrees db (u.node treeHash)) :
    ∃ updates, (updateSubTree treeHash subTreeIndex l b).run db =
        .ok (u.node treeHash 0) (if b then commit treeHash db u updates
          else { db with
            metadata := some (u.metadata treeHash), cache := db.cache.upserts updates }) ∧
      updates.map Node.id = hookKeys (heightToUse (t.metadata treeHash) l)
        (rowsToSet (t.metadata treeHash) l)
        (nodeIndex (heightToUse (t.metadata treeHash) l) subTreeIndex) ∧
      ∀ i, storedValue (db.nodes.upserts updates) i = u.node treeHash i := by
  have hposition : Position (t.metadata treeHash) subTreeIndex l := position_of_fits hfit
  obtain ⟨hn, hp, hlen, hlog⟩ := hposition
  subst hu
  obtain ⟨hvalues, hroot⟩ := storedValue_hookSubTree (u := t.write (subTreeIndex * l.length) l) hdb
    hn hp hlen rfl (by rw [← hlen]; rfl) hcache
  let hooked := hookSubTree treeHash db.getNode (heightToUse (t.metadata treeHash) l)
    (rowsToSet (t.metadata treeHash) l)
    (nodeIndex (heightToUse (t.metadata treeHash) l) subTreeIndex)
    (makeCompleteTree treeHash (rowsToSet (t.metadata treeHash) l) l)
  have hrun : (updateSubTree treeHash subTreeIndex l b).run db = .ok hooked.1
      (if b then { db with
          metadata := some { t.metadata treeHash with root := hooked.1 }
          nodes := (db.nodes.upserts hooked.2).upserts db.cache.docs
          cache := .empty }
        else { db with
          metadata := some { t.metadata treeHash with root := hooked.1 }
          cache := db.cache.upserts hooked.2 }) := by
    have hclog : 2 ^ Nat.clog 2 l.length = l.length := by
      rw [hlen, Nat.clog_pow 2 _ one_lt_two]
    have hne : l ≠ [] := by
      rintro rfl
      exact (Nat.two_pow_pos _).ne hlen
    have hlt : subTreeIndex < 2 ^ ((t.metadata treeHash).treeHeight +
        (t.metadata treeHash).subTreeHeight) := by
      rw [← hn]
      exact hp.trans_le (Nat.pow_le_pow_right two_pos (Nat.le_add_right _ _))
    have hsub : Nat.log 2 l.length ≤ (t.metadata treeHash).treeHeight +
        (t.metadata treeHash).subTreeHeight := by
      rw [hlog, ← hn]
      exact Nat.le_add_left _ _
    have hsize : (makeCompleteTree treeHash (Nat.log 2 l.length) l).length =
        2 ^ (rowsToSet (t.metadata treeHash) l + 1) - 1 := by
      rw [hlog, length_makeCompleteTree hlen.le]
    simp only [updateSubTree, EStateM.run_bind, run_getMetadata hdb.metadata, hclog, hne, not_le.2 hlt,
      not_lt.2 hsub, hsize, lt_irrefl, ne_eq, not_true_eq_false, if_false, List.isEmpty_iff,
      and_false, EStateM.run_get]
    rw [hlog]
    cases b <;> rfl
  refine ⟨hooked.2, ?_, map_id_hookSubTree _ _ _ _ _, hvalues⟩
  rw [hrun, show hooked.1 = _ from hroot]
  rfl

end OneSubTree

/-! ### Proofs and insertion for a circuit -/

namespace NaiveTree

/-- The siblings on the path from the root of sub-tree `p` of the tree to the root. -/
def subTreePath (treeHash : F → F → F) (t : NaiveTree F) (p : ℕ) : List (PathElement F) :=
  siblings (t.node treeHash) t.treeHeight (nodeIndex t.treeHeight p)

/-- What `insert_for_circuit` returns. -/
def insertionInfo (treeHash : F → F → F) (t : NaiveTree F) (l : List F) :
    CircuitInsertionInfo F where
  oldRoot := t.node treeHash 0
  newRoot := (t.append l 1).node treeHash 0
  leaves := l
  proof := ⟨t.subTreePath treeHash t.subTreeCount, t.subTreeCount, 0⟩
  leafCount := t.subTreeCount * 2 ^ t.subTreeHeight + l.length

end NaiveTree

section Circuit

variable {db : TreeDb F} {t : NaiveTree F} {l : List F}

theorem run_getMembershipProof_index [DecidableEq F] {leaf : Option F} {leafIndex : ℕ} (hdb : Holds treeHash db t)
    (hlt : leafIndex < 2 ^ t.height) :
    (getMembershipProof leaf (some leafIndex)).run db =
      .ok ⟨siblings db.getNode t.height (nodeIndex t.height leafIndex), leafIndex,
        leaf.getD (db.getNode (nodeIndex t.height leafIndex))⟩ db := by
  have hpos := Nat.two_pow_pos t.height
  have hindex : leafIndex + 2 ^ t.height - 1 = nodeIndex t.height leafIndex := by
    unfold nodeIndex
    omega
  have hrange : ¬ (nodeIndex t.height leafIndex < 2 ^ t.height - 1 ∨
      2 ^ (t.height + 1) - 2 < nodeIndex t.height leafIndex) := by
    have := nodeIndex_add_one t.height leafIndex
    rw [pow_succ]
    omega
  have hleaf : nodeIndex t.height leafIndex + 1 - 2 ^ t.height = leafIndex := by
    rw [nodeIndex_add_one]
    omega
  have hheight : (t.metadata treeHash).treeHeight + (t.metadata treeHash).subTreeHeight = t.height :=
    rfl
  simp only [getMembershipProof, EStateM.run_bind, run_getMetadata hdb.metadata, EStateM.run_get,
    hheight, leafNodeIndex, hindex, hrange, if_false, hleaf, EStateM.run_pure]

/-- The path above the new sub-tree is the same before and after, also when it is read through a
cache with nodes of the tree after. -/
theorem siblings_getNode_append (hdb : Holds treeHash db t) (hlen : l.length = 2 ^ t.subTreeHeight)
    (hfit : t.subTreeCount < 2 ^ t.treeHeight)
    (hcache : CacheAgrees db ((t.append l 1).node treeHash)) :
    siblings db.getNode t.treeHeight (nodeIndex t.treeHeight t.subTreeCount) =
      t.subTreePath treeHash t.subTreeCount := by
  have hsame : ∀ i, Clear t.height (leavesBelow t.subTreeHeight t.subTreeCount ∪ ∅) i →
      db.getNode i = t.node treeHash i := by
    intro i hi
    rw [Set.union_empty, ← leavesBetween_succ] at hi
    have hnode : t.node treeHash i = (t.append l 1).node treeHash i :=
      (NaiveTree.node_overwrite_of_clear rfl (by simp [hlen]) hi).symm
    rw [hnode]
    exact getNode_eq hcache ((hdb.nodes i).trans hnode)
  refine siblings_congr hfit (fun i hi h => CoversAll.parent h hi) (fun i hi h => ?_)
    (coversAll_root (n := t.height) (m := t.subTreeHeight) rfl)
  obtain ⟨hleft, hright⟩ := CoversAll.clear_sibling h hi
    (fun _ _ hmem => absurd hmem (Set.notMem_empty _))
  exact ⟨fun h => hsame _ (hleft h), fun h => hsame _ (hright h)⟩

/-- **`insert_for_circuit` refines the append of one sub-tree.** -/
theorem run_insertForCircuit [DecidableEq F] (hdb : Holds treeHash db t) (hlen : l.length = 2 ^ t.subTreeHeight)
    (hfit : t.subTreeCount < 2 ^ t.treeHeight)
    (hcache : CacheAgrees db ((t.append l 1).node treeHash)) :
    ∃ updates, (insertForCircuit treeHash l).run db =
        .ok (t.insertionInfo treeHash l) (commit treeHash db (t.append l 1) updates) ∧
      updates.map Node.id = appendKeys (t.metadata treeHash) t.subTreeCount 1 ∧
      ∀ i, storedValue (db.nodes.upserts updates) i = (t.append l 1).node treeHash i := by
  have hpos := Nat.two_pow_pos t.subTreeHeight
  have hdiv : l.length / 2 ^ t.subTreeHeight = 1 := by rw [hlen, Nat.div_self hpos]
  have hne : l ≠ [] := by
    rintro rfl
    exact hpos.ne hlen
  have hlt : t.subTreeCount * 2 ^ t.subTreeHeight < 2 ^ t.height := by
    rw [NaiveTree.height, pow_add]
    exact Nat.mul_lt_mul_of_pos_right hfit hpos
  obtain ⟨updates, hrun, hkeys, hvalues⟩ := run_appendSubTrees (l := l) hdb hne
    (by rw [hlen, Nat.mod_self]) (by rw [hdiv]; exact hfit) (by rw [hdiv]; exact hcache)
  rw [hdiv] at hrun hkeys hvalues
  refine ⟨updates, ?_, hkeys, hvalues⟩
  have hproof : (getMembershipProof none (some (t.subTreeCount * 2 ^ t.subTreeHeight))).run db =
      .ok _ db := run_getMembershipProof_index hdb hlt
  have hpath := drop_siblings db.getNode t.treeHeight t.subTreeHeight
    (t.subTreeCount * 2 ^ t.subTreeHeight)
  rw [Nat.mul_div_cancel _ hpos, siblings_getNode_append hdb hlen hfit hcache] at hpath
  simp only [insertForCircuit, EStateM.run_bind, run_getMetadata hdb.metadata,
    show (t.metadata treeHash).subTreeHeight = t.subTreeHeight from rfl,
    show (t.metadata treeHash).subTreeCount = t.subTreeCount from rfl, hlen, ne_eq,
    not_true_eq_false, if_false, hproof, hrun, EStateM.run_pure]
  rw [NaiveTree.insertionInfo, ← hpath, hlen]
  rfl

/-! ### Batches -/

namespace NaiveTree

/-- The tree with one sub-tree after the other appended. -/
def appendAll (t : NaiveTree F) (cs : List (List F)) : NaiveTree F :=
  cs.foldl (fun t c => t.append c 1) t

theorem appendAll_cons (t : NaiveTree F) (c : List F) (cs : List (List F)) :
    t.appendAll (c :: cs) = (t.append c 1).appendAll cs := rfl

/-- What `insert_for_circuit` returns for one sub-tree after the other. -/
def insertionInfos (treeHash : F → F → F) (t : NaiveTree F) :
    List (List F) → List (CircuitInsertionInfo F)
  | [] => []
  | c :: cs => t.insertionInfo treeHash c :: insertionInfos treeHash (t.append c 1) cs

theorem overwrite_overwrite (f : ℕ → F) (start : ℕ) (a b : List F) :
    overwrite (overwrite f start a) (start + a.length) b = overwrite f start (a ++ b) := by
  funext i
  simp only [overwrite, List.length_append]
  by_cases ha : start ≤ i ∧ i < start + a.length
  · rw [if_neg (by omega), if_pos ha, if_pos (by omega), List.getD_append _ _ _ _ (by omega)]
  · by_cases hb : start + a.length ≤ i ∧ i < start + a.length + b.length
    · rw [if_pos hb, if_pos (by omega), List.getD_append_right _ _ _ _ (by omega)]
      congr 1
      omega
    · rw [if_neg hb, if_neg ha, if_neg (by omega)]

theorem append_append {a b : List F} {k : ℕ} (ha : a.length = k * 2 ^ t.subTreeHeight) (m : ℕ) :
    (t.append a k).append b m = t.append (a ++ b) (k + m) := by
  simp only [append, write, NaiveTree.mk.injEq, true_and]
  refine ⟨?_, Nat.add_assoc _ _ _⟩
  rw [Nat.add_mul, ← ha, overwrite_overwrite]

theorem append_nil (t : NaiveTree F) : t.append [] 0 = t := by
  have hleaves : overwrite t.leaves (t.subTreeCount * 2 ^ t.subTreeHeight) [] = t.leaves := by
    funext i
    exact overwrite_of_notMem (by simp)
  simp only [append, write, hleaves]
  rfl

theorem appendAll_eq {cs : List (List F)} (hcs : ∀ c ∈ cs, c.length = 2 ^ t.subTreeHeight) :
    t.appendAll cs = t.append cs.flatten cs.length := by
  induction cs generalizing t with
  | nil => exact (append_nil t).symm
  | cons c cs ih =>
    rw [List.forall_mem_cons] at hcs
    rw [appendAll_cons, @ih (t.append c 1) hcs.2, append_append (by rw [hcs.1, Nat.one_mul]),
      List.flatten_cons, List.length_cons, Nat.add_comm 1]

theorem getLast_insertionInfos (treeHash : F → F → F) {cs : List (List F)}
    (hcs : ∀ c ∈ cs, c.length = 2 ^ t.subTreeHeight) :
    ∀ info ∈ (t.insertionInfos treeHash cs).getLast?,
      info.newRoot = (t.appendAll cs).node treeHash 0 ∧
        info.leafCount = (t.appendAll cs).subTreeCount * 2 ^ t.subTreeHeight := by
  induction cs generalizing t with
  | nil => simp [insertionInfos]
  | cons c cs ih =>
    rw [List.forall_mem_cons] at hcs
    intro info hinfo
    cases cs with
    | nil =>
      obtain rfl : t.insertionInfo treeHash c = info := by simpa [insertionInfos] using hinfo
      refine ⟨rfl, ?_⟩
      simp only [insertionInfo, appendAll, List.foldl_cons, List.foldl_nil, append, hcs.1]
      ring
    | cons c' cs =>
      rw [insertionInfos, insertionInfos, List.getLast?_cons_cons] at hinfo
      exact @ih (t.append c 1) hcs.2 info hinfo

end NaiveTree

omit [Zero F] in
theorem run_expect {α : Type} (message : String) {x : TreeM F α} {db db' : TreeDb F} {a : α}
    (h : x.run db = .ok a db') : (expect message x).run db = .ok a db' := by
  simp only [EStateM.run, expect] at h ⊢
  rw [h]

/-- **`batch_insert_with_circuit_info` refines the appends.** -/
theorem run_mapM_insertForCircuit [DecidableEq F] (message : String) {cs : List (List F)}
    (hdb : Refines treeHash db t) (hcs : ∀ c ∈ cs, c.length = 2 ^ t.subTreeHeight)
    (hfit : t.subTreeCount + cs.length ≤ 2 ^ t.treeHeight) :
    ∃ db', (cs.mapM fun c => expect message (insertForCircuit treeHash c)).run db =
        .ok (t.insertionInfos treeHash cs) db' ∧ Refines treeHash db' (t.appendAll cs) ∧
      db'.indexedLeaves = db.indexedLeaves := by
  induction cs generalizing t db with
  | nil => exact ⟨db, rfl, hdb, rfl⟩
  | cons c cs ih =>
    rw [List.forall_mem_cons] at hcs
    rw [List.length_cons] at hfit
    have hcache := cacheAgrees_of_empty hdb.cache ((t.append c 1).node treeHash)
    obtain ⟨updates, hrun, -, hvalues⟩ := run_insertForCircuit hdb.toHolds hcs.1 (by omega) hcache
    have hstep := refines_commit hcache hvalues
    obtain ⟨db', hrest, hdb', hleaves⟩ := ih hstep hcs.2
      (show t.subTreeCount + 1 + cs.length ≤ 2 ^ t.treeHeight by omega)
    refine ⟨db', ?_, hdb', hleaves⟩
    rw [List.mapM_cons, EStateM.run_bind, run_expect _ hrun]
    simp only [EStateM.run_bind, hrest]
    rfl

end Circuit

end Trees

end Nightfall
