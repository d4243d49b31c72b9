import Nightfall.Trees.InsertionPaths

/-!
# The root that `insert_leaves` returns

`insert_leaves` returns the root of its last update of a low nullifier, not that of the append.  A
batch of zeros, which a block of deposits leads to, has no low nullifiers, and the value returned is
the zero that the loop starts with.

* `IsRoot` : what the value should be, the root of the naive tree over all leaf hashes;
* `returns_new_root_iff` : **when it is**;
* `zeros_return_zero` : a batch of zeros.
-/

namespace Nightfall

namespace Trees

open Merkle Stateful

variable {treeHash : Fr254 → Fr254 → Fr254} {hash : Fr254 → Fr254 → Fr254 → Fr254}
  {db db' : TreeDb Fr254} {t u : NaiveTree Fr254} {l : List Fr254} {treeHeight subTreeHeight : ℕ}

/-- All leaf hashes of an indexed tree: those of the records at their indices, else zero. -/
def leafHashes (hash : Fr254 → Fr254 → Fr254 → Fr254) (metadata : TreeMetadata Fr254) (c : Leaves) :
    List Fr254 :=
  (List.range (metadata.subTreeCount * 2 ^ metadata.subTreeHeight)).map (leafAt hash c)

/-- `root` is what `get_root` returns on `db`, and the root of the naive tree over all leaf
hashes. -/
def IsRoot (treeHash : Fr254 → Fr254 → Fr254) (hash : Fr254 → Fr254 → Fr254 → Fr254)
    (db : TreeDb Fr254) (root : Fr254) : Prop :=
  getRoot.run db = .ok root db ∧
    ∃ metadata, db.metadata = some metadata ∧
      naiveRoot treeHash (metadata.treeHeight + metadata.subTreeHeight)
        (leafHashes hash metadata db.indexedLeaves) = some root

/-! ### Trees within their capacity -/

theorem AtRest.naiveRoot_eq (h : AtRest treeHash hash db t) :
    naiveRoot treeHash t.height (leafHashes hash (t.metadata treeHash) db.indexedLeaves) =
      some (t.node treeHash 0) := by
  have hlength : (leafHashes hash (t.metadata treeHash) db.indexedLeaves).length =
      t.subTreeCount * 2 ^ t.subTreeHeight := by
    rw [leafHashes, List.length_map, List.length_range]
    rfl
  rw [naiveRoot, if_pos (by rw [hlength]; exact h.first_le),
    makeCompleteTree_getD (by rw [hlength]; exact h.first_le), NaiveTree.node]
  refine congrArg some (completeNode_congr fun i _ _ => ?_)
  rw [h.leaves]
  split_ifs with hi
  · rw [List.getD_eq_getElem _ _ (by rw [hlength]; exact hi)]
    simp only [leafHashes, List.getElem_map, List.getElem_range]
  · exact List.getD_eq_default _ _ (by rw [hlength]; exact not_lt.1 hi)

/-- The stored root is the only one. -/
theorem AtRest.isRoot_iff (h : AtRest treeHash hash db t) {root : Fr254} :
    IsRoot treeHash hash db root ↔ root = t.node treeHash 0 := by
  constructor
  · rintro ⟨hroot, -⟩
    rw [h.run_getRoot] at hroot
    cases hroot
    rfl
  · rintro rfl
    exact ⟨h.run_getRoot, _, h.refines.metadata, h.naiveRoot_eq⟩

/-- The leaf hashes of a tree beyond its capacity have no naive tree. -/
theorem HasShape.not_isRoot {n : ℕ} (h : HasShape db treeHeight subTreeHeight n)
    (hn : 2 ^ treeHeight < n) (root : Fr254) : ¬IsRoot treeHash hash db root := by
  rintro ⟨-, metadata, hmetadata, hnaive⟩
  obtain ⟨root', hshape⟩ := h
  obtain rfl := Option.some_inj.1 (hmetadata.symm.trans hshape)
  rw [naiveRoot, if_neg] at hnaive
  · cases hnaive
  · rw [leafHashes, List.length_map, List.length_range, not_le, pow_add]
    exact Nat.mul_lt_mul_of_pos_right hn (Nat.two_pow_pos _)

theorem AtRest.root_of_zeros (h : AtRest treeHash hash db t) (h' : AtRest treeHash hash db' u)
    (hu : u.height = t.height) (hc : db'.indexedLeaves = db.indexedLeaves) :
    u.node treeHash 0 = t.node treeHash 0 := by
  rw [NaiveTree.node, NaiveTree.node, hu, h.leaves_eq, h'.leaves_eq, hc]

theorem StoredAll.eq_of_nil {c d : Leaves} (h : StoredAll c [] d) : d = c := by
  cases h
  rfl

theorem slots_of_zeros {start : ℕ} (hl : ∀ v ∈ l, v = 0) : slots start l = [] := by
  refine List.map_eq_nil_iff.1 ((map_fst_slots start l).trans ?_)
  exact List.filter_eq_nil_iff.2 fun v hv => by simp [hl v hv]

/-! ### The value returned -/

/-- **`insert_leaves` returns the new root if and only if the batch fits into the tree and is empty
or has a value other than zero**, or else the root before is zero. -/
theorem returns_new_root_iff (hzero : treeHash 0 0 = 0) (hheight : treeHeight + subTreeHeight ≤ 32)
    (hdb : ReachableIndexed treeHash hash treeHeight subTreeHeight db)
    {metadata : TreeMetadata Fr254} (hmetadata : db.metadata = some metadata) {root : Fr254}
    (hrun : (insertLeaves treeHash hash l).run db = .ok root db') :
    IsRoot treeHash hash db' root ↔
      metadata.subTreeCount + l.length / 2 ^ metadata.subTreeHeight ≤ 2 ^ metadata.treeHeight ∧
        (l = [] ∨ (∃ v ∈ l, v ≠ 0) ∨ metadata.root = 0) := by
  have hshape : HasShape db metadata.treeHeight metadata.subTreeHeight metadata.subTreeCount :=
    ⟨metadata.root, hmetadata⟩
  -- an empty batch changes nothing
  have hshape' : HasShape db' metadata.treeHeight metadata.subTreeHeight
      (metadata.subTreeCount + l.length / 2 ^ metadata.subTreeHeight) := by
    by_cases hl : l = []
    · subst hl
      rw [run_insertLeaves_nil hrun, List.length_nil, Nat.zero_div, Nat.add_zero]
      exact hshape
    · exact (hasShape_insertLeaves hl hrun hshape).2.2
  by_cases hfit :
      metadata.subTreeCount + l.length / 2 ^ metadata.subTreeHeight ≤ 2 ^ metadata.treeHeight
  swap
  · exact iff_of_false (hshape'.not_isRoot (not_le.1 hfit) root) fun h => hfit h.1
  rcases hdb.state hzero hheight with ⟨t, ht, htree, hsub⟩ | ⟨n, hn, root', hroot'⟩
  swap
  · obtain rfl := Option.some_inj.1 (hroot'.symm.trans hmetadata)
    exact absurd ((Nat.le_add_right _ _).trans hfit) hn.not_ge
  obtain rfl := Option.some_inj.1 (ht.refines.metadata.symm.trans hmetadata)
  have hheight' : t.height ≤ 32 := by
    rw [NaiveTree.height, htree, hsub]
    exact hheight
  rw [and_iff_right hfit]
  by_cases hl : l = []
  · subst hl
    rw [insertLeaves, if_pos List.isEmpty_nil, ht.run_getRoot] at hrun
    cases hrun
    exact iff_of_true (ht.isRoot_iff.2 rfl) (.inl rfl)
  · obtain ⟨hlen, -, -⟩ := hasShape_insertLeaves hl hrun ht.hasShape
    obtain ⟨r, hr⟩ := ht.linked
    obtain ⟨hnew, hdistinct⟩ :=
      new_of_storesValues (storesValues_insertLeaves treeHash hash l) hrun hr
    obtain ⟨root', db'', u, hrun', hu, heq, hstored, hroot⟩ :=
      run_insertLeaves ht hheight' hl hlen hfit hnew hdistinct
    rw [hrun] at hrun'
    cases hrun'
    rw [hu.isRoot_iff, hroot]
    by_cases hall : ∀ v ∈ l, v = 0
    · -- the loop over the low nullifiers does not run
      have hleaves : db'.indexedLeaves = db.indexedLeaves := by
        rw [slots_of_zeros hall] at hstored
        exact hstored.eq_of_nil
      have hsame := ht.root_of_zeros hu (by rw [heq]; rfl) hleaves
      have hnone : ¬∃ v ∈ l, v ≠ 0 := by
        push Not
        exact hall
      rw [if_pos hall, hsame]
      simp only [hl, hnone, false_or]
      exact eq_comm
    · push Not at hall
      rw [if_neg (by push Not; exact hall)]
      exact iff_of_true rfl (.inr (.inl hall))

theorem returns_new_root_iff_sample : ∃ root db', (insertLeaves sampleHash sampleLeafHash
    sampleNullifiers).run (sampleIndexedTree 1) = .ok root db' ∧
      IsRoot sampleHash sampleLeafHash db' root := by
  have hreachable : ReachableIndexed sampleHash sampleLeafHash 1 3 (sampleIndexedTree 1) :=
    reachable_sampleIndexedTree (by decide +kernel)
  have hshape : shape (sampleIndexedTree 1) = some (1, 3, 1) := by decide +kernel
  obtain ⟨root₀, hroot₀⟩ := hasShape_iff.2 hshape
  have hrun : Succeeds (insertLeaves sampleHash sampleLeafHash sampleNullifiers >>= fun _ => pure ())
      (sampleIndexedTree 1) = true := by decide +kernel
  obtain ⟨db', hdb'⟩ := Succeeds.exists hrun
  obtain ⟨root, db₁, hinsert, hpure⟩ := run_bind_eq_ok.1 hdb'
  have hfit : 1 + sampleNullifiers.length / 2 ^ 3 ≤ 2 ^ 1 := by decide
  exact ⟨root, db₁, hinsert, (returns_new_root_iff (by decide +kernel) (by omega) hreachable hroot₀
    hinsert).2 ⟨hfit, .inr (.inl ⟨(5 : ℕ), List.mem_cons_self, by decide +kernel⟩)⟩⟩

/-- The leaves that a block of deposits adds to the tree of nullifiers. -/
def zeroBatch : List Fr254 := List.replicate 8 0

/-- `insert_leaves` of zeros returns zero, and `get_root` something else. -/
def zerosReturnZero : Bool :=
  match (insertLeaves sampleHash sampleLeafHash zeroBatch).run (sampleIndexedTree 1) with
  | .ok root db =>
    decide (root = 0) && match getRoot.run db with
      | .ok newRoot _ => decide (newRoot ≠ 0)
      | .error _ _ => false
  | .error _ _ => false

/-- After a block of deposits the value returned is not the root. -/
theorem zeros_return_zero :
    ReachableIndexed sampleHash sampleLeafHash 1 3 (sampleIndexedTree 1) ∧
      ∃ root db', (insertLeaves sampleHash sampleLeafHash zeroBatch).run (sampleIndexedTree 1) =
          .ok root db' ∧ ¬IsRoot sampleHash sampleLeafHash db' root := by
  refine ⟨reachable_sampleIndexedTree (by decide +kernel), ?_⟩
  have hrun : zerosReturnZero = true := by decide +kernel
  rw [zerosReturnZero] at hrun
  split at hrun
  · rename_i root db' hinsert
    rw [Bool.and_eq_true, decide_eq_true_eq] at hrun
    refine ⟨root, db', hinsert, fun hroot => ?_⟩
    rw [hroot.1, hrun.1] at hrun
    exact of_decide_eq_true hrun.2 rfl
  · cases hrun

end Trees

end Nightfall
